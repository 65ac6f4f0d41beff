import Pgfs.Db.Splitting
import Pgfs.Db.Rules

namespace Pgfs

open MachineInt Blocked

/-! What the block storage methods do to the contents of a file: the bytes that
its blocks stand for, and its size. -/

namespace Tables

def bytes (tables : Tables) (key : Key) : Nat → UInt8 :=
  flat 0 blockSize (tables.block key)

def FileAt (tables : Tables) (key : Key) (size : Nat) : Prop :=
  ∃ mtime, tables.entries.lookup key = some ⟨.file, size, mtime⟩

/-- What `getattr_primary` finds. -/
def attributes (tables : Tables) (key : Key) : Except DbError (Option FileMeta) :=
  match tables.entries.lookup key with
  | none => .ok none
  | some row => (rowToMeta key.name row).map some

theorem FileAt.attributes {tables : Tables} {key : Key} {size : Nat}
    (file : tables.FileAt key size) :
    ∃ mtime, tables.attributes key = .ok (some ⟨key.name, .file, size, mtime⟩) := by
  rcases file with ⟨mtime, stored⟩
  refine ⟨mtime, ?_⟩
  have converted : rowToMeta key.name ⟨.file, size, mtime⟩ =
      .ok ⟨key.name, .file, size, mtime⟩ := rowToMeta_eq_ok_iff.mpr ⟨rfl, rfl⟩
  simp [Tables.attributes, stored, converted, Except.map]

theorem bytes_upsertBlock (tables : Tables) (key : Key) (blockNo : Int)
    (data : List UInt8) (index : Nat) :
    (tables.upsertBlock key blockNo data).bytes key index =
      if blockOf blockSize index = blockNo then
        Vec.cell 0 data (index % blockSize)
      else
        tables.bytes key index := by
  unfold bytes flat
  rw [block_upsertBlock]
  by_cases inBlock : blockOf blockSize index = blockNo <;> simp [inBlock]

theorem FileAt.unique {tables : Tables} {key : Key} {size other : Nat}
    (file : tables.FileAt key size) (same : tables.FileAt key other) : size = other := by
  rcases file with ⟨mtime, stored⟩
  rcases same with ⟨time, row⟩
  rw [stored] at row
  simp only [Option.some.injEq, EntryRow.mk.injEq] at row
  omega

theorem lookup_of_attributes {tables : Tables} {key : Key} {fileMeta : FileMeta}
    (known : tables.attributes key = .ok (some fileMeta)) :
    tables.entries.lookup key =
      some ⟨fileMeta.kind.text, fileMeta.size, fileMeta.mtime⟩ := by
  unfold Tables.attributes at known
  cases stored : tables.entries.lookup key with
  | none =>
      rw [stored] at known
      cases known
  | some row =>
      rw [stored] at known
      cases converted : rowToMeta key.name row with
      | error failure => simp [converted, Except.map] at known
      | ok found =>
          simp only [converted, Except.map, Except.ok.injEq, Option.some.injEq] at known
          rw [(rowToMeta_eq_ok_iff.mp converted).2, known]

theorem lookup_eq_none_of_attributes {tables : Tables} {key : Key}
    (known : tables.attributes key = .ok none) : tables.entries.lookup key = none := by
  unfold Tables.attributes at known
  cases stored : tables.entries.lookup key with
  | none => rfl
  | some row =>
      rw [stored] at known
      cases converted : rowToMeta key.name row with
      | error failure => simp [converted, Except.map] at known
      | ok found => simp [converted, Except.map] at known

theorem fileAt_of_attributes {tables : Tables} {key : Key} {fileMeta : FileMeta}
    (known : tables.attributes key = .ok (some fileMeta)) (file : fileMeta.kind ≠ .dir) :
    tables.FileAt key fileMeta.size := by
  refine ⟨fileMeta.mtime, ?_⟩
  rw [lookup_of_attributes known]
  cases kind : fileMeta.kind with
  | file => rfl
  | dir => exact absurd kind file

structure ContentsOnly (key : Key) (before after : Tables) : Prop where
  entries : ∀ other, other ≠ key →
    after.entries.lookup other = before.entries.lookup other
  kind : (after.entries.lookup key).map (·.kind) =
    (before.entries.lookup key).map (·.kind)
  blocks : ∀ other, other ≠ key → ∀ blockNo,
    after.block other blockNo = before.block other blockNo

theorem ContentsOnly.refl (key : Key) (tables : Tables) : ContentsOnly key tables tables :=
  ⟨fun _ _ => rfl, rfl, fun _ _ _ => rfl⟩

theorem ContentsOnly.trans {key : Key} {first second third : Tables}
    (left : ContentsOnly key first second) (right : ContentsOnly key second third) :
    ContentsOnly key first third where
  entries other different := (right.entries other different).trans (left.entries other different)
  kind := right.kind.trans left.kind
  blocks other different blockNo :=
    (right.blocks other different blockNo).trans (left.blocks other different blockNo)

theorem contentsOnly_upsertBlock (tables : Tables) (key : Key) (blockNo : Int)
    (data : List UInt8) :
    ContentsOnly key tables (tables.upsertBlock key blockNo data) where
  entries _ _ := rfl
  kind := rfl
  blocks other different otherNo := by
    rw [block_upsertBlock, if_neg fun equal => different equal.1]

theorem contentsOnly_pruneBlocks (tables : Tables) (key : Key) (last : Int) :
    ContentsOnly key tables (tables.pruneBlocks key last) where
  entries _ _ := rfl
  kind := rfl
  blocks other different otherNo := by
    rw [block_pruneBlocks, if_neg fun equal => different equal.1]

theorem contentsOnly_updateSize (tables : Tables) (key : Key) (size : Int) (now : Nat) :
    ContentsOnly key tables (tables.updateSize key size now) where
  entries other different := by rw [lookup_updateSize, if_neg different]
  kind := by
    rw [lookup_updateSize, if_pos rfl]
    cases tables.entries.lookup key <;> rfl
  blocks _ _ _ := rfl

theorem FileAt.of_entries {before after : Tables} {key : Key} {size : Nat}
    (file : before.FileAt key size) (same : after.entries = before.entries) :
    after.FileAt key size := by
  unfold FileAt
  rw [same]
  exact file

theorem fileAt_updateSize {tables : Tables} {key : Key} {size newSize : Nat}
    (file : tables.FileAt key size) (fits : newSize < 2 ^ 63) (now : Nat) :
    (tables.updateSize key (asI64 newSize) now).FileAt key newSize := by
  rcases file with ⟨mtime, stored⟩
  exact ⟨now, by simp [lookup_updateSize, stored, asI64_of_lt fits]⟩

end Tables

namespace Db

variable {before : Db} {parent name : Str}

/-! ## Attributes -/

theorem getattrPrimary_atomic :
    Atomic before (getattrPrimary parent name)
      (fun found tables => tables = before.tables ∧
        before.tables.attributes ⟨parent, name⟩ = .ok found)
      (∃ failure, before.tables.attributes ⟨parent, name⟩ = .error failure) := by
  unfold getattrPrimary Tables.attributes
  refine Atomic.bind_read (fun row =>
    row = before.tables.entries.lookup ⟨parent, name⟩) (query_atomic ⟨rfl, rfl⟩) ?_
  rintro _ middle _ same rfl
  cases before.tables.entries.lookup ⟨parent, name⟩ with
  | none => exact atomic_pure ⟨same, rfl⟩
  | some row =>
      cases converted : rowToMeta name row with
      | error failure =>
          simp only [converted, ofExcept, Effect.raise_bind]
          exact atomic_raise ⟨failure, rfl⟩
      | ok fileMeta =>
          simp only [converted, ofExcept, Effect.pure_bind]
          exact atomic_pure ⟨same, rfl⟩

theorem total_getattrPrimary (parent name : Str) :
    Effect.Total (getattrPrimary parent name) := by
  apply (total_query _ _).bind
  rintro (_ | row)
  · exact Effect.total_pure _
  · exact (total_ofExcept _).bind fun _ => Effect.total_pure _

/-! ## Writing -/

theorem writeBlock_inside {offset : Nat} {data : List UInt8} {blockNo : Int} :
    Inside before (writeBlock parent name offset data blockNo)
      (fun _ tables => ∃ blockOffset chunk,
        chunkAt offset data blockNo = some (blockOffset, chunk) ∧
        tables = before.tables.upsertBlock ⟨parent, name⟩ blockNo
          (Vec.patch
            (if 0 < blockOffset ∨ chunk.length < blockSize then
              (before.tables.block ⟨parent, name⟩ blockNo).getD []
            else
              [])
            blockOffset chunk 0))
      False := by
  unfold writeBlock
  refine Inside.bind (fun piece tables => tables = before.tables ∧
    chunkAt offset data blockNo = some piece)
    (atomic_orAbort fun piece chunked => ⟨rfl, chunked⟩).inside ?_
  rintro ⟨blockOffset, chunk⟩ middle _ ⟨same, chunked⟩
  by_cases part : 0 < blockOffset ∨ chunk.length < blockSize
  · simp only [if_pos part, Effect.pure_bind]
    refine Inside.bind (fun row tables => tables = before.tables ∧
      row = before.tables.block ⟨parent, name⟩ blockNo) (query_atomic ?_).inside ?_
    · simp [same, Tables.readBlocks]
    · rintro _ next _ ⟨nextSame, rfl⟩
      apply (update_atomic _).inside
      exact ⟨blockOffset, chunk, chunked, by rw [nextSame, if_pos part]⟩
  · simp only [if_neg part, Effect.pure_bind]
    apply (update_atomic _).inside
    exact ⟨blockOffset, chunk, chunked, by rw [same, if_neg part]⟩

private theorem bytes_writeBlock {tables : Tables} {key : Key} {offset blockOffset : Nat}
    {data chunk : List UInt8} {blockNo : Int} {index : Nat}
    (fits : offset + data.length ≤ addressable) (low : offset ≤ index)
    (high : index < offset + data.length) (touched : blockOf blockSize index = blockNo)
    (chunked : chunkAt offset data blockNo = some (blockOffset, chunk)) (other : Nat) :
    (tables.upsertBlock key blockNo (Vec.patch
        (if 0 < blockOffset ∨ chunk.length < blockSize then
          (tables.block key blockNo).getD []
        else
          [])
        blockOffset chunk 0)).bytes key other =
      if blockOf blockSize other = blockNo then
        Vec.overlay 0 (tables.bytes key) offset data other
      else
        tables.bytes key other := by
  rcases chunkAt_of_touched fits low high touched with
    ⟨_, _, sameChunk, patched, covered⟩
  rw [chunked] at sameChunk
  cases sameChunk
  rw [Tables.bytes_upsertBlock]
  split
  · rename_i inBlock
    split
    · exact patched _ other inBlock
    · rename_i whole
      have inside := covered whole other inBlock
      have replaced := patched (fun _ => none) other inBlock
      rw [Option.getD_none] at replaced
      rw [replaced, Vec.overlay, Vec.overlay, if_pos inside, if_pos inside]
  · rfl

private theorem writeBlocks_inside {offset : Nat} {data : List UInt8}
    (nonempty : 0 < data.length) :
    Inside before
      ((rangeInclusive (asI32 (offset / blockSize))
        (asI32 ((offset + data.length - 1) / blockSize))).forM
          (writeBlock parent name offset data))
      (fun _ tables => tables.entries = before.tables.entries ∧
        Tables.ContentsOnly ⟨parent, name⟩ before.tables tables ∧
        (offset + data.length ≤ addressable →
          tables.bytes ⟨parent, name⟩ =
            Vec.overlay 0 (before.tables.bytes ⟨parent, name⟩) offset data))
      False := by
  refine (inside_forM (fun rest tables => tables.entries = before.tables.entries ∧
    Tables.ContentsOnly ⟨parent, name⟩ before.tables tables ∧
    (offset + data.length ≤ addressable → ∀ index,
      tables.bytes ⟨parent, name⟩ index =
        if blockOf blockSize index ∈ rest then
          before.tables.bytes ⟨parent, name⟩ index
        else
          Vec.overlay 0 (before.tables.bytes ⟨parent, name⟩) offset data index))
    ?_ ?_).imp ?_ id
  · rintro blockNo rest middle _ ⟨entries, contents, bytes⟩ suffix
    refine writeBlock_inside.imp ?_ id
    rintro _ tables ⟨blockOffset, chunk, chunked, rfl⟩
    refine ⟨entries, contents.trans (Tables.contentsOnly_upsertBlock _ _ _ _), ?_⟩
    intro fits index
    have member := suffix.subset (List.mem_cons_self)
    rcases (mem_blockRange nonempty fits).mp member with ⟨witness, low, high, touched⟩
    have fresh : blockNo ∉ rest := (List.nodup_cons.mp
      (suffix.sublist.nodup (rangeInclusive_nodup _ _))).1
    rw [bytes_writeBlock fits low high touched chunked]
    by_cases inBlock : blockOf blockSize index = blockNo
    · rw [if_pos inBlock, inBlock, if_neg fresh]
      simp only [Vec.overlay, bytes fits, inBlock, List.mem_cons, true_or, if_true]
    · rw [if_neg inBlock, bytes fits]
      simp only [List.mem_cons, inBlock, false_or]
  · refine ⟨rfl, .refl _ _, fun fits index => ?_⟩
    split
    · rfl
    · rename_i untouched
      rw [Vec.overlay, if_neg]
      exact fun inside => untouched ((mem_blockRange nonempty fits).mpr
        ⟨index, inside.1, inside.2, rfl⟩)
  · rintro _ tables ⟨entries, contents, bytes⟩
    exact ⟨entries, contents, fun fits => funext fun index => by simpa using bytes fits index⟩

/-- `write_range` overlays the data and grows the file to its end. -/
structure Written (key : Key) (offset : Nat) (data : List UInt8)
    (before after : Tables) : Prop where
  contents : Tables.ContentsOnly key before after
  nothing : data = [] → after = before
  bytes : offset + data.length ≤ addressable →
    after.bytes key = Vec.overlay 0 (before.bytes key) offset data
  size : ∀ size, before.FileAt key size → data ≠ [] →
    max size (offset + data.length) < 2 ^ 63 →
    after.FileAt key (max size (offset + data.length))

theorem writeRange_atomic {offset : Nat} {data : List UInt8} :
    Atomic before (writeRange parent name offset data)
      (fun _ tables => Written ⟨parent, name⟩ offset data before.tables tables)
      (∃ failure, before.tables.attributes ⟨parent, name⟩ = .error failure) := by
  unfold writeRange
  cases data with
  | nil =>
      refine atomic_pure ⟨.refl _ _, fun _ => rfl, fun _ => ?_, fun _ _ empty => ?_⟩
      · funext index
        rw [Vec.overlay, if_neg]
        simp
      · exact absurd rfl empty
  | cons head tail =>
      generalize bytesEq : head :: tail = data
      have nonempty : 0 < data.length := by simp [← bytesEq]
      have notEmpty : ¬data = [] := by simp [← bytesEq]
      simp only [List.isEmpty_iff, if_neg notEmpty]
      refine Atomic.bind_read (fun stop => stop = offset + data.length)
        (atomic_orAbort ?_) ?_
      · intro stop added
        exact ⟨rfl, eq_of_checkedAdd added⟩
      rintro _ started _ startedSame rfl
      refine Atomic.bind_read (fun found =>
        before.tables.attributes ⟨parent, name⟩ = .ok found) ?_ ?_
      · rw [← startedSame]
        exact getattrPrimary_atomic
      intro found opened _ openedSame attributes
      apply transaction_atomic
      intro running _ runningSame
      refine Inside.bind _ ((writeBlocks_inside nonempty).imp (fun _ _ => id) False.elim) ?_
      rintro _ stored _ ⟨entries, contents, bytes⟩
      have initial : running.tables = before.tables :=
        runningSame.trans (openedSame.trans startedSame)
      rw [initial] at entries contents bytes
      apply (update_atomic _).inside
      refine ⟨contents.trans (Tables.contentsOnly_updateSize _ _ _ _),
        fun empty => absurd empty notEmpty, bytes, ?_⟩
      rintro size file _ fits
      rcases file.attributes with ⟨mtime, known⟩
      rw [known] at attributes
      cases attributes
      exact Tables.fileAt_updateSize (file.of_entries entries) fits _

/-! ## Truncating -/

/-- The blocks that shrinking to a size leaves: those past the one that the new
end falls into go, and that one is cut unless the new end is its first byte. -/
def shrunkBlocks (newSize : Nat) (blocks : Int → Option (List UInt8)) (blockNo : Int) :
    Option (List UInt8) :=
  if asI32 (newSize / blockSize) < blockNo then
    none
  else if blockNo = asI32 (newSize / blockSize) ∧ 0 < newSize % blockSize then
    (blocks blockNo).map (·.take (newSize % blockSize))
  else
    blocks blockNo

/-- `truncate` shrinks the blocks when the file gets shorter, and sets the size. -/
structure Truncated (key : Key) (newSize : Nat) (before after : Tables) : Prop where
  contents : Tables.ContentsOnly key before after
  blocks : ∃ size, before.FileAt key size ∧
    after.block key =
      if newSize < size then shrunkBlocks newSize (before.block key)
      else before.block key
  size : newSize < 2 ^ 63 → after.FileAt key newSize

private theorem shrinkBlocks_inside {newSize : Nat} :
    Inside before (shrinkBlocks parent name newSize)
      (fun _ tables => tables.entries = before.tables.entries ∧
        Tables.ContentsOnly ⟨parent, name⟩ before.tables tables ∧
        tables.block ⟨parent, name⟩ =
          shrunkBlocks newSize (before.tables.block ⟨parent, name⟩))
      False := by
  unfold shrinkBlocks
  refine Inside.bind (fun _ tables =>
    tables = before.tables.pruneBlocks ⟨parent, name⟩ (asI32 (newSize / blockSize)))
    (update_atomic rfl).inside ?_
  intro _ pruned _ prunedTables
  have contents : Tables.ContentsOnly ⟨parent, name⟩ before.tables pruned.tables := by
    rw [prunedTables]
    exact Tables.contentsOnly_pruneBlocks _ _ _
  have entries : pruned.tables.entries = before.tables.entries := by
    rw [prunedTables]
    rfl
  have blocks : ∀ blockNo, pruned.tables.block ⟨parent, name⟩ blockNo =
      if asI32 (newSize / blockSize) < blockNo then none
      else before.tables.block ⟨parent, name⟩ blockNo := by
    intro blockNo
    rw [prunedTables, Tables.block_pruneBlocks]
    simp
  by_cases cut : 0 < newSize % blockSize
  · simp only [if_pos cut]
    refine Inside.bind (fun row tables => tables = pruned.tables ∧
      row = before.tables.block ⟨parent, name⟩ (asI32 (newSize / blockSize)))
      (query_atomic ⟨rfl, by simp [Tables.readBlocks, blocks]⟩).inside ?_
    rintro _ read _ ⟨readTables, rfl⟩
    rw [← readTables] at contents entries blocks
    cases stored : before.tables.block ⟨parent, name⟩ (asI32 (newSize / blockSize)) with
    | none =>
        refine inside_pure ⟨entries, contents, funext fun blockNo => ?_⟩
        rw [blocks, shrunkBlocks]
        split
        · rfl
        · split
          · rename_i boundary
            simp [boundary.1, stored]
          · rfl
    | some blockData =>
        apply (update_atomic _).inside
        refine ⟨entries, contents.trans (Tables.contentsOnly_upsertBlock _ _ _ _),
          funext fun blockNo => ?_⟩
        rw [Tables.block_upsertBlock, blocks, shrunkBlocks]
        by_cases boundary : blockNo = asI32 (newSize / blockSize)
        · simp [boundary, stored, cut]
        · simp [boundary]
  · simp only [if_neg cut]
    refine inside_pure ⟨entries, contents, funext fun blockNo => ?_⟩
    rw [blocks, shrunkBlocks]
    simp [cut]

theorem truncate_atomic {newSize : Nat} :
    Atomic before (truncate parent name newSize)
      (fun _ tables => Truncated ⟨parent, name⟩ newSize before.tables tables)
      (∀ size, ¬before.tables.FileAt ⟨parent, name⟩ size) := by
  unfold truncate
  refine Atomic.bind_read (fun found =>
    before.tables.attributes ⟨parent, name⟩ = .ok found)
    (getattrPrimary_atomic.imp (fun _ _ => id) ?_) ?_
  · rintro ⟨failure, unreadable⟩ size file
    rcases file.attributes with ⟨mtime, known⟩
    rw [known] at unreadable
    cases unreadable
  rintro (_ | fileMeta) opened _ openedSame attributes
  · refine atomic_raise fun size file => ?_
    rcases file.attributes with ⟨mtime, known⟩
    rw [known] at attributes
    cases attributes
  by_cases directory : fileMeta.kind = .dir
  · simp only [if_pos directory]
    refine atomic_raise fun size file => ?_
    rcases file.attributes with ⟨mtime, known⟩
    rw [known] at attributes
    cases attributes
    cases directory
  simp only [if_neg directory]
  have file := Tables.fileAt_of_attributes attributes directory
  rw [← openedSame] at file ⊢
  apply transaction_atomic
  intro running _ runningSame
  rw [← runningSame] at file ⊢
  by_cases shrinks : newSize < fileMeta.size
  · simp only [if_pos shrinks]
    refine Inside.bind _ (shrinkBlocks_inside.imp (fun _ _ => id) False.elim) ?_
    rintro _ shrunk _ ⟨entries, contents, blocks⟩
    apply (update_atomic _).inside
    exact ⟨contents.trans (Tables.contentsOnly_updateSize _ _ _ _),
      ⟨_, file, (funext fun _ => rfl).trans (blocks.trans (if_pos shrinks).symm)⟩,
      fun fits => Tables.fileAt_updateSize (file.of_entries entries) fits _⟩
  · simp only [if_neg shrinks]
    apply (update_atomic _).inside
    exact ⟨Tables.contentsOnly_updateSize _ _ _ _,
      ⟨_, file, (funext fun _ => rfl).trans (if_neg shrinks).symm⟩,
      fun fits => Tables.fileAt_updateSize file fits _⟩

/-! ## Storing a batch of blocks -/

/-- `write_blocks_batch` replaces the given blocks and grows the file. -/
structure BatchStored (key : Key) (blocks : Table Int (List UInt8)) (newSize : Nat)
    (before after : Tables) : Prop where
  contents : Tables.ContentsOnly key before after
  blocks : ∀ blockNo, after.block key blockNo =
    (blocks.lookup blockNo).or (before.block key blockNo)
  size : ∀ size, before.FileAt key size → max size newSize < 2 ^ 63 →
    after.FileAt key (max size newSize)

private theorem storeBlocks_inside {blocks : Table Int (List UInt8)}
    (order : Table.Order Int (List UInt8)) :
    Inside before
      ((order.keys blocks).forM fun blockNo =>
        update ⟨"upsert block _ for _ in _", [.ofInt blockNo, name, parent]⟩
          fun _ tables => tables.upsertBlock ⟨parent, name⟩ blockNo
            ((blocks.lookup blockNo).getD []))
      (fun _ tables => tables.entries = before.tables.entries ∧
        Tables.ContentsOnly ⟨parent, name⟩ before.tables tables ∧
        ∀ blockNo, tables.block ⟨parent, name⟩ blockNo =
          (blocks.lookup blockNo).or (before.tables.block ⟨parent, name⟩ blockNo))
      False := by
  refine (inside_forM (fun rest tables => tables.entries = before.tables.entries ∧
    Tables.ContentsOnly ⟨parent, name⟩ before.tables tables ∧
    ∀ blockNo, tables.block ⟨parent, name⟩ blockNo =
      if blockNo ∈ rest then before.tables.block ⟨parent, name⟩ blockNo
      else (blocks.lookup blockNo).or (before.tables.block ⟨parent, name⟩ blockNo))
    ?_ ?_).imp ?_ id
  · rintro blockNo rest middle _ ⟨entries, contents, stored⟩ suffix
    apply (update_atomic _).inside
    refine ⟨entries, contents.trans (Tables.contentsOnly_upsertBlock _ _ _ _), ?_⟩
    intro otherNo
    have member := (order.mem_keys _ _).mp (suffix.subset List.mem_cons_self)
    have fresh := (List.nodup_cons.mp (suffix.sublist.nodup (order.nodup blocks))).1
    rcases Table.mem_iff_exists_lookup.mp member with ⟨data, dirty⟩
    rw [Tables.block_upsertBlock, stored]
    by_cases same : otherNo = blockNo
    · subst same
      simp [fresh, dirty]
    · simp [same]
  · refine ⟨rfl, .refl _ _, fun blockNo => ?_⟩
    split
    · rfl
    · rename_i clean
      have missing : blocks.lookup blockNo = none :=
        Finmap.lookup_eq_none.mpr fun member => clean ((order.mem_keys _ _).mpr member)
      rw [missing, Option.none_or]
  · rintro _ tables ⟨entries, contents, stored⟩
    exact ⟨entries, contents, fun blockNo => by simpa using stored blockNo⟩

/-- The rows that `write_blocks_batch` leaves. Only to grow a file does it read the
attributes. -/
structure BatchRows (key : Key) (blocks : Table Int (List UInt8)) (newSize : Nat)
    (before after : Tables) : Prop where
  contents : Tables.ContentsOnly key before after
  blocks : ∀ blockNo, after.block key blockNo =
    (blocks.lookup blockNo).or (before.block key blockNo)
  sizeless : newSize = 0 → after.entries = before.entries
  sized : 0 < newSize → ∃ found now, before.attributes key = .ok found ∧
    after.entries = (before.updateSize key
      (asI64 (max ((found.map (·.size)).getD 0) newSize)) now).entries

theorem writeBlocksBatch_rows {blocks : Table Int (List UInt8)} {newSize : Nat} :
    Atomic before (writeBlocksBatch parent name blocks newSize)
      (fun _ tables => BatchRows ⟨parent, name⟩ blocks newSize before.tables tables)
      (0 < newSize ∧ ∃ failure, before.tables.attributes ⟨parent, name⟩ = .error failure) := by
  unfold writeBlocksBatch
  by_cases nothing : blocks.isEmpty ∧ newSize = 0
  · rw [if_pos nothing]
    rcases nothing with ⟨empty, rfl⟩
    rw [Table.isEmpty_iff] at empty
    subst empty
    exact atomic_pure ⟨.refl _ _, fun _ => by simp, fun _ => rfl, fun sized => by cases sized⟩
  rw [if_neg nothing]
  by_cases sized : 0 < newSize
  · simp only [if_pos sized]
    refine Atomic.bind_read (fun found =>
      before.tables.attributes ⟨parent, name⟩ = .ok found)
      (getattrPrimary_atomic.imp (fun _ _ => id) fun unreadable => ⟨sized, unreadable⟩) ?_
    intro found opened _ openedSame attributes
    rw [← openedSame] at attributes ⊢
    refine Atomic.bind_read (fun _ => True) (atomic_get ⟨rfl, trivial⟩) ?_
    intro _ ordered _ orderedSame _
    rw [← orderedSame] at attributes ⊢
    apply transaction_atomic
    intro running _ runningSame
    rw [← runningSame] at attributes ⊢
    refine Inside.bind _ ((storeBlocks_inside _).imp (fun _ _ => id) False.elim) ?_
    rintro _ stored _ ⟨entries, contents, replaced⟩
    apply (update_atomic _).inside
    refine ⟨contents.trans (Tables.contentsOnly_updateSize _ _ _ _), replaced,
      fun sizeless => by omega, fun _ => ⟨found, stored.moment.now, attributes, ?_⟩⟩
    unfold Tables.updateSize
    rw [entries]
  · simp only [if_neg sized, Effect.pure_bind]
    refine Atomic.bind_read (fun _ => True) (atomic_get ⟨rfl, trivial⟩) ?_
    intro _ ordered _ orderedSame _
    rw [← orderedSame]
    apply transaction_atomic
    intro running _ runningSame
    rw [← runningSame]
    refine Inside.bind _ ((storeBlocks_inside _).imp (fun _ _ => id) False.elim) ?_
    rintro _ stored _ ⟨entries, contents, replaced⟩
    exact inside_pure ⟨contents, replaced, fun _ => entries, fun sizedAfter => absurd sizedAfter sized⟩

theorem writeBlocksBatch_atomic {blocks : Table Int (List UInt8)} {newSize : Nat} :
    Atomic before (writeBlocksBatch parent name blocks newSize)
      (fun _ tables => BatchStored ⟨parent, name⟩ blocks newSize before.tables tables)
      (∃ failure, before.tables.attributes ⟨parent, name⟩ = .error failure) := by
  refine writeBlocksBatch_rows.imp ?_ And.right
  intro _ tables rows
  refine ⟨rows.contents, rows.blocks, fun size file fits => ?_⟩
  rcases Nat.eq_zero_or_pos newSize with sizeless | sized
  · rw [sizeless, Nat.max_eq_left (Nat.zero_le _)]
    exact file.of_entries (rows.sizeless sizeless)
  · rcases rows.sized sized with ⟨found, now, attributes, entries⟩
    rcases file.attributes with ⟨mtime, known⟩
    rw [known] at attributes
    cases attributes
    exact (Tables.fileAt_updateSize file fits now).of_entries entries

end Db

end Pgfs
