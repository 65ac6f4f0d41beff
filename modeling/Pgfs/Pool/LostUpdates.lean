import Pgfs.Db.Ranges
import Pgfs.Pool.Statements

namespace Pgfs

open MachineInt Blocked ReadCommitted

/-! Two connections write to one file at the same time. The size is read before the
transaction begins, and a block that is replaced in part is read without a lock;
both are written back whole. -/

def RangeWrite.call (write : RangeWrite) (key : Key) : PooledCall Unit :=
  PooledCall.writeRange key write.offset write.data

namespace PooledCall

/-! ## The rows that a write reads and changes -/

section

variable {key : Key} {offset : Nat} {data : List UInt8} {last : PooledCall Unit}

private theorem readsOnce_storeBlocks (lastOnce : ∀ reads, last.ReadsOnce reads)
    {blocks : List Int} (distinct : blocks.Nodup) {reads : List TableRow}
    (unread : ∀ blockNo ∈ blocks, TableRow.block ⟨key, blockNo⟩ ∉ reads) :
    (storeBlocks key offset data last blocks).ReadsOnce reads := by
  induction blocks generalizing reads with
  | nil => exact lastOnce reads
  | cons blockNo rest induction =>
      have parts := List.nodup_cons.mp distinct
      unfold storeBlocks
      cases chunkAt offset data blockNo with
      | none => exact .crash
      | some piece =>
          rcases piece with ⟨blockOffset, chunk⟩
          by_cases part : 0 < blockOffset ∨ chunk.length < blockSize
          · simp only [if_pos part]
            apply Statements.ReadsOnce.read (unread blockNo List.mem_cons_self)
            intro _
            apply Statements.ReadsOnce.store
            apply induction parts.2
            intro other member read
            rcases List.mem_cons.mp read with same | earlier
            · cases same
              exact parts.1 member
            · exact unread other (List.mem_cons_of_mem _ member) earlier
          · simp only [if_neg part]
            apply Statements.ReadsOnce.store
            exact induction parts.2 fun other member =>
              unread other (List.mem_cons_of_mem _ member)

private theorem readsOnce_storeRange (key : Key) (offset : Nat) (data : List UInt8)
    (stop oldSize : Nat) :
    (storeRange key offset data stop oldSize).ReadsOnce [TableRow.entry key] := by
  apply Statements.ReadsOnce.start
  apply readsOnce_storeBlocks (fun _ => .store .commit) (rangeInclusive_nodup _ _)
  intro blockNo _ read
  rcases List.mem_singleton.mp read with ⟨⟩

theorem readsOnce_writeRange (key : Key) (offset : Nat) (data : List UInt8) :
    (writeRange key offset data).ReadsOnce [] := by
  unfold writeRange
  by_cases empty : data.isEmpty
  · rw [if_pos empty]
    exact .returns
  rw [if_neg empty]
  cases checkedAdd offset data.length with
  | none => exact .crash
  | some stop =>
      apply Statements.ReadsOnce.read List.not_mem_nil
      intro row
      cases row with
      | none => exact readsOnce_storeRange key offset data stop 0
      | some row =>
          cases converted : rowToMeta key.name row with
          | error failure =>
              simp only [converted]
              exact .returns
          | ok fileMeta =>
              simp only [converted]
              exact readsOnce_storeRange key offset data stop fileMeta.size

variable {known under : (row : TableRow) → row.Cell}

/-- What `write_range` stores in a block when it finds the known contents. -/
def blockContent (known : (row : TableRow) → row.Cell) (key : Key) (offset : Nat)
    (data : List UInt8) (blockNo : Int) : List UInt8 :=
  match chunkAt offset data blockNo with
  | none => []
  | some (blockOffset, chunk) =>
      Vec.patch
        (if 0 < blockOffset ∨ chunk.length < blockSize then
          (known (.block ⟨key, blockNo⟩)).getD []
        else
          [])
        blockOffset chunk 0

def blockWrites (known : (row : TableRow) → row.Cell) (key : Key) (offset : Nat)
    (data : List UInt8) (blocks : List Int) : List ((row : TableRow) × row.Cell) :=
  blocks.map fun blockNo =>
    ⟨.block ⟨key, blockNo⟩, some (blockContent known key offset data blockNo)⟩

private theorem ends_storeBlocks {blocks : List Int} (distinct : blocks.Nodup)
    {writes finalWrites : List ((row : TableRow) × row.Cell)}
    {reads finalReads : List TableRow}
    (unwritten : ∀ blockNo ∈ blocks, TableRow.block ⟨key, blockNo⟩ ∉ writes.map (·.1))
    (ends : Ends known under ⟨storeBlocks key offset data last blocks, writes, reads⟩
      finalWrites finalReads) :
    ∃ more, Ends known under
        ⟨last, writes ++ blockWrites known key offset data blocks, more ++ reads⟩
        finalWrites finalReads ∧
      ∀ row ∈ more, ∃ blockNo ∈ blocks, row = .block ⟨key, blockNo⟩ := by
  induction blocks generalizing writes reads with
  | nil =>
      refine ⟨[], ?_, fun _ member => nomatch member⟩
      rw [blockWrites, List.map_nil, List.append_nil]
      exact ends
  | cons blockNo rest induction =>
      have parts := List.nodup_cons.mp distinct
      have free := unwritten blockNo List.mem_cons_self
      have later : ∀ (blockData : List UInt8), ∀ other ∈ rest,
          TableRow.block ⟨key, other⟩ ∉
            (writes ++ [⟨.block ⟨key, blockNo⟩, some blockData⟩] :
              List ((row : TableRow) × row.Cell)).map (·.1) := by
        intro blockData other member written
        rw [List.map_append, List.mem_append] at written
        rcases written with earlier | same
        · exact unwritten other (List.mem_cons_of_mem _ member) earlier
        · rcases List.mem_singleton.mp same with ⟨⟩
          exact parts.1 member
      unfold storeBlocks at ends
      cases chunked : chunkAt offset data blockNo with
      | none =>
          rw [chunked] at ends
          exact ends.not_crash.elim
      | some piece =>
          rcases piece with ⟨blockOffset, chunk⟩
          simp only [chunked] at ends
          by_cases part : 0 < blockOffset ∨ chunk.length < blockSize
          · simp only [if_pos part] at ends
            rcases ends.afterRead.afterStore with ⟨now, stored⟩
            rw [overlaid_of_not_mem _ free] at stored
            rcases induction parts.2 (later _) stored with ⟨more, finished, inside⟩
            refine ⟨more ++ [.block ⟨key, blockNo⟩], ?_, ?_⟩
            · simpa [blockWrites, blockContent, chunked, if_pos part] using finished
            · intro row member
              rcases List.mem_append.mp member with read | here
              · rcases inside row read with ⟨other, among, same⟩
                exact ⟨other, List.mem_cons_of_mem _ among, same⟩
              · exact ⟨blockNo, List.mem_cons_self, List.mem_singleton.mp here⟩
          · simp only [if_neg part] at ends
            rcases ends.afterStore with ⟨now, stored⟩
            rcases induction parts.2 (later _) stored with ⟨more, finished, inside⟩
            refine ⟨more, ?_, ?_⟩
            · simpa [blockWrites, blockContent, chunked, if_neg part] using finished
            · intro row member
              rcases inside row member with ⟨other, among, same⟩
              exact ⟨other, List.mem_cons_of_mem _ among, same⟩

private theorem ends_storeRange {stop oldSize : Nat}
    {finalWrites : List ((row : TableRow) × row.Cell)} {reads finalReads : List TableRow}
    (ends : Ends known under ⟨storeRange key offset data stop oldSize, [], reads⟩
      finalWrites finalReads) :
    ∃ now more,
      finalWrites = blockWrites known key offset data
          (rangeInclusive (asI32 (offset / blockSize)) (asI32 ((stop - 1) / blockSize))) ++
        [⟨.entry key, (under (.entry key)).map fun row =>
          { row with size := asI64 (max oldSize stop), mtime := now }⟩] ∧
      finalReads = more ++ reads ∧
      ∀ row ∈ more, ∃ blockNo ∈
        rangeInclusive (asI32 (offset / blockSize)) (asI32 ((stop - 1) / blockSize)),
        row = .block ⟨key, blockNo⟩ := by
  unfold storeRange storeSize at ends
  have distinct := rangeInclusive_nodup (asI32 (offset / blockSize))
    (asI32 ((stop - 1) / blockSize))
  generalize rangeInclusive (asI32 (offset / blockSize)) (asI32 ((stop - 1) / blockSize)) =
    blocks at *
  rcases ends_storeBlocks distinct (fun _ _ => List.not_mem_nil) ends.afterStart with
    ⟨more, stored, inside⟩
  rcases stored.afterStore with ⟨now, sized⟩
  have unwritten : TableRow.entry key ∉
      (blockWrites known key offset data blocks).map (·.1) := by
    simp [blockWrites]
  rw [List.nil_append, overlaid_of_not_mem _ unwritten] at sized
  have finished := sized.eq_of_commit
  exact ⟨now, more, finished.1, finished.2, inside⟩

theorem ends_writeRange (nonempty : data ≠ []) {size mtime : Nat}
    (file : known (.entry key) = some ⟨.file, size, mtime⟩)
    {finalWrites : List ((row : TableRow) × row.Cell)} {finalReads : List TableRow}
    (ends : Ends known under (.opened (writeRange key offset data)) finalWrites finalReads) :
    ∃ now,
      finalWrites = blockWrites known key offset data
          (rangeInclusive (asI32 (offset / blockSize))
            (asI32 ((offset + data.length - 1) / blockSize))) ++
        [⟨.entry key, (under (.entry key)).map fun row =>
          { row with size := asI64 (max size (offset + data.length)), mtime := now }⟩] ∧
      ∀ row ∈ finalReads, row = .entry key ∨ ∃ blockNo ∈
        rangeInclusive (asI32 (offset / blockSize))
          (asI32 ((offset + data.length - 1) / blockSize)),
        row = .block ⟨key, blockNo⟩ := by
  unfold writeRange Session.opened at ends
  rw [if_neg (by simpa using nonempty)] at ends
  cases added : checkedAdd offset data.length with
  | none =>
      rw [added] at ends
      exact ends.not_crash.elim
  | some stop =>
      have sum := eq_of_checkedAdd added
      subst sum
      simp only [added] at ends
      have answered := ends.afterRead
      have converted : rowToMeta key.name ⟨.file, size, mtime⟩ =
          .ok ⟨key.name, .file, size, mtime⟩ := rowToMeta_eq_ok_iff.mpr ⟨rfl, rfl⟩
      simp only [overlaid, file, converted] at answered
      rcases ends_storeRange answered with ⟨now, more, written, read, inside⟩
      refine ⟨now, written, ?_⟩
      intro row member
      rw [read] at member
      rcases List.mem_append.mp member with among | first
      · exact .inr (inside row among)
      · exact .inl (List.mem_singleton.mp first)

theorem ends_writeRange_nil {finalWrites : List ((row : TableRow) × row.Cell)}
    {finalReads : List TableRow}
    (ends : Ends known under (.opened (writeRange key offset [])) finalWrites finalReads) :
    finalWrites = [] ∧ finalReads = [] :=
  Ends.eq_of_returns ends

/-! ## The file after a commit -/

private theorem overlaid_blockWrites (base : (row : TableRow) → row.Cell) (blocks : List Int)
    (blockNo : Int) :
    overlaid base (blockWrites known key offset data blocks) (.block ⟨key, blockNo⟩) =
      if blockNo ∈ blocks then some (blockContent known key offset data blockNo)
      else base (.block ⟨key, blockNo⟩) := by
  induction blocks generalizing base with
  | nil => rfl
  | cons head rest induction =>
      change overlaid (Function.update base _ _) (blockWrites known key offset data rest) _ = _
      rw [induction]
      by_cases later : blockNo ∈ rest
      · rw [if_pos later, if_pos (List.mem_cons_of_mem _ later)]
      · rw [if_neg later]
        by_cases here : blockNo = head
        · subst here
          rw [if_pos List.mem_cons_self, Function.update_self]
        · rw [if_neg (by simp [here, later]), Function.update_of_ne (by simpa using here)]

private theorem applied_blockWrites (tables : Tables) (blocks : List Int)
    (row : Option EntryRow) :
    (applied tables (blockWrites known key offset data blocks ++ [⟨.entry key, row⟩])).cell =
      Function.update (overlaid tables.cell (blockWrites known key offset data blocks))
        (.entry key) row :=
  (get_applied tables _).trans (overlaid_append _ _ _)

private theorem block_applied_blockWrites (tables : Tables) (blocks : List Int)
    (row : Option EntryRow) (blockNo : Int) :
    (applied tables (blockWrites known key offset data blocks ++
        [⟨.entry key, row⟩])).block key blockNo =
      if blockNo ∈ blocks then some (blockContent known key offset data blockNo)
      else tables.block key blockNo := by
  change (applied tables _).cell (.block ⟨key, blockNo⟩) = _
  rw [applied_blockWrites, Function.update_of_ne (by simp), overlaid_blockWrites]
  rfl

private theorem cell_blockContent {write : RangeWrite} {index : Nat}
    (fits : write.offset + write.data.length ≤ addressable)
    (touched : write.touches (blockOf blockSize index)) :
    Vec.cell 0 (blockContent known key write.offset write.data (blockOf blockSize index))
        (index % blockSize) =
      Vec.overlay 0 (flat 0 blockSize fun blockNo => known (.block ⟨key, blockNo⟩))
        write.offset write.data index := by
  rcases touched with ⟨witness, covered, inBlock⟩
  rcases chunkAt_of_touched fits covered.1 covered.2 inBlock with
    ⟨blockOffset, chunk, chunked, patched, whole⟩
  unfold blockContent
  rw [chunked]
  dsimp only
  split
  · exact patched (fun blockNo => known (.block ⟨key, blockNo⟩)) index rfl
  · rename_i unread
    have inside := whole unread index rfl
    have replaced := patched (fun _ => none) index rfl
    rw [Option.getD_none] at replaced
    rw [replaced, Vec.overlay, Vec.overlay, if_pos inside, if_pos inside]

/-- What a write of some bytes makes of the file, when it has found the known
cells and commits on top of some tables. -/
theorem applied_writeRange {write : RangeWrite} (nonempty : write.data ≠ [])
    (fits : write.offset + write.data.length ≤ addressable) {size mtime : Nat}
    (file : known (.entry key) = some ⟨.file, size, mtime⟩) (column : size < 2 ^ 63)
    {tables : Tables} {current : Nat} (stored : tables.FileAt key current)
    {finalWrites : List ((row : TableRow) × row.Cell)} {finalReads : List TableRow}
    (ends : Ends known tables.cell (.opened (write.call key)) finalWrites finalReads) :
    (applied tables finalWrites).FileAt key
        (max size (write.offset + write.data.length)) ∧
      (∀ index, (applied tables finalWrites).bytes key index =
        if blockOf blockSize index ∈ rangeInclusive (asI32 (write.offset / blockSize))
            (asI32 ((write.offset + write.data.length - 1) / blockSize)) then
          Vec.overlay 0 (flat 0 blockSize fun blockNo => known (.block ⟨key, blockNo⟩))
            write.offset write.data index
        else
          tables.bytes key index) ∧
      ∀ blockNo, TableRow.block ⟨key, blockNo⟩ ∈ finalReads → write.touches blockNo := by
  have positive : 0 < write.data.length := List.length_pos_iff.mpr nonempty
  have touched : ∀ blockNo, blockNo ∈ rangeInclusive (asI32 (write.offset / blockSize))
      (asI32 ((write.offset + write.data.length - 1) / blockSize)) ↔
        write.touches blockNo := by
    intro blockNo
    rw [mem_blockRange positive fits]
    constructor
    · rintro ⟨index, low, high, inBlock⟩
      exact ⟨index, ⟨low, high⟩, inBlock⟩
    · rintro ⟨index, ⟨low, high⟩, inBlock⟩
      exact ⟨index, low, high, inBlock⟩
  unfold RangeWrite.call at ends
  rcases ends_writeRange nonempty file ends with ⟨now, written, read⟩
  generalize rangeInclusive (asI32 (write.offset / blockSize))
    (asI32 ((write.offset + write.data.length - 1) / blockSize)) = blocks at *
  subst written
  refine ⟨?_, ?_, ?_⟩
  · rcases stored with ⟨time, row⟩
    refine ⟨now, ?_⟩
    change (applied tables _).cell (.entry key) = _
    rw [applied_blockWrites, Function.update_self]
    change (tables.entries.lookup key).map _ = _
    have small : write.offset + write.data.length < 2 ^ 63 :=
      Nat.lt_of_le_of_lt fits (by decide)
    rw [row, asI64_of_lt (by omega)]
    rfl
  · intro index
    unfold Tables.bytes
    by_cases inside : blockOf blockSize index ∈ blocks
    · rw [if_pos inside,
        flat_of_some 0 ((block_applied_blockWrites _ _ _ _).trans (if_pos inside)),
        cell_blockContent fits ((touched _).mp inside)]
    · rw [if_neg inside]
      exact flat_congr 0 _ ((block_applied_blockWrites _ _ _ _).trans (if_neg inside))
  · intro blockNo member
    rcases read _ member with entry | ⟨other, among, same⟩
    · cases entry
    · cases same
      exact (touched blockNo).mp among

/-- A write that has found the known cells lands on a file: the bytes next to it in
its blocks become the known ones. -/
structure Landed (known : (row : TableRow) → row.Cell) (key : Key) (write : RangeWrite)
    (before after : Tables) : Prop where
  covered : ∀ index, write.covers index → after.bytes key index = write.byte index
  beside : ∀ index, ¬write.covers index → write.touches (blockOf blockSize index) →
    after.bytes key index = flat 0 blockSize (fun blockNo => known (.block ⟨key, blockNo⟩)) index
  elsewhere : ∀ index, ¬write.touches (blockOf blockSize index) →
    after.bytes key index = before.bytes key index

theorem applied_call {write : RangeWrite} (fits : write.stop ≤ addressable)
    {size mtime : Nat} (file : known (.entry key) = some ⟨.file, size, mtime⟩)
    (column : size < 2 ^ 63) {tables : Tables} {current : Nat}
    (stored : tables.FileAt key current) (same : write.data = [] → size = current)
    {finalWrites : List ((row : TableRow) × row.Cell)} {finalReads : List TableRow}
    (ends : Ends known tables.cell (.opened (write.call key)) finalWrites finalReads) :
    (applied tables finalWrites).FileAt key (max size write.stop) ∧
      Landed known key write tables (applied tables finalWrites) ∧
      ∀ blockNo, TableRow.block ⟨key, blockNo⟩ ∈ finalReads → write.touches blockNo := by
  by_cases empty : write.data = []
  · unfold RangeWrite.call at ends
    rw [empty] at ends
    rcases ends_writeRange_nil ends with ⟨rfl, rfl⟩
    have untouched : ∀ blockNo, ¬write.touches blockNo := by
      intro blockNo touched
      rcases touched with ⟨index, covered, _⟩
      exact RangeWrite.not_covers_of_empty empty index covered
    refine ⟨?_, ⟨?_, ?_, fun _ _ => rfl⟩, fun _ member => nomatch member⟩
    · rw [RangeWrite.stop_of_empty empty, Nat.max_zero, same empty]
      exact stored
    · exact fun index covered => absurd covered (RangeWrite.not_covers_of_empty empty index)
    · exact fun index _ touched => absurd touched (untouched _)
  · have stop := RangeWrite.stop_of_nonempty empty
    rw [stop] at fits ⊢
    rcases applied_writeRange empty fits file column stored ends with ⟨sized, bytes, read⟩
    have positive : 0 < write.data.length := List.length_pos_iff.mpr empty
    have touched : ∀ index, blockOf blockSize index ∈
        rangeInclusive (asI32 (write.offset / blockSize))
          (asI32 ((write.offset + write.data.length - 1) / blockSize)) ↔
        write.touches (blockOf blockSize index) := by
      intro index
      rw [mem_blockRange positive fits]
      unfold RangeWrite.touches RangeWrite.covers
      simp only [and_assoc]
    refine ⟨sized, ⟨?_, ?_, ?_⟩, read⟩
    · intro index covered
      rw [bytes, if_pos ((touched index).mpr ⟨index, covered, rfl⟩)]
      exact if_pos covered
    · intro index outside inBlock
      rw [bytes, if_pos ((touched index).mpr inBlock)]
      exact if_neg outside
    · intro index outside
      rw [bytes, if_neg fun member => outside ((touched index).mp member)]

end

end PooledCall

/-! ## What is kept -/

def ReadsBack (tables : Tables) (key : Key) (write : RangeWrite) : Prop :=
  ∀ world, Db.Quiet (.connect tables false world) → ∃ after,
    Db.readRange key.parent key.name write.offset write.data.length
      (.connect tables false world) = some (.ok (some write.data), after)

/-- The file has grown to the end of both ranges, and both read back. -/
structure Kept (key : Key) (size : Nat) (writes : Party → RangeWrite)
    (tables : Tables) : Prop where
  size : tables.FileAt key (max size (max (writes .first).stop (writes .second).stop))
  reads : ∀ party, ReadsBack tables key (writes party)

private theorem window_eq_data_iff (bytes : Nat → UInt8) (write : RangeWrite) :
    Vec.window bytes write.offset write.data.length = write.data ↔
      ∀ index, write.covers index → bytes index = write.byte index := by
  have own : write.data = Vec.window write.byte write.offset write.data.length := by
    conv_lhs => rw [Vec.eq_window_cell 0 write.data]
    apply List.map_congr_left
    intro index _
    unfold RangeWrite.byte
    rw [Nat.zero_add, Nat.add_sub_cancel_left]
  conv_lhs => rw [own, Vec.length_window]
  rw [Vec.window_eq_iff]
  unfold RangeWrite.covers
  simp only [and_imp]

theorem readsBack_iff {tables : Tables} {key : Key} {size : Nat} {write : RangeWrite}
    (file : tables.FileAt key size) (reaches : write.stop ≤ size) :
    ReadsBack tables key write ↔ write.stop ≤ addressable ∧
      ∀ index, write.covers index → tables.bytes key index = write.byte index := by
  rw [← window_eq_data_iff]
  rcases file.attributes with ⟨mtime, known⟩
  have replied : ∀ world, Db.Quiet (.connect tables false world) → ∃ after,
      Db.readRange key.parent key.name write.offset write.data.length
          (.connect tables false world) =
        (readReply (.ok (some ⟨key.name, .file, size, mtime⟩)) (tables.bytes key) write.offset
          write.data.length).map (·, after) := by
    intro world quiet
    rcases Db.readRange_quiet quiet key.parent key.name write.offset write.data.length with
      ⟨after, _, _, replied⟩
    have attributes : (Db.connect tables false world).tables.attributes
        ⟨key.parent, key.name⟩ = .ok (some ⟨key.name, .file, size, mtime⟩) := known
    rw [attributes] at replied
    exact ⟨after, replied⟩
  have replies : ReadsBack tables key write ↔
      readReply (.ok (some ⟨key.name, .file, size, mtime⟩)) (tables.bytes key) write.offset
        write.data.length = some (.ok (some write.data)) := by
    constructor
    · intro reads
      rcases replied (fun _ => {}) (fun _ => rfl) with ⟨after, replied⟩
      rcases reads (fun _ => {}) (fun _ => rfl) with ⟨other, answer⟩
      rw [replied, Option.map_eq_some_iff] at answer
      rcases answer with ⟨reply, found, same⟩
      cases same
      exact found
    · intro reply world quiet
      rcases replied world quiet with ⟨after, replied⟩
      exact ⟨after, by rw [replied, reply]; rfl⟩
  rw [replies]
  unfold readReply
  by_cases empty : write.data = []
  · rw [RangeWrite.stop_of_empty empty, empty]
    simp
  · have positive : 0 < write.data.length := List.length_pos_iff.mpr empty
    rw [RangeWrite.stop_of_nonempty empty] at reaches ⊢
    have whole : min write.data.length (size - write.offset) = write.data.length := by omega
    have some : ¬write.data.length = 0 := by omega
    simp only [reduceCtorEq, if_false, whole, if_neg some]
    by_cases fits : write.offset + write.data.length ≤ addressable
    · simp [fits]
    · simp [fits]

/-- A party's reads that the other one's commit made out of date do no harm: the
other range does not end past its own size, and the bytes that it overwrites in a
block were stored already. -/
def StaleReadsHarmless (tables : Tables) (key : Key) (size : Nat)
    (writes : Party → RangeWrite) (stale : Party → List TableRow) : Prop :=
  ∀ party,
    (.entry key ∈ stale party →
      (writes party.other).stop ≤ max size (writes party).stop) ∧
    ∀ index, (writes party.other).covers index →
      .block ⟨key, blockOf blockSize index⟩ ∈ stale party →
        tables.bytes key index = (writes party.other).byte index

section

variable {tables : Tables} {key : Key} {size : Nat} {writes : Party → RangeWrite}
  {turns : List Turn} {final : System Tables TableRow TableRow.Cell DbError Unit}

private structure LandedInOrder (tables : Tables) (key : Key) (size : Nat)
    (writes : Party → RangeWrite) (leader : Party)
    (final : System Tables TableRow TableRow.Cell DbError Unit) (between : Tables) :
    Prop where
  fresh : final.stale leader = []
  first : PooledCall.Landed tables.cell key (writes leader) tables between
  second : PooledCall.Landed (mixed (final.stale leader.other) tables.cell between.cell) key
    (writes leader.other) between final.committed
  grown : final.committed.FileAt key
    (max (if .entry key ∈ final.stale leader.other then size
      else max size (writes leader).stop) (writes leader.other).stop)
  read : ∀ blockNo, .block ⟨key, blockNo⟩ ∈ final.stale leader.other →
    (writes leader.other).touches blockNo

private theorem exists_landedInOrder (file : tables.FileAt key size) (column : size < 2 ^ 63)
    (fits : ∀ party, (writes party).stop ≤ addressable)
    (ran : (System.opened tables fun party => (writes party).call key).run turns = some final)
    (returned : ∀ party, (final.session party).statements = .returns (.ok ())) :
    ∃ leader between, LandedInOrder tables key size writes leader final between := by
  rcases System.ordered_of_run (fun party => PooledCall.readsOnce_writeRange _ _ _) ran
    (fun party => ⟨(), returned party⟩) with ⟨leader, leaderWrites, followerWrites, ordered⟩
  rcases ordered.ends with ⟨leaderReads, leaderEnds⟩
  rcases ordered.follows with ⟨followerReads, followerEnds, read⟩
  rcases file with ⟨mtime, stored⟩
  rcases PooledCall.applied_call (fits leader) stored column ⟨mtime, stored⟩ (fun _ => rfl)
    leaderEnds with ⟨⟨time, between⟩, first, _⟩
  have small : (writes leader).stop < 2 ^ 63 := Nat.lt_of_le_of_lt (fits leader) (by decide)
  have known : ∃ entered, mixed (final.stale leader.other) tables.cell
      (applied tables leaderWrites).cell (.entry key) =
        some ⟨.file, (if .entry key ∈ final.stale leader.other then size
          else max size (writes leader).stop : Nat), entered⟩ := by
    unfold mixed
    split
    · exact ⟨mtime, stored⟩
    · exact ⟨time, between⟩
  rcases known with ⟨entered, known⟩
  have same : (writes leader.other).data = [] →
      (if .entry key ∈ final.stale leader.other then size
        else max size (writes leader).stop) = max size (writes leader).stop := by
    intro empty
    rw [empty] at followerEnds
    rw [(PooledCall.ends_writeRange_nil followerEnds).2] at read
    rw [if_neg fun stale => nomatch read _ stale]
  rcases PooledCall.applied_call (fits leader.other) known (by split <;> omega)
    ⟨time, between⟩ same followerEnds with ⟨grown, second, touched⟩
  rw [← ordered.committed] at grown second
  exact ⟨leader, applied tables leaderWrites, ordered.fresh, first, second, grown,
    fun blockNo stale => touched blockNo (read _ stale)⟩

private theorem LandedInOrder.leader_byte {leader : Party} {between : Tables}
    (landed : LandedInOrder tables key size writes leader final between) {index : Nat}
    (covered : (writes leader).covers index) (apart : ¬(writes leader.other).covers index) :
    final.committed.bytes key index =
      if .block ⟨key, blockOf blockSize index⟩ ∈ final.stale leader.other then
        tables.bytes key index
      else
        (writes leader).byte index := by
  have earlier := landed.first.covered index covered
  by_cases touched : (writes leader.other).touches (blockOf blockSize index)
  · rw [landed.second.beside index apart touched]
    split
    · rename_i stale
      exact flat_congr 0 _ (if_pos stale)
    · rename_i current
      rw [← earlier]
      exact flat_congr 0 _ (if_neg current)
  · rw [if_neg fun stale => touched (landed.read _ stale),
      landed.second.elsewhere index touched, earlier]

private theorem LandedInOrder.kept_iff {leader : Party} {between : Tables}
    (landed : LandedInOrder tables key size writes leader final between)
    (fits : ∀ party, (writes party).stop ≤ addressable)
    (apart : ∀ index, ¬((writes .first).covers index ∧ (writes .second).covers index)) :
    Kept key size writes final.committed ↔
      StaleReadsHarmless tables key size writes final.stale := by
  have ends : max (writes .first).stop (writes .second).stop =
      max (writes leader).stop (writes leader.other).stop := by
    cases leader
    · rfl
    · exact Nat.max_comm _ _
  have apart : ∀ index, (writes leader).covers index →
      ¬(writes leader.other).covers index := by
    intro index covered other
    cases leader
    · exact apart index ⟨covered, other⟩
    · exact apart index ⟨other, covered⟩
  constructor
  · intro kept party
    rcases Party.eq_or_eq_other leader party with rfl | rfl
    · rw [landed.fresh]
      exact ⟨(nomatch ·), fun _ _ stale => nomatch stale⟩
    rw [Party.other_other]
    have sized := kept.size
    rw [ends] at sized
    have same := landed.grown.unique sized
    constructor
    · intro stale
      rw [if_pos stale] at same
      omega
    · intro index covered stale
      have written := ((readsBack_iff sized (by omega)).mp (kept.reads leader)).2 index covered
      rw [landed.leader_byte covered (apart index covered), if_pos stale] at written
      exact written
  · intro harmless
    rcases harmless leader.other with ⟨sizes, bytes⟩
    rw [Party.other_other] at sizes bytes
    have sized : final.committed.FileAt key
        (max size (max (writes leader).stop (writes leader.other).stop)) := by
      have grown := landed.grown
      split at grown
      · rename_i stale
        have reaches := sizes stale
        rwa [show max size (max (writes leader).stop (writes leader.other).stop) =
          max size (writes leader.other).stop by omega]
      · rwa [← Nat.max_assoc]
    constructor
    · rw [ends]
      exact sized
    · intro party
      apply (readsBack_iff sized _).mpr
      · refine ⟨fits party, fun index covered => ?_⟩
        rcases Party.eq_or_eq_other leader party with rfl | rfl
        · rw [landed.leader_byte covered (apart index covered)]
          split
          · rename_i stale
            exact bytes index covered stale
          · rfl
        · exact landed.second.covered index covered
      · rcases Party.eq_or_eq_other leader party with rfl | rfl <;> omega

/-- Two concurrent calls of `write_range` that both return lose nothing exactly when
their ranges are addressable and no stale read does harm. -/
theorem writes_kept_iff (file : tables.FileAt key size) (column : size < 2 ^ 63)
    (apart : ∀ index, ¬((writes .first).covers index ∧ (writes .second).covers index))
    (ran : (System.opened tables fun party => (writes party).call key).run turns = some final)
    (returned : ∀ party, (final.session party).statements = .returns (.ok ())) :
    Kept key size writes final.committed ↔
      (∀ party, (writes party).stop ≤ addressable) ∧
        StaleReadsHarmless tables key size writes final.stale := by
  constructor
  · intro kept
    have fits : ∀ party, (writes party).stop ≤ addressable := by
      intro party
      have reaches : (writes party).stop ≤
          max size (max (writes .first).stop (writes .second).stop) := by
        cases party <;> omega
      exact ((readsBack_iff kept.size reaches).mp (kept.reads party)).1
    rcases exists_landedInOrder file column fits ran returned with ⟨leader, between, landed⟩
    exact ⟨fits, (landed.kept_iff fits apart).mp kept⟩
  · rintro ⟨fits, harmless⟩
    rcases exists_landedInOrder file column fits ran returned with ⟨leader, between, landed⟩
    exact (landed.kept_iff fits apart).mpr harmless

private def sharedKey : Key := ⟨[], ['f']⟩

private def sharedFile : Tables := Tables.empty.insertEntry sharedKey .file 0

/-- Both calls read the row and the block before either has committed. -/
private def readTogether : List Turn :=
  [.first, .second, .first, .second, .first, .second, .first, .first, .first, .second, .second,
    .second].map fun party => ⟨party, 0, false⟩

private def bothReturned
    (final : System Tables TableRow TableRow.Cell DbError Unit) : Bool :=
  [Party.first, .second].all fun party =>
    match (final.session party).statements.outcome with
    | some (.ok ()) => true
    | _ => false

private theorem returned_of_bothReturned
    {final : System Tables TableRow TableRow.Cell DbError Unit}
    (both : bothReturned final = true) (party : Party) :
    (final.session party).statements = .returns (.ok ()) := by
  have closed := List.all_eq_true.mp both party (by cases party <;> simp)
  split at closed
  · rename_i outcome
    exact Statements.eq_of_outcome outcome
  · cases closed

private def zeroBeside : Party → RangeWrite
  | .first => ⟨0, [0]⟩
  | .second => ⟨1, [2]⟩

private theorem zeroBeside_first {index : Nat} (covered : (zeroBeside .first).covers index) :
    index = 0 := by
  have high := covered.2
  simp only [zeroBeside, List.length_singleton] at high
  omega

private theorem zeroBeside_apart (index : Nat) :
    ¬((zeroBeside .first).covers index ∧ (zeroBeside .second).covers index) := by
  rintro ⟨first, low, _⟩
  rw [zeroBeside_first first] at low
  exact absurd low (by decide)

/-- What the second commit takes back of the first one was there before it. -/
theorem writes_kept_interleaved :
    ∃ final, (System.opened sharedFile fun party => (zeroBeside party).call sharedKey).run
        readTogether = some final ∧
      .entry sharedKey ∈ final.stale .second ∧ .block ⟨sharedKey, 0⟩ ∈ final.stale .second ∧
      Kept sharedKey 0 zeroBeside final.committed := by
  have observed : ((System.opened sharedFile fun party =>
      (zeroBeside party).call sharedKey).run readTogether).any
      (fun final => bothReturned final && decide (final.stale .first = []) &&
        decide (.entry sharedKey ∈ final.stale .second ∧
          .block ⟨sharedKey, 0⟩ ∈ final.stale .second)) = true := by
    decide +kernel
  rcases (Option.any_eq_true _ _).mp observed with ⟨final, ran, checked⟩
  simp only [Bool.and_eq_true, decide_eq_true_eq] at checked
  refine ⟨final, ran, checked.2.1, checked.2.2, ?_⟩
  apply (writes_kept_iff ⟨0, by decide⟩ (by decide) zeroBeside_apart ran
    (returned_of_bothReturned checked.1.1)).mpr
  constructor
  · intro party
    cases party <;> decide
  · intro party
    cases party
    · rw [checked.1.2]
      exact ⟨(nomatch ·), fun _ _ stale => nomatch stale⟩
    · refine ⟨fun _ => by decide, fun index covered _ => ?_⟩
      rw [zeroBeside_first covered]
      decide

private def neighbours : Party → RangeWrite
  | .first => ⟨0, [1]⟩
  | .second => ⟨1, [2]⟩

/-- The second commit takes the byte of the first one back. -/
theorem concurrent_writes_lose_byte :
    ¬∀ turns final,
      (System.opened sharedFile fun party => (neighbours party).call sharedKey).run turns =
        some final →
      (∀ party, (final.session party).statements = .returns (.ok ())) →
      Kept sharedKey 0 neighbours final.committed := by
  intro claimed
  have observed : ((System.opened sharedFile fun party =>
      (neighbours party).call sharedKey).run readTogether).any
      (fun final => bothReturned final &&
        decide (final.committed.bytes sharedKey 0 = 0)) = true := by
    decide +kernel
  rcases (Option.any_eq_true _ _).mp observed with ⟨final, ran, checked⟩
  simp only [Bool.and_eq_true, decide_eq_true_eq] at checked
  have kept := claimed _ _ ran (returned_of_bothReturned checked.1)
  have read := (readsBack_iff kept.size (by decide)).mp (kept.reads .first)
  have written := read.2 0 ⟨by decide, by decide⟩
  rw [checked.2] at written
  exact absurd written (by decide)

end

end Pgfs
