import Pgfs.Handles.Addressing
import Pgfs.Handles.Buffering
import Pgfs.Db.Answers
import Pgfs.Db.Tree

namespace Pgfs

open MachineInt

/-! What every stored row keeps to, whatever fails: an entry can be read back, and a
block has the number of a block and is not too long. -/

/-- A row that `row_to_meta` reads, of a size that the column holds. -/
structure EntryRow.WellFormed (row : EntryRow) : Prop where
  kind : row.kind = .file ∨ row.kind = .dir
  nonneg : 0 ≤ row.size
  fits : row.size < 2 ^ 63

structure BlockFits (blockNo : Int) (data : List UInt8) : Prop where
  nonneg : 0 ≤ blockNo
  number : blockNo < 2 ^ 31
  length : data.length ≤ blockSize

structure Tables.WellFormed (tables : Tables) : Prop where
  rows : ∀ key row, tables.entries.lookup key = some row → row.WellFormed
  blocks : ∀ key blockNo data, tables.block key blockNo = some data → BlockFits blockNo data

structure HandleBuffer.WellFormed (buffer : HandleBuffer) : Prop where
  maxSize : buffer.maxSize < 2 ^ 63
  blocks : ∀ blockNo data, buffer.dirtyBlocks.lookup blockNo = some data →
    BlockFits blockNo data

theorem EntryRow.WellFormed.readable {row : EntryRow} (wellFormed : row.WellFormed)
    (name : Str) : ∃ fileMeta, rowToMeta name row = .ok fileMeta := by
  cases converted : rowToMeta name row with
  | ok fileMeta => exact ⟨fileMeta, rfl⟩
  | error failure =>
      rcases rowToMeta_eq_error_iff.mp ⟨failure, converted⟩ with ⟨text, other⟩ | negative
      · rcases wellFormed.kind with file | dir
        · rw [file] at other
          cases other
        · rw [dir] at other
          cases other
      · have nonneg := wellFormed.nonneg
        omega

/-! ## Pieces of a write -/

theorem blockFits_patch {offset blockOffset : Nat} {data chunk blockData : List UInt8}
    {blockNo : Int} (chunked : chunkAt offset data blockNo = some (blockOffset, chunk))
    (visited : blockNo ∈ visitedBlocks offset data) (short : blockData.length ≤ blockSize) :
    BlockFits blockNo (Vec.patch blockData blockOffset chunk 0) := by
  have extent := chunkAt_extent chunked
  have bounds := mem_rangeInclusive.mp visited
  have numbers := asI32_bounds (offset / blockSize)
  have lastNumbers := asI32_bounds ((offset + data.length - 1) / blockSize)
  have start : asU64 blockNo * blockSize < 2 ^ 64 := by
    unfold chunkAt at chunked
    simp only [Option.bind_eq_bind, Option.bind_eq_some_iff] at chunked
    rcases chunked with ⟨_, _, blockStart, startIs, _⟩
    unfold checkedMul at startIs
    split at startIs
    · assumption
    · cases startIs
  refine ⟨?_, by omega, ?_⟩
  · by_contra negative
    have wrapped : asU64 blockNo = (blockNo + 2 ^ 64).toNat := by
      unfold asU64
      omega
    rw [wrapped, blockSize_eq] at start
    omega
  · rw [Vec.length_patch]
    generalize asU64 blockNo * blockSize = blockStart at *
    omega

namespace Tables.WellFormed

variable {before after tables : Tables} {key : Key}

theorem of_empty : WellFormed .empty where
  rows key row stored := by cases stored
  blocks key blockNo data stored := by cases stored

theorem attributes (wellFormed : tables.WellFormed) (key : Key) :
    ∃ found, tables.attributes key = .ok found ∧
      ∀ fileMeta ∈ found, fileMeta.size < 2 ^ 63 := by
  unfold Tables.attributes
  cases stored : tables.entries.lookup key with
  | none => exact ⟨none, rfl, by simp⟩
  | some row =>
      have row := wellFormed.rows key _ stored
      rcases row.readable key.name with ⟨fileMeta, converted⟩
      refine ⟨some fileMeta, by simp [converted, Except.map], ?_⟩
      rintro _ ⟨⟩
      have size := congrArg EntryRow.size (rowToMeta_eq_ok_iff.mp converted).2
      have fits := row.fits
      simp only at size
      omega

theorem grown_lt (wellFormed : tables.WellFormed) {found : Option FileMeta} {stop : Nat}
    (known : tables.attributes key = .ok found) (fits : stop < 2 ^ 63) :
    max ((found.map (·.size)).getD 0) stop < 2 ^ 63 := by
  rcases wellFormed.attributes key with ⟨same, sameKnown, small⟩
  have equal : found = same := by
    rw [known] at sameKnown
    exact Except.ok.inj sameKnown
  subst equal
  cases found with
  | none => simpa using fits
  | some fileMeta => simpa using ⟨small fileMeta rfl, fits⟩

theorem listing (wellFormed : tables.WellFormed) (path : Str) :
    ∃ listed, Db.rowsToMeta (tables.children path) = .ok listed := by
  have readable : ∀ child ∈ tables.children path,
      ∃ fileMeta, rowToMeta child.1 child.2 = .ok fileMeta := by
    intro child member
    exact (wellFormed.rows _ _ (Tables.mem_children member)).readable child.1
  generalize tables.children path = rows at readable
  induction rows with
  | nil => exact ⟨[], rfl⟩
  | cons head rest induction =>
      rcases readable head List.mem_cons_self with ⟨fileMeta, converted⟩
      rcases induction fun child member => readable child (List.mem_cons_of_mem _ member) with
        ⟨others, listed⟩
      refine ⟨fileMeta :: others, ?_⟩
      unfold Db.rowsToMeta
      rw [converted, listed]
      rfl

/-! ## Statements -/

theorem upsertBlock (wellFormed : tables.WellFormed) {blockNo : Int} {data : List UInt8}
    (fits : BlockFits blockNo data) : (tables.upsertBlock key blockNo data).WellFormed where
  rows := wellFormed.rows
  blocks other otherNo otherData stored := by
    rw [block_upsertBlock] at stored
    split at stored
    · rename_i same
      cases stored
      rw [same.2]
      exact fits
    · exact wellFormed.blocks other otherNo otherData stored

theorem updateSize (wellFormed : tables.WellFormed) {size : Nat} (fits : size < 2 ^ 63)
    (now : Nat) : (tables.updateSize key (asI64 size) now).WellFormed where
  rows other row stored := by
    rw [lookup_updateSize] at stored
    split at stored
    · rcases Option.map_eq_some_iff.mp stored with ⟨original, found, rfl⟩
      have sized := asI64_of_lt fits
      exact ⟨(wellFormed.rows _ _ found).kind, by simp only; omega, by simp only; omega⟩
    · exact wellFormed.rows other row stored
  blocks := wellFormed.blocks

theorem insertEntry (wellFormed : tables.WellFormed) {kind : KindText} (now : Nat)
    (known : kind = .file ∨ kind = .dir) : (tables.insertEntry key kind now).WellFormed where
  rows other row stored := by
    rw [lookup_insertEntry] at stored
    split at stored
    · cases found : tables.entries.lookup key with
      | none =>
          rw [found] at stored
          cases stored
          exact ⟨known, Int.le_refl 0, by simp⟩
      | some present =>
          rw [found] at stored
          cases stored
          exact wellFormed.rows key _ found
    · exact wellFormed.rows other row stored
  blocks other blockNo data stored := by
    rw [block_insertEntry] at stored
    exact wellFormed.blocks other blockNo data stored

theorem deleteEntry (wellFormed : tables.WellFormed) (key : Key) :
    (tables.deleteEntry key).2.WellFormed where
  rows other row stored := by
    rw [lookup_deleteEntry] at stored
    split at stored
    · cases stored
    · exact wellFormed.rows other row stored
  blocks := wellFormed.blocks

theorem deleteBlocks (wellFormed : tables.WellFormed) (key : Key) :
    (tables.deleteBlocks key).WellFormed where
  rows := wellFormed.rows
  blocks other blockNo data stored := by
    rw [block_deleteBlocks] at stored
    split at stored
    · cases stored
    · exact wellFormed.blocks other blockNo data stored

/-! ## Methods -/

theorem renamed {kind : Kind} {old new : Key} (wellFormed : before.WellFormed)
    (renamed : Renamed kind old new before after) : after.WellFormed where
  rows key row stored := by
    rcases renamed.entries_reached key row stored with ⟨source, time, _, original, _⟩
    have row := wellFormed.rows source _ original
    exact ⟨row.kind, row.nonneg, row.fits⟩
  blocks key blockNo data stored := by
    rcases renamed.blocks_reached key blockNo data stored with ⟨source, _, original, _⟩
    exact wellFormed.blocks source blockNo data original

theorem truncated {newSize : Nat} (wellFormed : before.WellFormed)
    (truncated : Db.Truncated key newSize before after) (fits : newSize < 2 ^ 63) :
    after.WellFormed where
  rows other row stored := by
    by_cases same : other = key
    · rcases truncated.size fits with ⟨mtime, sized⟩
      rw [same, sized] at stored
      cases stored
      exact ⟨.inl rfl, Int.natCast_nonneg newSize, by simp only; omega⟩
    · rw [truncated.contents.entries other same] at stored
      exact wellFormed.rows other row stored
  blocks other blockNo data stored := by
    by_cases same : other = key
    · rcases truncated.blocks with ⟨size, _, blocks⟩
      rw [same, blocks] at stored
      split at stored
      · unfold Db.shrunkBlocks at stored
        split at stored
        · cases stored
        · split at stored
          · rcases Option.map_eq_some_iff.mp stored with ⟨original, found, rfl⟩
            have block := wellFormed.blocks key blockNo original found
            have shorter := List.length_take_le' (newSize % blockSize) original
            exact ⟨block.nonneg, block.number, shorter.trans block.length⟩
          · exact wellFormed.blocks key blockNo data stored
      · exact wellFormed.blocks key blockNo data stored
    · rw [truncated.contents.blocks other same] at stored
      exact wellFormed.blocks other blockNo data stored

theorem batch {blocks : Table Int (List UInt8)} {newSize : Nat}
    (wellFormed : before.WellFormed) (batch : Db.BatchRows key blocks newSize before after)
    (fits : newSize < 2 ^ 63)
    (blockFits : ∀ blockNo data, blocks.lookup blockNo = some data → BlockFits blockNo data) :
    after.WellFormed where
  rows other row stored := by
    rcases Nat.eq_zero_or_pos newSize with sizeless | sized
    · rw [batch.sizeless sizeless] at stored
      exact wellFormed.rows other row stored
    · rcases batch.sized sized with ⟨found, now, attributes, entries⟩
      rw [entries] at stored
      exact (wellFormed.updateSize (wellFormed.grown_lt attributes fits) now).rows other row stored
  blocks other blockNo data stored := by
    by_cases same : other = key
    · rw [same, batch.blocks] at stored
      cases dirty : blocks.lookup blockNo with
      | none =>
          rw [dirty, Option.none_or] at stored
          exact wellFormed.blocks key blockNo data stored
      | some written =>
          rw [dirty, Option.some_or, Option.some.injEq] at stored
          exact stored ▸ blockFits blockNo written dirty
    · rw [batch.contents.blocks other same] at stored
      exact wellFormed.blocks other blockNo data stored

end Tables.WellFormed

theorem Db.writeRange_wellFormed {before : Db} {parent name : Str} {offset : Nat}
    {data : List UInt8} (wellFormed : before.tables.WellFormed)
    (fits : offset + data.length < 2 ^ 63) :
    Atomic before (writeRange parent name offset data) (fun _ tables => tables.WellFormed)
      True := by
  unfold writeRange
  by_cases empty : data = []
  · simp only [empty, List.isEmpty_nil, if_true]
    exact atomic_pure wellFormed
  simp only [List.isEmpty_iff, if_neg empty]
  apply Atomic.bind_read (fun stop => stop = offset + data.length)
    (atomic_orAbort fun stop added => ⟨rfl, eq_of_checkedAdd added⟩)
  rintro _ started _ startedSame rfl
  rw [← startedSame] at wellFormed
  apply Atomic.bind_read (fun found => started.tables.attributes ⟨parent, name⟩ = .ok found)
    (getattrPrimary_atomic.imp (fun _ _ => id) fun _ => trivial)
  intro found opened _ openedSame attributes
  have small := wellFormed.grown_lt attributes fits
  rw [← openedSame] at wellFormed
  apply transaction_atomic
  intro running _ runningSame
  rw [← runningSame] at wellFormed
  apply Inside.bind (fun _ tables => tables.WellFormed)
  · apply inside_forM (fun _ tables => tables.WellFormed) _ wellFormed
    intro blockNo rest middle _ middleWellFormed suffix
    apply writeBlock_inside.imp _ fun impossible => impossible.elim
    rintro _ tables ⟨blockOffset, chunk, chunked, rfl⟩
    apply middleWellFormed.upsertBlock
    apply blockFits_patch chunked (suffix.subset List.mem_cons_self)
    split
    · cases stored : middle.tables.block ⟨parent, name⟩ blockNo with
      | none => simp
      | some blockData => exact (middleWellFormed.blocks _ _ _ stored).length
    · simp
  · intro _ stored _ storedWellFormed
    exact (update_atomic (storedWellFormed.updateSize small _)).inside

theorem HandleBuffer.WellFormed.write {before after : HandleBuffer} {offset : Nat}
    {data : List UInt8} (wellFormed : before.WellFormed)
    (written : before.write offset data = some after)
    (fits : offset + data.length < 2 ^ 63) : after.WellFormed := by
  have buffered := HandleBuffer.buffered_of_write written
  constructor
  · rw [buffered.maxSize]
    have small := wellFormed.maxSize
    split <;> omega
  · intro blockNo blockData dirty
    by_cases touched : blockNo ∈ touchedBlocks offset data
    · rcases buffered.touched blockNo touched with ⟨blockOffset, chunk, chunked, stored⟩
      rw [stored] at dirty
      cases dirty
      unfold touchedBlocks at touched
      split at touched
      · cases touched
      apply blockFits_patch chunked touched
      cases known : before.dirtyBlocks.lookup blockNo with
      | none => simp
      | some blockData => exact (wellFormed.blocks blockNo blockData known).length
    · rw [buffered.untouched blockNo touched] at dirty
      exact wellFormed.blocks blockNo blockData dirty

end Pgfs
