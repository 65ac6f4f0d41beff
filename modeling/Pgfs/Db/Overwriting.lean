import Pgfs.Db.Ranges
import Pgfs.Db.SideBySide

namespace Pgfs

open MachineInt Blocked

/-! A successful write of a range overlays the bytes of the file, whatever its blocks
were. -/

namespace Db

variable {before : Db} {parent name : Str}

private theorem writeBlocks_elsewhere {offset : Nat} {data : List UInt8} {blocks : List Int} :
    Inside before (blocks.forM (writeBlock parent name offset data))
      (fun _ tables => ∀ blockNo, blockNo ∉ blocks →
        tables.block ⟨parent, name⟩ blockNo = before.tables.block ⟨parent, name⟩ blockNo)
      False := by
  apply (inside_forM (fun _ tables => ∀ blockNo, blockNo ∉ blocks →
    tables.block ⟨parent, name⟩ blockNo = before.tables.block ⟨parent, name⟩ blockNo)
    ?_ fun _ _ => rfl).imp (fun _ _ => id) id
  intro visited rest middle _ same suffix
  apply writeBlock_inside.imp _ id
  intro _ tables stored blockNo elsewhere
  rcases stored with ⟨blockOffset, chunk, _, rfl⟩
  have different : blockNo ≠ visited :=
    fun equal => elsewhere (suffix.subset (equal ▸ List.mem_cons_self))
  rw [Tables.block_upsertBlock, if_neg fun equal => different equal.2]
  exact same blockNo elsewhere

private theorem writeRange_elsewhere {write : RangeWrite} (fits : write.Fits)
    (nonempty : write.data ≠ []) :
    Atomic before (writeRange parent name write.offset write.data)
      (fun _ tables => ∀ blockNo, ¬write.touches blockNo →
        tables.block ⟨parent, name⟩ blockNo = before.tables.block ⟨parent, name⟩ blockNo)
      True := by
  unfold writeRange
  simp only [List.isEmpty_iff, if_neg nonempty]
  apply Atomic.bind_read (fun stop => stop = write.offset + write.data.length)
    (atomic_orAbort fun stop added => ⟨rfl, eq_of_checkedAdd added⟩)
  intro stop started _ startedSame equal
  subst equal
  apply Atomic.bind_read (fun _ => True)
    (getattrPrimary_atomic.imp (fun _ _ known => ⟨known.1, trivial⟩) fun _ => trivial)
  intro found opened _ openedSame _
  apply transaction_atomic
  intro running _ runningSame
  apply Inside.bind _ (writeBlocks_elsewhere.imp (fun _ _ => id) False.elim)
  intro _ stored _ same
  apply (update_atomic _).inside
  intro blockNo untouched
  have unvisited : blockNo ∉ rangeInclusive (asI32 (write.offset / blockSize))
      (asI32 ((write.offset + write.data.length - 1) / blockSize)) := by
    rw [mem_blockRange (List.length_pos_iff.mpr nonempty) fits]
    intro visited
    rcases visited with ⟨index, low, high, inBlock⟩
    exact untouched ⟨index, ⟨low, high⟩, inBlock⟩
  rw [← startedSame, ← openedSame, ← runningSame]
  exact same blockNo unvisited

/-- A write to an existing file ends, and fails only when a statement does. When it
succeeds, every byte of the range is the one written and every other byte is as it was,
the size is that of the longer of the two, no block outside the range appears, and no
row of another key changes. -/
theorem writeRange_overlays {write : RangeWrite} {size : Nat}
    (file : before.tables.FileAt ⟨parent, name⟩ size) (sized : size < 2 ^ 63)
    (fits : write.Fits) (nonempty : write.data ≠ []) :
    ∃ outcome after, writeRange parent name write.offset write.data before =
        some (outcome, after) ∧
      (Quiet before → outcome = .ok ()) ∧
      (outcome = .ok () →
        (∀ index, after.tables.bytes ⟨parent, name⟩ index =
          if write.covers index then write.byte index
          else before.tables.bytes ⟨parent, name⟩ index) ∧
        after.tables.FileAt ⟨parent, name⟩ (max size (write.offset + write.data.length)) ∧
        (∀ blockNo, ¬write.touches blockNo → after.tables.block ⟨parent, name⟩ blockNo =
          before.tables.block ⟨parent, name⟩ blockNo) ∧
        (∀ key, key ≠ ⟨parent, name⟩ →
          after.tables.entries.lookup key = before.tables.entries.lookup key ∧
            ∀ blockNo, after.tables.block key blockNo = before.tables.block key blockNo)) := by
  rcases total_writeRange parent name fits before with ⟨outcome, after, run⟩
  have written := writeRange_atomic _ _ run
  refine ⟨outcome, after, run, fun quiet => ?_, fun succeeded => ?_⟩
  · cases outcome with
    | ok _ => rfl
    | error failure =>
        rcases written.2.2 quiet with ⟨_, unreadable⟩
        rcases file.attributes with ⟨mtime, known⟩
        rw [known] at unreadable
        cases unreadable
  · subst succeeded
    have elsewhere := (writeRange_elsewhere fits nonempty _ _ run).2
    have within : write.offset + write.data.length ≤ addressable := fits
    have bounded : addressable < 2 ^ 63 := by decide
    refine ⟨fun index => ?_, written.2.size size file nonempty (by omega), elsewhere,
      fun key different => ⟨written.2.contents.entries key different,
        written.2.contents.blocks key different⟩⟩
    rw [written.2.bytes fits]
    rfl

/-- Two bytes across the end of a short block. -/
theorem writeRange_overlays_short_block : ∃ after,
    writeRange [] ['a'] 2 [8, 9] (oneEntry .file 3) = some (.ok (), after) ∧
      after.tables.bytes ⟨[], ['a']⟩ 0 = 7 ∧ after.tables.bytes ⟨[], ['a']⟩ 1 = 0 ∧
      after.tables.bytes ⟨[], ['a']⟩ 3 = 9 ∧ after.tables.FileAt ⟨[], ['a']⟩ 4 := by
  have stored : (oneEntry .file 3).tables.FileAt ⟨[], ['a']⟩ 3 := ⟨0, by decide⟩
  have fits : RangeWrite.Fits ⟨2, [8, 9]⟩ := by decide
  rcases writeRange_overlays stored (by decide) fits (by simp) with
    ⟨outcome, after, run, succeeds, overlays⟩
  have succeeded := succeeds fun _ => rfl
  subst succeeded
  rcases overlays rfl with ⟨bytes, size, _, _⟩
  refine ⟨after, run, ?_, ?_, ?_, size⟩
  · exact (bytes 0).trans (by decide)
  · exact (bytes 1).trans (by decide)
  · exact (bytes 3).trans (by decide)

def writeRanges (parent name : Str) (writes : List RangeWrite) : DbM Unit :=
  writes.forM fun write => writeRange parent name write.offset write.data

/-- Each position ends up with what was written there last, and the file reaches to the
greatest end. -/
structure AllWritten (key : Key) (size : Nat) (writes : List RangeWrite)
    (before after : Tables) : Prop where
  size : after.FileAt key (max size (greatestStop writes))
  bytes : ∀ index, after.bytes key index =
    (lastWritten writes index).getD (before.bytes key index)

private theorem allWritten_one {write : RangeWrite} {size : Nat} {outcome : Except DbError Unit}
    {after : Db} (fits : write.Fits) (file : before.tables.FileAt ⟨parent, name⟩ size)
    (sized : size < 2 ^ 63)
    (run : writeRange parent name write.offset write.data before = some (outcome, after)) :
    SameWorld before after ∧ (Quiet before → outcome = .ok ()) ∧
      (outcome = .ok () → AllWritten ⟨parent, name⟩ size [write] before.tables after.tables) := by
  have written := writeRange_atomic _ _ run
  have bounded : addressable < 2 ^ 63 := by decide
  have within : write.offset + write.data.length ≤ addressable := fits
  have last (index : Nat) : lastWritten [write] index =
      if write.covers index then some (write.byte index) else none :=
    lastWritten_append [] write index
  refine ⟨written.1, fun quiet => ?_, fun succeeded => ?_⟩
  · cases outcome with
    | ok _ => rfl
    | error failure =>
        rcases written.2.2 quiet with ⟨_, unreadable⟩
        rcases file.attributes with ⟨mtime, known⟩
        cases known.symm.trans unreadable
  · subst succeeded
    constructor
    · show after.tables.FileAt _ (max size (max write.stop 0))
      by_cases empty : write.data = []
      · rw [RangeWrite.stop_of_empty empty, written.2.nothing empty]
        simpa using file
      · rw [RangeWrite.stop_of_nonempty empty, Nat.max_zero]
        exact written.2.size size file empty (by omega)
    · intro index
      rw [written.2.bytes fits, last]
      by_cases covered : write.covers index
      · rw [if_pos covered]
        exact if_pos covered
      · rw [if_neg covered]
        exact if_neg covered

theorem AllWritten.trans {key : Key} {size : Nat} {writes later : List RangeWrite}
    {first second third : Tables} (left : AllWritten key size writes first second)
    (right : AllWritten key (max size (greatestStop writes)) later second third) :
    AllWritten key size (writes ++ later) first third where
  size := by
    rw [greatestStop_append_all, ← max_assoc]
    exact right.size
  bytes index := by
    rw [right.bytes, left.bytes, lastWritten_append_all]
    cases lastWritten later index <;> rfl

theorem writeRanges_overlay {writes : List RangeWrite} {size : Nat}
    (fits : ∀ write ∈ writes, write.Fits) (file : before.tables.FileAt ⟨parent, name⟩ size)
    (sized : size < 2 ^ 63) :
    ∃ outcome after, writeRanges parent name writes before = some (outcome, after) ∧
      (Quiet before → outcome = .ok ()) ∧
      (outcome = .ok () →
        AllWritten ⟨parent, name⟩ size writes before.tables after.tables) := by
  induction writes generalizing before size with
  | nil =>
      refine ⟨.ok (), before, rfl, fun _ => rfl, fun _ => ⟨?_, fun _ => rfl⟩⟩
      simpa [greatestStop] using file
  | cons write rest induction =>
      have here := fits write List.mem_cons_self
      rcases total_writeRange parent name here before with ⟨outcome, middle, ran⟩
      rcases allWritten_one here file sized ran with ⟨world, succeeds, written⟩
      cases outcome with
      | error failure =>
          refine ⟨.error failure, middle, Effect.bind_of_error ran, fun quiet => ?_, ?_⟩
          · cases succeeds quiet
          · intro succeeded
            cases succeeded
      | ok _ =>
          have one := written rfl
          have bounded : addressable < 2 ^ 63 := by decide
          have reach : greatestStop [write] ≤ addressable := greatestStop_le (by simpa using here)
          rcases induction (fun other member => fits other (List.mem_cons_of_mem _ member))
            one.size (by omega) with ⟨outcome, after, later, laterSucceeds, all⟩
          exact ⟨outcome, after, (Effect.bind_of_ok ran).trans later,
            fun quiet => laterSucceeds (world.quiet quiet),
            fun succeeded => one.trans (all succeeded)⟩

end Db

end Pgfs
