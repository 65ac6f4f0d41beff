import Pgfs.Foundation.Alike
import Pgfs.Db.MethodsInStep
import Pgfs.Db.Reading

namespace Pgfs

open Effect MachineInt Blocked

/-! The methods about one file, called on two handles whose tables agree at its
key. No statement fails, but each handle has its own clock and its own order of
hash maps. -/

namespace Db

/-! ## Methods that end -/

private theorem total_shrinkBlocks (parent name : Str) (newSize : Nat) :
    Total (shrinkBlocks parent name newSize) := by
  apply (total_update _ _).bind
  intro _
  dsimp only
  split
  · apply (total_query _ _).bind
    intro row
    cases row with
    | none => exact total_pure _
    | some blockData => exact total_update _ _
  · exact total_pure _

theorem total_truncate (parent name : Str) (newSize : Nat) :
    Total (truncate parent name newSize) := by
  apply (total_getattrPrimary parent name).bind
  intro found
  cases found with
  | none => exact total_raise _
  | some fileMeta =>
      dsimp only
      split
      · exact total_raise _
      apply total_transaction
      split
      · exact (total_shrinkBlocks parent name newSize).bind fun _ => total_update _ _
      · exact total_update _ _

private theorem total_writeBlock (parent name : Str) {offset : Nat} {data : List UInt8}
    {blockNo : Int} (chunked : (chunkAt offset data blockNo).isSome) :
    Total (writeBlock parent name offset data blockNo) := by
  apply (total_orAbort chunked).bind
  intro piece
  rcases piece with ⟨blockOffset, chunk⟩
  dsimp only
  split
  · apply (total_query _ _).bind
    intro row
    exact total_update _ _
  · exact total_update _ _

theorem total_writeRange (parent name : Str) {offset : Nat} {data : List UInt8}
    (fits : offset + data.length ≤ addressable) :
    Total (writeRange parent name offset data) := by
  unfold writeRange
  split
  · exact total_pure _
  · rename_i some
    have nonempty : 0 < data.length := by
      rw [List.length_pos_iff]
      intro empty
      exact some (by rw [empty]; rfl)
    have bounded : addressable < 2 ^ 64 := by decide
    rw [checkedAdd_of_lt (by omega)]
    apply (total_getattrPrimary parent name).bind
    intro found
    apply total_transaction
    apply Total.bind
    · apply total_forM
      intro blockNo member
      exact total_writeBlock parent name (isSome_chunkAt nonempty fits member)
    · intro _
      exact total_update _ _

theorem total_writeBlocksBatch (parent name : Str) (blocks : Table Int (List UInt8))
    (newSize : Nat) : Total (writeBlocksBatch parent name blocks newSize) := by
  unfold writeBlocksBatch
  split
  · exact total_pure _
  dsimp only
  split
  · apply (total_getattrPrimary parent name).bind
    intro found
    apply total_get.bind
    intro db
    apply total_transaction
    exact (total_forM fun _ _ => total_update _ _).bind fun _ => total_update _ _
  · apply (total_pure none).bind
    intro found
    apply total_get.bind
    intro db
    apply total_transaction
    exact (total_forM fun _ _ => total_update _ _).bind fun _ => total_pure _

/-! ## Two handles -/

structure AlikeAt (key : Key) (left right : Db) : Prop where
  quiet : Quiet left
  otherQuiet : Quiet right
  agree : left.tables.AgreeAt key right.tables

theorem AlikeAt.symm {key : Key} {left right : Db} (same : AlikeAt key left right) :
    AlikeAt key right left :=
  ⟨same.otherQuiet, same.quiet, same.agree.1.symm, fun blockNo => (same.agree.2 blockNo).symm⟩

theorem AlikeAt.trans {key : Key} {first second third : Db}
    (left : AlikeAt key first second) (right : AlikeAt key second third) :
    AlikeAt key first third :=
  ⟨left.quiet, right.otherQuiet, left.agree.1.trans right.agree.1, fun blockNo =>
    (left.agree.2 blockNo).trans (right.agree.2 blockNo)⟩

private theorem Advanced.quiet {before after : Db} (advanced : Advanced before after)
    (quiet : Quiet before) : Quiet after := by
  intro index
  rw [advanced.world]
  exact quiet index

variable {left right : Db} {parent name : Str}

theorem alike_of_inStep {view : Value → Shown} {body : DbM Value} {key : Key}
    (paired : InStep False {key} view body) (same : AlikeAt key left right)
    (ends : ∃ outcome after, body left = some (outcome, after)) :
    Alike (AlikeAt key) view left right body body := by
  rcases ends with ⟨outcome, after, run⟩
  have agree : left.tables.Agree {key} right.tables := by
    intro other member
    rw [Set.mem_singleton_iff.mp member]
    exact same.agree
  have fate : SameFate False left right (after.cursor - left.cursor) := by
    intro offset _
    constructor
    · rw [same.quiet, same.otherQuiet]
    · exact False.elim
  rcases paired.inStep left right outcome after agree run fate with
    ⟨otherOutcome, otherAfter, otherRun, shown, reached, _⟩
  refine ⟨outcome, after, otherOutcome, otherAfter, run, otherRun, shown, ?_⟩
  exact ⟨(paired.advances _ _ _ run).quiet same.quiet,
    (paired.otherAdvances _ _ _ otherRun).quiet same.otherQuiet,
    reached key (Set.mem_singleton key)⟩

variable (same : AlikeAt ⟨parent, name⟩ left right)

include same

theorem alike_getattrPrimary :
    Alike (AlikeAt ⟨parent, name⟩) (Option.map FileMeta.timeless) left right
      (getattrPrimary parent name) (getattrPrimary parent name) :=
  alike_of_inStep (inStep_getattrPrimary (Set.mem_singleton _)) same
    (total_getattrPrimary parent name left)

theorem alike_truncate (newSize : Nat) :
    Alike (AlikeAt ⟨parent, name⟩) id left right
      (truncate parent name newSize) (truncate parent name newSize) :=
  alike_of_inStep (inStep_truncate (Set.mem_singleton _) newSize) same
    (total_truncate parent name newSize left)

theorem alike_writeRange {offset : Nat} {data : List UInt8}
    (fits : offset + data.length ≤ addressable) :
    Alike (AlikeAt ⟨parent, name⟩) id left right
      (writeRange parent name offset data) (writeRange parent name offset data) :=
  alike_of_inStep (inStep_writeRange (Set.mem_singleton _) offset data) same
    (total_writeRange parent name fits left)

theorem alike_readRange {offset length : Nat} (fits : offset + length ≤ addressable) :
    Alike (AlikeAt ⟨parent, name⟩) id left right
      (readRange parent name offset length) (readRange parent name offset length) := by
  apply alike_of_inStep (inStep_readRange (Set.mem_singleton _) offset length) same
  rcases readRange_quiet same.quiet parent name offset length with ⟨after, _, _, run⟩
  have replies : ∃ reply, readReply (left.tables.attributes ⟨parent, name⟩)
      (left.tables.bytes ⟨parent, name⟩) offset length = some reply := by
    unfold readReply
    split
    · exact ⟨_, rfl⟩
    · exact ⟨_, rfl⟩
    · split
      · exact ⟨_, rfl⟩
      split
      · exact ⟨_, rfl⟩
      rw [if_pos (by omega)]
      exact ⟨_, rfl⟩
  rcases replies with ⟨reply, replied⟩
  rw [replied] at run
  exact ⟨reply, after, run⟩

omit same in
private theorem timeless_attributes {key : Key} {tables others : Tables}
    (agree : tables.AgreeAt key others) :
    (tables.attributes key).map (Option.map FileMeta.timeless) =
      (others.attributes key).map (Option.map FileMeta.timeless) := by
  have timeless (row : EntryRow) :
      ((rowToMeta key.name row).map some).map (Option.map FileMeta.timeless) =
        (rowToMeta key.name row.timeless).map some := by
    rw [← timeless_rowToMeta]
    cases rowToMeta key.name row with
    | error failure => rfl
    | ok fileMeta => rfl
  have rows := agree.1
  unfold Tables.attributes
  cases stored : tables.entries.lookup key with
  | none =>
      rw [stored] at rows
      rw [Option.map_eq_none_iff.mp rows.symm]
  | some row =>
      rw [stored] at rows
      rcases Option.map_eq_some_iff.mp rows.symm with ⟨otherRow, otherStored, shown⟩
      rw [otherStored]
      dsimp only
      rw [timeless, timeless, shown]

omit same in
private theorem BatchRows.agree {key : Key} {blocks : Table Int (List UInt8)} {newSize : Nat}
    {tables others after otherAfter : Tables} (rows : BatchRows key blocks newSize tables after)
    (otherRows : BatchRows key blocks newSize others otherAfter)
    (agree : tables.AgreeAt key others) : after.AgreeAt key otherAfter := by
  constructor
  · rcases Nat.eq_zero_or_pos newSize with sizeless | sized
    · rw [rows.sizeless sizeless, otherRows.sizeless sizeless]
      exact agree.1
    · rcases rows.sized sized with ⟨found, now, attributes, entries⟩
      rcases otherRows.sized sized with ⟨otherFound, later, otherAttributes, otherEntries⟩
      have sizes := timeless_attributes agree
      rw [attributes, otherAttributes] at sizes
      rw [entries, otherEntries, size_of_timeless (Except.ok.inj sizes)]
      have both : tables.Agree {key} others := by
        intro other member
        rw [Set.mem_singleton_iff.mp member]
        exact agree
      exact (both.updateSize key _ now later key (Set.mem_singleton key)).1
  · intro blockNo
    rw [rows.blocks, otherRows.blocks, agree.2]

omit same in
private theorem BatchRows.readable {key : Key} {blocks : Table Int (List UInt8)} {newSize : Nat}
    {tables others after : Tables} (rows : BatchRows key blocks newSize tables after)
    (agree : tables.AgreeAt key others) :
    ¬(0 < newSize ∧ ∃ failure, others.attributes key = .error failure) := by
  intro unreadable
  rcases unreadable with ⟨sized, failure, failed⟩
  rcases rows.sized sized with ⟨found, _, attributes, _⟩
  have shown := timeless_attributes agree
  rw [attributes, failed] at shown
  cases shown

theorem alike_writeBlocksBatch {Failure : Type} (blocks : Table Int (List UInt8))
    (newSize : Nat) :
    Alike (AlikeAt ⟨parent, name⟩) Except.isOk left right
      ((writeBlocksBatch parent name blocks newSize).attempt : Effect Db Failure _)
      (writeBlocksBatch parent name blocks newSize).attempt := by
  rcases total_writeBlocksBatch parent name blocks newSize left with ⟨outcome, after, run⟩
  rcases total_writeBlocksBatch parent name blocks newSize right with
    ⟨otherOutcome, otherAfter, otherRun⟩
  have stored := writeBlocksBatch_rows _ _ run
  have otherStored := writeBlocksBatch_rows _ _ otherRun
  have quiet := stored.1.quiet same.quiet
  have otherQuiet := otherStored.1.quiet same.otherQuiet
  have both : outcome.isOk = otherOutcome.isOk ∧
      after.tables.AgreeAt ⟨parent, name⟩ otherAfter.tables := by
    cases outcome with
    | ok _ =>
        cases otherOutcome with
        | ok _ => exact ⟨rfl, stored.2.agree otherStored.2 same.agree⟩
        | error otherFailure =>
            exact absurd (otherStored.2.2 same.otherQuiet) (stored.2.readable same.agree)
    | error failure =>
        cases otherOutcome with
        | ok _ =>
            exact absurd (stored.2.2 same.quiet) (otherStored.2.readable same.symm.agree)
        | error otherFailure =>
            rw [stored.2.1, otherStored.2.1]
            exact ⟨rfl, same.agree⟩
  refine ⟨.ok outcome, after, .ok otherOutcome, otherAfter, ?_, ?_,
    congrArg Except.ok both.1, ⟨quiet, otherQuiet, both.2⟩⟩
  · exact attempt_eq_some.mpr ⟨outcome, rfl, run⟩
  · exact attempt_eq_some.mpr ⟨otherOutcome, rfl, otherRun⟩

end Db

end Pgfs
