import Pgfs.Db.Lockstep

namespace Pgfs.Db

open Effect

/-! Every method that works on the primary alone is in step with itself. -/

/-! ## Attributes -/

theorem timeless_rowToMeta (name : Str) (row : EntryRow) :
    (rowToMeta name row).map FileMeta.timeless = rowToMeta name row.timeless := by
  rcases row with ⟨kind, size, mtime⟩
  by_cases negative : size < 0
  · cases kind <;> simp [rowToMeta, EntryRow.timeless, negative] <;> rfl
  · cases kind <;> simp [rowToMeta, EntryRow.timeless, negative] <;> rfl

private theorem timeless_rowsToMeta (rows : List (Str × EntryRow)) :
    (rowsToMeta rows).map (List.map FileMeta.timeless) =
      rowsToMeta (rows.map fun row => (row.1, row.2.timeless)) := by
  induction rows with
  | nil => rfl
  | cons head rest induction =>
      rcases head with ⟨name, row⟩
      rw [List.map_cons, rowsToMeta, rowsToMeta, ← timeless_rowToMeta, ← induction]
      cases rowToMeta name row with
      | error failure => rfl
      | ok fileMeta =>
          cases rowsToMeta rest with
          | error failure => rfl
          | ok others => rfl

variable {ordered : Prop} {keys : Set Key} {parent name : Str}

theorem inStep_getattrPrimary (member : ⟨parent, name⟩ ∈ keys) :
    InStep ordered keys (Option.map FileMeta.timeless) (getattrPrimary parent name) := by
  apply Paired.bind (paired_query _ fun left right agree => (agree ⟨parent, name⟩ member).1)
  intro row otherRow same
  cases row with
  | none =>
      rw [Option.map_eq_none_iff.mp same.symm]
      exact paired_pure rfl
  | some row =>
      rcases Option.map_eq_some_iff.mp same.symm with ⟨otherRow, rfl, timeless⟩
      have converted : SameOutcome FileMeta.timeless (rowToMeta name row)
          (rowToMeta name otherRow) := by
        unfold SameOutcome
        rw [timeless_rowToMeta, timeless_rowToMeta, timeless]
      apply (paired_ofExcept converted).bind
      intro fileMeta otherMeta shown
      exact paired_pure (congrArg some shown)

theorem inStep_listPrimary (parent : Str) :
    InStep ordered Set.univ (List.map FileMeta.timeless) (listPrimary parent) := by
  apply Paired.bind (paired_query _ fun left right agree => agree.children parent)
  intro rows otherRows same
  apply paired_ofExcept
  unfold SameOutcome
  rw [timeless_rowsToMeta, timeless_rowsToMeta, same]

theorem Paired.bind_attributes {first : DbM (Option FileMeta)}
    {next : Option FileMeta → DbM Result} {view : Result → Shown}
    (paired : InStep ordered keys (Option.map FileMeta.timeless) first)
    (timeless : ∀ fileMeta mtime,
      next (some { fileMeta with mtime := mtime }) = next (some fileMeta))
    (nextInStep : ∀ found, InStep ordered keys view (next found)) :
    InStep ordered keys view (first >>= next) := by
  apply paired.bind
  intro found other same
  cases found with
  | none =>
      rw [Option.map_eq_none_iff.mp same.symm]
      exact nextInStep none
  | some fileMeta =>
      rcases Option.map_eq_some_iff.mp same.symm with ⟨otherMeta, rfl, shown⟩
      rcases FileMeta.eq_of_timeless shown.symm with ⟨mtime, rfl⟩
      rw [timeless fileMeta mtime]
      exact nextInStep (some fileMeta)

theorem size_of_timeless {found other : Option FileMeta}
    (same : found.map FileMeta.timeless = other.map FileMeta.timeless) :
    (found.map (·.size)).getD 0 = (other.map (·.size)).getD 0 := by
  have sizes := congrArg (fun found => (Option.map (·.size) found).getD 0) same
  simp only [Option.map_map] at sizes
  exact sizes

/-! ## Contents -/

theorem inStep_readRange (member : ⟨parent, name⟩ ∈ keys) (offset length : Nat) :
    InStep ordered keys (id : Option (List UInt8) → _)
      (readRange parent name offset length) := by
  apply (inStep_getattrPrimary member).bind_attributes
  · intro fileMeta mtime
    rfl
  intro found
  cases found with
  | none => exact paired_pure rfl
  | some fileMeta =>
      dsimp only
      split
      · exact paired_pure rfl
      split
      · exact paired_pure rfl
      split
      · exact paired_pure rfl
      apply paired_orAbort.andThen
      intro endOffset
      apply (paired_lookup _ fun _ _ agree => agree.readBlocks member _ _).andThen
      intro rows
      apply paired_orAbort.andThen
      intro result
      exact paired_pure rfl

private theorem inStep_writeBlock (member : ⟨parent, name⟩ ∈ keys) (offset : Nat)
    (data : List UInt8) (blockNo : Int) :
    InStep ordered keys id (writeBlock parent name offset data blockNo) := by
  apply paired_orAbort.andThen
  intro piece
  rcases piece with ⟨blockOffset, chunk⟩
  dsimp only
  split
  · apply (paired_lookup _ fun _ _ agree =>
      congrFun (agree.readBlocks member _ _) _).andThen
    intro row
    exact paired_update _ fun _ _ _ _ agree => agree.upsertBlock _ _ _
  · exact paired_update _ fun _ _ _ _ agree => agree.upsertBlock _ _ _

theorem inStep_writeRange (member : ⟨parent, name⟩ ∈ keys) (offset : Nat)
    (data : List UInt8) :
    InStep ordered keys id (writeRange parent name offset data) := by
  unfold writeRange
  split
  · exact paired_pure rfl
  apply paired_orAbort.andThen
  intro stop
  apply (inStep_getattrPrimary member).bind
  intro found other same
  rw [size_of_timeless same]
  generalize MachineInt.asI32 (offset / blockSize) = startBlock
  generalize MachineInt.asI32 ((stop - 1) / blockSize) = endBlock
  apply Paired.transaction
  apply (paired_forM fun blockNo => inStep_writeBlock member offset data blockNo).andThen
  intro _
  exact paired_update _ fun _ _ _ _ agree => agree.updateSize _ _ _ _

private theorem inStep_shrinkBlocks (member : ⟨parent, name⟩ ∈ keys) (newSize : Nat) :
    InStep ordered keys id (shrinkBlocks parent name newSize) := by
  unfold shrinkBlocks
  apply (paired_update _ fun _ _ _ _ agree => agree.pruneBlocks _ _).andThen
  intro _
  dsimp only
  split
  · apply (paired_lookup _ fun _ _ agree =>
      congrFun (agree.readBlocks member _ _) _).andThen
    intro row
    cases row with
    | none => exact paired_pure rfl
    | some blockData =>
        exact paired_update _ fun _ _ _ _ agree => agree.upsertBlock _ _ _
  · exact paired_pure rfl

theorem inStep_truncate (member : ⟨parent, name⟩ ∈ keys) (newSize : Nat) :
    InStep ordered keys id (truncate parent name newSize) := by
  apply (inStep_getattrPrimary member).bind_attributes
  · intro fileMeta mtime
    rfl
  intro found
  cases found with
  | none => exact paired_raise _
  | some fileMeta =>
      dsimp only
      split
      · exact paired_raise _
      apply Paired.transaction
      have resized : InStep ordered keys id
          (update ⟨"update size of _ in _", [name, parent]⟩ fun moment tables =>
            tables.updateSize ⟨parent, name⟩ (MachineInt.asI64 newSize) moment.now) :=
        paired_update _ fun _ _ _ _ agree => agree.updateSize _ _ _ _
      split
      · exact (inStep_shrinkBlocks member newSize).andThen fun _ => resized
      · exact resized

/-- The statements of `write_blocks_batch` inside its transaction, for one order
of the blocks. -/
private def storeRows (parent name : Str) (blocks : Table Int (List UInt8))
    (newSize oldSize : Nat) (order : Table.Order Int (List UInt8)) : DbM Unit := do
  (order.keys blocks).forM fun blockNo =>
    update ⟨"upsert block _ for _ in _", [.ofInt blockNo, name, parent]⟩
      fun _ tables => tables.upsertBlock ⟨parent, name⟩ blockNo
        ((blocks.lookup blockNo).getD [])
  if 0 < newSize then
    update ⟨"update size of _ in _", [name, parent]⟩ fun moment tables =>
      tables.updateSize ⟨parent, name⟩ (MachineInt.asI64 (max oldSize newSize)) moment.now

private theorem inStep_storeRows (blocks : Table Int (List UInt8)) (newSize oldSize : Nat)
    (order : Table.Order Int (List UInt8)) :
    InStep ordered keys id (storeRows parent name blocks newSize oldSize order) := by
  apply Paired.andThen
  · apply paired_forM
    intro blockNo
    exact paired_update _ fun _ _ _ _ agree => agree.upsertBlock _ _ _
  · intro _
    split
    · exact paired_update _ fun _ _ _ _ agree => agree.updateSize _ _ _ _
    · exact paired_pure rfl

private theorem inStep_storeBatch (parent name : Str) (start finish : Message)
    (blocks : Table Int (List UInt8)) (newSize oldSize : Nat) :
    InStep True keys id (do
        let db ← get
        transaction start finish
          (storeRows parent name blocks newSize oldSize db.moment.blockOrder)) := by
  apply paired_blockOrder fun order =>
    transaction start finish (storeRows parent name blocks newSize oldSize order)
  · intro order
    exact (inStep_storeRows blocks newSize oldSize order).transaction
  · intro order before outcome after run
    have stores : InStep True Set.univ id
        (storeRows parent name blocks newSize oldSize order) :=
      inStep_storeRows blocks newSize oldSize order
    exact transaction_cursor stores.advances run

theorem inStep_writeBlocksBatch (member : ⟨parent, name⟩ ∈ keys)
    (blocks : Table Int (List UInt8)) (newSize : Nat) :
    InStep True keys id (writeBlocksBatch parent name blocks newSize) := by
  have stored (oldSize : Nat) : InStep True keys id _ := inStep_storeBatch parent name
    ⟨"begin write_blocks_batch for _ in _", [name, parent]⟩
    ⟨"commit write_blocks_batch for _ in _", [name, parent]⟩ blocks newSize oldSize
  unfold writeBlocksBatch
  split
  · exact paired_pure rfl
  dsimp only
  by_cases sized : 0 < newSize
  · simp only [storeRows, if_pos sized] at stored ⊢
    apply (inStep_getattrPrimary member).bind
    intro found other same
    rw [size_of_timeless same]
    exact stored _
  · simp only [storeRows, if_neg sized] at stored ⊢
    exact stored 0

/-! ## The namespace -/

theorem inStep_create (parent name : Str) :
    InStep ordered keys id (create parent name) :=
  paired_update _ fun _ _ _ _ agree => agree.insertEntry _ _ _ _

theorem inStep_mkdir (parent name : Str) :
    InStep ordered keys id (mkdir parent name) :=
  paired_update _ fun _ _ _ _ agree => agree.insertEntry _ _ _ _

theorem inStep_unlink (parent name : Str) :
    InStep ordered keys id (unlink parent name) := by
  apply (paired_update _ fun _ _ _ _ agree => agree.deleteEntry _).andThen
  intro _
  exact paired_update _ fun _ _ _ _ agree => agree.deleteBlocks _

theorem inStep_rmdir (parent name : Str) :
    InStep ordered Set.univ id (rmdir parent name) := by
  apply (paired_lookup _ fun _ _ agree => agree.hasChildren _).andThen
  intro occupied
  split
  · exact paired_pure rfl
  apply Paired.andThen
  · apply paired_execute
    intro _ _ left right agree
    have present := agree.mem_iff (Set.mem_univ ⟨parent, name⟩)
    exact .some ⟨by simp only [Tables.deleteEntry, present], agree.deleteEntry _⟩
  · intro deleted
    exact paired_pure rfl

private theorem inStep_replaceTarget (newParent newName newPath : Str) :
    InStep ordered Set.univ id (replaceTarget newParent newName newPath) := by
  have removed : InStep ordered Set.univ id (do
      update ⟨"remove target _ before overwrite", [newPath]⟩ fun _ tables =>
        (tables.deleteEntry ⟨newParent, newName⟩).2
      update ⟨"remove target blocks for _ before overwrite", [newPath]⟩ fun _ tables =>
        tables.deleteBlocks ⟨newParent, newName⟩) := by
    apply (paired_update _ fun _ _ _ _ agree => agree.deleteEntry _).andThen
    intro _
    exact paired_update _ fun _ _ _ _ agree => agree.deleteBlocks _
  apply Paired.bind (paired_query _ fun left right agree => (agree _ (Set.mem_univ _)).1)
  intro target other same
  cases target with
  | none =>
      rw [Option.map_eq_none_iff.mp same.symm]
      exact paired_pure rfl
  | some row =>
      rcases Option.map_eq_some_iff.mp same.symm with ⟨otherRow, found, timeless⟩
      subst found
      have kinds : otherRow.timeless.kind = row.timeless.kind := by rw [timeless]
      change otherRow.kind = row.kind at kinds
      simp only [kinds]
      split
      · apply (paired_lookup _ fun _ _ agree => agree.hasChildren _).andThen
        intro occupied
        split
        · exact (paired_raise _).andThen fun _ => removed
        · exact removed
      · exact removed

private theorem inStep_cascade (oldPath newPath : Str) :
    InStep ordered Set.univ id (cascade oldPath newPath) := by
  apply Paired.andThen
  · apply paired_execute
    intro _ _ left right agree
    exact rel_map (agree.cascadeEntries oldPath newPath) fun _ _ moved => ⟨rfl, moved⟩
  · intro _
    apply paired_execute
    intro _ _ left right agree
    exact rel_map (agree.cascadeBlocks oldPath newPath) fun _ _ moved => ⟨rfl, moved⟩

theorem inStep_rename (oldParent oldName newParent newName : Str) :
    InStep ordered Set.univ id (rename oldParent oldName newParent newName) := by
  unfold rename
  dsimp only
  split
  · exact paired_pure rfl
  apply (inStep_getattrPrimary (Set.mem_univ _)).bind_attributes
  · intro fileMeta mtime
    rfl
  intro found
  cases found with
  | none => exact paired_raise _
  | some fileMeta =>
      apply Paired.transaction
      apply (inStep_replaceTarget newParent newName _).andThen
      intro _
      have moved : InStep ordered Set.univ id (do
          let moved ← execute ⟨"move entry _ -> _",
              [join oldParent oldName, join newParent newName]⟩ fun moment tables =>
            tables.moveEntry ⟨oldParent, oldName⟩ ⟨newParent, newName⟩ moment.now
          execute ⟨"move blocks _ -> _", [join oldParent oldName, join newParent newName]⟩
            fun _ tables =>
              (tables.moveBlocks ⟨oldParent, oldName⟩ ⟨newParent, newName⟩).map
                fun tables => ((), tables)
          if moved = 0 then
            raise (.failure ⟨"rename of _ updated zero rows", [join oldParent oldName]⟩)) := by
        apply Paired.andThen
        · apply paired_execute
          intro moment otherMoment left right agree
          exact agree.moveEntry _ _ _ _
        · intro count
          apply Paired.andThen
          · apply paired_execute
            intro _ _ left right agree
            exact rel_map (agree.moveBlocks _ _) fun _ _ moved => ⟨rfl, moved⟩
          · intro _
            split
            · exact paired_raise _
            · exact paired_pure rfl
      split
      · exact (inStep_cascade _ _).andThen fun _ => moved
      · exact moved

end Pgfs.Db
