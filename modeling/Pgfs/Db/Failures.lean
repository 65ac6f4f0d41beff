import Pgfs.Db.Answers
import Pgfs.Db.Reading
import Pgfs.Db.Tree
import Pgfs.Db.Calls

namespace Pgfs

/-! What a failed call leaves in the tables. Every method except `unlink` is one
statement or one transaction, and restores them. -/

namespace Db

variable {before : Db}

def RestoresTables (before : Db) (body : DbM Value) : Prop :=
  ∀ failure after, body before = some (.error failure, after) →
    after.tables = before.tables

private theorem restoresTables_convert {body : DbM Value} (convert : Value → Result) :
    RestoresTables before (body >>= fun value => pure (convert value)) ↔
      RestoresTables before body := by
  constructor
  · intro restores failure after run
    exact restores failure after (Effect.bind_of_error run)
  · intro restores failure after run
    rcases Effect.bind_eq_some.mp run with ⟨value, middle, _, ended⟩ | ⟨_, failed, _⟩
    · cases ended
    · exact restores _ after failed

private theorem Atomic.convert {body : DbM Value} {post : Value → Tables → Prop}
    {excuse : Prop} (atomic : Atomic before body post excuse)
    (convert : Value → Result) :
    Atomic before (body >>= fun value => pure (convert value)) (fun _ _ => True) True :=
  Atomic.bind_pure convert (atomic.imp (fun _ _ _ => trivial) fun _ => trivial)

private theorem unlink_apply (parent name : Str) (before : Db) :
    unlink parent name before =
      let removed := (before.tables.deleteEntry ⟨parent, name⟩).2
      if before.moment.fails then
        some (.error (.ctx ⟨"remove file _ from _", [name, parent]⟩), before.advance)
      else if before.advance.moment.fails then
        some (.error (.ctx ⟨"remove blocks of file _ from _", [name, parent]⟩),
          before.advance.advance.setTables removed)
      else
        some (.ok (),
          before.advance.advance.setTables (removed.deleteBlocks ⟨parent, name⟩)) := by
  unfold unlink
  cases firstFails : before.moment.fails with
  | true =>
      rw [if_pos rfl]
      apply Effect.bind_of_error
      rw [update_apply, firstFails, if_pos rfl]
  | false =>
      have removes : update ⟨"remove file _ from _", [name, parent]⟩
          (fun _ tables => (tables.deleteEntry ⟨parent, name⟩).2) before =
          some (.ok (), before.advance.setTables
            (before.tables.deleteEntry ⟨parent, name⟩).2) := by
        rw [update_apply, firstFails, if_neg Bool.false_ne_true]
      rw [Effect.bind_of_ok removes, update_apply]
      rfl

private theorem deleteEntry_eq_self_iff {tables : Tables} {key : Key} :
    (tables.deleteEntry key).2 = tables ↔ key ∉ tables.entries := by
  constructor
  · intro same present
    have erased := congrArg (fun tables : Tables => tables.entries.lookup key) same
    rcases Table.mem_iff_exists_lookup.mp present with ⟨row, stored⟩
    simp [Tables.deleteEntry, stored] at erased
  · intro missing
    unfold Tables.deleteEntry
    rw [Table.erase_of_not_mem missing]

private theorem unlink_restoresTables {parent name : Str} :
    RestoresTables before (unlink parent name) ↔
      ¬(⟨parent, name⟩ ∈ before.tables.entries ∧ before.moment.fails = false ∧
        before.advance.moment.fails = true) := by
  unfold RestoresTables
  rw [unlink_apply]
  cases before.moment.fails with
  | true =>
      apply iff_of_true
      · intro failure after run
        cases run
        rfl
      · intro halfway
        exact Bool.false_ne_true halfway.2.1.symm
  | false =>
      cases before.advance.moment.fails with
      | true =>
          constructor
          · intro restores halfway
            exact deleteEntry_eq_self_iff.mp (restores _ _ rfl) halfway.1
          · intro whole failure after run
            cases run
            exact deleteEntry_eq_self_iff.mpr fun present => whole ⟨present, rfl, rfl⟩
      | false =>
          apply iff_of_true
          · intro failure after run
            cases run
          · intro halfway
            exact Bool.false_ne_true halfway.2.2

end Db

namespace Call

def StopsHalfway (call : Call) (before : Db) : Prop :=
  match call with
  | .unlink parent name =>
      ⟨parent, name⟩ ∈ before.tables.entries ∧ before.moment.fails = false ∧
        before.advance.moment.fails = true
  | _ => False

theorem serve_atomic {call : Call} (other : ∀ parent name, call ≠ .unlink parent name)
    (before : Db) : Db.Atomic before call.serve (fun _ _ => True) True := by
  cases call with
  | unlink parent name => exact absurd rfl (other parent name)
  | create parent name => exact Db.create_atomic.convert _
  | mkdir parent name => exact Db.mkdir_atomic.convert _
  | rmdir parent name => exact Db.rmdir_atomic.convert _
  | rename oldParent oldName newParent newName =>
      by_cases same : oldParent = newParent ∧ oldName = newName
      · unfold serve Db.rename
        dsimp only
        rw [if_pos same]
        exact Db.atomic_pure trivial
      · exact (Db.rename_atomic same).convert _
  | truncate parent name newSize => exact Db.truncate_atomic.convert _
  | writeRange parent name offset data => exact Db.writeRange_atomic.convert _
  | writeBlocksBatch parent name blocks newSize =>
      exact Db.writeBlocksBatch_atomic.convert _
  | getattrPrimary parent name => exact Db.getattrPrimary_atomic.convert _
  | listPrimary parent => exact Db.listPrimary_atomic.convert _
  | readRange parent name offset length => exact Db.readRange_atomic.convert _
  | getattr parent name => exact Db.getattr_atomic.convert _
  | list parent => exact Db.list_atomic.convert _
  | replicaState => exact Db.replicaState_atomic.convert _

theorem serve_sameWorld {call : Call} {before after : Db}
    {outcome : Except DbError Answer} (run : call.serve before = some (outcome, after)) :
    Db.SameWorld before after := by
  cases call with
  | unlink parent name =>
      rcases Effect.bind_eq_some.mp run with ⟨_, middle, ran, ended⟩ | ⟨_, ran, _⟩
      · cases ended
        exact (Db.unlink_cases ran).1
      · exact (Db.unlink_cases ran).1
  | _ => exact (serve_atomic (by simp) before _ _ run).1

/-- A failed call leaves the tables as they were, unless it is an `unlink` that
stops between its two statements. -/
theorem failed_call_restores (call : Call) (before : Db) :
    Db.RestoresTables before call.serve ↔ ¬call.StopsHalfway before := by
  cases call with
  | unlink parent name =>
      exact (Db.restoresTables_convert _).trans Db.unlink_restoresTables
  | _ =>
      apply iff_of_true _ id
      intro failure after run
      exact (serve_atomic (by simp) before _ _ run).2.1

/-- The entry is deleted, its blocks cannot be, and the call fails. -/
theorem unlink_fails_halfway :
    ∃ failure after, (unlink [] ['a']).serve
        (.connect (Tables.empty.insertEntry ⟨[], ['a']⟩ .file 0) false
          fun index => { fails := index == 1 }) = some (.error failure, after) ∧
      after.tables.entries.lookup ⟨[], ['a']⟩ = none ∧
      (Tables.empty.insertEntry ⟨[], ['a']⟩ .file 0).entries.lookup ⟨[], ['a']⟩ =
        some ⟨.file, 0, 0⟩ :=
  ⟨_, _, rfl, by decide, by decide⟩

end Call

end Pgfs
