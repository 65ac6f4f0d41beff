import Pgfs.Db.Failures
import Pgfs.Db.MethodsInStep

namespace Pgfs

/-! The replica never influences a mutation. Two handles serve the same calls, one
of them with any replica and the other with another one or none. As long as
their own statements on the primary succeed alike, the primary goes through the
same tables. -/

def Answer.timeless : Answer → Answer
  | .attributes found => .attributes (found.map FileMeta.timeless)
  | .children listed => .children (listed.map FileMeta.timeless)
  | answer => answer

namespace Call

theorem serve_inStep {call : Call} (primary : call.mayUseReplica = false) :
    Db.InStep True Set.univ Answer.timeless call.serve := by
  have shared {Value : Type} {body : DbM Value} (convert : Value → Answer)
      (inStep : Db.InStep True Set.univ id body) :
      Db.InStep True Set.univ Answer.timeless
        (body >>= fun value => pure (convert value)) :=
    inStep.andThen fun _ => Db.paired_pure rfl
  cases call with
  | create parent name => exact shared _ (Db.inStep_create parent name)
  | mkdir parent name => exact shared _ (Db.inStep_mkdir parent name)
  | unlink parent name => exact shared _ (Db.inStep_unlink parent name)
  | rmdir parent name => exact shared _ (Db.inStep_rmdir parent name)
  | rename oldParent oldName newParent newName =>
      exact shared _ (Db.inStep_rename oldParent oldName newParent newName)
  | truncate parent name newSize =>
      exact shared _ (Db.inStep_truncate (Set.mem_univ _) newSize)
  | writeRange parent name offset data =>
      exact shared _ (Db.inStep_writeRange (Set.mem_univ _) offset data)
  | writeBlocksBatch parent name blocks newSize =>
      exact shared _ (Db.inStep_writeBlocksBatch (Set.mem_univ _) blocks newSize)
  | readRange parent name offset length =>
      exact shared _ (Db.inStep_readRange (Set.mem_univ _) offset length)
  | getattrPrimary parent name =>
      apply (Db.inStep_getattrPrimary (Set.mem_univ _)).bind
      intro found other same
      exact Db.paired_pure (congrArg Answer.attributes same)
  | listPrimary parent =>
      apply (Db.inStep_listPrimary parent).bind
      intro listed other same
      exact Db.paired_pure (congrArg Answer.children same)
  | getattr parent name => cases primary
  | list parent => cases primary
  | replicaState => cases primary

theorem serve_tables {call : Call} (reads : call.mayUseReplica = true) {before after : Db}
    {outcome : Except DbError Answer} (run : call.serve before = some (outcome, after)) :
    after.tables = before.tables := by
  have unaltered {Value : Type} {body : DbM Value} {convert : Value → Answer}
      {fact : Value → Prop}
      (atomic : Db.Atomic before body
        (fun value tables => tables = before.tables ∧ fact value) True)
      (ran : (body >>= fun value => pure (convert value)) before = some (outcome, after)) :
      after.tables = before.tables := by
    rcases Effect.bind_eq_some.mp ran with ⟨value, middle, first, ended⟩ | ⟨_, failed, _⟩
    · cases ended
      exact (atomic _ _ first).2.1
    · exact (atomic _ _ failed).2.1
  cases call with
  | getattr parent name => exact unaltered Db.getattr_atomic run
  | list parent => exact unaltered Db.list_atomic run
  | replicaState => exact unaltered Db.replicaState_atomic run
  | _ => cases reads

end Call

structure ServedTwice where
  call : Call
  outcome : Except DbError Answer
  otherOutcome : Except DbError Answer

namespace Db

/-- Two handles serve the same call. Unless it may use the replica, its
statements on the primary succeed alike on both. -/
structure TwinStep (before : Db × Db) (served : ServedTwice) (after : Db × Db) : Prop where
  left : before.1.Step ⟨served.call, served.outcome⟩ after.1
  right : before.2.Step ⟨served.call, served.otherOutcome⟩ after.2
  sameFate : served.call.mayUseReplica = false →
    SameFate True before.1 before.2 (after.1.cursor - before.1.cursor)

private theorem TwinStep.agree {before after : Db × Db} {served : ServedTwice}
    (step : TwinStep before served after)
    (agree : before.1.tables.Agree Set.univ before.2.tables) :
    after.1.tables.Agree Set.univ after.2.tables ∧
      (served.call.mayUseReplica = false →
        SameOutcome Answer.timeless served.outcome served.otherOutcome) := by
  cases kind : served.call.mayUseReplica with
  | true =>
      rw [Call.serve_tables kind step.left, Call.serve_tables kind step.right]
      exact ⟨agree, fun primary => by cases primary⟩
  | false =>
      rcases (Call.serve_inStep kind).inStep _ _ _ _ agree step.left (step.sameFate kind)
        with ⟨outcome, next, run, same, nextAgree, _⟩
      have unique := run.symm.trans step.right
      cases unique
      exact ⟨nextAgree, fun _ => same⟩

/-- Two runs of the same calls over the same initial tables, whatever the
replicas do: the tables and the results of all calls that belong to the primary
are the same apart from times. Neither handle stops at such a call while the
other goes on. -/
theorem replica_never_influences {start finish : Db × Db} {history : List ServedTwice}
    (run : Trace TwinStep start history finish)
    (initially : start.1.tables = start.2.tables) :
    finish.1.tables.Agree Set.univ finish.2.tables ∧
      (∀ served ∈ history, served.call.mayUseReplica = false →
        SameOutcome Answer.timeless served.outcome served.otherOutcome) ∧
      ∀ call outcome next, call.mayUseReplica = false →
        finish.1.Step ⟨call, outcome⟩ next →
        SameFate True finish.1 finish.2 (next.cursor - finish.1.cursor) →
        ∃ otherOutcome otherNext, finish.2.Step ⟨call, otherOutcome⟩ otherNext := by
  have reached : finish.1.tables.Agree Set.univ finish.2.tables ∧
      ∀ served ∈ history, served.call.mayUseReplica = false →
        SameOutcome Answer.timeless served.outcome served.otherOutcome := by
    induction run with
    | nil => exact ⟨initially ▸ .refl _ _, fun served member => by cases member⟩
    | snoc earlier last induction =>
        have stepped := last.agree induction.1
        constructor
        · exact stepped.1
        · intro served member primary
          rcases List.mem_append.mp member with before | latest
          · exact induction.2 served before primary
          · rw [List.mem_singleton] at latest
            subst latest
            exact stepped.2 primary
  constructor
  · exact reached.1
  constructor
  · exact reached.2
  · intro call outcome next primary step fate
    rcases (Call.serve_inStep primary).inStep _ _ _ _ reached.1 step fate with
      ⟨otherOutcome, otherNext, otherRun, _⟩
    exact ⟨otherOutcome, otherNext, otherRun⟩

private def created : Answer :=
  .attributes (some ⟨['a'], .file, 0, 0⟩)

private def emptyStandby : Db :=
  .connect .empty true fun _ => { walLsn := 1, replayLsn := some 1 }

/-- Two handles create a file, read its attributes, decide by them and remove it. The
standby of one of them does not show the file. -/
theorem replica_never_influences_stale : ∃ finish history,
    Trace TwinStep (.connect .empty false fun _ => {}, emptyStandby) history finish ∧
      ⟨.getattr [] ['a'], .ok created, .ok (.attributes none)⟩ ∈ history ∧
      ⟨.getattrPrimary [] ['a'], .ok created, .ok created⟩ ∈ history ∧
      finish.1.tables.Agree Set.univ finish.2.tables ∧
      ∀ served ∈ history, served.call.mayUseReplica = false →
        SameOutcome Answer.timeless served.outcome served.otherOutcome := by
  have served : ∃ first second third fourth : Db × Db,
      TwinStep (.connect .empty false fun _ => {}, emptyStandby)
        ⟨.create [] ['a'], .ok .done, .ok .done⟩ first ∧
      TwinStep first ⟨.getattr [] ['a'], .ok created, .ok (.attributes none)⟩ second ∧
      TwinStep second ⟨.getattrPrimary [] ['a'], .ok created, .ok created⟩ third ∧
      TwinStep third ⟨.unlink [] ['a'], .ok .done, .ok .done⟩ fourth :=
    ⟨(_, _), (_, _), (_, _), (_, _), ⟨rfl, rfl, fun _ _ _ => ⟨rfl, fun _ => rfl⟩⟩,
      ⟨rfl, rfl, fun primary => by cases primary⟩,
      ⟨rfl, rfl, fun _ _ _ => ⟨rfl, fun _ => rfl⟩⟩,
      ⟨rfl, rfl, fun _ _ _ => ⟨rfl, fun _ => rfl⟩⟩⟩
  rcases served with ⟨first, second, third, fourth, creates, reads, decides, removes⟩
  have run := (((Trace.snoc .nil creates).snoc reads).snoc decides).snoc removes
  have same := replica_never_influences run rfl
  exact ⟨fourth, _, run, by simp, by simp, same.1, same.2.1⟩

end Db

end Pgfs
