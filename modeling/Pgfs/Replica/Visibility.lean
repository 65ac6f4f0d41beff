import Pgfs.Db.Failures
import Pgfs.Replica.Routing

namespace Pgfs

/-! When the reads succeed while the primary fails no statement: a failure of the
standby shows in a read that was routed to it. -/

namespace Call

def reads : Call → Bool
  | .getattr .. | .list .. | .readRange .. => true
  | _ => false

/-- The rows that the call reads hold attributes, and the bytes that it reads
are addressable. -/
def Readable (call : Call) (tables : Tables) : Prop :=
  match call with
  | .getattr parent name => ∃ found, tables.attributes ⟨parent, name⟩ = .ok found
  | .list parent => ∃ listed, tables.listing parent = .ok listed
  | .readRange parent name offset length =>
      ∃ found, tables.attributes ⟨parent, name⟩ = .ok found ∧
        ∀ fileMeta, found = some fileMeta → fileMeta.kind = .file →
          min length (fileMeta.size - offset) = 0 ∨
            offset + min length (fileMeta.size - offset) ≤ addressable
  | _ => True

/-- The call is served by the primary, or by a standby that answers its query. -/
def Answerable (call : Call) (db : Db) : Prop :=
  match call with
  | .getattr .. | .list .. =>
      if db.route.1 then
        db.route.2.moment.replicaFails = false ∧
          call.Readable db.route.2.moment.standby
      else
        call.Readable db.tables
  | _ => call.Readable db.tables

section

variable {before : Db}

private theorem exists_ok_convert {body : DbM Value} (convert : Value → Result) :
    (∃ result after, (body >>= fun value => pure (convert value)) before =
      some (.ok result, after)) ↔ ∃ value after, body before = some (.ok value, after) := by
  constructor
  · intro succeeds
    rcases succeeds with ⟨result, after, run⟩
    rcases Effect.bind_eq_ok.mp run with ⟨value, middle, ran, _⟩
    exact ⟨value, middle, ran⟩
  · intro succeeds
    rcases succeeds with ⟨value, after, ran⟩
    exact ⟨convert value, after, Effect.bind_of_ok ran⟩

private theorem exists_ok_some {outcome : Except DbError Value} {final : Db} :
    (∃ value after, some (outcome, final) = some (.ok value, after)) ↔
      ∃ value, outcome = .ok value := by
  simp

private theorem getattr_succeeds_iff (quiet : before.Quiet) (parent name : Str) :
    (∃ found after, Db.getattr parent name before = some (.ok found, after)) ↔
      (Call.getattr parent name).Answerable before := by
  unfold Answerable Readable
  rw [Db.getattr_apply]
  cases before.route.1 with
  | false =>
      have primary := Db.getattrPrimary_quiet
        (before.route_sameWorld.quiet quiet) parent name
      simp only [Bool.false_eq_true, if_false]
      rw [primary, exists_ok_some, Db.route_tables]
  | true =>
      simp only [if_true]
      cases before.route.2.moment.replicaFails with
      | true => simp
      | false => simp

private theorem list_succeeds_iff (quiet : before.Quiet) (parent : Str) :
    (∃ listed after, Db.list parent before = some (.ok listed, after)) ↔
      (Call.list parent).Answerable before := by
  unfold Answerable Readable
  rw [Db.list_apply]
  cases before.route.1 with
  | false =>
      have primary := Db.listPrimary_quiet before.route.2
        (before.route_sameWorld.quiet quiet) parent
      simp only [Bool.false_eq_true, if_false]
      rw [primary, exists_ok_some, Db.route_tables]
  | true =>
      simp only [if_true]
      cases before.route.2.moment.replicaFails with
      | true => simp
      | false => simp

private theorem readRange_succeeds_iff (quiet : before.Quiet) (parent name : Str)
    (offset length : Nat) :
    (∃ bytes after, Db.readRange parent name offset length before =
      some (.ok bytes, after)) ↔
      (Call.readRange parent name offset length).Answerable before := by
  rcases Db.readRange_quiet quiet parent name offset length with ⟨final, _, _, replied⟩
  unfold Answerable Readable
  rw [replied]
  apply Iff.trans _ exists_readReply_iff
  · exact before.tables.bytes ⟨parent, name⟩
  · simp

end

/-- In every run in which the primary fails no statement, the reads succeed
exactly when they are answerable. -/
theorem read_succeeds_iff {start before : Db} {history : List Served}
    (run : Trace Db.Step start history before) (quiet : start.Quiet) (call : Call)
    (read : call.reads = true) :
    (∃ answer after, before.Step ⟨call, .ok answer⟩ after) ↔ call.Answerable before := by
  have reached : before.Quiet := run.invariant Db.Quiet quiet
    fun _ _ _ quiet step => (serve_sameWorld step).quiet quiet
  cases call with
  | getattr parent name =>
      exact (exists_ok_convert _).trans (getattr_succeeds_iff reached parent name)
  | list parent => exact (exists_ok_convert _).trans (list_succeeds_iff reached parent)
  | readRange parent name offset length =>
      exact (exists_ok_convert _).trans
        (readRange_succeeds_iff reached parent name offset length)
  | _ => cases read

/-- The standby has replayed everything, and fails from some statement on. -/
private def caughtUpUntil (index : Nat) : Nat → Moment :=
  fun statement => { replayLsn := some 0, replicaFails := decide (index ≤ statement) }

private def oneFile : Tables := Tables.empty.insertEntry ⟨[], ['a']⟩ .file 0

/-- After a write to the primary, and a read of attributes from a standby without the
file, the standby is asked again under the same verdict and lists nothing. -/
theorem read_succeeds_iff_standby : ∃ history before answer after,
    Trace Db.Step (.connect oneFile true (caughtUpUntil 20)) history before ∧
      history.length = 2 ∧ before.route.1 = true ∧ before.tables.entries ≠ ∅ ∧
      before.Step ⟨.list [], .ok answer⟩ after := by
  have served : ∃ written found,
      (Db.connect oneFile true (caughtUpUntil 20)).Step
        ⟨.writeRange [] ['a'] 0 [7], .ok .done⟩ written ∧
      written.Step ⟨.getattr [] ['a'], .ok (.attributes none)⟩ found ∧
      found.route.1 = true ∧ found.route.2.moment.replicaFails = false ∧
      found.route.2.moment.standby.listing [] = .ok [] ∧
      (found.tables.attributes ⟨[], ['a']⟩).toOption.any Option.isSome = true :=
    ⟨_, _, rfl, rfl, by decide +kernel, by decide +kernel, by decide +kernel, by decide +kernel⟩
  rcases served with ⟨written, found, first, second, routed, answers, lists, stored⟩
  have run := (Trace.snoc .nil first).snoc second
  have answerable : (Call.list []).Answerable found := by
    unfold Answerable
    simp only [routed, if_true]
    exact ⟨answers, [], lists⟩
  rcases (read_succeeds_iff run (fun _ => rfl) (.list []) rfl).mpr answerable with
    ⟨answer, after, reads⟩
  refine ⟨_, found, answer, after, run, rfl, routed, ?_, reads⟩
  intro nothing
  unfold Tables.attributes at stored
  rw [nothing] at stored
  cases stored

/-- The freshness check succeeds, the query after it fails, and so does the
call. -/
theorem replica_failure_visible : ∃ failure after,
    (Db.connect .empty true (caughtUpUntil 4)).Step ⟨.getattr [] ['a'], .error failure⟩
      after ∧ (Db.connect .empty true (caughtUpUntil 4)).Quiet :=
  ⟨_, _, rfl, fun _ => rfl⟩

end Call

end Pgfs
