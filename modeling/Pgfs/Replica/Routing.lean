import Pgfs.Db.Answers
import Pgfs.Db.Reading
import Pgfs.Db.Calls
import Pgfs.Db.MethodsInStep

namespace Pgfs

/-! Where a read goes: what a freshness check finds at the moments of its
queries, when a verdict is reused, and what the reads then answer. -/

def Tables.listing (tables : Tables) (parent : Str) : Except DbError (List FileMeta) :=
  Db.rowsToMeta (tables.children parent)

namespace Db

/-- The standby was asked at `replayed`, right after the primary at `reported`,
and had replayed everything that the primary reported. -/
def CaughtUp (reported replayed : Moment) : Prop :=
  reported.fails = false ∧ replayed.replicaFails = false ∧
    ∃ position ∈ replayed.replayLsn, reported.walLsn ≤ position

instance (reported replayed : Moment) : Decidable (CaughtUp reported replayed) :=
  decidable_of_iff (reported.fails = false ∧ replayed.replicaFails = false ∧
      replayed.replayLsn.any (fun position => decide (reported.walLsn ≤ position)) = true)
    (by simp [CaughtUp, Option.any_eq_true])

def probe (db : Db) : Bool × Nat :=
  if db.replica = false then
    (false, 0)
  else if db.moment.replicaFails then
    (false, 1)
  else if db.moment.inRecovery = false then
    (true, 1)
  else
    (decide (CaughtUp (db.world (db.cursor + 1)) (db.world (db.cursor + 2))), 3)

def ReusesVerdict (db : Db) : Prop :=
  ∃ lastCheck ∈ db.freshnessCheckedAt, db.moment.monoMillis - lastCheck < freshnessTtlMs

instance (db : Db) : Decidable db.ReusesVerdict :=
  decidable_of_iff (db.freshnessCheckedAt.any
      (fun lastCheck => decide (db.moment.monoMillis - lastCheck < freshnessTtlMs)) = true)
    (by simp [ReusesVerdict, Option.any_eq_true])

/-- Whether a read is served by the standby, and the handle after that
decision. -/
def route (db : Db) : Bool × Db :=
  if db.replica = false then
    (false, db)
  else if db.ReusesVerdict then
    (db.freshnessCached, db.advance)
  else
    (db.advance.probe.1,
      { db.advance.advanceBy db.advance.probe.2 with
        freshnessCached := db.advance.probe.1
        freshnessCheckedAt := some db.moment.monoMillis })

variable (db : Db)

theorem caughtUp_of_probe {db : Db} (recovering : db.moment.inRecovery = true)
    (fresh : db.probe.1 = true) :
    db.probe.2 = 3 ∧ CaughtUp (db.world (db.cursor + 1)) (db.world (db.cursor + 2)) := by
  unfold probe at fresh ⊢
  cases configured : db.replica with
  | false => simp [configured] at fresh
  | true =>
      cases failing : db.moment.replicaFails with
      | true => simp [configured, failing] at fresh
      | false =>
          simp only [configured, failing, recovering, Bool.true_eq_false,
            Bool.false_eq_true, if_false] at fresh ⊢
          exact ⟨trivial, of_decide_eq_true fresh⟩

private theorem comparePositions :
    (do
      let primaryLsn ← primaryLsn
      let replayLsn ← askReplica (·.replayLsn)
      match primaryLsn, replayLsn with
      | some primary, some (some replayed) => return decide (primary ≤ replayed)
      | _, _ => return false : DbM Bool) db.advance =
      some (.ok (decide (CaughtUp (db.world (db.cursor + 1)) (db.world (db.cursor + 2)))),
        db.advanceBy 3) := by
  have reported : primaryLsn db.advance = some
      (.ok (if (db.world (db.cursor + 1)).fails then none
        else some (db.world (db.cursor + 1)).walLsn), db.advance.advance) := rfl
  have replayed : askReplica (·.replayLsn) db.advance.advance = some
      (.ok (if (db.world (db.cursor + 2)).replicaFails then none
        else some (db.world (db.cursor + 2)).replayLsn), db.advanceBy 3) := rfl
  rw [Effect.bind_of_ok reported, Effect.bind_of_ok replayed]
  cases reportFails : (db.world (db.cursor + 1)).fails with
  | true => simp [CaughtUp, reportFails]
  | false =>
      cases replayFails : (db.world (db.cursor + 2)).replicaFails with
      | true => simp [CaughtUp, replayFails]
      | false =>
          cases position : (db.world (db.cursor + 2)).replayLsn with
          | none => simp [CaughtUp, position]
          | some position => simp [CaughtUp, *]

theorem replicaFresh_apply :
    replicaFresh db = some (.ok db.probe.1, db.advanceBy db.probe.2) := by
  unfold replicaFresh probe
  rw [Effect.bind_of_ok (Effect.get_apply db)]
  cases configured : db.replica with
  | false => rfl
  | true =>
      have asked : askReplica (·.inRecovery) db = some
          (.ok (if db.moment.replicaFails then none else some db.moment.inRecovery),
            db.advance) := rfl
      simp only [Bool.not_true, Bool.false_eq_true, if_false]
      rw [Effect.bind_of_ok asked]
      cases db.moment.replicaFails with
      | true => rfl
      | false =>
          cases db.moment.inRecovery with
          | false => rfl
          | true =>
              simp only [Bool.false_eq_true, Bool.true_eq_false, if_false]
              exact comparePositions db

private theorem recheck (configured : db.replica = true) (stale : ¬db.ReusesVerdict) :
    (do
      let fresh ← replicaFresh
      Effect.modify fun later =>
        { later with
          freshnessCached := fresh
          freshnessCheckedAt := some db.moment.monoMillis }
      return fresh) db.advance = some (.ok db.route.1, db.route.2) := by
  have routed : db.route = (db.advance.probe.1,
      { db.advance.advanceBy db.advance.probe.2 with
        freshnessCached := db.advance.probe.1
        freshnessCheckedAt := some db.moment.monoMillis }) := by
    simp [route, configured, stale]
  rw [routed, Effect.bind_of_ok (replicaFresh_apply db.advance)]
  rfl

theorem replicaFreshCached_apply (configured : db.replica = true) :
    replicaFreshCached db = some (.ok db.route.1, db.route.2) := by
  have read : nowMonoMillis db = some (.ok db.moment.monoMillis, db.advance) := rfl
  have kept : db.advance.freshnessCheckedAt = db.freshnessCheckedAt := rfl
  unfold replicaFreshCached
  rw [Effect.bind_of_ok read, Effect.bind_of_ok (Effect.get_apply db.advance), kept]
  cases checked : db.freshnessCheckedAt with
  | none =>
      have stale : ¬db.ReusesVerdict := by simp [ReusesVerdict, checked]
      exact recheck db configured stale
  | some lastCheck =>
      by_cases recent : db.moment.monoMillis - lastCheck < freshnessTtlMs
      · have routed : db.route = (db.freshnessCached, db.advance) := by
          simp [route, configured, ReusesVerdict, checked, recent]
        rw [routed]
        simp only [decide_eq_true recent, if_true]
        rfl
      · have stale : ¬db.ReusesVerdict := by simp [ReusesVerdict, checked, recent]
        simp only [decide_eq_false recent, Bool.false_eq_true, if_false]
        exact recheck db configured stale

theorem replicaServes_apply : replicaServes db = some (.ok db.route.1, db.route.2) := by
  unfold replicaServes
  rw [Effect.bind_of_ok (Effect.get_apply db)]
  cases configured : db.replica with
  | false => simp [route, configured]
  | true => exact replicaFreshCached_apply db configured

@[simp] theorem route_tables : db.route.2.tables = db.tables := by
  unfold route
  split
  · rfl
  split
  · rfl
  · rfl

theorem route_sameWorld : SameWorld db db.route.2 := by
  unfold route
  split
  · exact .refl db
  split
  · exact ⟨rfl, rfl⟩
  · exact ⟨rfl, rfl⟩

private theorem queryReplica_apply (what : Message) (read : Tables → Value) :
    queryReplica what read db =
      if db.moment.replicaFails then
        some (.error (.ctx what), db.advance)
      else
        some (.ok (read db.moment.standby), db.advance) := by
  have asked : askReplica (·.standby) db = some
      (.ok (if db.moment.replicaFails then none else some db.moment.standby),
        db.advance) := rfl
  unfold queryReplica
  rw [Effect.bind_of_ok asked]
  cases db.moment.replicaFails with
  | true => rfl
  | false => rfl

theorem getattr_apply (parent name : Str) :
    getattr parent name db =
      if db.route.1 then
        if db.route.2.moment.replicaFails then
          some (.error (.ctx ⟨"get attributes of entry _ in _", [name, parent]⟩),
            db.route.2.advance)
        else
          some (db.route.2.moment.standby.attributes ⟨parent, name⟩, db.route.2.advance)
      else
        getattrPrimary parent name db.route.2 := by
  unfold getattr
  rw [Effect.bind_of_ok (replicaServes_apply db)]
  cases db.route.1 with
  | false => rfl
  | true =>
      simp only [if_true]
      have asked := queryReplica_apply db.route.2
        ⟨"get attributes of entry _ in _", [name, parent]⟩
        fun tables => tables.entries.lookup ⟨parent, name⟩
      cases fails : db.route.2.moment.replicaFails with
      | true =>
          rw [fails, if_pos rfl] at asked
          exact Effect.bind_of_error asked
      | false =>
          rw [fails, if_neg Bool.false_ne_true] at asked
          rw [Effect.bind_of_ok asked]
          unfold Tables.attributes
          cases db.route.2.moment.standby.entries.lookup ⟨parent, name⟩ with
          | none => rfl
          | some row =>
              dsimp only
              cases rowToMeta name row with
              | error failure => rfl
              | ok fileMeta => rfl

private theorem ofExcept_apply (value : Except DbError Value) :
    ofExcept value db = some (value, db) := by
  cases value with
  | error failure => rfl
  | ok found => rfl

theorem list_apply (parent : Str) :
    list parent db =
      if db.route.1 then
        if db.route.2.moment.replicaFails then
          some (.error (.ctx ⟨"list children of directory _", [parent]⟩),
            db.route.2.advance)
        else
          some (db.route.2.moment.standby.listing parent, db.route.2.advance)
      else
        listPrimary parent db.route.2 := by
  unfold list
  rw [Effect.bind_of_ok (replicaServes_apply db)]
  cases db.route.1 with
  | false => rfl
  | true =>
      simp only [if_true]
      have asked := queryReplica_apply db.route.2
        ⟨"list children of directory _", [parent]⟩ fun tables => tables.children parent
      cases fails : db.route.2.moment.replicaFails with
      | true =>
          rw [fails, if_pos rfl] at asked
          exact Effect.bind_of_error asked
      | false =>
          rw [fails, if_neg Bool.false_ne_true] at asked
          rw [Effect.bind_of_ok asked]
          exact ofExcept_apply _ _

theorem listing_of_listPrimary {before after : Db} {parent : Str} {listed : List FileMeta}
    (run : listPrimary parent before = some (.ok listed, after)) :
    before.tables.listing parent = .ok listed := by
  rcases Effect.bind_eq_ok.mp run with ⟨rows, middle, read, converted⟩
  rw [ofExcept_apply] at converted
  rw [query_apply] at read
  split at read
  · cases read
  · cases read
    exact congrArg Prod.fst (Option.some.inj converted)

theorem listPrimary_quiet (quiet : Quiet db) (parent : Str) :
    listPrimary parent db = some (db.tables.listing parent, db.advance) := by
  unfold listPrimary
  rw [Effect.bind_of_ok (query_quiet quiet _ _)]
  exact ofExcept_apply _ _

theorem replicaState_apply :
    replicaState db = some (.ok (), if db.replica = false then db else db.route.2) := by
  unfold replicaState
  rw [Effect.bind_of_ok (Effect.get_apply db)]
  cases configured : db.replica with
  | false => rfl
  | true =>
      simp only [Bool.not_true, Bool.false_eq_true, if_false]
      rw [Effect.bind_of_ok (replicaFreshCached_apply db configured)]
      rfl

end Db

namespace Db

private theorem Advanced.succ (db : Db) : Advanced db db.advance :=
  ⟨rfl, rfl, rfl, rfl, Nat.le_succ _⟩

private theorem getattr_routed {before after : Db} {parent name : Str}
    {outcome : Except DbError (Option FileMeta)}
    (run : getattr parent name before = some (outcome, after)) :
    Advanced before.route.2 after := by
  have primary : InStep True Set.univ _ (getattrPrimary parent name) :=
    inStep_getattrPrimary (Set.mem_univ _)
  rw [getattr_apply] at run
  split at run
  · split at run
    · cases run
      exact .succ _
    · cases run
      exact .succ _
  · exact primary.advances _ _ _ run

private theorem list_routed {before after : Db} {parent : Str}
    {outcome : Except DbError (List FileMeta)}
    (run : list parent before = some (outcome, after)) : Advanced before.route.2 after := by
  have primary : InStep True Set.univ _ (listPrimary parent) := inStep_listPrimary parent
  rw [list_apply] at run
  split at run
  · split at run
    · cases run
      exact .succ _
    · cases run
      exact .succ _
  · exact primary.advances _ _ _ run

private theorem replicaState_routed {before after : Db} {outcome : Except DbError Unit}
    (run : replicaState before = some (outcome, after)) : Advanced before.route.2 after := by
  rw [replicaState_apply] at run
  cases run
  split
  · rename_i absent
    simp only [route, absent, if_true]
    exact .refl before
  · exact .refl _

end Db

theorem Call.serve_routed {call : Call} (reads : call.mayUseReplica = true)
    {before after : Db} {outcome : Except DbError Answer}
    (run : call.serve before = some (outcome, after)) :
    Db.Advanced before.route.2 after := by
  have converted {Value : Type} {body : DbM Value} {convert : Value → Answer}
      (routed : ∀ {result : Except DbError Value} {final : Db},
        body before = some (result, final) → Db.Advanced before.route.2 final)
      (ran : (body >>= fun value => pure (convert value)) before = some (outcome, after)) :
      Db.Advanced before.route.2 after := by
    rcases Effect.bind_eq_some.mp ran with ⟨value, middle, first, ended⟩ | ⟨_, failed, _⟩
    · cases ended
      exact routed first
    · exact routed failed
  cases call with
  | getattr parent name => exact converted Db.getattr_routed run
  | list parent => exact converted Db.list_routed run
  | replicaState => exact converted Db.replicaState_routed run
  | _ => cases reads

end Pgfs
