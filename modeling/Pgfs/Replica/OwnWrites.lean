import Pgfs.Replica.Independence
import Pgfs.Replica.Routing

namespace Pgfs

/-! What a handle reads of its own writes through a standby that replays the
commits of the primary in order. -/

/-- What the primary had committed before each statement, the statement before
which the last completed mutation had ended, and the one at which the freshness
was last checked. It restricts nothing. -/
structure Commits where
  committed : Nat → Tables
  completed : Nat
  checked : Nat

def Commits.initially (tables : Tables) : Commits := ⟨fun _ => tables, 0, 0⟩

namespace Call

/-- What is committed between two statements of a call. Only `unlink` commits its
first statement before it sends the second. -/
def committedWithin (call : Call) (tables : Tables) : Tables :=
  match call with
  | .unlink parent name => (tables.deleteEntry ⟨parent, name⟩).2
  | _ => tables

def answerFrom (call : Call) (tables : Tables) : Except DbError Answer :=
  match call with
  | .getattr parent name => (tables.attributes ⟨parent, name⟩).map .attributes
  | .list parent => (tables.listing parent).map .children
  | _ => .ok .done

def isRouted : Call → Bool
  | .getattr .. | .list .. => true
  | _ => false

end Call

namespace Commits

def record (before : Db) (served : Served) (after : Db) (commits : Commits) : Commits where
  committed index :=
    if after.cursor ≤ index then after.tables
    else if before.cursor < index then served.call.committedWithin before.tables
    else commits.committed index
  completed :=
    if served.call.mutates ∧ served.outcome.isOk then after.cursor else commits.completed
  checked :=
    if served.call.mayUseReplica ∧ ¬before.ReusesVerdict then before.cursor
    else commits.checked

/-- The answer is what the primary would have given at a moment that no
completed mutation comes after. -/
def Reflects (commits : Commits) (call : Call) (answer : Answer) (now : Nat) : Prop :=
  ∃ index, commits.completed ≤ index ∧ index ≤ now ∧
    call.answerFrom (commits.committed index) = .ok answer

end Commits

/-- A standby in recovery that replays the commits of the primary in order. Before
statement `index` it had replayed all commits made before statement
`replayed index`; `position index` is where the commits made before a statement
end in the write-ahead log. -/
structure Replication (world : Nat → Moment) (committed : Nat → Tables) (now : Nat) where
  replayed : Nat → Nat
  position : Nat → Int
  inRecovery : ∀ index, (world index).inRecovery = true
  replayedMono : Monotone replayed
  notBeyond : ∀ index, replayed index ≤ index
  shows : ∀ index < now, (world index).standby = committed (replayed index)
  reaches : ∀ index < now, ∀ earlier ≤ index, ∀ reached,
    (world index).replayLsn = some reached → position earlier ≤ reached →
    earlier ≤ replayed index

namespace Db

abbrev CommitRun (start : Db) (history : List Served) (finish : Db × Commits) : Prop :=
  Trace (Watched Step Commits.record) (start, .initially start.tables) history finish

/-- When the freshness was checked on which the routing of the next read rests. -/
def checkedFor (db : Db) (commits : Commits) : Nat :=
  if db.ReusesVerdict then commits.checked else db.cursor

/-- If the standby serves the next read, then all mutations had completed before
the check that allowed it, and the position that the primary then reported
covers them; or the standby has replayed them anyway. -/
def ReadsTimely (db : Db) (commits : Commits) {now : Nat}
    (replication : Replication db.world commits.committed now) : Prop :=
  db.route.1 = true →
    (commits.completed ≤ db.checkedFor commits ∧
      replication.position commits.completed ≤
        (db.world (db.checkedFor commits + 2)).walLsn) ∨
    commits.completed ≤ replication.replayed db.route.2.cursor

/-- The commits are those of the run, and a fresh cached verdict comes from a
check at which the standby had caught up. -/
structure Tracked (db : Db) (commits : Commits) : Prop where
  configured : db.replica = true
  committed : ∀ index, db.cursor ≤ index → commits.committed index = db.tables
  completed : commits.completed ≤ db.cursor
  verdict : db.freshnessCached = true → commits.checked + 4 ≤ db.cursor ∧
    CaughtUp (db.world (commits.checked + 2)) (db.world (commits.checked + 3))

variable {before after : Db} {commits : Commits}

private theorem Tracked.route (tracked : Tracked before commits)
    (recovering : ∀ index, (before.world index).inRecovery = true)
    (standby : before.route.1 = true) :
    before.checkedFor commits + 4 ≤ before.route.2.cursor ∧
      CaughtUp (before.world (before.checkedFor commits + 2))
        (before.world (before.checkedFor commits + 3)) := by
  have configured : ¬before.replica = false := by simp [tracked.configured]
  unfold Db.route at standby ⊢
  unfold checkedFor
  rw [if_neg configured] at standby ⊢
  by_cases reuses : before.ReusesVerdict
  · rw [if_pos reuses] at standby ⊢
    rw [if_pos reuses]
    have caughtUp := tracked.verdict standby
    exact ⟨caughtUp.1.trans (Nat.le_succ _), caughtUp.2⟩
  · rw [if_neg reuses] at standby ⊢
    rw [if_neg reuses]
    have asked : before.advance.moment.inRecovery = true := recovering (before.cursor + 1)
    have caughtUp := caughtUp_of_probe asked standby
    constructor
    · simp only [advanceBy, caughtUp.1]
      exact Nat.le_refl _
    · exact caughtUp.2

private theorem route_cursor (db : Db) : db.cursor ≤ db.route.2.cursor := by
  unfold Db.route
  split
  · exact Nat.le_refl _
  split
  · exact Nat.le_succ _
  · exact (Nat.le_succ _).trans (Nat.le_add_right _ _)

private theorem route_verdict (db : Db) (configured : db.replica = true) :
    db.route.2.freshnessCached = db.route.1 := by
  unfold Db.route
  rw [if_neg (by simp [configured])]
  split
  · rfl
  · rfl

private theorem Tracked.step {served : Served} (tracked : Tracked before commits)
    (recovering : ∀ index, (before.world index).inRecovery = true)
    (step : before.Step served after) :
    Tracked after (commits.record before served after) := by
  have world := Call.serve_sameWorld step
  have moved : before.cursor ≤ after.cursor := by
    cases kind : served.call.mayUseReplica with
    | true => exact (route_cursor before).trans (Call.serve_routed kind step).cursor
    | false => exact ((Call.serve_inStep kind).advances _ _ _ step).cursor
  constructor
  · exact world.2.trans tracked.configured
  · intro index later
    exact if_pos later
  · unfold Commits.record
    dsimp only
    split
    · exact Nat.le_refl _
    · exact tracked.completed.trans moved
  · intro fresh
    rw [world.1]
    cases kind : served.call.mayUseReplica with
    | false =>
        have advanced := (Call.serve_inStep kind).advances _ _ _ step
        rw [advanced.freshnessCached] at fresh
        have known := tracked.verdict fresh
        simp only [Commits.record, kind, Bool.false_eq_true, false_and, if_false]
        exact ⟨known.1.trans moved, known.2⟩
    | true =>
        have advanced := Call.serve_routed kind step
        rw [advanced.freshnessCached, route_verdict before tracked.configured] at fresh
        have routed := tracked.route recovering fresh
        have checked : (commits.record before served after).checked =
            before.checkedFor commits := by
          by_cases reuses : before.ReusesVerdict
          · simp [Commits.record, checkedFor, kind, reuses]
          · simp [Commits.record, checkedFor, kind, reuses]
        rw [checked]
        exact ⟨routed.1.trans advanced.cursor, routed.2⟩

private theorem answerFrom_of_step {call : Call} (routed : call.isRouted = true)
    {answer : Answer} (step : before.Step ⟨call, .ok answer⟩ after) :
    if before.route.1 then
      call.answerFrom before.route.2.moment.standby = .ok answer ∧
        after.cursor = before.route.2.cursor + 1
    else
      call.answerFrom before.tables = .ok answer := by
  cases call with
  | getattr parent name =>
      rcases Effect.bind_eq_ok.mp step with ⟨found, middle, ran, answered⟩
      cases answered
      rw [getattr_apply] at ran
      simp only [Call.answerFrom]
      split
      · rename_i standby
        rw [if_pos standby] at ran
        split at ran
        · cases ran
        · have replied := Prod.mk.inj (Option.some.inj ran)
          rw [replied.1, ← replied.2]
          exact ⟨rfl, rfl⟩
      · rename_i primary
        rw [if_neg primary] at ran
        have known := (getattrPrimary_atomic _ _ ran).2.2
        rw [route_tables] at known
        rw [known]
        rfl
  | list parent =>
      rcases Effect.bind_eq_ok.mp step with ⟨listed, middle, ran, answered⟩
      cases answered
      rw [list_apply] at ran
      simp only [Call.answerFrom]
      split
      · rename_i standby
        rw [if_pos standby] at ran
        split at ran
        · cases ran
        · have replied := Prod.mk.inj (Option.some.inj ran)
          rw [replied.1, ← replied.2]
          exact ⟨rfl, rfl⟩
      · rename_i primary
        rw [if_neg primary] at ran
        have known := listing_of_listPrimary ran
        rw [route_tables] at known
        rw [known]
        rfl
  | _ => cases routed

/-- In every run of a handle with a replica, every read that is timely reflects
all mutations that had completed. -/
theorem reads_own_writes {tables : Tables} {world : Nat → Moment} {history : List Served}
    (run : CommitRun (.connect tables true world) history (before, commits))
    {call : Call} (routed : call.isRouted = true) {answer : Answer}
    (step : before.Step ⟨call, .ok answer⟩ after)
    (replication : Replication before.world commits.committed after.cursor)
    (timely : before.ReadsTimely commits replication) :
    commits.Reflects call answer after.cursor := by
  have same : before.world = world :=
    run.unwatched.invariant (fun db => db.world = world) rfl
      fun _ _ _ same step => (Call.serve_sameWorld step).1.trans same
  have recovering : ∀ index, (world index).inRecovery = true := by
    rw [← same]
    exact replication.inRecovery
  have kept : before.world = world ∧ Tracked before commits := by
    apply run.invariant fun state => state.1.world = world ∧ Tracked state.1 state.2
    · exact ⟨rfl, rfl, fun _ _ => rfl, Nat.le_refl _, fun fresh => by cases fresh⟩
    · intro earlier served later known watched
      have follows : later = (later.1, earlier.2.record earlier.1 served later.1) :=
        Prod.ext rfl watched.2
      rw [follows]
      exact ⟨(Call.serve_sameWorld watched.1).1.trans known.1,
        known.2.step (known.1 ▸ recovering) watched.1⟩
  have tracked := kept.2
  have mayUse : call.mayUseReplica = true := by
    cases call with
    | getattr parent name => rfl
    | list parent => rfl
    | _ => cases routed
  have reached := (route_cursor before).trans (Call.serve_routed mayUse step).cursor
  have answered := answerFrom_of_step routed step
  split at answered
  · rename_i standby
    rcases answered with ⟨replied, ended⟩
    have inTime : before.route.2.cursor < after.cursor := by omega
    have shown := replication.shows before.route.2.cursor inTime
    have replayed : commits.completed ≤ replication.replayed before.route.2.cursor := by
      rcases timely standby with ⟨completed, covered⟩ | anyway
      · have caughtUp := tracked.route replication.inRecovery standby
        rcases caughtUp.2 with ⟨_, _, position, reported, enough⟩
        have later : commits.completed ≤
            replication.replayed (before.checkedFor commits + 3) :=
          replication.reaches _ (by omega) _ (by omega) position reported
            (covered.trans enough)
        exact later.trans (replication.replayedMono (by omega))
      · exact anyway
    refine ⟨replication.replayed before.route.2.cursor, replayed, ?_, ?_⟩
    · exact (replication.notBeyond _).trans inTime.le
    · rw [← shown]
      have world := before.route_sameWorld.1
      rw [moment, world] at replied
      exact replied
  · refine ⟨before.cursor, tracked.completed, reached, ?_⟩
    rw [tracked.committed _ (Nat.le_refl _)]
    exact answered

private theorem CommitRun.record {start : Db} {history : List Served}
    (run : CommitRun start history (before, commits)) (served : Served)
    (step : before.Step served after) :
    CommitRun start (history ++ [served]) (after, commits.record before served after) :=
  .snoc run ⟨step, rfl⟩

private def withFile : Tables := Tables.empty.insertEntry ⟨[], ['a']⟩ .file 0

private def promptStandby : Nat → Moment :=
  fun index => {
    walLsn := if index = 0 then 0 else 1
    replayLsn := some (if index = 0 then 0 else 1)
    standby := if index = 0 then .empty else withFile }

private def promptReplication (committed : Nat → Tables)
    (initial : committed 0 = .empty)
    (created : ∀ index, 0 < index → committed index = withFile) (now : Nat) :
    Replication promptStandby committed now where
  replayed index := index
  position index := if index = 0 then 0 else 1
  inRecovery _ := rfl
  replayedMono _ _ notAfter := notAfter
  notBeyond _ := Nat.le_refl _
  shows := by
    intro index _
    by_cases first : index = 0
    · rw [first, initial]
      rfl
    · rw [created index (Nat.pos_of_ne_zero first)]
      simp [promptStandby, first]
  reaches _ _ _ notAfter _ _ _ := notAfter

theorem reads_own_writes_prompt : ∃ history before commits after,
    CommitRun (.connect .empty true promptStandby) history (before, commits) ∧
      commits.completed = 1 ∧ before.route.1 = true ∧
      before.Step ⟨.getattr [] ['a'],
        .ok (.attributes (some ⟨['a'], .file, 0, 0⟩))⟩ after ∧
      commits.Reflects (.getattr [] ['a']) (.attributes (some ⟨['a'], .file, 0, 0⟩))
        after.cursor := by
  have run : CommitRun (.connect .empty true promptStandby) [] (_, .initially .empty) := .nil
  have written := run.record ⟨.create [] ['a'], .ok .done⟩ rfl
  refine ⟨_, _, _, _, written, rfl, by decide, rfl, ?_⟩
  exact reads_own_writes written rfl rfl
    (promptReplication _ rfl (fun index positive => if_pos positive) _)
    fun _ => .inl ⟨by decide, by decide⟩

private def lateStandby : Nat → Moment :=
  fun index => { walLsn := if index ≤ 5 then 0 else 1, replayLsn := some 0 }

private def lateReplication (committed : Nat → Tables)
    (initial : ∀ index ≤ 5, committed index = .empty) (now : Nat) :
    Replication lateStandby committed now where
  replayed index := min index 5
  position index := if index ≤ 5 then 0 else 1
  inRecovery _ := rfl
  replayedMono _ _ notAfter := min_le_min_right 5 notAfter
  notBeyond _ := min_le_left _ _
  shows := by
    intro index _
    rw [initial _ (min_le_right _ _)]
    rfl
  reaches := by
    intro index _ earlier notAfter reached replayed covered
    cases replayed
    have early : earlier ≤ 5 := by
      by_contra late
      rw [if_neg late] at covered
      omega
    exact le_min notAfter early

/-- A file is created after a check that found the standby fresh. For half a
second the standby answers that it does not exist. -/
theorem own_create_unseen : ∃ history before commits after,
    ∃ _ : Replication before.world commits.committed after.cursor,
      CommitRun (.connect .empty true lateStandby) history (before, commits) ∧
      before.Step ⟨.getattr [] ['a'], .ok (.attributes none)⟩ after ∧
      ¬commits.Reflects (.getattr [] ['a']) (.attributes none) after.cursor := by
  have run : CommitRun (.connect .empty true lateStandby) [] (_, .initially .empty) := .nil
  have checked := run.record ⟨.getattr [] ['a'], .ok (.attributes none)⟩ rfl
  have written := checked.record ⟨.create [] ['a'], .ok .done⟩ rfl
  refine ⟨_, _, _, _, lateReplication _ ?_ _, written, rfl, ?_⟩
  · intro index early
    apply (if_neg (show ¬6 ≤ index by omega)).trans
    apply (if_neg (show ¬5 < index by omega)).trans
    by_cases last : 5 ≤ index
    · exact if_pos last
    apply (if_neg last).trans
    by_cases first : 0 < index
    · exact if_pos first
    · exact if_neg first
  · intro reflected
    rcases reflected with ⟨index, later, _, answered⟩
    rw [show (Commits.record _ _ _ _).committed index = withFile from if_pos later] at answered
    cases answered

end Db

end Pgfs
