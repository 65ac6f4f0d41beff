import Pgfs.Replica.Independence
import Pgfs.Replica.Routing

namespace Pgfs

/-! How far the standby may lag behind a read that it serves. -/

/-- A history of both servers in which every statement of a handle happens at
some instant: time does not run backwards, and neither the position that the
primary reports nor the one that the standby has replayed ever decreases. The
standby stays in recovery. -/
structure Timeline (world : Nat → Moment) where
  instant : Nat → Nat
  clock : Nat → Nat
  position : Nat → Int
  replayed : Nat → Option Int
  instantMono : Monotone instant
  clockMono : Monotone clock
  positionMono : ∀ first second, first ≤ second → position first ≤ position second
  replayedMono : ∀ first second, first ≤ second → ∀ reached, replayed first = some reached →
    ∃ later, replayed second = some later ∧ reached ≤ later
  monoMillis : ∀ index, (world index).monoMillis = clock (instant index)
  walLsn : ∀ index, (world index).walLsn = position (instant index)
  replayLsn : ∀ index, (world index).replayLsn = replayed (instant index)
  inRecovery : ∀ index, (world index).inRecovery = true

namespace Timeline

variable {world : Nat → Moment} (timeline : Timeline world)

/-- At a statement, the standby has replayed all positions that the primary
reported before a time. -/
def CoveredBefore (time index : Nat) : Prop :=
  ∃ reached, timeline.replayed (timeline.instant index) = some reached ∧
    ∀ instant, timeline.clock instant < time → timeline.position instant ≤ reached

variable {timeline}

theorem CoveredBefore.later {time index later : Nat}
    (covered : timeline.CoveredBefore time index) (notBefore : index ≤ later) :
    timeline.CoveredBefore time later := by
  rcases covered with ⟨reached, replayed, covers⟩
  rcases timeline.replayedMono _ _ (timeline.instantMono notBefore) reached replayed with
    ⟨laterReached, laterReplayed, further⟩
  exact ⟨laterReached, laterReplayed, fun instant before =>
    (covers instant before).trans further⟩

theorem CoveredBefore.earlier {time earlierTime index : Nat}
    (covered : timeline.CoveredBefore time index) (notAfter : earlierTime ≤ time) :
    timeline.CoveredBefore earlierTime index := by
  rcases covered with ⟨reached, replayed, covers⟩
  exact ⟨reached, replayed, fun instant before => covers instant (before.trans_le notAfter)⟩

private theorem coveredBefore_probe {db : Db} (same : db.world = world)
    (fresh : db.probe.1 = true) {time : Nat} (earlier : time ≤ db.moment.monoMillis) :
    timeline.CoveredBefore time (db.cursor + db.probe.2) := by
  have recovering : db.moment.inRecovery = true := by
    rw [Db.moment, same]
    exact timeline.inRecovery db.cursor
  rcases Db.caughtUp_of_probe recovering fresh with ⟨count, _, _, reached, replayed, caughtUp⟩
  rw [same, timeline.replayLsn] at replayed
  rw [same, timeline.walLsn] at caughtUp
  have covered : timeline.CoveredBefore time (db.cursor + 2) := by
    refine ⟨reached, replayed, fun instant before => ?_⟩
    have notLater : instant ≤ timeline.instant (db.cursor + 1) := by
      by_contra later
      have ordered := timeline.clockMono (not_le.mp later).le
      have started := timeline.clockMono (timeline.instantMono (Nat.le_add_right db.cursor 1))
      rw [Db.moment, same, timeline.monoMillis] at earlier
      omega
    exact (timeline.positionMono _ _ notLater).trans caughtUp
  exact covered.later (by omega)

end Timeline

namespace Db

variable {world : Nat → Moment} (timeline : Timeline world)

structure VerdictCovers (db : Db) : Prop where
  world : db.world = world
  covers : db.freshnessCached = true →
    ∃ lastCheck, db.freshnessCheckedAt = some lastCheck ∧
      timeline.CoveredBefore lastCheck db.cursor

variable {timeline} {before after : Db}

private theorem VerdictCovers.advanced (sound : VerdictCovers timeline before)
    (advanced : Advanced before after) : VerdictCovers timeline after where
  world := advanced.world.trans sound.world
  covers := by
    rw [advanced.freshnessCached, advanced.freshnessCheckedAt]
    intro fresh
    rcases sound.covers fresh with ⟨lastCheck, checked, covered⟩
    exact ⟨lastCheck, checked, covered.later advanced.cursor⟩

/-- Routing a read keeps the cached verdict sound, and a read routed to the
standby finds everything replayed that was reported half a second ago. -/
private theorem VerdictCovers.route (sound : VerdictCovers timeline before) :
    VerdictCovers timeline before.route.2 ∧
      (before.route.1 = true → ∀ time, time + freshnessTtlMs ≤ before.moment.monoMillis + 1 →
        timeline.CoveredBefore time before.route.2.cursor) := by
  unfold Db.route
  split
  · exact ⟨sound, fun standby => by cases standby⟩
  split
  · rename_i reuses
    constructor
    · exact sound.advanced ⟨rfl, rfl, rfl, rfl, Nat.le_succ _⟩
    · intro fresh time past
      rcases sound.covers fresh with ⟨lastCheck, checked, covered⟩
      rcases reuses with ⟨cachedCheck, cached, recent⟩
      rw [checked] at cached
      cases cached
      exact (covered.later (Nat.le_succ _)).earlier (by omega)
  · have reached : before.moment.monoMillis ≤ before.advance.moment.monoMillis := by
      rw [moment, moment, advance_world, sound.world, timeline.monoMillis,
        timeline.monoMillis]
      exact timeline.clockMono (timeline.instantMono (Nat.le_succ _))
    have probed (fresh : before.advance.probe.1 = true) {time : Nat}
        (earlier : time ≤ before.advance.moment.monoMillis) :
        timeline.CoveredBefore time (before.advance.cursor + before.advance.probe.2) :=
      @Timeline.coveredBefore_probe world timeline before.advance sound.world fresh time earlier
    constructor
    · exact ⟨sound.world, fun fresh => ⟨_, rfl, probed fresh reached⟩⟩
    · intro fresh time past
      have ttl : freshnessTtlMs = 500 := rfl
      exact probed fresh (by omega)

private theorem VerdictCovers.step {served : Served} (sound : VerdictCovers timeline before)
    (step : before.Step served after) : VerdictCovers timeline after := by
  cases kind : served.call.mayUseReplica with
  | true => exact sound.route.1.advanced (Call.serve_routed kind step)
  | false => exact sound.advanced ((Call.serve_inStep kind).advances _ _ _ step)

/-- A read for which `replica_serves` chooses the standby, which is `asked` and answers. -/
def ServedByStandby (before : Db) (served : Served) (asked after : Db) : Prop :=
  before.Step served after ∧ replicaServes before = some (.ok true, asked) ∧
    ((∃ parent name found, served = ⟨.getattr parent name, .ok (.attributes found)⟩) ∨
      ∃ parent listed, served = ⟨.list parent, .ok (.children listed)⟩)

/-- In every run of a handle, when the standby answers a read, it has replayed
every position that the primary had reached 500 milliseconds before the read
looked at the clock. -/
theorem staleness_bounded {tables : Tables} {history : List Served} {served : Served}
    {asked : Db} (timeline : Timeline world)
    (run : Trace Step (.connect tables true world) history before)
    (read : before.ServedByStandby served asked after) (instant : Nat)
    (past : timeline.clock instant + freshnessTtlMs ≤ before.moment.monoMillis) :
    ∃ reached, timeline.replayed (timeline.instant asked.cursor) = some reached ∧
      timeline.position instant ≤ reached := by
  have sound : VerdictCovers timeline before := by
    apply run.invariant (VerdictCovers timeline)
    · exact ⟨rfl, fun fresh => by cases fresh⟩
    · exact fun _ _ _ sound step => sound.step step
  have routed := (replicaServes_apply before).symm.trans read.2.1
  simp only [Option.some.injEq, Prod.mk.injEq, Except.ok.injEq] at routed
  rw [← routed.2]
  rcases sound.route.2 routed.1 (timeline.clock instant + 1) (by omega) with
    ⟨reached, replayed, covers⟩
  exact ⟨reached, replayed, covers instant (Nat.lt_succ_self _)⟩

/-- A statement every 50 milliseconds, and a standby that stops at position 24. -/
private def laggingWorld : Nat → Moment :=
  fun index => {
    monoMillis := 50 * (index + 20), walLsn := index + 20
    replayLsn := some (min (index + 20) 24 : Nat) }

private def laggingTimeline : Timeline laggingWorld where
  instant index := index + 20
  clock instant := 50 * instant
  position instant := instant
  replayed instant := some (min instant 24 : Nat)
  instantMono := fun _ _ notAfter => Nat.add_le_add_right notAfter 20
  clockMono := fun _ _ notAfter => Nat.mul_le_mul_left 50 notAfter
  positionMono := fun _ _ notAfter => Int.ofNat_le.mpr notAfter
  replayedMono := by
    intro first second notAfter reached replayed
    cases replayed
    exact ⟨_, rfl, Int.ofNat_le.mpr (min_le_min_right 24 notAfter)⟩
  monoMillis := fun _ => rfl
  walLsn := fun _ => by simp [laggingWorld]
  replayLsn := fun _ => rfl
  inRecovery := fun _ => rfl

/-- After a read that found the standby fresh a file is created. The next read takes the
verdict again and misses the file, but not what was there half a second before. -/
theorem staleness_bounded_lagging : ∃ history before after asked,
    Trace Step (.connect .empty true laggingWorld) history before ∧ history.length = 2 ∧
      before.ReusesVerdict ∧
      before.ServedByStandby ⟨.getattr [] ['a'], .ok (.attributes none)⟩ asked after ∧
      ∃ reached, laggingTimeline.replayed (laggingTimeline.instant asked.cursor) =
          some reached ∧ laggingTimeline.position 16 ≤ reached := by
  have served : ∃ found created, (Db.connect .empty true laggingWorld).Step
      ⟨.getattr [] ['a'], .ok (.attributes none)⟩ found ∧
      found.Step ⟨.create [] ['a'], .ok .done⟩ created ∧ created.ReusesVerdict ∧
      500 + 50 * 16 ≤ created.moment.monoMillis ∧
      ∃ asked after, created.ServedByStandby
        ⟨.getattr [] ['a'], .ok (.attributes none)⟩ asked after :=
    ⟨_, _, rfl, rfl, ⟨_, rfl, by decide⟩, by decide, _, _, rfl, rfl,
      .inl ⟨[], ['a'], none, rfl⟩⟩
  rcases served with ⟨found, created, first, second, reuses, past, asked, after, read⟩
  have run := Trace.snoc (Trace.snoc .nil first) second
  exact ⟨_, created, after, asked, run, rfl, reuses, read,
    staleness_bounded laggingTimeline run read 16 (by
      rw [Nat.add_comm]
      exact past)⟩

end Db

end Pgfs
