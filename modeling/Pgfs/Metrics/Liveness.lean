import Mathlib.Data.List.Induction
import Pgfs.Foundation.MachineInt
import Pgfs.Foundation.Trace

namespace Pgfs

open MachineInt

/-! The liveness heartbeat and the check at the top of every callback. The deadline
is armed when a call first observes a beat, not when the beat happens. -/

def heartbeatPeriodMs : Nat := 10000

def heartbeatDeadlineMs : Nat := 3 * heartbeatPeriodMs

/-- `LIVENESS`, `LAST_BEAT_SEEN` and `BEAT_DEADLINE_AT`. -/
structure Heartbeat where
  liveness : Nat
  lastBeatSeen : Nat
  beatDeadlineAt : Nat

namespace Heartbeat

def initial : Heartbeat := ⟨0, maxU64, maxU64⟩

def beat (heartbeat : Heartbeat) : Heartbeat :=
  { heartbeat with liveness := (heartbeat.liveness + 1) % 2 ^ 64 }

/-- `check_liveness` at a reading of the monotonic clock. -/
def checkLiveness (nowMs : Nat) (heartbeat : Heartbeat) : Option (Bool × Heartbeat) :=
  if heartbeat.lastBeatSeen = maxU64 ∨ heartbeat.liveness ≠ heartbeat.lastBeatSeen then do
    let deadline ← checkedAdd nowMs heartbeatDeadlineMs
    return (true, { heartbeat with
      lastBeatSeen := heartbeat.liveness
      beatDeadlineAt := deadline })
  else
    some (decide (nowMs < heartbeat.beatDeadlineAt), heartbeat)

end Heartbeat

inductive Tick
  | beat
  | check (nowMs : Nat) (healthy : Bool)
  deriving DecidableEq

def Heartbeat.Step (before : Heartbeat) (tick : Tick) (after : Heartbeat) : Prop :=
  match tick with
  | .beat => after = before.beat
  | .check nowMs healthy => before.checkLiveness nowMs = some (healthy, after)

def beats (history : List Tick) : Nat := history.count .beat

def observations (seen : Nat) : List Tick → List (Nat × Nat)
  | [] => []
  | .beat :: rest => observations (seen + 1) rest
  | .check nowMs _ :: rest => (seen, nowMs) :: observations seen rest

def firstSeen (history : List Tick) (value : Nat) : Option Nat :=
  ((observations 0 history).find? fun observed => observed.1 = value).map (·.2)

def lastSeen (history : List Tick) : Option Nat :=
  (observations 0 history).getLast?.map (·.1)

/-! ## Observations -/

@[simp] theorem beats_append (history later : List Tick) :
    beats (history ++ later) = beats history + beats later := List.count_append

theorem observations_append (seen : Nat) (history later : List Tick) :
    observations seen (history ++ later) =
      observations seen history ++ observations (seen + beats history) later := by
  induction history generalizing seen with
  | nil => rfl
  | cons tick rest induction =>
      cases tick with
      | beat =>
          simp only [List.cons_append, observations, induction, beats, List.count_cons_self]
          rw [Nat.add_assoc, Nat.add_comm 1]
      | check nowMs healthy =>
          have same : beats (.check nowMs healthy :: rest) = beats rest :=
            List.count_cons_of_ne (by simp)
          simp only [List.cons_append, observations, induction, same]

theorem observations_beat (history : List Tick) :
    observations 0 (history ++ [.beat]) = observations 0 history := by
  rw [observations_append]
  simp [observations]

theorem observations_check (history : List Tick) (nowMs : Nat) (healthy : Bool) :
    observations 0 (history ++ [.check nowMs healthy]) =
      observations 0 history ++ [(beats history, nowMs)] := by
  rw [observations_append]
  simp [observations]

theorem observations_spec (history : List Tick) :
    ∀ observed ∈ observations 0 history, ∃ last, lastSeen history = some last ∧
      observed.1 ≤ last ∧ last ≤ beats history := by
  induction history using List.reverseRecOn with
  | nil => simp [observations]
  | append_singleton history tick induction =>
      cases tick with
      | beat =>
          intro observed member
          rw [observations_beat] at member
          rcases induction observed member with ⟨last, seen, older, counted⟩
          refine ⟨last, ?_, older, ?_⟩
          · rw [lastSeen, observations_beat]
            exact seen
          · rw [beats_append]
            omega
      | check nowMs healthy =>
          intro observed member
          have same : beats (history ++ [.check nowMs healthy]) = beats history := by
            rw [beats_append]
            rfl
          refine ⟨beats history, ?_, ?_, Nat.le_of_eq same.symm⟩
          · rw [lastSeen, observations_check]
            simp
          · rw [observations_check] at member
            rcases List.mem_append.mp member with earlier | here
            · rcases induction observed earlier with ⟨last, _, older, counted⟩
              omega
            · rw [List.mem_singleton] at here
              rw [here]

theorem firstSeen_of_fresh {history : List Tick}
    (fresh : lastSeen history ≠ some (beats history)) :
    firstSeen history (beats history) = none := by
  unfold firstSeen
  rw [Option.map_eq_none_iff, List.find?_eq_none]
  intro observed member
  rcases observations_spec history observed member with ⟨last, seen, older, counted⟩
  rw [decide_eq_true_eq]
  intro same
  apply fresh
  rw [seen, Option.some.injEq]
  omega

theorem observations_still (seen : Nat) {middle : List Tick} (still : .beat ∉ middle) :
    ∀ observed ∈ observations seen middle, observed.1 = seen := by
  induction middle with
  | nil => simp [observations]
  | cons tick rest induction =>
      cases tick with
      | beat => exact absurd List.mem_cons_self still
      | check nowMs healthy =>
          intro observed member
          rcases List.mem_cons.mp member with here | later
          · rw [here]
          · exact induction (fun beat => still (List.mem_cons_of_mem _ beat)) observed later

/-- The first call that observed what the counter shows now has no beat after it. -/
theorem exists_call_of_firstSeen {history : List Tick} {firstMs : Nat}
    (first : firstSeen history (beats history) = some firstMs) :
    ∃ earlier healthy middle, history = earlier ++ .check firstMs healthy :: middle ∧
      .beat ∉ middle := by
  induction history using List.reverseRecOn with
  | nil => cases first
  | append_singleton history tick induction =>
      cases tick with
      | beat =>
          rw [firstSeen, observations_beat, Option.map_eq_some_iff] at first
          rcases first with ⟨observed, found, _⟩
          have value := List.find?_some found
          rcases observations_spec history observed (List.mem_of_find?_eq_some found) with
            ⟨last, _, older, counted⟩
          have more : beats (history ++ [.beat]) = beats history + 1 := by
            rw [beats_append]
            rfl
          rw [decide_eq_true_eq, more] at value
          omega
      | check nowMs healthy =>
          have same : beats (history ++ [.check nowMs healthy]) = beats history := by
            rw [beats_append]
            rfl
          rw [same, firstSeen, observations_check, List.find?_append] at first
          cases known : firstSeen history (beats history) with
          | none =>
              rw [firstSeen, Option.map_eq_none_iff] at known
              rw [known] at first
              simp only [Option.none_or, List.find?_cons, decide_true, Option.map_some,
                Option.some.injEq] at first
              exact ⟨history, healthy, [], by rw [first], List.not_mem_nil⟩
          | some otherMs =>
              have equal : otherMs = firstMs := by
                rw [firstSeen, Option.map_eq_some_iff] at known
                rcases known with ⟨observed, found, time⟩
                rw [found, Option.some_or, Option.map_some, Option.some.injEq] at first
                exact time.symm.trans first
              rw [equal] at known
              rcases induction known with ⟨earlier, healthyThen, middle, split, still⟩
              refine ⟨earlier, healthyThen, middle ++ [.check nowMs healthy], ?_, ?_⟩
              · rw [split, List.append_assoc, List.cons_append]
              · simp [still]

theorem seen_after_still {earlier middle : List Tick} {nowMs : Nat} {healthy : Bool}
    (still : .beat ∉ middle) :
    lastSeen (earlier ++ .check nowMs healthy :: middle) =
        some (beats (earlier ++ .check nowMs healthy :: middle)) ∧
      firstSeen (earlier ++ .check nowMs healthy :: middle)
        (beats (earlier ++ .check nowMs healthy :: middle)) =
        (firstSeen earlier (beats earlier)).or (some nowMs) := by
  have none : beats (.check nowMs healthy :: middle) = 0 := by
    rw [beats, List.count_eq_zero]
    simp [still]
  have counted : beats (earlier ++ .check nowMs healthy :: middle) = beats earlier := by
    rw [beats_append, none, Nat.add_zero]
  rw [counted]
  have observed : observations 0 (earlier ++ .check nowMs healthy :: middle) =
      observations 0 earlier ++ (beats earlier, nowMs) :: observations (beats earlier) middle := by
    rw [observations_append, Nat.zero_add, observations]
  constructor
  · rw [lastSeen, observed, List.getLast?_append_of_ne_nil _ (List.cons_ne_nil _ _)]
    rw [List.getLast?_eq_some_getLast (List.cons_ne_nil _ _), Option.map_some, Option.some.injEq]
    have member := List.getLast_mem (List.cons_ne_nil (beats earlier, nowMs)
      (observations (beats earlier) middle))
    rcases List.mem_cons.mp member with here | later
    · rw [here]
    · exact observations_still (beats earlier) still _ later
  · simp only [firstSeen, observed, List.find?_append]
    cases (observations 0 earlier).find? fun observed => observed.1 = beats earlier with
    | none => simp
    | some found => simp

/-! ## Runs -/

structure Heartbeat.Tracks (history : List Tick) (heartbeat : Heartbeat) : Prop where
  liveness : heartbeat.liveness = beats history
  unseen : lastSeen history = none → heartbeat.lastBeatSeen = maxU64
  seen : ∀ last, lastSeen history = some last → heartbeat.lastBeatSeen = last ∧
    ∃ firstMs, firstSeen history last = some firstMs ∧
      heartbeat.beatDeadlineAt = firstMs + heartbeatDeadlineMs

namespace Heartbeat

theorem tracks_initial : Tracks [] initial where
  liveness := rfl
  unseen _ := rfl
  seen last known := by cases known

variable {history : List Tick} {before after : Heartbeat}

theorem Tracks.beat (tracks : Tracks history before) (few : beats (history ++ [.beat]) < maxU64) :
    Tracks (history ++ [.beat]) before.beat where
  liveness := by
    have counted : beats (history ++ [.beat]) = beats history + 1 := by
      rw [beats_append]
      rfl
    have wraps : maxU64 = 2 ^ 64 - 1 := rfl
    rw [Heartbeat.beat, tracks.liveness, counted, Nat.mod_eq_of_lt (by omega)]
  unseen none := by
    rw [lastSeen, observations_beat] at none
    exact tracks.unseen none
  seen last known := by
    rw [lastSeen, observations_beat] at known
    rw [firstSeen, observations_beat]
    exact tracks.seen last known

/-- A call either observes the value that the last call did, and compares the time
with the deadline, or observes a new one, and arms the deadline. -/
theorem check_cases {nowMs : Nat} {healthy : Bool} (tracks : Tracks history before)
    (few : beats history < maxU64)
    (checked : before.checkLiveness nowMs = some (healthy, after)) :
    (∃ firstMs, lastSeen history = some (beats history) ∧
      firstSeen history (beats history) = some firstMs ∧
      before.beatDeadlineAt = firstMs + heartbeatDeadlineMs ∧
      healthy = decide (nowMs < firstMs + heartbeatDeadlineMs) ∧ after = before) ∨
    (lastSeen history ≠ some (beats history) ∧ healthy = true ∧
      after = { before with
        lastBeatSeen := beats history
        beatDeadlineAt := nowMs + heartbeatDeadlineMs }) := by
  unfold checkLiveness at checked
  split at checked
  · rename_i fresh
    right
    rcases Option.bind_eq_some_iff.mp checked with ⟨deadline, added, answered⟩
    cases answered
    rw [eq_of_checkedAdd added, tracks.liveness]
    refine ⟨?_, rfl, rfl⟩
    intro known
    have same := (tracks.seen _ known).1
    rcases fresh with unset | moved
    · omega
    · rw [tracks.liveness] at moved
      exact moved same.symm
  · rename_i stale
    rw [not_or, not_not] at stale
    left
    cases answered : lastSeen history with
    | none => exact absurd (tracks.unseen answered) stale.1
    | some last =>
        rcases tracks.seen last answered with ⟨same, firstMs, first, deadline⟩
        have value : last = beats history := by
          rw [← same, ← stale.2, tracks.liveness]
        subst value
        cases checked
        exact ⟨firstMs, rfl, first, deadline, by rw [deadline], rfl⟩

theorem Tracks.check {nowMs : Nat} {healthy : Bool} (tracks : Tracks history before)
    (few : beats history < maxU64)
    (checked : before.checkLiveness nowMs = some (healthy, after)) :
    Tracks (history ++ [.check nowMs healthy]) after := by
  have counted : beats (history ++ [.check nowMs healthy]) = beats history := by
    rw [beats_append]
    rfl
  have last : lastSeen (history ++ [.check nowMs healthy]) = some (beats history) := by
    rw [lastSeen, observations_check]
    simp
  have first : firstSeen (history ++ [.check nowMs healthy]) (beats history) =
      (firstSeen history (beats history)).or (some nowMs) := by
    simp only [firstSeen, observations_check, List.find?_append]
    cases (observations 0 history).find? fun observed => observed.1 = beats history with
    | none => simp
    | some found => simp
  rcases check_cases tracks few checked with
    ⟨firstMs, lastSame, firstKnown, deadline, _, same⟩ | ⟨fresh, _, armed⟩
  · subst same
    refine ⟨tracks.liveness.trans counted.symm, fun none => ?_, fun value known => ?_⟩
    · rw [last] at none
      cases none
    · rw [last] at known
      cases known
      rw [first, firstKnown]
      exact ⟨(tracks.seen _ lastSame).1, firstMs, rfl, deadline⟩
  · subst armed
    refine ⟨tracks.liveness.trans counted.symm, fun none => ?_, fun value known => ?_⟩
    · rw [last] at none
      cases none
    · rw [last] at known
      cases known
      rw [first, firstSeen_of_fresh fresh]
      exact ⟨rfl, nowMs, rfl, rfl⟩

theorem tracks_of_run {heartbeat : Heartbeat} (run : Trace Step initial history heartbeat)
    (few : beats history < maxU64) : Tracks history heartbeat := by
  induction run with
  | nil => exact tracks_initial
  | snoc earlier last induction =>
      rename_i ticks middle tick finish
      have fewer : beats ticks < maxU64 := by
        rw [beats_append] at few
        omega
      cases tick with
      | beat =>
          rw [show finish = middle.beat from last]
          exact (induction fewer).beat few
      | check nowMs healthy => exact (induction fewer).check fewer last

/-- What a call reports in a run. -/
theorem stalled_iff {heartbeat : Heartbeat} {earlier later : List Tick} {nowMs : Nat}
    {healthy : Bool}
    (run : Trace Step initial (earlier ++ .check nowMs healthy :: later) heartbeat)
    (few : beats earlier < maxU64) :
    healthy = false ↔ lastSeen earlier = some (beats earlier) ∧
      ∃ firstMs, firstSeen earlier (beats earlier) = some firstMs ∧
        firstMs + heartbeatDeadlineMs ≤ nowMs := by
  rcases run.split with ⟨middle, next, before, checked⟩
  rcases check_cases (tracks_of_run before few) few checked with
    ⟨firstMs, last, first, _, result, _⟩ | ⟨fresh, result, _⟩
  · rw [result, last, first, decide_eq_false_iff_not, Nat.not_lt]
    simp
  · simp [result, fresh]

/-- A call reports a stalled heartbeat exactly when the counter shows what the last
call observed and the first call that observed this is a deadline ago. So a heartbeat
that beats between any two calls a deadline apart is never found stalled, however long
the calls pause, and one that stopped is found stalled by every call a deadline after
the first one that saw its last beat. Every call returns as long as
its deadline is a 64-bit number. -/
theorem check_detects_stall {heartbeat : Heartbeat}
    (run : Trace Step initial history heartbeat) (few : beats history < maxU64) :
    (∀ nowMs, nowMs + heartbeatDeadlineMs < 2 ^ 64 →
      ∃ healthy next, heartbeat.Step (.check nowMs healthy) next) ∧
    (∀ earlier nowMs healthy later, history = earlier ++ .check nowMs healthy :: later →
      (healthy = false ↔ lastSeen earlier = some (beats earlier) ∧
        ∃ firstMs, firstSeen earlier (beats earlier) = some firstMs ∧
          firstMs + heartbeatDeadlineMs ≤ nowMs)) ∧
    ((∀ earlier firstMs healthy middle nowMs other later,
        history = earlier ++ .check firstMs healthy :: (middle ++ .check nowMs other :: later) →
        firstMs + heartbeatDeadlineMs ≤ nowMs → .beat ∈ middle) →
      ∀ nowMs, .check nowMs false ∉ history) ∧
    (∀ earlier firstMs healthy middle nowMs other later,
      history = earlier ++ .check firstMs healthy :: (middle ++ .check nowMs other :: later) →
      firstSeen earlier (beats earlier) = none → .beat ∉ middle →
      firstMs + heartbeatDeadlineMs ≤ nowMs → other = false) := by
  have exact : ∀ earlier nowMs healthy later,
      history = earlier ++ .check nowMs healthy :: later →
      (healthy = false ↔ lastSeen earlier = some (beats earlier) ∧
        ∃ firstMs, firstSeen earlier (beats earlier) = some firstMs ∧
          firstMs + heartbeatDeadlineMs ≤ nowMs) := by
    intro earlier nowMs healthy later whole
    rw [whole] at run few
    rw [beats_append] at few
    exact stalled_iff run (by omega)
  refine ⟨?_, exact, ?_, ?_⟩
  · intro nowMs early
    unfold Step checkLiveness
    dsimp only
    split
    · rw [checkedAdd_of_lt early]
      exact ⟨_, _, rfl⟩
    · exact ⟨_, _, rfl⟩
  · intro beating nowMs stalled
    rcases List.append_of_mem stalled with ⟨earlier, later, whole⟩
    rcases (exact earlier nowMs false later whole).mp rfl with ⟨_, firstMs, first, past⟩
    rcases exists_call_of_firstSeen first with ⟨start, healthy, middle, split, still⟩
    rw [split, List.append_assoc, List.cons_append] at whole
    exact still (beating start firstMs healthy middle nowMs false later whole past)
  · intro earlier firstMs healthy middle nowMs other later whole fresh still past
    have regrouped : history =
        (earlier ++ .check firstMs healthy :: middle) ++ .check nowMs other :: later := by
      rw [whole, List.append_assoc, List.cons_append]
    rw [exact _ nowMs other later regrouped]
    rcases @seen_after_still earlier middle firstMs healthy still with ⟨last, first⟩
    rw [fresh] at first
    exact ⟨last, firstMs, first, past⟩

/-- A beat, a call that observes it, and a call half a minute later. -/
theorem check_detects_stall_stopped : ∃ heartbeat,
    Trace Step initial [.beat, .check 0 true, .check 30000 false] heartbeat ∧
      ∃ firstMs, firstSeen [.beat, .check 0 true] 1 = some firstMs ∧ firstMs + 30000 ≤ 30000 := by
  have run : Trace Step initial ([] ++ [.beat] ++ [.check 0 true] ++ [.check 30000 false])
      ⟨1, 1, 30000⟩ := .snoc (.snoc (.snoc .nil rfl) rfl) rfl
  have stalls := check_detects_stall run (by decide)
  exact ⟨_, run, ((stalls.2.1 [.beat, .check 0 true] 30000 false [] rfl).mp rfl).2⟩

end Heartbeat

end Pgfs
