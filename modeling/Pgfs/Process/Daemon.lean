import Pgfs.Fs.Run
import Pgfs.Metrics.Liveness

namespace Pgfs

open MachineInt

/-! The daemon as a process. The session thread serves the callbacks; beside it run the
heartbeat thread, the signal waiter and the deadlock watchdog. They share a few flags,
and take turns in any order. -/

inductive Signal
  | int
  | term
  | hup
  | usr1
  | usr2
  deriving DecidableEq

def Signal.terminates : Signal → Bool
  | .int | .term | .hup => true
  | .usr1 | .usr2 => false

/-- Where the watchdog thread is: waiting for the flag, unmounting after a number of
failed attempts, or at its end. -/
inductive Watchdog
  | polling
  | unmounting (attempts : Nat)
  | finished
  deriving DecidableEq

inductive HealthFile
  | pid
  | ready
  deriving DecidableEq

/-- What the threads of `run` share, with where they are. `clock` is the last reading of
the monotonic clock, `files` are the health files that exist, `guards` those whose
`FileGuard` is still to be dropped, the next one first, and `left` is how the session
loop ended, once it has. -/
structure Daemon where
  fs : PgFs
  heartbeat : Heartbeat
  clock : Nat
  dumpRequested : Bool
  deadlockDetected : Bool
  watchdog : Watchdog
  waiting : Bool
  mounted : Bool
  files : HealthFile → Bool
  guards : List HealthFile
  left : Option Bool
  exitCode : Option Nat

inductive Move
  | callback (exchange : Exchange) (nowMs : Nat)
  | beat
  | signal (signal : Signal) (unmounts : Bool)
  | sigwaitFails
  | poll
  | tryUnmount (succeeds : Bool)
  | unmountedElsewhere
  | sessionEnds (clean : Bool)
  | dropGuard (removes : Bool)
  | exits

namespace Daemon

/-- `run` when all threads are started. Which health files there are depends on whether
`write_atomic` could write them. -/
def start (fs : PgFs) (files : HealthFile → Bool) : Daemon where
  fs := fs
  heartbeat := .initial
  clock := 0
  dumpRequested := false
  deadlockDetected := false
  watchdog := .polling
  waiting := true
  mounted := true
  files := files
  guards := [.ready, .pid]
  left := none
  exitCode := none

/-- One callback. Its preamble takes the dump request, looks at the heartbeat, and flags
a stalled one for the watchdog. -/
def serve (callback : Callback) (nowMs : Nat) (daemon : Daemon) : Option (Exchange × Daemon) :=
  if PgFs.hasPreamble callback then do
    let (alive, heartbeat) ← daemon.heartbeat.checkLiveness nowMs
    let event : Event := ⟨callback, daemon.dumpRequested, alive⟩
    let (reply, fs) ← PgFs.step event daemon.fs
    return (⟨event, reply⟩, { daemon with
      fs := fs
      heartbeat := heartbeat
      clock := nowMs
      dumpRequested := false
      deadlockDetected := daemon.deadlockDetected || !alive })
  else do
    let event : Event := { callback := callback }
    let (reply, fs) ← PgFs.step event daemon.fs
    return (⟨event, reply⟩, { daemon with fs := fs })

/-- One round of the signal waiter. A terminating signal is its last one, even if
unmounting fails. The profiler, which USR2 toggles, is left out. -/
def receive (signal : Signal) (unmounts : Bool) (daemon : Daemon) : Daemon :=
  match signal with
  | .int | .term | .hup =>
      { daemon with mounted := daemon.mounted && !unmounts, waiting := false }
  | .usr1 => { daemon with dumpRequested := true }
  | .usr2 => daemon

def poll (daemon : Daemon) : Daemon :=
  if daemon.deadlockDetected then { daemon with watchdog := .unmounting 0 } else daemon

/-- One attempt of the watchdog. After the fifth failure it exits the process, which
drops no guard. -/
def tryUnmount (attempts : Nat) (succeeds : Bool) (daemon : Daemon) : Daemon :=
  if succeeds then
    { daemon with mounted := false, watchdog := .finished }
  else if 5 ≤ attempts + 1 then
    { daemon with watchdog := .unmounting (attempts + 1), exitCode := some 1 }
  else
    { daemon with watchdog := .unmounting (attempts + 1) }

/-- `FileGuard::drop`. A file that cannot be removed stays. -/
def dropGuard (removes : Bool) (daemon : Daemon) : Daemon :=
  match daemon.guards with
  | [] => daemon
  | file :: rest =>
      { daemon with
        guards := rest
        files := if removes then Function.update daemon.files file false else daemon.files }

def Step (before : Daemon) (move : Move) (after : Daemon) : Prop :=
  before.exitCode = none ∧
    match move with
    | .callback exchange nowMs => before.left = none ∧ before.mounted = true ∧
        before.clock ≤ nowMs ∧ before.serve exchange.event.callback nowMs = some (exchange, after)
    | .beat => after = { before with heartbeat := before.heartbeat.beat }
    | .signal signal unmounts => before.waiting = true ∧ after = before.receive signal unmounts
    | .sigwaitFails => before.waiting = true ∧ after = { before with waiting := false }
    | .poll => before.watchdog = .polling ∧ after = before.poll
    | .tryUnmount succeeds => ∃ attempts, before.watchdog = .unmounting attempts ∧
        after = before.tryUnmount attempts succeeds
    | .unmountedElsewhere => after = { before with mounted := false }
    -- The session loop ends cleanly once the file system is unmounted. Then `run`
    -- returns, dropping the guards, and `main` makes its result the exit code.
    | .sessionEnds clean => before.left = none ∧ (clean = true → before.mounted = false) ∧
        after = { before with left := some clean }
    | .dropGuard removes => before.left.isSome = true ∧ before.guards ≠ [] ∧
        after = before.dropGuard removes
    | .exits => ∃ clean, before.left = some clean ∧ before.guards = [] ∧
        after = { before with exitCode := some (if clean then 0 else 1) }

end Daemon

namespace Move

def hasPreamble : Move → Bool
  | .callback exchange _ => PgFs.hasPreamble exchange.event.callback
  | _ => false

def ChecksAt (nowMs : Nat) : Move → Prop
  | .callback exchange atMs => PgFs.hasPreamble exchange.event.callback = true ∧ atMs = nowMs
  | _ => False

def isBeat : Move → Bool
  | .beat => true
  | _ => false

def tick : Move → Option Tick
  | .beat => some .beat
  | .callback exchange nowMs =>
      if PgFs.hasPreamble exchange.event.callback then
        some (.check nowMs exchange.event.alive)
      else
        none
  | _ => none

def requestsDump : Move → Bool
  | .signal .usr1 _ => true
  | _ => false

def exchange : Move → Option Exchange
  | .callback exchange _ => some exchange
  | _ => none

theorem tick_of_look {exchange : Exchange} {nowMs : Nat}
    (looks : PgFs.hasPreamble exchange.event.callback = true) :
    (Move.callback exchange nowMs).tick = some (.check nowMs exchange.event.alive) :=
  if_pos looks

theorem tick_eq_beat_iff {move : Move} : move.tick = some .beat ↔ move.isBeat = true := by
  cases move with
  | callback exchange nowMs =>
      simp only [tick, isBeat, Bool.false_eq_true, iff_false]
      split <;> simp
  | _ => simp [tick, isBeat]

theorem checksAt_of_tick {move : Move} {nowMs : Nat} {healthy : Bool}
    (checks : move.tick = some (.check nowMs healthy)) : move.ChecksAt nowMs := by
  cases move with
  | callback exchange atMs =>
      simp only [tick] at checks
      split at checks
      · rename_i looks
        cases checks
        exact ⟨looks, rfl⟩
      · cases checks
  | _ => cases checks

end Move

namespace Daemon

variable {before after daemon : Daemon} {history : List Move} {fs : PgFs}
  {files : HealthFile → Bool}

theorem serve_cases {callback : Callback} {nowMs : Nat} {exchange : Exchange}
    (served : before.serve callback nowMs = some (exchange, after)) :
    ∃ fs, PgFs.Step before.fs exchange fs ∧
      (PgFs.hasPreamble exchange.event.callback = false ∧ after = { before with fs := fs } ∨
        PgFs.hasPreamble exchange.event.callback = true ∧
        exchange.event.dumpRequested = before.dumpRequested ∧
        ∃ heartbeat,
          before.heartbeat.checkLiveness nowMs = some (exchange.event.alive, heartbeat) ∧
          after = { before with
            fs := fs
            heartbeat := heartbeat
            clock := nowMs
            dumpRequested := false
            deadlockDetected := before.deadlockDetected || !exchange.event.alive }) := by
  unfold serve at served
  split at served
  · rename_i checks
    rcases Option.bind_eq_some_iff.mp served with ⟨⟨alive, heartbeat⟩, checked, rest⟩
    rcases Option.bind_eq_some_iff.mp rest with ⟨⟨reply, fs⟩, stepped, done⟩
    cases done
    exact ⟨fs, stepped, .inr ⟨checks, rfl, heartbeat, checked, rfl⟩⟩
  · rename_i plain
    rcases Option.bind_eq_some_iff.mp served with ⟨⟨reply, fs⟩, stepped, done⟩
    cases done
    exact ⟨fs, stepped, .inl ⟨Bool.eq_false_iff.mpr plain, rfl⟩⟩

theorem Step.idle {move : Move} (step : Step before move after) (idle : move.exchange = none) :
    after.fs = before.fs ∧ after.clock = before.clock ∧
      after.dumpRequested = (before.dumpRequested || move.requestsDump) ∧
      (move.isBeat = false → after.heartbeat = before.heartbeat) := by
  rcases step with ⟨_, moves⟩
  cases move with
  | callback => cases idle
  | beat =>
      rw [moves]
      exact ⟨rfl, rfl, (Bool.or_false _).symm, fun beats => by cases beats⟩
  | signal signal unmounts =>
      rw [moves.2]
      cases signal with
      | usr1 => exact ⟨rfl, rfl, (Bool.or_true _).symm, fun _ => rfl⟩
      | _ => exact ⟨rfl, rfl, (Bool.or_false _).symm, fun _ => rfl⟩
  | sigwaitFails =>
      rw [moves.2]
      exact ⟨rfl, rfl, (Bool.or_false _).symm, fun _ => rfl⟩
  | poll =>
      rw [moves.2]
      unfold poll
      split <;> exact ⟨rfl, rfl, (Bool.or_false _).symm, fun _ => rfl⟩
  | tryUnmount succeeds =>
      rcases moves with ⟨attempts, _, same⟩
      rw [same]
      unfold tryUnmount
      split
      · exact ⟨rfl, rfl, (Bool.or_false _).symm, fun _ => rfl⟩
      · split <;> exact ⟨rfl, rfl, (Bool.or_false _).symm, fun _ => rfl⟩
  | unmountedElsewhere =>
      rw [moves]
      exact ⟨rfl, rfl, (Bool.or_false _).symm, fun _ => rfl⟩
  | sessionEnds clean =>
      rw [moves.2.2]
      exact ⟨rfl, rfl, (Bool.or_false _).symm, fun _ => rfl⟩
  | dropGuard removes =>
      rw [moves.2.2]
      unfold dropGuard
      split <;> exact ⟨rfl, rfl, (Bool.or_false _).symm, fun _ => rfl⟩
  | exits =>
      rcases moves with ⟨clean, _, _, same⟩
      rw [same]
      exact ⟨rfl, rfl, (Bool.or_false _).symm, fun _ => rfl⟩

theorem run_exchanges (run : Trace Step (start fs files) history daemon) :
    Trace PgFs.Step fs (history.filterMap Move.exchange) daemon.fs := by
  apply run.project Daemon.fs Move.exchange
  · intro before move after exchange step called
    cases move with
    | callback served nowMs =>
        cases called
        rcases serve_cases step.2.2.2.2 with ⟨next, stepped, ⟨_, same⟩ | ⟨_, _, _, _, same⟩⟩
        · rw [same]
          exact stepped
        · rw [same]
          exact stepped
    | _ => cases called
  · exact fun _ _ _ step idle => (step.idle idle).1

theorem run_ticks (run : Trace Step (start fs files) history daemon) :
    Trace Heartbeat.Step .initial (history.filterMap Move.tick) daemon.heartbeat := by
  apply run.project Daemon.heartbeat Move.tick
  · intro before move after tick step seen
    cases move with
    | callback exchange nowMs =>
        rcases serve_cases step.2.2.2.2 with ⟨_, _, ⟨plain, _⟩ | ⟨looks, _, _, checked, same⟩⟩
        · rw [Move.tick, plain] at seen
          cases seen
        · rw [Move.tick_of_look looks] at seen
          cases seen
          rw [same]
          exact checked
    | beat =>
        cases seen
        exact congrArg Daemon.heartbeat step.2
    | _ => cases seen
  · intro before move after step unseen
    cases move with
    | callback exchange nowMs =>
        rcases serve_cases step.2.2.2.2 with ⟨_, _, ⟨_, same⟩ | ⟨looks, _, _, _, _⟩⟩
        · rw [same]
        · rw [Move.tick_of_look looks] at unseen
          cases unseen
    | beat => cases unseen
    | _ => exact (step.idle rfl).2.2.2 rfl

/-! ## What the preamble sees -/

def DumpPending (history : List Move) : Prop :=
  OpenSince (fun move => move.requestsDump = true) (fun move => move.hasPreamble = true) history

def SilentSince (nowMs : Nat) (history : List Move) : Prop :=
  OpenSince (Move.ChecksAt nowMs) (fun move => move.isBeat = true) history

theorem dumpRequested_iff (run : Trace Step (start fs files) history daemon) :
    daemon.dumpRequested = true ↔ DumpPending history := by
  induction run with
  | nil => exact iff_of_false Bool.false_ne_true (not_openSince_nil _ _)
  | snoc earlier step induction =>
      rename_i moves middle move finish
      unfold DumpPending at induction ⊢
      rw [openSince_snoc, ← induction]
      cases called : move.exchange with
      | none =>
          have looksAway : move.hasPreamble = false := by
            cases move with
            | callback => cases called
            | _ => rfl
          rw [(step.idle called).2.2.1, Bool.or_eq_true, looksAway]
          simp [or_comm]
      | some exchange =>
          cases move with
          | callback served nowMs =>
              have quiet : (Move.callback served nowMs).requestsDump = false := rfl
              rcases serve_cases step.2.2.2.2 with ⟨_, _, ⟨plain, same⟩ | ⟨looks, _, _, _, same⟩⟩
              · simp [same, quiet, Move.hasPreamble, plain]
              · simp [same, quiet, Move.hasPreamble, looks]
          | _ => cases called

private theorem beats_ticks (history : List Move) :
    beats (history.filterMap Move.tick) = history.countP Move.isBeat := by
  unfold beats List.count
  rw [List.countP_filterMap]
  apply List.countP_congr
  intro move _
  rw [← Move.tick_eq_beat_iff]
  cases move.tick <;> simp

private theorem le_clock (run : Trace Step (start fs files) history daemon) {nowMs : Nat}
    {healthy : Bool} (checked : .check nowMs healthy ∈ history.filterMap Move.tick) :
    nowMs ≤ daemon.clock := by
  induction run with
  | nil => cases checked
  | snoc earlier step induction =>
      rename_i moves middle move finish
      have forward : middle.clock ≤ finish.clock := by
        cases called : move.exchange with
        | none => exact Nat.le_of_eq (step.idle called).2.1.symm
        | some exchange =>
            cases move with
            | callback served atMs =>
                rcases serve_cases step.2.2.2.2 with ⟨_, _, ⟨_, same⟩ | ⟨_, _, _, _, same⟩⟩
                · rw [same]
                · rw [same]
                  exact step.2.2.2.1
            | _ => cases called
      rw [List.filterMap_append, List.mem_append] at checked
      rcases checked with before | here
      · exact (induction before).trans forward
      · rcases List.mem_filterMap.mp here with ⟨other, member, seen⟩
        rw [List.mem_singleton] at member
        rw [member] at seen
        cases move with
        | callback served atMs =>
            rcases serve_cases step.2.2.2.2 with ⟨_, _, ⟨plain, _⟩ | ⟨looks, _, _, _, same⟩⟩
            · rw [Move.tick, plain] at seen
              cases seen
            · rw [Move.tick_of_look looks] at seen
              cases seen
              rw [same]
        | _ => cases seen

private theorem silent_iff (run : Trace Step (start fs files) history daemon) (nowMs : Nat) :
    (∃ atMs, SilentSince atMs history ∧ atMs + heartbeatDeadlineMs ≤ nowMs) ↔
      lastSeen (history.filterMap Move.tick) = some (beats (history.filterMap Move.tick)) ∧
      ∃ firstMs, firstSeen (history.filterMap Move.tick)
          (beats (history.filterMap Move.tick)) = some firstMs ∧
        firstMs + heartbeatDeadlineMs ≤ nowMs := by
  constructor
  · intro silent
    rcases silent with ⟨atMs, ⟨earlier, move, later, rfl, checks, still⟩, past⟩
    rcases run.split with ⟨before, after, start, step⟩
    cases move with
    | callback exchange seenMs =>
        rcases checks with ⟨looks, rfl⟩
        have unbeaten : .beat ∉ later.filterMap Move.tick := by
          intro beaten
          rcases List.mem_filterMap.mp beaten with ⟨other, member, seen⟩
          exact still other member (Move.tick_eq_beat_iff.mp seen)
        have whole : (earlier ++ Move.callback exchange seenMs :: later).filterMap Move.tick =
            earlier.filterMap Move.tick ++ .check seenMs exchange.event.alive ::
              later.filterMap Move.tick := by
          rw [List.filterMap_append, List.filterMap_cons_some (Move.tick_of_look looks)]
        rcases @seen_after_still (earlier.filterMap Move.tick) _ seenMs exchange.event.alive
          unbeaten with ⟨last, first⟩
        rw [whole]
        refine ⟨last, ?_⟩
        rw [first]
        cases known : firstSeen (earlier.filterMap Move.tick)
            (beats (earlier.filterMap Move.tick)) with
        | none => exact ⟨seenMs, rfl, past⟩
        | some firstMs =>
            rcases exists_call_of_firstSeen known with ⟨_, healthy, _, split, _⟩
            have early : firstMs ≤ before.clock :=
              @le_clock _ _ _ _ start firstMs healthy (by rw [split]; simp)
            have later := step.2.2.2.1
            exact ⟨firstMs, rfl, by omega⟩
    | _ => cases checks
  · intro seen
    rcases seen with ⟨_, firstMs, first, past⟩
    rcases exists_call_of_firstSeen first with ⟨ticks, healthy, others, split, still⟩
    rcases List.filterMap_eq_append_iff.mp split with ⟨earlier, rest, rfl, _, later⟩
    rcases List.filterMap_eq_cons_iff.mp later with ⟨between, move, after, rfl, _, called, same⟩
    refine ⟨firstMs, ⟨earlier ++ between, move, after, by simp, ?_, ?_⟩, past⟩
    · exact Move.checksAt_of_tick called
    · intro other member beaten
      apply still
      rw [← same]
      exact List.mem_filterMap.mpr ⟨other, member, Move.tick_eq_beat_iff.mpr beaten⟩

theorem preamble_of_run {earlier later : List Move} {exchange : Exchange} {nowMs : Nat}
    (run : Trace Step (start fs files) (earlier ++ .callback exchange nowMs :: later) daemon)
    (few : (earlier ++ .callback exchange nowMs :: later).countP Move.isBeat < maxU64)
    (looks : PgFs.hasPreamble exchange.event.callback = true) :
    (exchange.event.dumpRequested = true ↔ DumpPending earlier) ∧
      (exchange.event.alive = false ↔
        ∃ atMs, SilentSince atMs earlier ∧ atMs + heartbeatDeadlineMs ≤ nowMs) := by
  have ticks := run_ticks run
  rw [List.filterMap_append, List.filterMap_cons_some (Move.tick_of_look looks)] at ticks
  rcases run.split with ⟨before, after, start, step⟩
  have fewer : beats (earlier.filterMap Move.tick) < maxU64 := by
    rw [beats_ticks]
    rw [List.countP_append] at few
    omega
  rw [silent_iff start, ← dumpRequested_iff start]
  refine ⟨?_, Heartbeat.stalled_iff ticks fewer⟩
  rcases serve_cases step.2.2.2.2 with ⟨fs, _, ⟨plain, _⟩ | ⟨_, dump, _⟩⟩
  · rw [looks] at plain
    cases plain
  · rw [dump]

/-- Whatever turns the threads take: the file system serves the callbacks one after
another; a callback with the preamble logs a state dump exactly when one was requested
and no callback looked since; and it finds the heartbeat stalled exactly when the
heartbeat was looked at half a minute ago or more and has not beaten since. -/
theorem callbacks_see_signals_and_beats
    (run : Trace Step (start fs files) history daemon) (few : history.countP Move.isBeat < maxU64) :
    Trace PgFs.Step fs (history.filterMap Move.exchange) daemon.fs ∧
    ∀ earlier exchange nowMs later, history = earlier ++ .callback exchange nowMs :: later →
      PgFs.hasPreamble exchange.event.callback = true →
        (exchange.event.dumpRequested = true ↔ DumpPending earlier) ∧
        (exchange.event.alive = false ↔
          ∃ atMs, SilentSince atMs earlier ∧ atMs + heartbeatDeadlineMs ≤ nowMs) := by
  refine ⟨run_exchanges run, ?_⟩
  intro earlier exchange nowMs later whole looks
  subst whole
  exact preamble_of_run run few looks

/-- After a beat a dump is requested; a callback logs it, and one half a minute later
finds the heartbeat stalled. -/
theorem callbacks_see_signals_and_beats_stalled :
    ∃ daemon, Trace Step (start PgFs.freshMount fun _ => true)
        ([.beat, .signal .usr1 false,
          .callback ⟨⟨.getattr 1, true, true⟩, .ok (.attr 1 PgFs.rootAttr)⟩ 0] ++
          .callback ⟨⟨.getattr 1, false, false⟩, .error .eio⟩ heartbeatDeadlineMs :: [])
        daemon ∧
      ∃ atMs, SilentSince atMs [.beat, .signal .usr1 false,
          .callback ⟨⟨.getattr 1, true, true⟩, .ok (.attr 1 PgFs.rootAttr)⟩ 0] ∧
        atMs + heartbeatDeadlineMs ≤ heartbeatDeadlineMs := by
  have run : Trace Step (start PgFs.freshMount fun _ => true)
      ([] ++ [.beat] ++ [.signal .usr1 false] ++
        [.callback ⟨⟨.getattr 1, true, true⟩, .ok (.attr 1 PgFs.rootAttr)⟩ 0] ++
        [.callback ⟨⟨.getattr 1, false, false⟩, .error .eio⟩ heartbeatDeadlineMs]) _ :=
    .snoc (.snoc (.snoc (.snoc .nil ⟨rfl, rfl⟩) ⟨rfl, rfl, rfl⟩)
      ⟨rfl, rfl, rfl, Nat.le_refl _, rfl⟩) ⟨rfl, rfl, rfl, Nat.zero_le _, rfl⟩
  have seen := (callbacks_see_signals_and_beats run (by decide)).2 _ _ _ [] rfl rfl
  exact ⟨_, run, seen.2.mp rfl⟩

end Daemon

end Pgfs
