import Pgfs.Handles.PendingReads
import Pgfs.Process.Daemon

namespace Pgfs

open MachineInt

/-! How the daemon ends. A stalled heartbeat makes the watchdog unmount the file system,
and exit the process when that fails too often; nothing else does. -/

namespace Move

def findsStall : Move → Bool
  | .callback exchange _ =>
      PgFs.hasPreamble exchange.event.callback && !exchange.event.alive
  | _ => false

def isRound : Move → Bool
  | .poll | .tryUnmount _ => true
  | _ => false

def failedAttempt : Move → Bool
  | .tryUnmount false => true
  | _ => false

def unmounts : Move → Bool
  | .signal received succeeds => received.terminates && succeeds
  | .tryUnmount succeeds => succeeds
  | .unmountedElsewhere => true
  | _ => false

def isExternal : Move → Bool
  | .signal received succeeds => received.terminates && succeeds
  | .unmountedElsewhere => true
  | .sessionEnds clean => !clean
  | _ => false

def endsSession : Move → Bool
  | .sessionEnds _ => true
  | _ => false

def ends : Move → Bool
  | .tryUnmount _ | .exits => true
  | _ => false

end Move

namespace Daemon

variable {before after daemon : Daemon} {history : List Move} {fs : PgFs}
  {files : HealthFile → Bool} {move : Move}

structure Outlived (before : Daemon) (move : Move) (after : Daemon) : Prop where
  deadlockDetected : after.deadlockDetected = (before.deadlockDetected || move.findsStall)
  mounted : after.mounted = (before.mounted && !move.unmounts)
  watchdog : move.isRound = false → after.watchdog = before.watchdog
  left : move.endsSession = false → after.left = before.left
  exitCode : move.ends = false → after.exitCode = before.exitCode

theorem Step.outlived (step : Step before move after) : Outlived before move after := by
  rcases step with ⟨_, moves⟩
  cases move with
  | callback exchange nowMs =>
      rcases serve_cases moves.2.2.2 with ⟨_, _, ⟨plain, same⟩ | ⟨looks, _, _, _, same⟩⟩
      · rw [same]
        constructor <;> simp [Move.findsStall, Move.unmounts, plain]
      · rw [same]
        constructor <;> simp [Move.findsStall, Move.unmounts, looks]
  | beat =>
      rw [moves]
      constructor <;> simp [Move.findsStall, Move.unmounts]
  | signal signal succeeds =>
      rw [moves.2]
      cases signal <;>
        constructor <;> simp [receive, Move.findsStall, Move.unmounts, Signal.terminates]
  | sigwaitFails =>
      rw [moves.2]
      constructor <;> simp [Move.findsStall, Move.unmounts]
  | poll =>
      rw [moves.2]
      unfold poll
      split <;> constructor <;> simp [Move.findsStall, Move.unmounts, Move.isRound]
  | tryUnmount succeeds =>
      rcases moves with ⟨attempts, _, same⟩
      rw [same]
      cases succeeds with
      | true =>
          constructor <;>
            simp [tryUnmount, Move.findsStall, Move.unmounts, Move.isRound, Move.ends]
      | false =>
          unfold tryUnmount
          rw [if_neg Bool.false_ne_true]
          split <;> constructor <;>
            simp [Move.findsStall, Move.unmounts, Move.isRound, Move.ends]
  | unmountedElsewhere =>
      rw [moves]
      constructor <;> simp [Move.findsStall, Move.unmounts]
  | sessionEnds clean =>
      rw [moves.2.2]
      constructor <;> simp [Move.findsStall, Move.unmounts, Move.endsSession]
  | dropGuard removes =>
      rw [moves.2.2]
      unfold dropGuard
      split <;> constructor <;> simp [Move.findsStall, Move.unmounts]
  | exits =>
      rcases moves with ⟨clean, _, _, same⟩
      rw [same]
      constructor <;> simp [Move.findsStall, Move.unmounts, Move.ends]

/-! ## The watchdog -/

theorem deadlockDetected_of_run (run : Trace Step (start fs files) history daemon) :
    daemon.deadlockDetected = history.any Move.findsStall := by
  induction run with
  | nil => rfl
  | snoc _ step induction => simp [step.outlived.deadlockDetected, induction]

structure Attempted (history : List Move) (daemon : Daemon) : Prop where
  polling : daemon.watchdog = .polling → history.countP Move.failedAttempt = 0
  unmounting : ∀ attempts, daemon.watchdog = .unmounting attempts →
    daemon.deadlockDetected = true ∧ history.countP Move.failedAttempt = attempts ∧
      attempts ≤ 5 ∧ (attempts = 5 → daemon.exitCode = some 1)
  finished : daemon.watchdog = .finished →
    daemon.mounted = false ∧ history.countP Move.failedAttempt < 5

private theorem countP_failedAttempt_of_not {move : Move} (other : move.failedAttempt = false) :
    (history ++ [move]).countP Move.failedAttempt = history.countP Move.failedAttempt := by
  rw [List.countP_append]
  simp [other]

private theorem Attempted.early (attempted : Attempted history daemon)
    (running : daemon.exitCode = none) {attempts : Nat}
    (busy : daemon.watchdog = .unmounting attempts) : attempts < 5 := by
  rcases attempted.unmounting attempts busy with ⟨_, _, few, last⟩
  apply lt_of_le_of_ne few
  intro five
  rw [running] at last
  cases last five

private theorem Attempted.other (attempted : Attempted history before)
    (step : Step before move after) (aside : move.isRound = false) :
    Attempted (history ++ [move]) after := by
  have outlived := step.outlived
  have watchdog := outlived.watchdog aside
  have unfailed : move.failedAttempt = false := by
    cases move with
    | tryUnmount succeeds => cases aside
    | _ => rfl
  have counted := @countP_failedAttempt_of_not history move unfailed
  constructor
  · rw [watchdog, counted]
    exact attempted.polling
  · intro attempts busy
    rw [watchdog] at busy
    rcases attempted.unmounting attempts busy with ⟨flagged, same, few, _⟩
    have early := attempted.early step.1 busy
    rw [outlived.deadlockDetected, flagged, counted]
    exact ⟨rfl, same, few, by omega⟩
  · rw [watchdog, counted, outlived.mounted]
    intro done
    rcases attempted.finished done with ⟨gone, few⟩
    exact ⟨by rw [gone, Bool.false_and], few⟩

private theorem Attempted.poll (attempted : Attempted history before)
    (polling : before.watchdog = .polling) : Attempted (history ++ [.poll]) before.poll := by
  have counted := @countP_failedAttempt_of_not history .poll rfl
  have none : history.countP Move.failedAttempt = 0 := attempted.polling polling
  unfold Daemon.poll
  split
  · rename_i flagged
    constructor
    · exact fun same => by cases same
    · intro attempts busy
      cases busy
      rw [counted, none]
      exact ⟨flagged, rfl, Nat.zero_le 5, fun five => by cases five⟩
    · exact fun done => by cases done
  · constructor
    · exact fun _ => counted.trans none
    · exact fun attempts busy => by rw [polling] at busy; cases busy
    · exact fun done => by rw [polling] at done; cases done

private theorem Attempted.tryUnmount (attempted : Attempted history before)
    (running : before.exitCode = none) {attempts : Nat}
    (busy : before.watchdog = .unmounting attempts) (succeeds : Bool) :
    Attempted (history ++ [.tryUnmount succeeds]) (before.tryUnmount attempts succeeds) := by
  rcases attempted.unmounting attempts busy with ⟨flagged, counted, _, _⟩
  have early := attempted.early running busy
  cases succeeds with
  | true =>
      have same := @countP_failedAttempt_of_not history (.tryUnmount true) rfl
      constructor
      · exact fun polling => by cases polling
      · exact fun attempts busy => by cases busy
      · intro _
        rw [same, counted]
        exact ⟨rfl, early⟩
  | false =>
      have more : (history ++ [Move.tryUnmount false]).countP Move.failedAttempt =
          attempts + 1 := by
        rw [List.countP_append, counted]
        rfl
      unfold Daemon.tryUnmount
      rw [if_neg Bool.false_ne_true]
      split
      · constructor
        · exact fun polling => by cases polling
        · intro others busy
          cases busy
          exact ⟨flagged, more, by omega, fun _ => rfl⟩
        · exact fun done => by cases done
      · constructor
        · exact fun polling => by cases polling
        · intro others busy
          cases busy
          exact ⟨flagged, more, by omega, fun five => absurd five (by omega)⟩
        · exact fun done => by cases done

theorem attempted_of_run (run : Trace Step (start fs files) history daemon) :
    Attempted history daemon := by
  induction run with
  | nil =>
      constructor
      · exact fun _ => rfl
      · exact fun attempts busy => by cases busy
      · exact fun done => by cases done
  | snoc earlier step induction =>
      cases ‹Move› with
      | poll =>
          rw [step.2.2]
          exact induction.poll step.2.1
      | tryUnmount succeeds =>
          rcases step.2 with ⟨attempts, busy, same⟩
          rw [same]
          exact induction.tryUnmount step.1 busy succeeds
      | _ => exact induction.other step rfl

private theorem exists_refused_of_stall (run : Trace Step (start fs files) history daemon)
    (few : history.countP Move.isBeat < maxU64) (stalls : history.any Move.findsStall = true) :
    ∃ earlier exchange nowMs later, history = earlier ++ .callback exchange nowMs :: later ∧
      exchange.reply = .error .eio ∧
      ∃ atMs, SilentSince atMs earlier ∧ atMs + heartbeatDeadlineMs ≤ nowMs := by
  rcases List.any_eq_true.mp stalls with ⟨move, member, finds⟩
  cases move with
  | callback exchange nowMs =>
      simp only [Move.findsStall, Bool.and_eq_true, Bool.not_eq_true'] at finds
      rcases List.append_of_mem member with ⟨earlier, later, whole⟩
      rw [whole] at run few
      refine ⟨earlier, exchange, nowMs, later, whole, ?_,
        (preamble_of_run run few finds.1).2.mp finds.2⟩
      rcases run.split with ⟨before, after, _, _, _, _, _, served⟩
      rcases serve_cases served with ⟨next, stepped, _⟩
      have refused := PgFs.step_of_dead finds.1 finds.2 before.fs
      rw [show PgFs.step exchange.event before.fs = some (exchange.reply, next) from stepped]
        at refused
      exact Option.some.inj refused
  | _ => cases finds

private theorem not_unmounts (aside : move.isRound = false) (inside : move.isExternal = false) :
    move.unmounts = false := by
  cases move with
  | tryUnmount succeeds => cases aside
  | signal received succeeds => exact inside
  | unmountedElsewhere => cases inside
  | _ => rfl

private theorem stays_mounted (run : Trace Step (start fs files) history daemon)
    (beating : history.any Move.findsStall = false)
    (alone : ∀ move ∈ history, move.isExternal = false) :
    daemon.mounted = true ∧ daemon.exitCode = none ∧ daemon.watchdog = .polling ∧
      daemon.left = none := by
  induction run with
  | nil => exact ⟨rfl, rfl, rfl, rfl⟩
  | snoc earlier step induction =>
      rename_i moves middle move finish
      rw [List.any_append, Bool.or_eq_false_iff] at beating
      rcases induction beating.1 fun other member =>
        alone other (List.mem_append_left _ member) with ⟨mounted, running, polling, serving⟩
      have inside := alone move (by simp)
      cases move with
      | poll =>
          have unflagged : middle.deadlockDetected = false :=
            (deadlockDetected_of_run earlier).trans beating.1
          rw [step.2.2]
          unfold Daemon.poll
          rw [unflagged]
          exact ⟨mounted, running, polling, serving⟩
      | tryUnmount succeeds =>
          rcases step.2 with ⟨attempts, busy, _⟩
          rw [polling] at busy
          cases busy
      | sessionEnds clean =>
          cases clean with
          | true =>
              have gone := step.2.2.1 rfl
              rw [mounted] at gone
              cases gone
          | false => cases inside
      | exits =>
          rcases step.2 with ⟨clean, left, _⟩
          rw [serving] at left
          cases left
      | _ =>
          have outlived := step.outlived
          rw [outlived.mounted, mounted, outlived.watchdog rfl, outlived.left rfl,
            outlived.exitCode rfl]
          exact ⟨by rw [not_unmounts rfl inside, Bool.not_false, Bool.true_and], running,
            polling, serving⟩

/-- The watchdog tries to unmount the file system only after a callback was refused
because the heartbeat was silent for half a minute since an earlier callback. A daemon
whose heart beats between any two callbacks half a minute apart finds itself alive in
every callback, and stays mounted and running unless a terminating signal or somebody
else unmounts it, or its session fails. -/
theorem gives_up_only_after_silence (run : Trace Step (start fs files) history daemon)
    (few : history.countP Move.isBeat < maxU64) :
    (∀ earlier succeeds later, history = earlier ++ .tryUnmount succeeds :: later →
      ∃ first exchange nowMs rest, earlier = first ++ .callback exchange nowMs :: rest ∧
        exchange.reply = .error .eio ∧
        ∃ atMs, SilentSince atMs first ∧ atMs + heartbeatDeadlineMs ≤ nowMs) ∧
    ((∀ earlier exchange nowMs later, history = earlier ++ .callback exchange nowMs :: later →
        ∀ atMs, SilentSince atMs earlier → nowMs < atMs + heartbeatDeadlineMs) →
      (∀ move ∈ history, move.findsStall = false) ∧
      ((∀ move ∈ history, move.isExternal = false) →
        daemon.mounted = true ∧ daemon.exitCode = none)) := by
  constructor
  · intro earlier succeeds later whole
    rw [whole] at run few
    rcases run.split with ⟨before, after, start, _, attempts, busy, _⟩
    have flagged := ((attempted_of_run start).unmounting attempts busy).1
    rw [deadlockDetected_of_run start] at flagged
    apply exists_refused_of_stall start _ flagged
    rw [List.countP_append] at few
    omega
  · intro beating
    have unstalled : history.any Move.findsStall = false := by
      rw [Bool.eq_false_iff]
      intro stalls
      rcases exists_refused_of_stall run few stalls with
        ⟨earlier, exchange, nowMs, later, whole, _, atMs, silent, past⟩
      have soon := beating earlier exchange nowMs later whole atMs silent
      omega
    refine ⟨fun move member => ?_, fun alone => ?_⟩
    · exact Bool.eq_false_iff.mpr fun finds =>
        Bool.eq_false_iff.mp unstalled (List.any_eq_true.mpr ⟨move, member, finds⟩)
    · rcases stays_mounted run unstalled alone with ⟨mounted, running, _⟩
      exact ⟨mounted, running⟩

/-- The watchdog unmounts after one beat and two callbacks half a minute apart. -/
theorem gives_up_only_after_silence_unmounted : ∃ daemon earlier,
    Trace Step (start PgFs.freshMount fun _ => true) (earlier ++ .tryUnmount true :: [])
        daemon ∧
      daemon.mounted = false ∧
      ∃ first exchange nowMs rest, earlier = first ++ .callback exchange nowMs :: rest ∧
        exchange.reply = .error .eio ∧
        ∃ atMs, SilentSince atMs first ∧ atMs + heartbeatDeadlineMs ≤ nowMs := by
  have run : Trace Step (start PgFs.freshMount fun _ => true)
      ([] ++ [.beat] ++
        [.callback ⟨⟨.getattr 1, false, true⟩, .ok (.attr 1 PgFs.rootAttr)⟩ 0] ++
        [.callback ⟨⟨.getattr 1, false, false⟩, .error .eio⟩ heartbeatDeadlineMs] ++ [.poll] ++
        [.tryUnmount true]) _ :=
    .snoc (.snoc (.snoc (.snoc (.snoc .nil ⟨rfl, rfl⟩) ⟨rfl, rfl, rfl, Nat.le_refl _, rfl⟩)
      ⟨rfl, rfl, rfl, Nat.zero_le _, rfl⟩) ⟨rfl, rfl, rfl⟩) ⟨rfl, 0, rfl, rfl⟩
  exact ⟨_, _, run, rfl, (gives_up_only_after_silence run (by decide)).1 _ true [] rfl⟩

end Daemon

end Pgfs
