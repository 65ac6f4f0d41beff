import Pgfs.Foundation.Turns
import Pgfs.Fs.Run

namespace Pgfs

/-! Daemons on one database. They serve their requests one at a time, and each can be
started anew, which loses everything but the tables. -/

inductive FleetEvent
  | served (exchange : Exchange)
  | restarted (replica : Bool) (world : Nat → Moment) (attrTtl : Nat)

/-- The daemons with the tables that they share. The tables in the handle of a daemon
are those it saw last. -/
abbrev Fleet (Daemon : Type) := Turns Daemon Tables PgFs

namespace PgFs

def on (fs : PgFs) (tables : Tables) : PgFs := fs.setDb (fs.db.setTables tables)

@[simp] theorem mount_on (fs : PgFs) (tables : Tables) :
    (fs.on tables).mount = fs.mount.setTables tables := rfl

def FleetStep (allowed : PgFs → FleetEvent → Prop) (before : Tables × PgFs)
    (event : FleetEvent) (after : Tables × PgFs) : Prop :=
  allowed (before.2.on before.1) event ∧
    match event with
    | .served exchange =>
        Step (before.2.on before.1) exchange after.2 ∧ after.1 = after.2.db.tables
    | .restarted replica world attrTtl =>
        after.1 = before.1 ∧ after.2 = withAttrTtl (.connect before.1 replica world) attrTtl

end PgFs

abbrev FleetRun {Daemon : Type} [DecidableEq Daemon] (allowed : PgFs → FleetEvent → Prop) :
    Fleet Daemon → List (Daemon × FleetEvent) → Fleet Daemon → Prop :=
  Trace (Turns.Step (PgFs.FleetStep allowed))

namespace Fleet

variable {Daemon : Type} [DecidableEq Daemon]

def fresh : Fleet Daemon := ⟨.empty, fun _ => PgFs.freshMount⟩

def startedAnew (tables : Tables) : PgFs :=
  PgFs.withAttrTtl (.connect tables false fun _ => {}) 1

/-- Serve the turns of a fleet one after another, as long as every exchange is allowed. A
turn without a request starts the daemon anew. Keep a ghost. -/
def replay {Ghost : Type} (allowed : PgFs → FleetEvent → Prop)
    [∀ fs exchange, Decidable (allowed fs (.served exchange))]
    (observe : Fleet Daemon → Daemon × FleetEvent → Fleet Daemon → Ghost → Ghost) :
    List (Daemon × Option Event) → Fleet Daemon × Ghost → Option (Fleet Daemon × Ghost)
  | [], state => some state
  | (daemon, none) :: rest, (fleet, ghost) =>
      let next : Fleet Daemon :=
        ⟨fleet.shared, Function.update fleet.own daemon (startedAnew fleet.shared)⟩
      replay allowed observe rest
        (next, observe fleet (daemon, .restarted false (fun _ => {}) 1) next ghost)
  | (daemon, some event) :: rest, (fleet, ghost) =>
      match PgFs.step event ((fleet.own daemon).on fleet.shared) with
      | none => none
      | some (reply, after) =>
          if allowed ((fleet.own daemon).on fleet.shared) (.served ⟨event, reply⟩) then
            let next : Fleet Daemon :=
              ⟨after.db.tables, Function.update fleet.own daemon after⟩
            replay allowed observe rest
              (next, observe fleet (daemon, .served ⟨event, reply⟩) next ghost)
          else
            none

theorem exists_watched_of_replay {Ghost : Type} {allowed : PgFs → FleetEvent → Prop}
    [∀ fs exchange, Decidable (allowed fs (.served exchange))]
    {observe : Fleet Daemon → Daemon × FleetEvent → Fleet Daemon → Ghost → Ghost}
    (restartable : ∀ fs, allowed fs (.restarted false (fun _ => {}) 1))
    {turns : List (Daemon × Option Event)} {start : Fleet Daemon × Ghost}
    {test : Fleet Daemon × Ghost → Bool}
    (tested : (replay allowed observe turns start).any test = true) :
    ∃ taken final, Trace (Watched (Turns.Step (PgFs.FleetStep allowed)) observe) start taken
      final ∧ test final = true := by
  induction turns generalizing start with
  | nil => exact ⟨[], start, .nil, tested⟩
  | cons turn rest induction =>
      rcases start with ⟨fleet, ghost⟩
      have continued (turn : Daemon × FleetEvent) (shared : Tables) (after : PgFs)
          (first : PgFs.FleetStep allowed (fleet.shared, fleet.own turn.1) turn.2 (shared, after))
          (later : (replay allowed observe rest
            (⟨shared, Function.update fleet.own turn.1 after⟩, observe fleet turn
              ⟨shared, Function.update fleet.own turn.1 after⟩ ghost)).any test = true) :
          ∃ taken final, Trace (Watched (Turns.Step (PgFs.FleetStep allowed)) observe)
            (fleet, ghost) taken final ∧ test final = true := by
        rcases induction later with ⟨taken, final, run, seen⟩
        have step : Turns.Step (PgFs.FleetStep allowed) fleet turn
            ⟨shared, Function.update fleet.own turn.1 after⟩ :=
          ⟨by simpa using first, fun other different => Function.update_of_ne different _ _⟩
        exact ⟨_, final, Trace.append (.snoc .nil ⟨step, rfl⟩) run, seen⟩
      rcases turn with ⟨daemon, _ | event⟩
      · exact continued (daemon, .restarted false (fun _ => {}) 1) _
          (startedAnew fleet.shared) ⟨restartable _, rfl, rfl⟩ tested
      · simp only [replay] at tested
        split at tested
        · cases tested
        · rename_i reply after served
          split at tested
          · rename_i permitted
            exact continued (daemon, .served ⟨event, reply⟩) _ after
              ⟨permitted, served, rfl⟩ tested
          · cases tested

theorem exists_run_of_replay {allowed : PgFs → FleetEvent → Prop}
    [∀ fs exchange, Decidable (allowed fs (.served exchange))]
    (restartable : ∀ fs, allowed fs (.restarted false (fun _ => {}) 1))
    {turns : List (Daemon × Option Event)} {start : Fleet Daemon} (test : Fleet Daemon → Bool)
    (tested : (replay allowed (fun _ _ _ => id) turns (start, ())).any
      (fun final => test final.1) = true) :
    ∃ taken fleet, FleetRun allowed start taken fleet ∧ test fleet = true := by
  rcases exists_watched_of_replay restartable tested with ⟨taken, final, run, seen⟩
  exact ⟨taken, final.1, run.unwatched, seen⟩

end Fleet

end Pgfs
