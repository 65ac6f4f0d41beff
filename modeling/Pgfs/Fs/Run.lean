import Pgfs.Foundation.Trace
import Pgfs.Fs.Serving

namespace Pgfs

/-! Runs of the daemon: requests served one after another. -/

structure Exchange where
  event : Event
  reply : Except Errno Reply

namespace PgFs

def Step (before : PgFs) (exchange : Exchange) (after : PgFs) : Prop :=
  step exchange.event before = some (exchange.reply, after)

theorem Step.serves {before after : PgFs} {exchange : Exchange}
    (step : Step before exchange after) :
    Serves (Db.Quiet before.db) (before.db.replica = false) before.mount
      exchange.event.callback exchange.reply after.mount :=
  (step_serves step).2

theorem Step.sameWorld {before after : PgFs} {exchange : Exchange}
    (step : Step before exchange after) : Db.SameWorld before.db after.db :=
  (step_serves step).1

theorem sameMount_of_preamble {fs ready : PgFs} {event : Event}
    (run : preamble event fs = some (.ok (), ready)) :
    Db.SameWorld fs.db ready.db ∧ ready.mount = fs.mount :=
  @yields_preamble fs (fun _ mount => mount = fs.mount) event (fun _ => rfl) _ _ run

theorem handleId_of_mount {fs ready : PgFs} (same : ready.mount = fs.mount) (ino fh : Nat) :
    ready.handleId ino fh = fs.handleId ino fh := by
  show ready.mount.handleId ino fh = fs.mount.handleId ino fh
  rw [same]

theorem pathOfIno_of_mount {fs ready : PgFs} (same : ready.mount = fs.mount) (ino : Nat) :
    ready.pathOfIno ino = fs.pathOfIno ino := by
  have maps : ready.toInodeMaps = fs.toInodeMaps := congrArg Mount.toInodeMaps same
  rw [maps]

theorem Step.served {before after : PgFs} {event : Event} {reply : Reply}
    (run : Step before ⟨event, .ok reply⟩ after) :
    ∃ ready, Db.SameWorld before.db ready.db ∧ ready.mount = before.mount ∧
      serve event.callback ready = some (.ok reply, after) := by
  have started : step event before = some (.ok reply, after) := run
  unfold step at started
  split at started
  · rcases Effect.bind_eq_ok.mp started with ⟨_, ready, begun, served⟩
    rcases sameMount_of_preamble begun with ⟨world, same⟩
    exact ⟨ready, world, same, served⟩
  · exact ⟨before, .refl _, rfl, started⟩

def StepWhere (allowed : PgFs → Exchange → PgFs → Prop) (before : PgFs)
    (exchange : Exchange) (after : PgFs) : Prop :=
  Step before exchange after ∧ allowed before exchange after

def freshMount : PgFs := withAttrTtl (.connect .empty false fun _ => {}) 1

def writeOneByte : List Event :=
  [{ callback := .create 1 (some ['a']) }, { callback := .write 2 1 0 [7] }]

/-- Serve requests one after another under a ghost, as long as every step is
allowed. -/
def replay {Ghost : Type} (allowed : PgFs → Exchange → PgFs → Prop)
    [∀ before exchange after, Decidable (allowed before exchange after)]
    (observe : PgFs → Exchange → PgFs → Ghost → Ghost) :
    List Event → PgFs × Ghost → Option (PgFs × Ghost)
  | [], state => some state
  | event :: rest, (fs, ghost) =>
      match step event fs with
      | none => none
      | some (reply, next) =>
          if allowed fs ⟨event, reply⟩ next then
            replay allowed observe rest (next, observe fs ⟨event, reply⟩ next ghost)
          else
            none

theorem exists_watched_of_replay {Ghost : Type} {allowed : PgFs → Exchange → PgFs → Prop}
    [∀ before exchange after, Decidable (allowed before exchange after)]
    {observe : PgFs → Exchange → PgFs → Ghost → Ghost} {events : List Event}
    {start : PgFs × Ghost} {test : PgFs × Ghost → Bool}
    (tested : (replay allowed observe events start).any test = true) :
    ∃ history final, Trace (Watched (StepWhere allowed) observe) start history final ∧
      test final = true := by
  induction events generalizing start with
  | nil => exact ⟨[], start, .nil, tested⟩
  | cons event rest induction =>
      rcases start with ⟨fs, ghost⟩
      unfold replay at tested
      split at tested
      · cases tested
      · rename_i reply next served
        split at tested
        · rename_i permitted
          rcases induction tested with ⟨history, final, later, seen⟩
          have first : Trace (Watched (StepWhere allowed) observe) (fs, ghost)
              ([] ++ [⟨event, reply⟩]) (next, observe fs ⟨event, reply⟩ next ghost) :=
            .snoc .nil ⟨⟨served, permitted⟩, rfl⟩
          exact ⟨_, final, first.append later, seen⟩
        · cases tested

theorem exists_step_of_replay {Ghost : Type} {allowed : PgFs → Exchange → PgFs → Prop}
    [∀ before exchange after, Decidable (allowed before exchange after)]
    {observe : PgFs → Exchange → PgFs → Ghost → Ghost} {events : List Event}
    {start : PgFs × Ghost} (event : Event)
    (test : PgFs × Ghost → Except Errno Reply → PgFs → Bool)
    (tested : (replay allowed observe events start).any (fun final =>
      (step event final.1).any fun outcome => test final outcome.1 outcome.2) = true) :
    ∃ history final reply next, Trace (Watched (StepWhere allowed) observe) start history final ∧
      Step final.1 ⟨event, reply⟩ next ∧ test final reply next = true := by
  rcases exists_watched_of_replay tested with ⟨history, final, run, seen⟩
  rcases (Option.any_eq_true _ _).mp seen with ⟨⟨reply, next⟩, served, holds⟩
  exact ⟨history, final, reply, next, run, served, holds⟩

theorem exists_trace_of_replay {allowed : PgFs → Exchange → PgFs → Prop}
    [∀ before exchange after, Decidable (allowed before exchange after)]
    {events : List Event} {start : PgFs} (test : PgFs → Bool)
    (tested : (replay allowed (fun _ _ _ => id) events (start, ())).any
      (fun final => test final.1) = true) :
    ∃ history fs, Trace (StepWhere allowed) start history fs ∧ test fs = true := by
  rcases exists_watched_of_replay tested with ⟨history, final, run, seen⟩
  exact ⟨history, final.1, run.unwatched, seen⟩

end PgFs

def Callback.names : Callback → List Str
  | .lookup _ name | .create _ name | .mkdir _ name | .unlink _ name | .rmdir _ name =>
      name.toList
  | .rename _ name _ newname _ => name.toList ++ newname.toList
  | _ => []

def Callback.NamesValid (callback : Callback) : Prop :=
  ∀ name ∈ callback.names, ValidName name

instance (callback : Callback) : Decidable callback.NamesValid :=
  inferInstanceAs (Decidable (∀ name ∈ callback.names, ValidName name))

def Callback.renamePaths (callback : Callback) (maps : InodeMaps) : Option (Str × Str) :=
  match callback with
  | .rename parent (some name) newparent (some newname) _ =>
      match maps.pathOfIno parent, maps.pathOfIno newparent with
      | some path, some newPath => some (join path name, join newPath newname)
      | _, _ => none
  | _ => none

theorem renamePaths_eq {maps : InodeMaps} {parent newparent : Nat} {old new : Key}
    (flags : Nat) (resolved : maps.pathOfIno parent = some old.parent)
    (newResolved : maps.pathOfIno newparent = some new.parent) :
    (Callback.rename parent (some old.name) newparent (some new.name) flags).renamePaths
      maps = some (old.path, new.path) := by
  simp [Callback.renamePaths, resolved, newResolved, Key.path]

end Pgfs
