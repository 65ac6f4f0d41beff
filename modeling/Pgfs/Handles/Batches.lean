import Pgfs.Fs.Run
import Pgfs.Handles.Buffering

namespace Pgfs

open Effect

/-! The batch that a request sends to the database, and what becomes of the
handle that it is taken from. -/

def Mount.flushTarget (mount : Mount) : Callback → Option Nat
  | .read ino fh _ _ | .flush ino fh | .fsync ino fh => mount.handleId ino fh
  | .release ino fh => some ((mount.handleId ino fh).getD 0)
  | _ => none

/-- The handles after a callback that flushed: `release` drops its handle. -/
def Callback.leave (callback : Callback) (fh : Nat) (handles : Table Nat HandleBuffer) :
    Table Nat HandleBuffer :=
  match callback with
  | .release .. => handles.erase fh
  | _ => handles

theorem Serves.flushed {quiet alone : Prop} {before after : Mount} {callback : Callback}
    {reply : Except Errno Reply} {fh : Nat}
    (serves : Serves quiet alone before callback reply after)
    (target : before.flushTarget callback = some fh) :
    after.tables = before.tables ∨ ∃ succeeded next,
      Flushed quiet before fh succeeded next ∧ after.tables = next.tables := by
  cases serves with
  | flushRead ino given id offset size succeeded reply next handled flushed =>
      cases handled.symm.trans target
      exact .inr ⟨_, _, flushed, rfl⟩
  | flush ino given id callback succeeded next flushes handled flushed =>
      have same : before.flushTarget callback = before.handleId ino given := by
        rcases flushes with rfl | rfl <;> rfl
      cases (same.trans handled).symm.trans target
      exact .inr ⟨_, _, flushed, rfl⟩
  | release ino given succeeded next flushed =>
      cases target
      exact .inr ⟨_, _, flushed, rfl⟩
  | flushNothing => exact .inl rfl
  | refused => exact .inl rfl
  | read => exact .inl rfl
  | _ => cases target

/-- A batch of blocks: the handle that it is taken from, its block numbers, and
whether the database committed it. -/
structure Batch where
  fh : Nat
  blocks : Finset Int
  committed : Bool

namespace PgFs

def admission (event : Event) : FsM Unit :=
  if hasPreamble event.callback then preamble event else pure ()

def batchOf (fs : PgFs) (event : Event) : Option Batch := do
  let fh ← fs.mount.flushTarget event.callback
  let handle ← fs.openHandles.lookup fh
  match ← admission event fs with
  | (.error _, _) => none
  | (.ok (), ready) =>
      if handle.pending then
        let (outcome, _) ← Db.writeBlocksBatch handle.parent handle.name
          handle.dirtyBlocks handle.maxSize ready.db
        return ⟨fh, handle.dirtyBlocks.keys, outcome.isOk⟩
      else
        none

variable {fs next : PgFs} {event : Event} {reply : Except Errno Reply}

/-! ## Inversion -/

theorem step_eq (event : Event) :
    step event = admission event >>= fun _ => serve event.callback := by
  unfold step admission
  split <;> rfl

theorem step_cases (run : step event fs = some (reply, next)) :
    (∃ errno, admission event fs = some (.error errno, next) ∧ reply = .error errno ∧
      next.mount = fs.mount) ∨
    ∃ ready, admission event fs = some (.ok (), ready) ∧ ready.mount = fs.mount ∧
      serve event.callback ready = some (reply, next) := by
  have admitted : Yields fs (admission event) (fun _ mount => mount = fs.mount)
      (fun _ mount => mount = fs.mount) := by
    unfold admission
    split
    · exact yields_preamble event fun _ => rfl
    · exact yields_pure rfl
  rw [step_eq] at run
  rcases bind_eq_some.mp run with ⟨_, ready, ran, served⟩ | ⟨errno, refused, same⟩
  · exact .inr ⟨ready, ran, (admitted _ _ ran).2, served⟩
  · exact .inl ⟨errno, refused, same, (admitted _ _ refused).2⟩

/-- `flush_handle` leaves a handle without pending data alone, cleans one whose
batch is committed, and loses one whose batch fails. -/
theorem flushHandle_cases {fh : Nat} {result : Except Errno (Except DbError Unit)}
    (run : flushHandle fh fs = some (result, next)) :
    (result = .ok (.ok ()) ∧ next.openHandles = fs.openHandles ∧
      ∀ handle, fs.openHandles.lookup fh = some handle → handle.pending = false) ∨
    ∃ handle outcome db, fs.openHandles.lookup fh = some handle ∧ handle.pending = true ∧
      Db.writeBlocksBatch handle.parent handle.name handle.dirtyBlocks handle.maxSize fs.db =
        some (outcome, db) ∧
      result = .ok outcome ∧
      next.openHandles =
        if outcome.isOk then
          fs.openHandles.insert fh (.clean handle.parent handle.name)
        else
          fs.openHandles.erase fh := by
  unfold flushHandle at run
  rw [bind_of_ok (get_apply fs)] at run
  cases found : fs.openHandles.lookup fh with
  | none =>
      simp only [found] at run
      cases run
      exact .inl ⟨rfl, rfl, by simp⟩
  | some handle =>
      simp only [found] at run
      rw [bind_of_ok (modify_apply _ fs)] at run
      by_cases pending : handle.pending = true
      · rw [if_pos pending] at run
        refine .inr ⟨handle, ?_⟩
        rcases bind_eq_some.mp run with ⟨outcome, called, sent, rest⟩ | ⟨_, sent, _⟩
        · rcases within_eq_some.mp sent with ⟨db, attempted, rfl⟩
          rcases attempt_eq_some.mp attempted with ⟨inner, equal, stored⟩
          cases equal
          refine ⟨outcome, db, rfl, pending, stored, ?_⟩
          cases outcome with
          | error failure =>
              cases rest
              exact ⟨rfl, rfl⟩
          | ok value =>
              cases rest
              exact ⟨rfl, Table.insert_erase _ _ _⟩
        · rcases within_eq_some.mp sent with ⟨db, attempted, _⟩
          rcases attempt_eq_some.mp attempted with ⟨_, equal, _⟩
          cases equal
      · rw [if_neg pending] at run
        cases run
        refine .inl ⟨rfl, ?_, ?_⟩
        · exact (Table.insert_erase _ _ _).trans (Table.insert_of_lookup found)
        · rintro other same
          cases same
          exact Bool.eq_false_iff.mpr pending

private theorem flushHandle_ok {fh : Nat} {result : Except Errno (Except DbError Unit)}
    (run : flushHandle fh fs = some (result, next)) : ∃ outcome, result = .ok outcome := by
  rcases flushHandle_cases run with ⟨same, _⟩ | ⟨_, outcome, _, _, _, _, same, _⟩
  · exact ⟨_, same⟩
  · exact ⟨outcome, same⟩

theorem read_flushes {ino given fh : Nat} {offset : Int} {size : Nat}
    (handled : fs.handleId ino given = some fh)
    (run : read ino given offset size fs = some (reply, next)) :
    ∃ outcome flushed, flushHandle fh fs = some (.ok outcome, flushed) ∧
      next.openHandles = flushed.openHandles := by
  unfold read at run
  rw [bind_of_ok (get_apply fs)] at run
  simp only [handled] at run
  rcases bind_eq_some.mp run with ⟨outcome, flushed, first, rest⟩ | ⟨_, first, _⟩
  · have kept := @yields_readFile flushed
      (fun _ mount => mount.openHandles = flushed.openHandles) ino size offset fun _ => rfl
    refine ⟨outcome, flushed, first, ?_⟩
    cases reply with
    | ok value => exact (kept _ _ rest).2
    | error errno => exact (kept _ _ rest).2
  · rcases flushHandle_ok first with ⟨_, same⟩
    cases same

theorem flush_flushes {ino given fh : Nat} (handled : fs.handleId ino given = some fh)
    (run : flush ino given fs = some (reply, next)) :
    ∃ outcome flushed, flushHandle fh fs = some (.ok outcome, flushed) ∧
      next.openHandles = flushed.openHandles ∧
      reply = if outcome.isOk then .ok .ok else .error .eio := by
  unfold flush at run
  rw [bind_of_ok (get_apply fs)] at run
  simp only [handled] at run
  rcases bind_eq_some.mp run with ⟨outcome, flushed, first, rest⟩ | ⟨_, first, _⟩
  · refine ⟨outcome, flushed, first, ?_⟩
    cases outcome with
    | ok value =>
        cases rest
        exact ⟨rfl, rfl⟩
    | error failure =>
        cases rest
        exact ⟨rfl, rfl⟩
  · rcases flushHandle_ok first with ⟨_, same⟩
    cases same

theorem release_flushes {ino given : Nat}
    (run : release ino given fs = some (reply, next)) :
    ∃ outcome flushed,
      flushHandle ((fs.handleId ino given).getD 0) fs = some (.ok outcome, flushed) ∧
      next.openHandles = flushed.openHandles.erase ((fs.handleId ino given).getD 0) := by
  unfold release at run
  rw [bind_of_ok (get_apply fs)] at run
  rcases bind_eq_some.mp run with ⟨outcome, flushed, first, rest⟩ | ⟨_, first, _⟩
  · cases rest
    exact ⟨outcome, flushed, first, rfl⟩
  · rcases flushHandle_ok first with ⟨_, same⟩
    cases same

theorem serve_flushes {callback : Callback} {fh : Nat}
    (target : fs.mount.flushTarget callback = some fh)
    (run : serve callback fs = some (reply, next)) :
    ∃ outcome flushed, flushHandle fh fs = some (.ok outcome, flushed) ∧
      next.openHandles = callback.leave fh flushed.openHandles ∧
      ∀ ino given, callback = .flush ino given ∨ callback = .fsync ino given →
        reply = if outcome.isOk then .ok .ok else .error .eio := by
  cases callback with
  | read ino given offset size =>
      rcases read_flushes target run with ⟨outcome, flushed, first, handles⟩
      exact ⟨outcome, flushed, first, handles, by rintro _ _ (same | same) <;> cases same⟩
  | flush ino given =>
      rcases flush_flushes target run with ⟨outcome, flushed, first, handles, replied⟩
      exact ⟨outcome, flushed, first, handles, fun _ _ _ => replied⟩
  | fsync ino given =>
      rcases flush_flushes target run with ⟨outcome, flushed, first, handles, replied⟩
      exact ⟨outcome, flushed, first, handles, fun _ _ _ => replied⟩
  | release ino given =>
      cases target
      rcases release_flushes run with ⟨outcome, flushed, first, handles⟩
      exact ⟨outcome, flushed, first, handles, by rintro _ _ (same | same) <;> cases same⟩
  | _ => cases target

/-! ## Steps that flush -/

inductive FlushStep (fs : PgFs) (exchange : Exchange) (next : PgFs) (fh : Nat) : Prop
  | refused (errno : Errno) (none : fs.batchOf exchange.event = none)
      (replied : exchange.reply = .error errno)
      (handles : next.openHandles = fs.openHandles)
  | idle (none : fs.batchOf exchange.event = none)
      (nothing : ∀ handle, fs.openHandles.lookup fh = some handle → handle.pending = false)
      (handles : next.openHandles = exchange.event.callback.leave fh fs.openHandles)
  | sent (handle : HandleBuffer) (committed : Bool)
      (found : fs.openHandles.lookup fh = some handle)
      (batch : fs.batchOf exchange.event = some ⟨fh, handle.dirtyBlocks.keys, committed⟩)
      (replied : ∀ ino given, exchange.event.callback = .flush ino given ∨
        exchange.event.callback = .fsync ino given →
        exchange.reply = if committed then .ok .ok else .error .eio)
      (handles : next.openHandles = exchange.event.callback.leave fh
        (if committed then fs.openHandles.insert fh (.clean handle.parent handle.name)
          else fs.openHandles.erase fh))

theorem Step.flushStep {exchange : Exchange} {fh : Nat} (step : Step fs exchange next)
    (target : fs.mount.flushTarget exchange.event.callback = some fh) :
    FlushStep fs exchange next fh := by
  rcases step_cases step with ⟨errno, refused, replied, same⟩ | ⟨ready, ran, same, served⟩
  · refine .refused errno ?_ replied (congrArg Mount.openHandles same)
    simp [batchOf, target, refused]
  have readyHandles : ready.openHandles = fs.openHandles := congrArg Mount.openHandles same
  have readyTarget : ready.mount.flushTarget exchange.event.callback = some fh := by
    rw [same]
    exact target
  rcases serve_flushes readyTarget served with ⟨outcome, flushed, first, handles, replied⟩
  rcases flushHandle_cases first with ⟨_, kept, nothing⟩ |
    ⟨handle, stored, db, found, pending, batch, equal, left⟩
  · rw [readyHandles] at kept nothing
    refine .idle ?_ nothing (by rw [handles, kept])
    cases found : fs.openHandles.lookup fh with
    | none => simp [batchOf, target, found]
    | some handle => simp [batchOf, target, found, ran, nothing handle found]
  · cases equal
    rw [readyHandles] at found left
    refine .sent handle outcome.isOk found ?_ replied (by rw [handles, left])
    simp [batchOf, target, found, ran, pending, batch]

theorem batchOf_of_flushTarget (target : fs.mount.flushTarget event.callback = none) :
    fs.batchOf event = none := by
  simp [batchOf, target]

end PgFs

end Pgfs
