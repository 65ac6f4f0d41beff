import Pgfs.Handles.Batches

namespace Pgfs

/-! Whose rows a flush writes. A handle keeps the key it was opened with, while
renames and removals move on the entry that it was opened for. -/

def Key.afterRename (old new key : Key) : Option Key :=
  if old.path = new.path then some key
  else if key = new then none
  else some (old.moved new key)

namespace Mount

def opening (mount : Mount) (exchange : Exchange) : Option (Nat × Key × Bool) :=
  match exchange.event.callback, exchange.reply with
  | .open ino, .ok (.opened fh) =>
      (mount.pathOfIno ino).map fun path =>
        (fh, keyOf path, (mount.tables.entries.lookup (keyOf path)).isSome)
  | .create parent (some name), .ok (.created _ _ fh) =>
      (mount.pathOfIno parent).map fun path => (fh, ⟨path, name⟩, true)
  | _, _ => none

/-- Where a successful callback takes an entry, if the entry stays at all. -/
def moving (mount : Mount) (exchange : Exchange) (key : Key) : Option Key :=
  match exchange.event.callback, exchange.reply with
  | .rename parent (some name) newparent (some newname) _, .ok _ =>
      match mount.pathOfIno parent, mount.pathOfIno newparent with
      | some path, some newPath => Key.afterRename ⟨path, name⟩ ⟨newPath, newname⟩ key
      | _, _ => some key
  | .unlink parent (some name), .ok _ | .rmdir parent (some name), .ok _ =>
      if mount.pathOfIno parent = some key.parent ∧ name = key.name then none else some key
  | _, _ => some key

end Mount

/-- For each handle the key of the entry that it was opened for, and the key of
that entry now, as long as it exists. -/
structure Attachment where
  opened : Nat → Option Key
  current : Nat → Option Key

namespace Attachment

def empty : Attachment := ⟨fun _ => none, fun _ => none⟩

def follow (before : PgFs) (exchange : Exchange) (_after : PgFs)
    (attachment : Attachment) : Attachment :=
  match before.mount.opening exchange with
  | some (fh, key, known) =>
      { opened := Function.update attachment.opened fh (some key)
        current := Function.update attachment.current fh (if known then some key else none) }
  | none =>
      { attachment with
        current := fun fh => (attachment.current fh).bind (before.mount.moving exchange) }

def Holds (attachment : Attachment) (handles : Table Nat HandleBuffer) : Prop :=
  ∀ fh handle, handles.lookup fh = some handle → attachment.opened fh = some handle.key

end Attachment

namespace Tables

def OnlyRowsOf (owner : Option Key) (before after : Tables) : Prop :=
  ∀ key, owner ≠ some key → after.entries.lookup key = before.entries.lookup key ∧
    ∀ blockNo, after.block key blockNo = before.block key blockNo

theorem ext_rows {before after : Tables}
    (same : ∀ key, after.entries.lookup key = before.entries.lookup key ∧
      ∀ blockNo, after.block key blockNo = before.block key blockNo) : after = before := by
  have entries : after.entries = before.entries := Finmap.ext_lookup fun key => (same key).1
  have blocks : after.blocks = before.blocks :=
    Finmap.ext_lookup fun row => (same row.key).2 row.blockNo
  cases before
  cases after
  cases entries
  cases blocks
  rfl

end Tables

/-! ## Steps -/

theorem Flushed.keys {quiet : Prop} {mount next : Mount} {fh other : Nat}
    {succeeded : Bool} {buffer : HandleBuffer} (flushed : Flushed quiet mount fh succeeded next)
    (present : next.openHandles.lookup other = some buffer) :
    ∃ handle, mount.openHandles.lookup other = some handle ∧ handle.key = buffer.key := by
  cases flushed with
  | absent => exact ⟨buffer, present, rfl⟩
  | clean => exact ⟨buffer, present, rfl⟩
  | stored handle tables found =>
      simp only [Mount.setHandles, Table.lookup_insert_eq] at present
      split at present
      · rename_i same
        cases present
        exact ⟨handle, same ▸ found, rfl⟩
      · exact ⟨buffer, present, rfl⟩
  | lost =>
      simp only [Mount.setHandles, Table.lookup_erase_eq] at present
      split at present
      · cases present
      · exact ⟨buffer, present, rfl⟩

/-- What a step changes in the tables when it flushes a handle: nothing, or the
contents of the entry whose key the handle holds. -/
theorem Serves.flushed_tables {quiet alone : Prop} {before after : Mount}
    {callback : Callback} {reply : Except Errno Reply} {fh : Nat}
    (serves : Serves quiet alone before callback reply after)
    (target : before.flushTarget callback = some fh) :
    after.tables = before.tables ∨
      ∃ handle, before.openHandles.lookup fh = some handle ∧
        Tables.ContentsOnly handle.key before.tables after.tables := by
  rcases serves.flushed target with same | ⟨succeeded, next, flushed, same⟩
  · exact .inl same
  · rw [same]
    cases flushed with
    | stored handle tables found pending batch => exact .inr ⟨handle, found, batch.contents⟩
    | _ => exact .inl rfl

/-- The key of an open handle is the one of before the step, unless this step
opened the handle. -/
def Mount.KeyKept (before : Mount) (exchange : Exchange) (fh : Nat) (key : Key) : Prop :=
  match before.opening exchange with
  | some (opened, openedKey, _) =>
      if fh = opened then key = openedKey
      else ∃ handle, before.openHandles.lookup fh = some handle ∧ handle.key = key
  | none => ∃ handle, before.openHandles.lookup fh = some handle ∧ handle.key = key

private theorem opening_of_error {mount : Mount} {exchange : Exchange} {errno : Errno}
    (refused : exchange.reply = .error errno) : mount.opening exchange = none := by
  unfold Mount.opening
  rw [refused]
  split
  · rename_i equal
    cases equal
  · rename_i equal
    cases equal
  · rfl

private theorem keyKept_of_none {before : Mount} {exchange : Exchange} {fh : Nat} {key : Key}
    (silent : before.opening exchange = none)
    (kept : ∃ handle, before.openHandles.lookup fh = some handle ∧ handle.key = key) :
    before.KeyKept exchange fh key := by
  unfold Mount.KeyKept
  rw [silent]
  exact kept

private theorem keyKept_of_opening {before : Mount} {exchange : Exchange} {fh : Nat}
    {key : Key} {known : Bool} {buffer : HandleBuffer}
    (opening : before.opening exchange = some (before.nextFh, key, known))
    (present : (before.openHandles.insert before.nextFh
      (.clean key.parent key.name)).lookup fh = some buffer) :
    before.KeyKept exchange fh buffer.key := by
  unfold Mount.KeyKept
  rw [opening]
  rw [Table.lookup_insert_eq] at present
  by_cases new : fh = before.nextFh
  · rw [if_pos new] at present
    cases present
    simp only [if_pos new]
    rfl
  · rw [if_neg new] at present
    simp only [if_neg new]
    exact ⟨buffer, present, rfl⟩

theorem Serves.keyKept {quiet alone : Prop} {before after : Mount} {exchange : Exchange}
    {fh : Nat} {buffer : HandleBuffer}
    (serves : Serves quiet alone before exchange.event.callback exchange.reply after)
    (present : after.openHandles.lookup fh = some buffer) :
    before.KeyKept exchange fh buffer.key := by
  rcases exchange with ⟨⟨callback, dumpRequested, alive⟩, reply⟩
  cases serves with
  | refused => exact keyKept_of_none (opening_of_error rfl) ⟨buffer, present, rfl⟩
  | «open» ino path resolved =>
      exact keyKept_of_opening (by simp only [Mount.opening, resolved]; rfl) present
  | create parent key now ttl attr resolved =>
      exact keyKept_of_opening (by simp only [Mount.opening, resolved]; rfl) present
  | flushRead ino given id offset size succeeded reply next handled flushed =>
      exact keyKept_of_none rfl (flushed.keys present)
  | flush ino given id callback succeeded next flushes handled flushed =>
      exact keyKept_of_none (by rcases flushes with rfl | rfl <;> rfl) (flushed.keys present)
  | flushNothing ino given callback flushes =>
      exact keyKept_of_none (by rcases flushes with rfl | rfl <;> rfl) ⟨buffer, present, rfl⟩
  | release ino given succeeded next flushed =>
      refine keyKept_of_none rfl (flushed.keys ?_)
      simp only [Mount.dropHandle, Table.lookup_erase_eq] at present
      split at present
      · cases present
      · exact present
  | buffer ino given id offset data handle next handled found written =>
      refine keyKept_of_none rfl ?_
      simp only [Mount.setHandles, Table.lookup_insert_eq] at present
      split at present
      · rename_i same
        cases present
        exact ⟨handle, same ▸ found, (HandleBuffer.buffered_of_write written).key.symm⟩
      · exact ⟨buffer, present, rfl⟩
  | _ => exact keyKept_of_none rfl ⟨buffer, present, rfl⟩

namespace PgFs

variable {fs next : PgFs} {exchange : Exchange} {attachment : Attachment}

theorem Step.holds (step : Step fs exchange next) (holds : attachment.Holds fs.openHandles) :
    (attachment.follow fs exchange next).Holds next.openHandles := by
  intro fh buffer present
  have kept : fs.mount.KeyKept exchange fh buffer.key := step.serves.keyKept present
  unfold Mount.KeyKept at kept
  unfold Attachment.follow
  cases opening : fs.mount.opening exchange with
  | none =>
      rw [opening] at kept
      rcases kept with ⟨handle, found, same⟩
      rw [← same]
      exact holds fh handle found
  | some opened =>
      simp only [opening] at kept ⊢
      split at kept
      · rename_i same
        rw [same, Function.update_self, kept]
      · rename_i different
        rcases kept with ⟨handle, found, same⟩
        rw [Function.update_of_ne different, ← same]
        exact holds fh handle found

def AttachedRun (db : Db) (attrTtl : Nat) : List Exchange → PgFs × Attachment → Prop :=
  Trace (Watched Step Attachment.follow) (withAttrTtl db attrTtl, .empty)

theorem holds_of_run {db : Db} {attrTtl : Nat} {history : List Exchange} {fs : PgFs}
    {attachment : Attachment} (run : AttachedRun db attrTtl history (fs, attachment)) :
    attachment.Holds fs.openHandles := by
  refine run.invariant (fun state => state.2.Holds state.1.openHandles) ?_ ?_
  · intro fh handle present
    cases present
  · intro before exchange after holds step
    rw [step.2]
    exact step.1.holds holds

/-- A flush that writes anything writes only rows of the entry that its handle was
opened for exactly when that entry exists under the key that it had then. -/
theorem flush_stays_attached {db : Db} {attrTtl : Nat} {history : List Exchange}
    {fs : PgFs} {attachment : Attachment}
    (run : AttachedRun db attrTtl history (fs, attachment)) :
    ∀ exchange next fh, Step fs exchange next →
      fs.mount.flushTarget exchange.event.callback = some fh →
      next.db.tables ≠ fs.db.tables →
      (Tables.OnlyRowsOf (attachment.current fh) fs.db.tables next.db.tables ↔
        ∃ key, attachment.opened fh = some key ∧ attachment.current fh = some key) := by
  intro exchange next fh step target writes
  rcases step.serves.flushed_tables target with same | ⟨handle, found, contents⟩
  · exact absurd same writes
  have opened : attachment.opened fh = some handle.key := holds_of_run run fh handle found
  constructor
  · intro only
    refine ⟨handle.key, opened, ?_⟩
    by_contra elsewhere
    refine writes (Tables.ext_rows fun key => ?_)
    by_cases same : key = handle.key
    · exact same ▸ only handle.key elsewhere
    · exact ⟨contents.entries key same, contents.blocks key same⟩
  · rintro ⟨key, sameKey, current⟩ other notOwner
    rw [opened] at sameKey
    cases sameKey
    have different : other ≠ handle.key := fun same => notOwner (same ▸ current)
    exact ⟨contents.entries other different, contents.blocks other different⟩

private theorem exists_attachedRun (events : List Event) (event : Event)
    (test : PgFs × Attachment → Except Errno Reply → PgFs → Bool)
    (tested : (replay (fun _ _ _ => True) Attachment.follow events
      (freshMount, .empty)).any (fun final =>
        (step event final.1).any fun outcome => test final outcome.1 outcome.2) = true) :
    ∃ history fs attachment reply next,
      AttachedRun (.connect .empty false fun _ => {}) 1 history (fs, attachment) ∧
      Step fs ⟨event, reply⟩ next ∧ test (fs, attachment) reply next = true := by
  rcases exists_step_of_replay event test tested with
    ⟨history, ⟨fs, attachment⟩, reply, next, run, step, seen⟩
  exact ⟨history, fs, attachment, reply, next,
    run.mono fun _ _ _ step => ⟨step.1.1, step.2⟩, step, seen⟩

theorem flush_stays_attached_write : ∃ history fs attachment exchange next,
    AttachedRun (.connect .empty false fun _ => {}) 1 history (fs, attachment) ∧
      Step fs exchange next ∧ next.db.tables.block ⟨[], ['a']⟩ 0 = some [7] ∧
      Tables.OnlyRowsOf (attachment.current 1) fs.db.tables next.db.tables := by
  rcases exists_attachedRun writeOneByte { callback := .flush 2 1 }
    (fun final _ next => decide (final.2.opened 1 = some ⟨[], ['a']⟩ ∧
      final.2.current 1 = some ⟨[], ['a']⟩ ∧ final.1.handleId 2 1 = some 1 ∧
      final.1.db.tables.block ⟨[], ['a']⟩ 0 = none ∧
      next.db.tables.block ⟨[], ['a']⟩ 0 = some [7])) (by decide) with
    ⟨history, fs, attachment, reply, next, run, step, seen⟩
  rcases of_decide_eq_true seen with ⟨opened, current, handled, missing, stored⟩
  have writes : next.db.tables ≠ fs.db.tables := by
    intro same
    rw [same, missing] at stored
    cases stored
  exact ⟨history, fs, attachment, _, next, run, step, stored,
    (flush_stays_attached run _ next 1 step handled writes).mpr
      ⟨_, opened, current⟩⟩

/-- The byte written before the file is unlinked is stored under its key. -/
theorem flush_after_unlink : ¬∀ db attrTtl history fs attachment,
    AttachedRun db attrTtl history (fs, attachment) →
    ∀ exchange next fh, Step fs exchange next →
      fs.mount.flushTarget exchange.event.callback = some fh →
      Tables.OnlyRowsOf (attachment.current fh) fs.db.tables next.db.tables := by
  intro claimed
  rcases exists_attachedRun
    (writeOneByte ++ [{ callback := .unlink 1 (some ['a']) }]) { callback := .flush 2 1 }
    (fun final _ next => decide (final.2.current 1 = none ∧
      final.1.handleId 2 1 = some 1 ∧ final.1.db.tables.block ⟨[], ['a']⟩ 0 = none ∧
      next.db.tables.block ⟨[], ['a']⟩ 0 = some [7])) (by decide) with
    ⟨history, fs, attachment, reply, next, run, step, seen⟩
  rcases of_decide_eq_true seen with ⟨current, handled, missing, stored⟩
  have only := claimed _ _ history fs attachment run _ next 1 step handled
  rw [current] at only
  have kept := (only ⟨[], ['a']⟩ (by decide)).2 0
  rw [stored, missing] at kept
  cases kept

end PgFs

end Pgfs
