import Pgfs.Handles.Batches
import Pgfs.Inodes.Numbering

namespace Pgfs

/-! The handle that is remembered for an inode, for requests that name none. `open`
remembers the handle it returns, `create` does not, and `release` forgets all that is
remembered for its inode. -/

abbrev Holders := Nat → Option Nat

namespace Holders

def empty : Holders := fun _ => none

def follow (before : Mount) (exchange : Exchange) (after : Mount) (holders : Holders) :
    Holders :=
  match exchange.event.callback with
  | .open ino =>
      match exchange.reply with
      | .ok (.opened fh) => Function.update holders fh (some ino)
      | _ => holders
  | .create parent (some name) =>
      match exchange.reply with
      | .ok (.created _ _ fh) =>
          Function.update holders fh ((before.pathOfIno parent).bind fun path =>
            after.inoByPath.lookup (join path name))
      | _ => holders
  | .release ino fh =>
      match exchange.reply with
      | .ok _ => Function.update holders ((before.handleId ino fh).getD 0) none
      | _ => holders
  | _ => holders

theorem follow_of_error {before after : Mount} {exchange : Exchange} {errno : Errno}
    (holders : Holders) (refused : exchange.reply = .error errno) :
    holders.follow before exchange after = holders := by
  unfold follow
  rw [refused]
  split <;> rfl

end Holders

/-- For each inode with an open handle one of its handles is remembered, and every
remembered handle is in the map of open handles. -/
structure FallbackFinds (holders : Holders) (mount : Mount) : Prop where
  found : ∀ fh ino, holders fh = some ino →
    ∃ id, mount.openHandlesByIno.lookup ino = some id ∧ holders id = some ino
  present : ∀ ino id, mount.openHandlesByIno.lookup ino = some id → id ∈ mount.openHandles

namespace Mount

/-- A request under which the remembered handles stay right: it creates no file for
an inode without a remembered handle, its flush does not lose a remembered handle,
and it releases no handle beside another one of its inode. -/
def FallbackKept (mount : Mount) (holders : Holders) (event : Event) : Prop :=
  match event.callback with
  | .create parent (some name) =>
      event.alive = true → ∀ path, mount.pathOfIno parent = some path →
        mount.tables.entries.lookup ⟨path, name⟩ = none →
          ∃ ino, mount.inoByPath.lookup (join path name) = some ino ∧
            ino ∈ mount.openHandlesByIno
  | .read ino fh _ _ | .flush ino fh | .fsync ino fh =>
      event.alive = true → ∀ id handle, mount.handleId ino fh = some id →
        mount.openHandles.lookup id = some handle → handle.pending = true →
          (∃ failure, mount.tables.attributes handle.key = .error failure) →
            ∀ other, mount.openHandlesByIno.lookup other ≠ some id
  | .release ino fh =>
      ∀ other inode, holders other = some inode → other ≠ (mount.handleId ino fh).getD 0 →
        inode ≠ ino ∧
          mount.openHandlesByIno.lookup inode ≠ some ((mount.handleId ino fh).getD 0)
  | _ => True

end Mount

/-- What holds of the maps beyond the fallback: only open handles of the inode are
remembered, and no handle has the number of the next one. -/
structure FallbackSound (holders : Holders) (mount : Mount) : Prop
    extends FallbackFinds holders mount where
  registered : ∀ ino id, mount.openHandlesByIno.lookup ino = some id → holders id = some ino
  numbered : ∀ fh ino, holders fh = some ino → fh < mount.nextFh

/-! ## Steps -/

namespace FallbackSound

variable {holders : Holders} {mount next : Mount}

theorem of_same (sound : FallbackSound holders mount)
    (remembered : next.openHandlesByIno = mount.openHandlesByIno)
    (handles : ∀ ino id, mount.openHandlesByIno.lookup ino = some id → id ∈ mount.openHandles →
      id ∈ next.openHandles)
    (numbers : next.nextFh = mount.nextFh) : FallbackSound holders next where
  found fh ino held := by
    rw [remembered]
    exact sound.found fh ino held
  present ino id known := by
    rw [remembered] at known
    exact handles ino id known (sound.present ino id known)
  registered ino id known := by
    rw [remembered] at known
    exact sound.registered ino id known
  numbered fh ino held := by
    rw [numbers]
    exact sound.numbered fh ino held

private theorem held_beside (sound : FallbackSound holders mount) (new : Nat) {fh ino : Nat}
    (held : holders fh = some ino) :
    Function.update holders mount.nextFh (some new) fh = some ino := by
  rw [Function.update_of_ne (Nat.ne_of_lt (sound.numbered fh ino held)), held]

private theorem numbered_beside (sound : FallbackSound holders mount) {new fh ino : Nat}
    (held : Function.update holders mount.nextFh (some new) fh = some ino) :
    fh < mount.nextFh + 1 := by
  by_cases same : fh = mount.nextFh
  · omega
  · rw [Function.update_of_ne same] at held
    exact Nat.lt_succ_of_lt (sound.numbered fh ino held)

theorem opened (sound : FallbackSound holders mount) (key : Key) (ino : Nat) :
    FallbackSound (Function.update holders mount.nextFh (some ino))
      ((mount.openHandle key).rememberHandle ino mount.nextFh) where
  found fh other held := by
    rw [Mount.rememberHandle, Table.lookup_insert_eq]
    by_cases same : other = ino
    · rw [if_pos same, same]
      exact ⟨mount.nextFh, rfl, Function.update_self ..⟩
    · rw [if_neg same]
      have older : fh ≠ mount.nextFh := by
        intro new
        rw [new, Function.update_self, Option.some.injEq] at held
        exact same held.symm
      rw [Function.update_of_ne older] at held
      rcases sound.found fh other held with ⟨id, known, holds⟩
      exact ⟨id, known, sound.held_beside ino holds⟩
  present other id known := by
    rw [Mount.rememberHandle, Table.lookup_insert_eq] at known
    apply Finmap.mem_insert.mpr
    split at known
    · exact Or.inl (Option.some.inj known).symm
    · exact Or.inr (sound.present other id known)
  registered other id known := by
    rw [Mount.rememberHandle, Table.lookup_insert_eq] at known
    split at known
    · rename_i same
      rw [← Option.some.inj known, same, Function.update_self]
    · exact sound.held_beside ino (sound.registered other id known)
  numbered fh other held := sound.numbered_beside held

theorem created (sound : FallbackSound holders mount) (key : Key) {ino : Nat}
    (remembered : ino ∈ mount.openHandlesByIno) :
    FallbackSound (Function.update holders mount.nextFh (some ino)) (mount.openHandle key) where
  found fh other held := by
    by_cases new : fh = mount.nextFh
    · rw [new, Function.update_self, Option.some.injEq] at held
      subst held
      rcases Finmap.mem_iff.mp remembered with ⟨id, known⟩
      exact ⟨id, known, sound.held_beside ino (sound.registered ino id known)⟩
    · rw [Function.update_of_ne new] at held
      rcases sound.found fh other held with ⟨id, known, holds⟩
      exact ⟨id, known, sound.held_beside ino holds⟩
  present other id known := Finmap.mem_insert.mpr (Or.inr (sound.present other id known))
  registered other id known := sound.held_beside ino (sound.registered other id known)
  numbered fh other held := sound.numbered_beside held

private theorem lookup_dropHandle_iff (next : Mount) (ino id : Nat) {inode other : Nat} :
    (next.dropHandle ino id).openHandlesByIno.lookup inode = some other ↔
      next.openHandlesByIno.lookup inode = some other ∧ inode ≠ ino ∧ other ≠ id := by
  have lookup : (next.dropHandle ino id).openHandlesByIno.lookup inode =
      (next.openHandlesByIno.lookup inode).filter fun value =>
        decide (inode ≠ ino) && decide (value ≠ id) := Table.lookup_select _ _ _
  rw [lookup, Option.filter_eq_some_iff]
  simp

theorem released (sound : FallbackSound holders mount) {ino id : Nat}
    (last : ∀ other inode, holders other = some inode → other ≠ id →
      inode ≠ ino ∧ mount.openHandlesByIno.lookup inode ≠ some id)
    (handles : ∀ other ∈ mount.openHandles, other ≠ id → other ∈ next.openHandles)
    (remembered : next.openHandlesByIno = mount.openHandlesByIno)
    (numbers : next.nextFh = mount.nextFh) :
    FallbackSound (Function.update holders id none) (next.dropHandle ino id) := by
  have known_iff : ∀ {inode other : Nat},
      (next.dropHandle ino id).openHandlesByIno.lookup inode = some other ↔
        mount.openHandlesByIno.lookup inode = some other ∧ inode ≠ ino ∧ other ≠ id := by
    intro inode other
    rw [← remembered]
    exact lookup_dropHandle_iff next ino id
  have earlier : ∀ {fh inode : Nat}, Function.update holders id none fh = some inode →
      fh ≠ id ∧ holders fh = some inode := by
    intro fh inode held
    by_cases same : fh = id
    · rw [same, Function.update_self] at held
      cases held
    · rw [Function.update_of_ne same] at held
      exact ⟨same, held⟩
  constructor
  · constructor
    · intro fh inode held
      rcases earlier held with ⟨different, holds⟩
      rcases last fh inode holds different with ⟨elsewhere, unmeant⟩
      rcases sound.found fh inode holds with ⟨other, known, otherHolds⟩
      have stays : other ≠ id := by
        intro same
        exact unmeant (same ▸ known)
      refine ⟨other, known_iff.mpr ⟨known, elsewhere, stays⟩, ?_⟩
      rw [Function.update_of_ne stays, otherHolds]
    · intro inode other known
      rcases known_iff.mp known with ⟨known, _, stays⟩
      have there := handles other (sound.present inode other known) stays
      rcases Finmap.mem_iff.mp there with ⟨handle, found⟩
      apply Finmap.mem_iff.mpr
      refine ⟨handle, ?_⟩
      rw [Mount.dropHandle, Table.lookup_erase_eq, if_neg stays, found]
  · intro inode other known
    rcases known_iff.mp known with ⟨known, _, stays⟩
    rw [Function.update_of_ne stays, sound.registered inode other known]
  · intro fh inode held
    show fh < next.nextFh
    rw [numbers]
    exact sound.numbered fh inode (earlier held).2

end FallbackSound

/-- A flush loses at most its own handle, and only one whose row is not readable. -/
theorem Flushed.keeps_handles {quiet : Prop} {mount next : Mount} {fh other : Nat}
    {succeeded : Bool} (flushed : Flushed quiet mount fh succeeded next)
    (there : other ∈ mount.openHandles) :
    other ∈ next.openHandles ∨ other = fh ∧ ∃ handle, mount.openHandles.lookup fh = some handle ∧
      handle.pending = true ∧
        (quiet → ∃ failure, mount.tables.attributes handle.key = .error failure) := by
  cases flushed with
  | absent => exact Or.inl there
  | clean => exact Or.inl there
  | stored => exact Or.inl (Finmap.mem_insert.mpr (Or.inr there))
  | lost handle found pending excuse =>
      by_cases same : other = fh
      · exact Or.inr ⟨same, handle, found, pending, excuse⟩
      · exact Or.inl (Finmap.mem_erase.mpr ⟨same, there⟩)

private theorem FallbackSound.flushed {quiet : Prop} {holders : Holders} {before next : Mount}
    {id : Nat} {succeeded : Bool} (sound : FallbackSound holders before) (answered : quiet)
    (flushed : Flushed quiet before id succeeded next)
    (harmless : ∀ handle, before.openHandles.lookup id = some handle → handle.pending = true →
      (∃ failure, before.tables.attributes handle.key = .error failure) →
        ∀ other, before.openHandlesByIno.lookup other ≠ some id) :
    FallbackSound holders next := by
  apply sound.of_same flushed.frame.2.2 _ flushed.frame.2.1
  intro inode other known there
  rcases flushed.keeps_handles there with stays | ⟨same, handle, found, pending, excuse⟩
  · exact stays
  · rw [same] at known
    exact absurd known (harmless handle found pending (excuse answered) inode)

private theorem Holders.follow_create {before : Mount} {parent ino : Nat} {key : Key}
    {dumpRequested alive : Bool} {ttl : Nat} {attr : FileAttr} {tables : Tables}
    (holders : Holders) (resolved : before.pathOfIno parent = some key.parent)
    (cached : before.inoByPath.lookup (join key.parent key.name) = some ino) :
    Holders.follow before
      ⟨⟨.create parent (some key.name), dumpRequested, alive⟩,
        .ok (.created ttl attr before.nextFh)⟩
      (((before.setTables tables).openHandle key).setMaps (before.allocate [key.path])) holders =
        Function.update holders before.nextFh (some ino) := by
  have same : before.allocate [key.path] = before.toInodeMaps := by
    rcases before.toInodeMaps.inoFor_cases key.path with ⟨_, same⟩ | ⟨uncached, _⟩
    · exact same
    · rw [Key.path, cached] at uncached
      cases uncached
  have cachedAfter : (before.allocate [key.path]).inoByPath.lookup key.path = some ino := by
    rw [same]
    exact cached
  simp only [Holders.follow, resolved, Option.bind_some]
  exact congrArg (Function.update holders before.nextFh) cachedAfter

/-- A served request keeps the fallback. -/
theorem Serves.fallbackSound {quiet alone : Prop} {before after : Mount} {exchange : Exchange}
    {holders : Holders}
    (serves : Serves quiet alone before exchange.event.callback exchange.reply after)
    (answered : quiet) (live : PgFs.hasPreamble exchange.event.callback → exchange.event.alive)
    (sound : FallbackSound holders before)
    (kept : before.FallbackKept holders exchange.event) :
    FallbackSound (holders.follow before exchange after) after := by
  rcases exchange with ⟨⟨callback, dumpRequested, alive⟩, reply⟩
  cases serves with
  | refused callback errno =>
      rw [Holders.follow_of_error holders rfl]
      exact sound
  | «open» ino path resolved => exact sound.opened (keyOf path) ino
  | create parent key now ttl attr resolved absent =>
      rcases kept (live rfl) key.parent resolved absent with ⟨ino, cached, remembered⟩
      rw [holders.follow_create resolved cached]
      have created := sound.created key remembered
      exact ⟨⟨created.found, created.present⟩, created.registered, created.numbered⟩
  | release ino fh succeeded next flushed =>
      apply sound.released kept _ flushed.frame.2.2 flushed.frame.2.1
      intro other there different
      rcases flushed.keeps_handles there with stays | ⟨same, _⟩
      · exact stays
      · exact absurd same different
  | flushRead ino fh id offset size succeeded reply next handled flushed =>
      exact sound.flushed answered flushed fun handle => kept (live rfl) id handle handled
  | flush ino fh id callback succeeded next given handled flushed =>
      rcases given with rfl | rfl
      · exact sound.flushed answered flushed fun handle => kept (live rfl) id handle handled
      · exact sound.flushed answered flushed fun handle => kept (live rfl) id handle handled
  | flushNothing ino fh callback given =>
      rcases given with rfl | rfl
      · exact sound
      · exact sound
  | buffer ino fh id offset data handle written handled found =>
      exact sound.of_same rfl (fun _ _ _ there => Finmap.mem_insert.mpr (Or.inr there)) rfl
  | _ => exact sound.of_same rfl (fun _ _ _ there => there) rfl

namespace PgFs

variable {before after : PgFs} {exchange : Exchange} {holders : Holders}

theorem Step.refused_of_dead (step : Step before exchange after)
    (checked : hasPreamble exchange.event.callback = true) (dead : exchange.event.alive = false) :
    (∃ errno, exchange.reply = .error errno) ∧ after.mount = before.mount := by
  rcases step_cases step with ⟨errno, _, replied, same⟩ | ⟨ready, admitted, _⟩
  · exact ⟨⟨errno, replied⟩, same⟩
  · exfalso
    unfold admission preamble at admitted
    rw [if_pos checked, dead] at admitted
    split at admitted
    · rcases Effect.bind_eq_ok.mp admitted with ⟨_, _, _, raised⟩
      cases raised
    · cases admitted

theorem Step.fallbackSound (step : Step before exchange after) (answered : Db.Quiet before.db)
    (sound : FallbackSound holders before.mount)
    (kept : before.mount.FallbackKept holders exchange.event) :
    FallbackSound (holders.follow before.mount exchange after.mount) after.mount := by
  by_cases live : hasPreamble exchange.event.callback = true → exchange.event.alive = true
  · exact step.serves.fallbackSound answered live sound kept
  · simp only [not_forall, Bool.not_eq_true, exists_prop] at live
    rcases step.refused_of_dead live.1 live.2 with ⟨⟨errno, replied⟩, same⟩
    rw [holders.follow_of_error replied, same]
    exact sound

/-! ## Runs -/

def HeldRun (allowed : Mount → Holders → Event → Prop) (db : Db) (attrTtl : Nat) :
    List Exchange → PgFs × Holders → Prop :=
  Trace (fun before exchange after =>
      Watched Step (fun before exchange after => Holders.follow before.mount exchange after.mount)
        before exchange after ∧ allowed before.1.mount before.2 exchange.event)
    (withAttrTtl db attrTtl, .empty)

theorem HeldRun.serving {allowed : Mount → Holders → Event → Prop} {db : Db}
    {attrTtl : Nat} {history : List Exchange}
    (run : HeldRun allowed db attrTtl history (before, holders))
    (step : Step before exchange after) {following : Holders}
    (follows : holders.follow before.mount exchange after.mount = following)
    (kept : allowed before.mount holders exchange.event) :
    HeldRun allowed db attrTtl (history ++ [exchange]) (after, following) :=
  Trace.snoc run ⟨⟨step, follows.symm⟩, kept⟩

/-- When no statement fails, the fallback finds an open handle after every run whose
requests all keep it. -/
theorem fallback_finds {db : Db} {attrTtl : Nat} {history : List Exchange} {fs : PgFs}
    (answered : Db.Quiet db)
    (run : HeldRun Mount.FallbackKept db attrTtl history (fs, holders)) :
    FallbackFinds holders fs.mount := by
  have kept := run.invariant
    (fun state => Db.Quiet state.1.db ∧ FallbackSound state.2 state.1.mount) ?_ ?_
  · exact kept.2.toFallbackFinds
  · refine ⟨answered, ⟨⟨?_, ?_⟩, ?_, ?_⟩⟩
    · intro fh ino held
      cases held
    · intro ino id known
      cases known
    · intro ino id known
      cases known
    · intro fh ino held
      cases held
  · intro before exchange after known step
    rcases step with ⟨⟨step, observed⟩, allowed⟩
    constructor
    · unfold Db.Quiet
      rw [step.sameWorld.1]
      exact known.1
    · rw [observed]
      exact step.fallbackSound known.1 known.2 allowed

/-- A database with the file `a/x/f` and the directories above it. -/
private def nestedFile : Db :=
  .connect (((Tables.empty.insertEntry ⟨[], ['a']⟩ .dir 0).insertEntry
    ⟨['a'], ['x']⟩ .dir 0).insertEntry ⟨['a', '/', 'x'], ['f']⟩ .file 0) false fun _ => {}

/-- A file is opened, released and opened again. The rename of another directory takes its
row away, so it can be created under the inode whose handle is remembered. -/
theorem fallback_finds_opened : ∃ history fs holders,
    HeldRun Mount.FallbackKept nestedFile 1 history (fs, holders) ∧
      holders 1 = none ∧ holders 2 = some 4 ∧ holders 3 = some 4 ∧
      FallbackFinds holders fs.mount := by
  have served : ∃ first second third opened released reopened made renamed created,
      Step (withAttrTtl nestedFile 1) ⟨{ callback := .lookup 1 (some ['a']) },
        .ok (.entry 1 (dirAttr 2))⟩ first ∧
      Step first ⟨{ callback := .lookup 2 (some ['x']) }, .ok (.entry 1 (dirAttr 3))⟩ second ∧
      Step second ⟨{ callback := .lookup 3 (some ['f']) },
        .ok (.entry 1 (fileAttr 4 0 0))⟩ third ∧
      Step third ⟨{ callback := .open 4 }, .ok (.opened 1)⟩ opened ∧
      Step opened ⟨{ callback := .release 4 1 }, .ok .ok⟩ released ∧
      Step released ⟨{ callback := .open 4 }, .ok (.opened 2)⟩ reopened ∧
      Step reopened ⟨{ callback := .mkdir 1 (some ['_']) }, .ok (.entry 1 (dirAttr 5))⟩ made ∧
      Step made ⟨{ callback := .rename 1 (some ['_']) 1 (some ['c']) 0 }, .ok .ok⟩ renamed ∧
      Step renamed ⟨{ callback := .create 3 (some ['f']) },
        .ok (.created 1 (fileAttr 4 0 0) 3)⟩ created ∧
      renamed.mount.pathOfIno 3 = some ['a', '/', 'x'] ∧
      renamed.mount.inoByPath.lookup ['a', '/', 'x', '/', 'f'] = some 4 ∧
      renamed.mount.openHandlesByIno.lookup 4 = some 2 ∧
      ((renamed.mount.pathOfIno 3).bind fun path =>
        created.mount.inoByPath.lookup (join path ['f'])) = some 4 :=
    ⟨_, _, _, _, _, _, _, _, _, rfl, rfl, rfl, rfl, rfl, rfl, rfl, rfl, rfl, rfl, rfl, rfl, rfl⟩
  rcases served with ⟨first, second, third, opened, released, reopened, made, renamed, created,
    firstLook, secondLook, thirdLook, opens, releases, reopens, makes, renames, creates, parent,
    cached, remembered, known⟩
  let held (fh : Nat) : Holders := Function.update Holders.empty fh (some 4)
  have start : HeldRun Mount.FallbackKept nestedFile 1 [] (withAttrTtl nestedFile 1, .empty) :=
    Trace.nil
  have looked := ((start.serving firstLook rfl trivial).serving secondLook rfl trivial).serving
    thirdLook rfl trivial
  have once : HeldRun Mount.FallbackKept nestedFile 1 _ (opened, held 1) :=
    looked.serving opens rfl trivial
  -- The released handle is the only one of its inode.
  have alone : opened.mount.FallbackKept (held 1) { callback := .release 4 1 } := by
    intro other inode there different
    have absent : held 1 other = none := Function.update_of_ne different _ _
    cases absent.symm.trans there
  have moved := (((once.serving releases rfl alone).serving reopens rfl trivial).serving
    makes rfl trivial).serving renames rfl trivial
  have numbered (holders : Holders) :
      renamed.mount.FallbackKept holders { callback := .create 3 (some ['f']) } := by
    intro _ path resolved _
    cases parent.symm.trans resolved
    exact ⟨4, cached, Table.mem_iff_exists_lookup.mpr ⟨2, remembered⟩⟩
  have run := moved.serving creates (congrArg (Function.update _ 3) known) (numbered _)
  exact ⟨_, created, _, run, rfl, rfl, rfl, fallback_finds (fun _ => rfl) run⟩

/-- A created file has no handle to fall back to. -/
theorem created_handle_not_found : ¬∀ db attrTtl history fs holders, Db.Quiet db →
    HeldRun (fun _ _ _ => True) db attrTtl history (fs, holders) →
      FallbackFinds holders fs.mount := by
  intro claimed
  rcases @exists_watched_of_replay Holders (fun _ _ _ => True) _
    (fun before exchange after => Holders.follow before.mount exchange after.mount)
    [{ callback := .create 1 (some ['a']) }] (freshMount, .empty)
    (fun final => decide (final.2 1 = some 2 ∧ final.1.openHandlesByIno.lookup 2 = none))
    (by decide) with ⟨history, ⟨fs, holders⟩, run, seen⟩
  rcases of_decide_eq_true seen with ⟨held, missing⟩
  have finds := claimed _ _ history fs holders (fun _ => rfl)
    (run.mono fun _ _ _ step => ⟨⟨step.1.1, step.2⟩, trivial⟩)
  rcases finds.found 1 2 held with ⟨id, known, _⟩
  cases missing.symm.trans known

end PgFs

end Pgfs
