import Pgfs.Fs.Kernel
import Pgfs.Handles.Batches

namespace Pgfs

/-! Whether every stored block belongs to a file. -/

namespace Tables

def IsFile (tables : Tables) (key : Key) : Prop := tables.kindOf key = some .file

instance (tables : Tables) (key : Key) : Decidable (tables.IsFile key) :=
  inferInstanceAs (Decidable (_ = _))

/-- Every row of `blocks` has a file with its key in `entries`. -/
def Owned (tables : Tables) : Prop :=
  ∀ key blockNo data, tables.block key blockNo = some data → tables.IsFile key

variable {before after : Tables} {key : Key}

theorem owned_empty : Owned .empty := by
  intro key blockNo data stored
  cases stored

theorem FileAt.isFile {size : Nat} (file : before.FileAt key size) : before.IsFile key := by
  rcases file with ⟨mtime, stored⟩
  simp [IsFile, kindOf, stored]

theorem Owned.block_eq_none (owned : Owned before)
    (absent : before.entries.lookup key = none) (blockNo : Int) :
    before.block key blockNo = none := by
  cases stored : before.block key blockNo with
  | none => rfl
  | some data =>
      have file := owned key blockNo data stored
      simp [IsFile, kindOf, absent] at file

theorem Owned.contents (owned : Owned before) (contents : ContentsOnly key before after)
    (file : ∀ blockNo data, after.block key blockNo = some data → before.IsFile key) :
    Owned after := by
  intro other blockNo data stored
  unfold IsFile
  rw [contents.kindOf]
  by_cases same : other = key
  · rw [same] at stored ⊢
    exact file blockNo data stored
  · rw [contents.blocks other same] at stored
    exact owned other blockNo data stored

theorem Owned.insertEntry (owned : Owned before) (kind : KindText) (now : Nat)
    (absent : before.entries.lookup key = none) :
    Owned (before.insertEntry key kind now) := by
  intro other blockNo data stored
  rw [block_insertEntry] at stored
  have different : other ≠ key := by
    rintro rfl
    rw [owned.block_eq_none absent] at stored
    cases stored
  unfold IsFile
  rw [kindOf_insertEntry absent, if_neg different]
  exact owned other blockNo data stored

theorem Owned.unlink (owned : Owned before) (key : Key) :
    Owned ((before.deleteEntry key).2.deleteBlocks key) := by
  intro other blockNo data stored
  rw [block_deleteBlocks] at stored
  split at stored
  · cases stored
  · rename_i different
    have kind := kindOf_deleteEntry before key other
    rw [if_neg different] at kind
    exact kind.trans (owned other blockNo data stored)

theorem Owned.rmdir (owned : Owned before)
    (directory : ∀ found, before.kindOf key = some found → found = .dir) :
    Owned (before.deleteEntry key).2 := by
  intro other blockNo data stored
  have file : before.kindOf other = some .file := owned other blockNo data stored
  have different : other ≠ key := by
    rintro rfl
    cases directory _ file
  unfold IsFile
  rw [kindOf_deleteEntry, if_neg different]
  exact file

theorem Owned.rename {kind : Kind} {old new : Key} (owned : Owned before)
    (renamed : Renamed kind old new before after) : Owned after := by
  intro key blockNo data stored
  rcases renamed.blocks_reached key blockNo data stored with ⟨source, survives, found, rfl⟩
  have file := owned source blockNo data found
  have different : source ≠ new := by
    intro same
    rw [IsFile, kindOf, same, survives same] at file
    cases file
  exact (renamed.kindOf_relocate different ⟨_, file⟩).trans file

end Tables

/-! ## Steps -/

namespace Mount

/-- The key under which a callback stores blocks, if it stores any: the one of
the flushed handle, or the one of the inode when there is no handle to write
to. -/
def storeKey (mount : Mount) (callback : Callback) : Option Key :=
  match callback with
  | .write ino fh _ data =>
      if ((mount.handleId ino fh).bind mount.openHandles.lookup).isSome ∨ data = [] then
        none
      else
        (mount.pathOfIno ino).map keyOf
  | _ => do
      let fh ← mount.flushTarget callback
      let handle ← mount.openHandles.lookup fh
      if handle.dirtyBlocks.isEmpty then none else some handle.key

def StoresToFile (mount : Mount) (callback : Callback) : Prop :=
  ∀ key ∈ mount.storeKey callback, mount.tables.IsFile key

instance (mount : Mount) (callback : Callback) : Decidable (mount.StoresToFile callback) :=
  inferInstanceAs (Decidable (∀ key ∈ mount.storeKey callback, mount.tables.IsFile key))

end Mount

private theorem Flushed.owned {quiet : Prop} {mount next : Mount} {fh : Nat}
    {succeeded : Bool} (flushed : Flushed quiet mount fh succeeded next)
    (owned : mount.tables.Owned)
    (file : ∀ handle, mount.openHandles.lookup fh = some handle →
      handle.dirtyBlocks.isEmpty = false → mount.tables.IsFile handle.key) :
    next.tables.Owned := by
  cases flushed with
  | stored handle tables found pending batch =>
      refine owned.contents batch.contents fun blockNo data stored => ?_
      have stored : tables.block handle.key blockNo = some data := stored
      rw [batch.blocks] at stored
      cases dirty : handle.dirtyBlocks.lookup blockNo with
      | none =>
          rw [dirty, Option.none_or] at stored
          exact owned _ _ _ stored
      | some block =>
          apply file handle found
          by_contra empty
          rw [Bool.not_eq_false, Table.isEmpty_iff] at empty
          simp [empty] at dirty
  | _ => exact owned

theorem Serves.owned {quiet alone : Prop} {before after : Mount} {callback : Callback}
    {reply : Except Errno Reply} (serves : Serves quiet alone before callback reply after)
    (isQuiet : quiet) (promised : callback.RemovesRightKind before)
    (stores : before.StoresToFile callback) (owned : before.tables.Owned) :
    after.tables.Owned := by
  have flushes : ∀ {fh : Nat} {succeeded : Bool} {next : Mount},
      before.flushTarget callback = some fh → Flushed quiet before fh succeeded next →
      next.tables.Owned := by
    intro fh succeeded next target flushed
    refine flushed.owned owned fun handle found dirty => stores handle.key ?_
    cases callback with
    | write => cases target
    | _ => simp [Mount.storeKey, target, found, dirty]
  cases serves with
  | truncate ino newSize path reply tables resolved truncated =>
      rcases truncated.blocks with ⟨size, file, _⟩
      exact owned.contents truncated.contents fun _ _ _ => file.isFile
  | flushRead ino given id offset size succeeded reply next handled flushed =>
      exact flushes handled flushed
  | flush ino given id callback succeeded next same handled flushed =>
      refine flushes ?_ flushed
      rcases same with rfl | rfl <;> exact handled
  | release ino given succeeded next flushed =>
      have done := flushes rfl flushed
      exact done
  | writeThrough ino given offset data path tables unhandled resolved written =>
      by_cases empty : data = []
      · rw [show (before.setTables tables).tables = before.tables from written.nothing empty]
        exact owned
      · refine owned.contents written.contents fun _ _ _ => stores _ ?_
        have missing : (before.handleId ino given).bind before.openHandles.lookup = none := by
          cases handled : before.handleId ino given with
          | none => rfl
          | some id => exact unhandled id handled
        simp [Mount.storeKey, missing, empty, resolved]
  | rename parent newparent flags old new kind tables order _ _ _ _ renamed =>
      have done := owned.rename renamed
      exact done
  | create parent key now ttl attr resolved absent =>
      have done := owned.insertEntry .file now absent
      exact done
  | mkdir parent key now reply resolved absent =>
      have done := owned.insertEntry .dir now absent
      exact done
  | unlink parent key resolved =>
      have done := owned.unlink key
      exact done
  | unlinkHalf parent key errno loud => exact absurd isQuiet loud
  | rmdir parent key resolved empty =>
      have done := owned.rmdir ((Mount.isOfKind_iff resolved).mp promised)
      exact done
  | _ => exact owned

private theorem Serves.created {quiet alone : Prop} {before after : Mount} {parent ttl fh : Nat}
    {key : Key} {attr : FileAttr}
    (serves : Serves quiet alone before (.create parent (some key.name))
      (.ok (.created ttl attr fh)) after)
    (resolved : before.pathOfIno parent = some key.parent) (owned : before.tables.Owned)
    (blockNo : Int) : after.tables.block key blockNo = none := by
  generalize called : Callback.create parent (some key.name) = callback at serves
  generalize replied : Except.ok (Reply.created ttl attr fh) = reply at serves
  cases serves with
  | refused => cases replied
  | flush _ _ _ _ _ _ flushes =>
      subst called
      rcases flushes with same | same <;> cases same
  | flushNothing _ _ _ flushes =>
      subst called
      rcases flushes with same | same <;> cases same
  | create _ created now _ _ found absent =>
      simp only [Callback.create.injEq, Option.some.injEq] at called
      rcases called with ⟨rfl, sameName⟩
      rw [resolved, Option.some.injEq] at found
      have same : key = created := by
        cases key
        cases created
        cases found
        cases sameName
        rfl
      rw [← same] at absent
      exact (Tables.block_insertEntry _ _ _ _ _ _).trans (owned.block_eq_none absent blockNo)
  | _ => cases called

private theorem Flushed.orphans {quiet : Prop} {mount next : Mount} {fh : Nat}
    {succeeded : Bool} {handle : HandleBuffer} (flushed : Flushed quiet mount fh succeeded next)
    (found : mount.openHandles.lookup fh = some handle) (dirty : handle.dirtyBlocks ≠ ∅)
    (stores : next.tables ≠ mount.tables) (owned : next.tables.Owned) :
    mount.tables.IsFile handle.key := by
  cases flushed with
  | stored other tables same pending batch =>
      cases same.symm.trans found
      have nonempty : ∃ blockNo block, handle.dirtyBlocks.lookup blockNo = some block := by
        by_contra none
        refine dirty (Finmap.ext_lookup fun blockNo => ?_)
        cases present : handle.dirtyBlocks.lookup blockNo with
        | none => simp
        | some block => exact absurd ⟨blockNo, block, present⟩ none
      rcases nonempty with ⟨blockNo, block, present⟩
      have stored : tables.block handle.key blockNo = some block := by
        rw [batch.blocks, present, Option.some_or]
      have file : tables.kindOf handle.key = some .file := owned _ _ _ stored
      rw [batch.contents.kindOf] at file
      exact file
  | _ => exact absurd rfl stores

namespace PgFs

def OwnerStep : PgFs → Exchange → PgFs → Prop :=
  StepWhere fun before exchange _ =>
    exchange.event.callback.RemovesRightKind before.mount ∧
      before.mount.StoresToFile exchange.event.callback

theorem owned_of_run {start fs : PgFs} {history : List Exchange}
    (run : Trace OwnerStep start history fs) (quiet : Db.Quiet start.db)
    (owned : start.db.tables.Owned) : Db.Quiet fs.db ∧ fs.db.tables.Owned := by
  refine run.invariant (fun fs => Db.Quiet fs.db ∧ fs.db.tables.Owned) ⟨quiet, owned⟩ ?_
  rintro before exchange after ⟨quiet, owned⟩ ⟨step, promised, stores⟩
  exact ⟨step.sameWorld.quiet quiet, step.serves.owned quiet promised stores owned⟩

/-- Every stored block has an owner in a quiet run that stores blocks under keys of
files only, and a created file starts without blocks. A flush that stores dirty
blocks needs its key to be the one of a file. -/
theorem every_block_owned {world : Nat → Moment} {replica : Bool} {attrTtl : Nat}
    {history : List Exchange} {fs : PgFs}
    (quiet : ∀ index, (world index).fails = false)
    (run : Trace OwnerStep (withAttrTtl (.connect .empty replica world) attrTtl) history fs) :
    (∀ key blockNo data, fs.db.tables.block key blockNo = some data →
      fs.db.tables.IsFile key) ∧
    (∀ event next parent key ttl attr fh,
      Step fs ⟨event, .ok (.created ttl attr fh)⟩ next →
      event.callback = .create parent (some key.name) →
      fs.pathOfIno parent = some key.parent →
      ∀ blockNo, next.db.tables.block key blockNo = none) ∧
    ∀ exchange next fh handle, Step fs exchange next →
      fs.mount.flushTarget exchange.event.callback = some fh →
      fs.openHandles.lookup fh = some handle → handle.dirtyBlocks ≠ ∅ →
      next.db.tables ≠ fs.db.tables →
      (next.db.tables.Owned ↔ fs.db.tables.IsFile handle.key) := by
  rcases owned_of_run run quiet Tables.owned_empty with ⟨stillQuiet, owned⟩
  refine ⟨owned, ?_, ?_⟩
  · intro event next parent key ttl attr fh step creates resolved
    have serves := step.serves
    rw [creates] at serves
    exact serves.created resolved owned
  · intro exchange next fh handle step target found dirty stores
    rcases step.serves.flushed target with same | ⟨succeeded, flushed, done, same⟩
    · exact absurd same stores
    rw [PgFs.mount_tables] at same
    rw [same] at stores ⊢
    refine ⟨done.orphans found dirty stores, fun file => done.owned owned ?_⟩
    intro other present _
    cases present.symm.trans found
    exact file

theorem every_block_owned_write : ∃ history fs, Trace OwnerStep freshMount history fs ∧
    fs.db.tables.block ⟨[], ['a']⟩ 0 = some [7] ∧ fs.db.tables.IsFile ⟨[], ['a']⟩ := by
  have observed : (replay (fun before exchange _ =>
      exchange.event.callback.RemovesRightKind before.mount ∧
        before.mount.StoresToFile exchange.event.callback) (fun _ _ _ => id)
      [{ callback := .create 1 (some ['a']) }, { callback := .write 2 1 0 [7] },
        { callback := .flush 2 1 }] (freshMount, ())).any
      (fun final => final.1.db.tables.block ⟨[], ['a']⟩ 0 = some [7]) = true := by decide
  rcases exists_trace_of_replay
    (fun fs => fs.db.tables.block ⟨[], ['a']⟩ 0 = some [7]) observed with
    ⟨history, fs, run, seen⟩
  have stored := of_decide_eq_true seen
  exact ⟨history, fs, run, stored,
    (every_block_owned (fun _ => rfl) run).1 _ 0 _ stored⟩

/-- The buffered byte of an unlinked file is stored at the flush. -/
theorem orphan_block_after_unlink : ¬∀ history fs,
    Trace (StepWhere fun before exchange _ =>
      exchange.event.callback.RemovesRightKind before.mount) freshMount history fs →
    ∀ key blockNo data, fs.db.tables.block key blockNo = some data →
      fs.db.tables.IsFile key := by
  intro claimed
  have observed : (replay (fun before exchange _ =>
      exchange.event.callback.RemovesRightKind before.mount) (fun _ _ _ => id)
      [{ callback := .create 1 (some ['a']) }, { callback := .write 2 1 0 [7] },
        { callback := .unlink 1 (some ['a']) }, { callback := .flush 2 1 }]
      (freshMount, ())).any
      (fun final => final.1.db.tables.block ⟨[], ['a']⟩ 0 = some [7] ∧
        ¬final.1.db.tables.IsFile ⟨[], ['a']⟩) = true := by decide
  rcases exists_trace_of_replay
    (fun fs => fs.db.tables.block ⟨[], ['a']⟩ 0 = some [7] ∧
      ¬fs.db.tables.IsFile ⟨[], ['a']⟩) observed with ⟨history, fs, run, seen⟩
  have orphan := of_decide_eq_true seen
  exact orphan.2 (claimed history fs run _ 0 _ orphan.1)

end PgFs

end Pgfs
