import Pgfs.Handles.Batches

namespace Pgfs

/-! Which buffered blocks the database has been given. A ledger follows the
acknowledged writes and the batches of a run; the handles agree with it as long
as no batch fails. -/

/-- What is still owed to the writers: the blocks of acknowledged writes that are
in no committed batch, and whether a batch with blocks has failed. -/
structure Ledger where
  unsaved : Nat → Finset Int
  failed : Nat → Bool

def Mount.acknowledged (mount : Mount) (exchange : Exchange) : Option (Nat × Finset Int) :=
  match exchange.event.callback, exchange.reply with
  | .write ino fh offset data, .ok _ => do
      let id ← mount.handleId ino fh
      let _ ← mount.openHandles.lookup id
      return (id, (touchedBlocks (MachineInt.asU64 offset) data).toFinset)
  | _, _ => none

namespace Ledger

def empty : Ledger := ⟨fun _ => ∅, fun _ => false⟩

def write (ledger : Ledger) (fh : Nat) (blocks : Finset Int) : Ledger :=
  { ledger with unsaved := Function.update ledger.unsaved fh (ledger.unsaved fh ∪ blocks) }

def settle (ledger : Ledger) (batch : Batch) : Ledger :=
  if batch.committed then
    { ledger with
      unsaved := Function.update ledger.unsaved batch.fh
        (ledger.unsaved batch.fh \ batch.blocks) }
  else if batch.blocks = ∅ then
    ledger
  else
    { ledger with failed := Function.update ledger.failed batch.fh true }

def record (before : PgFs) (exchange : Exchange) (_after : PgFs) (ledger : Ledger) :
    Ledger :=
  match before.mount.acknowledged exchange with
  | some (fh, blocks) => ledger.write fh blocks
  | none =>
      match before.batchOf exchange.event with
      | some batch => ledger.settle batch
      | none => ledger

/-- An open handle holds exactly its unsaved blocks. One that is gone left
blocks unsaved exactly when a batch failed. -/
def Matches (ledger : Ledger) (fh : Nat) : Option HandleBuffer → Prop
  | some handle => ledger.failed fh = false ∧ ledger.unsaved fh = handle.dirtyBlocks.keys
  | none => ledger.failed fh = false ↔ ledger.unsaved fh = ∅

/-- The ledger agrees with the handles, and handles not opened yet have no
history. -/
structure Balanced (mount : Mount) (ledger : Ledger) : Prop where
  handles : ∀ fh, ledger.Matches fh (mount.openHandles.lookup fh)
  fresh : ∀ fh, mount.nextFh ≤ fh → mount.openHandles.lookup fh = none ∧
    ledger.failed fh = false ∧ ledger.unsaved fh = ∅

end Ledger

/-! ## Steps -/

inductive HandleStep (before : Mount) (exchange : Exchange) (after : Mount) : Prop
  | kept (silent : before.acknowledged exchange = none)
      (handles : after.openHandles = before.openHandles)
      (numbering : after.nextFh = before.nextFh)
  | opened (key : Key) (silent : before.acknowledged exchange = none)
      (handles : after.openHandles =
        before.openHandles.insert before.nextFh (.clean key.parent key.name))
      (numbering : after.nextFh = before.nextFh + 1)
  | written (fh : Nat) (offset : Nat) (data : List UInt8) (handle next : HandleBuffer)
      (found : before.openHandles.lookup fh = some handle)
      (acknowledged : before.acknowledged exchange =
        some (fh, (touchedBlocks offset data).toFinset))
      (buffered : HandleBuffer.Buffered offset data handle next)
      (handles : after.openHandles = before.openHandles.insert fh next)
      (numbering : after.nextFh = before.nextFh)

theorem Serves.handleStep {quiet alone : Prop} {before after : Mount} {exchange : Exchange}
    (serves : Serves quiet alone before exchange.event.callback exchange.reply after)
    (noFlush : before.flushTarget exchange.event.callback = none) :
    HandleStep before exchange after := by
  rcases exchange with ⟨⟨callback, dumpRequested, alive⟩, reply⟩
  cases serves with
  | refused callback errno =>
      exact .kept (by cases callback <;> rfl) rfl rfl
  | flushRead ino fh id offset size succeeded reply next handled =>
      simp [Mount.flushTarget, handled] at noFlush
  | flush ino fh id callback succeeded next flushes handled =>
      rcases flushes with rfl | rfl <;> simp [Mount.flushTarget, handled] at noFlush
  | release => cases noFlush
  | flushNothing ino fh callback flushes =>
      rcases flushes with rfl | rfl <;> exact .kept rfl rfl rfl
  | buffer ino fh id offset data handle next handled found written =>
      exact .written id _ data handle next found (by simp [Mount.acknowledged, handled, found])
        (HandleBuffer.buffered_of_write written) rfl rfl
  | writeThrough ino fh offset data path tables unhandled =>
      refine .kept ?_ rfl rfl
      cases handled : before.handleId ino fh with
      | none => simp [Mount.acknowledged, handled]
      | some id => simp [Mount.acknowledged, handled, unhandled id handled]
  | «open» ino path => exact .opened (keyOf path) rfl rfl rfl
  | create parent key => exact .opened key rfl rfl rfl
  | _ => exact .kept rfl rfl rfl

theorem Serves.nextFh_le {quiet alone : Prop} {before after : Mount} {callback : Callback}
    {reply : Except Errno Reply} (serves : Serves quiet alone before callback reply after) :
    before.nextFh ≤ after.nextFh := by
  cases serves with
  | flushRead _ _ _ _ _ _ _ _ _ flushed => exact flushed.frame.2.1.ge
  | flush _ _ _ _ _ _ _ _ flushed => exact flushed.frame.2.1.ge
  | release _ _ _ _ flushed => exact flushed.frame.2.1.ge
  | «open» => exact Nat.le_succ _
  | create => exact Nat.le_succ _
  | _ => exact Nat.le_refl _

theorem Mount.acknowledged_of_flushTarget {mount : Mount} {exchange : Exchange} {fh : Nat}
    (target : mount.flushTarget exchange.event.callback = some fh) :
    mount.acknowledged exchange = none := by
  rcases exchange with ⟨⟨callback, dumpRequested, alive⟩, reply⟩
  cases callback with
  | write => cases target
  | _ => rfl

namespace Ledger

open PgFs

variable {fs next : PgFs} {exchange : Exchange} {ledger : Ledger} {fh : Nat}

theorem balanced_initial (db : Db) (attrTtl : Nat) :
    Balanced (withAttrTtl db attrTtl).mount .empty where
  handles _ := Iff.intro (fun _ => rfl) fun _ => rfl
  fresh _ _ := ⟨rfl, rfl, rfl⟩

private theorem matches_congr {other : Ledger} {handle : Option HandleBuffer}
    (matching : ledger.Matches fh handle) (failed : other.failed fh = ledger.failed fh)
    (unsaved : other.unsaved fh = ledger.unsaved fh) : other.Matches fh handle := by
  unfold Matches at *
  rw [failed, unsaved]
  exact matching

private theorem record_of_nothing (silent : fs.mount.acknowledged exchange = none)
    (noBatch : fs.batchOf exchange.event = none) : ledger.record fs exchange next = ledger := by
  simp [record, silent, noBatch]

private theorem record_of_batch {batch : Batch} (silent : fs.mount.acknowledged exchange = none)
    (sent : fs.batchOf exchange.event = some batch) :
    ledger.record fs exchange next = ledger.settle batch := by
  simp [record, silent, sent]

variable {before after : Mount}

private theorem Balanced.of_handles (balanced : Balanced before ledger)
    (handles : after.openHandles = before.openHandles) (numbering : before.nextFh ≤ after.nextFh) :
    Balanced after ledger where
  handles fh := handles ▸ balanced.handles fh
  fresh fh later := handles ▸ balanced.fresh fh (numbering.trans later)

private theorem Balanced.opens (balanced : Balanced before ledger) {parent name : Str}
    (handles : after.openHandles = before.openHandles.insert before.nextFh (.clean parent name))
    (numbering : after.nextFh = before.nextFh + 1) : Balanced after ledger where
  handles fh := by
    have new := balanced.fresh before.nextFh (Nat.le_refl _)
    rw [handles, Table.lookup_insert_eq]
    split
    · rename_i opened
      subst opened
      exact ⟨new.2.1, new.2.2⟩
    · exact balanced.handles fh
  fresh fh later := by
    rw [numbering] at later
    rw [handles, Table.lookup_insert_eq, if_neg (by omega)]
    exact balanced.fresh fh (by omega)

private theorem Balanced.writes (balanced : Balanced before ledger) {offset : Nat}
    {data : List UInt8} {handle buffer : HandleBuffer}
    (found : before.openHandles.lookup fh = some handle)
    (buffered : HandleBuffer.Buffered offset data handle buffer)
    (handles : after.openHandles = before.openHandles.insert fh buffer)
    (numbering : after.nextFh = before.nextFh) :
    Balanced after (ledger.write fh (touchedBlocks offset data).toFinset) where
  handles other := by
    have matching := balanced.handles fh
    rw [found] at matching
    rw [handles, Table.lookup_insert_eq]
    split
    · rename_i written
      subst written
      refine ⟨matching.1, ?_⟩
      simp only [write, Function.update_self]
      rw [matching.2, buffered.keys]
    · rename_i different
      exact matches_congr (balanced.handles other) rfl (Function.update_of_ne different _ _)
  fresh other later := by
    rw [numbering] at later
    have new := balanced.fresh other later
    have different : other ≠ fh := by
      intro same
      rw [← same, new.1] at found
      cases found
    refine ⟨?_, new.2.1, (Function.update_of_ne different _ _).trans new.2.2⟩
    rw [handles, Table.lookup_insert_eq, if_neg different]
    exact new.1

private theorem Balanced.handleStep (balanced : Balanced fs.mount ledger)
    (step : HandleStep fs.mount exchange next.mount)
    (noBatch : fs.batchOf exchange.event = none) :
    Balanced next.mount (ledger.record fs exchange next) := by
  cases step with
  | kept silent handles numbering =>
      rw [record_of_nothing silent noBatch]
      exact balanced.of_handles handles numbering.ge
  | opened key silent handles numbering =>
      rw [record_of_nothing silent noBatch]
      exact balanced.opens handles numbering
  | written target offset data handle buffer found acknowledged buffered handles numbering =>
      have same : ledger.record fs exchange next =
          ledger.write target (touchedBlocks offset data).toFinset := by
        simp [record, acknowledged]
      rw [same]
      exact balanced.writes found buffered handles numbering

private theorem Matches.settle {handle : HandleBuffer} {committed : Bool}
    (matching : ledger.Matches fh (some handle)) :
    (ledger.settle ⟨fh, handle.dirtyBlocks.keys, committed⟩).Matches fh
      (if committed then some (.clean handle.parent handle.name) else none) := by
  cases committed with
  | true =>
      refine ⟨matching.1, ?_⟩
      simp [Ledger.settle, matching.2, HandleBuffer.clean]
  | false =>
      simp only [Bool.false_eq_true, if_false, Matches, Ledger.settle]
      split
      · rename_i nothing
        simp [matching.1, matching.2, nothing]
      · rename_i blocks
        simpa [matching.2] using blocks

private theorem settle_other (ledger : Ledger) (batch : Batch) {fh : Nat}
    (other : fh ≠ batch.fh) :
    (ledger.settle batch).failed fh = ledger.failed fh ∧
      (ledger.settle batch).unsaved fh = ledger.unsaved fh := by
  unfold Ledger.settle
  split
  · exact ⟨rfl, Function.update_of_ne other _ _⟩
  split
  · exact ⟨rfl, rfl⟩
  · exact ⟨Function.update_of_ne other _ _, rfl⟩

theorem Matches.drop {handle : Option HandleBuffer}
    (matching : ledger.Matches fh handle)
    (clean : ∀ buffer, handle = some buffer → buffer.pending = false) :
    ledger.Matches fh none := by
  cases handle with
  | none => exact matching
  | some buffer =>
      have unsaved := matching.2
      rw [HandleBuffer.eq_clean_of_pending (clean buffer rfl)] at unsaved
      exact ⟨fun _ => unsaved, fun _ => matching.1⟩

theorem Callback.lookup_leave (callback : Callback) (fh other : Nat)
    (handles : Table Nat HandleBuffer) :
    (callback.leave fh handles).lookup other = handles.lookup other ∨
      other = fh ∧ (callback.leave fh handles).lookup other = none := by
  cases callback with
  | release =>
      simp only [Callback.leave, Table.lookup_erase_eq]
      split
      · rename_i same
        exact .inr ⟨same, rfl⟩
      · exact .inl rfl
  | _ => exact .inl rfl

private theorem matches_leave {callback : Callback} {handles : Table Nat HandleBuffer}
    {other : Nat} (matching : ledger.Matches other (handles.lookup other))
    (clean : ∀ buffer, handles.lookup fh = some buffer → buffer.pending = false) :
    ledger.Matches other ((callback.leave fh handles).lookup other) := by
  rcases Callback.lookup_leave callback fh other handles with same | ⟨rfl, dropped⟩
  · rw [same]
    exact matching
  · rw [dropped]
    exact matching.drop clean

theorem lookup_leave_of_none {callback : Callback} {handles : Table Nat HandleBuffer}
    {other : Nat} (missing : handles.lookup other = none) :
    (callback.leave fh handles).lookup other = none := by
  rcases Callback.lookup_leave callback fh other handles with same | ⟨_, dropped⟩
  · rw [same, missing]
  · exact dropped

private theorem Balanced.leaves (balanced : Balanced before ledger) {callback : Callback}
    (clean : ∀ buffer, before.openHandles.lookup fh = some buffer → buffer.pending = false)
    (handles : after.openHandles = callback.leave fh before.openHandles)
    (numbering : before.nextFh ≤ after.nextFh) : Balanced after ledger where
  handles other := by
    rw [handles]
    exact matches_leave (balanced.handles other) clean
  fresh other later := by
    have new := balanced.fresh other (numbering.trans later)
    rw [handles]
    exact ⟨lookup_leave_of_none new.1, new.2⟩

private def settledHandles (handles : Table Nat HandleBuffer) (fh : Nat) (handle : HandleBuffer)
    (committed : Bool) : Table Nat HandleBuffer :=
  if committed then handles.insert fh (.clean handle.parent handle.name) else handles.erase fh

private theorem lookup_settledHandles (handles : Table Nat HandleBuffer) (fh : Nat)
    (handle : HandleBuffer) (committed : Bool) (other : Nat) :
    (settledHandles handles fh handle committed).lookup other =
      if other = fh then
        if committed then some (HandleBuffer.clean handle.parent handle.name) else none
      else handles.lookup other := by
  cases committed with
  | false => simp [settledHandles, Table.lookup_erase_eq]
  | true => simp [settledHandles, Table.lookup_insert_eq]

private theorem Balanced.settles (balanced : Balanced before ledger) {handle : HandleBuffer}
    (found : before.openHandles.lookup fh = some handle) (committed : Bool) :
    Balanced (before.setHandles (settledHandles before.openHandles fh handle committed))
      (ledger.settle ⟨fh, handle.dirtyBlocks.keys, committed⟩) where
  handles other := by
    have matching := balanced.handles fh
    rw [found] at matching
    simp only [Mount.setHandles, lookup_settledHandles]
    split
    · rename_i same
      subst same
      exact matching.settle
    · rename_i different
      have kept := settle_other ledger ⟨fh, handle.dirtyBlocks.keys, committed⟩ different
      exact matches_congr (balanced.handles other) kept.1 kept.2
  fresh other later := by
    have new := balanced.fresh other later
    have different : other ≠ fh := by
      intro same
      rw [← same, new.1] at found
      cases found
    have kept := settle_other ledger ⟨fh, handle.dirtyBlocks.keys, committed⟩ different
    refine ⟨?_, kept.1.trans new.2.1, kept.2.trans new.2.2⟩
    simp only [Mount.setHandles, lookup_settledHandles, if_neg different]
    exact new.1

private theorem Balanced.flushStep (balanced : Balanced fs.mount ledger)
    (step : FlushStep fs exchange next fh)
    (target : fs.mount.flushTarget exchange.event.callback = some fh)
    (numbering : fs.nextFh ≤ next.nextFh) :
    Balanced next.mount (ledger.record fs exchange next) := by
  have silent := Mount.acknowledged_of_flushTarget target
  cases step with
  | refused errno noBatch replied handles =>
      rw [record_of_nothing silent noBatch]
      exact balanced.of_handles handles numbering
  | idle noBatch nothing handles =>
      rw [record_of_nothing silent noBatch]
      exact balanced.leaves nothing handles numbering
  | sent handle committed found batch replied handles =>
      rw [record_of_batch silent batch]
      have clean : ∀ buffer,
          (settledHandles fs.openHandles fh handle committed).lookup fh = some buffer →
            buffer.pending = false := by
        intro buffer present
        rw [lookup_settledHandles, if_pos rfl] at present
        cases committed with
        | true =>
            cases present
            rfl
        | false => cases present
      exact (balanced.settles found committed).leaves clean handles numbering

/-- Every step keeps the ledger balanced. -/
theorem Balanced.step (balanced : Balanced fs.mount ledger)
    (step : Step fs exchange next) : Balanced next.mount (ledger.record fs exchange next) := by
  cases target : fs.mount.flushTarget exchange.event.callback with
  | none =>
      exact balanced.handleStep (step.serves.handleStep target)
        (batchOf_of_flushTarget target)
  | some fh => exact balanced.flushStep (step.flushStep target) target step.serves.nextFh_le

end Ledger

namespace PgFs

def LedgerRun (db : Db) (attrTtl : Nat) : List Exchange → PgFs × Ledger → Prop :=
  Trace (Watched Step fun before exchange after => Ledger.record before exchange after)
    (withAttrTtl db attrTtl, .empty)

theorem balanced_of_run {db : Db} {attrTtl : Nat} {history : List Exchange} {fs : PgFs}
    {ledger : Ledger} (run : LedgerRun db attrTtl history (fs, ledger)) :
    ledger.Balanced fs.mount :=
  run.invariant (fun state => state.2.Balanced state.1.mount)
    (Ledger.balanced_initial db attrTtl) fun _ _ _ balanced step => by
      rw [step.2]
      exact balanced.step step.1

private theorem clean_of_flush_ok {fs next : PgFs} {exchange : Exchange} {fh : Nat}
    {ledger : Ledger} (step : Step fs exchange next) {ino given : Nat}
    (flushes : exchange.event.callback = .flush ino given ∨
      exchange.event.callback = .fsync ino given)
    (handled : fs.handleId ino given = some fh) (replied : exchange.reply = .ok .ok) :
    (∀ handle, next.openHandles.lookup fh = some handle → handle.pending = false) ∧
      (ledger.record fs exchange next).failed fh = ledger.failed fh := by
  have target : fs.mount.flushTarget exchange.event.callback = some fh := by
    rcases flushes with same | same <;> (rw [same]; exact handled)
  have stays : ∀ handles, exchange.event.callback.leave fh handles = handles := by
    rcases flushes with same | same <;> (rw [same]; exact fun _ => rfl)
  have silent := Mount.acknowledged_of_flushTarget target
  cases step.flushStep target with
  | refused errno _ refusal _ =>
      rw [replied] at refusal
      cases refusal
  | idle noBatch nothing handles =>
      rw [stays] at handles
      exact ⟨by rw [handles]; exact nothing, by rw [Ledger.record_of_nothing silent noBatch]⟩
  | sent handle committed found batch answered handles =>
      have answer := answered ino given flushes
      rw [replied] at answer
      cases committed with
      | false => cases answer
      | true =>
          rw [stays, if_pos rfl] at handles
          refine ⟨?_, by simp [Ledger.record, silent, batch, Ledger.settle]⟩
          intro other present
          rw [handles, Finmap.lookup_insert] at present
          cases present
          rfl

/-- A flush that reports success has saved every acknowledged block of the handle
exactly when no batch of the handle failed before: a failed batch takes the
handle with it. -/
theorem flush_ok_saves {db : Db} {attrTtl : Nat} {history : List Exchange} {fs : PgFs}
    {ledger : Ledger} (run : LedgerRun db attrTtl history (fs, ledger)) :
    (∀ exchange next ino given fh, Step fs exchange next →
      exchange.event.callback = .flush ino given ∨
        exchange.event.callback = .fsync ino given →
      fs.handleId ino given = some fh → exchange.reply = .ok .ok →
      ((ledger.record fs exchange next).unsaved fh = ∅ ↔ ledger.failed fh = false)) ∧
    ∀ exchange next batch, Step fs exchange next →
      fs.batchOf exchange.event = some batch → batch.committed = false →
      next.openHandles.lookup batch.fh = none := by
  have balanced := balanced_of_run run
  refine ⟨?_, ?_⟩
  · intro exchange next ino given fh step flushes handled replied
    rcases clean_of_flush_ok step flushes handled replied with ⟨clean, same⟩
    rw [← same]
    have matching := ((balanced.step step).handles fh).drop clean
    exact matching.symm
  · intro exchange next batch step sent failed
    cases target : fs.mount.flushTarget exchange.event.callback with
    | none =>
        rw [batchOf_of_flushTarget target] at sent
        cases sent
    | some fh =>
        cases step.flushStep target with
        | refused _ noBatch =>
            rw [noBatch] at sent
            cases sent
        | idle noBatch =>
            rw [noBatch] at sent
            cases sent
        | sent handle committed found same _ handles =>
            rw [same] at sent
            cases sent
            simp only at failed
            subst failed
            rw [handles, if_neg (by simp)]
            exact Ledger.lookup_leave_of_none (Finmap.lookup_erase fh fs.openHandles)

private theorem exists_ledgerRun (world : Nat → Moment) (events : List Event) (event : Event)
    (test : PgFs × Ledger → Except Errno Reply → PgFs → Bool)
    (tested : (replay (fun _ _ _ => True) Ledger.record events
      (withAttrTtl (.connect .empty false world) 1, .empty)).any (fun final =>
        (step event final.1).any fun outcome => test final outcome.1 outcome.2) = true) :
    ∃ history fs ledger reply next, LedgerRun (.connect .empty false world) 1 history (fs, ledger) ∧
      Step fs ⟨event, reply⟩ next ∧ test (fs, ledger) reply next = true := by
  rcases exists_step_of_replay event test tested with
    ⟨history, ⟨fs, ledger⟩, reply, next, run, step, seen⟩
  exact ⟨history, fs, ledger, reply, next, run.mono fun _ _ _ step => ⟨step.1.1, step.2⟩, step,
    seen⟩

theorem flush_ok_saves_write : ∃ history fs ledger exchange next,
    LedgerRun (.connect .empty false fun _ => {}) 1 history (fs, ledger) ∧
      Step fs exchange next ∧ exchange.reply = .ok .ok ∧ ledger.unsaved 1 = {0} ∧
      (ledger.record fs exchange next).unsaved 1 = ∅ := by
  rcases exists_ledgerRun (fun _ => {}) writeOneByte { callback := .flush 2 1 }
    (fun final reply _ => decide (final.2.failed 1 = false ∧ final.2.unsaved 1 = {0} ∧
      final.1.handleId 2 1 = some 1 ∧ reply = .ok .ok)) (by decide) with
    ⟨history, fs, ledger, reply, next, run, step, seen⟩
  rcases of_decide_eq_true seen with ⟨succeeded, owed, handled, replied⟩
  exact ⟨history, fs, ledger, _, next, run, step, replied, owed,
    ((flush_ok_saves run).1 _ next 2 1 1 step (.inl rfl) handled replied).mpr succeeded⟩

/-- The first flush of the byte fails and loses it, the second one reports
success. -/
theorem lost_write_behind_flush : ¬∀ db attrTtl history fs ledger,
    LedgerRun db attrTtl history (fs, ledger) →
    ∀ exchange next ino given fh, Step fs exchange next →
      exchange.event.callback = .flush ino given ∨
        exchange.event.callback = .fsync ino given →
      fs.handleId ino given = some fh → exchange.reply = .ok .ok →
      (ledger.record fs exchange next).unsaved fh = ∅ := by
  intro claimed
  rcases exists_ledgerRun (fun index => { fails := index == 4 })
    (writeOneByte ++ [{ callback := .flush 2 1 }]) { callback := .flush 2 1 }
    (fun final reply next => decide (final.1.handleId 2 1 = some 1 ∧ reply = .ok .ok ∧
      (final.2.record final.1 ⟨{ callback := .flush 2 1 }, reply⟩ next).unsaved 1 = {0}))
    (by decide) with
    ⟨history, fs, ledger, reply, next, run, step, seen⟩
  rcases of_decide_eq_true seen with ⟨handled, replied, owed⟩
  have saved := claimed _ _ history fs ledger run _ next 2 1 1 step (.inl rfl) handled replied
  rw [owed] at saved
  exact absurd saved (by decide)

end PgFs

end Pgfs
