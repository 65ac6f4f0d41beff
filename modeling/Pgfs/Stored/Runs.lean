import Pgfs.Fs.Fleet
import Pgfs.Stored.Rows

namespace Pgfs

open MachineInt PgFs

/-! What is stored and what is buffered stays well formed, whatever fails and however
the requests of several daemons follow one another. -/

def Callback.Sized : Callback → Prop
  | .setattr _ (some size) => size < 2 ^ 63
  | .write _ _ offset data => 0 ≤ offset ∧ offset + data.length < 2 ^ 63
  | _ => True

instance (callback : Callback) : Decidable callback.Sized :=
  match callback with
  | .setattr _ (some _) => inferInstanceAs (Decidable (_ < _))
  | .write .. => inferInstanceAs (Decidable (_ ∧ _))
  | .setattr _ none | .lookup .. | .getattr .. | .read .. | .open .. | .flush ..
  | .fsync .. | .release .. | .rename .. | .create .. | .mkdir .. | .unlink .. | .rmdir ..
  | .readdir .. => .isTrue trivial

theorem asU64_add_lt {offset : Int} {length : Nat} (nonneg : 0 ≤ offset)
    (fits : offset + length < 2 ^ 63) : asU64 offset + length < 2 ^ 63 := by
  unfold asU64
  omega

/-- Starting anew is always allowed. -/
def FleetEvent.Sized : FleetEvent → Prop
  | .served exchange => exchange.event.callback.Sized
  | .restarted .. => True

instance (exchange : Exchange) : Decidable (FleetEvent.served exchange).Sized :=
  inferInstanceAs (Decidable exchange.event.callback.Sized)

structure Mount.WellFormed (mount : Mount) : Prop where
  tables : mount.tables.WellFormed
  handles : ∀ fh buffer, mount.openHandles.lookup fh = some buffer → buffer.WellFormed

namespace Mount.WellFormed

variable {mount : Mount}

theorem setTables (wellFormed : mount.WellFormed) {tables : Tables}
    (stored : tables.WellFormed) : (mount.setTables tables).WellFormed :=
  ⟨stored, wellFormed.handles⟩

theorem insertHandle (wellFormed : mount.WellFormed) {buffer : HandleBuffer} (fh : Nat)
    (buffered : buffer.WellFormed) :
    (mount.setHandles (mount.openHandles.insert fh buffer)).WellFormed where
  tables := wellFormed.tables
  handles other otherBuffer found := by
    simp only [setHandles, Table.lookup_insert_eq] at found
    split at found
    · cases found
      exact buffered
    · exact wellFormed.handles other otherBuffer found

theorem eraseHandle (wellFormed : mount.WellFormed) (fh : Nat) :
    (mount.setHandles (mount.openHandles.erase fh)).WellFormed where
  tables := wellFormed.tables
  handles other buffer found := by
    simp only [setHandles, Table.lookup_erase_eq] at found
    split at found
    · cases found
    · exact wellFormed.handles other buffer found

end Mount.WellFormed

theorem HandleBuffer.wellFormed_clean (parent name : Str) :
    (clean parent name).WellFormed where
  maxSize := by simp [clean]
  blocks blockNo data dirty := by cases dirty

namespace PgFs

open Effect

variable {fs : PgFs}

private def StaysWellFormed (fs : PgFs) (body : FsM Value) : Prop :=
  Yields fs body (fun _ mount => mount.WellFormed) fun _ mount => mount.WellFormed

private theorem flushHandle_wellFormed (wellFormed : fs.mount.WellFormed) (fh : Nat) :
    StaysWellFormed fs (flushHandle fh) := by
  unfold StaysWellFormed flushHandle
  apply yields_get_bind
  cases found : fs.openHandles.lookup fh with
  | none => exact yields_pure wellFormed
  | some handle =>
      have buffer := wellFormed.handles fh handle found
      apply yields_modify_bind rfl
      have erased : (fs.setHandles (fs.openHandles.erase fh)).mount.WellFormed :=
        wellFormed.eraseHandle fh
      by_cases pending : handle.pending = true
      · simp only [if_pos pending]
        refine Yields.bind _ (yields_tryDb Db.writeBlocksBatch_rows) ?_
        rintro (failure | _) middle _ answered
        · apply yields_pure
          rw [answered.1]
          exact erased
        · rcases answered with ⟨tables, batch, equal⟩
          have stored := wellFormed.tables.batch batch buffer.maxSize buffer.blocks
          apply yields_modify_bind rfl
          apply yields_pure
          have middleWellFormed : middle.mount.WellFormed := by
            rw [equal]
            exact erased.setTables stored
          exact middleWellFormed.insertHandle fh
            (HandleBuffer.wellFormed_clean handle.parent handle.name)
      · simp only [if_neg pending]
        apply yields_modify_bind rfl
        exact yields_pure (erased.insertHandle fh buffer)

private theorem read_wellFormed (wellFormed : fs.mount.WellFormed) (ino fh : Nat)
    (offset : Int) (size : Nat) : StaysWellFormed fs (read ino fh offset size) := by
  unfold StaysWellFormed read
  apply yields_get_bind
  cases fs.handleId ino fh with
  | none => exact yields_readFile fun _ => wellFormed
  | some id =>
      simp only
      apply Yields.bind _ (flushHandle_wellFormed wellFormed id)
      intro result flushed _ flushedWellFormed
      exact yields_readFile fun _ => flushedWellFormed

private theorem flush_wellFormed (wellFormed : fs.mount.WellFormed) (ino fh : Nat) :
    StaysWellFormed fs (flush ino fh) := by
  unfold StaysWellFormed flush
  apply yields_get_bind
  cases fs.handleId ino fh with
  | none => exact yields_pure wellFormed
  | some id =>
      simp only
      apply Yields.bind _ (flushHandle_wellFormed wellFormed id)
      intro result flushed _ flushedWellFormed
      cases result with
      | error failure =>
          apply yields_modify_bind rfl
          exact yields_raise flushedWellFormed
      | ok _ => exact yields_pure flushedWellFormed

private theorem release_wellFormed (wellFormed : fs.mount.WellFormed) (ino fh : Nat) :
    StaysWellFormed fs (release ino fh) := by
  unfold StaysWellFormed release
  apply yields_get_bind
  apply Yields.bind _ (flushHandle_wellFormed wellFormed _)
  intro result flushed _ flushedWellFormed
  apply yields_modify_bind rfl
  apply yields_pure
  have dropped := flushedWellFormed.eraseHandle ((fs.handleId ino fh).getD 0)
  exact ⟨dropped.tables, dropped.handles⟩

private theorem write_wellFormed (wellFormed : fs.mount.WellFormed) (ino fh : Nat)
    {offset : Int} {data : List UInt8}
    (fits : MachineInt.asU64 offset + data.length < 2 ^ 63) :
    StaysWellFormed fs (write ino fh offset data) := by
  unfold StaysWellFormed write
  apply yields_get_bind
  split
  · rename_i id buffer target
    simp only [Option.bind_eq_some_iff, Option.map_eq_some_iff, Prod.mk.injEq] at target
    rcases target with ⟨id, handled, buffer, found, rfl, rfl⟩
    apply Yields.bind (fun next mount => mount.WellFormed ∧ next.WellFormed)
    · apply yields_orAbort
      intro next written
      exact ⟨wellFormed, (wellFormed.handles id buffer found).write written fits⟩
    · rintro next middle _ ⟨middleWellFormed, buffered⟩
      apply yields_modify_bind rfl
      exact yields_pure (middleWellFormed.insertHandle id buffered)
  · unfold writeThrough
    apply Yields.bind _ (yields_pathOrEnoent ino wellFormed)
    rintro path found _ ⟨foundSame, _⟩
    rw [← foundSame] at wellFormed
    apply Yields.bind (fun _ mount => mount.WellFormed)
    · apply yields_callDb (Db.writeRange_wellFormed wellFormed.tables fits) _ wellFormed
      intro _ tables stored
      exact wellFormed.setTables stored
    · intro _ written _ writtenWellFormed
      exact yields_pure writtenWellFormed

end PgFs

private def Callback.stores : Callback → Bool
  | .read .. | .write .. | .flush .. | .fsync .. | .release .. => true
  | _ => false

private theorem Serves.wellFormed {quiet alone : Prop} {before after : Mount}
    {callback : Callback} {reply : Except Errno Reply}
    (serves : Serves quiet alone before callback reply after)
    (storesNothing : callback.stores = false) (sized : callback.Sized)
    (wellFormed : before.WellFormed) : after.WellFormed := by
  have stored := wellFormed.tables
  have buffered := wellFormed.handles
  have opened key := (wellFormed.insertHandle before.nextFh
    (HandleBuffer.wellFormed_clean (Key.parent key) (Key.name key))).handles
  cases serves with
  | truncate ino newSize path reply tables resolved truncated =>
      exact ⟨stored.truncated truncated sized, buffered⟩
  | flushRead => cases storesNothing
  | writeThrough => cases storesNothing
  | buffer => cases storesNothing
  | release => cases storesNothing
  | flush ino fh id callback succeeded next flushes =>
      rcases flushes with rfl | rfl <;> cases storesNothing
  | «open» ino path resolved => exact ⟨stored, opened _⟩
  | rename parent newparent flags old new kind tables order _ _ _ _ renamed =>
      exact ⟨stored.renamed renamed, buffered⟩
  | create parent key now => exact ⟨stored.insertEntry now (.inl rfl), opened _⟩
  | mkdir parent key now => exact ⟨stored.insertEntry now (.inr rfl), buffered⟩
  | unlink parent key => exact ⟨(stored.deleteEntry key).deleteBlocks key, buffered⟩
  | unlinkHalf parent key => exact ⟨stored.deleteEntry key, buffered⟩
  | rmdir parent key => exact ⟨stored.deleteEntry key, buffered⟩
  | _ => exact ⟨stored, buffered⟩

namespace PgFs

variable {fs next : PgFs}

private theorem serve_wellFormed (wellFormed : fs.mount.WellFormed) {callback : Callback}
    (sized : callback.Sized) : StaysWellFormed fs (serve callback) := by
  by_cases storesNothing : callback.stores = false
  · exact (serve_serving callback).imp
      (fun _ _ serves => serves.wellFormed storesNothing sized wellFormed)
      fun _ _ serves => serves.wellFormed storesNothing sized wellFormed
  · cases callback with
    | read ino fh offset size => exact read_wellFormed wellFormed ino fh offset size
    | write ino fh offset data =>
        exact write_wellFormed wellFormed ino fh (asU64_add_lt sized.1 sized.2)
    | flush ino fh => exact flush_wellFormed wellFormed ino fh
    | fsync ino fh => exact flush_wellFormed wellFormed ino fh
    | release ino fh => exact release_wellFormed wellFormed ino fh
    | _ => exact absurd rfl storesNothing

theorem Step.wellFormed {exchange : Exchange} (step : Step fs exchange next)
    (sized : exchange.event.callback.Sized) (wellFormed : fs.mount.WellFormed) :
    next.mount.WellFormed := by
  have yields : StaysWellFormed fs (PgFs.step exchange.event) := by
    unfold StaysWellFormed PgFs.step
    split
    · apply Yields.bind _ (yields_preamble exchange.event fun _ => wellFormed)
      intro _ ready _ same
      exact serve_wellFormed (same ▸ wellFormed) sized
    · exact serve_wellFormed wellFormed sized
  have done := yields _ _ step
  cases reply : exchange.reply with
  | ok value =>
      rw [reply] at done
      exact done.2
  | error errno =>
      rw [reply] at done
      exact done.2

end PgFs

/-! ## Runs -/

namespace Tables

theorem WellFormed.readable {tables : Tables} (wellFormed : tables.WellFormed) :
    (∀ key, ∃ found, tables.attributes key = .ok found) ∧
      ∀ path, ∃ listed, Db.rowsToMeta (tables.children path) = .ok listed :=
  ⟨fun key => (wellFormed.attributes key).imp fun _ known => known.1,
    wellFormed.listing⟩

end Tables

/-- In a fleet of daemons on an empty database, whatever fails and in whatever order the
requests are served, every entry can be read, every directory listed, and every stored
or buffered block has a block number and at most as many bytes as a block. -/
theorem stored_rows_wellFormed {Daemon : Type} [DecidableEq Daemon] {start fleet : Fleet Daemon}
    {turns : List (Daemon × FleetEvent)}
    (run : FleetRun (fun _ event => event.Sized) start turns fleet)
    (empty : start.shared = .empty)
    (fresh : ∀ daemon, (start.own daemon).openHandles = ∅) :
    (∀ key, ∃ found, fleet.shared.attributes key = .ok found) ∧
    (∀ path, ∃ listed, Db.rowsToMeta (fleet.shared.children path) = .ok listed) ∧
    (∀ key blockNo data, fleet.shared.block key blockNo = some data →
      BlockFits blockNo data) ∧
    ∀ daemon fh buffer, (fleet.own daemon).openHandles.lookup fh = some buffer →
      buffer.WellFormed := by
  have kept := Turns.invariant run (fun tables => tables.WellFormed)
    (fun fs => ∀ fh buffer, fs.openHandles.lookup fh = some buffer → buffer.WellFormed)
    (empty ▸ Tables.WellFormed.of_empty) ?_ ?_
  · exact ⟨kept.1.readable.1, kept.1.readable.2, kept.1.blocks, kept.2⟩
  · intro daemon fh buffer found
    rw [fresh] at found
    cases found
  · intro tables fs event tablesAfter next wellFormed handles taken
    rcases taken with ⟨sized, taken⟩
    cases event with
    | served exchange =>
        have done := taken.1.wellFormed sized ⟨wellFormed, handles⟩
        have same : tablesAfter = next.db.tables := taken.2
        exact ⟨same ▸ done.tables, done.handles⟩
    | restarted replica world attrTtl =>
        have same : tablesAfter = tables := taken.1
        have anew : next = withAttrTtl (.connect tables replica world) attrTtl := taken.2
        refine ⟨same ▸ wellFormed, fun fh buffer found => ?_⟩
        rw [anew] at found
        cases found

/-- A byte is buffered on one daemon, the other removes the file and is started anew,
and the first one flushes. -/
theorem stored_rows_wellFormed_twoDaemons :
    ∃ (turns : List (Bool × FleetEvent)) (fleet : Fleet Bool),
      FleetRun (fun _ event => event.Sized) .fresh turns fleet ∧
      fleet.shared.block ⟨[], ['a']⟩ 0 = some [7] ∧
      (∀ key, ∃ found, fleet.shared.attributes key = .ok found) ∧
      (∀ path, ∃ listed, Db.rowsToMeta (fleet.shared.children path) = .ok listed) ∧
      (∀ key blockNo data, fleet.shared.block key blockNo = some data →
        BlockFits blockNo data) ∧
      ∀ daemon fh buffer, (fleet.own daemon).openHandles.lookup fh = some buffer →
        buffer.WellFormed := by
  have played : (Fleet.replay (fun _ event => event.Sized) (fun _ _ _ => id)
      ((writeOneByte.map fun event => (true, some event)) ++
        [(false, some { callback := .unlink 1 (some ['a']) }), (false, none),
          (true, some { callback := .flush 2 1 })])
      (.fresh, ())).any
      (fun final => decide (final.1.shared.block ⟨[], ['a']⟩ 0 = some [7])) = true := by
    decide +kernel
  rcases Fleet.exists_run_of_replay (fun _ => trivial)
    (fun fleet => decide (fleet.shared.block ⟨[], ['a']⟩ 0 = some [7])) played with
    ⟨turns, fleet, run, stored⟩
  exact ⟨turns, fleet, run, of_decide_eq_true stored,
    stored_rows_wellFormed run rfl fun _ => rfl⟩

end Pgfs
