import Pgfs.Db.Overwriting
import Pgfs.Handles.Overlay
import Pgfs.Handles.TruncateOrder

namespace Pgfs

open MachineInt Blocked

/-! Buffered writes against direct ones. A buffer starts each block empty and a flush
replaces the stored block, so what an earlier flush left in the block is lost. -/

/-! ## Writes between flushes -/

/-- The writes since a handle was opened: those that each flush stored, and those that
are still buffered. -/
structure WriteLog where
  batches : List (List RangeWrite)
  pending : List RangeWrite

namespace WriteLog

def empty : WriteLog := ⟨[], []⟩

def record (log : WriteLog) : Callback → WriteLog
  | .write _ _ offset data => { log with pending := log.pending ++ [⟨asU64 offset, data⟩] }
  | _ => ⟨log.batches ++ [log.pending], []⟩

def ofCallbacks (callbacks : List Callback) : WriteLog := callbacks.foldl record empty

def writes (log : WriteLog) : List RangeWrite := log.batches.flatten ++ log.pending

theorem ofCallbacks_append (callbacks : List Callback) (last : Callback) :
    ofCallbacks (callbacks ++ [last]) = (ofCallbacks callbacks).record last := by
  unfold ofCallbacks
  rw [List.foldl_append]
  rfl

end WriteLog

def Callback.range : Callback → Option RangeWrite
  | .write _ _ offset data => some ⟨asU64 offset, data⟩
  | _ => none

theorem writes_ofCallbacks (callbacks : List Callback) :
    (WriteLog.ofCallbacks callbacks).writes = callbacks.filterMap Callback.range := by
  induction callbacks using List.reverseRecOn with
  | nil => rfl
  | append_singleton callbacks last induction =>
      rw [WriteLog.ofCallbacks_append, List.filterMap_append, ← induction]
      cases last <;> simp [WriteLog.record, WriteLog.writes, Callback.range]

def TouchesBlock (batch : List RangeWrite) (blockNo : Int) : Prop :=
  ∃ write ∈ batch, write.touches blockNo

/-- The last batch with a write in the block of the position has none at the position. -/
def Erased (batches : List (List RangeWrite)) (index : Nat) : Prop :=
  ∃ earlier batch later, batches = earlier ++ batch :: later ∧
    TouchesBlock batch (blockOf blockSize index) ∧ (∀ write ∈ batch, ¬write.covers index) ∧
      ∀ other ∈ later, ¬TouchesBlock other (blockOf blockSize index)

theorem not_erased_nil (index : Nat) : ¬Erased [] index := by
  intro erased
  rcases erased with ⟨earlier, batch, later, whole, _⟩
  cases earlier <;> cases whole

theorem erased_append_of_touches {batches : List (List RangeWrite)} {batch : List RangeWrite}
    {index : Nat} (touches : TouchesBlock batch (blockOf blockSize index)) :
    Erased (batches ++ [batch]) index ↔ ∀ write ∈ batch, ¬write.covers index := by
  constructor
  · intro erased
    rcases erased with ⟨earlier, found, later, whole, _, uncovered, untouched⟩
    rcases List.eq_nil_or_concat later with ended | ⟨rest, last, ends⟩
    · subst ended
      have same := List.singleton_inj.mp (List.append_inj_right' whole rfl)
      rw [same]
      exact uncovered
    · rw [ends, List.concat_eq_append, ← List.cons_append, ← List.append_assoc] at whole
      have same := List.singleton_inj.mp (List.append_inj_right' whole rfl)
      exact absurd (same ▸ touches) (untouched last (by simp [ends]))
  · intro uncovered
    exact ⟨batches, batch, [], rfl, touches, uncovered, by simp⟩

theorem erased_append_of_not_touches {batches : List (List RangeWrite)}
    {batch : List RangeWrite} {index : Nat}
    (untouched : ¬TouchesBlock batch (blockOf blockSize index)) :
    Erased (batches ++ [batch]) index ↔ Erased batches index := by
  constructor
  · intro erased
    rcases erased with ⟨earlier, found, later, whole, touches, uncovered, later_untouched⟩
    rcases List.eq_nil_or_concat later with ended | ⟨rest, last, ends⟩
    · subst ended
      have same := List.singleton_inj.mp (List.append_inj_right' whole rfl)
      exact absurd (same ▸ touches) untouched
    · rw [ends, List.concat_eq_append, ← List.cons_append, ← List.append_assoc] at whole
      refine ⟨earlier, found, rest, List.append_inj_left' whole rfl, touches, uncovered, ?_⟩
      intro other member
      exact later_untouched other (by simp [ends, member])
  · intro erased
    rcases erased with ⟨earlier, found, later, whole, touches, uncovered, later_untouched⟩
    refine ⟨earlier, found, later ++ [batch], by simp [whole], touches, uncovered, ?_⟩
    intro other member
    rcases List.mem_append.mp member with before | last
    · exact later_untouched other before
    · rw [List.mem_singleton.mp last]
      exact untouched

theorem Erased.lt_addressable {batches : List (List RangeWrite)} {index : Nat}
    (erased : Erased batches index) (fits : ∀ write ∈ batches.flatten, write.Fits) :
    index < addressable := by
  rcases erased with ⟨earlier, batch, later, whole, touches, _⟩
  rcases touches with ⟨write, member, source, covered, sameBlock⟩
  have inside : write.Fits := fits write (by
    rw [whole]
    simp only [List.flatten_append, List.flatten_cons, List.mem_append]
    exact Or.inr (Or.inl member))
  have below : write.offset + write.data.length ≤ addressable := inside
  have bounds : source < write.offset + write.data.length := covered.2
  have quotient : source / blockSize = index / blockSize := by
    unfold blockOf at sameBlock
    exact Int.ofNat_inj.mp sameBlock
  rw [addressable_eq] at below ⊢
  rw [blockSize_eq] at quotient
  omega

/-! ## Requests through one handle -/

def Callback.Through (ino fh : Nat) : Callback → Prop
  | .write other handle offset data =>
      other = ino ∧ handle = fh ∧ asU64 offset + data.length ≤ addressable
  | .read other handle offset size =>
      other = ino ∧ handle = fh ∧ asU64 offset + size ≤ addressable
  | .flush other handle | .fsync other handle => other = ino ∧ handle = fh
  | _ => False

/-- What the requests so far leave of a file that had a size and bytes: every flushed
batch is stored, but in the blocks that it touches the rest is gone. -/
structure WrittenBack (key : Key) (ino fh id size : Nat) (bytes : Nat → UInt8)
    (log : WriteLog) (mount : Mount) : Prop where
  handled : mount.handleId ino fh = some id
  buffer : ∃ buffer, mount.openHandles.lookup id = some buffer ∧
    buffer.Carries key log.pending
  fits : ∀ write ∈ log.writes, write.Fits
  size : mount.tables.FileAt key (max size (greatestStop log.batches.flatten))
  erased : ∀ index, Erased log.batches index → mount.tables.bytes key index = 0
  kept : ∀ index, ¬Erased log.batches index → mount.tables.bytes key index =
    (lastWritten log.batches.flatten index).getD (bytes index)

namespace WrittenBack

variable {key : Key} {ino fh id size : Nat} {bytes : Nat → UInt8} {log : WriteLog}
  {mount next : Mount}

theorem opened {parent name : Str} (handled : mount.handleId ino fh = some id)
    (found : mount.openHandles.lookup id = some (.clean parent name))
    (file : mount.tables.FileAt ⟨parent, name⟩ size) :
    WrittenBack ⟨parent, name⟩ ino fh id size (mount.tables.bytes ⟨parent, name⟩) .empty
      mount where
  handled := handled
  buffer := ⟨_, found, HandleBuffer.carries_clean parent name⟩
  fits := by simp [WriteLog.empty, WriteLog.writes]
  size := by simpa [WriteLog.empty, greatestStop] using file
  erased index gone := absurd gone (not_erased_nil index)
  kept index _ := rfl

theorem write (back : WrittenBack key ino fh id size bytes log mount) {last : RangeWrite}
    (fits : last.Fits) :
    ∃ buffer written, mount.openHandles.lookup id = some buffer ∧
      buffer.write last.offset last.data = some written ∧
      WrittenBack key ino fh id size bytes { log with pending := log.pending ++ [last] }
        (mount.setHandles (mount.openHandles.insert id written)) := by
  rcases back.buffer with ⟨buffer, found, carries⟩
  rcases HandleBuffer.exists_write fits buffer with ⟨written, run⟩
  refine ⟨buffer, written, found, run, ?_⟩
  constructor
  · exact back.handled
  · exact ⟨written, Finmap.lookup_insert _, carries.write fits run⟩
  · intro write member
    rw [WriteLog.writes, ← List.append_assoc, List.mem_append, List.mem_singleton] at member
    rcases member with earlier | new
    · exact back.fits write earlier
    · rw [new]
      exact fits
  · exact back.size
  · exact back.erased
  · exact back.kept

private theorem dirty_iff {buffer : HandleBuffer} {pending : List RangeWrite}
    (carries : buffer.Carries key pending) (blockNo : Int) :
    (buffer.dirtyBlocks.lookup blockNo).isSome ↔ TouchesBlock pending blockNo := by
  have member := @Finmap.mem_iff _ _ _ blockNo buffer.dirtyBlocks
  rw [Option.isSome_iff_exists, ← member, carries.holds.dirty]
  constructor
  · intro found
    rcases found with ⟨index, written, inBlock⟩
    rcases isSome_lastWritten.mp written with ⟨write, member, covered⟩
    exact ⟨write, member, index, covered, inBlock⟩
  · intro touches
    rcases touches with ⟨write, member, index, covered, inBlock⟩
    exact ⟨index, isSome_lastWritten.mpr ⟨write, member, covered⟩, inBlock⟩

private theorem bytes_of_batch {buffer : HandleBuffer} {pending : List RangeWrite}
    {before after : Tables} (carries : buffer.Carries key pending)
    (batch : Db.BatchStored key buffer.dirtyBlocks buffer.maxSize before after) (index : Nat) :
    (TouchesBlock pending (blockOf blockSize index) →
      after.bytes key index = (lastWritten pending index).getD 0) ∧
    (¬TouchesBlock pending (blockOf blockSize index) →
      after.bytes key index = before.bytes key index) := by
  have stored : after.bytes key index =
      if (buffer.dirtyBlocks.lookup (blockOf blockSize index)).isSome then
        (lastWritten pending index).getD 0
      else
        before.bytes key index := by
    unfold Tables.bytes
    rw [funext batch.blocks, flat_or, carries.holds.bytes]
  constructor
  · intro touches
    rw [stored, if_pos ((dirty_iff carries _).mpr touches)]
  · intro untouched
    rw [stored, if_neg (mt (dirty_iff carries _).mp untouched)]

theorem flush (back : WrittenBack key ino fh id size bytes log mount) (sized : size < 2 ^ 63)
    {quiet : Prop} {succeeded : Bool} (flushed : Flushed quiet mount id succeeded next)
    (stays : id ∈ next.openHandles) :
    WrittenBack key ino fh id size bytes ⟨log.batches ++ [log.pending], []⟩ next := by
  rcases back.buffer with ⟨buffer, found, carries⟩
  rcases flushed.stores_of_mem found stays with ⟨batch, reached⟩
  rw [carries.key] at batch
  have stored := bytes_of_batch carries batch
  have bounded : addressable < 2 ^ 63 := by decide
  have flattened : (log.batches ++ [log.pending]).flatten =
      log.batches.flatten ++ log.pending := by simp
  constructor
  · rw [reached]
    exact back.handled
  · refine ⟨.clean buffer.parent buffer.name, ?_, ?_⟩
    · rw [reached]
      exact Finmap.lookup_insert _
    · rw [← carries.key]
      exact HandleBuffer.carries_clean _ _
  · intro write member
    rw [WriteLog.writes, flattened, List.append_nil] at member
    exact back.fits write member
  · rw [flattened, greatestStop_append_all, ← max_assoc, ← carries.maxSize]
    have reach := greatestStop_le fun write member =>
      back.fits write (List.mem_append_left _ member)
    have pendingReach := greatestStop_le fun write member =>
      back.fits write (List.mem_append_right _ member)
    exact batch.size _ back.size (by rw [carries.maxSize]; omega)
  · intro index gone
    by_cases touches : TouchesBlock log.pending (blockOf blockSize index)
    · have uncovered := (erased_append_of_touches touches).mp gone
      rw [(stored index).1 touches, lastWritten_eq_none.mpr uncovered]
      rfl
    · rw [(stored index).2 touches]
      exact back.erased index ((erased_append_of_not_touches touches).mp gone)
  · intro index survives
    rw [flattened, lastWritten_append_all]
    by_cases touches : TouchesBlock log.pending (blockOf blockSize index)
    · rw [erased_append_of_touches touches, ← lastWritten_eq_none] at survives
      rcases Option.ne_none_iff_exists'.mp survives with ⟨byte, last⟩
      rw [(stored index).1 touches, last]
      rfl
    · rw [erased_append_of_not_touches touches] at survives
      have uncovered : ∀ write ∈ log.pending, ¬write.covers index :=
        fun write member covered => touches ⟨write, member, index, covered, rfl⟩
      rw [(stored index).2 touches, lastWritten_eq_none.mpr uncovered,
        back.kept index survives]
      rfl

end WrittenBack

namespace PgFs

variable {fs final : PgFs} {key : Key} {ino fh id size : Nat} {bytes : Nat → UInt8}
  {log : WriteLog} {parent name : Str} {events : List Event}

/-- A request through the handle is served. When no statement fails it keeps the handle,
and when it does, the file is written back as logged. -/
theorem exists_step_through {event : Event} (sized : size < 2 ^ 63)
    (back : WrittenBack key ino fh id size bytes log fs.mount) (alive : event.alive = true)
    (through : event.callback.Through ino fh) :
    ∃ reply next, step event fs = some (reply, next) ∧ Db.SameWorld fs.db next.db ∧
      (Db.Quiet fs.db → id ∈ next.openHandles) ∧
      (id ∈ next.openHandles →
        WrittenBack key ino fh id size bytes (log.record event.callback) next.mount) := by
  have readable : ∀ buffer : HandleBuffer, buffer.Carries key log.pending →
      ¬∃ failure, fs.mount.tables.attributes buffer.key = .error failure := by
    intro buffer carries unreadable
    rcases unreadable with ⟨failure, unreadable⟩
    rcases back.size.attributes with ⟨mtime, known⟩
    rw [carries.key] at unreadable
    cases known.symm.trans unreadable
  have ends : ∀ {succeeded : Bool} {next : PgFs},
      Flushed (Db.Quiet fs.db) fs.mount id succeeded next.mount →
      (Db.Quiet fs.db → id ∈ next.openHandles) ∧
        (id ∈ next.openHandles → WrittenBack key ino fh id size bytes
          ⟨log.batches ++ [log.pending], []⟩ next.mount) := by
    intro succeeded next flushed
    rcases back.buffer with ⟨buffer, found, carries⟩
    exact ⟨fun quiet => flushed.mem_of_readable quiet found (readable buffer carries),
      fun stays => back.flush sized flushed stays⟩
  generalize called : event.callback = callback at through
  cases callback with
  | write other handle offset data =>
      rcases through with ⟨rfl, rfl, fits⟩
      rcases back.write (show RangeWrite.Fits ⟨asU64 offset, data⟩ from fits) with
        ⟨buffer, written, found, run, logged⟩
      rcases exists_step_write alive called back.handled found run with
        ⟨next, served, world, reached⟩
      have handles : next.openHandles = fs.openHandles.insert id written :=
        congrArg Mount.openHandles reached
      refine ⟨_, next, served, world, fun _ => ?_, fun _ => ?_⟩
      · rw [handles]
        exact Finmap.mem_insert.mpr (Or.inl rfl)
      · rw [reached]
        exact logged
  | read other handle offset length =>
      rcases through with ⟨rfl, rfl, fits⟩
      rcases exists_step_read alive called fits back.handled with
        ⟨reply, next, succeeded, served, world, flushed⟩
      exact ⟨reply, next, served, world, ends flushed⟩
  | flush other handle =>
      rcases through with ⟨rfl, rfl⟩
      rcases exists_step_flush alive (Or.inl called) back.handled with
        ⟨reply, next, succeeded, served, world, flushed⟩
      exact ⟨reply, next, served, world, ends flushed⟩
  | fsync other handle =>
      rcases through with ⟨rfl, rfl⟩
      rcases exists_step_flush alive (Or.inr called) back.handled with
        ⟨reply, next, succeeded, served, world, flushed⟩
      exact ⟨reply, next, served, world, ends flushed⟩
  | _ => exact through.elim

/-- A step that keeps the handle, as a failing flush would not. -/
def HandleKept (id : Nat) : PgFs → Exchange → PgFs → Prop :=
  StepWhere fun _ _ after => id ∈ after.openHandles

theorem writtenBack_of_run {history : List Exchange} (sized : size < 2 ^ 63)
    (back : WrittenBack key ino fh id size bytes .empty fs.mount)
    (run : Trace (HandleKept id) fs history final)
    (through : ∀ exchange ∈ history,
      exchange.event.alive = true ∧ exchange.event.callback.Through ino fh) :
    WrittenBack key ino fh id size bytes
      (.ofCallbacks (history.map (·.event.callback))) final.mount := by
  induction run with
  | nil => exact back
  | snoc earlier last induction =>
      rename_i before exchange after
      have logged := induction fun other member => through other (List.mem_append_left _ member)
      rcases through exchange (by simp) with ⟨alive, addressed⟩
      rcases exists_step_through sized logged alive addressed with
        ⟨reply, next, served, _, _, reached⟩
      have same : step exchange.event _ = some (exchange.reply, _) := last.1
      rw [served] at same
      cases same
      rw [List.map_append, List.map_singleton, WriteLog.ofCallbacks_append]
      exact reached last.2

theorem exists_run_through (quiet : Db.Quiet fs.db) (sized : size < 2 ^ 63)
    (back : WrittenBack key ino fh id size bytes .empty fs.mount)
    (through : ∀ event ∈ events, event.alive = true ∧ event.callback.Through ino fh) :
    ∃ history final, Trace (HandleKept id) fs history final ∧
      history.map (·.event) = events ∧ Db.SameWorld fs.db final.db ∧
      WrittenBack key ino fh id size bytes (.ofCallbacks (events.map (·.callback)))
        final.mount := by
  induction events using List.reverseRecOn with
  | nil => exact ⟨[], fs, .nil, rfl, .refl _, back⟩
  | append_singleton events last induction =>
      rcases induction fun other member => through other (List.mem_append_left _ member) with
        ⟨history, middle, run, same, world, logged⟩
      rcases through last (by simp) with ⟨alive, addressed⟩
      rcases exists_step_through sized logged alive addressed with
        ⟨reply, next, served, nextWorld, stays, reached⟩
      have kept := stays (world.quiet quiet)
      have here : HandleKept id middle ⟨last, reply⟩ next := ⟨served, kept⟩
      refine ⟨history ++ [⟨last, reply⟩], next, .snoc run here, ?_,
        world.trans nextWorld, ?_⟩
      · rw [List.map_append, same]
        rfl
      · rw [List.map_append, List.map_singleton, WriteLog.ofCallbacks_append]
        exact reached kept

/-- Two readers of a file: one after a run through the handle that keeps it, the other
after the same writes were made directly. -/
structure BothWays (fs : PgFs) (id : Nat) (parent name : Str) (events : List Event)
    (buffered direct : Db) : Prop where
  quiet : Db.Quiet buffered
  directQuiet : Db.Quiet direct
  run : ∃ history final, Trace (HandleKept id) fs history final ∧
    history.map (·.event) = events ∧ buffered.tables = final.db.tables
  written : ∃ start final, start.tables = fs.db.tables ∧
    Db.writeRanges parent name (events.filterMap (·.callback.range)) start =
      some (.ok (), final) ∧ direct.tables = final.tables

theorem fits_of_through
    (through : ∀ event ∈ events, event.alive = true ∧ event.callback.Through ino fh) :
    ∀ write ∈ events.filterMap (·.callback.range), write.Fits := by
  intro write member
  rcases List.mem_filterMap.mp member with ⟨event, listed, ranged⟩
  have addressed := (through event listed).2
  cases called : event.callback with
  | write other handle offset data =>
      rw [called] at ranged addressed
      cases ranged
      exact addressed.2.2
  | _ =>
      rw [called] at ranged
      cases ranged

theorem exists_bothWays (quiet : Db.Quiet fs.db) (handled : fs.handleId ino fh = some id)
    (opened : fs.openHandles.lookup id = some (.clean parent name))
    (file : fs.db.tables.FileAt ⟨parent, name⟩ size) (sized : size < 2 ^ 63)
    (through : ∀ event ∈ events, event.alive = true ∧ event.callback.Through ino fh) :
    ∃ buffered direct, BothWays fs id parent name events buffered direct := by
  have back : WrittenBack ⟨parent, name⟩ ino fh id size
      (fs.mount.tables.bytes ⟨parent, name⟩) .empty fs.mount := .opened handled opened file
  rcases exists_run_through quiet sized back through with ⟨history, final, run, same, _, _⟩
  rcases Db.writeRanges_overlay (fits_of_through through) file sized with
    ⟨outcome, after, ran, succeeds, _⟩
  rw [succeeds quiet] at ran
  exact ⟨fs.db.setTables final.db.tables, fs.db.setTables after.tables, quiet, quiet,
    ⟨history, final, run, same, rfl⟩, ⟨fs.db, after, rfl, ran, rfl⟩⟩

theorem BothWays.states {buffered direct : Db}
    (both : BothWays fs id parent name events buffered direct)
    (handled : fs.handleId ino fh = some id)
    (opened : fs.openHandles.lookup id = some (.clean parent name))
    (file : fs.db.tables.FileAt ⟨parent, name⟩ size) (sized : size < 2 ^ 63)
    (through : ∀ event ∈ events, event.alive = true ∧ event.callback.Through ino fh) :
    (∃ final : PgFs, buffered.tables = final.db.tables ∧
      WrittenBack ⟨parent, name⟩ ino fh id size (fs.db.tables.bytes ⟨parent, name⟩)
        (.ofCallbacks (events.map (·.callback))) final.mount) ∧
      Db.AllWritten ⟨parent, name⟩ size (events.filterMap (·.callback.range)) fs.db.tables
        direct.tables := by
  have back : WrittenBack ⟨parent, name⟩ ino fh id size
      (fs.mount.tables.bytes ⟨parent, name⟩) .empty fs.mount := .opened handled opened file
  constructor
  · rcases both.run with ⟨history, final, run, same, tables⟩
    refine ⟨final, tables, ?_⟩
    rw [← same, List.map_map]
    apply writtenBack_of_run sized back run
    intro exchange member
    exact through _ (same ▸ List.mem_map_of_mem member)
  · rcases both.written with ⟨start, final, tables, run, reached⟩
    rw [← tables] at file ⊢
    rcases Db.writeRanges_overlay (fits_of_through through) file sized with ⟨outcome, after, ran, _, written⟩
    rw [run] at ran
    cases ran
    rw [reached]
    exact written rfl

/-- Buffered writes leave the size and the contents that direct ones leave exactly when no
position below the size that its last batch erases should hold a nonzero byte. -/
theorem buffered_writes_agree_iff (handled : fs.handleId ino fh = some id)
    (opened : fs.openHandles.lookup id = some (.clean parent name))
    (file : fs.db.tables.FileAt ⟨parent, name⟩ size) (sized : size < 2 ^ 63)
    (through : ∀ event ∈ events, event.alive = true ∧ event.callback.Through ino fh)
    (flushed : (WriteLog.ofCallbacks (events.map (·.callback))).pending = []) :
    (Db.Quiet fs.db → ∃ buffered direct, BothWays fs id parent name events buffered direct) ∧
    ∀ buffered direct, BothWays fs id parent name events buffered direct →
      (SameContents ⟨parent, name⟩ buffered direct ↔
        ∀ index < max size (greatestStop (events.filterMap (·.callback.range))),
          Erased (WriteLog.ofCallbacks (events.map (·.callback))).batches index →
            (lastWritten (events.filterMap (·.callback.range)) index).getD
              (fs.db.tables.bytes ⟨parent, name⟩ index) = 0) := by
  constructor
  · intro quiet
    exact exists_bothWays quiet handled opened file sized through
  · intro buffered direct both
    rcases both.states handled opened file sized through with ⟨⟨final, tables, logged⟩, written⟩
    have all := writes_ofCallbacks (events.map (·.callback))
    rw [WriteLog.writes, flushed, List.append_nil, List.filterMap_map] at all
    have writes : (WriteLog.ofCallbacks (events.map (·.callback))).batches.flatten =
        events.filterMap (·.callback.range) := all
    have stored := logged.size
    have erased := logged.erased
    have kept := logged.kept
    rw [writes, mount_tables, ← tables] at stored
    simp only [mount_tables, ← tables] at erased kept
    rw [writes] at kept
    rw [sameContents_iff both.quiet both.directQuiet stored written.size, and_iff_right rfl]
    simp only [written.bytes]
    constructor
    · intro agree index inside gone
      have within := gone.lt_addressable (writes ▸ fits_of_through through)
      rw [← agree index inside within, erased index gone]
    · intro zeros index inside _
      by_cases gone : Erased (WriteLog.ofCallbacks (events.map (·.callback))).batches index
      · rw [erased index gone, zeros index inside gone]
      · rw [kept index gone]

private def oneFileOpen : PgFs :=
  ((step { callback := .create 1 (some ['a']) } freshMount).map Prod.snd).getD freshMount

private theorem oneFileOpen_state : oneFileOpen.handleId 2 1 = some 1 ∧
    oneFileOpen.openHandles.lookup 1 = some (.clean [] ['a']) ∧
    oneFileOpen.db.tables.FileAt ⟨[], ['a']⟩ 0 :=
  ⟨rfl, rfl, 0, by decide⟩

/-- Some bytes are flushed, then the second one is overwritten and flushed. -/
private def twoBatches (first : List UInt8) : List Event :=
  [{ callback := .write 2 1 0 first }, { callback := .flush 2 1 },
    { callback := .write 2 1 1 [9] }, { callback := .flush 2 1 }]

private theorem twoBatches_through {first : List UInt8} (few : first.length ≤ addressable) :
    ∀ event ∈ twoBatches first, event.alive = true ∧ event.callback.Through 2 1 := by
  have fits : asU64 0 + first.length ≤ addressable := by
    rw [show asU64 0 = 0 from rfl, Nat.zero_add]
    exact few
  intro event member
  simp only [twoBatches, List.mem_cons, List.not_mem_nil, or_false] at member
  rcases member with rfl | rfl | rfl | rfl
  · exact ⟨rfl, rfl, rfl, fits⟩
  · exact ⟨rfl, rfl, rfl⟩
  · exact ⟨rfl, rfl, rfl, by decide⟩
  · exact ⟨rfl, rfl, rfl⟩

/-- The first byte is gone, but was zero. -/
theorem buffered_writes_agree_iff_two_batches : ∃ buffered direct,
    BothWays oneFileOpen 1 [] ['a'] (twoBatches [0, 2]) buffered direct ∧
    SameContents ⟨[], ['a']⟩ buffered direct := by
  rcases oneFileOpen_state with ⟨handled, opened, file⟩
  have through := @twoBatches_through [0, 2] (by decide)
  have agree := buffered_writes_agree_iff handled opened file (by decide) through rfl
  rcases agree.1 fun _ => rfl with ⟨buffered, direct, both⟩
  refine ⟨buffered, direct, both, (agree.2 buffered direct both).mpr ?_⟩
  intro index inside gone
  have reach : index < 2 := inside
  rcases Nat.lt_succ_iff_lt_or_eq.mp reach with below | second
  · have first : index = 0 := by omega
    subst first
    rfl
  · subst second
    have covered : RangeWrite.covers ⟨asU64 1, [9]⟩ 1 := by decide
    have touches : TouchesBlock [⟨asU64 1, [9]⟩] (blockOf blockSize 1) :=
      ⟨_, List.mem_singleton_self _, 1, covered, rfl⟩
    exact absurd covered
      ((@erased_append_of_touches [[⟨asU64 0, [0, 2]⟩]] _ 1 touches).mp gone _
        (List.mem_singleton_self _))

/-- Of three bytes the other two are gone. -/
theorem flush_erases_rest_of_block : ¬∀ (fs : PgFs) (ino fh id size : Nat) (parent name : Str)
    (events : List Event), fs.handleId ino fh = some id →
    fs.openHandles.lookup id = some (.clean parent name) →
    fs.db.tables.FileAt ⟨parent, name⟩ size → size < 2 ^ 63 →
    (∀ index, size ≤ index → fs.db.tables.bytes ⟨parent, name⟩ index = 0) →
    (∀ event ∈ events, event.alive = true ∧ event.callback.Through ino fh) →
    (WriteLog.ofCallbacks (events.map (·.callback))).pending = [] →
    ∀ buffered direct, BothWays fs id parent name events buffered direct →
      SameContents ⟨parent, name⟩ buffered direct := by
  intro claimed
  rcases oneFileOpen_state with ⟨handled, opened, file⟩
  have through := @twoBatches_through [1, 2, 3] (by decide)
  have quiet : Db.Quiet oneFileOpen.db := fun _ => rfl
  rcases exists_bothWays quiet handled opened file (by decide) through with
    ⟨buffered, direct, both⟩
  have same := claimed oneFileOpen 2 1 1 0 [] ['a'] _ handled opened file (by decide)
    (fun _ _ => rfl) through rfl buffered direct both
  rcases both.states handled opened file (by decide) through with
    ⟨⟨final, tables, logged⟩, written⟩
  have stored : buffered.tables.FileAt ⟨[], ['a']⟩ 3 := by
    rw [tables]
    exact logged.size
  have bytes := ((sameContents_iff both.quiet both.directQuiet stored written.size).mp same).2 0
    (by decide) (by decide)
  have touches : TouchesBlock [⟨asU64 1, [9]⟩] (blockOf blockSize 0) :=
    ⟨_, List.mem_singleton_self _, 1, by decide, rfl⟩
  have gone : Erased ([[⟨asU64 0, [1, 2, 3]⟩]] ++ [[⟨asU64 1, [9]⟩]]) 0 := by
    apply (erased_append_of_touches touches).mpr
    intro write member
    rw [List.mem_singleton.mp member]
    decide
  have zero : final.db.tables.bytes ⟨[], ['a']⟩ 0 = 0 := logged.erased 0 gone
  rw [tables, zero, written.bytes] at bytes
  exact absurd bytes (by decide)

end PgFs

end Pgfs
