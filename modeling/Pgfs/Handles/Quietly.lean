import Pgfs.Db.SideBySide
import Pgfs.Fs.RenameGuards
import Pgfs.Handles.Buffering
import Pgfs.Replica.Routing

namespace Pgfs

/-! Callbacks while the primary fails no statement: they end, and do what they are
for. -/

namespace PgFs

open Effect

variable {fs : PgFs}

theorem step_of_alive {event : Event} (alive : event.alive = true) (fs : PgFs) :
    ∃ ready, Db.SameWorld fs.db ready.db ∧ ready.mount = fs.mount ∧
      step event fs = serve event.callback ready := by
  unfold step
  by_cases checked : hasPreamble event.callback = true
  · rw [if_pos checked]
    have begins : ∃ ready, preamble event fs = some (.ok (), ready) := by
      unfold preamble
      rw [alive]
      by_cases dumping : event.dumpRequested = true
      · rw [if_pos dumping]
        have dumped : callDb Db.replicaState fs = some (.ok (), fs.setDb _) :=
          callDb_eq_ok.mpr ⟨_, Db.replicaState_apply _, rfl⟩
        rw [bind_of_ok dumped]
        exact ⟨_, rfl⟩
      · rw [if_neg dumping]
        exact ⟨fs, rfl⟩
    rcases begins with ⟨ready, begun⟩
    rcases sameMount_of_preamble begun with ⟨world, same⟩
    exact ⟨ready, world, same, bind_of_ok begun⟩
  · rw [if_neg checked]
    exact ⟨fs, .refl _, rfl, rfl⟩

/-! ## Flushing -/

theorem total_tryDb {body : DbM Value} (total : Total body) : Total (tryDb body) :=
  total.attempt.within

theorem total_flushHandle (fh : Nat) : Total (flushHandle fh) := by
  intro before
  unfold flushHandle
  rw [bind_of_ok (get_apply before)]
  cases before.openHandles.lookup fh with
  | none => exact total_pure _ before
  | some handle =>
      dsimp only
      split
      · apply (total_modify _).bind _ before
        intro _
        apply (total_tryDb (Db.total_writeBlocksBatch _ _ _ _)).bind
        intro result
        cases result with
        | error failure => exact total_pure _
        | ok _ => exact (total_modify _).bind fun _ => total_pure _
      · apply (total_modify _).bind _ before
        intro _
        exact (total_modify _).bind fun _ => total_pure _

theorem exists_flushHandle (fs : PgFs) (fh : Nat) :
    ∃ result next, flushHandle fh fs = some (.ok result, next) ∧
      Db.SameWorld fs.db next.db ∧
      Flushed (Db.Quiet fs.db) fs.mount fh result.isOk next.mount := by
  rcases total_flushHandle fh fs with ⟨outcome, next, run⟩
  have yielded := @yields_flushHandle fs (fun _ _ => False) fh outcome next run
  rcases outcome with errno | result
  · exact yielded.2.elim
  · exact ⟨result, next, run, yielded⟩

private theorem exists_flush_of_alive {event : Event} {ino fh id : Nat}
    (alive : event.alive = true) (handled : fs.handleId ino fh = some id) :
    ∃ ready result next, step event fs = serve event.callback ready ∧
      ready.handleId ino fh = some id ∧
      flushHandle id ready = some (.ok result, next) ∧ Db.SameWorld fs.db next.db ∧
      Flushed (Db.Quiet fs.db) fs.mount id result.isOk next.mount := by
  rcases step_of_alive alive fs with ⟨ready, world, same, served⟩
  rcases exists_flushHandle ready id with ⟨result, next, run, nextWorld, flushed⟩
  have quiet : Db.Quiet ready.db = Db.Quiet fs.db := by
    unfold Db.Quiet
    rw [world.1]
  rw [quiet, same] at flushed
  exact ⟨ready, result, next, served, (handleId_of_mount same ino fh).trans handled, run,
    world.trans nextWorld, flushed⟩

theorem exists_step_flush {event : Event} {ino fh id : Nat} (alive : event.alive = true)
    (flushes : event.callback = .flush ino fh ∨ event.callback = .fsync ino fh)
    (handled : fs.handleId ino fh = some id) :
    ∃ reply next succeeded, step event fs = some (reply, next) ∧
      Db.SameWorld fs.db next.db ∧
      Flushed (Db.Quiet fs.db) fs.mount id succeeded next.mount := by
  rcases exists_flush_of_alive alive handled with
    ⟨ready, result, next, served, readyHandled, run, world, flushed⟩
  have flushRun : ∃ reply last, flush ino fh ready = some (reply, last) ∧
      last.db = next.db ∧ last.mount = next.mount := by
    simp only [flush, bind_apply, get_apply, readyHandled, run]
    cases result with
    | error failure => exact ⟨_, _, rfl, rfl, rfl⟩
    | ok _ => exact ⟨_, _, rfl, rfl, rfl⟩
  rcases flushRun with ⟨reply, last, flushRun, lastDb, lastMount⟩
  refine ⟨reply, last, result.isOk, ?_, ?_, ?_⟩
  · rw [served]
    rcases flushes with call | call
    · rw [call]
      exact flushRun
    · rw [call]
      exact flushRun
  · rw [lastDb]
    exact world
  · rw [lastMount]
    exact flushed

end PgFs

namespace Flushed

variable {quiet : Prop} {mount next : Mount} {fh : Nat} {succeeded : Bool}
  {buffer : HandleBuffer}

theorem contents (flushed : Flushed quiet mount fh succeeded next)
    (found : mount.openHandles.lookup fh = some buffer) :
    Tables.ContentsOnly buffer.key mount.tables next.tables := by
  cases flushed with
  | absent => exact .refl _ _
  | clean => exact .refl _ _
  | stored handle tables there pending batch =>
      cases found.symm.trans there
      exact batch.contents
  | lost => exact .refl _ _

theorem stores_of_mem (flushed : Flushed quiet mount fh succeeded next)
    (found : mount.openHandles.lookup fh = some buffer) (kept : fh ∈ next.openHandles) :
    Db.BatchStored buffer.key buffer.dirtyBlocks buffer.maxSize mount.tables next.tables ∧
      next = (mount.setTables next.tables).setHandles
        (mount.openHandles.insert fh (.clean buffer.parent buffer.name)) := by
  cases flushed with
  | absent missing => cases found.symm.trans missing
  | clean handle there nothing =>
      cases found.symm.trans there
      have clean := HandleBuffer.eq_clean_of_pending nothing
      constructor
      · rw [clean]
        refine ⟨.refl _ _, fun blockNo => ?_, fun size file fits => ?_⟩
        · simp [HandleBuffer.clean]
        · rw [HandleBuffer.clean, Nat.max_eq_left (Nat.zero_le _)]
          exact file
      · rw [← clean, Table.insert_of_lookup found]
        rfl
  | stored handle tables there pending batch =>
      cases found.symm.trans there
      exact ⟨batch, rfl⟩
  | lost handle there pending excuse =>
      have gone : fh ∈ mount.openHandles.erase fh := kept
      rw [Finmap.mem_erase] at gone
      exact absurd rfl gone.1

theorem mem_of_readable (flushed : Flushed quiet mount fh succeeded next) (answered : quiet)
    (found : mount.openHandles.lookup fh = some buffer)
    (readable : ¬∃ failure, mount.tables.attributes buffer.key = .error failure) :
    fh ∈ next.openHandles := by
  cases flushed with
  | absent missing => cases found.symm.trans missing
  | clean => exact Finmap.mem_iff.mpr ⟨buffer, found⟩
  | stored => exact Finmap.mem_insert.mpr (Or.inl rfl)
  | lost handle there pending excuse =>
      cases found.symm.trans there
      exact absurd (excuse answered) readable

end Flushed

namespace PgFs

open Effect

variable {fs : PgFs}

/-! ## Reading and writing -/

/-- What `read` does after the flush. -/
def readFile (ino : Nat) (offset : Int) (size : Nat) : FsM Reply := do
  let path ← pathOrEnoent ino
  match ← callDb (Db.readRange (splitPath path).1 (splitPath path).2
      (MachineInt.asU64 offset) size) with
  | some data => return .data data
  | none => raise .enoent

theorem read_of_unhandled {ino fh : Nat} (unhandled : fs.handleId ino fh = none)
    (offset : Int) (size : Nat) : read ino fh offset size fs = readFile ino offset size fs := by
  simp only [read, bind_apply, get_apply, unhandled]
  rfl

theorem read_of_flushed {ino fh id : Nat} {next : PgFs} {result : Except DbError Unit}
    (handled : fs.handleId ino fh = some id)
    (flushed : flushHandle id fs = some (.ok result, next)) (offset : Int) (size : Nat) :
    read ino fh offset size fs = readFile ino offset size next := by
  simp only [read, bind_apply, get_apply, handled, flushed]
  rfl

theorem readFile_keeps {ino size : Nat} {offset : Int} {outcome : Except Errno Reply}
    {next : PgFs} (run : readFile ino offset size fs = some (outcome, next)) :
    Db.SameWorld fs.db next.db ∧ next.mount = fs.mount := by
  have yielded := @yields_readFile fs (fun _ mount => mount = fs.mount) ino size offset
    (fun _ => rfl) outcome next run
  cases outcome with
  | error errno => exact yielded
  | ok reply => exact yielded

def readOutcome : Except DbError (Option (List UInt8)) → Except Errno Reply
  | .error _ => .error .eio
  | .ok none => .error .enoent
  | .ok (some data) => .ok (.data data)

theorem readFile_of_resolved {ino : Nat} {path : Str} (resolved : fs.pathOfIno ino = some path)
    (offset : Int) (size : Nat) :
    (readFile ino offset size fs).map Prod.fst =
      ((Db.readRange (splitPath path).1 (splitPath path).2 (MachineInt.asU64 offset) size
        fs.db).map Prod.fst).map readOutcome := by
  unfold readFile callDb tryDb
  rw [bind_of_ok (pathOrEnoent_apply resolved)]
  simp only [bind_apply, Effect.within, Effect.attempt, Option.map_map]
  rcases Db.readRange (splitPath path).1 (splitPath path).2 (MachineInt.asU64 offset) size fs.db
    with _ | ⟨outcome, after⟩
  · rfl
  · rcases outcome with failure | found
    · rfl
    · rcases found with _ | data
      · rfl
      · rfl

private theorem total_readFile {offset : Int} {size : Nat}
    (fits : MachineInt.asU64 offset + size ≤ addressable) (ino : Nat) :
    Total (readFile ino offset size) := by
  apply Total.bind
  · intro before
    unfold pathOrEnoent
    rw [bind_of_ok (get_apply before)]
    cases before.pathOfIno ino with
    | none => exact total_raise _ before
    | some path => exact total_pure _ before
  · intro path
    apply Total.bind
    · apply (total_tryDb (Db.total_readRange _ _ fits)).bind
      intro outcome
      cases outcome with
      | error failure => exact (total_modify _).bind fun _ => total_raise _
      | ok found => exact total_pure _
    · intro found
      cases found with
      | none => exact total_raise _
      | some data => exact total_pure _

theorem exists_step_read {event : Event} {ino fh id size : Nat} {offset : Int}
    (alive : event.alive = true) (reads : event.callback = .read ino fh offset size)
    (fits : MachineInt.asU64 offset + size ≤ addressable)
    (handled : fs.handleId ino fh = some id) :
    ∃ reply next succeeded, step event fs = some (reply, next) ∧
      Db.SameWorld fs.db next.db ∧
      Flushed (Db.Quiet fs.db) fs.mount id succeeded next.mount := by
  rcases exists_flush_of_alive alive handled with
    ⟨ready, result, middle, served, readyHandled, flushRun, world, flushed⟩
  rcases total_readFile fits ino middle with ⟨reply, next, readRun⟩
  rcases readFile_keeps readRun with ⟨readWorld, kept⟩
  refine ⟨reply, next, result.isOk, ?_, world.trans readWorld, ?_⟩
  · rw [served, reads]
    exact (read_of_flushed readyHandled flushRun offset size).trans readRun
  · rw [kept]
    exact flushed

theorem exists_step_write {event : Event} {ino fh id : Nat} {offset : Int}
    {data : List UInt8} {buffer written : HandleBuffer} (alive : event.alive = true)
    (writes : event.callback = .write ino fh offset data)
    (handled : fs.handleId ino fh = some id) (found : fs.openHandles.lookup id = some buffer)
    (buffers : buffer.write (MachineInt.asU64 offset) data = some written) :
    ∃ next, step event fs = some (.ok (.written (data.length % 2 ^ 32)), next) ∧
      Db.SameWorld fs.db next.db ∧
      next.mount = fs.mount.setHandles (fs.openHandles.insert id written) := by
  rcases step_of_alive alive fs with ⟨ready, world, same, served⟩
  have readyHandled : ready.handleId ino fh = some id :=
    (handleId_of_mount same ino fh).trans handled
  have handles : ready.openHandles = fs.openHandles := congrArg Mount.openHandles same
  have readyFound : ready.openHandles.lookup id = some buffer := by rw [handles, found]
  refine ⟨ready.setHandles (ready.openHandles.insert id written), ?_, world, ?_⟩
  · rw [served, writes]
    show write ino fh offset data ready = _
    simp only [write, bind_apply, get_apply, readyHandled, readyFound, Option.bind_some,
      Option.map_some, buffers, orAbort_some, modify_apply, pure_apply]
  · rw [mount_setHandles, same, handles]

/-! ## Truncating -/

theorem truncate_quiet {before : Db} (quiet : Db.Quiet before) {parent name : Str} {size : Nat}
    (file : before.tables.FileAt ⟨parent, name⟩ size) (newSize : Nat) :
    ∃ after, Db.truncate parent name newSize before = some (.ok (), after) ∧
      Db.SameWorld before after ∧
      Db.Truncated ⟨parent, name⟩ newSize before.tables after.tables := by
  rcases Db.total_truncate parent name newSize before with ⟨outcome, after, run⟩
  have truncated := Db.truncate_atomic _ _ run
  cases outcome with
  | error failure => exact absurd file (truncated.2.2 quiet size)
  | ok _ => exact ⟨after, run, truncated⟩

theorem setattr_quiet (quiet : Db.Quiet fs.db) {ino newSize size : Nat} {path : Str}
    (notRoot : ino ≠ rootIno) (resolved : fs.pathOfIno ino = some path)
    (file : fs.db.tables.FileAt (keyOf path) size) (fits : newSize < 2 ^ 63) :
    ∃ reply next tables, setattr ino (some newSize) fs = some (.ok reply, next) ∧
      Db.SameWorld fs.db next.db ∧
      Db.Truncated (keyOf path) newSize fs.db.tables tables ∧
      next.mount = fs.mount.setTables tables := by
  have known : callDb (Db.getattrPrimary (splitPath path).1 (splitPath path).2) fs =
      some (.ok (some ⟨(keyOf path).name, .file, size, file.attributes.choose⟩),
        fs.setDb fs.db.advance) := by
    apply callDb_eq_ok.mpr
    refine ⟨_, ?_, rfl⟩
    rw [Db.getattrPrimary_quiet quiet]
    exact congrArg (fun found => some (found, fs.db.advance)) file.attributes.choose_spec
  rcases @truncate_quiet fs.db.advance quiet (splitPath path).1 (splitPath path).2 size file
    newSize with ⟨after, truncates, world, truncated⟩
  have cut : callDb (Db.truncate (splitPath path).1 (splitPath path).2 newSize)
      (fs.setDb fs.db.advance) = some (.ok (), fs.setDb after) :=
    callDb_eq_ok.mpr ⟨after, truncates, rfl⟩
  have quietAfter : Db.Quiet after := world.quiet quiet.advance
  have sized := truncated.size fits
  have again : callDb (Db.getattrPrimary (splitPath path).1 (splitPath path).2)
      (fs.setDb after) =
      some (.ok (some ⟨(keyOf path).name, .file, newSize, sized.attributes.choose⟩),
        fs.setDb after.advance) := by
    apply callDb_eq_ok.mpr
    refine ⟨_, ?_, rfl⟩
    show Db.getattrPrimary _ _ after = _
    rw [Db.getattrPrimary_quiet quietAfter]
    exact congrArg (fun found => some (found, after.advance)) sized.attributes.choose_spec
  have run : ∃ reply, setattr ino (some newSize) fs =
      some (.ok reply, fs.setDb after.advance) := by
    unfold setattr
    rw [if_neg notRoot, bind_of_ok (pathOrEnoent_apply resolved)]
    dsimp only
    rw [bind_of_ok known]
    simp only [reduceCtorEq, if_false]
    rw [bind_of_ok cut, bind_of_ok again]
    exact ⟨_, rfl⟩
  rcases run with ⟨reply, run⟩
  exact ⟨reply, _, after.tables, run, world, truncated, rfl⟩

theorem exists_step_setattr {event : Event} {ino newSize size : Nat} {path : Str}
    (alive : event.alive = true) (sets : event.callback = .setattr ino (some newSize))
    (quiet : Db.Quiet fs.db) (notRoot : ino ≠ rootIno)
    (resolved : fs.pathOfIno ino = some path)
    (file : fs.db.tables.FileAt (keyOf path) size) (fits : newSize < 2 ^ 63) :
    ∃ reply next tables, step event fs = some (.ok reply, next) ∧
      Db.SameWorld fs.db next.db ∧
      Db.Truncated (keyOf path) newSize fs.db.tables tables ∧
      next.mount = fs.mount.setTables tables := by
  rcases step_of_alive alive fs with ⟨ready, world, same, served⟩
  have tables : ready.db.tables = fs.db.tables := congrArg Mount.tables same
  have readyResolved : ready.pathOfIno ino = some path :=
    (pathOfIno_of_mount same ino).trans resolved
  rw [← tables] at file ⊢
  rcases setattr_quiet (world.quiet quiet) notRoot readyResolved file fits with
    ⟨reply, next, truncatedTables, run, nextWorld, truncated, reached⟩
  rw [same] at reached
  refine ⟨reply, next, truncatedTables, ?_, world.trans nextWorld, truncated, reached⟩
  rw [served, sets]
  exact run

end PgFs

end Pgfs
