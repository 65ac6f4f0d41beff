import Pgfs.Db.Answers
import Pgfs.Db.Reading
import Pgfs.Fs.Mount

namespace Pgfs

open Effect

/-! The callbacks do to a mount what the relation `Serves` allows. -/

namespace PgFs

def mount (fs : PgFs) : Mount where
  toInodeMaps := fs.toInodeMaps
  tables := fs.db.tables
  nextFh := fs.nextFh
  openHandles := fs.openHandles
  openHandlesByIno := fs.openHandlesByIno

@[simp] theorem mount_tables (fs : PgFs) : fs.mount.tables = fs.db.tables := rfl

@[simp] theorem mount_openHandles (fs : PgFs) :
    fs.mount.openHandles = fs.openHandles := rfl

@[simp] theorem mount_setDb (fs : PgFs) (db : Db) :
    (fs.setDb db).mount = fs.mount.setTables db.tables := rfl

@[simp] theorem mount_countError (fs : PgFs) (errno : Errno) :
    (fs.countError errno).mount = fs.mount := rfl

@[simp] theorem mount_setMaps (fs : PgFs) (maps : InodeMaps) :
    (fs.setMaps maps).mount = fs.mount.setMaps maps := rfl

@[simp] theorem mount_setHandles (fs : PgFs) (openHandles : Table Nat HandleBuffer) :
    (fs.setHandles openHandles).mount = fs.mount.setHandles openHandles := rfl

/-- On success `post` holds of the value and the mount, on a failure `fail` of
the error and the mount. The outside world stays. -/
def Yields (fs : PgFs) (body : FsM Value) (post : Value → Mount → Prop)
    (fail : Errno → Mount → Prop) : Prop :=
  ∀ outcome next, body fs = some (outcome, next) →
    Db.SameWorld fs.db next.db ∧
      match outcome with
      | .ok value => post value next.mount
      | .error errno => fail errno next.mount

variable {fs : PgFs} {post : Value → Mount → Prop} {fail : Errno → Mount → Prop}

theorem yields_pure {value : Value} (holds : post value fs.mount) :
    Yields fs (pure value) post fail := by
  intro outcome next run
  cases run
  exact ⟨.refl _, holds⟩

theorem yields_raise {errno : Errno} (holds : fail errno fs.mount) :
    Yields fs (raise errno) post fail := by
  intro outcome next run
  cases run
  exact ⟨.refl _, holds⟩

theorem yields_get_bind {rest : PgFs → FsM Value}
    (restYields : Yields fs (rest fs) post fail) :
    Yields fs (get >>= rest) post fail := restYields

theorem yields_modify_bind {change : PgFs → PgFs} {rest : Unit → FsM Value}
    (sameDb : (change fs).db = fs.db)
    (restYields : Yields (change fs) (rest ()) post fail) :
    Yields fs (modify change >>= rest) post fail := by
  intro outcome next run
  have finished := restYields outcome next run
  rw [sameDb] at finished
  exact finished

theorem yields_orAbort {value : Option Value}
    (holds : ∀ inner, value = some inner → post inner fs.mount) :
    Yields fs (orAbort value) post fail := by
  cases value with
  | none =>
      intro outcome next run
      cases run
  | some inner =>
      intro outcome next run
      cases run
      exact ⟨.refl _, holds inner rfl⟩

theorem Yields.bind {first : FsM Value} {rest : Value → FsM Result}
    (middlePost : Value → Mount → Prop) {post : Result → Mount → Prop}
    (firstYields : Yields fs first middlePost fail)
    (restYields : ∀ value middle, Db.SameWorld fs.db middle.db →
      middlePost value middle.mount → Yields middle (rest value) post fail) :
    Yields fs (first >>= rest) post fail := by
  intro outcome next run
  rcases bind_eq_some.mp run with
    ⟨value, middle, firstRun, restRun⟩ | ⟨errno, firstRun, rfl⟩
  · have firstDone := firstYields _ _ firstRun
    have restDone := restYields value middle firstDone.1 firstDone.2 _ _ restRun
    exact ⟨firstDone.1.trans restDone.1, restDone.2⟩
  · exact firstYields _ _ firstRun

theorem Yields.imp {body : FsM Value} {other : Value → Mount → Prop}
    {otherFail : Errno → Mount → Prop} (yields : Yields fs body post fail)
    (weaken : ∀ value mount, post value mount → other value mount)
    (weakenFail : ∀ errno mount, fail errno mount → otherFail errno mount) :
    Yields fs body other otherFail := by
  rintro (errno | value) next run
  · exact ⟨(yields _ _ run).1, weakenFail _ _ (yields _ _ run).2⟩
  · exact ⟨(yields _ _ run).1, weaken _ _ (yields _ _ run).2⟩

theorem yields_attempt {body : FsM Value} {bodyFail : Errno → Mount → Prop}
    (yields : Yields fs body post bodyFail) :
    Yields fs body.attempt
      (fun result mount =>
        match result with
        | .ok value => post value mount
        | .error errno => bodyFail errno mount) fail := by
  intro outcome next run
  rcases attempt_eq_some.mp run with ⟨result, rfl, bodyRun⟩
  exact yields _ _ bodyRun

/-! ## Calls of the database -/

/-- The result of a database call: what the call does on success, and an
unchanged mount after a failure. -/
def Answered (quiet : Prop) (mount : Mount) (dbPost : Value → Tables → Prop)
    (excuse : Prop) : Except DbError Value → Mount → Prop
  | .ok value, next => ∃ tables, dbPost value tables ∧ next = mount.setTables tables
  | .error _, next => next = mount ∧ (quiet → excuse)

theorem yields_tryDb {body : DbM Value} {dbPost : Value → Tables → Prop} {excuse : Prop}
    (atomic : Db.Atomic fs.db body dbPost excuse) :
    Yields fs (tryDb body) (Answered (Db.Quiet fs.db) fs.mount dbPost excuse) fail := by
  intro outcome next run
  rcases within_eq_some.mp run with ⟨db, attempted, rfl⟩
  rcases attempt_eq_some.mp attempted with ⟨result, rfl, bodyRun⟩
  have done := atomic _ _ bodyRun
  refine ⟨done.1, ?_⟩
  cases result with
  | ok value => exact ⟨db.tables, done.2, rfl⟩
  | error failure =>
      refine ⟨?_, done.2.2⟩
      rw [mount_setDb, done.2.1]
      rfl

theorem yields_callDb_of {body : DbM Value}
    (holds : ∀ outcome after, body fs.db = some (outcome, after) →
      Db.SameWorld fs.db after ∧
        match outcome with
        | .ok value => post value (fs.mount.setTables after.tables)
        | .error _ => fail .eio (fs.mount.setTables after.tables)) :
    Yields fs (callDb body) post fail := by
  intro outcome next run
  rcases bind_eq_some.mp run with ⟨result, middle, called, replied⟩ | ⟨_, called, _⟩
  · rcases within_eq_some.mp called with ⟨db, attempted, rfl⟩
    rcases attempt_eq_some.mp attempted with ⟨inner, equal, bodyRun⟩
    cases equal
    have known := holds _ _ bodyRun
    cases result with
    | ok value =>
        cases replied
        exact known
    | error failure =>
        cases replied
        exact known
  · rcases within_eq_some.mp called with ⟨db, attempted, _⟩
    rcases attempt_eq_some.mp attempted with ⟨_, equal, _⟩
    cases equal

theorem yields_callDb {body : DbM Value} {dbPost : Value → Tables → Prop} {excuse : Prop}
    (atomic : Db.Atomic fs.db body dbPost excuse)
    (holds : ∀ value tables, dbPost value tables → post value (fs.mount.setTables tables))
    (failed : fail .eio fs.mount) :
    Yields fs (callDb body) post fail := by
  apply yields_callDb_of
  rintro (failure | value) after run
  · have known := atomic _ _ run
    refine ⟨known.1, ?_⟩
    rw [known.2.1]
    exact failed
  · exact ⟨(atomic _ _ run).1, holds _ _ (atomic _ _ run).2⟩

theorem yields_query {body : DbM Value} {fact : Value → Prop} {excuse : Prop}
    (atomic : Db.Atomic fs.db body (fun value tables => tables = fs.db.tables ∧ fact value)
      excuse)
    (failed : fail .eio fs.mount) :
    Yields fs (callDb body) (fun value mount => mount = fs.mount ∧ fact value) fail :=
  yields_callDb atomic (fun value tables known => ⟨by rw [known.1]; rfl, known.2⟩) failed

/-! ## Shared helpers -/

theorem pathOrEnoent_apply {ino : Nat} {path : Str} (resolved : fs.pathOfIno ino = some path) :
    pathOrEnoent ino fs = some (.ok path, fs) := by
  unfold pathOrEnoent
  simp [bind_apply, resolved]

theorem yields_pathOrEnoent (ino : Nat) (failed : fail .enoent fs.mount) :
    Yields fs (pathOrEnoent ino)
      (fun path mount => mount = fs.mount ∧ fs.mount.pathOfIno ino = some path) fail := by
  apply yields_get_bind
  split
  · rename_i path found
    exact yields_pure ⟨rfl, found⟩
  · exact yields_raise failed

theorem yields_resolve (parent : Nat) (name : OsStr) (failed : fail .enoent fs.mount) :
    Yields fs (resolve parent name)
      (fun key mount => mount = fs.mount ∧ fs.mount.pathOfIno parent = some key.1 ∧
        name = some key.2) fail := by
  refine Yields.bind _ (yields_pathOrEnoent parent failed) ?_
  rintro parentPath middle _ ⟨same, resolved⟩
  cases name with
  | none =>
      refine yields_raise ?_
      rw [same]
      exact failed
  | some name => exact yields_pure ⟨same, resolved, rfl⟩

theorem yields_inoFor (path : Str) :
    Yields fs (inoFor path)
      (fun _ mount => mount = fs.mount.setMaps (fs.mount.allocate [path])) fail := by
  intro outcome next run
  cases run
  exact ⟨.refl _, rfl⟩

theorem yields_openHandle (key : Key) :
    Yields fs (openHandle key.parent key.name)
      (fun fh mount => mount = fs.mount.openHandle key ∧ fh = fs.mount.nextFh) fail := by
  intro outcome next run
  cases run
  exact ⟨.refl _, rfl, rfl⟩

theorem yields_flushHandle (fh : Nat) :
    Yields fs (flushHandle fh)
      (fun result mount => Flushed (Db.Quiet fs.db) fs.mount fh result.isOk mount) fail := by
  unfold flushHandle
  apply yields_get_bind
  cases found : fs.openHandles.lookup fh with
  | none => exact yields_pure (.absent found)
  | some handle =>
      refine yields_modify_bind rfl ?_
      by_cases pending : handle.pending = true
      · simp only [if_pos pending]
        refine Yields.bind _ (yields_tryDb Db.writeBlocksBatch_atomic) ?_
        rintro (failure | _) middle _ answered
        · refine yields_pure ?_
          rw [answered.1]
          exact .lost handle found pending answered.2
        · rcases answered with ⟨tables, batch, equal⟩
          refine yields_modify_bind rfl (yields_pure ?_)
          have handles : middle.openHandles = fs.openHandles.erase fh :=
            congrArg Mount.openHandles equal
          rw [mount_setHandles, equal, handles, Table.insert_erase]
          exact .stored handle tables found pending batch
      · simp only [if_neg pending]
        refine yields_modify_bind rfl (yields_pure ?_)
        rw [mount_setHandles]
        simp only [setHandles, Table.insert_erase, Table.insert_of_lookup found]
        exact .clean handle found (Bool.eq_false_iff.mpr pending)

/-! ## Callbacks -/

def Serving (fs : PgFs) (callback : Callback) (body : FsM Reply) : Prop :=
  Yields fs body
    (fun reply next => Serves (Db.Quiet fs.db) (fs.db.replica = false) fs.mount callback
      (.ok reply) next)
    (fun errno next => Serves (Db.Quiet fs.db) (fs.db.replica = false) fs.mount callback
      (.error errno) next)

theorem lookup_serving (parent : Nat) (name : OsStr) :
    Serving fs (.lookup parent name) (lookup parent name) := by
  unfold Serving lookup
  have resolving : Yields fs (resolve parent name) _ fun _ mount => mount = fs.mount :=
    yields_resolve parent name rfl
  refine Yields.bind _ (yields_attempt resolving) ?_
  rintro (errno | ⟨parentPath, child⟩) found foundWorld known
  · refine yields_modify_bind rfl (yields_raise ?_)
    rw [mount_countError, known]
    exact .refused _ _
  rcases known with ⟨foundSame, resolved, rfl⟩
  rw [← foundSame] at resolved ⊢
  refine Yields.bind _ (yields_query Db.getattr_atomic (.refused _ _)) ?_
  rintro (_ | fileMeta) asked _ ⟨askedSame, present⟩
  · rw [← askedSame]
    exact yields_raise (.refused _ _)
  refine Yields.bind _ (yields_inoFor _) ?_
  rintro ino allocated _ allocatedMaps
  refine yields_get_bind (yields_pure ?_)
  rw [allocatedMaps, askedSame]
  exact .lookup parent child parentPath _ resolved fun alone =>
    ⟨_, Tables.lookup_of_attributes (present (foundWorld.2.trans alone))⟩

theorem getattr_serving (ino : Nat) : Serving fs (.getattr ino) (getattr ino) := by
  unfold Serving getattr
  by_cases root : ino = rootIno
  · simp only [if_pos root]
    exact yields_get_bind (yields_pure (.getattr ino _))
  simp only [if_neg root]
  refine Yields.bind _ (yields_pathOrEnoent ino (.refused _ _)) ?_
  rintro path found _ ⟨foundSame, _⟩
  rw [← foundSame]
  refine Yields.bind _ (yields_query Db.getattr_atomic (.refused _ _)) ?_
  rintro (_ | fileMeta) asked _ ⟨askedSame, _⟩
  · rw [← askedSame]
    exact yields_raise (.refused _ _)
  · rw [← askedSame]
    exact yields_get_bind (yields_pure (.getattr ino _))

theorem setattr_serving (ino : Nat) (size : Option Nat) :
    Serving fs (.setattr ino size) (setattr ino size) := by
  unfold Serving setattr
  by_cases root : ino = rootIno
  · simp only [if_pos root]
    exact yields_get_bind (yields_pure (.setattr ino size _ (.inl root)))
  simp only [if_neg root]
  refine Yields.bind _ (yields_pathOrEnoent ino (.refused _ _)) ?_
  rintro path found _ ⟨foundSame, resolved⟩
  rw [← foundSame] at resolved ⊢
  refine Yields.bind _ (yields_query Db.getattrPrimary_atomic (.refused _ _)) ?_
  rintro (_ | fileMeta) asked _ ⟨askedSame, _⟩
  · rw [← askedSame]
    exact yields_raise (.refused _ _)
  rw [← askedSame] at resolved ⊢
  cases size with
  | none =>
      simp only
      refine Yields.bind _ (yields_query Db.getattrPrimary_atomic (.refused _ _)) ?_
      rintro (_ | fileMeta) answered _ ⟨answeredSame, _⟩
      · rw [← answeredSame]
        exact yields_raise (.refused _ _)
      · rw [← answeredSame]
        exact yields_get_bind (yields_pure (.setattr ino none _ (.inr rfl)))
  | some newSize =>
      by_cases directory : fileMeta.kind = .dir
      · simp only [if_pos directory, raise_bind]
        exact yields_raise (.refused _ _)
      simp only [if_neg directory]
      refine Yields.bind (fun _ mount => ∃ tables,
        Db.Truncated (keyOf path) newSize asked.db.tables tables ∧
          mount = asked.mount.setTables tables)
        (yields_callDb Db.truncate_atomic
          (fun _ tables truncated => ⟨tables, truncated, rfl⟩) (.refused _ _)) ?_
      rintro _ cut _ ⟨tables, truncated, equal⟩
      have step : ∀ reply, Serves (Db.Quiet fs.db) (fs.db.replica = false) asked.mount
          (.setattr ino (some newSize)) reply cut.mount := by
        intro reply
        rw [equal]
        exact .truncate ino newSize path reply tables resolved truncated
      refine Yields.bind _ (yields_query Db.getattrPrimary_atomic (step _)) ?_
      rintro (_ | fileMeta) answered _ ⟨answeredSame, _⟩
      · exact yields_raise (answeredSame ▸ step _)
      · exact yields_get_bind (yields_pure (answeredSame ▸ step _))

theorem yields_readFile {allowed : Except Errno Reply → Mount → Prop}
    {ino size : Nat} {offset : Int} (holds : ∀ reply, allowed reply fs.mount) :
    Yields fs (do
      let path ← pathOrEnoent ino
      match ← callDb (Db.readRange (splitPath path).1 (splitPath path).2
          (MachineInt.asU64 offset) size) with
      | some data => return .data data
      | none => raise .enoent)
      (fun reply => allowed (.ok reply)) (fun errno => allowed (.error errno)) := by
  refine Yields.bind _ (yields_pathOrEnoent ino (holds _)) ?_
  rintro path found _ ⟨foundSame, _⟩
  rw [← foundSame] at holds
  refine Yields.bind _ (yields_query Db.readRange_atomic (holds _)) ?_
  rintro (_ | data) asked _ ⟨askedSame, _⟩
  · exact yields_raise (askedSame ▸ holds _)
  · exact yields_pure (askedSame ▸ holds _)

theorem read_serving (ino fh : Nat) (offset : Int) (size : Nat) :
    Serving fs (.read ino fh offset size) (read ino fh offset size) := by
  unfold Serving read
  apply yields_get_bind
  cases handled : fs.handleId ino fh with
  | none => exact yields_readFile fun reply => .read ino fh offset size reply handled
  | some id =>
      simp only
      refine Yields.bind _ (yields_flushHandle id) ?_
      intro result flushed _ done
      exact yields_readFile fun reply =>
        .flushRead ino fh id offset size _ reply _ handled done

theorem write_serving (ino fh : Nat) (offset : Int) (data : List UInt8) :
    Serving fs (.write ino fh offset data) (write ino fh offset data) := by
  unfold Serving write
  apply yields_get_bind
  cases target : (fs.handleId ino fh).bind fun id =>
      (fs.openHandles.lookup id).map fun buffer => (id, buffer) with
  | some handle =>
      rcases handle with ⟨id, buffer⟩
      simp only [Option.bind_eq_some_iff, Option.map_eq_some_iff, Prod.mk.injEq] at target
      rcases target with ⟨id, handled, buffer, found, rfl, rfl⟩
      refine Yields.bind (fun next mount => mount = fs.mount ∧
        buffer.write (MachineInt.asU64 offset) data = some next)
        (yields_orAbort fun next written => ⟨rfl, written⟩) ?_
      rintro next middle _ ⟨same, written⟩
      have handles : middle.openHandles = fs.openHandles := congrArg Mount.openHandles same
      refine yields_modify_bind rfl (yields_pure ?_)
      rw [mount_setHandles, same, handles]
      exact .buffer ino fh id offset data buffer next handled found written
  | none =>
      have unhandled : ∀ id, fs.mount.handleId ino fh = some id →
          fs.mount.openHandles.lookup id = none := by
        intro id handled
        simp only [Option.bind_eq_none_iff, Option.map_eq_none_iff] at target
        exact target id handled
      unfold writeThrough
      refine Yields.bind _ (yields_pathOrEnoent ino (.refused _ _)) ?_
      rintro path found _ ⟨foundSame, resolved⟩
      rw [← foundSame] at unhandled resolved ⊢
      refine Yields.bind (fun _ mount => ∃ tables,
        Db.Written (keyOf path) (MachineInt.asU64 offset) data found.db.tables tables ∧
          mount = found.mount.setTables tables)
        (yields_callDb Db.writeRange_atomic
          (fun _ tables written => ⟨tables, written, rfl⟩) (.refused _ _)) ?_
      rintro _ done _ ⟨tables, written, equal⟩
      refine yields_pure ?_
      rw [equal]
      exact .writeThrough ino fh offset data path tables unhandled resolved written

theorem open_serving (ino : Nat) : Serving fs (.open ino) («open» ino) := by
  unfold Serving «open»
  refine Yields.bind _ (yields_pathOrEnoent ino (.refused _ _)) ?_
  rintro path found _ ⟨foundSame, resolved⟩
  rw [← foundSame] at resolved ⊢
  refine Yields.bind _ (yields_openHandle (keyOf path)) ?_
  rintro fh opened _ ⟨openedMount, rfl⟩
  refine yields_modify_bind rfl (yields_pure ?_)
  suffices step : Serves (Db.Quiet fs.db) (fs.db.replica = false) found.mount (.open ino)
      (.ok (.opened found.mount.nextFh))
      (opened.mount.rememberHandle ino found.mount.nextFh) from step
  rw [openedMount]
  exact .open ino path resolved

theorem flush_serving (ino fh : Nat) (callback : Callback)
    (flushes : callback = .flush ino fh ∨ callback = .fsync ino fh) :
    Serving fs callback (flush ino fh) := by
  unfold Serving flush
  apply yields_get_bind
  cases handled : fs.handleId ino fh with
  | none => exact yields_pure (.flushNothing ino fh callback flushes handled)
  | some id =>
      simp only
      refine Yields.bind _ (yields_flushHandle id) ?_
      rintro (failure | _) flushed _ done
      · refine yields_modify_bind rfl (yields_raise ?_)
        exact .flush ino fh id callback false _ flushes handled done
      · exact yields_pure (.flush ino fh id callback true _ flushes handled done)

theorem release_serving (ino fh : Nat) : Serving fs (.release ino fh) (release ino fh) := by
  unfold Serving release
  apply yields_get_bind
  refine Yields.bind _ (yields_flushHandle _) ?_
  intro result flushed _ done
  refine yields_modify_bind rfl (yields_pure ?_)
  exact .release ino fh _ _ done

theorem unlink_serving (parent : Nat) (name : OsStr) :
    Serving fs (.unlink parent name) (unlink parent name) := by
  unfold Serving unlink
  refine Yields.bind _ (yields_resolve parent name (.refused _ _)) ?_
  rintro ⟨parentPath, name⟩ found foundWorld ⟨foundSame, resolved, rfl⟩
  rw [← foundSame] at resolved ⊢
  let key : Key := ⟨parentPath, name⟩
  refine Yields.bind (fun _ mount => mount =
    found.mount.setTables ((found.mount.tables.deleteEntry key).2.deleteBlocks key))
    (yields_callDb_of ?_) ?_
  · intro outcome after run
    rcases Db.unlink_cases run with ⟨world, ⟨rfl, removed⟩ | ⟨⟨_, rfl⟩, loud, kept | half⟩⟩
    · exact ⟨world, by rw [removed]; rfl⟩
    · refine ⟨world, ?_⟩
      rw [kept]
      exact .refused _ _
    · refine ⟨world, ?_⟩
      rw [half]
      exact .unlinkHalf parent key _ (fun quiet => loud (foundWorld.quiet quiet)) resolved
  · rintro _ removed _ equal
    refine yields_modify_bind rfl (yields_pure ?_)
    suffices step : Serves (Db.Quiet fs.db) (fs.db.replica = false) found.mount
        (.unlink parent (some name)) (.ok .ok)
        (removed.mount.setMaps (removed.mount.forget key.path)) from step
    rw [equal]
    exact .unlink parent key resolved

private theorem yields_checkAbsent (key : Key) (failed : ∀ errno, fail errno fs.mount) :
    Yields fs (checkAbsent key.parent key.name)
      (fun _ mount => mount = fs.mount ∧ fs.mount.tables.entries.lookup key = none)
      fail := by
  unfold checkAbsent
  refine Yields.bind _ (yields_query Db.getattrPrimary_atomic (failed _)) ?_
  rintro (_ | fileMeta) asked _ ⟨askedSame, known⟩
  · refine yields_pure ⟨askedSame, ?_⟩
    exact Tables.lookup_eq_none_of_attributes known
  · exact yields_raise (askedSame ▸ failed _)

private theorem yields_insertAbsent (key : Key) {kind : KindText} {body : DbM Unit}
    {rest : FsM Value}
    (inserts : ∀ before, Db.Atomic before body
      (fun _ tables => ∃ now, tables = before.tables.insertEntry key kind now) False)
    (failed : ∀ errno, fail errno fs.mount)
    (restYields : ∀ next now, fs.mount.tables.entries.lookup key = none →
      next.mount = fs.mount.setTables (fs.mount.tables.insertEntry key kind now) →
        Yields next rest post fail) :
    Yields fs (do checkAbsent key.parent key.name; callDb body; rest) post fail := by
  refine Yields.bind _ (yields_checkAbsent key failed) ?_
  intro _ checked _ known
  rw [← known.1] at failed restYields known
  refine Yields.bind (fun _ mount => ∃ now,
    mount = checked.mount.setTables (checked.mount.tables.insertEntry key kind now))
    (yields_callDb (inserts checked.db) ?_ (failed _)) ?_
  · intro _ tables inserted
    rcases inserted with ⟨now, rfl⟩
    exact ⟨now, rfl⟩
  · intro _ inserted _ insertedMount
    rcases insertedMount with ⟨now, insertedMount⟩
    exact restYields inserted now known.2 insertedMount

theorem create_serving (parent : Nat) (name : OsStr) :
    Serving fs (.create parent name) (create parent name) := by
  unfold Serving create
  refine Yields.bind _ (yields_resolve parent name (.refused _ _)) ?_
  rintro ⟨parentPath, name⟩ found foundWorld ⟨foundSame, resolved, rfl⟩
  rw [← foundSame] at resolved ⊢
  let key : Key := ⟨parentPath, name⟩
  apply yields_insertAbsent key (fun _ => Db.create_atomic) fun _ => .refused _ _
  intro inserted now absent insertedMount
  refine Yields.bind _ (yields_openHandle key) ?_
  rintro fh opened _ ⟨openedMount, rfl⟩
  refine Yields.bind _ (yields_inoFor _) ?_
  intro ino allocated _ allocatedMount
  refine yields_get_bind (yields_pure ?_)
  rw [allocatedMount, openedMount, insertedMount]
  exact .create parent key now _ _ resolved absent

theorem mkdir_serving (parent : Nat) (name : OsStr) :
    Serving fs (.mkdir parent name) (mkdir parent name) := by
  unfold Serving mkdir
  refine Yields.bind _ (yields_resolve parent name (.refused _ _)) ?_
  rintro ⟨parentPath, name⟩ found foundWorld ⟨foundSame, resolved, rfl⟩
  rw [← foundSame] at resolved ⊢
  let key : Key := ⟨parentPath, name⟩
  apply yields_insertAbsent key (fun _ => Db.mkdir_atomic) fun _ => .refused _ _
  intro inserted now absent insertedMount
  refine Yields.bind _ (yields_inoFor _) ?_
  intro ino allocated _ allocatedMount
  refine yields_get_bind (yields_pure ?_)
  rw [allocatedMount, insertedMount]
  exact .mkdir parent key now _ resolved absent

theorem rmdir_serving (parent : Nat) (name : OsStr) :
    Serving fs (.rmdir parent name) (rmdir parent name) := by
  unfold Serving rmdir
  refine Yields.bind _ (yields_resolve parent name (.refused _ _)) ?_
  rintro ⟨parentPath, name⟩ found foundWorld ⟨foundSame, resolved, rfl⟩
  rw [← foundSame] at resolved ⊢
  let key : Key := ⟨parentPath, name⟩
  refine Yields.bind _ (yields_query Db.getattrPrimary_atomic (.refused _ _)) ?_
  rintro (_ | fileMeta) asked _ ⟨askedSame, _⟩
  · exact yields_raise (askedSame ▸ .refused _ _)
  rw [← askedSame] at resolved ⊢
  refine Yields.bind (fun removed mount =>
    if removed then
      (∀ child ∈ asked.mount.tables.entries, child.parent ≠ key.path) ∧
        mount = asked.mount.setTables (asked.mount.tables.deleteEntry key).2
    else
      mount = asked.mount)
    (yields_callDb Db.rmdir_atomic ?_ (.refused _ _)) ?_
  · rintro (_ | _) tables known
    · exact congrArg asked.mount.setTables known
    · exact ⟨known.1, congrArg asked.mount.setTables known.2⟩
  rintro (_ | _) removed _ known
  · simp only [Bool.false_eq_true, if_false] at known ⊢
    exact yields_raise (known ▸ .refused _ _)
  · simp only [if_true] at known ⊢
    rcases known with ⟨empty, equal⟩
    refine yields_modify_bind rfl (yields_pure ?_)
    suffices step : Serves (Db.Quiet fs.db) (fs.db.replica = false) asked.mount
        (.rmdir parent (some name)) (.ok .ok)
        (removed.mount.setMaps (removed.mount.forget key.path)) from step
    rw [equal]
    exact .rmdir parent key resolved empty

private theorem yields_childEntries (path : Str) (children : List FileMeta) :
    Yields fs (childEntries path children)
      (fun _ mount => mount = fs.mount.setMaps
        (fs.mount.allocate (children.map fun child => join path child.name))) fail := by
  induction children generalizing fs with
  | nil => exact yields_pure rfl
  | cons child rest induction =>
      refine Yields.bind _ (yields_inoFor _) ?_
      intro ino allocated _ allocatedMount
      refine Yields.bind _ induction ?_
      intro entries listed _ listedMount
      refine yields_pure ?_
      rw [listedMount, allocatedMount]
      rfl

theorem readdir_serving (ino : Nat) (offset : Int) (room : Nat) :
    Serving fs (.readdir ino offset room) (readdir ino offset room) := by
  unfold Serving readdir
  refine Yields.bind _ (yields_pathOrEnoent ino (.refused _ _)) ?_
  rintro path found foundWorld ⟨foundSame, resolved⟩
  rw [← foundSame] at resolved ⊢
  refine Yields.bind _ (yields_inoFor _) ?_
  intro parent allocated allocatedWorld allocatedMount
  refine Yields.bind _ (yields_query Db.list_atomic ?_) ?_
  · rw [allocatedMount]
    exact .readdir ino offset room path [] _ resolved fun _ _ member => by cases member
  rintro children asked _ ⟨askedSame, listed⟩
  refine Yields.bind _ (yields_childEntries path children) ?_
  intro entries done _ doneMount
  have tables : allocated.db.tables = found.mount.tables :=
    congrArg Mount.tables allocatedMount
  have names : children.map (fun child => join path child.name) =
      (children.map (·.name)).map (join path) := by
    rw [List.map_map]
    rfl
  refine yields_pure ?_
  rw [doneMount, askedSame, allocatedMount, names]
  refine .readdir ino offset room path _ _ resolved fun alone name member => ?_
  rcases List.mem_map.mp member with ⟨child, listedChild, rfl⟩
  rw [← tables]
  exact listed (allocatedWorld.2.trans (foundWorld.2.trans alone)) child listedChild

private theorem yields_checkTarget {source : Kind} {newParent newName : Str}
    (failed : ∀ errno, fail errno fs.mount) :
    Yields fs (checkTarget source newParent newName) (fun _ mount => mount = fs.mount)
      fail := by
  unfold checkTarget
  refine Yields.bind (fun _ mount => mount = fs.mount)
    ((yields_tryDb Db.getattrPrimary_atomic).imp ?_ fun _ _ => id) ?_
  · rintro (failure | found) mount answered
    · exact answered.1
    · rcases answered with ⟨tables, ⟨rfl, _⟩, rfl⟩
      rfl
  intro result asked _ askedSame
  rw [← askedSame] at failed ⊢
  split
  · split
    · exact yields_raise (failed _)
    · exact yields_raise (failed _)
    · refine Yields.bind _ (yields_query Db.listPrimary_atomic (failed _)) ?_
      rintro children listed _ ⟨listedSame, _⟩
      rw [← listedSame] at failed ⊢
      split
      · exact yields_raise (failed _)
      · exact yields_pure rfl
    · exact yields_pure rfl
  · exact yields_pure rfl

theorem rename_serving (parent : Nat) (name : OsStr) (newparent : Nat) (newname : OsStr)
    (flags : Nat) :
    Serving fs (.rename parent name newparent newname flags)
      (rename parent name newparent newname flags) := by
  unfold Serving rename
  by_cases flagged : flags ≠ 0
  · simp only [if_pos flagged]
    exact yields_raise (.refused _ _)
  simp only [if_neg flagged]
  refine Yields.bind _ (yields_resolve parent name (.refused _ _)) ?_
  rintro ⟨oldParent, oldName⟩ found _ ⟨foundSame, resolved, rfl⟩
  rw [← foundSame] at resolved ⊢
  refine Yields.bind _ (yields_resolve newparent newname (.refused _ _)) ?_
  rintro ⟨newParent, newName⟩ located _ ⟨locatedSame, newResolved, rfl⟩
  rw [← locatedSame] at resolved newResolved ⊢
  let old : Key := ⟨oldParent, oldName⟩
  let new : Key := ⟨newParent, newName⟩
  by_cases same : join newParent newName = join oldParent oldName
  · simp only [if_pos same]
    exact yields_pure (.renameNothing parent newparent flags _ _ _ _ resolved newResolved same)
  simp only [if_neg same]
  by_cases inside : (below (join oldParent oldName)).isPrefixOf (join newParent newName) = true
  · simp only [if_pos inside]
    exact yields_raise (.refused _ _)
  simp only [if_neg inside]
  refine Yields.bind _ (yields_query Db.getattrPrimary_atomic (.refused _ _)) ?_
  rintro (_ | source) asked _ ⟨askedSame, _⟩
  · exact yields_raise (askedSame ▸ .refused _ _)
  rw [← askedSame] at resolved newResolved ⊢
  refine Yields.bind _ (yields_checkTarget fun _ => .refused _ _) ?_
  rintro _ checked _ checkedSame
  rw [← checkedSame] at resolved newResolved ⊢
  have different : ¬(oldParent = newParent ∧ oldName = newName) := by
    rintro ⟨rfl, rfl⟩
    exact same rfl
  refine Yields.bind (fun _ mount => ∃ tables kind,
    Renamed kind old new checked.mount.tables tables ∧
      mount = checked.mount.setTables tables)
    (yields_callDb (Db.rename_atomic different) ?_ (.refused _ _)) ?_
  · rintro _ tables ⟨kind, renamed⟩
    exact ⟨tables, kind, renamed, rfl⟩
  rintro _ moved _ ⟨tables, kind, renamed, equal⟩
  refine yields_modify_bind rfl (yields_pure ?_)
  suffices step : Serves (Db.Quiet fs.db) (fs.db.replica = false) checked.mount
      (.rename parent (some old.name) newparent (some new.name) flags) (.ok .ok)
      (moved.mount.setMaps
        (moved.mount.rekeyMaps moved.db.moment.pathOrder old.path new.path)) from step
  rw [equal]
  exact .rename parent newparent flags old new kind tables _ resolved newResolved same
    (fun prefixed => inside (List.isPrefixOf_iff_prefix.mpr prefixed)) renamed

/-! ## Steps -/

theorem serve_serving (callback : Callback) :
    Serving fs callback (serve callback) := by
  cases callback with
  | lookup parent name => exact lookup_serving parent name
  | getattr ino => exact getattr_serving ino
  | setattr ino size => exact setattr_serving ino size
  | read ino fh offset size => exact read_serving ino fh offset size
  | write ino fh offset data => exact write_serving ino fh offset data
  | «open» ino => exact open_serving ino
  | flush ino fh => exact flush_serving ino fh _ (.inl rfl)
  | fsync ino fh => exact flush_serving ino fh _ (.inr rfl)
  | release ino fh => exact release_serving ino fh
  | rename parent name newparent newname flags =>
      exact rename_serving parent name newparent newname flags
  | create parent name => exact create_serving parent name
  | mkdir parent name => exact mkdir_serving parent name
  | unlink parent name => exact unlink_serving parent name
  | rmdir parent name => exact rmdir_serving parent name
  | readdir ino offset room => exact readdir_serving ino offset room

theorem yields_preamble (event : Event) (failed : ∀ errno, fail errno fs.mount) :
    Yields fs (preamble event) (fun _ mount => mount = fs.mount) fail := by
  have beat : ∀ state : PgFs, state.mount = fs.mount →
      Yields state (if !event.alive then raise .eio else pure ())
        (fun _ mount => mount = fs.mount) fail := by
    intro state same
    split
    · exact yields_raise (same ▸ failed _)
    · exact yields_pure same
  unfold preamble
  by_cases dumping : event.dumpRequested = true
  · simp only [if_pos dumping]
    refine Yields.bind _ (yields_query Db.replicaState_atomic (failed _)) ?_
    rintro _ dumped _ ⟨same, _⟩
    exact beat dumped same
  · simp only [if_neg dumping]
    exact beat fs rfl

/-- Every step of the daemon is a step of the mount. -/
theorem step_serves {event : Event} {reply : Except Errno Reply} {next : PgFs}
    (run : step event fs = some (reply, next)) :
    Db.SameWorld fs.db next.db ∧
      Serves (Db.Quiet fs.db) (fs.db.replica = false) fs.mount event.callback reply
        next.mount := by
  have serving : Serving fs event.callback (step event) := by
    unfold Serving step
    by_cases checked : hasPreamble event.callback = true
    · simp only [if_pos checked]
      refine Yields.bind _ (yields_preamble event fun _ => .refused _ _) ?_
      rintro _ ready world same
      have quiet : Db.Quiet ready.db ↔ Db.Quiet fs.db := by
        unfold Db.Quiet
        rw [world.1]
      have served : Serving ready event.callback (serve event.callback) :=
        serve_serving event.callback
      unfold Serving at served
      rw [propext quiet, world.2, same] at served
      exact served
    · simp only [if_neg checked]
      exact serve_serving event.callback
  cases reply with
  | ok reply => exact serving _ _ run
  | error errno => exact serving _ _ run

end PgFs

end Pgfs
