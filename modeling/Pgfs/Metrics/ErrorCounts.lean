import Mathlib.Data.Nat.ModEq
import Pgfs.Fs.RenameGuards
import Pgfs.Handles.Batches

namespace Pgfs

open MachineInt

/-! The exported error counters against the errors that are replied. A callback counts
an error only where it goes through `log_and_reply!` or fails to resolve the name of a
lookup; every other exit with an error is missing from the counters. -/

namespace PgFs

open Effect

variable {Value Result : Type} {fs : PgFs}

/-! ## Exits without a count -/

def Asked (fs : PgFs) (body : DbM Value) (goesOn : Value → PgFs → Prop) : Prop :=
  ∃ value db, body fs.db = some (.ok value, db) ∧ goesOn value (fs.setDb db)

def Unlocated (fs : PgFs) (ino : Nat) (goesOn : Str → Prop) : Prop :=
  match fs.pathOfIno ino with
  | none => True
  | some path => goesOn path

def Unresolved (fs : PgFs) (parent : Nat) (name : OsStr) (goesOn : Str → Str → Prop) : Prop :=
  fs.Unlocated parent fun path =>
    match name with
    | none => True
    | some name => goesOn path name

def TargetRefused (fs : PgFs) (source : Kind) (parent name : Str) : Prop :=
  fs.Asked (Db.getattrPrimary parent name) fun found fs =>
    ∃ target, found = some target ∧
      (source ≠ target.kind ∨ source = .dir ∧
        fs.Asked (Db.listPrimary (join parent name)) fun children _ => children.isEmpty = false)

def flushFirst (ino fh : Nat) : FsM Unit := do
  match (← Effect.get).handleId ino fh with
  | some id =>
      let _ ← flushHandle id
  | none => pure ()

/-- The request ends with an error that is replied without being counted. -/
def Uncounted (fs : PgFs) : Callback → Prop
  | .lookup parent name =>
      ∃ path found, fs.pathOfIno parent = some path ∧ name = some found ∧
        fs.Asked (Db.getattr path found) fun found _ => found = none
  | .getattr ino =>
      ino ≠ rootIno ∧ fs.Unlocated ino fun path =>
        fs.Asked (Db.getattr (splitPath path).1 (splitPath path).2) fun found _ => found = none
  | .setattr ino size =>
      ino ≠ rootIno ∧ fs.Unlocated ino fun path =>
        fs.Asked (Db.getattrPrimary (splitPath path).1 (splitPath path).2) fun found _ =>
          ∀ fileMeta, found = some fileMeta → size.isSome = true ∧ fileMeta.kind = .dir
  | .read ino fh offset size =>
      ∃ flushed, flushFirst ino fh fs = some (.ok (), flushed) ∧
        flushed.Unlocated ino fun path =>
          flushed.Asked (Db.readRange (splitPath path).1 (splitPath path).2 (asU64 offset) size)
            fun found _ => found = none
  | .write ino fh _ _ =>
      (fs.handleId ino fh).bind fs.openHandles.lookup = none ∧ fs.pathOfIno ino = none
  | .open ino | .readdir ino _ _ => fs.pathOfIno ino = none
  | .flush _ _ | .fsync _ _ | .release _ _ => False
  | .rename parent name newparent newname flags =>
      flags ≠ 0 ∨ fs.Unresolved parent name fun oldParent oldName =>
        fs.Unresolved newparent newname fun newParent newName =>
          join newParent newName ≠ join oldParent oldName ∧
            (below (join oldParent oldName) <+: join newParent newName ∨
              fs.Asked (Db.getattrPrimary oldParent oldName) fun found fs =>
                ∀ source, found = some source → fs.TargetRefused source.kind newParent newName)
  | .create parent name | .mkdir parent name =>
      fs.Unresolved parent name fun parent name =>
        fs.Asked (Db.getattrPrimary parent name) fun found _ => found.isSome = true
  | .unlink parent name => fs.Unresolved parent name fun _ _ => False
  | .rmdir parent name =>
      fs.Unresolved parent name fun parent name =>
        fs.Asked (Db.getattrPrimary parent name) fun found fs =>
          found.isSome = true → fs.Asked (Db.rmdir parent name) fun removed _ => removed = false

/-! ## Counting -/

def tally (counts : Errno → Nat) : Except Errno Value → Errno → Nat
  | .ok _ => counts
  | .error errno => Function.update counts errno ((counts errno + 1) % 2 ^ 64)

def Tallied (fs : PgFs) (body : FsM Value) (missed : Prop) : Prop :=
  ∀ outcome after, body fs = some (outcome, after) →
    (¬missed → after.errorCounts = tally fs.errorCounts outcome) ∧
      (missed → (∃ errno, outcome = .error errno) ∧ after.errorCounts = fs.errorCounts)

theorem Tallied.congr {body : FsM Value} {missed other : Prop} (tallied : Tallied fs body missed)
    (same : missed ↔ other) : Tallied fs body other := by
  rw [← propext same]
  exact tallied

theorem Tallied.counting {body : FsM Value} {missed : Prop} (tallied : Tallied fs body False)
    (none : ¬missed) : Tallied fs body missed := tallied.congr (iff_of_false id none)

theorem Tallied.missing {body : FsM Value} {missed : Prop} (tallied : Tallied fs body True)
    (some : missed) : Tallied fs body missed := tallied.congr (iff_of_true trivial some)

theorem tallied_pure (value : Value) : Tallied fs (pure value) False := by
  intro outcome after run
  cases run
  exact ⟨fun _ => rfl, False.elim⟩

theorem tallied_raise (errno : Errno) : Tallied fs (raise errno : FsM Value) True := by
  intro outcome after run
  cases run
  exact ⟨fun counted => absurd trivial counted, fun _ => ⟨⟨errno, rfl⟩, rfl⟩⟩

theorem tallied_modify {change : PgFs → PgFs}
    (kept : (change fs).errorCounts = fs.errorCounts) : Tallied fs (modify change) False := by
  intro outcome after run
  cases run
  exact ⟨fun _ => kept, False.elim⟩

theorem tallied_orAbort (value : Option Value) :
    Tallied fs (orAbort value : FsM Value) False := by
  intro outcome after run
  cases value with
  | none => cases run
  | some value =>
      cases run
      exact ⟨fun _ => rfl, False.elim⟩

theorem tallied_logAndReply : Tallied fs (logAndReply : FsM Value) False := by
  intro outcome after run
  cases run
  exact ⟨fun _ => rfl, False.elim⟩

theorem tallied_tryDb (body : DbM Value) : Tallied fs (tryDb body) False := by
  intro outcome after run
  rcases within_eq_some.mp run with ⟨db, attempted, rfl⟩
  rcases attempt_eq_some.mp attempted with ⟨inner, rfl, _⟩
  exact ⟨fun _ => rfl, False.elim⟩

/-- A sequence misses what its first half misses, and what its second half misses
after the first. -/
theorem Tallied.bind {first : FsM Value} {next : Value → FsM Result} {missed : Prop}
    {nextMissed : Value → PgFs → Prop} (tallied : Tallied fs first missed)
    (nextTallied : ∀ value middle, first fs = some (.ok value, middle) →
      Tallied middle (next value) (nextMissed value middle)) :
    Tallied fs (first >>= next)
      (missed ∨ ∃ value middle, first fs = some (.ok value, middle) ∧
        nextMissed value middle) := by
  intro outcome after run
  rcases bind_eq_some.mp run with ⟨value, middle, ran, rest⟩ | ⟨errno, ran, rfl⟩
  · rcases tallied _ _ ran with ⟨counted, missing⟩
    have unmissed : ¬missed := by
      intro misses
      rcases (missing misses).1 with ⟨errno, equal⟩
      cases equal
    have kept : middle.errorCounts = fs.errorCounts := counted unmissed
    rcases nextTallied value middle ran _ _ rest with ⟨nextCounted, nextMissing⟩
    rw [kept] at nextCounted nextMissing
    constructor
    · intro none
      exact nextCounted fun misses => none (Or.inr ⟨value, middle, ran, misses⟩)
    · intro some
      rcases some with misses | ⟨other, otherMiddle, otherRan, misses⟩
      · exact absurd misses unmissed
      · rw [ran] at otherRan
        cases otherRan
        exact nextMissing misses
  · rcases tallied _ _ ran with ⟨counted, missing⟩
    constructor
    · intro none
      exact counted fun misses => none (Or.inl misses)
    · intro some
      rcases some with misses | ⟨value, middle, otherRan, _⟩
      · exact ⟨⟨errno, rfl⟩, (missing misses).2⟩
      · rw [ran] at otherRan
        cases otherRan

theorem Tallied.andThen {first : FsM Value} {next : Value → FsM Result} {missed : Prop}
    (tallied : Tallied fs first missed)
    (nextTallied : ∀ value middle, first fs = some (.ok value, middle) →
      Tallied middle (next value) False) : Tallied fs (first >>= next) missed := by
  have sequence := @Tallied.bind _ _ _ _ _ _ (fun _ _ => False) tallied nextTallied
  apply sequence.congr
  simp

theorem tallied_get_bind {next : PgFs → FsM Value} {missed : Prop}
    (tallied : Tallied fs (next fs) missed) : Tallied fs (Effect.get >>= next) missed := tallied

theorem tallied_tryDb_bind {body : DbM Value} {next : Except DbError Value → FsM Result}
    {nextMissed : Value → PgFs → Prop}
    (answered : ∀ value db, body fs.db = some (.ok value, db) →
      Tallied (fs.setDb db) (next (.ok value)) (nextMissed value (fs.setDb db)))
    (failed : ∀ failure db, body fs.db = some (.error failure, db) →
      Tallied (fs.setDb db) (next (.error failure)) False) :
    Tallied fs (tryDb body >>= next) (fs.Asked body nextMissed) := by
  intro outcome after run
  rcases bind_eq_some.mp run with ⟨result, middle, ran, rest⟩ | ⟨errno, ran, _⟩
  · rcases tryDb_eq_ok.mp ran with ⟨db, called, same⟩
    subst same
    cases result with
    | ok value =>
        have missed : nextMissed value (fs.setDb db) ↔ fs.Asked body nextMissed := by
          constructor
          · intro misses
            exact ⟨value, db, called, misses⟩
          · intro asked
            rcases asked with ⟨other, otherDb, otherCalled, misses⟩
            rw [called] at otherCalled
            cases otherCalled
            exact misses
        exact (answered value db called).congr missed outcome after rest
    | error failure =>
        have unasked : ¬fs.Asked body nextMissed := by
          intro asked
          rcases asked with ⟨value, otherDb, otherCalled, _⟩
          rw [called] at otherCalled
          cases otherCalled
        exact (failed failure db called).counting unasked outcome after rest
  · rcases within_eq_some.mp ran with ⟨db, attempted, _⟩
    rcases attempt_eq_some.mp attempted with ⟨inner, equal, _⟩
    cases equal

theorem tallied_callDb (body : DbM Value) : Tallied fs (callDb body) False := by
  apply (tallied_tryDb body).andThen
  intro outcome middle _
  cases outcome with
  | ok value => exact tallied_pure value
  | error failure => exact tallied_logAndReply

theorem tallied_callDb_bind {body : DbM Value} {next : Value → FsM Result}
    {nextMissed : Value → PgFs → Prop}
    (nextTallied : ∀ value db, body fs.db = some (.ok value, db) →
      Tallied (fs.setDb db) (next value) (nextMissed value (fs.setDb db))) :
    Tallied fs (callDb body >>= next) (fs.Asked body nextMissed) := by
  have sequence := (tallied_callDb body).bind fun value middle ran => by
    rcases callDb_eq_ok.mp ran with ⟨db, called, same⟩
    subst same
    exact nextTallied value db called
  apply sequence.congr
  rw [false_or]
  constructor
  · intro missed
    rcases missed with ⟨value, middle, ran, misses⟩
    rcases callDb_eq_ok.mp ran with ⟨db, called, same⟩
    subst same
    exact ⟨value, db, called, misses⟩
  · intro missed
    rcases missed with ⟨value, db, called, misses⟩
    exact ⟨value, _, callDb_eq_ok.mpr ⟨db, called, rfl⟩, misses⟩

theorem tallied_pathOrEnoent_bind {ino : Nat} {next : Str → FsM Value} {missed : Str → Prop}
    (nextTallied : ∀ path, Tallied fs (next path) (missed path)) :
    Tallied fs (pathOrEnoent ino >>= next) (fs.Unlocated ino missed) := by
  unfold Unlocated
  cases located : fs.pathOfIno ino with
  | none =>
      have refused : pathOrEnoent ino fs = some (.error .enoent, fs) := by
        simp [pathOrEnoent, bind_apply, located]
      intro outcome after run
      rw [bind_of_error refused] at run
      exact tallied_raise .enoent outcome after run
  | some path =>
      have found : pathOrEnoent ino fs = some (.ok path, fs) := by
        simp [pathOrEnoent, bind_apply, located]
      intro outcome after run
      rw [bind_of_ok found] at run
      exact nextTallied path outcome after run

theorem tallied_resolve_bind {parent : Nat} {name : OsStr} {next : Str × Str → FsM Value}
    {missed : Str → Str → Prop}
    (nextTallied : ∀ path name, Tallied fs (next (path, name)) (missed path name)) :
    Tallied fs (resolve parent name >>= next) (fs.Unresolved parent name missed) := by
  have inOrder : resolve parent name >>= next =
      pathOrEnoent parent >>= fun path =>
        match name with
        | none => raise .enoent
        | some name => next (path, name) := by
    funext state
    simp only [resolve, bind_apply]
    rcases pathOrEnoent parent state with _ | ⟨errno | path, middle⟩
    · rfl
    · rfl
    · cases name <;> rfl
  rw [inOrder]
  apply tallied_pathOrEnoent_bind
  intro path
  cases name with
  | none => exact tallied_raise .enoent
  | some name => exact nextTallied path name

theorem tallied_inoFor (path : Str) : Tallied fs (inoFor path) False := by
  intro outcome after run
  cases run
  exact ⟨fun _ => rfl, False.elim⟩

theorem tallied_openHandle (parent name : Str) : Tallied fs (openHandle parent name) False := by
  intro outcome after run
  cases run
  exact ⟨fun _ => rfl, False.elim⟩

theorem tallied_flushHandle (fh : Nat) : Tallied fs (flushHandle fh) False := by
  apply tallied_get_bind
  cases fs.openHandles.lookup fh with
  | none => exact tallied_pure _
  | some handle =>
      apply (tallied_modify rfl).andThen
      intro _ taken _
      cases handle.pending with
      | false =>
          apply (tallied_modify rfl).andThen
          intro _ _ _
          exact tallied_pure _
      | true =>
          apply (tallied_tryDb _).andThen
          intro outcome stored _
          cases outcome with
          | error failure => exact tallied_pure _
          | ok value =>
              apply (tallied_modify rfl).andThen
              intro _ _ _
              exact tallied_pure _

/-! ## The callbacks -/

private def lookupResolved (path name : Str) : FsM Reply := do
  match ← callDb (Db.getattr path name) with
  | some fileMeta =>
      let ino ← inoFor (join path name)
      return .entry (← Effect.get).attrTtl (attrOf ino fileMeta)
  | none => Effect.raise .enoent

private theorem tallied_lookupResolved (path name : Str) :
    Tallied fs (lookupResolved path name)
      (fs.Asked (Db.getattr path name) fun found _ => found = none) := by
  apply tallied_callDb_bind
  intro found db _
  cases found with
  | none => exact (tallied_raise _).missing rfl
  | some fileMeta =>
      apply Tallied.counting _ (Option.some_ne_none _)
      apply (tallied_inoFor _).andThen
      intro ino middle _
      apply tallied_get_bind
      exact tallied_pure _

theorem tallied_lookup (parent : Nat) (name : OsStr) :
    Tallied fs (lookup parent name) (fs.Uncounted (.lookup parent name)) := by
  simp only [Uncounted]
  have unresolved (failed : resolve parent name fs = some (.error .enoent, fs)) :
      Tallied fs (lookup parent name) False := by
    intro outcome after run
    rw [lookup, bind_of_ok (attempt_eq_some.mpr ⟨_, rfl, failed⟩)] at run
    cases run
    exact ⟨fun _ => rfl, False.elim⟩
  cases located : fs.pathOfIno parent with
  | none =>
      apply (unresolved (by simp [resolve, pathOrEnoent, bind_apply, located])).counting
      simp
  | some path =>
      cases name with
      | none =>
          apply (unresolved (by simp [resolve, pathOrEnoent, bind_apply, located])).counting
          simp
      | some name =>
          intro outcome after run
          rw [lookup, bind_of_ok (attempt_eq_some.mpr ⟨_, rfl, resolve_apply located⟩)] at run
          have counted := tallied_lookupResolved path name outcome after run
          simpa using counted

theorem tallied_getattr (ino : Nat) :
    Tallied fs (getattr ino) (fs.Uncounted (.getattr ino)) := by
  simp only [Uncounted]
  unfold getattr
  by_cases root : ino = rootIno
  · rw [if_pos root]
    apply Tallied.counting _ fun missed => missed.1 root
    apply tallied_get_bind
    exact tallied_pure _
  · rw [if_neg root, and_iff_right root]
    apply tallied_pathOrEnoent_bind
    intro path
    apply tallied_callDb_bind
    intro found db _
    cases found with
    | none => exact (tallied_raise _).missing rfl
    | some fileMeta =>
        apply Tallied.counting _ (Option.some_ne_none _)
        apply tallied_get_bind
        exact tallied_pure _

private def readFlushed (ino : Nat) (offset : Int) (size : Nat) : FsM Reply := do
  let path ← pathOrEnoent ino
  match ← callDb (Db.readRange (splitPath path).1 (splitPath path).2 (asU64 offset) size) with
  | some data => return .data data
  | none => Effect.raise .enoent

private theorem tallied_readFlushed (ino : Nat) (offset : Int) (size : Nat) :
    Tallied fs (readFlushed ino offset size) (fs.Unlocated ino fun path =>
      fs.Asked (Db.readRange (splitPath path).1 (splitPath path).2 (asU64 offset) size)
        fun found _ => found = none) := by
  apply tallied_pathOrEnoent_bind
  intro path
  apply tallied_callDb_bind
  intro found db _
  cases found with
  | none => exact (tallied_raise _).missing rfl
  | some data => exact (tallied_pure _).counting (Option.some_ne_none _)

theorem tallied_read (ino fh : Nat) (offset : Int) (size : Nat) :
    Tallied fs (read ino fh offset size) (fs.Uncounted (.read ino fh offset size)) := by
  have inOrder : read ino fh offset size =
      flushFirst ino fh >>= fun _ => readFlushed ino offset size := by
    funext state
    simp only [read, flushFirst, bind_apply, get_apply]
    cases state.handleId ino fh with
    | none => rfl
    | some id =>
        simp only [bind_apply]
        rcases flushHandle id state with _ | ⟨errno | result, middle⟩ <;> rfl
  have flushes : Tallied fs (flushFirst ino fh) False := by
    apply tallied_get_bind
    cases fs.handleId ino fh with
    | none => exact tallied_pure ()
    | some id =>
        apply (tallied_flushHandle id).andThen
        intro _ _ _
        exact tallied_pure ()
  rw [inOrder]
  apply (flushes.bind fun _ middle _ => tallied_readFlushed ino offset size).congr
  rw [false_or]
  constructor
  · intro missed
    rcases missed with ⟨_, flushed, ran, misses⟩
    exact ⟨flushed, ran, misses⟩
  · intro missed
    rcases missed with ⟨flushed, ran, misses⟩
    exact ⟨(), flushed, ran, misses⟩

private theorem tallied_pathOrEnoent_last {ino : Nat} {next : Str → FsM Value}
    (nextTallied : ∀ path, Tallied fs (next path) False) :
    Tallied fs (pathOrEnoent ino >>= next) (fs.pathOfIno ino = none) := by
  apply (tallied_pathOrEnoent_bind nextTallied).congr
  unfold Unlocated
  cases fs.pathOfIno ino <;> simp

theorem tallied_write (ino fh : Nat) (offset : Int) (data : List UInt8) :
    Tallied fs (write ino fh offset data) (fs.Uncounted (.write ino fh offset data)) := by
  simp only [Uncounted]
  apply tallied_get_bind
  have through : Tallied fs (writeThrough ino offset data) (fs.pathOfIno ino = none) := by
    apply tallied_pathOrEnoent_last
    intro path
    apply (tallied_callDb _).andThen
    intro _ _ _
    exact tallied_pure _
  cases meant : fs.handleId ino fh with
  | none => exact through.congr (by simp)
  | some id =>
      cases found : fs.openHandles.lookup id with
      | none =>
          simp only [Option.bind_some, found, Option.map_none]
          exact through.congr (by simp)
      | some buffer =>
          simp only [Option.bind_some, found, Option.map_some]
          apply Tallied.counting _ (by simp)
          apply (tallied_orAbort _).andThen
          intro buffer _ _
          apply (tallied_modify rfl).andThen
          intro _ _ _
          exact tallied_pure _

private theorem Stored.tallied_attributes {parent name : Str} {next : Option FileMeta → FsM Value}
    {row : EntryRow} (stored : fs.db.tables.entries.lookup ⟨parent, name⟩ = some row)
    (nextTallied : ∀ fileMeta middle, Tallied middle (next (some fileMeta)) False) :
    Tallied fs (callDb (Db.getattrPrimary parent name) >>= next) False := by
  apply (tallied_callDb _).andThen
  intro found middle ran
  rcases callDb_eq_ok.mp ran with ⟨db, asked, _⟩
  have attributes := (Db.getattrPrimary_atomic _ _ asked).2.2
  cases found with
  | none =>
      rw [Tables.lookup_eq_none_of_attributes attributes] at stored
      cases stored
  | some fileMeta => exact nextTallied fileMeta middle

theorem tallied_setattr (ino : Nat) (size : Option Nat) :
    Tallied fs (setattr ino size) (fs.Uncounted (.setattr ino size)) := by
  simp only [Uncounted]
  unfold setattr
  by_cases root : ino = rootIno
  · rw [if_pos root]
    apply Tallied.counting _ fun missed => missed.1 root
    apply tallied_get_bind
    exact tallied_pure _
  rw [if_neg root, and_iff_right root]
  apply tallied_pathOrEnoent_bind
  intro path
  apply tallied_callDb_bind
  intro found db asked
  have attributes := (Db.getattrPrimary_atomic _ _ asked).2
  cases found with
  | none => exact (tallied_raise _).missing fun fileMeta absurd => by cases absurd
  | some fileMeta =>
      have stored := Tables.lookup_of_attributes attributes.2
      rw [← attributes.1] at stored
      have answered : ∀ (found : FileMeta) (middle : PgFs), Tallied middle (do
          return Reply.attr (← Effect.get).attrTtl (attrOf ino found)) False :=
        fun found middle => tallied_get_bind (tallied_pure _)
      cases size with
      | none =>
          apply Tallied.counting _ fun missed => Bool.noConfusion (missed fileMeta rfl).1
          exact Stored.tallied_attributes stored answered
      | some newSize =>
          by_cases directory : fileMeta.kind = .dir
          · simp only [if_pos directory]
            apply (tallied_raise _).missing
            intro other same
            cases same
            exact ⟨rfl, directory⟩
          · simp only [if_neg directory]
            apply Tallied.counting _ fun missed => directory (missed fileMeta rfl).2
            apply (tallied_callDb _).andThen
            intro _ middle ran
            rcases callDb_eq_ok.mp ran with ⟨truncated, called, same⟩
            subst same
            have kinds := (Db.truncate_atomic _ _ called).2.contents.kind
            rw [show (fs.setDb db).db.tables = db.tables from rfl, stored, Option.map_some,
              Option.map_eq_some_iff] at kinds
            rcases kinds with ⟨row, kept, _⟩
            exact Stored.tallied_attributes kept answered

theorem tallied_open (ino : Nat) : Tallied fs («open» ino) (fs.Uncounted (.open ino)) := by
  apply tallied_pathOrEnoent_last
  intro path
  apply (tallied_openHandle _ _).andThen
  intro fh opened _
  apply (tallied_modify rfl).andThen
  intro _ _ _
  exact tallied_pure _

theorem tallied_flush (ino fh : Nat) : Tallied fs (flush ino fh) False := by
  apply tallied_get_bind
  cases fs.handleId ino fh with
  | none => exact tallied_pure _
  | some id =>
      apply (tallied_flushHandle id).andThen
      intro result _ _
      cases result with
      | error failure => exact tallied_logAndReply
      | ok value => exact tallied_pure _

theorem tallied_release (ino fh : Nat) : Tallied fs (release ino fh) False := by
  apply tallied_get_bind
  apply (tallied_flushHandle _).andThen
  intro _ flushed _
  apply (tallied_modify rfl).andThen
  intro _ _ _
  exact tallied_pure _

theorem tallied_unlink (parent : Nat) (name : OsStr) :
    Tallied fs (unlink parent name) (fs.Uncounted (.unlink parent name)) := by
  apply tallied_resolve_bind
  intro parent name
  apply (tallied_callDb _).andThen
  intro _ _ _
  apply (tallied_modify rfl).andThen
  intro _ _ _
  exact tallied_pure _

theorem tallied_rmdir (parent : Nat) (name : OsStr) :
    Tallied fs (rmdir parent name) (fs.Uncounted (.rmdir parent name)) := by
  apply tallied_resolve_bind
  intro parent name
  apply tallied_callDb_bind
  intro found db _
  cases found with
  | none => exact (tallied_raise _).missing fun absurd => by cases absurd
  | some fileMeta =>
      apply Tallied.congr _ (forall_prop_of_true rfl).symm
      apply tallied_callDb_bind
      intro removed db _
      cases removed with
      | false => exact (tallied_raise _).missing rfl
      | true =>
          apply Tallied.counting _ Bool.noConfusion
          apply (tallied_modify rfl).andThen
          intro _ _ _
          exact tallied_pure _

private theorem tallied_checkAbsent_bind {parent name : Str} {next : Unit → FsM Reply}
    (nextTallied : ∀ absent, Tallied absent (next ()) False) :
    Tallied fs (checkAbsent parent name >>= next)
      (fs.Asked (Db.getattrPrimary parent name) fun found _ => found.isSome = true) := by
  have inOrder : checkAbsent parent name >>= next =
      callDb (Db.getattrPrimary parent name) >>= fun found =>
        if found.isSome then raise .eexist else next () := by
    funext state
    simp only [checkAbsent, bind_apply]
    rcases callDb (Db.getattrPrimary parent name) state with _ | ⟨errno | found, middle⟩
    · rfl
    · rfl
    · cases found <;> rfl
  rw [inOrder]
  apply tallied_callDb_bind
  intro found db _
  cases found with
  | none => exact (nextTallied _).counting Bool.noConfusion
  | some fileMeta => exact (tallied_raise _).missing rfl

theorem tallied_create (parent : Nat) (name : OsStr) :
    Tallied fs (create parent name) (fs.Uncounted (.create parent name)) := by
  apply tallied_resolve_bind
  intro parent name
  apply tallied_checkAbsent_bind
  intro absent
  apply (tallied_callDb _).andThen
  intro _ _ _
  apply (tallied_openHandle _ _).andThen
  intro fh _ _
  apply (tallied_inoFor _).andThen
  intro ino _ _
  apply tallied_get_bind
  exact tallied_pure _

theorem tallied_mkdir (parent : Nat) (name : OsStr) :
    Tallied fs (mkdir parent name) (fs.Uncounted (.mkdir parent name)) := by
  apply tallied_resolve_bind
  intro parent name
  apply tallied_checkAbsent_bind
  intro absent
  apply (tallied_callDb _).andThen
  intro _ _ _
  apply (tallied_inoFor _).andThen
  intro ino _ _
  apply tallied_get_bind
  exact tallied_pure _

theorem tallied_childEntries (path : Str) (children : List FileMeta) :
    Tallied fs (childEntries path children) False := by
  induction children generalizing fs with
  | nil => exact tallied_pure _
  | cons child rest induction =>
      apply (tallied_inoFor _).andThen
      intro ino _ _
      apply induction.andThen
      intro entries _ _
      exact tallied_pure _

theorem tallied_readdir (ino : Nat) (offset : Int) (room : Nat) :
    Tallied fs (readdir ino offset room) (fs.Uncounted (.readdir ino offset room)) := by
  apply tallied_pathOrEnoent_last
  intro path
  apply (tallied_inoFor _).andThen
  intro parent _ _
  apply (tallied_callDb _).andThen
  intro children _ _
  apply (tallied_childEntries path children).andThen
  intro entries _ _
  exact tallied_pure _

theorem tallied_checkTarget (source : Kind) (parent name : Str) :
    Tallied fs (checkTarget source parent name) (fs.TargetRefused source parent name) := by
  apply tallied_tryDb_bind
  · intro found db _
    cases found with
    | none => exact (tallied_pure _).counting (by simp)
    | some target =>
        simp only [Option.some.injEq, exists_eq_left']
        cases source with
        | file =>
            cases kind : target.kind with
            | file => exact (tallied_pure _).counting (by simp)
            | dir => exact (tallied_raise _).missing (by simp)
        | dir =>
            cases kind : target.kind with
            | file => exact (tallied_raise _).missing (by simp)
            | dir =>
                simp only [ne_eq, not_true_eq_false, true_and, false_or]
                apply tallied_callDb_bind
                intro children db _
                cases children with
                | nil => exact (tallied_pure _).counting Bool.noConfusion
                | cons child rest => exact (tallied_raise _).missing rfl
  · intro failure db _
    exact tallied_pure _

theorem tallied_rename (parent : Nat) (name : OsStr) (newparent : Nat) (newname : OsStr)
    (flags : Nat) :
    Tallied fs (rename parent name newparent newname flags)
      (fs.Uncounted (.rename parent name newparent newname flags)) := by
  simp only [Uncounted]
  unfold rename
  by_cases flagged : flags ≠ 0
  · rw [if_pos flagged]
    exact (tallied_raise _).missing (Or.inl flagged)
  rw [if_neg flagged]
  apply Tallied.congr _ (or_iff_right flagged).symm
  apply tallied_resolve_bind
  intro oldParent oldName
  apply tallied_resolve_bind
  intro newParent newName
  dsimp only
  by_cases same : join newParent newName = join oldParent oldName
  · rw [if_pos same]
    exact (tallied_pure _).counting fun missed => missed.1 same
  rw [if_neg same]
  apply Tallied.congr _ (and_iff_right same).symm
  by_cases inside : (below (join oldParent oldName)).isPrefixOf (join newParent newName) = true
  · rw [if_pos inside]
    exact (tallied_raise _).missing (Or.inl (List.isPrefixOf_iff_prefix.mp inside))
  rw [if_neg inside]
  apply Tallied.congr _
    (or_iff_right fun prefixed => inside (List.isPrefixOf_iff_prefix.mpr prefixed)).symm
  apply tallied_callDb_bind
  intro found db _
  cases found with
  | none => exact (tallied_raise _).missing fun source absurd => by cases absurd
  | some source =>
      have renames : ∀ middle, Tallied middle (do
          callDb (Db.rename oldParent oldName newParent newName)
          rekeyPathMaps (join oldParent oldName) (join newParent newName)
          return Reply.ok) False := by
        intro middle
        apply (tallied_callDb _).andThen
        intro _ _ _
        apply (tallied_modify rfl).andThen
        intro _ _ _
        exact tallied_pure _
      simp only [Option.some.injEq, forall_eq']
      exact (tallied_checkTarget source.kind newParent newName).andThen
        fun _ middle _ => renames middle

theorem tallied_serve (callback : Callback) :
    Tallied fs (serve callback) (fs.Uncounted callback) := by
  cases callback with
  | lookup parent name => exact tallied_lookup parent name
  | getattr ino => exact tallied_getattr ino
  | setattr ino size => exact tallied_setattr ino size
  | read ino fh offset size => exact tallied_read ino fh offset size
  | write ino fh offset data => exact tallied_write ino fh offset data
  | «open» ino => exact tallied_open ino
  | flush ino fh => exact tallied_flush ino fh
  | fsync ino fh => exact tallied_flush ino fh
  | release ino fh => exact tallied_release ino fh
  | rename parent name newparent newname flags =>
      exact tallied_rename parent name newparent newname flags
  | create parent name => exact tallied_create parent name
  | mkdir parent name => exact tallied_mkdir parent name
  | unlink parent name => exact tallied_unlink parent name
  | rmdir parent name => exact tallied_rmdir parent name
  | readdir ino offset room => exact tallied_readdir ino offset room

/-! ## Steps and runs -/

theorem tallied_admission {event : Event} (live : event.alive = true) :
    Tallied fs (admission event) False := by
  have beat : ∀ state : PgFs, Tallied state
      (if !event.alive then raise .eio else pure () : FsM Unit) False := by
    intro state
    rw [live]
    exact tallied_pure ()
  unfold admission
  split
  · unfold preamble
    by_cases dumping : event.dumpRequested = true
    · simp only [if_pos dumping]
      apply (tallied_callDb _).andThen
      intro _ middle _
      exact beat middle
    · simp only [if_neg dumping]
      exact beat fs
  · exact tallied_pure ()

/-- After the preamble, the request does not end with an error that is missing from
the counters. -/
def Counts (fs : PgFs) (event : Event) : Prop :=
  ∀ ready, admission event fs = some (.ok (), ready) → ¬ready.Uncounted event.callback

theorem tallied_step {event : Event} (live : event.alive = true) :
    Tallied fs (step event) (¬fs.Counts event) := by
  rw [step_eq]
  apply ((tallied_admission live).bind fun _ _ _ => tallied_serve event.callback).congr
  simp only [Counts, not_forall, not_not, exists_prop, false_or]
  constructor
  · intro missed
    rcases missed with ⟨_, ready, admitted, misses⟩
    exact ⟨ready, admitted, misses⟩
  · intro missed
    rcases missed with ⟨ready, admitted, misses⟩
    exact ⟨(), ready, admitted, misses⟩

def replied (errno : Errno) (history : List Exchange) : Nat :=
  history.countP fun exchange =>
    match exchange.reply with
    | .ok _ => false
    | .error other => other = errno

theorem replied_snoc (errno : Errno) (history : List Exchange) (exchange : Exchange) :
    replied errno (history ++ [exchange]) =
      replied errno history + if exchange.reply = .error errno then 1 else 0 := by
  unfold replied
  rw [List.countP_append, List.countP_singleton]
  rcases exchange with ⟨event, errno | reply⟩ <;> simp

theorem tally_modEq (counts : Errno → Nat) (outcome : Except Errno Reply) (errno : Errno) :
    tally counts outcome errno ≡
      counts errno + if outcome = .error errno then 1 else 0 [MOD 2 ^ 64] := by
  rcases outcome with other | value
  · simp only [tally, Function.update_apply, Except.error.injEq]
    split_ifs with same other
    · rw [same]
      exact Nat.mod_modEq _ _
    · exact absurd same.symm other
    · exact absurd (Eq.symm ‹other = errno›) same
    · exact .refl _
  · exact .refl _

theorem errorCounts_modEq {start final : PgFs} {history : List Exchange}
    (run : Trace (StepWhere fun before exchange _ => before.Counts exchange.event)
      start history final)
    (live : ∀ exchange ∈ history, exchange.event.alive = true) (errno : Errno) :
    final.errorCounts errno ≡ start.errorCounts errno + replied errno history [MOD 2 ^ 64] := by
  induction run with
  | nil => exact .refl _
  | snoc earlier last induction =>
      rename_i history middle exchange finish
      have known := induction fun exchange member =>
        live exchange (List.mem_append_left _ member)
      have tallied := tallied_step (live exchange (by simp)) _ _ last.1
      rw [tallied.1 (not_not.mpr last.2), replied_snoc, ← Nat.add_assoc]
      exact (tally_modEq _ _ _).trans (known.add_right _)

/-- What a run missed to count, and that it missed nothing only if all its requests are
counted. -/
theorem exists_missed {start final : PgFs} {history : List Exchange}
    (run : Trace Step start history final)
    (live : ∀ exchange ∈ history, exchange.event.alive = true) :
    ∃ missed : Errno → Nat,
      (∀ errno, final.errorCounts errno + missed errno ≡
        start.errorCounts errno + replied errno history [MOD 2 ^ 64]) ∧
      (∀ errno, missed errno ≤ replied errno history) ∧
      ((∀ errno, missed errno = 0) →
        Trace (StepWhere fun before exchange _ => before.Counts exchange.event)
          start history final) := by
  induction run with
  | nil => exact ⟨fun _ => 0, fun _ => .refl _, fun _ => Nat.zero_le _, fun _ => .nil⟩
  | snoc earlier last induction =>
      rename_i history middle exchange finish
      rcases induction fun exchange member => live exchange (List.mem_append_left _ member) with
        ⟨missed, balanced, bounded, counted⟩
      have tallied := tallied_step (live exchange (by simp)) _ _ last
      by_cases counts : middle.Counts exchange.event
      · refine ⟨missed, fun errno => ?_, fun errno => ?_, fun none => ?_⟩
        · rw [tallied.1 (not_not.mpr counts), replied_snoc, ← Nat.add_assoc]
          have more := ((tally_modEq middle.errorCounts exchange.reply errno).add_right
            (missed errno))
          rw [Nat.add_right_comm] at more
          exact more.trans ((balanced errno).add_right _)
        · rw [replied_snoc]
          exact (bounded errno).trans (Nat.le_add_right _ _)
        · exact .snoc (counted none) ⟨last, counts⟩
      · rcases tallied.2 counts with ⟨⟨failed, replies⟩, kept⟩
        refine ⟨fun errno => missed errno + if exchange.reply = .error errno then 1 else 0,
          fun errno => ?_, fun errno => ?_, fun none => ?_⟩
        · rw [kept, replied_snoc, ← Nat.add_assoc, ← Nat.add_assoc]
          exact (balanced errno).add_right _
        · rw [replied_snoc]
          exact Nat.add_le_add_right (bounded errno) _
        · have one : missed failed + (if exchange.reply = .error failed then 1 else 0) = 0 :=
            none failed
          rw [if_pos replies] at one
          exact absurd one (Nat.succ_ne_zero _)

/-- Over a run with a live heartbeat from any state, the counters are exact in every
state reached if and only if every request of the run is counted: each has increased,
modulo its width, by the number of replies with its error. Unless some error is replied
2^64 times, it is enough to look at the last state. -/
theorem error_counters_exact_iff {start final : PgFs} {history : List Exchange}
    (run : Trace Step start history final)
    (live : ∀ exchange ∈ history, exchange.event.alive = true) :
    ((∀ earlier later middle, history = earlier ++ later → Trace Step start earlier middle →
        ∀ errno, middle.errorCounts errno ≡
          start.errorCounts errno + replied errno earlier [MOD 2 ^ 64]) ↔
      Trace (StepWhere fun before exchange _ => before.Counts exchange.event)
        start history final) ∧
    ((∀ errno, replied errno history < 2 ^ 64) →
      ((∀ errno, final.errorCounts errno ≡
          start.errorCounts errno + replied errno history [MOD 2 ^ 64]) ↔
        Trace (StepWhere fun before exchange _ => before.Counts exchange.event)
          start history final)) := by
  have functional : ∀ before exchange after second, Step before exchange after →
      Step before exchange second → second = after := by
    intro before exchange after second step other
    cases step.symm.trans other
    rfl
  refine ⟨⟨fun exact => ?_, fun counts => ?_⟩, fun few => ⟨fun exact => ?_, fun counts => ?_⟩⟩
  · induction run with
    | nil => exact .nil
    | snoc earlier last induction =>
        rename_i history middle exchange finish
        have reached := induction
          (fun exchange member => live exchange (List.mem_append_left _ member))
          fun before after state whole => exact before (after ++ [exchange]) state
            (by rw [whole, List.append_assoc])
        apply Trace.snoc reached ⟨last, ?_⟩
        by_contra uncounted
        have tallied := tallied_step (live exchange (by simp)) _ _ last
        rcases tallied.2 uncounted with ⟨⟨errno, failed⟩, kept⟩
        have here := exact history [exchange] middle rfl earlier errno
        have there := exact (history ++ [exchange]) [] finish (by simp) (.snoc earlier last) errno
        rw [kept, replied_snoc, if_pos failed, ← Nat.add_assoc] at there
        have same := here.symm.trans there
        rw [Nat.ModEq] at same
        omega
  · intro earlier later middle whole reached errno
    subst whole
    rcases counts.cut with ⟨state, first, _⟩
    have same := (first.mono fun _ _ _ step => step.1).functional reached functional
    rw [same]
    exact errorCounts_modEq first (fun exchange member =>
      live exchange (List.mem_append_left _ member)) errno
  · rcases exists_missed run live with ⟨missed, balanced, bounded, counted⟩
    apply counted
    intro errno
    have total := balanced errno
    have whole := exact errno
    have small := (bounded errno).trans_lt (few errno)
    rw [Nat.ModEq] at total whole
    omega
  · exact errorCounts_modEq counts live

private def failingMount : PgFs :=
  withAttrTtl (.connect .empty false fun index => { fails := index = 0 }) 1

/-- The attributes of the root, a removal whose statement fails, the same once more, and
a lookup below an unknown inode. -/
theorem error_counters_exact_iff_failure : ∃ history final,
    Trace Step failingMount history final ∧ replied .eio history = 1 ∧
      replied .enoent history = 1 ∧ history.length = 4 ∧
      ∀ errno, final.errorCounts errno ≡
        failingMount.errorCounts errno + replied errno history [MOD 2 ^ 64] := by
  let history : List Exchange := [] ++
    [⟨{ callback := .getattr 1 }, .ok (.attr 1 rootAttr)⟩] ++
    [⟨{ callback := .unlink 1 (some ['a']) }, .error .eio⟩] ++
    [⟨{ callback := .unlink 1 (some ['a']) }, .ok .ok⟩] ++
    [⟨{ callback := .lookup 7 (some ['a']) }, .error .enoent⟩]
  have counts : ∃ final, Trace
      (StepWhere fun before exchange _ => before.Counts exchange.event)
      failingMount history final := by
    refine ⟨_, .snoc (.snoc (.snoc (.snoc .nil ⟨rfl, ?_⟩) ⟨rfl, ?_⟩) ⟨rfl, ?_⟩) ⟨rfl, ?_⟩⟩
    · intro ready admitted missed
      exact missed.1 rfl
    · intro ready admitted missed
      cases admitted
      exact missed
    · intro ready admitted missed
      cases admitted
      exact missed
    · intro ready admitted missed
      cases admitted
      rcases missed with ⟨path, _, located, _⟩
      cases located
  rcases counts with ⟨final, counts⟩
  have run := counts.mono fun _ _ _ step => step.1
  have few : ∀ errno, replied errno history < 2 ^ 64 := fun errno =>
    (List.countP_le_length).trans_lt (by decide)
  have exact := (error_counters_exact_iff run (by decide)).2 few
  exact ⟨history, final, run, rfl, rfl, rfl, exact.mpr counts⟩

/-- The attributes of an unknown inode are replied with ENOENT, and nothing is counted. -/
theorem getattr_enoent_not_counted : ¬∀ start history final, Trace Step start history final →
    (∀ exchange ∈ history, exchange.event.alive = true) →
    ∀ errno, final.errorCounts errno ≡
      start.errorCounts errno + replied errno history [MOD 2 ^ 64] := by
  intro claimed
  have served : ∃ next, Step freshMount ⟨{ callback := .getattr 7 }, .error .enoent⟩ next ∧
      next.errorCounts .enoent = 0 := ⟨_, rfl, rfl⟩
  rcases served with ⟨next, step, uncounted⟩
  have live : ∀ exchange ∈ ([⟨{ callback := .getattr 7 }, .error .enoent⟩] : List Exchange),
      exchange.event.alive = true := by simp
  have counted := claimed _ _ _ (.snoc .nil step) live .enoent
  rw [uncounted] at counted
  exact absurd counted (by decide)

end PgFs

end Pgfs
