import Pgfs.Db.SideBySide
import Pgfs.Handles.Batches
import Pgfs.Handles.Overlay
import Pgfs.Replica.Routing

namespace Pgfs

open Effect MachineInt

/-! One file as those see it who have it open. Two mounts that look the same to
them serve their requests alike. -/

def FileAttr.timeless (attr : FileAttr) : FileAttr := { attr with mtime := 0 }

def Reply.timeless : Reply → Reply
  | .entry ttl shown => .entry ttl shown.timeless
  | .attr ttl shown => .attr ttl shown.timeless
  | .created ttl shown fh => .created ttl shown.timeless fh
  | reply => reply

/-- A file in use: its inode, the path that the inode resolves to, and the handles
that its users may name. -/
structure OpenFile where
  ino : Nat
  path : Str
  handles : Set Nat

namespace OpenFile

def key (file : OpenFile) : Key := keyOf file.path

/-- A request about the contents of the file, through one of its handles and within
the addressable bytes. -/
def Addressed (file : OpenFile) : Callback → Prop
  | .setattr ino _ => ino = file.ino
  | .read ino fh offset size =>
      ino = file.ino ∧ fh ≠ 0 ∧ fh ∈ file.handles ∧ asU64 offset + size ≤ addressable
  | .write ino fh offset data =>
      ino = file.ino ∧ fh ≠ 0 ∧ fh ∈ file.handles ∧
        asU64 offset + data.length ≤ addressable
  | .flush ino fh | .fsync ino fh | .release ino fh =>
      ino = file.ino ∧ fh ≠ 0 ∧ fh ∈ file.handles
  | _ => False

/-- Two mounts that look the same to the users of the file. Each open handle that
they may name carries the key of the file. -/
structure Looks (ttl : Nat) (file : OpenFile) (left right : PgFs) : Prop where
  db : Db.AlikeAt file.key left.db right.db
  handles : ∀ fh ∈ file.handles, left.openHandles.lookup fh = right.openHandles.lookup fh
  carried : ∀ fh ∈ file.handles, ∀ buffer, left.openHandles.lookup fh = some buffer →
    buffer.key = file.key
  resolved : left.pathOfIno file.ino = some file.path
  otherResolved : right.pathOfIno file.ino = some file.path
  attrTtl : left.attrTtl = ttl
  otherTtl : right.attrTtl = ttl

namespace Looks

variable {ttl : Nat} {file : OpenFile} {left right third : PgFs}

theorem symm (same : file.Looks ttl left right) : file.Looks ttl right left where
  db := same.db.symm
  handles fh member := (same.handles fh member).symm
  carried fh member buffer found :=
    same.carried fh member buffer ((same.handles fh member).trans found)
  resolved := same.otherResolved
  otherResolved := same.resolved
  attrTtl := same.otherTtl
  otherTtl := same.attrTtl

theorem trans (same : file.Looks ttl left right) (next : file.Looks ttl right third) :
    file.Looks ttl left third where
  db := same.db.trans next.db
  handles fh member := (same.handles fh member).trans (next.handles fh member)
  carried := same.carried
  resolved := same.resolved
  otherResolved := next.otherResolved
  attrTtl := same.attrTtl
  otherTtl := next.otherTtl

theorem setDb (same : file.Looks ttl left right) {db other : Db}
    (alike : Db.AlikeAt file.key db other) :
    file.Looks ttl (left.setDb db) (right.setDb other) :=
  { same with db := alike }

theorem countError (same : file.Looks ttl left right) (errno : Errno) :
    file.Looks ttl (left.countError errno) (right.countError errno) :=
  ⟨same.db, same.handles, same.carried, same.resolved, same.otherResolved, same.attrTtl,
    same.otherTtl⟩

theorem insertHandle (same : file.Looks ttl left right) (fh : Nat) {buffer : HandleBuffer}
    (own : buffer.key = file.key) :
    file.Looks ttl (left.setHandles (left.openHandles.insert fh buffer))
      (right.setHandles (right.openHandles.insert fh buffer)) where
  db := same.db
  handles other member := by
    simp only [PgFs.setHandles, Table.lookup_insert_eq]
    rw [same.handles other member]
  carried other member found inserted := by
    simp only [PgFs.setHandles, Table.lookup_insert_eq] at inserted
    split at inserted
    · cases inserted
      exact own
    · exact same.carried other member found inserted
  resolved := same.resolved
  otherResolved := same.otherResolved
  attrTtl := same.attrTtl
  otherTtl := same.otherTtl

theorem eraseHandle (same : file.Looks ttl left right) (fh : Nat) :
    file.Looks ttl (left.setHandles (left.openHandles.erase fh))
      (right.setHandles (right.openHandles.erase fh)) where
  db := same.db
  handles other member := by
    simp only [PgFs.setHandles, Table.lookup_erase_eq]
    rw [same.handles other member]
  carried other member found kept := by
    simp only [PgFs.setHandles, Table.lookup_erase_eq] at kept
    split at kept
    · cases kept
    · exact same.carried other member found kept
  resolved := same.resolved
  otherResolved := same.otherResolved
  attrTtl := same.attrTtl
  otherTtl := same.otherTtl

/-! ## Calls of the database -/

theorem alike_tryDb (same : file.Looks ttl left right) {view : Except DbError Value → Shown}
    {body : DbM Value}
    (alike : Alike (Db.AlikeAt file.key) view left.db right.db
      (body.attempt : Effect Db Errno _) body.attempt) :
    Alike (file.Looks ttl) view left right (PgFs.tryDb body) (PgFs.tryDb body) :=
  alike.within fun _ _ reached => same.setDb reached

theorem alike_logAndReply (same : file.Looks ttl left right) {view : Value → Shown} :
    Alike (file.Looks ttl) view left right PgFs.logAndReply PgFs.logAndReply := by
  apply (alike_modify (same.countError .eio)).andThen
  intro _ middle otherMiddle reached
  exact alike_raise _ reached

theorem alike_callDb (same : file.Looks ttl left right) {view : Value → Shown}
    {body : DbM Value} (alike : Alike (Db.AlikeAt file.key) view left.db right.db body body) :
    Alike (file.Looks ttl) view left right (PgFs.callDb body) (PgFs.callDb body) := by
  apply (same.alike_tryDb alike.attempt).bind
  intro result other middle otherMiddle shown reached
  cases result with
  | error failure =>
      cases other with
      | error otherFailure => exact reached.alike_logAndReply
      | ok value => cases shown
  | ok value =>
      cases other with
      | error otherFailure => cases shown
      | ok otherValue => exact alike_pure (Except.ok.inj shown) reached

theorem alike_path_bind (same : file.Looks ttl left right) {view : Value → Shown}
    {next otherNext : Str → FsM Value}
    (nextAlike : Alike (file.Looks ttl) view left right (next file.path)
      (otherNext file.path)) :
    Alike (file.Looks ttl) view left right (PgFs.pathOrEnoent file.ino >>= next)
      (PgFs.pathOrEnoent file.ino >>= otherNext) := by
  have found : PgFs.pathOrEnoent file.ino left = some (.ok file.path, left) := by
    simp [PgFs.pathOrEnoent, bind_apply, same.resolved]
  have otherFound : PgFs.pathOrEnoent file.ino right = some (.ok file.path, right) := by
    simp [PgFs.pathOrEnoent, bind_apply, same.otherResolved]
  unfold Alike
  rw [bind_of_ok found, bind_of_ok otherFound]
  exact nextAlike

/-! ## Callbacks -/

theorem alike_flushHandle (same : file.Looks ttl left right) {fh : Nat}
    (member : fh ∈ file.handles) :
    Alike (file.Looks ttl) Except.isOk left right (PgFs.flushHandle fh)
      (PgFs.flushHandle fh) := by
  apply alike_get_bind
  rw [← same.handles fh member]
  cases found : left.openHandles.lookup fh with
  | none => exact alike_pure rfl same
  | some handle =>
      have carries : handle.key = file.key := same.carried fh member handle found
      apply (alike_modify (same.eraseHandle fh)).andThen
      intro _ taken otherTaken reached
      cases handle.pending with
      | false =>
          apply (alike_modify (reached.insertHandle fh carries)).andThen
          intro _ _ _ finished
          exact alike_pure rfl finished
      | true =>
          have own : (⟨handle.parent, handle.name⟩ : Key) = file.key := carries
          have batch : Db.AlikeAt ⟨handle.parent, handle.name⟩ taken.db otherTaken.db := by
            rw [own]
            exact reached.db
          have stored : Alike (Db.AlikeAt ⟨handle.parent, handle.name⟩) Except.isOk taken.db
              otherTaken.db ((Db.writeBlocksBatch handle.parent handle.name handle.dirtyBlocks
                handle.maxSize).attempt : Effect Db Errno _)
              (Db.writeBlocksBatch handle.parent handle.name handle.dirtyBlocks
                handle.maxSize).attempt := Db.alike_writeBlocksBatch batch _ _
          rw [own] at stored
          apply (reached.alike_tryDb stored).bind
          intro result other middle otherMiddle shown settled
          cases result with
          | error failure =>
              cases other with
              | error otherFailure => exact alike_pure rfl settled
              | ok value => cases shown
          | ok value =>
              cases other with
              | error otherFailure => cases shown
              | ok otherValue =>
                  have cleaned : HandleBuffer.key { handle with dirtyBlocks := ∅, maxSize := 0 } =
                      file.key := carries
                  apply (alike_modify (settled.insertHandle fh cleaned)).andThen
                  intro _ _ _ finished
                  exact alike_pure rfl finished

private theorem handleId_of_ne (fs : PgFs) (ino : Nat) {fh : Nat} (given : fh ≠ 0) :
    fs.handleId ino fh = some fh := if_pos given

theorem timeless_attrOf (ino : Nat) {fileMeta other : FileMeta}
    (same : fileMeta.timeless = other.timeless) :
    (PgFs.attrOf ino fileMeta).timeless = (PgFs.attrOf ino other).timeless := by
  rcases FileMeta.eq_of_timeless same with ⟨mtime, equal⟩
  subst equal
  unfold PgFs.attrOf
  cases fileMeta.kind <;> rfl

theorem alike_attributes (same : file.Looks ttl left right) :
    Alike (file.Looks ttl) (Option.map FileMeta.timeless) left right
      (PgFs.callDb (Db.getattrPrimary (splitPath file.path).1 (splitPath file.path).2))
      (PgFs.callDb (Db.getattrPrimary (splitPath file.path).1 (splitPath file.path).2)) :=
  same.alike_callDb (Db.alike_getattrPrimary same.db)

theorem alike_replyAttr (same : file.Looks ttl left right) {ino : Nat}
    {next : Option FileMeta → FsM Reply} (missing : next none = raise .enoent)
    (found : ∀ fileMeta, next (some fileMeta) = do
      return .attr (← Effect.get).attrTtl (PgFs.attrOf ino fileMeta)) :
    Alike (file.Looks ttl) Reply.timeless left right
      (PgFs.callDb (Db.getattrPrimary (splitPath file.path).1 (splitPath file.path).2) >>= next)
      (PgFs.callDb (Db.getattrPrimary (splitPath file.path).1 (splitPath file.path).2) >>=
        next) := by
  apply same.alike_attributes.bind
  intro answer other middle otherMiddle shown reached
  cases answer with
  | none =>
      rw [Option.map_eq_none_iff.mp shown.symm, missing]
      exact alike_raise _ reached
  | some fileMeta =>
      rcases Option.map_eq_some_iff.mp shown.symm with ⟨otherMeta, answered, alike⟩
      rw [answered, found, found]
      apply alike_get_bind
      rw [reached.attrTtl, reached.otherTtl]
      apply alike_pure _ reached
      simp only [Reply.timeless, timeless_attrOf ino alike.symm]

theorem alike_setattr (same : file.Looks ttl left right) (size : Option Nat) :
    Alike (file.Looks ttl) Reply.timeless left right (PgFs.setattr file.ino size)
      (PgFs.setattr file.ino size) := by
  unfold PgFs.setattr
  by_cases root : file.ino = rootIno
  · rw [if_pos root]
    apply alike_get_bind
    rw [same.attrTtl, same.otherTtl]
    exact alike_pure rfl same
  rw [if_neg root]
  apply same.alike_path_bind
  apply same.alike_attributes.bind
  intro found other middle otherMiddle shown reached
  cases found with
  | none =>
      rw [Option.map_eq_none_iff.mp shown.symm]
      exact alike_raise _ reached
  | some fileMeta =>
      rcases Option.map_eq_some_iff.mp shown.symm with ⟨otherMeta, answered, alike⟩
      subst answered
      have timeless := congrArg FileMeta.kind alike
      have kinds : otherMeta.kind = fileMeta.kind := timeless
      cases size with
      | none => exact reached.alike_replyAttr rfl fun _ => rfl
      | some newSize =>
          dsimp only
          rw [kinds]
          split
          · exact alike_raise _ reached
          · apply (reached.alike_callDb (Db.alike_truncate reached.db newSize)).andThen
            intro _ truncated otherTruncated looks
            exact looks.alike_replyAttr rfl fun _ => rfl

theorem alike_read (same : file.Looks ttl left right) {fh : Nat} (given : fh ≠ 0)
    (member : fh ∈ file.handles) {offset : Int} {size : Nat}
    (fits : asU64 offset + size ≤ addressable) :
    Alike (file.Looks ttl) Reply.timeless left right (PgFs.read file.ino fh offset size)
      (PgFs.read file.ino fh offset size) := by
  unfold PgFs.read
  apply alike_get_bind
  rw [handleId_of_ne left file.ino given, handleId_of_ne right file.ino given]
  apply (same.alike_flushHandle member).bind
  intro _ _ flushed otherFlushed _ looks
  apply looks.alike_path_bind
  apply (looks.alike_callDb (Db.alike_readRange looks.db fits)).andThen
  intro found read otherRead settled
  cases found with
  | none => exact alike_raise _ settled
  | some data => exact alike_pure rfl settled

theorem alike_write (same : file.Looks ttl left right) {fh : Nat} (given : fh ≠ 0)
    (member : fh ∈ file.handles) {offset : Int} {data : List UInt8}
    (fits : asU64 offset + data.length ≤ addressable) :
    Alike (file.Looks ttl) Reply.timeless left right (PgFs.write file.ino fh offset data)
      (PgFs.write file.ino fh offset data) := by
  unfold PgFs.write
  apply alike_get_bind
  rw [handleId_of_ne left file.ino given, handleId_of_ne right file.ino given,
    Option.bind_some, Option.bind_some, ← same.handles fh member]
  cases found : left.openHandles.lookup fh with
  | none =>
      apply same.alike_path_bind
      apply (same.alike_callDb (Db.alike_writeRange same.db fits)).andThen
      intro _ _ _ written
      exact alike_pure rfl written
  | some buffer =>
      rcases HandleBuffer.exists_write (show RangeWrite.Fits ⟨asU64 offset, data⟩ from fits)
        buffer with ⟨next, written⟩
      have carries : next.key = file.key :=
        (HandleBuffer.buffered_of_write written).key.trans (same.carried fh member buffer found)
      have buffered : (orAbort (buffer.write (asU64 offset) data) : FsM HandleBuffer) =
          pure next := by
        rw [written]
        rfl
      simp only [Option.map_some, buffered, Effect.pure_bind]
      apply (alike_modify (same.insertHandle fh carries)).andThen
      intro _ _ _ settled
      exact alike_pure rfl settled

theorem alike_flush (same : file.Looks ttl left right) {fh : Nat} (given : fh ≠ 0)
    (member : fh ∈ file.handles) :
    Alike (file.Looks ttl) Reply.timeless left right (PgFs.flush file.ino fh)
      (PgFs.flush file.ino fh) := by
  unfold PgFs.flush
  apply alike_get_bind
  rw [handleId_of_ne left file.ino given, handleId_of_ne right file.ino given]
  apply (same.alike_flushHandle member).bind
  intro result other flushed otherFlushed shown looks
  cases result with
  | error failure =>
      cases other with
      | error otherFailure => exact looks.alike_logAndReply
      | ok value => cases shown
  | ok value =>
      cases other with
      | error otherFailure => cases shown
      | ok otherValue => exact alike_pure rfl looks

theorem alike_release (same : file.Looks ttl left right) {fh : Nat} (given : fh ≠ 0)
    (member : fh ∈ file.handles) :
    Alike (file.Looks ttl) Reply.timeless left right (PgFs.release file.ino fh)
      (PgFs.release file.ino fh) := by
  unfold PgFs.release
  apply alike_get_bind
  rw [handleId_of_ne left file.ino given, handleId_of_ne right file.ino given]
  apply (same.alike_flushHandle member).bind
  intro _ _ flushed otherFlushed _ looks
  have dropped := looks.eraseHandle fh
  apply (alike_modify _).andThen
  · intro _ _ _ settled
    exact alike_pure rfl settled
  · exact ⟨dropped.db, dropped.handles, dropped.carried, dropped.resolved,
      dropped.otherResolved, dropped.attrTtl, dropped.otherTtl⟩

theorem alike_replicaState (same : file.Looks ttl left right) :
    Alike (Db.AlikeAt file.key) (id : Unit → Unit) left.db right.db Db.replicaState
      Db.replicaState := by
  have dumped : ∀ db : Db, Db.Quiet db → ∃ after, Db.replicaState db = some (.ok (), after) ∧
      Db.Quiet after ∧ after.tables = db.tables := by
    intro db quiet
    have known := Db.replicaState_atomic _ _ (Db.replicaState_apply db)
    refine ⟨_, Db.replicaState_apply db, ?_, known.2.1⟩
    intro index
    rw [known.1.1]
    exact quiet index
  rcases dumped left.db same.db.quiet with ⟨after, run, quiet, tables⟩
  rcases dumped right.db same.db.otherQuiet with ⟨otherAfter, otherRun, otherQuiet, otherTables⟩
  refine ⟨_, after, _, otherAfter, run, otherRun, rfl, quiet, otherQuiet, ?_⟩
  rw [tables, otherTables]
  exact same.db.agree

theorem alike_admission (same : file.Looks ttl left right) (event : Event) :
    Alike (file.Looks ttl) (id : Unit → Unit) left right (PgFs.admission event)
      (PgFs.admission event) := by
  have beat : ∀ {dumped otherDumped : PgFs}, file.Looks ttl dumped otherDumped →
      Alike (file.Looks ttl) (id : Unit → Unit) dumped otherDumped
        (if !event.alive then raise .eio else pure () : FsM Unit)
        (if !event.alive then raise .eio else pure () : FsM Unit) := by
    intro dumped otherDumped looks
    split
    · exact alike_raise _ looks
    · exact alike_pure rfl looks
  unfold PgFs.admission
  split
  · unfold PgFs.preamble
    by_cases dumping : event.dumpRequested = true
    · simp only [if_pos dumping]
      apply (same.alike_callDb same.alike_replicaState).andThen
      intro _ dumped otherDumped looks
      exact beat looks
    · simp only [if_neg dumping]
      exact beat same
  · exact alike_pure rfl same

theorem alike_serve (same : file.Looks ttl left right) {callback : Callback}
    (addressed : file.Addressed callback) :
    Alike (file.Looks ttl) Reply.timeless left right (PgFs.serve callback)
      (PgFs.serve callback) := by
  cases callback with
  | setattr ino size =>
      cases addressed
      exact same.alike_setattr size
  | read ino fh offset size =>
      rcases addressed with ⟨rfl, given, member, fits⟩
      exact same.alike_read given member fits
  | write ino fh offset data =>
      rcases addressed with ⟨rfl, given, member, fits⟩
      exact same.alike_write given member fits
  | flush ino fh =>
      rcases addressed with ⟨rfl, given, member⟩
      exact same.alike_flush given member
  | fsync ino fh =>
      rcases addressed with ⟨rfl, given, member⟩
      exact same.alike_flush given member
  | release ino fh =>
      rcases addressed with ⟨rfl, given, member⟩
      exact same.alike_release given member
  | _ => cases addressed

/-- A request of the file is served alike by mounts that look the same to it. -/
theorem alike_step (same : file.Looks ttl left right) {event : Event}
    (addressed : file.Addressed event.callback) :
    Alike (file.Looks ttl) Reply.timeless left right (PgFs.step event) (PgFs.step event) := by
  rw [PgFs.step_eq]
  apply (same.alike_admission event).andThen
  intro _ ready otherReady looks
  exact looks.alike_serve addressed

end Looks

end OpenFile

end Pgfs
