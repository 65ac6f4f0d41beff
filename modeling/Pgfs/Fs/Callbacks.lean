import Pgfs.Fs.State

namespace Pgfs

open MachineInt

/-! The FUSE callbacks. -/

/-- A request of the kernel. Offsets are `i64`, as the kernel passes them; a
directory read says how many entries its reply buffer can hold. -/
inductive Callback
  | lookup (parent : Nat) (name : OsStr)
  | getattr (ino : Nat)
  | setattr (ino : Nat) (size : Option Nat)
  | read (ino fh : Nat) (offset : Int) (size : Nat)
  | write (ino fh : Nat) (offset : Int) (data : List UInt8)
  | open (ino : Nat)
  | flush (ino fh : Nat)
  | fsync (ino fh : Nat)
  | release (ino fh : Nat)
  | rename (parent : Nat) (name : OsStr) (newparent : Nat) (newname : OsStr)
      (flags : Nat)
  | create (parent : Nat) (name : OsStr)
  | mkdir (parent : Nat) (name : OsStr)
  | unlink (parent : Nat) (name : OsStr)
  | rmdir (parent : Nat) (name : OsStr)
  | readdir (ino : Nat) (offset : Int) (room : Nat)

/-- A request as it arrives: whether a state dump was requested, and whether
the liveness heartbeat is found advancing. -/
structure Event where
  callback : Callback
  dumpRequested : Bool := false
  alive : Bool := true

namespace PgFs

/-- `lookup`. -/
def lookup (parent : Nat) (name : OsStr) : FsM Reply := do
  match ← (resolve parent name).attempt with
  | .error errno =>
      Effect.modify fun fs => fs.countError .enoent
      Effect.raise errno
  | .ok (parentPath, name) =>
      match ← callDb (Db.getattr parentPath name) with
      | some fileMeta =>
          let ino ← inoFor (join parentPath name)
          return .entry (← Effect.get).attrTtl (attrOf ino fileMeta)
      | none => Effect.raise .enoent

/-- `getattr`. -/
def getattr (ino : Nat) : FsM Reply := do
  if ino = rootIno then
    return .attr (← Effect.get).attrTtl rootAttr
  else
    let path ← pathOrEnoent ino
    match ← callDb (Db.getattr (splitPath path).1 (splitPath path).2) with
    | some fileMeta => return .attr (← Effect.get).attrTtl (attrOf ino fileMeta)
    | none => Effect.raise .enoent

/-- `setattr`, of which only a size has an effect. -/
def setattr (ino : Nat) (size : Option Nat) : FsM Reply := do
  if ino = rootIno then
    return .attr (← Effect.get).attrTtl rootAttr
  else
    let path ← pathOrEnoent ino
    let (parent, name) := splitPath path
    match ← callDb (Db.getattrPrimary parent name) with
    | none => Effect.raise .enoent
    | some fileMeta =>
        match size with
        | none => pure ()
        | some newSize =>
            if fileMeta.kind = .dir then
              Effect.raise .eisdir
            else
              callDb (Db.truncate parent name newSize)
        match ← callDb (Db.getattrPrimary parent name) with
        | some fileMeta => return .attr (← Effect.get).attrTtl (attrOf ino fileMeta)
        | none => Effect.raise .enoent

/-- `read`: flush the handle, ignoring a failure, and read the file. -/
def read (ino fh : Nat) (offset : Int) (size : Nat) : FsM Reply := do
  match (← Effect.get).handleId ino fh with
  | some id =>
      let _ ← flushHandle id
  | none => pure ()
  let path ← pathOrEnoent ino
  match ← callDb (Db.readRange (splitPath path).1 (splitPath path).2
      (asU64 offset) size) with
  | some data => return .data data
  | none => Effect.raise .enoent

/-- `write` straight to the database, when there is no open handle. -/
def writeThrough (ino : Nat) (offset : Int) (data : List UInt8) : FsM Reply := do
  let path ← pathOrEnoent ino
  callDb (Db.writeRange (splitPath path).1 (splitPath path).2 (asU64 offset) data)
  return .written (data.length % 2 ^ 32)

/-- `write`. -/
def write (ino fh : Nat) (offset : Int) (data : List UInt8) : FsM Reply := do
  let fs ← Effect.get
  match (fs.handleId ino fh).bind fun id =>
      (fs.openHandles.lookup id).map fun buffer => (id, buffer) with
  | some (id, buffer) =>
      let buffer ← Effect.orAbort (buffer.write (asU64 offset) data)
      Effect.modify fun fs => fs.setHandles (fs.openHandles.insert id buffer)
      return .written (data.length % 2 ^ 32)
  | none => writeThrough ino offset data

/-- `open`: the new handle becomes the one remembered for the inode. -/
def «open» (ino : Nat) : FsM Reply := do
  let path ← pathOrEnoent ino
  let fh ← openHandle (splitPath path).1 (splitPath path).2
  Effect.modify fun fs =>
    { fs with openHandlesByIno := fs.openHandlesByIno.insert ino fh }
  return .opened fh

/-- `flush` and `fsync`. -/
def flush (ino fh : Nat) : FsM Reply := do
  match (← Effect.get).handleId ino fh with
  | some id =>
      match ← flushHandle id with
      | .error _ => logAndReply
      | .ok () => return .ok
  | none => return .ok

/-- `release`: flush the handle, ignoring a failure, and drop it together with
what is remembered for its inode. -/
def release (ino fh : Nat) : FsM Reply := do
  let id := ((← Effect.get).handleId ino fh).getD 0
  let _ ← flushHandle id
  Effect.modify fun fs => { fs with
    openHandles := fs.openHandles.erase id
    openHandlesByIno := fs.openHandlesByIno.select fun key value =>
      decide (key ≠ ino) && decide (value ≠ id) }
  return .ok

def checkTarget (source : Kind) (newParent newName : Str) : FsM Unit := do
  match ← tryDb (Db.getattrPrimary newParent newName) with
  | .ok (some target) =>
      match source, target.kind with
      | .file, .dir => Effect.raise .eisdir
      | .dir, .file => Effect.raise .enotdir
      | .dir, .dir =>
          let children ← callDb (Db.listPrimary (join newParent newName))
          if !children.isEmpty then
            Effect.raise .enotempty
      | .file, .file => return ()
  | _ => return ()

/-- `rename`. -/
def rename (parent : Nat) (name : OsStr) (newparent : Nat) (newname : OsStr)
    (flags : Nat) : FsM Reply := do
  if flags ≠ 0 then
    Effect.raise .einval
  else
    let (oldParent, oldName) ← resolve parent name
    let (newParent, newName) ← resolve newparent newname
    let oldPath := join oldParent oldName
    let newPath := join newParent newName
    if newPath = oldPath then
      return .ok
    else if (below oldPath).isPrefixOf newPath then
      Effect.raise .einval
    else
      match ← callDb (Db.getattrPrimary oldParent oldName) with
      | none => Effect.raise .enoent
      | some source =>
          checkTarget source.kind newParent newName
          callDb (Db.rename oldParent oldName newParent newName)
          rekeyPathMaps oldPath newPath
          return .ok

def checkAbsent (parent name : Str) : FsM Unit := do
  if (← callDb (Db.getattrPrimary parent name)).isSome then
    Effect.raise .eexist

/-- `create`: the new handle is not remembered for the inode. -/
def create (parent : Nat) (name : OsStr) : FsM Reply := do
  let (parentPath, name) ← resolve parent name
  checkAbsent parentPath name
  callDb (Db.create parentPath name)
  let fh ← openHandle parentPath name
  let ino ← inoFor (join parentPath name)
  let fs ← Effect.get
  return .created fs.attrTtl (fileAttr ino 0 fs.db.moment.now) fh

/-- `mkdir`. -/
def mkdir (parent : Nat) (name : OsStr) : FsM Reply := do
  let (parentPath, name) ← resolve parent name
  checkAbsent parentPath name
  callDb (Db.mkdir parentPath name)
  let ino ← inoFor (join parentPath name)
  return .entry (← Effect.get).attrTtl (dirAttr ino)

/-- `unlink`. -/
def unlink (parent : Nat) (name : OsStr) : FsM Reply := do
  let (parentPath, name) ← resolve parent name
  callDb (Db.unlink parentPath name)
  forgetPath (join parentPath name)
  return .ok

/-- `rmdir`. -/
def rmdir (parent : Nat) (name : OsStr) : FsM Reply := do
  let (parentPath, name) ← resolve parent name
  match ← callDb (Db.getattrPrimary parentPath name) with
  | none => Effect.raise .enoent
  | some _ =>
      if ← callDb (Db.rmdir parentPath name) then
        forgetPath (join parentPath name)
        return .ok
      else
        Effect.raise .enotempty

def childEntries (path : Str) : List FileMeta → FsM (List (Nat × Kind × Str))
  | [] => return []
  | child :: rest => do
      let ino ← inoFor (join path child.name)
      return (ino, child.kind, child.name) :: (← childEntries path rest)

/-- `readdir`: from `offset` on, as many entries as the reply buffer holds. -/
def readdir (ino : Nat) (offset : Int) (room : Nat) : FsM Reply := do
  let path ← pathOrEnoent ino
  let parent ← parentIno path
  let children ← callDb (Db.list path)
  let rest ← childEntries path children
  let entries := (ino, Kind.dir, ['.']) :: (parent, Kind.dir, ['.', '.']) :: rest
  let numbered := entries.zipIdx.map fun (entry, index) =>
    (⟨entry.1, index + 1, entry.2.1, entry.2.2⟩ : DirEntry)
  return .directory ((numbered.drop (asU64 offset)).take room)

/-! ## Steps -/

def serve : Callback → FsM Reply
  | .lookup parent name => lookup parent name
  | .getattr ino => getattr ino
  | .setattr ino size => setattr ino size
  | .read ino fh offset size => read ino fh offset size
  | .write ino fh offset data => write ino fh offset data
  | .open ino => «open» ino
  | .flush ino fh => flush ino fh
  | .fsync ino fh => flush ino fh
  | .release ino fh => release ino fh
  | .rename parent name newparent newname flags =>
      rename parent name newparent newname flags
  | .create parent name => create parent name
  | .mkdir parent name => mkdir parent name
  | .unlink parent name => unlink parent name
  | .rmdir parent name => rmdir parent name
  | .readdir ino offset room => readdir ino offset room

/-- `release` is the only callback without the preamble. -/
def hasPreamble : Callback → Bool
  | .release .. => false
  | _ => true

/-- `callback_preamble!`: log a requested state dump, and refuse the request
with EIO when the heartbeat has stalled. -/
def preamble (event : Event) : FsM Unit := do
  if event.dumpRequested then
    callDb Db.replicaState
  if !event.alive then
    Effect.raise .eio

def step (event : Event) : FsM Reply := do
  if hasPreamble event.callback then
    preamble event
  serve event.callback

end PgFs

end Pgfs
