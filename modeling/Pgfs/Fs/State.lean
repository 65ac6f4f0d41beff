import Pgfs.Db.Namespace
import Pgfs.Fs.HandleBuffer
import Pgfs.Fs.InodeMaps

namespace Pgfs

/-! The state of a mount and the helpers that the callbacks share. -/

inductive Errno
  | enoent
  | eexist
  | enotempty
  | eisdir
  | enotdir
  | einval
  | eio
  deriving DecidableEq, Repr

/-- Attributes as replied to the kernel. The owner, which is the daemon's own,
the block size of 4096 and the constant fields are left out. -/
structure FileAttr where
  ino : Nat
  size : Nat
  blocks : Nat
  mtime : Nat
  kind : Kind
  perm : Nat
  nlink : Nat
  deriving DecidableEq, Repr

structure DirEntry where
  ino : Nat
  offset : Nat
  kind : Kind
  name : Str
  deriving DecidableEq, Repr

inductive Reply
  | ok
  | entry (ttl : Nat) (attr : FileAttr)
  | attr (ttl : Nat) (attr : FileAttr)
  | data (bytes : List UInt8)
  | written (size : Nat)
  | opened (fh : Nat)
  | created (ttl : Nat) (attr : FileAttr) (fh : Nat)
  | directory (entries : List DirEntry)
  deriving DecidableEq, Repr

/-- `PgFs`, with the exported error counters. -/
structure PgFs extends InodeMaps where
  db : Db
  nextFh : Nat
  openHandles : Table Nat HandleBuffer
  openHandlesByIno : Table Nat Nat
  attrTtl : Nat
  errorCounts : Errno → Nat

abbrev FsM := Effect PgFs Errno

namespace PgFs

/-- `with_attr_ttl`. -/
def withAttrTtl (db : Db) (attrTtl : Nat) : PgFs where
  toInodeMaps := .initial
  db := db
  nextFh := 1
  openHandles := ∅
  openHandlesByIno := ∅
  attrTtl := attrTtl
  errorCounts := fun _ => 0

def setDb (fs : PgFs) (db : Db) : PgFs := { fs with db := db }

def setMaps (fs : PgFs) (maps : InodeMaps) : PgFs := { fs with toInodeMaps := maps }

def setHandles (fs : PgFs) (openHandles : Table Nat HandleBuffer) : PgFs :=
  { fs with openHandles := openHandles }

def countError (fs : PgFs) (errno : Errno) : PgFs :=
  { fs with
    errorCounts := Function.update fs.errorCounts errno
      ((fs.errorCounts errno + 1) % 2 ^ 64) }

/-! ## Replies -/

/-- `log_and_reply!`: count the failure and reply EIO. -/
def logAndReply : FsM Value := do
  Effect.modify fun fs => fs.countError .eio
  Effect.raise .eio

def tryDb (body : DbM Value) : FsM (Except DbError Value) :=
  Effect.within PgFs.db PgFs.setDb body.attempt

/-- Call the database; an error is logged and replied as EIO. -/
def callDb (body : DbM Value) : FsM Value := do
  match ← tryDb body with
  | .ok value => return value
  | .error _ => logAndReply

/-- `file_attr`. -/
def fileAttr (ino size mtime : Nat) : FileAttr where
  ino := ino
  size := size
  blocks := (size + 511) / 512
  mtime := mtime
  kind := .file
  perm := 0o644
  nlink := 1

/-- `dir_attr`. -/
def dirAttr (ino : Nat) : FileAttr where
  ino := ino
  size := 0
  blocks := 0
  mtime := 0
  kind := .dir
  perm := 0o755
  nlink := 2

/-- `attr`. -/
def attrOf (ino : Nat) (fileMeta : FileMeta) : FileAttr :=
  match fileMeta.kind with
  | .dir => dirAttr ino
  | .file => fileAttr ino fileMeta.size fileMeta.mtime

/-- `root_attr`. -/
def rootAttr : FileAttr := dirAttr rootIno

/-! ## Inodes -/

/-- `ino_for`. -/
def inoFor (path : Str) : FsM Nat := do
  let (ino, maps) := (← Effect.get).toInodeMaps.inoFor path
  Effect.modify fun fs => fs.setMaps maps
  return ino

def pathOrEnoent (ino : Nat) : FsM Str := do
  match (← Effect.get).pathOfIno ino with
  | some path => return path
  | none => Effect.raise .enoent

/-- `parent_ino`: the inode of the directory containing a path. -/
def parentIno (path : Str) : FsM Nat := inoFor (splitPath path).1

/-- `resolve`: turn a (parent inode, name) pair into a database key. -/
def resolve (parent : Nat) (name : OsStr) : FsM (Str × Str) := do
  let parentPath ← pathOrEnoent parent
  match name with
  | some name => return (parentPath, name)
  | none => Effect.raise .enoent

def forgetPath (path : Str) : FsM Unit :=
  Effect.modify fun fs => fs.setMaps (fs.toInodeMaps.forget path)

/-- `rekey_path_maps`. -/
def rekeyPathMaps (oldPath newPath : Str) : FsM Unit :=
  Effect.modify fun fs =>
    fs.setMaps (fs.toInodeMaps.rekeyMaps fs.db.moment.pathOrder oldPath newPath)

/-! ## Handles -/

/-- The handle that a callback means: the one it names, or the one remembered
for its inode. -/
def handleId (fs : PgFs) (ino fh : Nat) : Option Nat :=
  if fh ≠ 0 then some fh else fs.openHandlesByIno.lookup ino

/-- `flush_handle`. The handle is taken out of the map and put back only when
nothing failed. -/
def flushHandle (fh : Nat) : FsM (Except DbError Unit) := do
  match (← Effect.get).openHandles.lookup fh with
  | none => return .ok ()
  | some handle =>
      Effect.modify fun fs => fs.setHandles (fs.openHandles.erase fh)
      if handle.pending then
        match ← tryDb (Db.writeBlocksBatch handle.parent handle.name
            handle.dirtyBlocks handle.maxSize) with
        | .error failure => return .error failure
        | .ok () =>
            Effect.modify fun fs => fs.setHandles
              (fs.openHandles.insert fh { handle with dirtyBlocks := ∅, maxSize := 0 })
            return .ok ()
      else
        Effect.modify fun fs => fs.setHandles (fs.openHandles.insert fh handle)
        return .ok ()

def openHandle (parent name : Str) : FsM Nat := do
  let fh := (← Effect.get).nextFh
  Effect.modify fun fs => { fs with
    nextFh := fh + 1
    openHandles := fs.openHandles.insert fh (.clean parent name) }
  return fh

end PgFs

end Pgfs
