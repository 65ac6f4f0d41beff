import Pgfs.Db.Tree
import Pgfs.Fs.Callbacks

namespace Pgfs

open MachineInt

/-! A mount as a nondeterministic state machine. What the database answers is
only known as far as it says something about the tables, so one relation covers
every outside world. -/

/-- The state of a mount without clocks, caches and counters. -/
structure Mount extends InodeMaps where
  tables : Tables
  nextFh : Nat
  openHandles : Table Nat HandleBuffer
  openHandlesByIno : Table Nat Nat

namespace Mount

def setTables (mount : Mount) (tables : Tables) : Mount := { mount with tables := tables }

def setMaps (mount : Mount) (maps : InodeMaps) : Mount :=
  { mount with toInodeMaps := maps }

def setHandles (mount : Mount) (openHandles : Table Nat HandleBuffer) : Mount :=
  { mount with openHandles := openHandles }

def handleId (mount : Mount) (ino fh : Nat) : Option Nat :=
  if fh ≠ 0 then some fh else mount.openHandlesByIno.lookup ino

def openHandle (mount : Mount) (key : Key) : Mount :=
  { mount with
    nextFh := mount.nextFh + 1
    openHandles := mount.openHandles.insert mount.nextFh (.clean key.parent key.name) }

def rememberHandle (mount : Mount) (ino fh : Nat) : Mount :=
  { mount with openHandlesByIno := mount.openHandlesByIno.insert ino fh }

def dropHandle (mount : Mount) (ino fh : Nat) : Mount :=
  { mount with
    openHandles := mount.openHandles.erase fh
    openHandlesByIno := mount.openHandlesByIno.select fun key value =>
      decide (key ≠ ino) && decide (value ≠ fh) }

end Mount

def keyOf (path : Str) : Key := ⟨(splitPath path).1, (splitPath path).2⟩

def InodeMaps.allocate (maps : InodeMaps) (paths : List Str) : InodeMaps :=
  paths.foldl (fun maps path => (maps.inoFor path).2) maps

/-- What `flush_handle` does, and whether it reports success. When no statement
fails, only an unreadable row of the file can make it fail. -/
inductive Flushed (quiet : Prop) (mount : Mount) (fh : Nat) : Bool → Mount → Prop
  | absent (missing : mount.openHandles.lookup fh = none) :
      Flushed quiet mount fh true mount
  | clean (handle : HandleBuffer) (found : mount.openHandles.lookup fh = some handle)
      (nothing : handle.pending = false) :
      Flushed quiet mount fh true mount
  | stored (handle : HandleBuffer) (tables : Tables)
      (found : mount.openHandles.lookup fh = some handle) (pending : handle.pending = true)
      (batch : Db.BatchStored handle.key handle.dirtyBlocks handle.maxSize
        mount.tables tables) :
      Flushed quiet mount fh true
        ((mount.setTables tables).setHandles (mount.openHandles.insert fh
          (.clean handle.parent handle.name)))
  | lost (handle : HandleBuffer) (found : mount.openHandles.lookup fh = some handle)
      (pending : handle.pending = true)
      (excuse : quiet → ∃ failure, mount.tables.attributes handle.key = .error failure) :
      Flushed quiet mount fh false (mount.setHandles (mount.openHandles.erase fh))

/-- A flush concerns the tables and the buffers only. -/
theorem Flushed.frame {quiet : Prop} {mount next : Mount} {fh : Nat} {succeeded : Bool}
    (flushed : Flushed quiet mount fh succeeded next) :
    next.toInodeMaps = mount.toInodeMaps ∧ next.nextFh = mount.nextFh ∧
      next.openHandlesByIno = mount.openHandlesByIno := by
  cases flushed <;> exact ⟨rfl, rfl, rfl⟩

/-- What serving one callback can reply and do. `quiet` says that no statement
fails, `alone` that there is no replica. -/
inductive Serves (quiet alone : Prop) (mount : Mount) :
    Callback → Except Errno Reply → Mount → Prop
  | refused (callback : Callback) (errno : Errno) :
      Serves quiet alone mount callback (.error errno) mount
  | lookup (parent : Nat) (name parentPath : Str) (reply : Reply)
      (resolved : mount.pathOfIno parent = some parentPath)
      (present : alone → ∃ row, mount.tables.entries.lookup ⟨parentPath, name⟩ = some row) :
      Serves quiet alone mount (.lookup parent (some name)) (.ok reply)
        (mount.setMaps (mount.allocate [join parentPath name]))
  | getattr (ino : Nat) (reply : Reply) :
      Serves quiet alone mount (.getattr ino) (.ok reply) mount
  | setattr (ino : Nat) (size : Option Nat) (reply : Reply)
      (unsized : ino = rootIno ∨ size = none) :
      Serves quiet alone mount (.setattr ino size) (.ok reply) mount
  | truncate (ino newSize : Nat) (path : Str) (reply : Except Errno Reply)
      (tables : Tables) (resolved : mount.pathOfIno ino = some path)
      (truncated : Db.Truncated (keyOf path) newSize mount.tables tables) :
      Serves quiet alone mount (.setattr ino (some newSize)) reply
        (mount.setTables tables)
  | read (ino fh : Nat) (offset : Int) (size : Nat) (reply : Except Errno Reply)
      (unhandled : mount.handleId ino fh = none) :
      Serves quiet alone mount (.read ino fh offset size) reply mount
  | flushRead (ino fh id : Nat) (offset : Int) (size : Nat) (succeeded : Bool)
      (reply : Except Errno Reply) (next : Mount)
      (handled : mount.handleId ino fh = some id)
      (flushed : Flushed quiet mount id succeeded next) :
      Serves quiet alone mount (.read ino fh offset size) reply next
  | buffer (ino fh id : Nat) (offset : Int) (data : List UInt8)
      (handle next : HandleBuffer) (handled : mount.handleId ino fh = some id)
      (found : mount.openHandles.lookup id = some handle)
      (written : handle.write (asU64 offset) data = some next) :
      Serves quiet alone mount (.write ino fh offset data)
        (.ok (.written (data.length % 2 ^ 32)))
        (mount.setHandles (mount.openHandles.insert id next))
  | writeThrough (ino fh : Nat) (offset : Int) (data : List UInt8) (path : Str)
      (tables : Tables)
      (unhandled : ∀ id, mount.handleId ino fh = some id →
        mount.openHandles.lookup id = none)
      (resolved : mount.pathOfIno ino = some path)
      (written : Db.Written (keyOf path) (asU64 offset) data mount.tables tables) :
      Serves quiet alone mount (.write ino fh offset data)
        (.ok (.written (data.length % 2 ^ 32))) (mount.setTables tables)
  | open (ino : Nat) (path : Str) (resolved : mount.pathOfIno ino = some path) :
      Serves quiet alone mount (.open ino) (.ok (.opened mount.nextFh))
        ((mount.openHandle (keyOf path)).rememberHandle ino mount.nextFh)
  | flushNothing (ino fh : Nat) (callback : Callback)
      (flushes : callback = .flush ino fh ∨ callback = .fsync ino fh)
      (unhandled : mount.handleId ino fh = none) :
      Serves quiet alone mount callback (.ok .ok) mount
  | flush (ino fh id : Nat) (callback : Callback) (succeeded : Bool) (next : Mount)
      (flushes : callback = .flush ino fh ∨ callback = .fsync ino fh)
      (handled : mount.handleId ino fh = some id)
      (flushed : Flushed quiet mount id succeeded next) :
      Serves quiet alone mount callback
        (if succeeded then .ok .ok else .error .eio) next
  | release (ino fh : Nat) (succeeded : Bool) (next : Mount)
      (flushed : Flushed quiet mount ((mount.handleId ino fh).getD 0) succeeded next) :
      Serves quiet alone mount (.release ino fh) (.ok .ok)
        (next.dropHandle ino ((mount.handleId ino fh).getD 0))
  | renameNothing (parent newparent flags : Nat) (name newname path newPath : Str)
      (resolved : mount.pathOfIno parent = some path)
      (newResolved : mount.pathOfIno newparent = some newPath)
      (same : join newPath newname = join path name) :
      Serves quiet alone mount
        (.rename parent (some name) newparent (some newname) flags) (.ok .ok) mount
  | rename (parent newparent flags : Nat) (old new : Key) (kind : Kind)
      (tables : Tables) (order : Table.Order Str Nat)
      (resolved : mount.pathOfIno parent = some old.parent)
      (newResolved : mount.pathOfIno newparent = some new.parent)
      (different : new.path ≠ old.path) (outside : ¬below old.path <+: new.path)
      (renamed : Renamed kind old new mount.tables tables) :
      Serves quiet alone mount
        (.rename parent (some old.name) newparent (some new.name) flags) (.ok .ok)
        ((mount.setTables tables).setMaps (mount.rekeyMaps order old.path new.path))
  | create (parent : Nat) (key : Key) (now ttl : Nat) (attr : FileAttr)
      (resolved : mount.pathOfIno parent = some key.parent)
      (absent : mount.tables.entries.lookup key = none) :
      Serves quiet alone mount (.create parent (some key.name))
        (.ok (.created ttl attr mount.nextFh))
        (((mount.setTables (mount.tables.insertEntry key .file now)).openHandle key).setMaps
          (mount.allocate [key.path]))
  | mkdir (parent : Nat) (key : Key) (now : Nat) (reply : Reply)
      (resolved : mount.pathOfIno parent = some key.parent)
      (absent : mount.tables.entries.lookup key = none) :
      Serves quiet alone mount (.mkdir parent (some key.name)) (.ok reply)
        ((mount.setTables (mount.tables.insertEntry key .dir now)).setMaps
          (mount.allocate [key.path]))
  | unlink (parent : Nat) (key : Key)
      (resolved : mount.pathOfIno parent = some key.parent) :
      Serves quiet alone mount (.unlink parent (some key.name)) (.ok .ok)
        ((mount.setTables ((mount.tables.deleteEntry key).2.deleteBlocks key)).setMaps
          (mount.forget key.path))
  | unlinkHalf (parent : Nat) (key : Key) (errno : Errno) (loud : ¬quiet)
      (resolved : mount.pathOfIno parent = some key.parent) :
      Serves quiet alone mount (.unlink parent (some key.name)) (.error errno)
        (mount.setTables (mount.tables.deleteEntry key).2)
  | rmdir (parent : Nat) (key : Key)
      (resolved : mount.pathOfIno parent = some key.parent)
      (empty : ∀ child ∈ mount.tables.entries, child.parent ≠ key.path) :
      Serves quiet alone mount (.rmdir parent (some key.name)) (.ok .ok)
        ((mount.setTables (mount.tables.deleteEntry key).2).setMaps
          (mount.forget key.path))
  | readdir (ino : Nat) (offset : Int) (room : Nat) (path : Str) (names : List Str)
      (reply : Except Errno Reply) (resolved : mount.pathOfIno ino = some path)
      (listed : alone → ∀ name ∈ names,
        ∃ row, mount.tables.entries.lookup ⟨path, name⟩ = some row) :
      Serves quiet alone mount (.readdir ino offset room) reply
        (mount.setMaps
          (mount.allocate ((splitPath path).1 :: names.map (join path))))

end Pgfs
