import Pgfs.Foundation.Table
import Pgfs.Path

namespace Pgfs

/-! The inode <-> path translation. -/

def rootIno : Nat := 1

def rootPath : Str := []

/-- The in-memory maps of `PgFs`, with the next inode number. -/
structure InodeMaps where
  inoByPath : Table Str Nat
  pathByIno : Table Nat Str
  nextIno : Nat

namespace InodeMaps

def initial : InodeMaps where
  inoByPath := Finmap.insert rootPath rootIno ∅
  pathByIno := Finmap.insert rootIno rootPath ∅
  nextIno := rootIno + 1

/-- `ino_for`: the inode of a path, allocated when it has none. -/
def inoFor (maps : InodeMaps) (path : Str) : Nat × InodeMaps :=
  match maps.inoByPath.lookup path with
  | some ino => (ino, maps)
  | none =>
      (maps.nextIno, {
        inoByPath := maps.inoByPath.insert path maps.nextIno
        pathByIno := maps.pathByIno.insert maps.nextIno path
        nextIno := maps.nextIno + 1 })

/-- What `unlink` and `rmdir` do to the maps. -/
def forget (maps : InodeMaps) (path : Str) : InodeMaps :=
  match maps.inoByPath.lookup path with
  | none => maps
  | some ino =>
      { maps with
        inoByPath := maps.inoByPath.erase path
        pathByIno := maps.pathByIno.erase ino }

/-- `path_of_ino`. -/
def pathOfIno (maps : InodeMaps) (ino : Nat) : Option Str :=
  if ino = rootIno then some rootPath else maps.pathByIno.lookup ino

/-- One remove and insert of `rekey_maps`. -/
def rekeyOne (maps : InodeMaps) (oldPath newPath : Str) : InodeMaps :=
  match maps.inoByPath.lookup oldPath with
  | none => maps
  | some ino =>
      { maps with
        inoByPath := (maps.inoByPath.erase oldPath).insert newPath ino
        pathByIno := maps.pathByIno.insert ino newPath }

/-- The cached paths below `old`, in iteration order, with where they go. -/
def descendantUpdates (order : Table.Order Str Nat) (maps : InodeMaps)
    (oldPath newPath : Str) : List (Str × Str) :=
  ((order.keys maps.inoByPath).filter (below oldPath).isPrefixOf).map fun path =>
    (path, below newPath ++ path.drop (below oldPath).length)

/-- `rekey_maps`: the entry itself, then its descendants one at a time in
iteration order. -/
def rekeyMaps (order : Table.Order Str Nat) (maps : InodeMaps)
    (oldPath newPath : Str) : InodeMaps :=
  let maps := maps.rekeyOne oldPath newPath
  (descendantUpdates order maps oldPath newPath).foldl
    (fun maps update => maps.rekeyOne update.1 update.2) maps

end InodeMaps

end Pgfs
