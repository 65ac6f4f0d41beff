import Pgfs.Inodes.Numbering
import Pgfs.Namespace.Representing

namespace Pgfs

/-! The paths that the inode maps hold. -/

namespace InodeMaps

structure OfPaths (maps : InodeMaps) : Prop where
  root : maps.RootCached
  cached : ∀ path ∈ maps.inoByPath, IsPath path
  known : ∀ ino path, maps.pathByIno.lookup ino = some path →
    IsPath path ∧ (path = rootPath → ino = rootIno)

variable {maps : InodeMaps}

theorem ofPaths_initial : OfPaths initial where
  root := rootCached_initial
  cached path member := by
    simp only [initial, Finmap.mem_insert] at member
    rcases member with rfl | absent
    · exact isPath_root
    · exact absurd absent Finmap.notMem_empty
  known ino path known := by
    simp only [initial, Table.lookup_insert_eq] at known
    split at known
    · rename_i same
      cases known
      exact ⟨isPath_root, fun _ => same⟩
    · cases known

theorem OfPaths.pathOfIno (ofPaths : OfPaths maps) {ino : Nat} {path : Str}
    (resolved : maps.pathOfIno ino = some path) :
    IsPath path ∧ (path = rootPath → ino = rootIno) := by
  unfold InodeMaps.pathOfIno at resolved
  split at resolved
  · rename_i same
    cases resolved
    exact ⟨isPath_root, fun _ => same⟩
  · exact ofPaths.known ino path resolved

theorem OfPaths.inoFor (ofPaths : OfPaths maps) {path : Str} (isPath : IsPath path) :
    OfPaths (maps.inoFor path).2 := by
  rcases maps.inoFor_cases path with ⟨_, same⟩ | ⟨uncached, _, allocated⟩
  · rw [same]
    exact ofPaths
  refine ⟨ofPaths.root.inoFor path, fun other member => ?_, fun ino other known => ?_⟩
  · rcases mem_inoFor.mp member with rfl | cached
    · exact isPath
    · exact ofPaths.cached other cached
  · rw [allocated, Table.lookup_insert_eq] at known
    split at known
    · cases known
      refine ⟨isPath, fun root => ?_⟩
      rw [root, ofPaths.root] at uncached
      cases uncached
    · exact ofPaths.known ino other known

theorem OfPaths.allocate (ofPaths : OfPaths maps) {paths : List Str}
    (arePaths : ∀ path ∈ paths, IsPath path) : OfPaths (maps.allocate paths) := by
  induction paths generalizing maps with
  | nil => exact ofPaths
  | cons path rest induction =>
      exact induction (ofPaths.inoFor (arePaths path (by simp)))
        fun other member => arePaths other (by simp [member])

theorem OfPaths.forget (ofPaths : OfPaths maps) {path : Str} (other : path ≠ rootPath) :
    OfPaths (maps.forget path) := by
  refine ⟨ofPaths.root.forget other, fun kept member => ?_, fun ino kept known => ?_⟩
  · exact ofPaths.cached kept (mem_forget.mp member).2
  · rcases maps.forget_cases path with ⟨_, same⟩ | ⟨gone, _, forgotten⟩
    · exact ofPaths.known ino kept (same ▸ known)
    · rw [forgotten, Table.lookup_erase_eq] at known
      split at known
      · cases known
      · exact ofPaths.known ino kept known

theorem OfPaths.rekeyOne (ofPaths : OfPaths maps) {oldPath newPath : Str}
    (isPath : IsPath newPath) (oldOther : oldPath ≠ rootPath) (newOther : newPath ≠ rootPath) :
    OfPaths (maps.rekeyOne oldPath newPath) := by
  refine ⟨ofPaths.root.rekeyOne oldOther newOther, fun path member => ?_,
    fun ino path known => ?_⟩
  · rcases mem_rekeyOne.mp member with ⟨rfl, _⟩ | ⟨cached, _⟩
    · exact isPath
    · exact ofPaths.cached path cached
  · rcases maps.rekeyOne_cases oldPath newPath with ⟨_, same⟩ | ⟨moved, _, rekeyed⟩
    · exact ofPaths.known ino path (same ▸ known)
    · rw [rekeyed, Table.lookup_insert_eq] at known
      split at known
      · cases known
        exact ⟨isPath, fun root => absurd root newOther⟩
      · exact ofPaths.known ino path known

theorem OfPaths.rekeyMaps (ofPaths : OfPaths maps) (order : Table.Order Str Nat)
    {oldPath newPath : Str} (oldIsPath : IsPath oldPath) (newIsPath : IsPath newPath)
    (oldOther : oldPath ≠ rootPath) (newOther : newPath ≠ rootPath)
    (outside : ¬below oldPath <+: newPath) :
    OfPaths (maps.rekeyMaps order oldPath newPath) := by
  have finished := rekeyMaps_induction (fun pending current => OfPaths current ∧
    ∀ path ∈ pending, IsPath path) order maps outside ?_ ?_
  · exact finished.1
  · intro pending _ member
    exact ⟨ofPaths.rekeyOne newIsPath oldOther newOther,
      fun path waiting => ofPaths.cached path ((member path).mp waiting).1⟩
  · rintro path pending current ⟨currentPaths, waiting⟩ inside
    have isPath := waiting path (by simp)
    have moved : movePath oldPath newPath path ≠ rootPath := by
      rw [movePath_below inside]
      simp [below, rootPath]
    have other : path ≠ rootPath := by
      rintro rfl
      simp [below, rootPath] at inside
    exact ⟨currentPaths.rekeyOne
      (isPath.movePath oldIsPath newIsPath oldOther newOther) other moved,
      fun later member => waiting later (by simp [member])⟩

end InodeMaps

/-- With valid names every callback keeps the paths paths. -/
theorem Serves.ofPaths {quiet alone : Prop} {before after : Mount} {callback : Callback}
    {reply : Except Errno Reply} (serves : Serves quiet alone before callback reply after)
    (isAlone : alone) (valid : callback.NamesValid)
    (proper : ∀ key found, before.tables.kindOf key = some found → key.Proper)
    (ofPaths : before.toInodeMaps.OfPaths) : after.toInodeMaps.OfPaths := by
  have named {parent : Nat} {key : Key} (resolved : before.pathOfIno parent = some key.parent)
      (carried : key.name ∈ callback.names) : key.Proper :=
    ⟨(ofPaths.pathOfIno resolved).1, valid key.name carried⟩
  cases serves with
  | lookup parent name parentPath reply resolved present =>
      have key := @named parent ⟨parentPath, name⟩ resolved (by simp [Callback.names])
      exact ofPaths.allocate fun path member => List.mem_singleton.mp member ▸ key.isPath
  | flushRead _ _ _ _ _ _ _ _ _ flushed => exact flushed.frame.1 ▸ ofPaths
  | flush _ _ _ _ _ _ _ _ flushed => exact flushed.frame.1 ▸ ofPaths
  | release ino fh _ next flushed =>
      have same : (next.dropHandle ino ((before.handleId ino fh).getD 0)).toInodeMaps =
          before.toInodeMaps := flushed.frame.1
      exact same ▸ ofPaths
  | rename parent newparent flags old new kind tables order resolved newResolved _ outside _ =>
      have oldKey := named resolved (by simp [Callback.names])
      have newKey := named newResolved (by simp [Callback.names])
      exact ofPaths.rekeyMaps order oldKey.isPath newKey.isPath oldKey.path_ne_nil
        newKey.path_ne_nil outside
  | create parent key now ttl attr resolved absent =>
      have key := named resolved (by simp [Callback.names])
      exact ofPaths.allocate (by simpa using key.isPath)
  | mkdir parent key now reply resolved absent =>
      have key := named resolved (by simp [Callback.names])
      exact ofPaths.allocate (by simpa using key.isPath)
  | unlink parent key resolved =>
      exact ofPaths.forget (named resolved (by simp [Callback.names])).path_ne_nil
  | rmdir parent key resolved empty =>
      exact ofPaths.forget (named resolved (by simp [Callback.names])).path_ne_nil
  | readdir ino offset room path names reply resolved listed =>
      have isPath := (ofPaths.pathOfIno resolved).1
      apply ofPaths.allocate
      intro child member
      rcases List.mem_cons.mp member with rfl | listing
      · exact isPath.parent
      · rcases List.mem_map.mp listing with ⟨name, inList, rfl⟩
        rcases listed isAlone name inList with ⟨row, stored⟩
        exact (proper ⟨path, name⟩ _ (Tables.kindOf_of_lookup stored)).isPath
  | _ => exact ofPaths

end Pgfs
