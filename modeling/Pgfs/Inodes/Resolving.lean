import Pgfs.Inodes.Numbering

namespace Pgfs

/-! Whether the inodes that resolve to a path are the ones that the path is
cached under. A rename onto a cached path leaves the inode of what it replaces
behind. -/

namespace InodeMaps

variable {maps : InodeMaps}

structure Resolving (maps : InodeMaps) : Prop extends WellNumbered maps where
  resolves : ∀ ino path, maps.pathByIno.lookup ino = some path →
    maps.inoByPath.lookup path = some ino

theorem resolving_initial : Resolving initial where
  toWellNumbered := wellNumbered_initial
  resolves ino path known := by
    simp only [initial, Table.lookup_insert_eq] at known ⊢
    grind [Finmap.lookup_empty]

theorem Resolving.inoFor (resolving : Resolving maps) (path : Str) :
    Resolving (maps.inoFor path).2 := by
  rcases maps.inoFor_cases path with ⟨_, same⟩ | ⟨uncached, _, allocated⟩
  · rw [same]
    exact resolving
  refine ⟨resolving.toWellNumbered.inoFor path, ?_⟩
  rw [allocated]
  have resolves := resolving.resolves
  have inoBelow := resolving.ino_lt
  simp only [Table.lookup_insert_eq]
  grind

theorem Resolving.allocate (resolving : Resolving maps) (paths : List Str) :
    Resolving (maps.allocate paths) := by
  induction paths generalizing maps with
  | nil => exact resolving
  | cons path rest induction => exact induction (resolving.inoFor path)

theorem Resolving.forget (resolving : Resolving maps) (path : Str) :
    Resolving (maps.forget path) := by
  rcases maps.forget_cases path with ⟨_, same⟩ | ⟨ino, cached, forgotten⟩
  · rw [same]
    exact resolving
  refine ⟨resolving.toWellNumbered.forget path, ?_⟩
  rw [forgotten]
  have resolves := resolving.resolves
  simp only [Table.lookup_erase_eq]
  grind

theorem Resolving.rekeyOne (resolving : Resolving maps) {oldPath newPath : Str}
    (free : newPath ∉ maps.inoByPath) : Resolving (maps.rekeyOne oldPath newPath) := by
  rcases maps.rekeyOne_cases oldPath newPath with ⟨_, same⟩ | ⟨ino, cached, rekeyed⟩
  · rw [same]
    exact resolving
  refine ⟨resolving.toWellNumbered.rekeyOne oldPath newPath, ?_⟩
  rw [rekeyed]
  have resolves := resolving.resolves
  have uncached := Finmap.lookup_eq_none.mpr free
  simp only [Table.lookup_insert_eq, Table.lookup_erase_eq]
  grind

/-- Neither the new path nor what a cached descendant becomes is cached. -/
def FreeTarget (maps : InodeMaps) (oldPath newPath : Str) : Prop :=
  newPath ∉ maps.inoByPath ∧
    ∀ path ∈ maps.inoByPath.keys, below oldPath <+: path →
      movePath oldPath newPath path ∉ maps.inoByPath

theorem Resolving.rekeyMaps (resolving : Resolving maps) (order : Table.Order Str Nat)
    {oldPath newPath : Str} (outside : ¬below oldPath <+: newPath)
    (free : maps.FreeTarget oldPath newPath) :
    Resolving (maps.rekeyMaps order oldPath newPath) := by
  have finished := rekeyMaps_induction (fun pending current =>
    Resolving current ∧ pending.Nodup ∧ ∀ path ∈ pending,
      below oldPath <+: path ∧ movePath oldPath newPath path ∉ current.inoByPath)
    order maps outside ?_ ?_
  · exact finished.1
  · intro pending distinct member
    refine ⟨resolving.rekeyOne free.1, distinct, fun path waiting => ?_⟩
    rcases (member path).mp waiting with ⟨cached, inside⟩
    refine ⟨inside, ?_⟩
    rw [mem_rekeyOne]
    rintro (⟨equal, _⟩ | ⟨contrary, _⟩)
    · have longer := congrArg List.length equal
      rw [movePath_below inside] at longer
      simp only [below, List.length_append, List.length_cons, List.length_nil] at longer
      omega
    · exact free.2 path (Finmap.mem_keys.mpr cached) inside contrary
  · rintro path pending current ⟨currentResolving, distinct, waiting⟩ inside
    rw [List.nodup_cons] at distinct
    refine ⟨currentResolving.rekeyOne (waiting path (by simp)).2, distinct.2, ?_⟩
    intro other member
    have otherWaiting := waiting other (by simp [member])
    refine ⟨otherWaiting.1, ?_⟩
    rw [mem_rekeyOne]
    rintro (⟨equal, _⟩ | ⟨contrary, _⟩)
    · have same := movePath_injective (.inr otherWaiting.1) (.inr inside) equal
      exact distinct.1 (same ▸ member)
    · exact otherWaiting.2 contrary

/-- A rename onto a cached path leaves its inode resolving to that path. -/
theorem stale_rekeyMaps (numbered : WellNumbered maps) (order : Table.Order Str Nat)
    {oldPath newPath : Str} {ino : Nat} (different : newPath ≠ oldPath)
    (outside : ¬below oldPath <+: newPath)
    (cached : maps.inoByPath.lookup newPath = some ino) :
    (maps.rekeyMaps order oldPath newPath).pathByIno.lookup ino = some newPath := by
  have finished := rekeyMaps_induction (fun _ current => WellNumbered current ∧
    current.pathByIno.lookup ino = some newPath ∧
    ∀ path, current.inoByPath.lookup path = some ino → path = newPath)
    order maps outside ?_ ?_
  · exact finished.2.1
  · intro pending _ _
    have injective := numbered.injective
    have inverse := numbered.inverse
    refine ⟨numbered.rekeyOne _ _, ?_⟩
    rcases maps.rekeyOne_cases oldPath newPath with ⟨_, same⟩ | ⟨moved, known, rekeyed⟩
    · rw [same]
      grind
    · rw [rekeyed]
      simp only [Table.lookup_insert_eq, Table.lookup_erase_eq]
      grind
  · rintro path pending current ⟨currentNumbered, stale, only⟩ inside
    have other : path ≠ newPath := fun equal => outside (equal ▸ inside)
    refine ⟨currentNumbered.rekeyOne _ _, ?_⟩
    rcases current.rekeyOne_cases path (movePath oldPath newPath path) with
      ⟨_, same⟩ | ⟨moved, known, rekeyed⟩
    · rw [same]
      exact ⟨stale, only⟩
    · rw [rekeyed]
      simp only [Table.lookup_insert_eq, Table.lookup_erase_eq]
      grind

end InodeMaps

open InodeMaps

def Callback.TargetFree (callback : Callback) (reply : Except Errno Reply)
    (maps : InodeMaps) : Prop :=
  reply = .ok .ok → ∀ paths ∈ callback.renamePaths maps, paths.1 ≠ paths.2 →
    maps.FreeTarget paths.1 paths.2

instance (maps : InodeMaps) (oldPath newPath : Str) :
    Decidable (maps.FreeTarget oldPath newPath) :=
  inferInstanceAs (Decidable (_ ∧ _))

instance (callback : Callback) (reply : Except Errno Reply) (maps : InodeMaps) :
    Decidable (callback.TargetFree reply maps) :=
  inferInstanceAs (Decidable (reply = .ok .ok → ∀ paths ∈ callback.renamePaths maps,
    paths.1 ≠ paths.2 → maps.FreeTarget paths.1 paths.2))

theorem Serves.resolving {quiet alone : Prop} {before after : Mount} {callback : Callback}
    {reply : Except Errno Reply} (serves : Serves quiet alone before callback reply after)
    (free : callback.TargetFree reply before.toInodeMaps)
    (resolving : Resolving before.toInodeMaps) : Resolving after.toInodeMaps := by
  cases serves with
  | lookup => exact resolving.allocate _
  | flushRead _ _ _ _ _ _ _ _ _ flushed => exact flushed.frame.1 ▸ resolving
  | flush _ _ _ _ _ _ _ _ flushed => exact flushed.frame.1 ▸ resolving
  | release ino fh _ next flushed =>
      have same : (next.dropHandle ino ((before.handleId ino fh).getD 0)).toInodeMaps =
          before.toInodeMaps := flushed.frame.1
      exact same ▸ resolving
  | rename parent newparent flags old new kind tables order resolved newResolved different
      outside _ =>
      exact resolving.rekeyMaps order outside
        (free rfl _ (renamePaths_eq flags resolved newResolved) (Ne.symm different))
  | create => exact resolving.allocate _
  | mkdir => exact resolving.allocate _
  | unlink => exact resolving.forget _
  | rmdir => exact resolving.forget _
  | readdir => exact resolving.allocate _
  | _ => exact resolving

theorem Serves.stale {quiet alone : Prop} {before after : Mount} {callback : Callback}
    {reply : Except Errno Reply} {paths : Str × Str} {ino : Nat}
    (serves : Serves quiet alone before callback reply after)
    (numbered : WellNumbered before.toInodeMaps) (succeeded : reply = .ok .ok)
    (renames : callback.renamePaths before.toInodeMaps = some paths)
    (different : paths.1 ≠ paths.2)
    (cached : before.inoByPath.lookup paths.2 = some ino) :
    after.pathByIno.lookup ino = some paths.2 := by
  cases serves with
  | refused => cases succeeded
  | renameNothing parent newparent flags name newname path newPath resolved newResolved same =>
      simp only [Callback.renamePaths, resolved, newResolved, Option.some.injEq] at renames
      subst renames
      exact absurd same.symm different
  | rename parent newparent flags old new kind tables order resolved newResolved apart
      outside _ =>
      rw [renamePaths_eq flags resolved newResolved, Option.some.injEq] at renames
      subst renames
      exact stale_rekeyMaps numbered order apart outside cached
  | flush ino fh id callback succeeded next flushes =>
      rcases flushes with rfl | rfl <;> cases renames
  | flushNothing ino fh callback flushes =>
      rcases flushes with rfl | rfl <;> cases renames
  | _ => cases renames

namespace PgFs

def FreeStep : PgFs → Exchange → PgFs → Prop :=
  StepWhere fun before exchange _ =>
    exchange.event.callback.TargetFree exchange.reply before.toInodeMaps

theorem resolving_of_run {db : Db} {attrTtl : Nat} {history : List Exchange} {fs : PgFs}
    (run : Trace FreeStep (withAttrTtl db attrTtl) history fs) :
    Resolving fs.toInodeMaps :=
  run.invariant (fun fs => Resolving fs.toInodeMaps) resolving_initial
    fun _ _ _ resolving step => step.1.serves.resolving step.2 resolving

/-- No stale inode resolves in a run whose renames find their destinations
uncached. That is needed: of all renames that succeed, exactly those onto a path
without an inode leave no inode resolving to the entry that took the place of
another. -/
theorem no_stale_inode_resolves {db : Db} {attrTtl : Nat} {history : List Exchange}
    {fs : PgFs} (run : Trace FreeStep (withAttrTtl db attrTtl) history fs) :
    (∀ ino path, fs.pathByIno.lookup ino = some path →
      fs.inoByPath.lookup path = some ino) ∧
    ∀ exchange next paths, Step fs exchange next → exchange.reply = .ok .ok →
      exchange.event.callback.renamePaths fs.toInodeMaps = some paths →
      paths.1 ≠ paths.2 →
      ((∀ ino, ino ≠ rootIno → fs.pathOfIno ino = some paths.2 →
          next.pathOfIno ino ≠ some paths.2) ↔
        ∀ ino, ino ≠ rootIno → fs.inoByPath.lookup paths.2 ≠ some ino) := by
  have resolving := resolving_of_run run
  refine ⟨resolving.resolves, ?_⟩
  intro exchange next paths step succeeded renames different
  constructor
  · intro gone ino notRoot cached
    have stale : next.pathByIno.lookup ino = some paths.2 :=
      step.serves.stale resolving.toWellNumbered succeeded renames different cached
    have known := resolving.inverse paths.2 ino cached
    exact gone ino notRoot (by simp [InodeMaps.pathOfIno, notRoot, known])
      (by simp [InodeMaps.pathOfIno, notRoot, stale])
  · intro uncached ino notRoot known
    simp only [InodeMaps.pathOfIno, notRoot, if_false] at known
    exact absurd (resolving.resolves ino paths.2 known) (uncached ino notRoot)

theorem no_stale_inode_resolves_rename : ∃ history fs,
    Trace FreeStep freshMount history fs ∧ fs.pathByIno.lookup 2 = some ['b'] ∧
      ∀ ino path, fs.pathByIno.lookup ino = some path →
        fs.inoByPath.lookup path = some ino := by
  have observed : (replay (fun before exchange _ =>
      exchange.event.callback.TargetFree exchange.reply before.toInodeMaps) (fun _ _ _ => id)
      [{ callback := .create 1 (some ['a']) },
        { callback := .rename 1 (some ['a']) 1 (some ['b']) 0 }] (freshMount, ())).any
      (fun final => final.1.pathByIno.lookup 2 = some ['b']) = true := by decide
  rcases exists_trace_of_replay
    (fun fs => fs.pathByIno.lookup 2 = some ['b']) observed with ⟨history, fs, run, seen⟩
  exact ⟨history, fs, run, of_decide_eq_true seen, (no_stale_inode_resolves run).1⟩

/-- Two files, the first renamed over the second: inode 3 of the second resolves
to the path that belongs to inode 2. -/
theorem stale_inode_after_rename : ¬∀ history fs, Trace Step freshMount history fs →
    ∀ ino path, fs.pathByIno.lookup ino = some path →
      fs.inoByPath.lookup path = some ino := by
  intro claimed
  have observed : (replay (fun _ _ _ => True) (fun _ _ _ => id)
      [{ callback := .create 1 (some ['a']) }, { callback := .create 1 (some ['b']) },
        { callback := .rename 1 (some ['a']) 1 (some ['b']) 0 }] (freshMount, ())).any
      (fun final => final.1.pathByIno.lookup 3 = some ['b'] ∧
        final.1.inoByPath.lookup ['b'] = some 2) = true := by decide
  rcases exists_trace_of_replay
    (fun fs => fs.pathByIno.lookup 3 = some ['b'] ∧ fs.inoByPath.lookup ['b'] = some 2)
    observed with ⟨history, fs, run, seen⟩
  have stale := of_decide_eq_true seen
  have resolved := claimed history fs (run.mono fun _ _ _ step => step.1) 3 ['b'] stale.1
  rw [stale.2] at resolved
  cases resolved

end PgFs

end Pgfs
