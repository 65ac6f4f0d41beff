import Pgfs.Fs.Run

namespace Pgfs

/-! Inode numbers: what allocating, forgetting and rekeying do to the two maps,
and what holds of them in every run. -/

namespace InodeMaps

variable {maps : InodeMaps}

/-- The path translation is well numbered: inodes are not shared, lie below the
next one, and lead back to their paths. -/
structure WellNumbered (maps : InodeMaps) : Prop where
  injective : ∀ first second ino, maps.inoByPath.lookup first = some ino →
    maps.inoByPath.lookup second = some ino → first = second
  path_lt : ∀ path ino, maps.inoByPath.lookup path = some ino → ino < maps.nextIno
  ino_lt : ∀ ino path, maps.pathByIno.lookup ino = some path → ino < maps.nextIno
  inverse : ∀ path ino, maps.inoByPath.lookup path = some ino →
    maps.pathByIno.lookup ino = some path

/-- From one state to a later one, inodes are either kept or new, and only
`movable` paths lose theirs to another path. -/
structure Evolution (movable : Str → Prop) (before after : InodeMaps) : Prop where
  nextIno_le : before.nextIno ≤ after.nextIno
  origin : ∀ path ino, after.inoByPath.lookup path = some ino →
    before.nextIno ≤ ino ∨
      ∃ source, before.inoByPath.lookup source = some ino ∧
        (path = source ∨ movable source)

theorem Evolution.refl (movable : Str → Prop) (maps : InodeMaps) :
    Evolution movable maps maps :=
  ⟨Nat.le_refl _, fun path _ known => .inr ⟨path, known, .inl rfl⟩⟩

theorem Evolution.trans {movable : Str → Prop} {first second third : InodeMaps}
    (left : Evolution movable first second) (right : Evolution movable second third) :
    Evolution movable first third where
  nextIno_le := left.nextIno_le.trans right.nextIno_le
  origin path ino known := by
    rcases right.origin path ino known with fresh | ⟨middle, middleKnown, moved⟩
    · exact .inl (left.nextIno_le.trans fresh)
    · rcases left.origin middle ino middleKnown with fresh | ⟨source, sourceKnown, earlier⟩
      · exact .inl fresh
      · refine .inr ⟨source, sourceKnown, ?_⟩
        rcases earlier with rfl | movableSource
        · exact moved
        · exact .inr movableSource

theorem Evolution.imp {movable other : Str → Prop} {before after : InodeMaps}
    (evolution : Evolution movable before after)
    (weaken : ∀ path, movable path → other path) : Evolution other before after where
  nextIno_le := evolution.nextIno_le
  origin path ino known := (evolution.origin path ino known).imp_right
    fun ⟨source, sourceKnown, moved⟩ => ⟨source, sourceKnown, moved.imp_right (weaken _)⟩

/-! ## Allocating -/

theorem wellNumbered_initial : WellNumbered initial where
  injective first second ino firstKnown secondKnown := by
    simp only [initial, Table.lookup_insert_eq] at firstKnown secondKnown
    grind [Finmap.lookup_empty]
  path_lt path ino known := by
    simp only [initial, Table.lookup_insert_eq] at known
    grind [initial, Finmap.lookup_empty]
  ino_lt ino path known := by
    simp only [initial, Table.lookup_insert_eq] at known
    grind [initial, Finmap.lookup_empty]
  inverse path ino known := by
    simp only [initial, Table.lookup_insert_eq] at known ⊢
    grind [Finmap.lookup_empty]

theorem inoFor_cases (maps : InodeMaps) (path : Str) :
    (maps.inoByPath.lookup path = some (maps.inoFor path).1 ∧ (maps.inoFor path).2 = maps) ∨
    (maps.inoByPath.lookup path = none ∧ (maps.inoFor path).1 = maps.nextIno ∧
      (maps.inoFor path).2 = {
        inoByPath := maps.inoByPath.insert path maps.nextIno
        pathByIno := maps.pathByIno.insert maps.nextIno path
        nextIno := maps.nextIno + 1 }) := by
  unfold inoFor
  cases cached : maps.inoByPath.lookup path with
  | none => exact .inr ⟨rfl, rfl, rfl⟩
  | some ino => exact .inl ⟨rfl, rfl⟩

theorem WellNumbered.inoFor (numbered : WellNumbered maps) (path : Str) :
    WellNumbered (maps.inoFor path).2 := by
  rcases maps.inoFor_cases path with ⟨_, same⟩ | ⟨uncached, _, allocated⟩
  · rw [same]
    exact numbered
  rw [allocated]
  constructor
  · intro first second ino firstKnown secondKnown
    simp only [Table.lookup_insert_eq] at firstKnown secondKnown
    have below := numbered.path_lt
    have injective := numbered.injective
    grind
  · intro other ino known
    simp only [Table.lookup_insert_eq] at known ⊢
    have below := numbered.path_lt
    grind
  · intro ino other known
    simp only [Table.lookup_insert_eq] at known ⊢
    have below := numbered.ino_lt
    grind
  · intro other ino known
    simp only [Table.lookup_insert_eq] at known ⊢
    have below := numbered.path_lt
    have inverse := numbered.inverse
    grind

theorem evolution_inoFor (movable : Str → Prop) (maps : InodeMaps) (path : Str) :
    Evolution movable maps (maps.inoFor path).2 := by
  rcases maps.inoFor_cases path with ⟨_, same⟩ | ⟨_, _, allocated⟩
  · rw [same]
    exact .refl _ _
  rw [allocated]
  refine ⟨Nat.le_succ _, fun other ino known => ?_⟩
  simp only [Table.lookup_insert_eq] at known
  split at known
  · exact .inl (Option.some.inj known).le
  · exact .inr ⟨other, known, .inl rfl⟩

/-! ## Forgetting -/

theorem forget_cases (maps : InodeMaps) (path : Str) :
    maps.inoByPath.lookup path = none ∧ maps.forget path = maps ∨
    ∃ ino, maps.inoByPath.lookup path = some ino ∧
      maps.forget path = { maps with
        inoByPath := maps.inoByPath.erase path
        pathByIno := maps.pathByIno.erase ino } := by
  unfold forget
  cases cached : maps.inoByPath.lookup path with
  | none => exact .inl ⟨rfl, rfl⟩
  | some ino => exact .inr ⟨ino, rfl, rfl⟩

theorem WellNumbered.forget (numbered : WellNumbered maps) (path : Str) :
    WellNumbered (maps.forget path) := by
  rcases maps.forget_cases path with ⟨_, same⟩ | ⟨ino, cached, forgotten⟩
  · rw [same]
    exact numbered
  rw [forgotten]
  constructor
  · intro first second other firstKnown secondKnown
    rw [Table.lookup_erase_eq] at firstKnown secondKnown
    have injective := numbered.injective
    grind
  · intro other otherIno known
    rw [Table.lookup_erase_eq] at known
    have below := numbered.path_lt
    grind
  · intro otherIno other known
    rw [Table.lookup_erase_eq] at known
    have below := numbered.ino_lt
    grind
  · intro other otherIno known
    rw [Table.lookup_erase_eq] at known ⊢
    have inverse := numbered.inverse
    have injective := numbered.injective
    grind

theorem evolution_forget (movable : Str → Prop) (maps : InodeMaps) (path : Str) :
    Evolution movable maps (maps.forget path) := by
  rcases maps.forget_cases path with ⟨_, same⟩ | ⟨ino, _, forgotten⟩
  · rw [same]
    exact .refl _ _
  rw [forgotten]
  refine ⟨Nat.le_refl _, fun other otherIno known => ?_⟩
  rw [Table.lookup_erase_eq] at known
  split at known
  · cases known
  · exact .inr ⟨other, known, .inl rfl⟩

/-! ## Rekeying -/

theorem rekeyOne_cases (maps : InodeMaps) (oldPath newPath : Str) :
    maps.inoByPath.lookup oldPath = none ∧ maps.rekeyOne oldPath newPath = maps ∨
    ∃ ino, maps.inoByPath.lookup oldPath = some ino ∧
      maps.rekeyOne oldPath newPath = { maps with
        inoByPath := (maps.inoByPath.erase oldPath).insert newPath ino
        pathByIno := maps.pathByIno.insert ino newPath } := by
  unfold rekeyOne
  cases cached : maps.inoByPath.lookup oldPath with
  | none => exact .inl ⟨rfl, rfl⟩
  | some ino => exact .inr ⟨ino, rfl, rfl⟩

theorem WellNumbered.rekeyOne (numbered : WellNumbered maps) (oldPath newPath : Str) :
    WellNumbered (maps.rekeyOne oldPath newPath) := by
  rcases maps.rekeyOne_cases oldPath newPath with ⟨_, same⟩ | ⟨ino, cached, rekeyed⟩
  · rw [same]
    exact numbered
  rw [rekeyed]
  have injective := numbered.injective
  have below := numbered.path_lt
  constructor
  · intro first second other firstKnown secondKnown
    rw [Table.lookup_insert_eq, Table.lookup_erase_eq] at firstKnown secondKnown
    grind
  · intro other otherIno known
    rw [Table.lookup_insert_eq, Table.lookup_erase_eq] at known
    grind
  · intro otherIno other known
    rw [Table.lookup_insert_eq] at known
    have inoBelow := numbered.ino_lt
    grind
  · intro other otherIno known
    rw [Table.lookup_insert_eq, Table.lookup_erase_eq] at known
    rw [Table.lookup_insert_eq]
    have inverse := numbered.inverse
    grind

theorem evolution_rekeyOne {movable : Str → Prop} (maps : InodeMaps)
    {oldPath newPath : Str} (moves : movable oldPath) :
    Evolution movable maps (maps.rekeyOne oldPath newPath) := by
  rcases maps.rekeyOne_cases oldPath newPath with ⟨_, same⟩ | ⟨ino, cached, rekeyed⟩
  · rw [same]
    exact .refl _ _
  rw [rekeyed]
  refine ⟨Nat.le_refl _, fun other otherIno known => ?_⟩
  rw [Table.lookup_insert_eq, Table.lookup_erase_eq] at known
  split at known
  · cases known
    exact .inr ⟨oldPath, cached, .inr moves⟩
  · split at known
    · cases known
    · exact .inr ⟨other, known, .inl rfl⟩

theorem mem_rekeyOne {maps : InodeMaps} {oldPath newPath path : Str} :
    path ∈ (maps.rekeyOne oldPath newPath).inoByPath ↔
      (path = newPath ∧ oldPath ∈ maps.inoByPath) ∨
        (path ∈ maps.inoByPath ∧ path ≠ oldPath) := by
  rcases maps.rekeyOne_cases oldPath newPath with ⟨uncached, same⟩ | ⟨ino, cached, rekeyed⟩
  · rw [same]
    have missing : oldPath ∉ maps.inoByPath := Finmap.lookup_eq_none.mp uncached
    grind
  · rw [rekeyed]
    have present : oldPath ∈ maps.inoByPath := Finmap.mem_iff.mpr ⟨ino, cached⟩
    simp only [Finmap.mem_insert, Finmap.mem_erase]
    grind

/-- The rule for `rekey_maps`: `holds` relates the descendants still to be moved
to the maps. The descendants come in any order, each once. -/
theorem rekeyMaps_induction (holds : List Str → InodeMaps → Prop)
    (order : Table.Order Str Nat) (maps : InodeMaps) {oldPath newPath : Str}
    (outside : ¬below oldPath <+: newPath)
    (entry : ∀ pending : List Str, pending.Nodup →
      (∀ path, path ∈ pending ↔ path ∈ maps.inoByPath ∧ below oldPath <+: path) →
      holds pending (maps.rekeyOne oldPath newPath))
    (preserved : ∀ path pending maps, holds (path :: pending) maps →
      below oldPath <+: path →
      holds pending (maps.rekeyOne path (movePath oldPath newPath path))) :
    holds [] (maps.rekeyMaps order oldPath newPath) := by
  unfold rekeyMaps descendantUpdates
  dsimp only
  have begun : holds
      ((order.keys (maps.rekeyOne oldPath newPath).inoByPath).filter
        (below oldPath).isPrefixOf) (maps.rekeyOne oldPath newPath) := by
    apply entry _ ((order.nodup _).filter _)
    intro path
    rw [List.mem_filter, order.mem_keys, mem_rekeyOne, List.isPrefixOf_iff_prefix]
    have notOld : below oldPath <+: path → path ≠ oldPath := by
      rintro inside rfl
      have longer := inside.length_le
      simp only [below, List.length_append, List.length_cons, List.length_nil] at longer
      omega
    grind
  have inside : ∀ path ∈ (order.keys (maps.rekeyOne oldPath newPath).inoByPath).filter
      (below oldPath).isPrefixOf, below oldPath <+: path := fun path member =>
    List.isPrefixOf_iff_prefix.mp (List.mem_filter.mp member).2
  generalize maps.rekeyOne oldPath newPath = start at begun inside ⊢
  generalize (order.keys start.inoByPath).filter (below oldPath).isPrefixOf = pending
    at begun inside ⊢
  induction pending generalizing start with
  | nil => exact begun
  | cons path rest induction =>
      have here := inside path (by simp)
      rw [List.map_cons, List.foldl_cons, ← movePath_below here]
      exact induction _ (preserved path rest start begun here)
        fun other member => inside other (by simp [member])

theorem WellNumbered.rekeyMaps (numbered : WellNumbered maps)
    (order : Table.Order Str Nat) {oldPath newPath : Str}
    (outside : ¬below oldPath <+: newPath) :
    WellNumbered (maps.rekeyMaps order oldPath newPath) :=
  rekeyMaps_induction (fun _ => WellNumbered) order maps outside
    (fun _ _ _ => numbered.rekeyOne _ _) fun _ _ _ numbered _ => numbered.rekeyOne _ _

theorem evolution_rekeyMaps (maps : InodeMaps) (order : Table.Order Str Nat)
    {oldPath newPath : Str} (outside : ¬below oldPath <+: newPath) :
    Evolution (AtOrBelow oldPath) maps (maps.rekeyMaps order oldPath newPath) :=
  rekeyMaps_induction (fun _ => Evolution (AtOrBelow oldPath) maps) order maps outside
    (fun _ _ _ => evolution_rekeyOne maps (.inl rfl))
    fun _ _ middle earlier inside => earlier.trans (evolution_rekeyOne middle (.inr inside))

/-! ## The root -/

def RootCached (maps : InodeMaps) : Prop := maps.inoByPath.lookup rootPath = some rootIno

theorem rootCached_initial : RootCached initial := by
  unfold RootCached
  decide

theorem RootCached.inoFor (root : RootCached maps) (path : Str) :
    RootCached (maps.inoFor path).2 := by
  rcases maps.inoFor_cases path with ⟨_, same⟩ | ⟨uncached, _, allocated⟩
  · rw [same]
    exact root
  · rw [allocated]
    unfold RootCached at *
    simp only [Table.lookup_insert_eq]
    grind

theorem RootCached.forget (root : RootCached maps) {path : Str} (other : path ≠ rootPath) :
    RootCached (maps.forget path) := by
  rcases maps.forget_cases path with ⟨_, same⟩ | ⟨_, _, forgotten⟩
  · rw [same]
    exact root
  · rw [forgotten]
    unfold RootCached at *
    rw [Table.lookup_erase_eq, if_neg other.symm, root]

theorem RootCached.rekeyOne (root : RootCached maps) {oldPath newPath : Str}
    (oldOther : oldPath ≠ rootPath) (newOther : newPath ≠ rootPath) :
    RootCached (maps.rekeyOne oldPath newPath) := by
  rcases maps.rekeyOne_cases oldPath newPath with ⟨_, same⟩ | ⟨_, _, rekeyed⟩
  · rw [same]
    exact root
  · rw [rekeyed]
    unfold RootCached at *
    rw [Table.lookup_insert_eq, if_neg newOther.symm, Table.lookup_erase_eq,
      if_neg oldOther.symm, root]

theorem RootCached.rekeyMaps (root : RootCached maps) (order : Table.Order Str Nat)
    {oldPath newPath : Str} (oldOther : oldPath ≠ rootPath) (newOther : newPath ≠ rootPath)
    (outside : ¬below oldPath <+: newPath) :
    RootCached (maps.rekeyMaps order oldPath newPath) := by
  apply rekeyMaps_induction (fun _ => RootCached) order maps outside
  · exact fun _ _ _ => root.rekeyOne oldOther newOther
  · intro path _ middle cached inside
    rw [movePath_below inside]
    apply cached.rekeyOne
    · rintro rfl
      cases oldPath <;> simp [below, rootPath] at inside
    · simp [below, rootPath]

end InodeMaps

/-! ## Steps and runs -/

open InodeMaps

private theorem wellNumbered_allocate {maps : InodeMaps} (numbered : WellNumbered maps)
    (paths : List Str) : WellNumbered (maps.allocate paths) := by
  induction paths generalizing maps with
  | nil => exact numbered
  | cons path rest induction => exact induction (numbered.inoFor path)

private theorem rootCached_allocate {maps : InodeMaps} (root : RootCached maps)
    (paths : List Str) : RootCached (maps.allocate paths) := by
  induction paths generalizing maps with
  | nil => exact root
  | cons path rest induction => exact induction (root.inoFor path)

private theorem evolution_allocate (movable : Str → Prop) (maps : InodeMaps)
    (paths : List Str) : Evolution movable maps (maps.allocate paths) := by
  induction paths generalizing maps with
  | nil => exact .refl _ _
  | cons path rest induction =>
      exact (evolution_inoFor movable maps path).trans (induction _)

def Callback.MovesPath (callback : Callback) (reply : Except Errno Reply)
    (maps : InodeMaps) (path : Str) : Prop :=
  reply = .ok .ok ∧
    ∃ paths, callback.renamePaths maps = some paths ∧ AtOrBelow paths.1 path

/-- What serving one callback does to the two maps. -/
theorem Serves.numbering {quiet alone : Prop} {before after : Mount}
    {callback : Callback} {reply : Except Errno Reply}
    (serves : Serves quiet alone before callback reply after) :
    (WellNumbered before.toInodeMaps → WellNumbered after.toInodeMaps) ∧
      Evolution (callback.MovesPath reply before.toInodeMaps) before.toInodeMaps
        after.toInodeMaps := by
  cases serves with
  | lookup => exact ⟨fun numbered => wellNumbered_allocate numbered _, evolution_allocate _ _ _⟩
  | flushRead _ _ _ _ _ _ _ _ _ flushed =>
      rw [flushed.frame.1]
      exact ⟨id, .refl _ _⟩
  | flush _ _ _ _ _ _ _ _ flushed =>
      rw [flushed.frame.1]
      exact ⟨id, .refl _ _⟩
  | release ino fh _ next flushed =>
      have same : (next.dropHandle ino ((before.handleId ino fh).getD 0)).toInodeMaps =
          before.toInodeMaps := flushed.frame.1
      rw [same]
      exact ⟨id, .refl _ _⟩
  | rename parent newparent flags old new kind tables order resolved newResolved _ outside _ =>
      refine ⟨fun numbered => numbered.rekeyMaps order outside, ?_⟩
      refine (evolution_rekeyMaps _ order outside).imp fun path inside => ?_
      exact ⟨rfl, (old.path, new.path), renamePaths_eq flags resolved newResolved, inside⟩
  | create => exact ⟨fun numbered => wellNumbered_allocate numbered _, evolution_allocate _ _ _⟩
  | mkdir => exact ⟨fun numbered => wellNumbered_allocate numbered _, evolution_allocate _ _ _⟩
  | unlink => exact ⟨fun numbered => numbered.forget _, evolution_forget _ _ _⟩
  | rmdir => exact ⟨fun numbered => numbered.forget _, evolution_forget _ _ _⟩
  | readdir => exact ⟨fun numbered => wellNumbered_allocate numbered _, evolution_allocate _ _ _⟩
  | _ => exact ⟨id, .refl _ _⟩

theorem Serves.rootCached {quiet alone : Prop} {before after : Mount} {callback : Callback}
    {reply : Except Errno Reply} (serves : Serves quiet alone before callback reply after)
    (valid : callback.NamesValid) (root : RootCached before.toInodeMaps) :
    RootCached after.toInodeMaps := by
  cases serves with
  | lookup => exact rootCached_allocate root _
  | flushRead _ _ _ _ _ _ _ _ _ flushed => exact flushed.frame.1 ▸ root
  | flush _ _ _ _ _ _ _ _ flushed => exact flushed.frame.1 ▸ root
  | release ino fh _ next flushed =>
      have same : (next.dropHandle ino ((before.handleId ino fh).getD 0)).toInodeMaps =
          before.toInodeMaps := flushed.frame.1
      exact same ▸ root
  | rename parent newparent flags old new kind tables order _ _ _ outside _ =>
      exact root.rekeyMaps order
        (join_ne_nil (valid old.name (by simp [Callback.names])))
        (join_ne_nil (valid new.name (by simp [Callback.names]))) outside
  | create => exact rootCached_allocate root _
  | mkdir => exact rootCached_allocate root _
  | unlink parent key _ => exact root.forget (join_ne_nil (valid key.name (by simp [Callback.names])))
  | rmdir parent key _ _ => exact root.forget (join_ne_nil (valid key.name (by simp [Callback.names])))
  | readdir => exact rootCached_allocate root _
  | _ => exact root

namespace PgFs

def NamedStep : PgFs → Exchange → PgFs → Prop :=
  StepWhere fun _ exchange _ => exchange.event.callback.NamesValid

theorem wellNumbered_of_run {db : Db} {attrTtl : Nat} {history : List Exchange} {fs : PgFs}
    (run : Trace Step (withAttrTtl db attrTtl) history fs) :
    WellNumbered fs.toInodeMaps :=
  run.invariant (fun fs => WellNumbered fs.toInodeMaps) wellNumbered_initial
    fun _ _ _ numbered step => step.serves.numbering.1 numbered

theorem rootCached_of_run {db : Db} {attrTtl : Nat} {history : List Exchange} {fs : PgFs}
    (run : Trace NamedStep (withAttrTtl db attrTtl) history fs) :
    RootCached fs.toInodeMaps :=
  run.invariant (fun fs => RootCached fs.toInodeMaps) rootCached_initial
    fun _ _ _ root step => step.1.serves.rootCached step.2 root

private theorem evolution_of_run {start fs : PgFs} {history : List Exchange}
    (run : Trace Step start history fs) :
    Evolution (fun _ => True) start.toInodeMaps fs.toInodeMaps :=
  run.invariant (fun fs => Evolution (fun _ => True) start.toInodeMaps fs.toInodeMaps)
    (.refl _ _) fun _ _ _ earlier step =>
      earlier.trans (step.serves.numbering.2.imp fun _ _ => trivial)

private theorem NamedStep.runs {start fs : PgFs} {history : List Exchange}
    (run : Trace NamedStep start history fs) : Trace Step start history fs :=
  run.mono fun _ _ _ step => step.1

/-- Inode numbers are never shared and never reused. -/
theorem inodes_never_reused {db : Db} {attrTtl : Nat} {history : List Exchange}
    {fs : PgFs} (run : Trace NamedStep (withAttrTtl db attrTtl) history fs) :
    WellNumbered fs.toInodeMaps ∧
    (∀ path, fs.inoByPath.lookup path = some rootIno ↔ path = rootPath) ∧
    (∀ exchange next path other ino, NamedStep fs exchange next →
      fs.inoByPath.lookup path = some ino → next.inoByPath.lookup other = some ino →
      other ≠ path → exchange.event.callback.MovesPath exchange.reply fs.toInodeMaps path) ∧
    ∀ gone gap later rest ino, Trace NamedStep fs gap gone → Trace NamedStep gone rest later →
      (∃ path, fs.inoByPath.lookup path = some ino) →
      (∀ path, gone.inoByPath.lookup path ≠ some ino) →
      ∀ path, later.inoByPath.lookup path ≠ some ino := by
  have numbered := wellNumbered_of_run (NamedStep.runs run)
  have root := rootCached_of_run run
  refine ⟨numbered, fun path => ⟨fun known => ?_, fun same => ?_⟩, ?_, ?_⟩
  · exact numbered.injective path rootPath rootIno known root
  · rw [same]
    exact root
  · intro exchange next path other ino step known nextKnown moved
    rcases step.1.serves.numbering.2.origin other ino nextKnown with
      fresh | ⟨source, sourceKnown, kept⟩
    · have older := numbered.path_lt path ino known
      have newer : fs.nextIno ≤ ino := fresh
      omega
    · have same := numbered.injective source path ino sourceKnown known
      subst same
      exact kept.resolve_left moved
  · rintro gone gap later rest ino toGone toLater ⟨path, known⟩ left other again
    have grown := evolution_of_run (NamedStep.runs toGone)
    rcases (evolution_of_run (NamedStep.runs toLater)).origin other ino again with
      fresh | ⟨source, present, _⟩
    · have older := numbered.path_lt path ino known
      have between := grown.nextIno_le
      omega
    · exact left source present

theorem inodes_never_reused_rename : ∃ history fs,
    Trace NamedStep freshMount history fs ∧
      fs.inoByPath.lookup ['b'] = some 2 ∧ WellNumbered fs.toInodeMaps := by
  have observed : (replay (fun _ exchange _ => exchange.event.callback.NamesValid) (fun _ _ _ => id)
      [{ callback := .create 1 (some ['a']) },
        { callback := .rename 1 (some ['a']) 1 (some ['b']) 0 }] (freshMount, ())).any
      (fun final => final.1.inoByPath.lookup ['b'] = some 2) = true := by decide
  rcases exists_trace_of_replay
    (fun fs => fs.inoByPath.lookup ['b'] = some 2) observed with ⟨history, fs, run, seen⟩
  exact ⟨history, fs, run, of_decide_eq_true seen, (inodes_never_reused run).1⟩

end PgFs

end Pgfs
