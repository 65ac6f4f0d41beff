import Pgfs.Inodes.Resolving

namespace Pgfs

/-! Rekeying moves exactly the cached subtree, in whatever order the descendants
come. While it runs, each cached path is either still where it was or already where
it belongs, and no two of them meet. -/

namespace InodeMaps

structure Relocated (place : Str → Str) (maps current : InodeMaps) : Prop where
  cached : ∀ path ino, current.inoByPath.lookup path = some ino ↔
    ∃ source, maps.inoByPath.lookup source = some ino ∧ place source = path
  known : ∀ ino, current.pathByIno.lookup ino = (maps.pathByIno.lookup ino).map fun path =>
    if maps.inoByPath.lookup path = some ino then place path else path
  nextIno : current.nextIno = maps.nextIno

def Inverse (maps : InodeMaps) : Prop :=
  ∀ path ino, maps.inoByPath.lookup path = some ino → maps.pathByIno.lookup ino = some path

variable {maps current other : InodeMaps} {place elsewhere : Str → Str}

theorem relocated_refl (maps : InodeMaps) : Relocated id maps maps where
  cached path ino := by simp
  known ino := by simp
  nextIno := rfl

theorem Relocated.congr (relocated : Relocated place maps current)
    (same : ∀ path ∈ maps.inoByPath, elsewhere path = place path) :
    Relocated elsewhere maps current where
  cached path ino := by
    rw [relocated.cached]
    constructor
    · intro found
      rcases found with ⟨source, stored, arrives⟩
      exact ⟨source, stored, (same source (Finmap.mem_iff.mpr ⟨ino, stored⟩)).trans arrives⟩
    · intro found
      rcases found with ⟨source, stored, arrives⟩
      exact ⟨source, stored, (same source (Finmap.mem_iff.mpr ⟨ino, stored⟩)).symm.trans arrives⟩
  known ino := by
    rw [relocated.known]
    cases maps.pathByIno.lookup ino with
    | none => rfl
    | some path =>
        simp only [Option.map_some, Option.some.injEq]
        split
        · rename_i stored
          exact (same path (Finmap.mem_iff.mpr ⟨ino, stored⟩)).symm
        · rfl
  nextIno := relocated.nextIno

theorem Relocated.unique (relocated : Relocated place maps current)
    (again : Relocated place maps other) : current = other := by
  have inoByPath : current.inoByPath = other.inoByPath := by
    apply Finmap.ext_lookup
    intro path
    apply Option.ext
    intro ino
    rw [relocated.cached, again.cached]
  have pathByIno : current.pathByIno = other.pathByIno := by
    apply Finmap.ext_lookup
    intro ino
    rw [relocated.known, again.known]
  have nextIno := relocated.nextIno.trans again.nextIno.symm
  rcases current with ⟨first, second, third⟩
  rcases other with ⟨otherFirst, otherSecond, otherThird⟩
  simp only at inoByPath pathByIno nextIno
  rw [inoByPath, pathByIno, nextIno]

theorem Relocated.inverse (relocated : Relocated place maps current) (inverse : maps.Inverse) :
    current.Inverse := by
  intro path ino stored
  rcases (relocated.cached path ino).mp stored with ⟨source, known, reaches⟩
  rw [relocated.known, inverse source ino known, Option.map_some, if_pos known, reaches]

theorem Relocated.moved_of_known_ne (relocated : Relocated place maps current) {ino : Nat}
    (changed : current.pathByIno.lookup ino ≠ maps.pathByIno.lookup ino) :
    ∃ path, place path ≠ path ∧ maps.inoByPath.lookup path = some ino := by
  rw [relocated.known] at changed
  cases known : maps.pathByIno.lookup ino with
  | none => simp [known] at changed
  | some path =>
      rw [known, Option.map_some] at changed
      by_cases stored : maps.inoByPath.lookup path = some ino
      · rw [if_pos stored] at changed
        exact ⟨path, fun same => changed (congrArg some same), stored⟩
      · rw [if_neg stored] at changed
        exact absurd rfl changed

private theorem Relocated.update_uncached (relocated : Relocated place maps current)
    {oldPath newPath : Str} (stays : place oldPath = oldPath)
    (uncached : current.inoByPath.lookup oldPath = none) :
    Relocated (Function.update place oldPath newPath) maps current := by
  apply relocated.congr
  intro path member
  apply Function.update_of_ne
  intro here
  subst here
  rcases Finmap.mem_iff.mp member with ⟨ino, stored⟩
  have present := (relocated.cached path ino).mpr ⟨path, stored, stays⟩
  rw [uncached] at present
  cases present

private theorem Relocated.cached_update (relocated : Relocated place maps current)
    {oldPath newPath : Str} {ino : Nat} (stored : maps.inoByPath.lookup oldPath = some ino)
    (stays : place oldPath = oldPath)
    (apart : ∀ path ∈ maps.inoByPath, path ≠ oldPath →
      place path ≠ oldPath ∧ place path ≠ newPath) (path : Str) (otherIno : Nat) :
    ((current.inoByPath.erase oldPath).insert newPath ino).lookup path = some otherIno ↔
      ∃ source, maps.inoByPath.lookup source = some otherIno ∧
        Function.update place oldPath newPath source = path := by
  rw [Table.lookup_insert_eq, Table.lookup_erase_eq]
  constructor
  · intro found
    split at found
    · rename_i target
      cases found
      exact ⟨oldPath, stored, by rw [Function.update_self, target]⟩
    · split at found
      · cases found
      · rename_i notTarget notSource
        rcases (relocated.cached path otherIno).mp found with ⟨source, sourceStored, reaches⟩
        have different : source ≠ oldPath := by
          intro equal
          rw [equal, stays] at reaches
          exact notSource reaches.symm
        exact ⟨source, sourceStored, (Function.update_of_ne different _ _).trans reaches⟩
  · intro found
    rcases found with ⟨source, sourceStored, reaches⟩
    by_cases same : source = oldPath
    · subst same
      rw [Function.update_self] at reaches
      rw [if_pos reaches.symm]
      rw [stored] at sourceStored
      exact sourceStored
    · have away := apart source (Finmap.mem_iff.mpr ⟨otherIno, sourceStored⟩) same
      rw [Function.update_of_ne same] at reaches
      rw [if_neg (reaches ▸ away.2), if_neg (reaches ▸ away.1)]
      exact (relocated.cached path otherIno).mpr ⟨source, sourceStored, reaches⟩

private theorem Relocated.known_update (relocated : Relocated place maps current)
    (inverse : maps.Inverse) {oldPath newPath : Str} {ino : Nat}
    (stored : maps.inoByPath.lookup oldPath = some ino) (otherIno : Nat) :
    (current.pathByIno.insert ino newPath).lookup otherIno =
      (maps.pathByIno.lookup otherIno).map fun path =>
        if maps.inoByPath.lookup path = some otherIno then
          Function.update place oldPath newPath path
        else path := by
  rw [Table.lookup_insert_eq]
  split
  · rename_i same
    subst same
    rw [inverse oldPath otherIno stored, Option.map_some, if_pos stored, Function.update_self]
  · rename_i different
    rw [relocated.known]
    cases known : maps.pathByIno.lookup otherIno with
    | none => rfl
    | some path =>
        simp only [Option.map_some, Option.some.injEq]
        split
        · rename_i pathStored
          have notSource : path ≠ oldPath := by
            intro equal
            rw [equal, stored] at pathStored
            exact different (Option.some.inj pathStored).symm
          rw [Function.update_of_ne notSource]
        · rfl

/-- Rekeying one cached path that is still in its place sends it elsewhere. -/
theorem Relocated.rekeyOne (relocated : Relocated place maps current) (inverse : maps.Inverse)
    {oldPath newPath : Str} (stays : place oldPath = oldPath)
    (apart : ∀ path ∈ maps.inoByPath, path ≠ oldPath →
      place path ≠ oldPath ∧ place path ≠ newPath) :
    Relocated (Function.update place oldPath newPath) maps
      (current.rekeyOne oldPath newPath) := by
  rcases current.rekeyOne_cases oldPath newPath with ⟨uncached, same⟩ | ⟨ino, present, rekeyed⟩
  · rw [same]
    exact relocated.update_uncached stays uncached
  · rcases (relocated.cached oldPath ino).mp present with ⟨source, stored, arrives⟩
    have here : source = oldPath := by
      by_contra different
      exact (apart source (Finmap.mem_iff.mpr ⟨ino, stored⟩) different).1 arrives
    subst here
    rw [rekeyed]
    exact ⟨relocated.cached_update stored stays apart, relocated.known_update inverse stored,
      relocated.nextIno⟩

/-! ## The whole loop -/

private def placeDuring (oldPath newPath : Str) (pending : List Str) (path : Str) : Str :=
  if path ∈ pending then path else movePath oldPath newPath path

private theorem movePath_ne {oldPath newPath path other : Str}
    (different : other ≠ path) (otherAway : ¬AtOrBelow newPath other)
    (moves : AtOrBelow oldPath path) :
    movePath oldPath newPath other ≠ movePath oldPath newPath path := by
  intro meets
  by_cases otherMoves : AtOrBelow oldPath other
  · exact different (movePath_injective otherMoves moves meets)
  · rw [movePath_of_not otherMoves] at meets
    exact otherAway (meets ▸ atOrBelow_movePath moves)

theorem relocated_rekeyMaps (inverse : maps.Inverse) (order : Table.Order Str Nat)
    {oldPath newPath : Str} (outside : ¬AtOrBelow oldPath newPath)
    (free : ∀ path ∈ maps.inoByPath, ¬AtOrBelow newPath path) :
    Relocated (movePath oldPath newPath) maps (maps.rekeyMaps order oldPath newPath) := by
  have finished := rekeyMaps_induction (fun pending current => pending.Nodup ∧
    (∀ path ∈ pending, path ∈ maps.inoByPath ∧ below oldPath <+: path) ∧
    Relocated (placeDuring oldPath newPath pending) maps current)
    order maps (fun inside => outside (.inr inside)) ?_ ?_
  · exact finished.2.2.congr fun path _ => by simp [placeDuring]
  · intro pending distinct member
    refine ⟨distinct, fun path waiting => (member path).mp waiting, ?_⟩
    have moved := @Relocated.rekeyOne _ _ _ (relocated_refl maps) inverse oldPath newPath rfl
      fun path cached different => ⟨different, fun same => free path cached (.inl same)⟩
    apply moved.congr
    intro path cached
    unfold placeDuring
    by_cases here : path = oldPath
    · subst here
      have notPending : path ∉ pending := by
        intro waiting
        have longer := ((member path).mp waiting).2.length_le
        simp only [below, List.length_append, List.length_cons, List.length_nil] at longer
        omega
      rw [if_neg notPending, movePath_self, Function.update_self]
    · rw [Function.update_of_ne here]
      split
      · rfl
      · rename_i notPending
        apply movePath_of_not
        intro moves
        rcases moves with same | inside
        · exact here same
        · exact notPending ((member path).mpr ⟨cached, inside⟩)
  · intro path pending current known inside
    rcases known with ⟨distinct, waiting, relocated⟩
    rw [List.nodup_cons] at distinct
    refine ⟨distinct.2, fun other member => waiting other (List.mem_cons_of_mem _ member), ?_⟩
    have cachedHere := (waiting path List.mem_cons_self).1
    have moved := @Relocated.rekeyOne _ _ _ relocated inverse path
      (movePath oldPath newPath path) (by simp [placeDuring]) ?_
    · apply moved.congr
      intro other cached
      by_cases here : other = path
      · rw [here, Function.update_self, placeDuring, if_neg distinct.1]
      · rw [Function.update_of_ne here]
        simp [placeDuring, here]
    · intro other cached different
      have away := free path cachedHere
      have otherAway := free other cached
      have moves : AtOrBelow oldPath path := .inr inside
      have arrives := @atOrBelow_movePath oldPath newPath path moves
      unfold placeDuring
      split
      · exact ⟨different, fun same => otherAway (same ▸ arrives)⟩
      · constructor
        · intro same
          by_cases otherMoves : AtOrBelow oldPath other
          · exact away (same ▸ atOrBelow_movePath otherMoves)
          · rw [movePath_of_not otherMoves] at same
            exact different same
        · exact movePath_ne different otherAway (.inr inside)

section

variable {oldPath newPath path : Str} {ino : Nat}

private theorem root_append_drop {root : Str} (inside : AtOrBelow root path) :
    root ++ path.drop root.length = path := by
  rcases inside with same | prefixed
  · rw [same, List.drop_length, List.append_nil]
  · exact List.prefix_iff_eq_append.mp ((List.prefix_append root ['/']).trans prefixed)

private theorem Relocated.cached_of_inside
    (relocated : Relocated (movePath oldPath newPath) maps current)
    (inside : AtOrBelow oldPath path) (stored : maps.inoByPath.lookup path = some ino) :
    current.inoByPath.lookup (newPath ++ path.drop oldPath.length) = some ino :=
  (relocated.cached _ ino).mpr ⟨path, stored, if_pos inside⟩

private theorem Relocated.lookup_arrived
    (relocated : Relocated (movePath oldPath newPath) maps current)
    (free : ∀ path ∈ maps.inoByPath, ¬AtOrBelow newPath path)
    (arrived : AtOrBelow newPath path) :
    current.inoByPath.lookup path =
      maps.inoByPath.lookup (oldPath ++ path.drop newPath.length) := by
  apply Option.ext
  intro ino
  constructor
  · intro stored
    rcases (relocated.cached path ino).mp stored with ⟨source, known, reaches⟩
    by_cases inside : AtOrBelow oldPath source
    · have rest : newPath ++ source.drop oldPath.length = newPath ++ path.drop newPath.length :=
        ((if_pos inside).symm.trans reaches).trans (root_append_drop arrived).symm
      rw [← List.append_cancel_left rest, root_append_drop inside]
      exact known
    · rw [movePath_of_not inside] at reaches
      exact absurd (reaches ▸ arrived) (free source (Finmap.mem_iff.mpr ⟨ino, known⟩))
  · intro stored
    have inside : AtOrBelow oldPath (oldPath ++ path.drop newPath.length) :=
      atOrBelow_append arrived oldPath
    have reached := relocated.cached_of_inside inside stored
    rw [List.drop_left, root_append_drop arrived] at reached
    exact reached

private theorem Relocated.not_mem_of_inside
    (relocated : Relocated (movePath oldPath newPath) maps current)
    (outside : ¬AtOrBelow oldPath newPath) (apart : ¬AtOrBelow newPath oldPath)
    (inside : AtOrBelow oldPath path) : path ∉ current.inoByPath := by
  intro member
  rcases Finmap.mem_iff.mp member with ⟨ino, stored⟩
  rcases (relocated.cached path ino).mp stored with ⟨source, _, reaches⟩
  by_cases sourceInside : AtOrBelow oldPath source
  · have arrived : AtOrBelow newPath path := reaches ▸ atOrBelow_movePath sourceInside
    rcases atOrBelow_comparable inside arrived with nested | nested
    · exact outside nested
    · exact apart nested
  · rw [movePath_of_not sourceInside] at reaches
    exact sourceInside (reaches ▸ inside)

private theorem Relocated.lookup_elsewhere
    (relocated : Relocated (movePath oldPath newPath) maps current)
    (notOld : ¬AtOrBelow oldPath path) (notNew : ¬AtOrBelow newPath path) :
    current.inoByPath.lookup path = maps.inoByPath.lookup path := by
  apply Option.ext
  intro ino
  rw [relocated.cached]
  constructor
  · intro found
    rcases found with ⟨source, known, reaches⟩
    by_cases inside : AtOrBelow oldPath source
    · exact absurd (reaches ▸ atOrBelow_movePath inside) notNew
    · rw [movePath_of_not inside] at reaches
      exact reaches ▸ known
  · intro known
    exact ⟨path, known, movePath_of_not notOld⟩

end

/-- Rekeying moves exactly the cached subtree, whatever the hash order: the moved
paths keep their inodes, the old ones are gone, all others stay, and again every
cached path is the path of its inode. -/
theorem rekeyMaps_moves_subtree (inverse : maps.Inverse) {oldPath newPath : Str}
    (outside : ¬AtOrBelow oldPath newPath) (apart : ¬AtOrBelow newPath oldPath)
    (free : ∀ path ∈ maps.inoByPath, ¬AtOrBelow newPath path)
    (order : Table.Order Str Nat) :
    let moved := maps.rekeyMaps order oldPath newPath
    (∀ otherOrder, maps.rekeyMaps otherOrder oldPath newPath = moved) ∧
    (∀ path ino, AtOrBelow oldPath path → maps.inoByPath.lookup path = some ino →
      moved.inoByPath.lookup (newPath ++ path.drop oldPath.length) = some ino) ∧
    (∀ path, AtOrBelow newPath path → moved.inoByPath.lookup path =
      maps.inoByPath.lookup (oldPath ++ path.drop newPath.length)) ∧
    (∀ path, AtOrBelow oldPath path → path ∉ moved.inoByPath) ∧
    (∀ path, ¬AtOrBelow oldPath path → ¬AtOrBelow newPath path →
      moved.inoByPath.lookup path = maps.inoByPath.lookup path) ∧
    (∀ ino, moved.pathByIno.lookup ino ≠ maps.pathByIno.lookup ino →
      ∃ path, AtOrBelow oldPath path ∧ maps.inoByPath.lookup path = some ino) ∧
    moved.Inverse := by
  have relocated := relocated_rekeyMaps inverse order outside free
  refine ⟨?_, ?_, ?_, ?_, ?_, ?_, relocated.inverse inverse⟩
  · intro otherOrder
    exact (relocated_rekeyMaps inverse otherOrder outside free).unique relocated
  · intro path ino inside stored
    exact relocated.cached_of_inside inside stored
  · intro path arrived
    exact relocated.lookup_arrived free arrived
  · intro path inside
    exact relocated.not_mem_of_inside outside apart inside
  · intro path notOld notNew
    exact relocated.lookup_elsewhere notOld notNew
  · intro ino changed
    rcases relocated.moved_of_known_ne changed with ⟨path, moved, stored⟩
    exact ⟨path, by_contra fun notInside => moved (movePath_of_not notInside), stored⟩

/-- A directory with two cached entries moves, its namesake stays. -/
theorem rekeyMaps_moves_subtree_nested :
    ∃ maps : InodeMaps, maps.Inverse ∧
      (maps.rekeyMaps (.ascending Str Nat) ['d'] ['e']).inoByPath.lookup ['e', '/', 'a'] =
        some 3 ∧
      (maps.rekeyMaps (.ascending Str Nat) ['d'] ['e']).inoByPath.lookup ['d', 'x'] = some 4 := by
  let maps : InodeMaps := initial.allocate [['d'], ['d', '/', 'a'], ['d', 'x']]
  have inverse : maps.Inverse := (resolving_initial.allocate _).inverse
  have holds := @rekeyMaps_moves_subtree _ inverse ['d'] ['e'] (by decide) (by decide)
    (by decide) (.ascending Str Nat)
  refine ⟨maps, inverse, holds.2.1 ['d', '/', 'a'] 3 (by decide) (by decide), ?_⟩
  rw [holds.2.2.2.2.1 ['d', 'x'] (by decide) (by decide)]
  decide

end InodeMaps

end Pgfs
