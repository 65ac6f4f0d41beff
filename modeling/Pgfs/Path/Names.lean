import Mathlib.Data.List.Induction
import Mathlib.Logic.Function.Iterate
import Pgfs.Path

namespace Pgfs

/-! A path is a sequence of names. Joining appends a name to the sequence, and
splitting takes the last one off. -/

/-- The path of a sequence of names: the root is empty, separators stand only
between names. -/
def pathOfNames (names : List Str) : Str := ['/'].intercalate names

def parentPath (path : Str) : Str := (splitPath path).1

private theorem pathOfNames_cons (first : Str) {rest : List Str} (more : rest ≠ []) :
    pathOfNames (first :: rest) = first ++ '/' :: pathOfNames rest := by
  cases rest with
  | nil => exact absurd rfl more
  | cons second others =>
      simp [pathOfNames, List.intercalate, List.intersperse]

private theorem pathOfNames_append (names : List Str) (name : Str) (more : names ≠ []) :
    pathOfNames (names ++ [name]) = pathOfNames names ++ '/' :: name := by
  induction names with
  | nil => exact absurd rfl more
  | cons first rest induction =>
      rw [List.cons_append, pathOfNames_cons first (by simp)]
      cases rest with
      | nil => simp [pathOfNames, List.intercalate, List.intersperse]
      | cons second others =>
          rw [induction (by simp), pathOfNames_cons first (by simp), List.append_assoc,
            List.cons_append]

theorem pathOfNames_eq_nil {names : List Str} (valid : ∀ name ∈ names, ValidName name) :
    pathOfNames names = [] ↔ names = [] := by
  constructor
  · intro root
    cases names with
    | nil => rfl
    | cons first rest =>
        have firstSome := (valid first List.mem_cons_self).1
        cases rest with
        | nil => exact absurd (by simpa [pathOfNames] using root) firstSome
        | cons second others =>
            rw [pathOfNames_cons first (by simp)] at root
            simp at root
  · intro none
    rw [none]
    rfl

theorem join_pathOfNames {names : List Str} (valid : ∀ name ∈ names, ValidName name)
    (name : Str) : join (pathOfNames names) name = pathOfNames (names ++ [name]) := by
  unfold join
  by_cases root : names = []
  · subst root
    simp [pathOfNames, List.intercalate, List.intersperse]
  · have notRoot : pathOfNames names ≠ [] := mt (pathOfNames_eq_nil valid).mp root
    rw [if_neg (by simpa using notRoot), pathOfNames_append names name root]

theorem parentPath_pathOfNames {names : List Str} (valid : ∀ name ∈ names, ValidName name) :
    parentPath (pathOfNames names) = pathOfNames names.dropLast := by
  rcases List.eq_nil_or_concat names with root | ⟨parents, name, rfl⟩
  · subst root
    rfl
  · rw [List.concat_eq_append] at valid ⊢
    have parentsValid : ∀ parent ∈ parents, ValidName parent :=
      fun parent member => valid parent (List.mem_append_left _ member)
    have nameValid := valid name (by simp)
    rw [parentPath, ← join_pathOfNames parentsValid, splitPath_join nameValid,
      List.dropLast_concat]

theorem iterate_parentPath {names : List Str} (valid : ∀ name ∈ names, ValidName name)
    (steps : Nat) :
    parentPath^[steps] (pathOfNames names) = pathOfNames (names.take (names.length - steps)) := by
  induction steps with
  | zero => rw [Function.iterate_zero_apply, Nat.sub_zero, List.take_length]
  | succ steps induction =>
      have takenValid : ∀ name ∈ names.take (names.length - steps), ValidName name :=
        fun name member => valid name (List.mem_of_mem_take member)
      rw [Function.iterate_succ_apply', induction, parentPath_pathOfNames takenValid,
        List.dropLast_eq_take, List.take_take, List.length_take]
      congr 2
      omega

theorem pathOfNames_injective {names others : List Str}
    (valid : ∀ name ∈ names, ValidName name) (othersValid : ∀ name ∈ others, ValidName name)
    (equal : pathOfNames names = pathOfNames others) : names = others := by
  induction names using List.reverseRecOn generalizing others with
  | nil => exact ((pathOfNames_eq_nil othersValid).mp equal.symm).symm
  | append_singleton parents last induction =>
      have parentsValid : ∀ parent ∈ parents, ValidName parent :=
        fun parent member => valid parent (List.mem_append_left _ member)
      rcases List.eq_nil_or_concat others with root | ⟨otherParents, otherLast, rfl⟩
      · subst root
        exact (pathOfNames_eq_nil valid).mp equal
      · rw [List.concat_eq_append] at othersValid equal ⊢
        have otherParentsValid : ∀ parent ∈ otherParents, ValidName parent :=
          fun parent member => othersValid parent (List.mem_append_left _ member)
        rw [← join_pathOfNames parentsValid, ← join_pathOfNames otherParentsValid] at equal
        rcases join_injective (valid last (by simp)) (othersValid otherLast (by simp)) equal with
          ⟨sameParent, sameName⟩
        rw [induction parentsValid otherParentsValid sameParent, sameName]

/-! ## The names of a path -/

def Named (names : List Str) : Prop := ∀ name ∈ names, ValidName name

instance (names : List Str) : Decidable (Named names) :=
  inferInstanceAs (Decidable (∀ name ∈ names, _))

theorem Named.append {names others : List Str} (named : Named names)
    (othersNamed : Named others) : Named (names ++ others) :=
  fun name member => (List.mem_append.mp member).elim (named name) (othersNamed name)

theorem Named.left {names others : List Str} (named : Named (names ++ others)) : Named names :=
  fun name member => named name (List.mem_append_left _ member)

theorem Named.right {names others : List Str} (named : Named (names ++ others)) :
    Named others :=
  fun name member => named name (List.mem_append_right _ member)

theorem named_singleton {name : Str} : Named [name] ↔ ValidName name := by
  simp [Named]

def namesOf (path : Str) : List Str := if path = [] then [] else path.splitOn '/'

def IsPath (path : Str) : Prop := Named (namesOf path)

theorem namesOf_pathOfNames {names : List Str} (named : Named names) :
    namesOf (pathOfNames names) = names := by
  unfold namesOf
  split
  · rename_i root
    exact ((pathOfNames_eq_nil named).mp root).symm
  · rename_i notRoot
    apply List.splitOn_intercalate '/' fun name member => (named name member).2
    rintro rfl
    exact notRoot rfl

theorem pathOfNames_namesOf (path : Str) : pathOfNames (namesOf path) = path := by
  unfold namesOf
  split
  · rename_i root
    rw [root]
    rfl
  · exact List.intercalate_splitOn '/'

theorem isPath_pathOfNames {names : List Str} (named : Named names) :
    IsPath (pathOfNames names) := by
  unfold IsPath
  rw [namesOf_pathOfNames named]
  exact named

theorem isPath_root : IsPath [] := @isPath_pathOfNames [] (by simp [Named])

theorem IsPath.exists_names {path : Str} (isPath : IsPath path) :
    ∃ names, Named names ∧ pathOfNames names = path :=
  ⟨namesOf path, isPath, pathOfNames_namesOf path⟩

theorem namesOf_join {parent name : Str} (isPath : IsPath parent) (valid : ValidName name) :
    namesOf (join parent name) = namesOf parent ++ [name] := by
  have named : Named (namesOf parent ++ [name]) := isPath.append (named_singleton.mpr valid)
  rw [← namesOf_pathOfNames named, ← join_pathOfNames isPath, pathOfNames_namesOf]

theorem IsPath.join {parent name : Str} (isPath : IsPath parent) (valid : ValidName name) :
    IsPath (join parent name) := by
  unfold IsPath
  rw [namesOf_join isPath valid]
  exact isPath.append (named_singleton.mpr valid)

theorem IsPath.parent {path : Str} (isPath : IsPath path) : IsPath (splitPath path).1 := by
  rcases isPath.exists_names with ⟨names, named, rfl⟩
  show IsPath (parentPath (pathOfNames names))
  rw [parentPath_pathOfNames named]
  exact isPath_pathOfNames fun name member => named name (List.dropLast_subset names member)

theorem atOrBelow_pathOfNames {names others : List Str} (named : Named names)
    (othersNamed : Named others) (notRoot : others ≠ []) :
    AtOrBelow (pathOfNames others) (pathOfNames names) ↔ others <+: names := by
  have othersSome : pathOfNames others ≠ [] := mt (pathOfNames_eq_nil othersNamed).mp notRoot
  induction names using List.reverseRecOn with
  | nil =>
      rw [List.prefix_nil]
      constructor
      · rintro (same | inside)
        · exact absurd same.symm othersSome
        · simp [below, pathOfNames] at inside
      · intro same
        exact absurd same notRoot
  | append_singleton parents last induction =>
      have valid : ValidName last := named_singleton.mp named.right
      have earlier : AtOrBelow (pathOfNames others) (pathOfNames parents) ↔ others <+: parents :=
        induction named.left
      rw [List.prefix_concat_iff, ← earlier]
      unfold AtOrBelow
      rw [← join_pathOfNames named.left last, below_prefix_join valid othersSome]
      constructor
      · rintro (same | inside)
        · left
          rw [join_pathOfNames named.left] at same
          exact (pathOfNames_injective named othersNamed same).symm
        · exact .inr inside
      · rintro (same | inside)
        · left
          rw [join_pathOfNames named.left, same]
        · exact .inr inside

theorem movePath_pathOfNames {old new rest : List Str} (named : Named (old ++ rest))
    (newNamed : Named new) (notRoot : old ≠ []) (newNotRoot : new ≠ []) :
    movePath (pathOfNames old) (pathOfNames new) (pathOfNames (old ++ rest)) =
      pathOfNames (new ++ rest) := by
  induction rest using List.reverseRecOn with
  | nil => simp [movePath_self]
  | append_singleton others last induction =>
      rw [← List.append_assoc] at named ⊢
      have valid : ValidName last := named_singleton.mp named.right
      have newOthers : Named (new ++ others) := newNamed.append named.left.right
      have moved := induction named.left
      have different : join (pathOfNames (old ++ others)) last ≠ pathOfNames old := by
        rw [join_pathOfNames named.left]
        intro same
        have length := congrArg List.length
          (pathOfNames_injective named named.left.left same)
        simp only [List.length_append, List.length_cons, List.length_nil] at length
        omega
      rw [← join_pathOfNames named.left last,
        ← join_movePath valid (mt (pathOfNames_eq_nil named.left.left).mp notRoot)
          (mt (pathOfNames_eq_nil newNamed).mp newNotRoot) different,
        moved, join_pathOfNames newOthers, List.append_assoc]

theorem IsPath.movePath {old new path : Str} (isPath : IsPath path) (oldPath : IsPath old)
    (newPath : IsPath new) (notRoot : old ≠ []) (newNotRoot : new ≠ []) :
    IsPath (movePath old new path) := by
  by_cases inside : AtOrBelow old path
  · rcases isPath.exists_names with ⟨names, named, rfl⟩
    rcases oldPath.exists_names with ⟨oldNames, oldNamed, rfl⟩
    rcases newPath.exists_names with ⟨newNames, newNamed, rfl⟩
    have oldSome : oldNames ≠ [] := mt (pathOfNames_eq_nil oldNamed).mpr notRoot
    rcases (atOrBelow_pathOfNames named oldNamed oldSome).mp inside with ⟨rest, rfl⟩
    rw [movePath_pathOfNames named newNamed oldSome
      (mt (pathOfNames_eq_nil newNamed).mpr newNotRoot)]
    exact isPath_pathOfNames (newNamed.append named.right)
  · rw [movePath_of_not inside]
    exact isPath

/-! ## Keys and paths -/

/-- Paths of names and keys correspond: splitting undoes joining and joining undoes
splitting, different keys have different paths, and going from parent to parent
reaches the root after as many steps as the path has names. -/
theorem keys_correspond_to_paths {names others : List Str} {name other : Str}
    (valid : ∀ name ∈ names, ValidName name) (othersValid : ∀ name ∈ others, ValidName name)
    (nameValid : ValidName name) (otherValid : ValidName other) :
    splitPath (join (pathOfNames names) name) = (pathOfNames names, name) ∧
    (names ≠ [] → join (splitPath (pathOfNames names)).1 (splitPath (pathOfNames names)).2 =
      pathOfNames names) ∧
    (join (pathOfNames names) name = join (pathOfNames others) other →
      names = others ∧ name = other) ∧
    ∀ steps, parentPath^[steps] (pathOfNames names) = [] ↔ names.length ≤ steps := by
  have rejoined : names ≠ [] →
      join (splitPath (pathOfNames names)).1 (splitPath (pathOfNames names)).2 =
        pathOfNames names := by
    intro notRoot
    rcases List.eq_nil_or_concat names with root | ⟨parents, last, rfl⟩
    · exact absurd root notRoot
    · rw [List.concat_eq_append] at valid ⊢
      have parentsValid : ∀ parent ∈ parents, ValidName parent :=
        fun parent member => valid parent (List.mem_append_left _ member)
      rw [← join_pathOfNames parentsValid, splitPath_join (valid last (by simp))]
  have steps (count : Nat) :
      parentPath^[count] (pathOfNames names) = [] ↔ names.length ≤ count := by
    have takenValid : ∀ name ∈ names.take (names.length - count), ValidName name :=
      fun name member => valid name (List.mem_of_mem_take member)
    rw [iterate_parentPath valid, pathOfNames_eq_nil takenValid, ← List.length_eq_zero_iff,
      List.length_take]
    omega
  refine ⟨splitPath_join nameValid, rejoined, fun equal => ?_, steps⟩
  rcases join_injective nameValid otherValid equal with ⟨sameParent, sameName⟩
  exact ⟨pathOfNames_injective valid othersValid sameParent, sameName⟩

theorem keys_correspond_to_paths_nested :
    splitPath (join (pathOfNames [['a'], ['b']]) ['c']) =
        (pathOfNames [['a'], ['b']], ['c']) ∧
      join (splitPath (pathOfNames [['a'], ['b']])).1
          (splitPath (pathOfNames [['a'], ['b']])).2 = pathOfNames [['a'], ['b']] ∧
      parentPath^[2] (pathOfNames [['a'], ['b']]) = [] := by
  have holds := @keys_correspond_to_paths [['a'], ['b']] [] ['c'] ['d'] (by decide) (by simp)
    (by decide) (by decide)
  exact ⟨holds.1, holds.2.1 (by simp), (holds.2.2.2 2).mpr (Nat.le_refl 2)⟩

end Pgfs
