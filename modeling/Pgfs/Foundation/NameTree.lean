import Mathlib.Data.List.Induction
import Mathlib.Tactic.Common

namespace Pgfs

/-! Trees of names over an arbitrary type of names. A place is the sequence of names
that leads to it. Growing, pruning and moving take what makes the result a tree again
as an argument. -/

inductive Node
  | leaf
  | branch
  deriving DecidableEq, Repr

/-- What stands at each place. Whatever stands in a place stands in a branch. -/
structure NameTree (Name : Type) where
  node : List Name → Option Node
  root : node [] = some .branch
  inBranch : ∀ parents name, node (parents ++ [name]) ≠ none → node parents = some .branch

namespace NameTree

variable {Name : Type}

def empty : NameTree Name where
  node place := if place = [] then some .branch else none
  root := if_pos rfl
  inBranch parents name present := by simp at present

def Childless (tree : NameTree Name) (place : List Name) : Prop :=
  ∀ name, tree.node (place ++ [name]) = none

variable {tree : NameTree Name}

theorem childless_of_leaf {place : List Name} (leaf : tree.node place = some .leaf) :
    tree.Childless place := by
  intro name
  by_contra present
  have branch := tree.inBranch place name present
  rw [leaf] at branch
  cases branch

theorem childless_of_none {place : List Name} (absent : tree.node place = none) :
    tree.Childless place := by
  intro name
  by_contra present
  have branch := tree.inBranch place name present
  rw [absent] at branch
  cases branch

/-! ## Growing and pruning -/

section

variable [DecidableEq Name]

def grow (tree : NameTree Name) (parents : List Name) (name : Name) (added : Node)
    (branch : tree.node parents = some .branch)
    (free : tree.node (parents ++ [name]) = none) : NameTree Name where
  node place := if place = parents ++ [name] then some added else tree.node place
  root := by rw [if_neg (by simp), tree.root]
  inBranch others last present := by
    have kept : others ≠ parents ++ [name] := by
      intro same
      rw [same, if_neg (by simp)] at present
      exact present (childless_of_none free last)
    rw [if_neg kept]
    split at present
    · rename_i same
      rw [(List.append_inj' same rfl).1, branch]
    · exact tree.inBranch others last present

def prune (tree : NameTree Name) (gone : List Name) (notRoot : gone ≠ [])
    (childless : tree.Childless gone) : NameTree Name where
  node place := if place = gone then none else tree.node place
  root := by rw [if_neg notRoot.symm, tree.root]
  inBranch parents name present := by
    have kept : parents ≠ gone := by
      intro same
      rw [same, childless name] at present
      exact present (by simp)
    rw [if_neg kept]
    split at present
    · cases present rfl
    · exact tree.inBranch parents name present

/-! ## Moving -/

/-- Move a place with everything below it into a branch outside of it, in the stead of
what stood there. -/
def move (tree : NameTree Name) (old parents : List Name) (name : Name)
    (outside : ¬old <+: parents ++ [name]) (branch : tree.node parents = some .branch) :
    NameTree Name where
  node place :=
    if parents ++ [name] <+: place then
      tree.node (old ++ place.drop (parents ++ [name]).length)
    else if old <+: place then none
    else tree.node place
  root := by
    have notNew : ¬parents ++ [name] <+: [] := by simp
    have notOld : ¬old <+: [] := by
      intro root
      rw [List.prefix_nil.mp root] at outside
      exact outside (List.nil_prefix)
    rw [if_neg notNew, if_neg notOld, tree.root]
  inBranch others last present := by
    by_cases inside : parents ++ [name] <+: others
    · have further : parents ++ [name] <+: others ++ [last] :=
        inside.trans (List.prefix_append _ _)
      rw [if_pos further, List.drop_append_of_le_length inside.length_le,
        ← List.append_assoc] at present
      rw [if_pos inside]
      exact tree.inBranch _ last present
    rw [if_neg inside]
    by_cases arrived : parents ++ [name] <+: others ++ [last]
    · -- Only the moved place itself is new among the children of where it went.
      have same : parents ++ [name] = others ++ [last] :=
        (List.prefix_concat_iff.mp arrived).resolve_right inside
      have parentsSame : parents = others := (List.append_inj' same rfl).1
      have stays : ¬old <+: others := by
        intro above
        rw [← parentsSame] at above
        exact outside (above.trans (List.prefix_append _ _))
      rw [if_neg stays, ← parentsSame, branch]
    · rw [if_neg arrived] at present
      have stays : ¬old <+: others ++ [last] := by
        intro below
        rw [if_pos below] at present
        exact present rfl
      rw [if_neg stays] at present
      rw [if_neg fun above => stays (above.trans (List.prefix_append _ _))]
      exact tree.inBranch others last present

variable {old parents : List Name} {name : Name}

theorem node_move_append (outside : ¬old <+: parents ++ [name])
    (branch : tree.node parents = some .branch) (rest : List Name) :
    (tree.move old parents name outside branch).node (parents ++ [name] ++ rest) =
      tree.node (old ++ rest) := by
  simp only [move]
  rw [if_pos (List.prefix_append _ _), List.drop_left]

theorem node_move_old (outside : ¬old <+: parents ++ [name])
    (branch : tree.node parents = some .branch) {place : List Name} (inside : old <+: place)
    (elsewhere : ¬parents ++ [name] <+: place) :
    (tree.move old parents name outside branch).node place = none := by
  simp only [move]
  rw [if_neg elsewhere, if_pos inside]

theorem node_move_other (outside : ¬old <+: parents ++ [name])
    (branch : tree.node parents = some .branch) {place : List Name} (apart : ¬old <+: place)
    (elsewhere : ¬parents ++ [name] <+: place) :
    (tree.move old parents name outside branch).node place = tree.node place := by
  simp only [move]
  rw [if_neg elsewhere, if_neg apart]

end

end NameTree

end Pgfs
