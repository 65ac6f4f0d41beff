import Pgfs.Namespace.Representing

namespace Pgfs

/-! What the statements behind a request about names come to in the tree. -/

structure Agrees (tree : NameTree Str) (call : NameCall) (answer : NameAnswer)
    (tables : Tables) : Prop where
  answer : (tree.serve call).1 = answer
  represents : (tree.serve call).2.Represents tables

namespace NameTree

variable {tree : NameTree Str} {key : Key}

theorem serve_look_none {names : List Str} (absent : tree.node names = none) :
    tree.serve (.look (some names)) = (.error .enoent, tree) := by
  simp only [serve, absent]

theorem serve_look_some {names : List Str} {node : Node}
    (found : tree.node names = some node) :
    tree.serve (.look (some names)) = (.ok (some node), tree) := by
  simp only [serve, found]

theorem serve_make_present {added node : Node} (found : tree.node key.names = some node) :
    tree.serve (.make added (some key.place)) = (.error .eexist, tree) := by
  have present : ¬tree.node key.place.names = none := by
    rw [show key.place.names = key.names from rfl, found]
    simp
  show tree.make added key.place = _
  unfold make
  rw [dif_neg present]

theorem serve_rmdir_missing (absent : tree.node key.names = none) :
    tree.serve (.rmdir (some key.place)) = (.error .enoent, tree) := by
  have missing : tree.node key.place.names = none := absent
  show tree.rmdir key.place = _
  unfold rmdir
  simp only [missing]

theorem serve_rmdir_occupied (branch : tree.node key.names = some .branch)
    (occupied : ¬tree.Childless key.names) :
    tree.serve (.rmdir (some key.place)) = (.error .enotempty, tree) := by
  have there : tree.node key.place.names = some .branch := branch
  have children : ¬tree.Childless key.place.names := occupied
  show tree.rmdir key.place = _
  unfold rmdir
  simp only [there, dif_neg children]

namespace Represents

variable {tables after : Tables}

theorem agrees {call : NameCall} {answer : NameAnswer} (represents : tree.Represents tables)
    (served : tree.serve call = (answer, tree)) : Agrees tree call answer tables where
  answer := congrArg Prod.fst served
  represents := by
    rw [served]
    exact represents

theorem made (represents : tree.Represents tables) (proper : key.Proper)
    (absent : tree.node key.names = none)
    (directory : key.parent = rootPath ∨ tables.HasDirectory key.parent) (added : Node)
    (now : Nat) : Agrees tree (.make added (some key.place)) (.ok (some added))
      (tables.insertEntry key added.text now) := by
  have branch := (represents.branch_iff proper.parent).mp directory
  have free : tree.node key.place.names = none := absent
  have inBranch : tree.node key.place.parents = some .branch := branch
  have missing : tables.entries.lookup key = none :=
    Option.map_eq_none_iff.mp ((represents.kindOf_eq_none_iff proper).mpr absent)
  have served : tree.serve (.make added (some key.place)) =
      (.ok (some added), tree.grow key.place.parents key.place.name added inBranch free) := by
    show tree.make added key.place = _
    unfold make
    rw [dif_pos free, dif_pos inBranch]
  refine ⟨congrArg Prod.fst served, ?_⟩
  rw [served]
  exact represents.grow proper added now missing branch absent

theorem unlinked (represents : tree.Represents tables) (proper : key.Proper)
    (kinds : ∀ other, after.kindOf other = (tables.deleteEntry key).2.kindOf other)
    (file : ∀ node, tree.node key.names = some node → node = .leaf) :
    Agrees tree (.unlink (some key.place)) (.ok none) after := by
  cases found : tree.node key.names with
  | none =>
      have served : tree.serve (.unlink (some key.place)) = (.ok none, tree) := by
        have absent : tree.node key.place.names = none := found
        show tree.unlink key.place = _
        unfold unlink
        rw [dif_neg (by simp [absent]), if_pos absent]
      refine ⟨congrArg Prod.fst served, ?_⟩
      rw [served]
      apply represents.of_kindOf
      intro other
      rw [kinds, Tables.kindOf_deleteEntry]
      split
      · rename_i same
        rw [same, (represents.kindOf_eq_none_iff proper).mpr found]
      · rfl
  | some node =>
      have leaf : tree.node key.place.names = some .leaf := by
        rw [show key.place.names = key.names from rfl, found, file node found]
      have served : tree.serve (.unlink (some key.place)) = (.ok none,
          tree.prune key.place.names (by simp [Place.names]) (childless_of_leaf leaf)) := by
        show tree.unlink key.place = _
        unfold unlink
        rw [dif_pos leaf]
      refine ⟨congrArg Prod.fst served, ?_⟩
      rw [served]
      exact (represents.prune proper (Key.names_ne_nil key) (childless_of_leaf leaf)).of_kindOf
        kinds

theorem removedDirectory (represents : tree.Represents tables) (proper : key.Proper)
    (branch : tree.node key.names = some .branch)
    (empty : ∀ child ∈ tables.entries, child.parent ≠ key.path) :
    Agrees tree (.rmdir (some key.place)) (.ok none) (tables.deleteEntry key).2 := by
  have childless : tree.Childless key.place.names :=
    (represents.childless_iff proper).mpr empty
  have there : tree.node key.place.names = some .branch := branch
  have served : tree.serve (.rmdir (some key.place)) =
      (.ok none, tree.prune key.place.names (by simp [Place.names]) childless) := by
    show tree.rmdir key.place = _
    unfold rmdir
    simp only [there, dif_pos childless]
  refine ⟨congrArg Prod.fst served, ?_⟩
  rw [served]
  exact represents.prune proper (Key.names_ne_nil key) childless

end Represents

end NameTree

end Pgfs
