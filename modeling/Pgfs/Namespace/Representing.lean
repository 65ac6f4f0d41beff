import Pgfs.Namespace.Requests
import Pgfs.Tree.Coherence

namespace Pgfs

/-! The tree of names that the rows of `entries` stand for, and what the statements of
the namespace methods do to it. -/

/-! ## Keys and places -/

def Key.place (key : Key) : Place := ⟨namesOf key.parent, key.name⟩

def Key.names (key : Key) : List Str := key.place.names

theorem Key.names_ne_nil (key : Key) : key.names ≠ [] := by
  simp [Key.names, Place.names]

structure Key.Proper (key : Key) : Prop where
  parent : IsPath key.parent
  name : ValidName key.name

namespace Key.Proper

variable {key other old new : Key}

theorem named (proper : key.Proper) : Named key.names :=
  proper.parent.append (named_singleton.mpr proper.name)

theorem namesOf_path (proper : key.Proper) : namesOf key.path = key.names :=
  namesOf_join proper.parent proper.name

theorem isPath (proper : key.Proper) : IsPath key.path := proper.parent.join proper.name

theorem pathOfNames_names (proper : key.Proper) : pathOfNames key.names = key.path := by
  rw [← proper.namesOf_path, pathOfNames_namesOf]

theorem path_ne_nil (proper : key.Proper) : key.path ≠ [] := Key.path_ne_nil proper.name

theorem injective (proper : key.Proper) (otherProper : other.Proper)
    (same : key.names = other.names) : key = other := by
  apply Key.path_injective proper.name otherProper.name
  rw [← proper.pathOfNames_names, same, otherProper.pathOfNames_names]

theorem atOrBelow_iff (proper : key.Proper) (otherProper : other.Proper) :
    AtOrBelow other.path key.path ↔ other.names <+: key.names := by
  rw [← proper.pathOfNames_names, ← otherProper.pathOfNames_names]
  exact atOrBelow_pathOfNames proper.named otherProper.named (Key.names_ne_nil _)

theorem below_iff (proper : key.Proper) (otherProper : other.Proper) :
    AtOrBelow other.path key.parent ↔ other.names <+: namesOf key.parent := by
  rw [← otherProper.pathOfNames_names]
  rcases proper.parent.exists_names with ⟨names, named, same⟩
  rw [← same, namesOf_pathOfNames named]
  exact atOrBelow_pathOfNames named otherProper.named (Key.names_ne_nil _)

theorem moved (proper : key.Proper) (oldProper : old.Proper) (newProper : new.Proper) :
    (old.moved new key).Proper := by
  unfold Key.moved
  split
  · exact newProper
  · exact ⟨proper.parent.movePath oldProper.isPath newProper.isPath oldProper.path_ne_nil
      newProper.path_ne_nil, proper.name⟩

theorem names_moved {rest : List Str} (proper : key.Proper) (oldProper : old.Proper)
    (newProper : new.Proper) (inside : key.names = old.names ++ rest) :
    (old.moved new key).names = new.names ++ rest := by
  have named := proper.named
  rw [inside] at named
  have newNamed : Named (new.names ++ rest) := newProper.named.append named.right
  rw [← (proper.moved oldProper newProper).namesOf_path,
    Key.path_moved proper.name oldProper.name newProper.name, ← proper.pathOfNames_names,
    ← oldProper.pathOfNames_names, ← newProper.pathOfNames_names, inside,
    movePath_pathOfNames named newProper.named old.names_ne_nil new.names_ne_nil,
    namesOf_pathOfNames newNamed]

theorem moved_of_not (proper : key.Proper) (oldProper : old.Proper)
    (elsewhere : ¬old.names <+: key.names) : old.moved new key = key := by
  have apart : ¬AtOrBelow old.path key.parent := by
    rw [proper.below_iff oldProper]
    exact fun above => elsewhere (above.trans (List.prefix_append _ _))
  unfold Key.moved
  rw [if_neg, movePath_of_not apart]
  rintro rfl
  exact elsewhere (List.prefix_refl _)

end Key.Proper

theorem exists_key_of_named {names : List Str} (named : Named names) (notRoot : names ≠ []) :
    ∃ key : Key, key.Proper ∧ key.names = names := by
  rcases List.eq_nil_or_concat names with root | ⟨parents, name, rfl⟩
  · exact absurd root notRoot
  rw [List.concat_eq_append] at named ⊢
  refine ⟨⟨pathOfNames parents, name⟩,
    ⟨isPath_pathOfNames named.left, named_singleton.mp named.right⟩, ?_⟩
  unfold Key.names Key.place Place.names
  rw [namesOf_pathOfNames named.left]

/-! ## Representing -/

def Node.text : Node → KindText
  | .leaf => .file
  | .branch => .dir

/-- The tree is the one of the rows: there is an entry for each of its places but the
root, and no other. -/
structure NameTree.Represents (tree : NameTree Str) (tables : Tables) : Prop where
  kinds : ∀ key : Key, key.Proper → tables.kindOf key = (tree.node key.names).map Node.text
  named : ∀ names, tree.node names ≠ none → Named names
  proper : ∀ key found, tables.kindOf key = some found → key.Proper

namespace NameTree.Represents

variable {tree : NameTree Str} {tables before after : Tables} {key old new : Key}

theorem of_empty : NameTree.empty.Represents .empty where
  kinds key proper := by
    simp only [NameTree.empty, if_neg key.names_ne_nil]
    rfl
  named names present := by
    simp only [NameTree.empty] at present
    split at present
    · rename_i root
      rw [root]
      simp [Named]
    · cases present rfl
  proper key found known := by cases known

theorem of_kindOf (represents : tree.Represents before)
    (same : ∀ key, after.kindOf key = before.kindOf key) : tree.Represents after where
  kinds key proper := (same key).trans (represents.kinds key proper)
  named := represents.named
  proper key found known := represents.proper key found ((same key).symm.trans known)

theorem kindOf_iff (represents : tree.Represents tables) (proper : key.Proper) {node : Node} :
    tables.kindOf key = some node.text ↔ tree.node key.names = some node := by
  rw [represents.kinds key proper]
  cases tree.node key.names with
  | none => simp
  | some found => cases found <;> cases node <;> simp [Node.text]

theorem kindOf_eq_none_iff (represents : tree.Represents tables) (proper : key.Proper) :
    tables.kindOf key = none ↔ tree.node key.names = none := by
  rw [represents.kinds key proper]
  simp

theorem branch_iff (represents : tree.Represents tables) {path : Str} (isPath : IsPath path) :
    path = rootPath ∨ tables.HasDirectory path ↔ tree.node (namesOf path) = some .branch := by
  by_cases root : path = rootPath
  · subst root
    exact ⟨fun _ => tree.root, fun _ => .inl rfl⟩
  rw [or_iff_right root, Tables.hasDirectory_iff]
  constructor
  · rintro ⟨key, known, rfl⟩
    have proper := represents.proper key _ known
    rw [proper.namesOf_path]
    exact (represents.kindOf_iff proper).mp known
  · intro branch
    have notRoot : namesOf path ≠ [] := by
      intro none
      apply root
      rw [← pathOfNames_namesOf path, none]
      rfl
    rcases exists_key_of_named isPath notRoot with ⟨key, proper, same⟩
    have directory : tables.kindOf key = some Node.branch.text :=
      (represents.kindOf_iff proper).mpr (same ▸ branch)
    refine ⟨key, directory, ?_⟩
    rw [← proper.pathOfNames_names, same, pathOfNames_namesOf]

theorem coherent (represents : tree.Represents tables) : tables.Coherent where
  names key found known := (represents.proper key found known).name
  parents key found known := by
    have proper := represents.proper key found known
    apply (represents.branch_iff proper.parent).mpr
    apply tree.inBranch _ key.name
    intro absent
    rw [(represents.kindOf_eq_none_iff proper).mpr absent] at known
    cases known

theorem childless_iff (represents : tree.Represents tables) (proper : key.Proper) :
    tree.Childless key.names ↔ ∀ child ∈ tables.entries, child.parent ≠ key.path := by
  constructor
  · intro childless child member same
    rcases Table.mem_iff_exists_lookup.mp member with ⟨row, stored⟩
    have known := Tables.kindOf_of_lookup stored
    have childProper := represents.proper child _ known
    have names : child.names = key.names ++ [child.name] := by
      rw [← proper.namesOf_path, ← same]
      rfl
    rw [represents.kinds child childProper, names, childless] at known
    cases known
  · intro empty name
    by_contra present
    have named := represents.named _ present
    have childProper : Key.Proper ⟨key.path, name⟩ :=
      ⟨proper.isPath, named_singleton.mp named.right⟩
    have names : Key.names ⟨key.path, name⟩ = key.names ++ [name] := by
      rw [← proper.namesOf_path]
      rfl
    rcases Option.ne_none_iff_exists'.mp present with ⟨node, found⟩
    have known := (represents.kindOf_iff childProper).mpr (names ▸ found)
    rcases Option.map_eq_some_iff.mp known with ⟨row, stored, _⟩
    exact empty _ (Table.mem_iff_exists_lookup.mpr ⟨row, stored⟩) rfl

/-! ### Statements -/

theorem grow (represents : tree.Represents before) (proper : key.Proper) (added : Node)
    (now : Nat) (absent : before.entries.lookup key = none)
    (branch : tree.node (namesOf key.parent) = some .branch)
    (free : tree.node (namesOf key.parent ++ [key.name]) = none) :
    (tree.grow (namesOf key.parent) key.name added branch free).Represents
      (before.insertEntry key added.text now) where
  kinds other otherProper := by
    rw [Tables.kindOf_insertEntry absent]
    by_cases same : other = key
    · subst same
      simp [NameTree.grow, Key.names, Place.names, Key.place]
    · have apart : other.names ≠ namesOf key.parent ++ [key.name] :=
        fun names => same (otherProper.injective proper names)
      simp only [NameTree.grow, if_neg same, if_neg apart]
      exact represents.kinds other otherProper
  named names present := by
    simp only [NameTree.grow] at present
    split at present
    · rename_i same
      rw [same]
      exact proper.named
    · exact represents.named names present
  proper other found known := by
    rw [Tables.kindOf_insertEntry absent] at known
    split at known
    · rename_i same
      exact same ▸ proper
    · exact represents.proper other found known

theorem prune (represents : tree.Represents before) (proper : key.Proper)
    (notRoot : key.names ≠ []) (childless : tree.Childless key.names) :
    (tree.prune key.names notRoot childless).Represents (before.deleteEntry key).2 where
  kinds other otherProper := by
    rw [Tables.kindOf_deleteEntry]
    by_cases same : other = key
    · subst same
      simp [NameTree.prune]
    · have apart : other.names ≠ key.names :=
        fun names => same (otherProper.injective proper names)
      simp only [NameTree.prune, if_neg same, if_neg apart]
      exact represents.kinds other otherProper
  named names present := by
    simp only [NameTree.prune] at present
    split at present
    · cases present rfl
    · exact represents.named names present
  proper other found known := by
    rw [Tables.kindOf_deleteEntry] at known
    split at known
    · cases known
    · exact represents.proper other found known

end NameTree.Represents

/-! ### Renaming -/

namespace Tables.FaithfulRename

variable {kind : Kind} {old new key : Key} {before after : Tables} {tree : NameTree Str}
  {found : KindText}

private theorem not_names_below (faithful : FaithfulRename kind old new before after)
    (represents : tree.Represents before) (newProper : new.Proper)
    (known : before.kindOf key = some found) (different : key ≠ new) :
    ¬new.names <+: key.names := by
  intro inside
  have proper := represents.proper key found known
  apply faithful.not_below_new known
  rw [proper.below_iff newProper]
  rcases List.prefix_concat_iff.mp inside with same | above
  · exact absurd (proper.injective newProper same.symm) different
  · exact above

private theorem exists_names (faithful : FaithfulRename kind old new before after)
    (represents : tree.Represents before) (newProper : new.Proper)
    (known : after.kindOf key = some found) :
    ∃ source, source ≠ new ∧ before.kindOf source = some found ∧
      ((∃ rest, source.names = old.names ++ rest ∧ key.names = new.names ++ rest) ∨
        source = key ∧ ¬old.names <+: key.names) := by
  rcases faithful.exists_moved known with ⟨source, kept, original, rfl⟩
  have proper := represents.proper source found original
  have oldProper := represents.proper old _ faithful.kindOf_old
  refine ⟨source, kept, original, ?_⟩
  by_cases inside : old.names <+: source.names
  · rcases inside with ⟨rest, names⟩
    exact .inl ⟨rest, names.symm, proper.names_moved oldProper newProper names.symm⟩
  · rw [proper.moved_of_not oldProper inside]
    exact .inr ⟨rfl, inside⟩

private theorem kindOf_arrived (faithful : FaithfulRename kind old new before after)
    (represents : tree.Represents before) (newProper : new.Proper) (proper : key.Proper)
    (outside : ¬old.names <+: new.names) {rest : List Str}
    (names : key.names = new.names ++ rest) :
    after.kindOf key = (tree.node (old.names ++ rest)).map Node.text := by
  have oldProper := represents.proper old _ faithful.kindOf_old
  have named := proper.named
  rw [names] at named
  have someNames : old.names ++ rest ≠ [] := by simp [Key.names, Place.names]
  rcases exists_key_of_named (oldProper.named.append named.right) someNames with
    ⟨source, sourceProper, sourceNames⟩
  have target : old.moved new source = key :=
    (sourceProper.moved oldProper newProper).injective proper
      ((sourceProper.names_moved oldProper newProper sourceNames).trans names.symm)
  rw [← sourceNames, ← represents.kinds source sourceProper]
  cases original : before.kindOf source with
  | some found =>
      rw [← target]
      apply faithful.kindOf_moved original
      rintro rfl
      exact outside ⟨rest, sourceNames.symm⟩
  | none =>
      cases known : after.kindOf key with
      | none => rfl
      | some found =>
          rcases faithful.exists_names represents newProper known with
            ⟨other, kept, otherKnown, ⟨others, otherNames, keyNames⟩ | ⟨rfl, _⟩⟩
          · have sameRest := List.append_cancel_left (names.symm.trans keyNames)
            have same : other = source :=
              (represents.proper other _ otherKnown).injective sourceProper
                (by rw [otherNames, sourceNames, sameRest])
            rw [same, original] at otherKnown
            cases otherKnown
          · exact absurd ⟨rest, names.symm⟩
              (faithful.not_names_below represents newProper otherKnown kept)

private theorem kindOf_left (faithful : FaithfulRename kind old new before after)
    (represents : tree.Represents before) (newProper : new.Proper)
    (inside : old.names <+: key.names) (elsewhere : ¬new.names <+: key.names) :
    after.kindOf key = none := by
  cases known : after.kindOf key with
  | none => rfl
  | some found =>
      rcases faithful.exists_names represents newProper known with
        ⟨source, _, _, ⟨rest, _, keyNames⟩ | ⟨_, apart⟩⟩
      · exact absurd ⟨rest, keyNames.symm⟩ elsewhere
      · exact absurd inside apart

private theorem kindOf_elsewhere (faithful : FaithfulRename kind old new before after)
    (represents : tree.Represents before) (newProper : new.Proper) (proper : key.Proper)
    (apart : ¬old.names <+: key.names) (elsewhere : ¬new.names <+: key.names) :
    after.kindOf key = before.kindOf key := by
  have oldProper := represents.proper old _ faithful.kindOf_old
  cases original : before.kindOf key with
  | some found =>
      have stays : old.moved new key = key := proper.moved_of_not oldProper apart
      rw [← stays]
      apply faithful.kindOf_moved original
      rintro rfl
      exact elsewhere (List.prefix_refl _)
  | none =>
      cases known : after.kindOf key with
      | none => rfl
      | some found =>
          rcases faithful.exists_names represents newProper known with
            ⟨source, _, otherKnown, ⟨rest, _, keyNames⟩ | ⟨rfl, _⟩⟩
          · exact absurd ⟨rest, keyNames.symm⟩ elsewhere
          · rw [original] at otherKnown
            cases otherKnown

/-- A rename moves the place of the entry in the tree of names. -/
theorem represents (faithful : FaithfulRename kind old new before after)
    (represents : tree.Represents before) (newProper : new.Proper)
    (outside : ¬old.names <+: namesOf new.parent ++ [new.name])
    (branch : tree.node (namesOf new.parent) = some .branch) :
    (tree.move old.names (namesOf new.parent) new.name outside branch).Represents after where
  kinds key proper := by
    by_cases arrived : new.names <+: key.names
    · rcases arrived with ⟨rest, names⟩
      rw [faithful.kindOf_arrived represents newProper proper outside names.symm, ← names]
      exact congrArg _ (NameTree.node_move_append outside branch rest).symm
    by_cases inside : old.names <+: key.names
    · rw [NameTree.node_move_old outside branch inside arrived,
        faithful.kindOf_left represents newProper inside arrived]
      rfl
    · rw [NameTree.node_move_other outside branch inside arrived,
        faithful.kindOf_elsewhere represents newProper proper inside arrived,
        represents.kinds key proper]
  named names present := by
    simp only [NameTree.move] at present
    split at present
    · rename_i arrived
      rcases arrived with ⟨rest, rfl⟩
      rw [List.drop_left] at present
      exact newProper.named.append (represents.named _ present).right
    · split at present
      · cases present rfl
      · exact represents.named names present
  proper key found known := by
    rcases faithful.exists_moved known with ⟨source, _, original, rfl⟩
    exact (represents.proper source found original).moved
      (represents.proper old _ faithful.kindOf_old) newProper

end Tables.FaithfulRename

end Pgfs
