import Pgfs.Foundation.NameTree
import Pgfs.Fs.State
import Pgfs.Path.Names

namespace Pgfs

/-! What the daemon is for, as far as names go: requests to one tree of files and
directories, answered one after another. -/

structure Place where
  parents : List Str
  name : Str
  deriving DecidableEq, Repr

def Place.names (place : Place) : List Str := place.parents ++ [place.name]

inductive NameCall
  | look (names : Option (List Str))
  | resize (sized : Bool) (names : Option (List Str))
  | make (added : Node) (place : Option Place)
  | unlink (place : Option Place)
  | rmdir (place : Option Place)
  | rename (flags : Nat) (old new : Option Place)
  deriving DecidableEq, Repr

abbrev NameAnswer := Except Errno (Option Node)

namespace NameTree

open Classical in
noncomputable def make (tree : NameTree Str) (added : Node) (place : Place) :
    NameAnswer × NameTree Str :=
  if free : tree.node place.names = none then
    if branch : tree.node place.parents = some .branch then
      (.ok (some added), tree.grow place.parents place.name added branch free)
    else
      (.error .enotdir, tree)
  else
    (.error .eexist, tree)

def unlink (tree : NameTree Str) (place : Place) : NameAnswer × NameTree Str :=
  if leaf : tree.node place.names = some .leaf then
    (.ok none, tree.prune place.names (by simp [Place.names]) (childless_of_leaf leaf))
  else if tree.node place.names = none then
    (.ok none, tree)
  else
    (.error .eisdir, tree)

open Classical in
noncomputable def rmdir (tree : NameTree Str) (place : Place) : NameAnswer × NameTree Str :=
  match tree.node place.names with
  | none => (.error .enoent, tree)
  | some .leaf => (.error .enotdir, tree)
  | some .branch =>
      if childless : tree.Childless place.names then
        (.ok none, tree.prune place.names (by simp [Place.names]) childless)
      else
        (.error .enotempty, tree)

open Classical in
noncomputable def replaceError (tree : NameTree Str) (source : Node) (new : List Str) :
    Option Errno :=
  match source, tree.node new with
  | .leaf, some .branch => some .eisdir
  | .branch, some .leaf => some .enotdir
  | .branch, some .branch => if tree.Childless new then none else some .enotempty
  | _, _ => none

noncomputable def rename (tree : NameTree Str) (old new : Place) :
    NameAnswer × NameTree Str :=
  if new = old then
    (.ok none, tree)
  else if outside : ¬old.names <+: new.names then
    match tree.node old.names with
    | none => (.error .enoent, tree)
    | some source =>
        match tree.replaceError source new.names with
        | some errno => (.error errno, tree)
        | none =>
            if branch : tree.node new.parents = some .branch then
              (.ok none, tree.move old.names new.parents new.name outside branch)
            else
              (.error .enotdir, tree)
  else
    (.error .einval, tree)

noncomputable def serve (tree : NameTree Str) : NameCall → NameAnswer × NameTree Str
  | .look none | .resize _ none | .make _ none | .unlink none | .rmdir none =>
      (.error .enoent, tree)
  | .look (some names) =>
      match tree.node names with
      | none => (.error .enoent, tree)
      | some found => (.ok (some found), tree)
  | .resize sized (some names) =>
      match tree.node names with
      | none => (.error .enoent, tree)
      | some .leaf => (.ok (some .leaf), tree)
      | some .branch =>
          if sized = true ∧ names ≠ [] then (.error .eisdir, tree)
          else (.ok (some .branch), tree)
  | .make added (some place) => tree.make added place
  | .unlink (some place) => tree.unlink place
  | .rmdir (some place) => tree.rmdir place
  | .rename flags old new =>
      if flags ≠ 0 then
        (.error .einval, tree)
      else
        match old, new with
        | some old, some new => tree.rename old new
        | _, _ => (.error .enoent, tree)

end NameTree

end Pgfs
