import Mathlib.Tactic.Common
import Mathlib.Data.Char
import Mathlib.Data.List.Basic
import Mathlib.Algebra.Ring.Nat

namespace Pgfs

/-! Text and paths. Text is its list of Unicode characters; a byte length is the
length of the UTF-8 encoding. -/

abbrev Str := List Char

/-- A name as the kernel passes it: bytes that may not be valid UTF-8, in which
case there is no text. -/
abbrev OsStr := Option Str

def Str.utf8Len (text : Str) : Nat := (text.map Char.utf8Size).sum

def ValidName (name : Str) : Prop := name ≠ [] ∧ '/' ∉ name

instance (name : Str) : Decidable (ValidName name) :=
  inferInstanceAs (Decidable (_ ∧ _))

def join (parent name : Str) : Str :=
  if parent.isEmpty then name else parent ++ '/' :: name

def rfindSlash : Str → Option Nat
  | [] => none
  | head :: tail =>
      match rfindSlash tail with
      | some position => some (position + 1)
      | none => if head = '/' then some 0 else none

/-- Split a full path into its (parent, name) key. Root entries have parent
"". -/
def splitPath (path : Str) : Str × Str :=
  match rfindSlash path with
  | some position => (path.take position, path.drop (position + 1))
  | none => ([], path)

/-- `old_path` followed by the separator: what every path below it starts
with. -/
def below (path : Str) : Str := path ++ ['/']

/-- The path lies at `old` or below it. -/
def AtOrBelow (old path : Str) : Prop := path = old ∨ below old <+: path

instance (old path : Str) : Decidable (AtOrBelow old path) :=
  inferInstanceAs (Decidable (_ ∨ _))

/-- Replace the leading `old` of a path by `new`. -/
def movePath (old new path : Str) : Str :=
  if AtOrBelow old path then new ++ path.drop old.length else path

theorem movePath_self (old new : Str) : movePath old new old = new := by
  simp [movePath, AtOrBelow]

theorem movePath_below {old new path : Str} (inside : below old <+: path) :
    movePath old new path = below new ++ path.drop (below old).length := by
  rcases inside with ⟨rest, rfl⟩
  simp [movePath, AtOrBelow, below]

theorem movePath_injective {old new path other : Str} (inside : AtOrBelow old path)
    (otherInside : AtOrBelow old other)
    (equal : movePath old new path = movePath old new other) : path = other := by
  have splits : ∀ inner, AtOrBelow old inner → old ++ inner.drop old.length = inner := by
    intro inner moves
    rcases moves with rfl | below
    · simp
    · exact List.prefix_iff_eq_append.mp ((List.prefix_append old ['/']).trans below)
  unfold movePath at equal
  rw [if_pos inside, if_pos otherInside] at equal
  rw [← splits path inside, ← splits other otherInside, List.append_cancel_left equal]

theorem movePath_of_not {old new path : Str} (elsewhere : ¬AtOrBelow old path) :
    movePath old new path = path := if_neg elsewhere

theorem atOrBelow_movePath {old new path : Str} (moves : AtOrBelow old path) :
    AtOrBelow new (movePath old new path) := by
  rcases moves with rfl | inside
  · exact .inl (movePath_self _ _)
  · rw [movePath_below inside]
    exact .inr (List.prefix_append _ _)

theorem atOrBelow_append {root path : Str} (inside : AtOrBelow root path) (other : Str) :
    AtOrBelow other (other ++ path.drop root.length) := by
  rcases inside with same | prefixed
  · left
    rw [same, List.drop_length, List.append_nil]
  · right
    rcases prefixed with ⟨rest, rfl⟩
    exact ⟨rest, by simp [below]⟩

theorem atOrBelow_iff {old path : Str} : AtOrBelow old path ↔ below old <+: below path := by
  constructor
  · intro inside
    rcases inside with same | prefixed
    · subst same
      exact List.prefix_refl _
    · exact prefixed.trans (List.prefix_append path ['/'])
  · intro prefixed
    rcases List.prefix_concat_iff.mp prefixed with same | shorter
    · exact .inl (List.append_cancel_right same).symm
    · exact .inr shorter

theorem atOrBelow_comparable {first second path : Str} (inside : AtOrBelow first path)
    (other : AtOrBelow second path) : AtOrBelow first second ∨ AtOrBelow second first := by
  rw [atOrBelow_iff] at inside other
  rw [atOrBelow_iff, atOrBelow_iff]
  exact List.prefix_or_prefix_of_prefix inside other

/-! ## The last separator -/

theorem rfindSlash_eq_none {path : Str} : rfindSlash path = none ↔ '/' ∉ path := by
  induction path with
  | nil => simp [rfindSlash]
  | cons head tail induction =>
      unfold rfindSlash
      cases found : rfindSlash tail with
      | some position =>
          have member : '/' ∈ tail := by
            by_contra missing
            rw [induction.mpr missing] at found
            cases found
          simp [member]
      | none =>
          have missing := induction.mp found
          by_cases slash : head = '/'
          · simp [slash]
          · simp [slash, missing, Ne.symm slash]

theorem rfindSlash_append (parent name : Str) (plain : '/' ∉ name) :
    rfindSlash (parent ++ '/' :: name) = some parent.length := by
  induction parent with
  | nil => simp [rfindSlash, rfindSlash_eq_none.mpr plain]
  | cons head tail induction => simp [rfindSlash, induction]

/-! ## Keys and paths -/

theorem splitPath_join {parent name : Str} (valid : ValidName name) :
    splitPath (join parent name) = (parent, name) := by
  unfold join splitPath
  cases parent with
  | nil => simp [rfindSlash_eq_none.mpr valid.2]
  | cons head tail =>
      have found := rfindSlash_append (head :: tail) name valid.2
      simp only [List.isEmpty_cons, Bool.false_eq_true, if_false, found]
      simp

theorem join_injective {parent name otherParent otherName : Str}
    (valid : ValidName name) (otherValid : ValidName otherName)
    (equal : join parent name = join otherParent otherName) :
    parent = otherParent ∧ name = otherName := by
  have split := congrArg splitPath equal
  rw [splitPath_join valid, splitPath_join otherValid] at split
  exact Prod.mk.inj split

theorem join_ne_nil {parent name : Str} (valid : ValidName name) :
    join parent name ≠ [] := by
  unfold join
  cases parent with
  | nil => simpa using valid.1
  | cons head tail => simp

theorem length_lt_join {parent name : Str} (valid : ValidName name) :
    parent.length < (join parent name).length := by
  have positive := List.length_pos_iff.mpr valid.1
  unfold join
  split
  · rename_i root
    rw [List.isEmpty_iff.mp root]
    exact positive
  · simp

/-! ## Moving a directory -/

/-- A path of a valid name lies below another one exactly when its parent lies at
or below that. -/
theorem below_prefix_join {old parent name : Str} (valid : ValidName name)
    (notRoot : old ≠ []) : below old <+: join parent name ↔ AtOrBelow old parent := by
  unfold join AtOrBelow
  cases parent with
  | nil =>
      simp only [List.isEmpty_nil, if_true]
      constructor
      · intro inside
        exact absurd (inside.subset (by simp [below])) valid.2
      · rintro (same | inside)
        · exact absurd same.symm notRoot
        · simp [below] at inside
  | cons head tail =>
      simp only [List.isEmpty_cons, Bool.false_eq_true, if_false]
      generalize head :: tail = parent
      constructor
      · rintro ⟨rest, equal⟩
        have split : old ++ ('/' :: rest) = parent ++ ('/' :: name) := by
          simpa [below] using equal
        rcases List.append_eq_append_iff.mp split with
          ⟨middle, rfl, slash⟩ | ⟨middle, rfl, slash⟩
        · cases middle with
          | nil => exact .inl (List.append_nil _)
          | cons first others =>
              cases slash
              exact .inr ⟨others, by simp [below]⟩
        · cases middle with
          | nil => exact .inl (List.append_nil _).symm
          | cons first others =>
              cases slash
              exact absurd (by simp) valid.2
      · rintro (rfl | inside)
        · exact ⟨name, by simp [below]⟩
        · exact inside.trans (List.prefix_append _ _)

theorem join_movePath {old new parent name : Str} (valid : ValidName name)
    (notRoot : old ≠ []) (newNotRoot : new ≠ []) (other : join parent name ≠ old) :
    join (movePath old new parent) name = movePath old new (join parent name) := by
  have inside : below old <+: join parent name ↔ AtOrBelow old parent :=
    below_prefix_join valid notRoot
  by_cases moves : AtOrBelow old parent
  · have moved : AtOrBelow old (join parent name) := .inr (inside.mpr moves)
    have long : old.length ≤ parent.length := by
      rcases moves with rfl | prefixed
      · exact Nat.le_refl _
      · exact ((List.prefix_append old ['/']).trans prefixed).length_le
    have parentSome : parent ≠ [] := by
      rintro rfl
      exact notRoot (by simpa using long)
    unfold movePath
    rw [if_pos moves, if_pos moved]
    simp [join, parentSome, newNotRoot, List.drop_append_of_le_length long]
  · have stays : ¬AtOrBelow old (join parent name) := by
      rintro (same | prefixed)
      · exact other same
      · exact moves (inside.mp prefixed)
    unfold movePath
    rw [if_neg moves, if_neg stays]
end Pgfs
