import Mathlib.Tactic.Common
import Mathlib.Data.List.Basic

namespace Pgfs.Vec

/-! Growable vectors, as lists: resizing, slicing and copying into a range, and
the flat arrays that vectors stand for when every missing position reads as one
fixed filler. -/

variable {α : Type}

def resize (values : List α) (length : Nat) (fill : α) : List α :=
  values.take length ++ List.replicate (length - values.length) fill

/-- The elements from `start` up to `stop`; slicing outside the vector is an
error. -/
def slice (values : List α) (start stop : Nat) : Option (List α) :=
  if start ≤ stop ∧ stop ≤ values.length then
    some ((values.take stop).drop start)
  else
    none

/-- Overwrite the elements from `offset` on, growing the vector with the filler
when it does not reach the end of the range. -/
def patch (values : List α) (offset : Nat) (chunk : List α) (fill : α) : List α :=
  let grown :=
    if values.length < offset + chunk.length then
      resize values (offset + chunk.length) fill
    else
      values
  grown.take offset ++ chunk ++ grown.drop (offset + chunk.length)

def cell (fill : α) (values : List α) (index : Nat) : α :=
  values.getD index fill

/-- The array in which the elements of `data` replace those from `offset` on. -/
def overlay (fill : α) (base : Nat → α) (offset : Nat) (data : List α) : Nat → α :=
  fun index =>
    if offset ≤ index ∧ index < offset + data.length then
      cell fill data (index - offset)
    else
      base index

/-- `length` consecutive elements of an array. -/
def window (base : Nat → α) (offset length : Nat) : List α :=
  (List.range length).map fun index => base (offset + index)

/-! ## Lengths -/

@[simp] theorem length_resize (values : List α) (length : Nat) (fill : α) :
    (resize values length fill).length = length := by
  simp [resize]
  omega

theorem le_of_slice {values chunk : List α} {start stop : Nat}
    (sliced : slice values start stop = some chunk) : start ≤ stop := by
  unfold slice at sliced
  split at sliced
  · rename_i bounds
    exact bounds.1
  · cases sliced

theorem length_of_slice {values chunk : List α} {start stop : Nat}
    (sliced : slice values start stop = some chunk) :
    chunk.length = stop - start := by
  unfold slice at sliced
  split at sliced
  · rename_i bounds
    cases sliced
    simp
    omega
  · cases sliced

@[simp] theorem length_patch (values : List α) (offset : Nat) (chunk : List α)
    (fill : α) :
    (patch values offset chunk fill).length =
      max values.length (offset + chunk.length) := by
  unfold patch
  by_cases short : values.length < offset + chunk.length
  · simp [short]
    omega
  · simp [short]
    omega

@[simp] theorem length_window (base : Nat → α) (offset length : Nat) :
    (window base offset length).length = length := by
  simp [window]

/-! ## Elements -/

theorem cell_of_le (fill : α) (values : List α) {index : Nat}
    (past : values.length ≤ index) : cell fill values index = fill := by
  simp [cell, List.getElem?_eq_none past]

@[simp] theorem cell_nil (fill : α) (index : Nat) : cell fill [] index = fill := by
  simp [cell]

theorem cell_take (fill : α) (values : List α) (length index : Nat) :
    cell fill (values.take length) index =
      if index < length then cell fill values index else fill := by
  simp only [cell, List.getD_eq_getElem?_getD, List.getElem?_take]
  split <;> rfl

theorem cell_drop (fill : α) (values : List α) (start index : Nat) :
    cell fill (values.drop start) index = cell fill values (start + index) := by
  simp [cell, List.getD_eq_getElem?_getD]

theorem cell_append (fill : α) (left right : List α) (index : Nat) :
    cell fill (left ++ right) index =
      if index < left.length then cell fill left index
      else cell fill right (index - left.length) := by
  simp only [cell, List.getD_eq_getElem?_getD, List.getElem?_append]
  split <;> rfl

theorem cell_replicate (fill : α) (length index : Nat) :
    cell fill (List.replicate length fill) index = fill := by
  simp only [cell, List.getD_eq_getElem?_getD, List.getElem?_replicate]
  split <;> rfl

theorem cell_resize (fill : α) (values : List α) (length index : Nat) :
    cell fill (resize values length fill) index =
      if index < length then cell fill values index else fill := by
  rw [resize, cell_append, cell_replicate, cell_take, List.length_take]
  by_cases inside : index < length
  · by_cases stored : index < values.length
    · rw [if_pos (by omega), if_pos inside]
    · rw [cell_of_le fill values (by omega)]
      simp
  · rw [if_neg (by omega), if_neg inside]

theorem cell_patch (fill : α) (values : List α) (offset : Nat) (chunk : List α)
    (index : Nat) :
    cell fill (patch values offset chunk fill) index =
      overlay fill (cell fill values) offset chunk index := by
  have grownCell : ∀ position, cell fill
      (if values.length < offset + chunk.length then
        resize values (offset + chunk.length) fill else values) position =
      cell fill values position := by
    intro position
    split
    · rw [cell_resize]
      split
      · rfl
      · rw [cell_of_le fill values (by omega)]
    · rfl
  have grownLength : offset + chunk.length ≤
      (if values.length < offset + chunk.length then
        resize values (offset + chunk.length) fill else values).length := by
    split
    · simp
    · omega
  unfold patch
  generalize (if values.length < offset + chunk.length then
      resize values (offset + chunk.length) fill else values) = grown at *
  simp only [cell_append, cell_take, cell_drop, grownCell, List.length_append,
    List.length_take, overlay]
  have offsetLe : min offset grown.length = offset := by omega
  rw [offsetLe]
  by_cases before : index < offset
  · rw [if_pos (by omega), if_pos before, if_pos before, if_neg (by omega)]
  · by_cases inside : index < offset + chunk.length
    · rw [if_pos inside, if_neg before, if_pos (by omega)]
    · rw [if_neg inside, if_neg (by omega)]
      congr 1
      omega

/-! ## Windows -/

theorem window_congr {left right : Nat → α} {offset length : Nat}
    (agree : ∀ index, offset ≤ index → index < offset + length →
      left index = right index) :
    window left offset length = window right offset length := by
  apply List.map_congr_left
  intro index member
  exact agree _ (by omega) (by simp at member; omega)

theorem window_eq_iff {left right : Nat → α} {offset length : Nat} :
    window left offset length = window right offset length ↔
      ∀ index, offset ≤ index → index < offset + length →
        left index = right index := by
  refine ⟨fun equal index low high => ?_, window_congr⟩
  have position := congrArg (fun values => values[index - offset]?) equal
  simp only [window, List.getElem?_map] at position
  rw [List.getElem?_range (by omega)] at position
  simpa [Nat.add_sub_cancel' low] using position

theorem window_add (base : Nat → α) (offset first second : Nat) :
    window base offset (first + second) =
      window base offset first ++ window base (offset + first) second := by
  simp only [window, List.range_add, List.map_append, List.map_map]
  congr 1
  apply List.map_congr_left
  intro index _
  simp [Nat.add_assoc]

@[simp] theorem window_zero (base : Nat → α) (offset : Nat) :
    window base offset 0 = [] := rfl

theorem eq_window_cell (fill : α) (values : List α) :
    values = window (cell fill values) 0 values.length := by
  apply List.ext_getElem
  · simp
  · intro index inside _
    simp [window, cell, inside]

theorem window_cell (fill : α) (values : List α) (offset length : Nat) :
    window (cell fill values) offset (min length (values.length - offset)) =
      (values.drop offset).take length := by
  apply List.ext_getElem
  · simp
  · intro index inside _
    have within : offset + index < values.length := by
      rw [length_window] at inside
      omega
    simp [window, cell, within]

end Pgfs.Vec
