import Pgfs.Foundation.Vec

namespace Pgfs.Blocked

/-! Flat arrays stored as numbered blocks of one size. A block may be missing or
short; the positions it does not hold read as the filler. -/

variable {α : Type}

def blockOf (size index : Nat) : Int := (index / size : Nat)

def flat (fill : α) (size : Nat) (blocks : Int → Option (List α)) (index : Nat) : α :=
  Vec.cell fill ((blocks (blockOf size index)).getD []) (index % size)

theorem blockOf_eq_iff {size index blockNo : Nat} (positive : 0 < size) :
    blockOf size index = blockNo ↔
      blockNo * size ≤ index ∧ index < blockNo * size + size := by
  have expand : blockNo.succ * size = blockNo * size + size := Nat.succ_mul _ _
  unfold blockOf
  rw [Int.ofNat_inj, Nat.div_eq_iff positive, Nat.add_sub_assoc positive]
  omega

theorem blockOf_nonneg (size index : Nat) : 0 ≤ blockOf size index :=
  Int.natCast_nonneg _

theorem flat_congr (fill : α) (size : Nat) {left right : Int → Option (List α)}
    {index : Nat} (same : left (blockOf size index) = right (blockOf size index)) :
    flat fill size left index = flat fill size right index := by
  simp only [flat, same]

theorem flat_of_none (fill : α) {size : Nat} {blocks : Int → Option (List α)}
    {index : Nat} (missing : blocks (blockOf size index) = none) :
    flat fill size blocks index = fill := by
  simp [flat, missing]

theorem flat_of_some (fill : α) {size : Nat} {blocks : Int → Option (List α)}
    {index : Nat} {block : List α} (stored : blocks (blockOf size index) = some block) :
    flat fill size blocks index = Vec.cell fill block (index % size) := by
  simp [flat, stored]

theorem flat_or (fill : α) (size : Nat) (top bottom : Int → Option (List α)) (index : Nat) :
    flat fill size (fun blockNo => (top blockNo).or (bottom blockNo)) index =
      if (top (blockOf size index)).isSome then flat fill size top index
      else flat fill size bottom index := by
  unfold flat
  dsimp only
  cases top (blockOf size index) <;> rfl

theorem window_block (fill : α) {size : Nat} (blocks : Int → Option (List α))
    {offset length : Nat} (fits : offset % size + length ≤ size) :
    Vec.window (Vec.cell fill ((blocks (blockOf size offset)).getD [])) (offset % size)
        length =
      Vec.window (flat fill size blocks) offset length := by
  apply List.map_congr_left
  intro index member
  have inside : index < length := List.mem_range.mp member
  have quotient : (offset + index) / size = offset / size := by
    rw [Nat.add_div (by omega), Nat.div_eq_of_lt (by omega : index < size),
      Nat.mod_eq_of_lt (by omega : index < size), if_neg (by omega)]
    rfl
  have remainder : (offset + index) % size = offset % size + index := by
    rw [Nat.add_mod, Nat.mod_eq_of_lt (by omega : index < size),
      Nat.mod_eq_of_lt (by omega)]
  simp only [flat, blockOf, quotient, remainder]

end Pgfs.Blocked
