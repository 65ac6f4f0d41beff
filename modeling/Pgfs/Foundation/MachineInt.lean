import Mathlib.Tactic.Common
import Mathlib.Data.List.Nodup
import Mathlib.Algebra.Ring.Nat
import Mathlib.Algebra.Ring.Int.Defs

namespace Pgfs

/-! Casts between machine integers and the checked arithmetic of 64-bit
unsigned values. Values are natural numbers or integers; a cast wraps around,
an arithmetic operation that leaves the range has no result. -/

namespace MachineInt

/-- `value as i32` for an unsigned value. -/
def asI32 (value : Nat) : Int := (value : Int).bmod (2 ^ 32)

/-- `value as i64` for an unsigned value. -/
def asI64 (value : Nat) : Int := (value : Int).bmod (2 ^ 64)

/-- `value as u64` for a signed value: sign extension. -/
def asU64 (value : Int) : Nat := (value % 2 ^ 64).toNat

/-- The largest `usize` and `u64`. -/
def maxU64 : Nat := 2 ^ 64 - 1

def checkedAdd (left right : Nat) : Option Nat :=
  if left + right < 2 ^ 64 then some (left + right) else none

def checkedMul (left right : Nat) : Option Nat :=
  if left * right < 2 ^ 64 then some (left * right) else none

def checkedSub (left right : Nat) : Option Nat :=
  if right ≤ left then some (left - right) else none

/-- The values of `start..=stop`; empty when the bounds are crossed. -/
def rangeInclusive (start stop : Int) : List Int :=
  (List.range (stop + 1 - start).toNat).map fun (index : Nat) => start + index

theorem asI32_of_lt {value : Nat} (small : value < 2 ^ 31) :
    asI32 value = value := by
  unfold asI32
  rw [Int.bmod_def]
  omega

theorem asI64_of_lt {value : Nat} (small : value < 2 ^ 63) :
    asI64 value = value := by
  unfold asI64
  rw [Int.bmod_def]
  omega

@[simp] theorem asU64_natCast {value : Nat} (small : value < 2 ^ 64) :
    asU64 value = value := by
  unfold asU64
  omega

/-- A value past the range of `i32` comes back from it either huge or reduced. -/
theorem asU64_asI32_of_le {value : Nat} (past : 2 ^ 31 ≤ value) :
    2 ^ 63 ≤ asU64 (asI32 value) ∨
      asU64 (asI32 value) < 2 ^ 31 ∧ asU64 (asI32 value) + 2 ^ 32 ≤ value := by
  unfold asU64 asI32
  rw [Int.bmod_def]
  split <;> omega

theorem checkedAdd_of_lt {left right : Nat} (small : left + right < 2 ^ 64) :
    checkedAdd left right = some (left + right) := if_pos small

theorem eq_of_checkedAdd {left right sum : Nat}
    (added : checkedAdd left right = some sum) : sum = left + right := by
  unfold checkedAdd at added
  split at added
  · exact (Option.some.inj added).symm
  · cases added

theorem asI32_bounds (value : Nat) : -2 ^ 31 ≤ asI32 value ∧ asI32 value < 2 ^ 31 := by
  unfold asI32
  rw [Int.bmod_def]
  split <;> omega

theorem eq_of_checkedMul {left right product : Nat}
    (multiplied : checkedMul left right = some product) : product = left * right := by
  unfold checkedMul at multiplied
  split at multiplied
  · exact (Option.some.inj multiplied).symm
  · cases multiplied

theorem eq_of_checkedSub {left right difference : Nat}
    (subtracted : checkedSub left right = some difference) :
    right ≤ left ∧ difference = left - right := by
  unfold checkedSub at subtracted
  split at subtracted
  · rename_i le
    exact ⟨le, (Option.some.inj subtracted).symm⟩
  · cases subtracted

theorem checkedMul_of_lt {left right : Nat} (small : left * right < 2 ^ 64) :
    checkedMul left right = some (left * right) := if_pos small

theorem checkedSub_of_le {left right : Nat} (le : right ≤ left) :
    checkedSub left right = some (left - right) := if_pos le

theorem checkedMul_eq_none {left right : Nat} (large : 2 ^ 64 ≤ left * right) :
    checkedMul left right = none := if_neg (by omega)

theorem checkedSub_eq_none {left right : Nat} (lt : left < right) :
    checkedSub left right = none := if_neg (by omega)

theorem mem_rangeInclusive {start stop value : Int} :
    value ∈ rangeInclusive start stop ↔ start ≤ value ∧ value ≤ stop := by
  unfold rangeInclusive
  simp only [List.mem_map, List.mem_range]
  constructor
  · rintro ⟨index, inside, rfl⟩
    omega
  · intro bounds
    exact ⟨(value - start).toNat, by omega, by omega⟩

theorem rangeInclusive_nodup (start stop : Int) :
    (rangeInclusive start stop).Nodup := by
  apply List.Nodup.map _ List.nodup_range
  intro left right equal
  simp only at equal
  omega

end MachineInt

end Pgfs
