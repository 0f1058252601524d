import Mathlib.Data.Int.Basic
import Mathlib.Tactic.NormNum

/-!
# C integer conversions

A value converted to a C `int` of 32 bits wraps around; inside the range of the type it is kept.
-/

namespace CInt

/-- Conversion to `int`. -/
def int32 (x : Int) : Int := Int.bmod x (2 ^ 32)

theorem int32_of_range {x : Int} (hlo : -2147483648 ≤ x) (hhi : x < 2147483648) : int32 x = x := by
  have h := Int.bmod_eq_of_le_mul_two (x := x) (y := 2 ^ 32) (by omega) (by omega)
  exact h

theorem int32_lt (x : Int) : int32 x < 2147483648 := by
  have := Int.bmod_lt (x := x) (m := 2 ^ 32) (by norm_num)
  simpa [int32] using this

theorem int32_ge (x : Int) : -2147483648 ≤ int32 x := by
  have := Int.le_bmod (x := x) (m := 2 ^ 32) (by norm_num)
  simpa [int32] using this

/-- A value behind the range wraps to a negative one. -/
theorem int32_wrap {x : Int} (hlo : 2147483648 ≤ x) (hhi : x < 4294967296) : int32 x = x - 4294967296 := by
  have hsub : int32 x = int32 (x - 4294967296) := by simp [int32, Int.bmod_def]
  rw [hsub, int32_of_range (by omega) (by omega)]

/-- A count is no `int` of -1 before it is all ones. -/
theorem int32_natCast_ne {n : Nat} (h : n < 4294967295) : int32 n ≠ -1 := by
  rcases Nat.lt_or_ge n 2147483648 with hlo | hhi
  · rw [int32_of_range (by omega) (by omega)]
    omega
  · rw [int32_wrap (by omega) (by omega)]
    omega

/-- Conversion to `size_t`. -/
def sizeT (x : Int) : Nat := (x % 2 ^ 64).toNat

theorem sizeT_of_nonneg {x : Int} (hlo : 0 ≤ x) (hhi : x < 2 ^ 64) : sizeT x = x.toNat := by
  rw [sizeT, Int.emod_eq_of_lt hlo hhi]

end CInt
