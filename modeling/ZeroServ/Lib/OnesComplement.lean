import Mathlib.Algebra.Group.Nat.Defs
import Mathlib.Data.Nat.ModEq

/-!
# Sums with end-around carry

Addition in one's complement counts modulo `m`, the largest number of the width, with zero only where nothing but
zeros was added: `norm m x` is the number that stands for `x`. A sum of any numbers may be taken in any width that
`m` divides, and brought down at the end.
-/

namespace OnesComplement

/-- What stands for a number: zero for itself, else the one number from 1 to `m` that is as large modulo `m`. -/
def norm (m x : Nat) : Nat := if x = 0 then 0 else (x - 1) % m + 1

variable {m M x y : Nat}

@[simp] theorem norm_zero (m : Nat) : norm m 0 = 0 := if_pos rfl

theorem norm_of_pos (h : 0 < x) : norm m x = (x - 1) % m + 1 := if_neg (Nat.ne_of_gt h)

/-- A number of the width stands for itself. -/
theorem norm_of_le (h : x ≤ m) : norm m x = x := by
  rcases Nat.eq_zero_or_pos x with rfl | hx
  · exact norm_zero m
  · rw [norm_of_pos hx, Nat.mod_eq_of_lt (by omega)]
    omega

theorem norm_pos (h : 0 < x) : 0 < norm m x := by
  rw [norm_of_pos h]
  exact Nat.succ_pos _

/-- Multiples of `m` do not count, but for a zero. -/
theorem norm_add_mul (k : Nat) (h : x = 0 → k = 0) : norm m (x + m * k) = norm m x := by
  rcases Nat.eq_zero_or_pos x with rfl | hx
  · rw [h rfl, Nat.mul_zero]
  · rw [norm_of_pos hx, norm_of_pos (Nat.lt_of_lt_of_le hx (Nat.le_add_right ..)), Nat.sub_add_comm hx,
      Nat.add_mul_mod_self_left]

/-- A number is what stands for it and a multiple of `m`. -/
theorem eq_norm_add (m x : Nat) : ∃ k, x = norm m x + m * k := by
  rcases Nat.eq_zero_or_pos x with rfl | hx
  · exact ⟨0, by simp⟩
  · refine ⟨(x - 1) / m, ?_⟩
    have hdiv := Nat.mod_add_div (x - 1) m
    rw [norm_of_pos hx]
    omega

/-- What was brought down to a width may be added as it is. -/
theorem norm_norm_add (h : m ∣ M) (x y : Nat) : norm m (norm M x + y) = norm m (x + y) := by
  obtain ⟨d, rfl⟩ := h
  obtain ⟨k, hk⟩ := eq_norm_add (m * d) x
  rcases Nat.eq_zero_or_pos x with rfl | hx
  · rw [norm_zero]
  · have hpos : 0 < norm (m * d) x := norm_pos hx
    conv_rhs => rw [hk]
    rw [Nat.add_right_comm, Nat.mul_assoc, norm_add_mul (d * k) (by omega)]

theorem norm_norm (h : m ∣ M) (x : Nat) : norm m (norm M x) = norm m x := by
  have := norm_norm_add h x 0
  rwa [Nat.add_zero, Nat.add_zero] at this

/-- A number in two parts, of which the base is one modulo `m`, stands for their sum. -/
theorem norm_add_base_mul {b : Nat} (hb : b = m + 1) (x y : Nat) : norm m (x + b * y) = norm m (x + y) := by
  have hsplit : x + b * y = x + y + m * y := by
    rw [hb, Nat.add_mul, Nat.one_mul]
    omega
  rw [hsplit]
  exact norm_add_mul y (by omega)

theorem norm_add_pow_mul {b : Nat} (hb : b = m + 1) (k x y : Nat) : norm m (x + b ^ k * y) = norm m (x + y) := by
  induction k with
  | zero => rw [Nat.pow_zero, Nat.one_mul]
  | succ k ih => rw [Nat.pow_succ', Nat.mul_assoc, norm_add_base_mul hb, ih]

theorem norm_mod_add_div {b : Nat} (hb : b = m + 1) (x : Nat) : norm m (x % b + x / b) = norm m x := by
  rw [← norm_add_base_mul hb, Nat.mod_add_div]

/-- What is less than `m` and changes nothing is zero. -/
theorem norm_add_eq_iff (h : y < m) : norm m (x + y) = norm m x ↔ y = 0 := by
  refine ⟨fun heq => ?_, fun hy => by rw [hy, Nat.add_zero]⟩
  rcases Nat.eq_zero_or_pos x with rfl | hx
  · rwa [Nat.zero_add, norm_zero, norm_of_le (Nat.le_of_lt h)] at heq
  · rw [norm_of_pos hx, norm_of_pos (Nat.add_pos_left hx y), Nat.sub_add_comm hx] at heq
    have hmod : x - 1 + y ≡ x - 1 + 0 [MOD m] := Nat.succ_inj.mp heq
    exact Nat.ModEq.eq_of_lt_of_lt (Nat.ModEq.add_left_cancel' (x - 1) hmod) h (Nat.lt_of_le_of_lt (Nat.zero_le y) h)

/-- The carry is known by the sum that is less than what was added; it is added in, and there is no second one. -/
theorem carry_eq_norm {b : Nat} (hb : b = m + 1) (hx : x < b) (hy : y < b) :
    (if (x + y) % b < y then ((x + y) % b + 1) % b else (x + y) % b) = norm m (x + y) := by
  rcases Nat.lt_or_ge (x + y) b with hlt | hge
  · rw [Nat.mod_eq_of_lt hlt, if_neg (by omega), norm_of_le (by omega)]
  · have hmod : (x + y) % b = x + y - b := by
      rw [Nat.mod_eq_sub_mod hge, Nat.mod_eq_of_lt (by omega)]
    have hm : (x + y - 1) % m = x + y - 1 - m := by
      rw [Nat.mod_eq_sub_mod (by omega), Nat.mod_eq_of_lt (by omega)]
    rw [hmod, if_pos (by omega), Nat.mod_eq_of_lt (by omega), norm_of_pos (by omega), hm]
    omega

end OnesComplement
