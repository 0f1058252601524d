import Mathlib.Data.BitVec
import Mathlib.Tactic.IntervalCases

/-!
# Two-bit fields in a word

A 32-bit word as sixteen fields of two bits each, of which the `k`th starts at bit `2 * k`. Bits are set in a field
by an OR with a shifted mask and cleared by an AND with its complement; the other fields keep what they hold.
-/

namespace TwoBit

/-- The field at a position. -/
def field (w : BitVec 32) (k : Nat) : BitVec 32 := (w >>> (2 * k)) &&& 3

/-- Set the bits `d` in a field. -/
def setBits (w : BitVec 32) (k : Nat) (d : BitVec 32) : BitVec 32 := w ||| (d <<< (2 * k))

/-- Clear the bits `d` in a field. -/
def clearBits (w : BitVec 32) (k : Nat) (d : BitVec 32) : BitVec 32 := w &&& ~~~(d <<< (2 * k))

variable {w d : BitVec 32} {j k : Nat}

theorem getLsbD_three (i : Nat) : (3 : BitVec 32).getLsbD i = decide (i < 2) := by
  by_cases h : i < 32
  · interval_cases i <;> rfl
  · rw [BitVec.getLsbD_of_ge _ _ (by omega)]
    simp
    omega

theorem getLsbD_field (w : BitVec 32) (k i : Nat) :
    (field w k).getLsbD i = (w.getLsbD (2 * k + i) && decide (i < 2)) := by
  rw [field, BitVec.getLsbD_and, BitVec.getLsbD_ushiftRight, getLsbD_three]

/-- A mask of one field has no bit beyond its second. -/
theorem getLsbD_mask (hd : d &&& 3 = d) {i : Nat} (hi : 2 ≤ i) : d.getLsbD i = false := by
  rw [← hd, BitVec.getLsbD_and, getLsbD_three, decide_eq_false (by omega), Bool.and_false]

/-- A shifted mask, read in the field it was shifted to and in any other. -/
theorem getLsbD_shifted (hd : d &&& 3 = d) (hj : j < 16) {i : Nat} (hi : i < 2) :
    (d <<< (2 * k)).getLsbD (2 * j + i) = (decide (j = k) && d.getLsbD i) := by
  rw [BitVec.getLsbD_shiftLeft]
  rcases Nat.lt_trichotomy j k with h | rfl | h
  · rw [decide_eq_true (show 2 * j + i < 2 * k by omega), decide_eq_false (show ¬j = k by omega)]
    simp
  · have hsub : 2 * j + i - 2 * j = i := by omega
    rw [decide_eq_true (show 2 * j + i < 32 by omega), decide_eq_false (show ¬2 * j + i < 2 * j by omega), hsub]
    simp
  · rw [getLsbD_mask hd (show 2 ≤ 2 * j + i - 2 * k by omega), decide_eq_false (show ¬j = k by omega)]
    simp

theorem field_setBits (hd : d &&& 3 = d) (hj : j < 16) :
    field (setBits w k d) j = if j = k then field w j ||| d else field w j := by
  refine BitVec.eq_of_getLsbD_eq fun i _ => ?_
  by_cases hi : i < 2
  · rw [getLsbD_field, setBits, BitVec.getLsbD_or, getLsbD_shifted hd hj hi]
    by_cases h : j = k <;> simp [h, getLsbD_field, hi]
  · rw [getLsbD_field, decide_eq_false hi, Bool.and_false]
    split
    · rw [BitVec.getLsbD_or, getLsbD_field, decide_eq_false hi, getLsbD_mask hd (by omega)]
      simp
    · rw [getLsbD_field, decide_eq_false hi, Bool.and_false]

theorem field_clearBits (hd : d &&& 3 = d) (hj : j < 16) :
    field (clearBits w k d) j = if j = k then field w j &&& ~~~d else field w j := by
  refine BitVec.eq_of_getLsbD_eq fun i hi32 => ?_
  by_cases hi : i < 2
  · have hlt : 2 * j + i < 32 := by omega
    rw [getLsbD_field, clearBits, BitVec.getLsbD_and, BitVec.getLsbD_not, getLsbD_shifted hd hj hi]
    by_cases h : j = k
    · subst h
      rw [if_pos rfl, BitVec.getLsbD_and, BitVec.getLsbD_not, getLsbD_field]
      simp [hi, hlt, hi32]
    · rw [if_neg h, getLsbD_field]
      simp [h, hi, hlt]
  · rw [getLsbD_field, decide_eq_false hi, Bool.and_false]
    split
    · rw [BitVec.getLsbD_and, getLsbD_field, decide_eq_false hi, Bool.and_false, Bool.false_and]
    · rw [getLsbD_field, decide_eq_false hi, Bool.and_false]

/-- A field is one of the four masks. -/
theorem field_and_three (w : BitVec 32) (k : Nat) : field w k &&& 3 = field w k := by
  rw [field, BitVec.and_assoc, BitVec.and_self]

theorem four_masks {m : BitVec 32} (h : m &&& 3 = m) : m = 0 ∨ m = 1 ∨ m = 2 ∨ m = 3 := by
  have hle : m.toNat ≤ 3 := by
    rw [← h, BitVec.toNat_and]
    exact Nat.and_le_right
  have hmask : m.toNat = 0 ∨ m.toNat = 1 ∨ m.toNat = 2 ∨ m.toNat = 3 := by omega
  simpa [← BitVec.toNat_inj] using hmask

end TwoBit
