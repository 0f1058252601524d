import Mathlib.Data.Nat.ModEq
import Mathlib.Tactic.Ring

/-!
# Words in memory, the low byte first

A word of some bytes as a machine of little-endian order reads it (`word`) and writes it (`bytes`): what is written
is read back.
-/

namespace LittleEndian

/-- The number that bytes make. -/
def word : List UInt8 → Nat
  | [] => 0
  | b :: bs => b.toNat + 256 * word bs

/-- The `n` low bytes of a number. -/
def bytes : Nat → Nat → List UInt8
  | 0, _ => []
  | n + 1, x => UInt8.ofNat x :: bytes n (x / 256)

@[simp] theorem length_bytes (n x : Nat) : (bytes n x).length = n := by
  induction n generalizing x with
  | zero => rfl
  | succ n ih => rw [bytes, List.length_cons, ih]

/-- The bytes behind others count for more. -/
theorem word_append (a b : List UInt8) : word (a ++ b) = word a + 256 ^ a.length * word b := by
  induction a with
  | nil => simp [word]
  | cons x a ih =>
    rw [List.cons_append, word, ih, word, List.length_cons, pow_succ]
    ring

theorem word_lt (bs : List UInt8) : word bs < 256 ^ bs.length := by
  induction bs with
  | nil => exact Nat.one_pos
  | cons b bs ih =>
    have hb := b.toNat_lt
    rw [word, List.length_cons, pow_succ]
    omega

/-- A number that fits is read back. -/
theorem word_bytes {n x : Nat} (h : x < 256 ^ n) : word (bytes n x) = x := by
  induction n generalizing x with
  | zero =>
    have hx : x = 0 := by simpa using h
    rw [hx]
    rfl
  | succ n ih =>
    have hlow : (UInt8.ofNat x).toNat = x % 256 := UInt8.toNat_ofNat'
    have hhigh : x / 256 < 256 ^ n := by
      rw [pow_succ] at h
      omega
    rw [bytes, word, ih hhigh, hlow]
    exact Nat.mod_add_div x 256

end LittleEndian
