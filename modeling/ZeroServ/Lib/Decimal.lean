import Mathlib.Algebra.Group.Nat.Defs
import Mathlib.Algebra.Ring.Int.Defs
import ZeroServ.Lib.CInt
import ZeroServ.Lib.CString

/-!
# Decimal numbers in text

`%d` of `printf`, and the number that `strtol` and `strtoul` read at the start of a text: blanks, a sign, and the
digits up to the first byte that is none. What was printed is read back, whatever follows it that is not a digit.
-/

namespace Decimal

open CString

/-- `isspace` -/
def isSpace (b : UInt8) : Bool := b = 32 || (9 ≤ b && b ≤ 13)

/-- `isdigit` -/
def isDigit (b : UInt8) : Bool := 48 ≤ b && b ≤ 57

/-- The digits of a natural number. -/
def natText (n : Nat) : List UInt8 := (Nat.toDigits 10 n).map fun c => UInt8.ofNat c.toNat

/-- `%d` -/
def intText (x : Int) : List UInt8 := if x < 0 then 45 :: natText x.natAbs else natText x.natAbs

/-- The number some digits make. -/
def value (ds : List UInt8) : Nat := ds.foldl (fun n d => 10 * n + (d.toNat - 48)) 0

/-- The sign and the magnitude of the number at the start of a text. -/
def magnitude (s : Mem) : Bool × Nat :=
  match s.dropWhile isSpace with
  | 45 :: t => (true, value (t.takeWhile isDigit))
  | 43 :: t => (false, value (t.takeWhile isDigit))
  | t => (false, value (t.takeWhile isDigit))

/-- `strtol(s, NULL, 10)`, a `long` of 64 bits. -/
def strtol (s : Mem) : Int :=
  match magnitude s with
  | (true, n) => -(min n (2 ^ 63) : Nat)
  | (false, n) => (min n (2 ^ 63 - 1) : Nat)

/-- `strtol` sets `errno` to `ERANGE`. -/
def strtolRange (s : Mem) : Bool :=
  match magnitude s with
  | (true, n) => 2 ^ 63 < n
  | (false, n) => 2 ^ 63 ≤ n

/-- `strtoul(s, NULL, 10)`, an `unsigned long` of 64 bits, in which a minus sign negates. -/
def strtoul (s : Mem) : Nat :=
  match magnitude s with
  | (neg, n) => if 2 ^ 64 ≤ n then 2 ^ 64 - 1 else if neg then (2 ^ 64 - n) % 2 ^ 64 else n

/-- `strtoul` sets `errno` to `ERANGE`. -/
def strtoulRange (s : Mem) : Bool := 2 ^ 64 ≤ (magnitude s).2

/-- `atoi(s)` -/
def atoi (s : Mem) : Int := CInt.int32 (strtol s)

/-! ## Reading back what was printed -/

/-- A digit as a character and as a byte. -/
theorem digit_byte {c : Char} (h : c.isDigit = true) :
    isDigit (UInt8.ofNat c.toNat) = true ∧ (UInt8.ofNat c.toNat).toNat = c.toNat := by
  have hc : 48 ≤ c.toNat ∧ c.toNat ≤ 57 := by
    simp only [Char.isDigit, Bool.and_eq_true, decide_eq_true_eq] at h
    exact ⟨h.1, h.2⟩
  have hlt : (UInt8.ofNat c.toNat).toNat = c.toNat := by
    rw [UInt8.toNat_ofNat', Nat.mod_eq_of_lt (by omega)]
  refine ⟨?_, hlt⟩
  simp only [isDigit, Bool.and_eq_true, decide_eq_true_eq, UInt8.le_iff_toNat_le, hlt]
  exact hc

theorem isDigit_of_mem_natText {n : Nat} {b : UInt8} (h : b ∈ natText n) : isDigit b = true := by
  obtain ⟨c, hc, rfl⟩ := List.mem_map.mp h
  exact (digit_byte (Nat.isDigit_of_mem_toDigits (by decide) (by decide) hc)).1

theorem nul_not_mem_natText (n : Nat) : (0 : UInt8) ∉ natText n := fun h => nomatch isDigit_of_mem_natText h

theorem nul_not_mem_intText (x : Int) : (0 : UInt8) ∉ intText x := by
  unfold intText
  split <;> simp [nul_not_mem_natText]

/-- A digit is no blank and no sign. -/
theorem digit_no_sign {d : UInt8} (h : isDigit d = true) : isSpace d = false ∧ d ≠ 45 ∧ d ≠ 43 := by
  simp only [isDigit, isSpace, Bool.and_eq_true, decide_eq_true_eq, Bool.or_eq_false_iff, Bool.and_eq_false_iff,
    decide_eq_false_iff_not, UInt8.le_iff_toNat_le, ne_eq, ← UInt8.toNat_inj, UInt8.reduceToNat] at h ⊢
  omega

theorem value_natText (n : Nat) : value (natText n) = n := by
  have hfold : ∀ (cs : List Char) (k : Nat), (∀ c ∈ cs, c.isDigit = true) →
      (cs.map fun c => UInt8.ofNat c.toNat).foldl (fun n d => 10 * n + (d.toNat - 48)) k =
      Nat.ofDigitChars 10 cs k := by
    intro cs
    induction cs with
    | nil => exact fun k _ => (Nat.ofDigitChars_nil).symm
    | cons c cs ih =>
      intro k h
      rw [List.map_cons, List.foldl_cons, (digit_byte (h c List.mem_cons_self)).2,
        ih _ fun d hd => h d (List.mem_cons_of_mem _ hd), Nat.ofDigitChars_cons]
      rfl
  rw [value, natText, hfold _ _ fun c hc => Nat.isDigit_of_mem_toDigits (by decide) (by decide) hc,
    Nat.ofDigitChars_ten_toDigits]

theorem natText_ne_nil (n : Nat) : natText n ≠ [] := by
  simp [natText]

/-- The digits end at a byte that is none. -/
theorem takeWhile_natText (n : Nat) {b : UInt8} (hb : isDigit b = false) (rest : Mem) :
    (natText n ++ b :: rest).takeWhile isDigit = natText n := by
  rw [List.takeWhile_append_of_pos fun d hd => isDigit_of_mem_natText hd, List.takeWhile_cons_of_neg (by simp [hb]),
    List.append_nil]

/-- Digits at the start of a text, up to a byte that is none. -/
theorem magnitude_digits {ds : List UInt8} (hne : ds ≠ []) (hds : ∀ d ∈ ds, isDigit d = true) {b : UInt8}
    (hb : isDigit b = false) (rest : Mem) : magnitude (ds ++ b :: rest) = (false, value ds) := by
  have htake : (ds ++ b :: rest).takeWhile isDigit = ds := by
    rw [List.takeWhile_append_of_pos hds, List.takeWhile_cons_of_neg (by simp [hb]), List.append_nil]
  obtain ⟨d, ds, rfl⟩ := List.exists_cons_of_ne_nil hne
  obtain ⟨hspace, hminus, hplus⟩ := digit_no_sign (hds d List.mem_cons_self)
  unfold magnitude
  rw [List.cons_append] at htake ⊢
  rw [List.dropWhile_cons_of_neg (by simp [hspace])]
  split
  · next heq => exact absurd (List.cons.inj heq).1 hminus
  · next heq => exact absurd (List.cons.inj heq).1 hplus
  · rw [htake]

/-- `atoi` reads an `int`. -/
theorem atoi_digits {ds : List UInt8} (hne : ds ≠ []) (hds : ∀ d ∈ ds, isDigit d = true) {b : UInt8}
    (hb : isDigit b = false) (rest : Mem) (h : value ds < 2 ^ 31) : atoi (ds ++ b :: rest) = value ds := by
  rw [atoi, strtol, magnitude_digits hne hds hb]
  dsimp only
  rw [Nat.min_eq_left (by omega), CInt.int32_of_range (by omega) (by omega)]

theorem magnitude_blank (s : Mem) : magnitude (32 :: s) = magnitude s := by
  unfold magnitude
  rw [List.dropWhile_cons_of_pos (by decide)]

/-- A number after a blank, read up to a byte that is no digit. -/
theorem magnitude_intText (x : Int) {b : UInt8} (hb : isDigit b = false) (rest : Mem) :
    magnitude (intText x ++ b :: rest) = (decide (x < 0), x.natAbs) := by
  unfold intText
  by_cases hx : x < 0
  · rw [if_pos hx, decide_eq_true hx]
    unfold magnitude
    rw [List.cons_append, List.dropWhile_cons_of_neg (by decide)]
    simp only [takeWhile_natText _ hb, value_natText]
  · rw [if_neg hx, decide_eq_false hx, magnitude_digits (natText_ne_nil _) (fun d hd => isDigit_of_mem_natText hd) hb,
      value_natText]

/-- A number that is all of the text. -/
theorem magnitude_natText (n : Nat) : magnitude (natText n) = (false, n) := by
  obtain ⟨d, ds, hd⟩ := List.exists_cons_of_ne_nil (natText_ne_nil n)
  have hdigit : isDigit d = true := isDigit_of_mem_natText (n := n) (by rw [hd]; exact List.mem_cons_self)
  have hall : (natText n).takeWhile isDigit = natText n :=
    List.takeWhile_eq_self_iff.mpr fun b hb => isDigit_of_mem_natText hb
  obtain ⟨hspace, hminus, hplus⟩ := digit_no_sign hdigit
  unfold magnitude
  rw [hd] at hall ⊢
  rw [List.dropWhile_cons_of_neg (by simp [hspace])]
  split
  · next heq => exact absurd (List.cons.inj heq).1 hminus
  · next heq => exact absurd (List.cons.inj heq).1 hplus
  · rw [hall, ← hd, value_natText]

/-- `strtoul` reads an `unsigned long`. -/
theorem strtoul_natText {n : Nat} (h : n < 2 ^ 64) : strtoul (natText n) = n := by
  rw [strtoul, magnitude_natText]
  dsimp only
  rw [if_neg (Nat.not_le.mpr h), if_neg Bool.false_ne_true]

/-- `strtol` reads back a `long` that `%d` printed. -/
theorem strtol_intText {x : Int} (hlo : -2 ^ 63 ≤ x) (hhi : x < 2 ^ 63) {b : UInt8} (hb : isDigit b = false)
    (rest : Mem) :
    strtol (intText x ++ b :: rest) = x := by
  rw [strtol, magnitude_intText x hb]
  by_cases hx : x < 0
  · rw [decide_eq_true hx]
    dsimp only
    rw [Nat.min_eq_left (by omega)]
    omega
  · rw [decide_eq_false hx]
    dsimp only
    rw [Nat.min_eq_left (by omega)]
    omega

theorem strtol_blank (s : Mem) : strtol (32 :: s) = strtol s := by
  rw [strtol, strtol, magnitude_blank]

/-! ## Texts that numbers start -/

/-- Two texts that start with numbers, up to bytes that are no digits, are the same only with the same numbers. -/
theorem natText_append_inj {n m : Nat} {b c : UInt8} (hb : isDigit b = false) (hc : isDigit c = false) {s t : Mem}
    (h : natText n ++ b :: s = natText m ++ c :: t) : n = m ∧ b :: s = c :: t := by
  have hdigits : natText n = natText m := by
    rw [← takeWhile_natText n hb s, h, takeWhile_natText m hc t]
  refine ⟨by rw [← value_natText n, hdigits, value_natText], ?_⟩
  rw [hdigits] at h
  exact List.append_cancel_left h

/-- A text that starts with digits does not start with a minus sign. -/
theorem natText_append_ne (n : Nat) (s t : Mem) : natText n ++ s ≠ 45 :: t := by
  intro h
  obtain ⟨d, ds, hd⟩ := List.exists_cons_of_ne_nil (natText_ne_nil n)
  have hdigit : isDigit d = true := isDigit_of_mem_natText (n := n) (by rw [hd]; exact List.mem_cons_self)
  rw [hd, List.cons_append] at h
  exact (digit_no_sign hdigit).2.1 (List.cons.inj h).1

theorem intText_append_inj {x y : Int} {b c : UInt8} (hb : isDigit b = false) (hc : isDigit c = false) {s t : Mem}
    (h : intText x ++ b :: s = intText y ++ c :: t) : x = y ∧ b :: s = c :: t := by
  unfold intText at h
  by_cases hx : x < 0
  · by_cases hy : y < 0
    · rw [if_pos hx, if_pos hy, List.cons_append, List.cons_append] at h
      obtain ⟨habs, hrest⟩ := natText_append_inj hb hc (List.cons.inj h).2
      exact ⟨by omega, hrest⟩
    · rw [if_pos hx, if_neg hy, List.cons_append] at h
      exact absurd h.symm (natText_append_ne _ _ _)
  · by_cases hy : y < 0
    · rw [if_neg hx, if_pos hy, List.cons_append] at h
      exact absurd h (natText_append_ne _ _ _)
    · rw [if_neg hx, if_neg hy] at h
      obtain ⟨habs, hrest⟩ := natText_append_inj hb hc h
      exact ⟨by omega, hrest⟩

theorem length_natText_le {n k : Nat} (hk : 0 < k) (h : n < 10 ^ k) : (natText n).length ≤ k := by
  rw [natText, List.length_map]
  exact (Nat.length_toDigits_le_iff (by decide) hk).mpr h

/-- An `int` takes eleven bytes at most. -/
theorem length_intText_le {x : Int} (hlo : -2 ^ 31 ≤ x) (hhi : x < 2 ^ 31) : (intText x).length ≤ 11 := by
  have hdigits : (natText x.natAbs).length ≤ 10 := length_natText_le (by decide) (by omega)
  unfold intText
  split
  · rw [List.length_cons]
    omega
  · omega

end Decimal
