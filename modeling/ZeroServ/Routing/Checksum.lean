import ZeroServ.Lib.OnesComplement
import ZeroServ.Routing.Packet

/-!
# The checksum against its definition

`tcp_checksum` sums words of 64 bits and folds the sum; the Internet checksum sums words of 16 bits in one's
complement. The two agree but for a tail of two, four or six bytes, in which the last step of `tcp_checksum`, that is
for the odd byte, reads the byte behind the buffer (`checksum_eq_iff`).
-/

namespace ZeroServ
namespace Routing

open LittleEndian OnesComplement

/-- Addition in one's complement: the carry is added in. -/
def onesAdd (x y : UInt16) : UInt16 := if x.toNat + y.toNat < 2 ^ 16 then x + y else x + y + 1

/-- The words of a buffer, the low byte first; a last odd byte has a high byte of zero. -/
def words : List UInt8 → List UInt16
  | [] => []
  | [b] => [.ofNat (word [b])]
  | a :: b :: rest => .ofNat (word [a, b]) :: words rest

/-- The Internet checksum: the complement of the sum of the words. -/
def internetChecksum (data : List UInt8) : UInt16 := ~~~(words data).foldl onesAdd 0

/-! ## The sum of the words -/

theorem toNat_onesAdd (x y : UInt16) : (onesAdd x y).toNat = norm 65535 (x.toNat + y.toNat) := by
  have hx := x.toNat_lt
  have hy := y.toNat_lt
  rw [onesAdd]
  split
  · next hlt => rw [UInt16.toNat_add, norm_of_le (by omega), Nat.mod_eq_of_lt (by omega)]
  · next hge =>
    rw [norm_of_pos (by omega), UInt16.toNat_add, UInt16.toNat_add]
    simp only [UInt16.toNat_one, Nat.reducePow]
    omega

/-- The words sum up to what stands for the number that the bytes make. -/
theorem foldl_words (data : List UInt8) (acc : UInt16) :
    ((words data).foldl onesAdd acc).toNat = norm 65535 (acc.toNat + word data) := by
  have hacc := acc.toNat_lt
  induction data using words.induct generalizing acc with
  | case1 => rw [words, List.foldl_nil, word, Nat.add_zero, norm_of_le (by omega)]
  | case2 b =>
    have hb := b.toNat_lt
    have hw : (UInt16.ofNat (word [b])).toNat = word [b] := by
      rw [UInt16.toNat_ofNat', Nat.mod_eq_of_lt]
      simp only [word]
      omega
    rw [words, List.foldl_cons, List.foldl_nil, toNat_onesAdd, hw]
  | case3 a b rest ih =>
    have ha := a.toNat_lt
    have hb := b.toNat_lt
    have hw : (UInt16.ofNat (word [a, b])).toNat = word [a, b] := by
      rw [UInt16.toNat_ofNat', Nat.mod_eq_of_lt]
      simp only [word]
      omega
    have hsplit : word (a :: b :: rest) = word [a, b] + 65536 * word rest := by
      simp only [word]
      omega
    rw [words, List.foldl_cons, ih _ (UInt16.toNat_lt _), toNat_onesAdd, hw, norm_norm_add (dvd_refl _), hsplit,
      ← Nat.add_assoc, norm_add_base_mul rfl]

/-! ## The sum of `tcp_checksum` -/

theorem toNat_addCarry (sum s : UInt64) : (addCarry sum s).toNat = norm (2 ^ 64 - 1) (sum.toNat + s.toNat) := by
  rw [addCarry, apply_ite UInt64.toNat]
  simp only [UInt64.lt_iff_toNat_lt, UInt64.toNat_add, UInt64.toNat_one]
  exact carry_eq_norm rfl sum.toNat_lt s.toNat_lt

theorem toNat_carry32 (x y : UInt32) : (if x + y < y then x + y + 1 else x + y).toNat =
    norm (2 ^ 32 - 1) (x.toNat + y.toNat) := by
  rw [apply_ite UInt32.toNat]
  simp only [UInt32.lt_iff_toNat_lt, UInt32.toNat_add, UInt32.toNat_one]
  exact carry_eq_norm rfl x.toNat_lt y.toNat_lt

theorem toNat_carry16 (x y : UInt16) : (if x + y < y then x + y + 1 else x + y).toNat =
    norm 65535 (x.toNat + y.toNat) := by
  rw [apply_ite UInt16.toNat]
  simp only [UInt16.lt_iff_toNat_lt, UInt16.toNat_add, UInt16.toNat_one]
  exact carry_eq_norm rfl x.toNat_lt y.toNat_lt

/-- Folding brings the sum down to 16 bits: both halves of a number count the same. -/
theorem toNat_fold (sum : UInt64) : (fold sum).toNat = norm 65535 sum.toNat := by
  have hsum := sum.toNat_lt
  rw [fold, toNat_carry16]
  generalize ht₁ : (if sum.toUInt32 + (sum >>> 32).toUInt32 < (sum >>> 32).toUInt32 then
    sum.toUInt32 + (sum >>> 32).toUInt32 + 1
    else sum.toUInt32 + (sum >>> 32).toUInt32) = t₁
  have h₁ : t₁.toNat = norm (2 ^ 32 - 1) (sum.toNat % 2 ^ 32 + sum.toNat / 2 ^ 32) := by
    rw [← ht₁, toNat_carry32]
    simp only [UInt64.toNat_toUInt32, UInt64.toNat_shiftRight, UInt64.reduceToNat, Nat.reduceMod,
      Nat.shiftRight_eq_div_pow, Nat.reducePow]
    congr 2
    omega
  have h₂ : t₁.toUInt16.toNat + (t₁ >>> 16).toUInt16.toNat = t₁.toNat % 2 ^ 16 + t₁.toNat / 2 ^ 16 := by
    have ht := t₁.toNat_lt
    simp only [UInt32.toNat_toUInt16, UInt32.toNat_shiftRight, UInt32.reduceToNat, Nat.reduceMod,
      Nat.shiftRight_eq_div_pow, Nat.reducePow]
    omega
  have hdvd : 65535 ∣ 2 ^ 32 - 1 := ⟨65537, rfl⟩
  rw [h₂, norm_mod_add_div (b := 2 ^ 16) rfl, h₁, norm_mod_add_div (b := 2 ^ 32) rfl, norm_norm hdvd]

/-- A list, cut at a place. -/
theorem exists_cut {k : Nat} {l : List UInt8} (h : k ≤ l.length) :
    ∃ a b, l = a ++ b ∧ a.length = k ∧ b.length = l.length - k :=
  ⟨l.take k, l.drop k, (List.take_append_drop k l).symm, List.length_take_of_le h, List.length_drop⟩

/-- A word read from the front of a memory. -/
theorem toNat_load {bs : List UInt8} (h : bs.length ≤ 8) (rest : List UInt8) :
    (load bs.length (bs ++ rest)).toNat = word bs := by
  have hlt : word bs < 2 ^ 64 := (word_lt bs).trans_le (Nat.pow_le_pow_right (by decide) h)
  rw [load, List.take_left, UInt64.toNat_ofNat', Nat.mod_eq_of_lt hlt]

/-- The main loop over the first words of a memory. -/
theorem sumWords_append (n : Nat) (sum : UInt64) (main rest : List UInt8) (h : main.length = 8 * n) :
    (sumWords n sum (main ++ rest)).2 = rest ∧
      (sumWords n sum (main ++ rest)).1.toNat = norm (2 ^ 64 - 1) (sum.toNat + word main) := by
  induction n generalizing sum main with
  | zero =>
    obtain rfl : main = [] := List.eq_nil_of_length_eq_zero (by omega)
    have hsum := sum.toNat_lt
    exact ⟨rfl, by rw [sumWords, word, Nat.add_zero, norm_of_le (by omega)]⟩
  | succ n ih =>
    obtain ⟨a, b, rfl, ha, hb⟩ := exists_cut (show 8 ≤ main.length by omega)
    have hpow : 256 ^ 8 = 2 ^ 64 := rfl
    have hload : (load 8 (a ++ (b ++ rest))).toNat = word a := by
      rw [← ha]
      exact toNat_load (by omega) _
    have hdrop : (a ++ (b ++ rest)).drop 8 = b ++ rest := by rw [← ha, List.drop_left]
    obtain ⟨hrest, htotal⟩ := ih (addCarry sum (load 8 (a ++ (b ++ rest)))) b (by omega)
    rw [List.append_assoc, sumWords, hdrop]
    refine ⟨hrest, ?_⟩
    rw [htotal, toNat_addCarry, hload, norm_norm_add (dvd_refl _), word_append, ha, hpow, ← Nat.add_assoc,
      norm_add_base_mul (b := 2 ^ 64) rfl]

/-! ## The tail -/

theorem addCarry_zero (sum : UInt64) : addCarry sum 0 = sum := by
  rw [addCarry, UInt64.add_zero, if_neg UInt64.not_lt_zero]

/-- A part of the tail that is there, or is not. -/
theorem part_eq {n k : Nat} {bs : List UInt8} (hbs : bs.length = if n ≠ 0 then k else 0) (sum : UInt64)
    (rest : List UInt8) :
    (if n ≠ 0 then (addCarry sum (load k (bs ++ rest)), (bs ++ rest).drop k) else (sum, bs ++ rest)) =
      (addCarry sum (load bs.length (bs ++ rest)), rest) := by
  by_cases hn : n ≠ 0
  · rw [if_pos hn] at hbs
    rw [if_pos hn, ← hbs, List.drop_left]
  · rw [if_neg hn] at hbs
    obtain rfl := List.eq_nil_of_length_eq_zero hbs
    rw [if_neg hn]
    have hload : load ([] : List UInt8).length ([] ++ rest) = 0 := by simp [load, word]
    rw [hload, addCarry_zero, List.nil_append]

/-- The sum of `tcp_checksum`, where the data are words of eight bytes and a tail of four, two and one, as they are
there. The step for the last byte takes the one that is in memory behind the other parts. -/
theorem tcpChecksum_parts {n : Nat} {main p₄ p₂ p₁ : List UInt8} (b : UInt8) (behind : List UInt8)
    (hmain : main.length = 8 * n)
    (h₄ : p₄.length = 0 ∨ p₄.length = 4) (h₂ : p₂.length = 0 ∨ p₂.length = 2) (h₁ : p₁.length ≤ 1) :
    ∃ r, tcpChecksum (some (main ++ (p₄ ++ (p₂ ++ (p₁ ++ b :: behind)))))
      (8 * n + (p₄.length + p₂.length + p₁.length)) = ~~~r ∧
      r.toNat = norm 65535 (word main + word p₄ + word p₂ +
        if p₄.length + p₂.length + p₁.length = 0 then 0 else (p₁.headD b).toNat) := by
  generalize ht : p₄.length + p₂.length + p₁.length = t
  obtain ⟨hrest, hsum⟩ := sumWords_append n 0 main (p₄ ++ (p₂ ++ (p₁ ++ b :: behind))) hmain
  have hlt : t < 8 := by omega
  have hdiv : (8 * n + t) / 8 = n := by omega
  have hmod : (8 * n + t) % 8 = t := by omega
  have hbits : p₄.length = (if t &&& 4 ≠ 0 then 4 else 0) ∧ p₂.length = if t &&& 2 ≠ 0 then 2 else 0 := by
    rcases h₄ with h₄ | h₄ <;> rcases h₂ with h₂ | h₂ <;> rcases Nat.le_one_iff_eq_zero_or_eq_one.mp h₁ with h₁ | h₁ <;>
      (rw [h₄, h₂, h₁] at ht; rw [h₄, h₂, ← ht]; decide)
  rw [UInt64.toNat_zero, Nat.zero_add] at hsum
  simp only [tcpChecksum, hdiv, hmod]
  generalize sumWords n 0 (main ++ (p₄ ++ (p₂ ++ (p₁ ++ b :: behind)))) = r at hrest hsum
  obtain ⟨sum, mem⟩ := r
  obtain rfl : mem = _ := hrest
  rw [part_eq hbits.1]
  dsimp only
  rw [part_eq hbits.2]
  dsimp only
  have hword : (addCarry (addCarry sum (load p₄.length (p₄ ++ (p₂ ++ (p₁ ++ b :: behind)))))
      (load p₂.length (p₂ ++ (p₁ ++ b :: behind)))).toNat = norm (2 ^ 64 - 1) (word main + word p₄ + word p₂) := by
    rw [toNat_addCarry, toNat_addCarry, toNat_load (by omega), toNat_load (by omega), hsum, norm_norm_add (dvd_refl _),
      Nat.add_assoc, norm_norm_add (dvd_refl _), Nat.add_assoc]
  have hdvd : 65535 ∣ 2 ^ 64 - 1 := ⟨281479271743489, rfl⟩
  refine ⟨_, rfl, ?_⟩
  rw [toNat_fold]
  by_cases ht0 : t = 0
  · rw [if_neg (not_not.mpr ht0), if_pos ht0, hword, norm_norm hdvd, Nat.add_zero]
  · have hload : (load 1 (p₁ ++ b :: behind)).toNat = (p₁.headD b).toNat := by
      have hb := (p₁.headD b).toNat_lt
      cases p₁ <;> simp [load, word] at hb ⊢
    rw [if_pos ht0, if_neg ht0, toNat_addCarry, hword, hload, norm_norm hdvd, norm_norm_add hdvd]

/-- Bytes are words of eight and a tail of four, two and one. -/
theorem exists_parts (data : List UInt8) :
    ∃ n, ∃ main p₄ p₂ p₁ : List UInt8, data = main ++ (p₄ ++ (p₂ ++ p₁)) ∧ main.length = 8 * n ∧
      (p₄.length = 0 ∨ p₄.length = 4) ∧ (p₂.length = 0 ∨ p₂.length = 2) ∧ p₁.length ≤ 1 := by
  obtain ⟨main, tail, rfl, hmain, htail⟩ := exists_cut (show 8 * (data.length / 8) ≤ data.length by omega)
  obtain ⟨p₄, tail, rfl, h₄, htail₄⟩ := exists_cut (show tail.length / 4 * 4 ≤ tail.length by omega)
  obtain ⟨p₂, p₁, rfl, h₂, h₁⟩ := exists_cut (show tail.length / 2 * 2 ≤ tail.length by omega)
  simp only [List.length_append] at hmain htail h₄ htail₄
  exact ⟨_, main, p₄, p₂, p₁, rfl, hmain, by omega, by omega, by omega⟩

/-- Words of an even number of bytes count alike wherever they stand. -/
theorem norm_word_append {a : List UInt8} (h : a.length % 2 = 0) (b : List UInt8) (x : Nat) :
    norm 65535 (x + word (a ++ b)) = norm 65535 (x + word a + word b) := by
  obtain ⟨k, hk⟩ : ∃ k, a.length = 2 * k := ⟨a.length / 2, by omega⟩
  have hpow : 256 ^ a.length = (2 ^ 16) ^ k := by
    rw [hk, Nat.pow_mul]
    rfl
  rw [word_append, hpow, ← Nat.add_assoc, norm_add_pow_mul (b := 2 ^ 16) rfl]

/-- `tcp_checksum` is the Internet checksum exactly of the buffers that have no tail, or a tail with an odd byte, or
a zero behind them. -/
theorem checksum_eq_iff (data : List UInt8) (b : UInt8) (behind : List UInt8) :
    tcpChecksum (some (data ++ b :: behind)) data.length = internetChecksum data ↔
      data.length % 8 = 0 ∨ data.length % 2 = 1 ∨ b = 0 := by
  obtain ⟨n, main, p₄, p₂, p₁, rfl, hmain, h₄, h₂, h₁⟩ := exists_parts data
  obtain ⟨r, hrun, hr⟩ := tcpChecksum_parts b behind hmain h₄ h₂ h₁
  have hlen : (main ++ (p₄ ++ (p₂ ++ p₁))).length = 8 * n + (p₄.length + p₂.length + p₁.length) := by
    simp only [List.length_append]
    omega
  have hmem : main ++ (p₄ ++ (p₂ ++ p₁)) ++ b :: behind = main ++ (p₄ ++ (p₂ ++ (p₁ ++ b :: behind))) := by
    simp only [List.append_assoc]
  have hsum : ((words (main ++ (p₄ ++ (p₂ ++ p₁)))).foldl onesAdd 0).toNat =
      norm 65535 (word main + word p₄ + word p₂ + word p₁) := by
    rw [foldl_words, UInt16.toNat_zero, norm_word_append (by omega), norm_word_append (by omega),
      norm_word_append (by omega), Nat.zero_add]
  rw [hlen, hmem, hrun, internetChecksum, UInt16.not_inj, ← UInt16.toNat_inj, hr, hsum]
  rcases p₁.eq_nil_or_concat with rfl | ⟨l, c, rfl⟩
  · rw [List.length_nil, Nat.add_zero, word, Nat.add_zero, List.headD_nil]
    by_cases ht : p₄.length + p₂.length = 0
    · rw [if_pos ht, Nat.add_zero, ht]
      exact iff_of_true rfl (.inl (by omega))
    · have hb : b.toNat = 0 ↔ b = 0 := UInt8.toNat_inj (b := 0)
      have hlt := b.toNat_lt
      rw [if_neg ht, norm_add_eq_iff (by omega), hb]
      refine ⟨fun h => .inr (.inr h), fun h => ?_⟩
      rcases h with h | h | h
      · omega
      · omega
      · exact h
  · obtain rfl : l = [] := List.eq_nil_of_length_eq_zero (by simpa using h₁)
    have hword : word [c] = c.toNat := by simp [word]
    rw [List.concat_nil, List.length_singleton, if_neg (by omega), List.headD_cons, hword]
    exact iff_of_true rfl (.inr (.inl (by omega)))

/-- A zero word, with a one behind it. -/
theorem checksum_behind : tcpChecksum (some [0, 0, 1]) 2 ≠ internetChecksum [0, 0] := by decide

end Routing
end ZeroServ
