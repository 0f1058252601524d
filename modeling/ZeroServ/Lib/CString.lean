import Mathlib.Data.List.Basic
import Mathlib.Data.List.TakeWhile

/-!
# C strings in memory

Memory seen from an address is the list of bytes that starts there (`Mem`); a pointer into a buffer is a suffix of
the buffer's bytes. A C string is what precedes the first NUL. The functions are those of `string.h` under their
names, on such memory: the comparisons answer whether the C function would return zero, and a search returns the
memory from the address it found.
-/

namespace CString

/-- Memory from an address on. -/
abbrev Mem := List UInt8

/-- The bytes of a string literal, its NUL left out. -/
def lit (s : String) : List UInt8 := s.toList.map fun c => UInt8.ofNat c.toNat

/-- The C string at an address: the bytes before the first NUL. -/
def cstr (s : Mem) : List UInt8 := s.takeWhile (· != 0)

def strlen (s : Mem) : Nat := (cstr s).length

/-- `strcmp(a, b) == 0` -/
def strcmp (a b : Mem) : Bool := cstr a == cstr b

/-- `strncmp(a, b, n) == 0` -/
def strncmp (a b : Mem) (n : Nat) : Bool := (cstr a).take n == (cstr b).take n

/-- The first byte `c` of the C string (its NUL included, when `c` is NUL). -/
def strchr : Mem → UInt8 → Option Mem
  | [], _ => none
  | b :: s, c => if b = c then some (b :: s) else if b = 0 then none else strchr s c

/-- The first place of the C string where the bytes `needle` follow. -/
def strstr : Mem → List UInt8 → Option Mem
  | [], needle => if needle = [] then some [] else none
  | b :: s, needle =>
    if needle.isPrefixOf (b :: s) then some (b :: s) else if b = 0 then none else strstr s needle

/-- The bytes `strndup(s, n)` copies (the copy's NUL left out). -/
def strndup (s : Mem) (n : Nat) : List UInt8 := (cstr s).take n

/-! ## The string at an address -/

@[simp] theorem cstr_nil : cstr [] = [] := rfl

/-- No C string holds a NUL. -/
theorem nul_not_mem_cstr (s : Mem) : (0 : UInt8) ∉ cstr s := by
  intro h
  simpa using List.mem_takeWhile_imp h

/-- Bytes without a NUL are the C string they make. -/
theorem cstr_eq_self {s : Mem} (h : (0 : UInt8) ∉ s) : cstr s = s := by
  rw [cstr, List.takeWhile_eq_self_iff]
  intro b hb
  simp only [bne_iff_ne, ne_eq]
  exact fun hb0 => h (hb0 ▸ hb)

/-- The C string of bytes without a NUL, followed by more memory, runs on into it. -/
theorem cstr_append {s : Mem} (h : (0 : UInt8) ∉ s) (t : Mem) : cstr (s ++ t) = s ++ cstr t := by
  refine List.takeWhile_append_of_pos fun b hb => ?_
  simp only [bne_iff_ne, ne_eq]
  exact fun hb0 => h (hb0 ▸ hb)

/-- A NUL ends the C string: what follows in memory is not part of it. -/
theorem cstr_append_nul {s : Mem} (h : (0 : UInt8) ∉ s) (t : Mem) : cstr (s ++ 0 :: t) = s := by
  rw [cstr_append h]
  simp [cstr]

theorem cstr_append_of_mem {s : Mem} (h : (0 : UInt8) ∈ s) (t : Mem) : cstr (s ++ t) = cstr s := by
  obtain ⟨a, b, rfl, ha⟩ := List.eq_append_cons_of_mem h
  rw [List.append_assoc, List.cons_append, cstr_append_nul ha, cstr_append_nul ha]

/-- Comparing as many bytes as the first string has asks whether it is a prefix of the second. -/
theorem strncmp_strlen_iff (a b : Mem) : strncmp a b (strlen a) = true ↔ cstr a <+: cstr b := by
  simp only [strncmp, strlen, List.take_length, beq_iff_eq]
  exact List.prefix_iff_eq_take.symm

/-! ## Searching memory that goes on

`s ++ t` is memory whose first part `s` is known. A search that succeeds inside `s` does not depend on `t`, nor does
one that meets the end of the string there. -/

theorem strchr_append_of_some {s p : Mem} {c : UInt8} (h : strchr s c = some p) (t : Mem) :
    strchr (s ++ t) c = some (p ++ t) := by
  induction s with
  | nil => simp [strchr] at h
  | cons b s ih =>
    simp only [strchr, List.cons_append] at h ⊢
    split_ifs at h ⊢ with hb h0
    · cases h
      rfl
    · exact ih h

theorem strchr_append_of_nul {s : Mem} {c : UInt8} (h0 : (0 : UInt8) ∈ s) (h : strchr s c = none) (t : Mem) :
    strchr (s ++ t) c = none := by
  induction s with
  | nil => simp at h0
  | cons b s ih =>
    simp only [strchr, List.cons_append] at h ⊢
    split_ifs at h ⊢ with hb hb0
    · rfl
    · refine ih ?_ h
      rcases List.mem_cons.mp h0 with h0 | h0
      · exact absurd h0.symm hb0
      · exact h0

theorem strchr_append_of_none {s : Mem} {c : UInt8} (h0 : (0 : UInt8) ∉ s) (h : strchr s c = none) (t : Mem) :
    strchr (s ++ t) c = strchr t c := by
  induction s with
  | nil => rfl
  | cons b s ih =>
    simp only [List.mem_cons, not_or] at h0
    simp only [strchr, List.cons_append] at h ⊢
    split_ifs at h ⊢ with hb hb0
    · exact absurd hb0.symm h0.1
    · exact ih h0.2 h

/-- What `strchr` returns is a suffix of the memory searched, and opens with the byte searched for; neither that byte
nor a NUL precedes it. -/
theorem strchr_eq_some {s p : Mem} {c : UInt8} (h : strchr s c = some p) :
    ∃ a q, s = a ++ p ∧ p = c :: q ∧ c ∉ a ∧ (0 : UInt8) ∉ a := by
  induction s with
  | nil => simp [strchr] at h
  | cons b s ih =>
    simp only [strchr] at h
    split_ifs at h with hb h0
    · cases h
      exact ⟨[], s, rfl, by rw [hb], by simp, by simp⟩
    · obtain ⟨a, q, rfl, hp, ha, ha0⟩ := ih h
      refine ⟨b :: a, q, rfl, hp, ?_, ?_⟩
      · simp only [List.mem_cons, not_or]
        exact ⟨Ne.symm hb, ha⟩
      · simp only [List.mem_cons, not_or]
        exact ⟨Ne.symm h0, ha0⟩

/-- The first occurrence of a byte that neither it nor a NUL precedes. -/
theorem strchr_append_cons {a : Mem} {c : UInt8} (hc : c ∉ a) (h0 : (0 : UInt8) ∉ a) (t : Mem) :
    strchr (a ++ c :: t) c = some (c :: t) := by
  have hnone : strchr a c = none := by
    rw [Option.eq_none_iff_forall_ne_some]
    intro p hp
    obtain ⟨b, q, rfl, rfl, -⟩ := strchr_eq_some hp
    exact hc (by simp)
  rw [strchr_append_of_none h0 hnone]
  simp [strchr]

/-- A byte that the C string holds is found there. -/
theorem strchr_of_cstr {s : Mem} {a b : List UInt8} {c : UInt8} (h : cstr s = a ++ c :: b) (hc : c ∉ a) :
    ∃ t, s = a ++ c :: (b ++ t) ∧ strchr s c = some (c :: (b ++ t)) ∧ cstr (b ++ t) = b := by
  obtain ⟨t, hs⟩ : ∃ t, s = cstr s ++ t := ⟨_, List.takeWhile_append_dropWhile.symm⟩
  have h0 := nul_not_mem_cstr s
  rw [h] at hs h0
  rw [List.append_assoc, List.cons_append] at hs
  simp only [List.mem_append, List.mem_cons, not_or] at h0
  refine ⟨t, hs, by rw [hs, strchr_append_cons hc h0.1], ?_⟩
  rw [hs, cstr_append h0.1, List.append_cancel_left_eq, ← List.singleton_append,
    cstr_append (by simpa using h0.2.1)] at h
  exact List.append_cancel_left h

theorem strchr_eq_none_of_cstr {s : Mem} {c : UInt8} (h0 : c ≠ 0) (h : c ∉ cstr s) : strchr s c = none := by
  rw [Option.eq_none_iff_forall_ne_some]
  intro p hp
  obtain ⟨a, q, rfl, rfl, -, ha⟩ := strchr_eq_some hp
  rw [cstr_append ha, ← List.singleton_append, cstr_append (by simpa using Ne.symm h0)] at h
  exact h (by simp)

/-- A search for one byte. -/
theorem strstr_singleton (s : Mem) (c : UInt8) : strstr s [c] = strchr s c := by
  induction s with
  | nil => rfl
  | cons b s ih =>
    have hpre : [c].isPrefixOf (b :: s) = true ↔ b = c := by
      rw [List.isPrefixOf_iff_prefix, List.cons_prefix_cons]
      exact ⟨fun h => h.1.symm, fun h => ⟨h.symm, List.nil_prefix⟩⟩
    rw [strstr, strchr, ih]
    simp only [hpre]

theorem strstr_length_le {s p : Mem} {n : List UInt8} (h : strstr s n = some p) : n.length ≤ s.length := by
  induction s with
  | nil =>
    simp only [strstr] at h
    split_ifs at h with hn
    simp [hn]
  | cons b s ih =>
    simp only [strstr] at h
    split_ifs at h with hp h0
    · exact (List.isPrefixOf_iff_prefix.mp hp).length_le
    · exact (ih h).trans (Nat.le_succ _)

/-- Whether bytes are a prefix of memory is decided by the part of it that is as long as they are. -/
theorem isPrefixOf_append {s n : List UInt8} (h : n.length ≤ s.length) (t : Mem) :
    n.isPrefixOf (s ++ t) = n.isPrefixOf s := by
  rw [Bool.eq_iff_iff, List.isPrefixOf_iff_prefix, List.isPrefixOf_iff_prefix]
  exact ⟨fun hp => List.prefix_of_prefix_length_le hp (List.prefix_append s t) h,
    fun hp => hp.trans (List.prefix_append s t)⟩

theorem strstr_append_of_some {s p : Mem} {n : List UInt8} (h : strstr s n = some p) (hn : n ≠ []) (t : Mem) :
    strstr (s ++ t) n = some (p ++ t) := by
  induction s with
  | nil => simp [strstr, hn] at h
  | cons b s ih =>
    have hl := strstr_length_le h
    simp only [strstr, List.cons_append] at h ⊢
    rw [← List.cons_append, isPrefixOf_append hl]
    split_ifs at h ⊢ with hp h0
    · cases h
      rfl
    · exact ih h

theorem strstr_append_of_nul {s : Mem} {n : List UInt8} (h0 : (0 : UInt8) ∈ s) (hn0 : (0 : UInt8) ∉ n)
    (h : strstr s n = none) (t : Mem) : strstr (s ++ t) n = none := by
  induction s with
  | nil => simp at h0
  | cons b s ih =>
    simp only [strstr, List.cons_append] at h ⊢
    have hnp : ¬n.isPrefixOf (b :: (s ++ t)) = true := by
      intro hp
      rcases Nat.le_total n.length (b :: s).length with hle | hle
      · rw [← List.cons_append, isPrefixOf_append hle] at hp
        simp [hp] at h
      · -- the needle would run over the NUL
        have hsn : (b :: s) <+: n :=
          List.prefix_of_prefix_length_le (List.prefix_append (b :: s) t) (List.isPrefixOf_iff_prefix.mp hp) hle
        exact hn0 (hsn.subset h0)
    rw [if_neg hnp]
    split_ifs at h ⊢ with hb0
    · rfl
    · refine ih ?_ h
      rcases List.mem_cons.mp h0 with h0 | h0
      · exact absurd h0.symm hb0
      · exact h0

/-- A needle whose first byte does not occur in it again, put after memory that holds neither it nor a NUL, is found
where it was put. -/
theorem strstr_append_self {s : Mem} {z : UInt8} {n : List UInt8} (hz : z ∉ n) (h0 : (0 : UInt8) ∉ s)
    (h : strstr s (z :: n) = none) (t : Mem) : strstr (s ++ (z :: n ++ t)) (z :: n) = some (z :: n ++ t) := by
  induction s with
  | nil => simp [strstr]
  | cons b s ih =>
    simp only [List.mem_cons, not_or] at h0
    simp only [strstr, List.cons_append] at h ⊢
    have hnp : ¬(z :: n).isPrefixOf (b :: (s ++ z :: (n ++ t))) = true := by
      intro hp
      rcases Nat.le_total (z :: n).length (b :: s).length with hle | hle
      · rw [← List.cons_append, isPrefixOf_append hle] at hp
        simp [hp] at h
      · -- the needle would reach its own first byte
        rcases hle.lt_or_eq with hlt | heq
        · have hsn : b :: (s ++ [z]) <+: z :: n := by
            refine List.prefix_of_prefix_length_le ?_ (List.isPrefixOf_iff_prefix.mp hp) ?_
            · exact ⟨n ++ t, by simp⟩
            · simpa [Nat.succ_le_iff] using hlt
          have hzn := (List.cons_prefix_cons.mp hsn).2.subset (show z ∈ s ++ [z] by simp)
          exact hz hzn
        · rw [← List.cons_append, isPrefixOf_append heq.ge] at hp
          simp [hp] at h
    rw [if_neg hnp]
    split_ifs at h ⊢ with hb0
    · exact absurd hb0.symm h0.1
    · exact ih h0.2 h

/-- What `strstr` returns is a suffix of the memory searched, no NUL precedes it, and it opens with the needle. -/
theorem strstr_eq_some {s p : Mem} {n : List UInt8} (h : strstr s n = some p) :
    (∃ a, s = a ++ p ∧ (0 : UInt8) ∉ a) ∧ n <+: p := by
  induction s with
  | nil =>
    simp only [strstr] at h
    split_ifs at h with hn
    cases h
    exact ⟨⟨[], rfl, by simp⟩, hn ▸ List.prefix_refl _⟩
  | cons b s ih =>
    simp only [strstr] at h
    split_ifs at h with hp h0
    · cases h
      exact ⟨⟨[], rfl, by simp⟩, List.isPrefixOf_iff_prefix.mp hp⟩
    · obtain ⟨⟨a, rfl, ha⟩, hpre⟩ := ih h
      refine ⟨⟨b :: a, rfl, ?_⟩, hpre⟩
      simp only [List.mem_cons, not_or]
      exact ⟨Ne.symm h0, ha⟩

theorem strstr_eq_none {s : Mem} {n : List UInt8} (h : ¬n <:+: s) : strstr s n = none := by
  rw [Option.eq_none_iff_forall_ne_some]
  intro p hp
  obtain ⟨⟨a, rfl, -⟩, hn⟩ := strstr_eq_some hp
  exact h (List.infix_append_of_infix_right hn.isInfix)

/-- What `strstr` returns is the first place of the needle: there is none of it in the memory before. -/
theorem strstr_first {s p : Mem} {n : List UInt8} (hn : n ≠ []) (h : strstr s n = some p) :
    ∃ a, s = a ++ p ∧ (0 : UInt8) ∉ a ∧ n <+: p ∧ ¬n <:+: a := by
  induction s with
  | nil => simp [strstr, hn] at h
  | cons b s ih =>
    simp only [strstr] at h
    split_ifs at h with hp h0
    · cases h
      exact ⟨[], rfl, List.not_mem_nil, List.isPrefixOf_iff_prefix.mp hp, fun hin => hn (List.infix_nil.mp hin)⟩
    · obtain ⟨a, rfl, ha, hpre, hfirst⟩ := ih h
      refine ⟨b :: a, rfl, ?_, hpre, ?_⟩
      · simp only [List.mem_cons, not_or]
        exact ⟨Ne.symm h0, ha⟩
      · intro hin
        rcases List.infix_cons_iff.mp hin with hin | hin
        · exact hp (List.isPrefixOf_iff_prefix.mpr (hin.trans (List.prefix_append (b :: a) p)))
        · exact hfirst hin

/-- A needle is found where the C string holds it. -/
theorem strstr_isSome_iff {s : Mem} {n : List UInt8} (h0 : (0 : UInt8) ∉ n) :
    (strstr s n).isSome = true ↔ n <:+: cstr s := by
  constructor
  · intro h
    obtain ⟨p, hp⟩ := Option.isSome_iff_exists.mp h
    obtain ⟨⟨a, rfl, ha⟩, t, rfl⟩ := strstr_eq_some hp
    rw [cstr_append ha, cstr_append h0]
    exact ⟨a, cstr t, by rw [List.append_assoc]⟩
  · intro h
    induction s with
    | nil =>
      obtain rfl := List.infix_nil.mp h
      rfl
    | cons b s ih =>
      rw [strstr]
      split_ifs with hp hb
      · rfl
      · rw [hb] at h hp
        obtain rfl := List.infix_nil.mp h
        exact absurd rfl hp
      · rw [cstr, List.takeWhile_cons_of_pos (by simpa using hb)] at h
        rcases List.infix_cons_iff.mp h with h | h
        · have hpre : n <+: b :: s := h.trans (List.cons_prefix_cons.mpr ⟨rfl, List.takeWhile_prefix _⟩)
          exact absurd (List.isPrefixOf_iff_prefix.mpr hpre) hp
        · exact ih h
/-! ## Where a needle can lie -/

/-- The parts around the first `c` are determined. -/
theorem split_unique {a b a' b' : List UInt8} {c : UInt8} (ha : c ∉ a) (ha' : c ∉ a')
    (h : a ++ c :: b = a' ++ c :: b') :
    a = a' ∧ b = b' := by
  have hbefore : ∀ {x y : List UInt8}, c ∉ x → (x ++ c :: y).takeWhile (· != c) = x := by
    intro x y hx
    rw [List.takeWhile_append_of_pos fun d hd => bne_iff_ne.mpr (ne_of_mem_of_not_mem hd hx),
      List.takeWhile_cons_of_neg (by simp), List.append_nil]
  have hab := hbefore ha (y := b)
  rw [h, hbefore ha'] at hab
  subst hab
  exact ⟨rfl, (List.cons.inj (List.append_cancel_left h)).2⟩

/-- A needle does not reach over a byte that it does not hold. -/
theorem infix_append_cons_iff {n a b : List UInt8} {d : UInt8} (hd : d ∉ n) :
    n <:+: a ++ d :: b ↔ n <:+: a ∨ n <:+: b := by
  have hnil : ∀ {x}, x <:+: n → x <+: d :: b → x = [] := by
    intro x hx hp
    rcases List.prefix_cons_iff.mp hp with rfl | ⟨x, rfl, -⟩
    · rfl
    · exact absurd (hx.subset (List.mem_cons_self ..)) hd
  constructor
  · intro h
    rcases List.infix_append_iff.mp h with h | h | ⟨x, y, rfl, hx, hy⟩
    · exact .inl h
    · rcases List.infix_cons_iff.mp h with h | h
      · rw [hnil (List.infix_refl n) h]
        exact .inl (List.nil_infix)
      · exact .inr h
    · rw [hnil (List.suffix_append x y).isInfix hy, List.append_nil]
      exact .inl hx.isInfix
  · rintro (h | h)
    · exact List.infix_append_of_infix_left h
    · exact List.infix_append_of_infix_right (List.infix_cons h)

/-- A needle that ends in its only `d` ends at the first `d` or lies behind it. -/
theorem infix_append_last {n a b : List UInt8} {d : UInt8} (hn : d ∉ n) (ha : d ∉ a) (h : n ++ [d] <:+: a ++ d :: b) :
    n <:+ a ∨ n ++ [d] <:+: b := by
  obtain ⟨u, w, h⟩ := h
  rw [← List.append_assoc, List.append_assoc _ [d], List.singleton_append] at h
  rcases List.append_eq_append_iff.mp h with ⟨x, rfl, hx⟩ | ⟨x, hu, hx⟩
  · cases x with
    | nil => exact .inl (by simp)
    | cons e x =>
      obtain rfl := (List.cons.inj hx).1
      exact absurd (by simp) ha
  · cases x with
    | nil =>
      rw [List.append_nil] at hu
      exact .inl (hu ▸ List.suffix_append u n)
    | cons e x =>
      obtain ⟨rfl, rfl⟩ := List.cons.inj hx
      -- the needle does not reach back over the first `d`
      have hsuf : n <:+ a ++ d :: x := hu ▸ List.suffix_append u n
      rcases List.suffix_or_suffix_of_suffix hsuf (List.suffix_append a (d :: x)) with h | h
      · rcases List.suffix_cons_iff.mp h with rfl | h
        · exact absurd (List.mem_cons_self ..) hn
        · obtain ⟨y, rfl⟩ := h
          exact .inr ⟨y, w, by simp⟩
      · exact absurd (h.subset (List.mem_cons_self ..)) hn

/-! ## Writing memory -/

/-- The memory after bytes were copied to an offset. -/
def memcpy (mem : Mem) (ofs : Nat) (bytes : List UInt8) : Mem := mem.take ofs ++ bytes ++ mem.drop (ofs + bytes.length)

/-- Bytes copied behind what is known of the memory. -/
theorem memcpy_append (a t : Mem) (bytes : List UInt8) :
    memcpy (a ++ t) a.length bytes = a ++ bytes ++ t.drop bytes.length := by
  rw [memcpy, List.take_left, List.drop_length_add_append]

/-- The bytes that `strncpy(d, s, n)` stores at `d`: the string cut to `n` bytes, or filled up with NULs to as many. -/
def strncpy (s : Mem) (n : Nat) : List UInt8 := (cstr s).take n ++ List.replicate (n - strlen s) 0

theorem strncpy_of_le {s : Mem} {n : Nat} (h : n ≤ strlen s) : strncpy s n = (cstr s).take n := by
  rw [strncpy, Nat.sub_eq_zero_of_le h, List.replicate_zero, List.append_nil]

theorem memcpy_length {mem : Mem} {ofs : Nat} {bytes : List UInt8} (h : ofs + bytes.length ≤ mem.length) :
    (memcpy mem ofs bytes).length = mem.length := by
  simp only [memcpy, List.length_append, List.length_take, List.length_drop]
  omega

/-! ## How far a function reads

The bytes that a function of `string.h` reads at its first pointer, counted up to the last of them. -/

/-- `strlen(s)`, and whatever copies or prints the string. -/
def stringReads (s : Mem) : Nat := strlen s + 1

/-- `strncmp(s, w, n)`, where `w` has `n` bytes at least: up to the first difference, the NUL or the end. -/
def strncmpReads : Mem → List UInt8 → Nat
  | b :: s, c :: w => if b = c ∧ b ≠ 0 then strncmpReads s w + 1 else 1
  | _, _ => 0

/-- `strcmp(s, w)` -/
def strcmpReads (s : Mem) (w : List UInt8) : Nat := strncmpReads s (cstr w ++ [0])

/-- `strchr(s, c)` -/
def strchrReads : Mem → UInt8 → Nat
  | [], _ => 0
  | b :: s, c => if b = c ∨ b = 0 then 1 else strchrReads s c + 1

section reads

variable {s : List UInt8} (h0 : (0 : UInt8) ∉ s) (t : Mem)

include h0

theorem stringReads_append_nul : stringReads (s ++ 0 :: t) = s.length + 1 := by
  rw [stringReads, strlen, cstr_append_nul h0]

/-- A comparison reads no further than the NUL. -/
theorem strncmpReads_le (w : List UInt8) : strncmpReads (s ++ 0 :: t) w ≤ s.length + 1 := by
  induction s generalizing w with
  | nil => cases w <;> simp [strncmpReads]
  | cons b s ih =>
    cases w with
    | nil => exact Nat.zero_le _
    | cons c w =>
      have hrest := ih (fun h => h0 (List.mem_cons_of_mem _ h)) w
      simp only [List.cons_append, strncmpReads, List.length_cons]
      split <;> omega

/-- A search reads no further than the NUL. -/
theorem strchrReads_le (c : UInt8) : strchrReads (s ++ 0 :: t) c ≤ s.length + 1 := by
  induction s with
  | nil => simp [strchrReads]
  | cons b s ih =>
    have hrest := ih fun h => h0 (List.mem_cons_of_mem _ h)
    simp only [List.cons_append, strchrReads, List.length_cons]
    split <;> omega

end reads

theorem strcmpReads_pos (b : UInt8) (s : Mem) (w : List UInt8) : 0 < strcmpReads (b :: s) w := by
  obtain ⟨c, w', hw⟩ := List.exists_cons_of_ne_nil (List.append_ne_nil_of_right_ne_nil (cstr w) (List.cons_ne_nil 0 []))
  rw [strcmpReads, hw, strncmpReads]
  split <;> omega

theorem strchrReads_pos (b : UInt8) (s : Mem) (c : UInt8) : 0 < strchrReads (b :: s) c := by
  rw [strchrReads]
  split <;> omega

end CString
