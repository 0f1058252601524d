import Mathlib.Data.List.GetD
import ZeroServ.Lib.CInt
import ZeroServ.Lib.CString

/-!
# Percent-decoding

`uri_decode` of `common/strutil.h`: what it makes of a C string (`uriDecode`), and its scan over the memory that the
string is in, with the offsets it reads (`uriDecodeMem`). `uri_decode_spec`: the scan turns every percent-encoding
back, rejects exactly what has an incomplete escape, and stays inside the string, where its answer fits a C `int`.
-/

namespace ZeroServ

open CString CInt

/-- `ishex` -/
def isHex (x : UInt8) : Bool := (48 ≤ x && x ≤ 57) || (97 ≤ x && x ≤ 102) || (65 ≤ x && x ≤ 70)

/-- The value `sscanf("%2x")` reads from one hex digit. -/
def hexDigit (x : UInt8) : UInt8 := if x ≤ 57 then x - 48 else if x ≤ 70 then x - 55 else x - 87

/-- `uri_decode` on the C string `s`: the bytes written to `dec`, the NUL of a complete decoding included, and
whether it completed. A `%` that two hex digits do not follow stops it. -/
def uriDecode : List UInt8 → List UInt8 × Bool
  | [] => ([0], true)
  | c :: s =>
    if c = 37 then
      match s with
      | h :: l :: s =>
        if isHex h && isHex l then
          let (out, ok) := uriDecode s
          ((hexDigit h * 16 + hexDigit l) :: out, ok)
        else ([], false)
      | _ => ([], false)
    else
      let (out, ok) := uriDecode s
      ((if c = 43 then 32 else c) :: out, ok)

example : uriDecode (lit "/pub/a%2Fb+c") = (lit "/pub/a/b c" ++ [0], true) := by decide +kernel

/-! ## The scan over memory -/

/-- What a run of `uri_decode` writes to `dec`, what it returns, and the offsets it reads. -/
structure Decoding where
  out : List UInt8
  ret : Int
  reads : List Nat

/-- One turn of the loop that writes a byte. -/
def Decoding.put (reads : List Nat) (c : UInt8) (d : Decoding) : Decoding :=
  { d with out := c :: d.out, reads := reads ++ d.reads }

/-- The loop of `uri_decode`, `s` and `end` as offsets and `o` the bytes written so far, which are returned as an
`int`. The `%2x` of `sscanf` reads the two digits again. Each turn goes on by one byte at least, so as many turns as
there are bytes up to `end` suffice. -/
def uriDecodeLoop (mem : Mem) (stop : Nat) : Nat → Nat → Nat → Decoding
  | 0, _, o => ⟨[], int32 o, []⟩
  | k + 1, s, o =>
    if s ≤ stop then
      let c := mem.getD s 0
      if c = 43 then (uriDecodeLoop mem stop k (s + 1) (o + 1)).put [s] 32
      else if c = 37 then
        if !isHex (mem.getD (s + 1) 0) then ⟨[], -1, [s, s + 1]⟩
        else if !isHex (mem.getD (s + 2) 0) then ⟨[], -1, [s, s + 1, s + 2]⟩
        else
          (uriDecodeLoop mem stop k (s + 3) (o + 1)).put [s, s + 1, s + 2, s + 1, s + 2]
            (hexDigit (mem.getD (s + 1) 0) * 16 + hexDigit (mem.getD (s + 2) 0))
      else (uriDecodeLoop mem stop k (s + 1) (o + 1)).put [s] c
    else ⟨[], int32 o, []⟩

/-- `uri_decode`; its `strlen` reads up to the NUL. -/
def uriDecodeMem (mem : Mem) : Decoding :=
  let d := uriDecodeLoop mem (strlen mem) (strlen mem + 1) 0 0
  { d with reads := List.range (strlen mem + 1) ++ d.reads }

theorem uriDecode_cons {c : UInt8} (hc : c ≠ 37) (s : List UInt8) :
    uriDecode (c :: s) = ((if c = 43 then 32 else c) :: (uriDecode s).1, (uriDecode s).2) := by
  rw [uriDecode.eq_def]
  simp [hc]

theorem uriDecode_escape {h l : UInt8} (hh : isHex h = true) (hl : isHex l = true) (s : List UInt8) :
    uriDecode (37 :: h :: l :: s) = ((hexDigit h * 16 + hexDigit l) :: (uriDecode s).1, (uriDecode s).2) := by
  simp [uriDecode, hh, hl]

/-- Two hex digits are next. -/
def TwoHex (s : List UInt8) : Prop := ∃ h l t, s = h :: l :: t ∧ isHex h = true ∧ isHex l = true

theorem uriDecode_bad {s : List UInt8} (h : ¬TwoHex s) : uriDecode (37 :: s) = ([], false) := by
  match s with
  | [] => rfl
  | [_] => rfl
  | x :: y :: t =>
    have hxy : ¬(isHex x = true ∧ isHex y = true) := fun ⟨hx, hy⟩ => h ⟨x, y, t, rfl, hx, hy⟩
    simp [uriDecode, hxy]

/-- A decoding goes byte by byte and escape by escape, up to the end or to a `%` that two hex digits do not follow. -/
theorem uriDecode_induction {P : List UInt8 → Prop} (nil : P []) (byte : ∀ c s, c ≠ 37 → P s → P (c :: s))
    (escape : ∀ h l s, isHex h = true → isHex l = true → P s → P (37 :: h :: l :: s))
    (bad : ∀ s, ¬TwoHex s → P (37 :: s)) :
    ∀ s, P s
  | [] => nil
  | c :: s => by
    by_cases hc : c = 37
    · subst hc
      match s with
      | [] => exact bad _ nofun
      | [x] => exact bad _ nofun
      | x :: y :: t =>
        by_cases hx : isHex x = true
        · by_cases hy : isHex y = true
          · exact escape x y t hx hy (uriDecode_induction nil byte escape bad t)
          · exact bad _ fun ⟨_, _, _, heq, _, hl⟩ => by cases heq; exact hy hl
        · exact bad _ fun ⟨_, _, _, heq, hh, _⟩ => by cases heq; exact hx hh
    · exact byte c s hc (uriDecode_induction nil byte escape bad s)

section turns

variable {mem : Mem} {stop s : Nat} (k o : Nat) (hs : s ≤ stop)

include hs

theorem uriDecodeLoop_byte {c : UInt8} (hc : mem.getD s 0 = c) (hne : c ≠ 37) :
    uriDecodeLoop mem stop (k + 1) s o = (uriDecodeLoop mem stop k (s + 1) (o + 1)).put [s]
      (if c = 43 then 32 else c) := by
  simp only [uriDecodeLoop, hs, if_true, hc, hne, if_false]
  split <;> rfl

theorem uriDecodeLoop_escape {h l : UInt8} (hc : mem.getD s 0 = 37) (hh : mem.getD (s + 1) 0 = h)
    (hl : mem.getD (s + 2) 0 = l) (hh' : isHex h = true) (hl' : isHex l = true) :
    uriDecodeLoop mem stop (k + 1) s o =
      (uriDecodeLoop mem stop k (s + 3) (o + 1)).put [s, s + 1, s + 2, s + 1, s + 2]
      (hexDigit h * 16 + hexDigit l) := by
  rw [uriDecodeLoop, if_pos hs, hc, hh, hl, hh', hl']
  rfl

/-- A `%` whose first digit is missing, or whose second one is. -/
theorem uriDecodeLoop_bad (hc : mem.getD s 0 = 37)
    (hbad : isHex (mem.getD (s + 1) 0) = false ∨ (s + 2 ≤ stop ∧ isHex (mem.getD (s + 2) 0) = false))
    (hnext : s + 1 ≤ stop) :
    ∃ reads, uriDecodeLoop mem stop (k + 1) s o = ⟨[], -1, reads⟩ ∧ ∀ i ∈ reads, i ≤ stop := by
  rw [uriDecodeLoop, if_pos hs, hc]
  cases hh : isHex (mem.getD (s + 1) 0) with
  | false => exact ⟨_, rfl, by simp [hs, hnext]⟩
  | true =>
    obtain ⟨htwo, hl⟩ := hbad.resolve_left (by rw [hh]; exact nofun)
    rw [hl]
    exact ⟨_, rfl, by simp [hs, hnext, htwo]⟩

end turns

/-- What a decoding is to return. -/
def returned (o : Nat) (r : List UInt8 × Bool) : Int := if r.2 then int32 (o + r.1.length : Nat) else -1

theorem uriDecodeLoop_end {mem : Mem} {stop s : Nat} (k o : Nat) (h : stop < s) :
    uriDecodeLoop mem stop k s o = ⟨[], int32 o, []⟩ := by
  cases k with
  | zero => rfl
  | succ k => rw [uriDecodeLoop, if_neg (Nat.not_le.mpr h)]

theorem returned_cons (o : Nat) (c : UInt8) (r : List UInt8 × Bool) :
    returned o (c :: r.1, r.2) = returned (o + 1) r := by
  simp only [returned, List.length_cons, Nat.add_assoc, Nat.add_comm 1]

/-- A read behind a prefix. -/
theorem getD_behind (pre t : Mem) (i : Nat) : (pre ++ t).getD (pre.length + i) 0 = t.getD i 0 := by
  rw [List.getD_append_right _ _ _ _ (Nat.le_add_right ..), Nat.add_sub_cancel_left]

/-- What is no escape has a byte that is no hex digit, its NUL or an earlier one. -/
theorem digit_missing {s : List UInt8} (hbad : ¬TwoHex s) (rest : Mem) :
    isHex ((s ++ 0 :: rest).getD 0 0) = false ∨ (1 ≤ s.length ∧ isHex ((s ++ 0 :: rest).getD 1 0) = false) := by
  match s with
  | [] => exact .inl rfl
  | [x] => exact .inr ⟨Nat.le_refl 1, rfl⟩
  | x :: y :: t =>
    cases hx : isHex x with
    | false => exact .inl hx
    | true => exact .inr ⟨by simp, Bool.eq_false_iff.mpr fun hy => hbad ⟨x, y, t, rfl, hx, hy⟩⟩

/-- From the offset of `s` on, the loop decodes the C string `s` and reads no further than its NUL. -/
theorem uriDecodeLoop_eq (s : List UInt8) :
    ∀ (pre rest : Mem) (k o : Nat), s.length < k →
      ∃ reads, uriDecodeLoop (pre ++ (s ++ 0 :: rest)) (pre.length + s.length) k pre.length o =
          ⟨(uriDecode s).1, returned o (uriDecode s), reads⟩ ∧ ∀ i ∈ reads, i ≤ pre.length + s.length := by
  induction s using uriDecode_induction with
  | nil =>
    intro pre rest k o hk
    obtain ⟨k, rfl⟩ := Nat.exists_eq_succ_of_ne_zero (Nat.ne_of_gt (Nat.zero_lt_of_lt hk))
    have hread : (pre ++ ([] ++ 0 :: rest)).getD pre.length 0 = 0 := getD_behind pre _ 0
    have hend := @uriDecodeLoop_end (pre ++ ([] ++ 0 :: rest)) pre.length (pre.length + 1) k (o + 1)
      (Nat.lt_succ_self _)
    rw [List.length_nil, Nat.add_zero, uriDecodeLoop_byte k o (Nat.le_refl _) hread (by decide), hend]
    refine ⟨[pre.length], ?_, by simp⟩
    simp [Decoding.put, uriDecode, returned]
  | byte c s hc ih =>
    intro pre rest k o hk
    obtain ⟨k, rfl⟩ := Nat.exists_eq_succ_of_ne_zero (Nat.ne_of_gt (Nat.zero_lt_of_lt hk))
    have hread : (pre ++ (c :: s ++ 0 :: rest)).getD pre.length 0 = c := getD_behind pre _ 0
    obtain ⟨reads, hloop, hreads⟩ := ih (pre ++ [c]) rest k (o + 1) (Nat.lt_of_succ_lt_succ hk)
    have hmem : pre ++ [c] ++ (s ++ 0 :: rest) = pre ++ (c :: s ++ 0 :: rest) := by simp
    have hstop : (pre ++ [c]).length + s.length = pre.length + (c :: s).length := by simp; omega
    rw [hmem, hstop, List.length_append, List.length_singleton] at hloop
    rw [hstop] at hreads
    rw [uriDecodeLoop_byte k o (Nat.le_add_right ..) hread hc, hloop, uriDecode_cons hc]
    refine ⟨[pre.length] ++ reads, ?_, ?_⟩
    · rw [returned_cons]
      rfl
    · intro i hi
      rcases List.mem_append.mp hi with hi | hi
      · exact List.mem_singleton.mp hi ▸ Nat.le_add_right ..
      · exact hreads i hi
  | escape h l s hh hl ih =>
    intro pre rest k o hk
    obtain ⟨k, rfl⟩ := Nat.exists_eq_succ_of_ne_zero (Nat.ne_of_gt (Nat.zero_lt_of_lt hk))
    simp only [List.length_cons] at hk
    obtain ⟨reads, hloop, hreads⟩ := ih (pre ++ [37, h, l]) rest k (o + 1) (by omega)
    have hmem : pre ++ [37, h, l] ++ (s ++ 0 :: rest) = pre ++ (37 :: h :: l :: s ++ 0 :: rest) := by simp
    have hstop : (pre ++ [37, h, l]).length + s.length = pre.length + (37 :: h :: l :: s).length := by simp; omega
    have hread := getD_behind pre (37 :: h :: l :: s ++ 0 :: rest)
    rw [hmem, hstop, List.length_append] at hloop
    rw [hstop] at hreads
    have hle : pre.length ≤ pre.length + (37 :: h :: l :: s).length := Nat.le_add_right ..
    rw [uriDecodeLoop_escape k o hle (hread 0) (hread 1) (hread 2) hh hl, uriDecode_escape hh hl]
    refine ⟨[pre.length, pre.length + 1, pre.length + 2, pre.length + 1, pre.length + 2] ++ reads, ?_, ?_⟩
    · rw [show pre.length + 3 = pre.length + [37, h, l].length from rfl, hloop, returned_cons]
      rfl
    · intro i hi
      rcases List.mem_append.mp hi with hi | hi
      · simp only [List.mem_cons, List.not_mem_nil, or_false, List.length_cons] at hi ⊢
        omega
      · exact hreads i hi
  | bad s hbad =>
    intro pre rest k o hk
    obtain ⟨k, rfl⟩ := Nat.exists_eq_succ_of_ne_zero (Nat.ne_of_gt (Nat.zero_lt_of_lt hk))
    have hread := getD_behind pre (37 :: s ++ 0 :: rest)
    have hdigits := digit_missing hbad rest
    obtain ⟨reads, hloop, hreads⟩ := uriDecodeLoop_bad k o (Nat.le_add_right pre.length (37 :: s).length) (hread 0)
      (by rw [hread 1, hread 2]; exact hdigits.imp id fun ⟨hlen, hy⟩ =>
      ⟨Nat.add_le_add_left (Nat.succ_le_succ hlen) _, hy⟩)
      (Nat.add_le_add_left (Nat.succ_le_succ (Nat.zero_le _)) _)
    rw [uriDecode_bad hbad]
    exact ⟨reads, hloop, hreads⟩

/-- `uri_decode` on the memory of a C string: what the string decodes to, and no read behind its NUL. -/
theorem uriDecodeMem_eq {s : List UInt8} (h0 : (0 : UInt8) ∉ s) (rest : Mem) :
    (uriDecodeMem (s ++ 0 :: rest)).out = (uriDecode s).1 ∧
      (uriDecodeMem (s ++ 0 :: rest)).ret = returned 0 (uriDecode s) ∧
      ∀ i ∈ (uriDecodeMem (s ++ 0 :: rest)).reads, i ≤ s.length := by
  obtain ⟨reads, hloop, hreads⟩ := uriDecodeLoop_eq s [] rest (s.length + 1) 0 (Nat.lt_succ_self _)
  rw [List.nil_append, List.length_nil, Nat.zero_add] at hloop
  rw [List.length_nil, Nat.zero_add] at hreads
  have hlen : strlen (s ++ 0 :: rest) = s.length := by rw [strlen, cstr_append_nul h0]
  rw [uriDecodeMem, hlen, hloop]
  refine ⟨rfl, rfl, ?_⟩
  intro i hi
  rcases List.mem_append.mp hi with hi | hi
  · exact Nat.le_of_lt_succ (List.mem_range.mp hi)
  · exact hreads i hi

/-! ## Percent-encoding -/

/-- The hex digits of a number below 16. -/
def IsHexOf (n : Nat) (x : UInt8) : Prop := x ∈ [(lit "0123456789abcdef").getD n 0, (lit "0123456789ABCDEF").getD n 0]

/-- `e` is an encoding of `w`: every byte as it is or escaped, `%` and `+` escaped, and a space as `+` also. -/
inductive Encodes : List UInt8 → List UInt8 → Prop
  | nil : Encodes [] []
  | literal {c : UInt8} {w e : List UInt8} (hp : c ≠ 37) (ha : c ≠ 43) (h : Encodes w e) : Encodes (c :: w) (c :: e)
  | escape {c x y : UInt8} {w e : List UInt8} (hx : IsHexOf (c.toNat / 16) x) (hy : IsHexOf (c.toNat % 16) y)
      (h : Encodes w e) :
    Encodes (c :: w) (37 :: x :: y :: e)
  | plus {w e : List UInt8} (h : Encodes w e) : Encodes (32 :: w) (43 :: e)

/-- Bytes that the scan passes: escapes and bytes that are no `%`. -/
inductive Scanned : List UInt8 → Prop
  | nil : Scanned []
  | byte {c : UInt8} {s : List UInt8} (hc : c ≠ 37) (h : Scanned s) : Scanned (c :: s)
  | escape {x y : UInt8} {s : List UInt8} (hx : isHex x = true) (hy : isHex y = true) (h : Scanned s) : Scanned
    (37 :: x :: y :: s)

/-- The scan meets a `%` that two hex digits do not follow. -/
def MeetsBad (s : List UInt8) : Prop := ∃ pre rest, s = pre ++ 37 :: rest ∧ Scanned pre ∧ ¬TwoHex rest

theorem hexDigit_of_isHexOf {n : Nat} (hn : n < 16) {x : UInt8} (h : IsHexOf n x) :
    isHex x = true ∧ hexDigit x = UInt8.ofNat n := by
  have hall : ∀ n < 16, ∀ x ∈ [(lit "0123456789abcdef").getD n 0, (lit "0123456789ABCDEF").getD n 0],
      isHex x = true ∧ hexDigit x = UInt8.ofNat n := by decide +kernel
  exact hall n hn x h

/-- An encoding is turned back. -/
theorem uriDecode_encodes {w e : List UInt8} (h : Encodes w e) : uriDecode e = (w ++ [0], true) := by
  induction h with
  | nil => rfl
  | @literal c w e hp ha h ih => rw [uriDecode_cons hp, ih, if_neg ha, List.cons_append]
  | @escape c x y w e hx hy h ih =>
    have hc := c.toNat_lt
    obtain ⟨hx, hxv⟩ := hexDigit_of_isHexOf (by omega) hx
    obtain ⟨hy, hyv⟩ := hexDigit_of_isHexOf (by omega) hy
    have hbyte : UInt8.ofNat (c.toNat / 16) * 16 + UInt8.ofNat (c.toNat % 16) = c := by
      apply UInt8.toNat_inj.mp
      simp only [UInt8.toNat_add, UInt8.toNat_mul, UInt8.toNat_ofNat']
      simp
      omega
    rw [uriDecode_escape hx hy, ih, hxv, hyv, hbyte, List.cons_append]
  | @plus w e h ih =>
    rw [uriDecode_cons (by decide), ih]
    rfl

/-- An encoding holds a NUL no more than what it encodes. -/
theorem Encodes.nul_not_mem {w e : List UInt8} (h : Encodes w e) (h0 : (0 : UInt8) ∉ w) : (0 : UInt8) ∉ e := by
  induction h with
  | nil => exact h0
  | literal hp ha h ih =>
    simp only [List.mem_cons, not_or] at h0 ⊢
    exact ⟨h0.1, ih h0.2⟩
  | @escape c x y w e hx hy h ih =>
    have hc := c.toNat_lt
    have hx := (hexDigit_of_isHexOf (by omega) hx).1
    have hy := (hexDigit_of_isHexOf (by omega) hy).1
    simp only [List.mem_cons, not_or] at h0 ⊢
    refine ⟨by decide, ?_, ?_, ih h0.2⟩
    · rintro rfl
      nomatch hx
    · rintro rfl
      nomatch hy
  | plus h ih =>
    simp only [List.mem_cons, not_or] at h0 ⊢
    exact ⟨by decide, ih h0.2⟩

/-- A decoding is no longer than the string with its NUL. -/
theorem uriDecode_length_le (s : List UInt8) : (uriDecode s).1.length ≤ s.length + 1 := by
  induction s using uriDecode_induction with
  | nil => exact Nat.le_refl 1
  | byte c s hc ih =>
    rw [uriDecode_cons hc]
    exact Nat.succ_le_succ ih
  | escape h l s hh hl ih =>
    rw [uriDecode_escape hh hl, List.length_cons]
    simp only [List.length_cons]
    omega
  | bad s hbad =>
    rw [uriDecode_bad hbad]
    exact Nat.zero_le _

theorem meetsBad_cons {c : UInt8} (hc : c ≠ 37) (s : List UInt8) : MeetsBad (c :: s) ↔ MeetsBad s := by
  constructor
  · rintro ⟨pre, rest, heq, hpre, hbad⟩
    cases hpre with
    | nil => exact absurd (List.cons.inj heq).1 hc
    | byte hb hpre => exact ⟨_, rest, (List.cons.inj heq).2, hpre, hbad⟩
    | escape => exact absurd (List.cons.inj heq).1 hc
  · rintro ⟨pre, rest, rfl, hpre, hbad⟩
    exact ⟨c :: pre, rest, rfl, .byte hc hpre, hbad⟩

theorem meetsBad_escape {h l : UInt8} (hh : isHex h = true) (hl : isHex l = true) (s : List UInt8) :
    MeetsBad (37 :: h :: l :: s) ↔ MeetsBad s := by
  constructor
  · rintro ⟨pre, rest, heq, hpre, hbad⟩
    cases hpre with
    | nil => exact absurd ⟨h, l, s, ((List.cons.inj heq).2).symm, hh, hl⟩ hbad
    | byte hb hpre => exact absurd (List.cons.inj heq).1.symm hb
    | escape hx hy hpre =>
      simp only [List.cons_append, List.cons.injEq] at heq
      exact ⟨_, rest, heq.2.2.2, hpre, hbad⟩
  · rintro ⟨pre, rest, rfl, hpre, hbad⟩
    exact ⟨37 :: h :: l :: pre, rest, rfl, .escape hh hl hpre, hbad⟩

/-- A decoding stops early exactly at a `%` that two hex digits do not follow. -/
theorem uriDecode_fails_iff (s : List UInt8) : (uriDecode s).2 = false ↔ MeetsBad s := by
  induction s using uriDecode_induction with
  | nil => exact ⟨nofun, fun ⟨pre, rest, heq, _⟩ => by simp at heq⟩
  | byte c s hc ih =>
    rw [uriDecode_cons hc, meetsBad_cons hc]
    exact ih
  | escape h l s hh hl ih =>
    rw [uriDecode_escape hh hl, meetsBad_escape hh hl]
    exact ih
  | bad s hbad =>
    rw [uriDecode_bad hbad]
    exact ⟨fun _ => ⟨[], s, rfl, .nil, hbad⟩, fun _ => rfl⟩

/-- `uri_decode` turns every percent-encoding back, returns -1 exactly at an incomplete escape, reads nothing behind
the NUL of its string and writes one byte more than the string has at most. What it returns is an `int`: the length
of what it wrote below 2^31, and not -1 below 2^32 - 1. -/
theorem uri_decode_spec :
    (∀ (w e : List UInt8) (rest : Mem), (0 : UInt8) ∉ w → Encodes w e →
      (uriDecodeMem (e ++ 0 :: rest)).out = w ++ [0] ∧
        (w.length + 1 < 2 ^ 31 → (uriDecodeMem (e ++ 0 :: rest)).ret = w.length + 1)) ∧
    ∀ (s : List UInt8) (rest : Mem), (0 : UInt8) ∉ s →
      (s.length + 1 < 2 ^ 32 - 1 → ((uriDecodeMem (s ++ 0 :: rest)).ret = -1 ↔ MeetsBad s)) ∧
        (∀ i ∈ (uriDecodeMem (s ++ 0 :: rest)).reads, i ≤ s.length) ∧
        (uriDecodeMem (s ++ 0 :: rest)).out.length ≤ s.length + 1 := by
  constructor
  · intro w e rest h0 he
    obtain ⟨hout, hret, -⟩ := uriDecodeMem_eq (he.nul_not_mem h0) rest
    rw [hout, hret, uriDecode_encodes he]
    refine ⟨rfl, fun hlen => ?_⟩
    rw [returned, if_pos rfl, List.length_append, List.length_singleton, Nat.zero_add]
    exact int32_of_range (by omega) (by omega)
  · intro s rest h0
    obtain ⟨hout, hret, hreads⟩ := uriDecodeMem_eq h0 rest
    have hle := uriDecode_length_le s
    refine ⟨fun hlen => ?_, hreads, hout ▸ hle⟩
    rw [hret, ← uriDecode_fails_iff, returned]
    cases (uriDecode s).2 with
    | true =>
      have hne : int32 (uriDecode s).1.length ≠ -1 := int32_natCast_ne (by omega)
      simpa using hne
    | false => simp

/-- A letter, a space and an escaped `%`, and an escape cut short. -/
theorem uri_decode_spec_short :
    (uriDecodeMem (lit "a+%25" ++ 0 :: [])).out = lit "a %" ++ [0] ∧ (uriDecodeMem (lit "a+%25" ++ 0 :: [])).ret = 4 ∧
      (uriDecodeMem (lit "a%2" ++ 0 :: [])).ret = -1 := by
  have hencodes : Encodes [97, 32, 37] [97, 43, 37, 50, 53] :=
    .literal (by decide) (by decide) (.plus (.escape (List.mem_cons_self ..) (List.mem_cons_self ..) .nil))
  have hbad : MeetsBad (lit "a%2") := ⟨[97], [50], rfl, .byte (by decide) .nil, nofun⟩
  obtain ⟨hout, hret⟩ := uri_decode_spec.1 [97, 32, 37] [97, 43, 37, 50, 53] [] (by decide) hencodes
  exact ⟨hout, hret (by decide), ((uri_decode_spec.2 (lit "a%2") [] (by decide)).1 (by decide)).mpr hbad⟩

/-- A string of as many letters. -/
def letters (n : Nat) : List UInt8 := List.replicate n 97

theorem nul_not_mem_letters (n : Nat) : (0 : UInt8) ∉ letters n :=
  fun h => absurd (List.eq_of_mem_replicate h) (by decide)

theorem encodes_letters (n : Nat) : Encodes (letters n) (letters n) := by
  induction n with
  | zero => exact .nil
  | succ n ih => exact .literal (by decide) (by decide) ih

/-- A string of letters is copied. -/
theorem uriDecodeMem_letters (n : Nat) : (uriDecodeMem (letters n ++ 0 :: [])).ret = int32 (n + 1 : Nat) := by
  obtain ⟨-, hret, -⟩ := uriDecodeMem_eq (nul_not_mem_letters n) []
  rw [hret, uriDecode_encodes (encodes_letters n), returned, if_pos rfl, Nat.zero_add, List.length_append, letters,
    List.length_replicate, List.length_singleton]

/-- Two strings of so many letters that their number, with the NUL, is negative as an `int`, or -1. -/
theorem uri_decode_wraps :
    ((0 : UInt8) ∉ letters (2 ^ 31 - 1) ∧ Encodes (letters (2 ^ 31 - 1)) (letters (2 ^ 31 - 1)) ∧
      (uriDecodeMem (letters (2 ^ 31 - 1) ++ 0 :: [])).ret = -2 ^ 31) ∧
    (0 : UInt8) ∉ letters (2 ^ 32 - 2) ∧ ¬MeetsBad (letters (2 ^ 32 - 2)) ∧
      (uriDecodeMem (letters (2 ^ 32 - 2) ++ 0 :: [])).ret = -1 := by
  refine ⟨⟨nul_not_mem_letters _, encodes_letters _, ?_⟩, nul_not_mem_letters _, ?_, ?_⟩
  · rw [uriDecodeMem_letters]
    exact int32_wrap (by decide) (by decide)
  · rw [← uriDecode_fails_iff, uriDecode_encodes (encodes_letters _)]
    nofun
  · rw [uriDecodeMem_letters]
    exact int32_wrap (by decide) (by decide)

end ZeroServ
