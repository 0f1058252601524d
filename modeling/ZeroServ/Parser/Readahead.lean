import ZeroServ.Parser.Course

/-!
# Reading on

The cases of `http_parser_execute` that read on come to where the parser comes a byte at a time (`execute_bytes`):
the loops of header names and values, the rest of a line that is passed over with `memchr`, and bodies. Only the
bound on the size of headers sees the difference.
-/

namespace ZeroServ.Parser

open CString

/-! ## Header names -/

theorem headerFieldLoop_bytes (bytes : List UInt8) {q : Core} (hs : q.state = .headerField)
    (h : q.headerState.ofName = true) :
    ∃ q' n, headerFieldLoop q bytes = some (q', n) ∧ n ≤ bytes.length ∧ q'.state = .headerField ∧
      q'.headerState.ofName = true ∧
      (∀ ch ∈ bytes[n]?, token ch = 0) ∧ ∀ m p, feedAll q m p bytes = feedAll q' m (p + n) (bytes.drop n) := by
  induction bytes generalizing q with
  | nil => exact ⟨q, 0, rfl, Nat.le_refl 0, hs, h, nofun, fun _ _ => rfl⟩
  | cons ch rest ih =>
    by_cases ht : token ch = 0
    · exact ⟨q, 0, by rw [headerFieldLoop, if_pos ht], Nat.zero_le _, hs, h, fun c hc => Option.some.inj hc ▸ ht,
        fun _ _ => rfl⟩
    · obtain ⟨q₁, heq, hs₁, h₁⟩ := headerFieldLetter_next ch hs h
      obtain ⟨q', n, hloop, hle, hs', h', hend, hfeed⟩ := ih hs₁ h₁
      have hturn : byteTurn q ch = .next q₁ [] := by
        unfold byteTurn
        simp only [hs]
        rw [if_pos ht, heq]
      refine ⟨q', n + 1, ?_, Nat.succ_le_succ hle, hs', h', hend, fun m p => ?_⟩
      · rw [headerFieldLoop, if_neg ht, heq]
        simp only [hloop, Option.map_some]
      · rw [feedAll_next hturn, List.drop_succ_cons, ← Nat.add_assoc, Nat.add_right_comm]
        exact hfeed m (p + 1)

/-! ## Header values -/

/-- A header state that a value can be in. -/
def Core.InValue (q : Core) : Prop :=
  q.state = .headerValue ∧ q.headerState ≠ .connection ∧ q.headerState ≠ .transferEncoding

theorem Core.InValue.sound {q : Core} (h : q.InValue) : q.Sound := by
  unfold Core.Sound
  rw [h.1]
  exact h.2

theorem byteTurn_value {q : Core} {ch : UInt8} (hs : q.state = .headerValue) (hcr : ch ≠ cr) (hlf : ch ≠ lf) :
    byteTurn q ch = q.headerValueLetter ch := by
  unfold byteTurn
  simp only [hs]
  rw [if_neg hcr, if_neg hlf]

theorem headerValueLetter_general {q : Core} (hs : q.state = .headerValue) (hg : q.headerState = .general)
    (ch : UInt8) :
    q.headerValueLetter ch = .next q [] := by
  unfold Core.headerValueLetter
  simp only [hg]
  rw [← hs, ← hg]

/-- Letters that the parser does not look at. -/
theorem feedAll_general {q : Core} (hs : q.state = .headerValue) (hg : q.headerState = .general) {xs : List UInt8}
    (hxs : ∀ ch ∈ xs, ch ≠ cr ∧ ch ≠ lf) (ys : List UInt8) (m : Marks) (p : Nat) :
    feedAll q m p (xs ++ ys) = feedAll q m (p + xs.length) ys := by
  induction xs generalizing p with
  | nil => rfl
  | cons ch xs ih =>
    obtain ⟨⟨hcr, hlf⟩, hxs⟩ := List.forall_mem_cons.mp hxs
    have hturn : byteTurn q ch = .next q [] := by rw [byteTurn_value hs hcr hlf, headerValueLetter_general hs hg]
    rw [List.cons_append, feedAll_next hturn, List.length_cons, ← Nat.add_assoc, Nat.add_right_comm]
    exact ih hxs (p + 1)

theorem memchr_some {s : List UInt8} {c : UInt8} {limit n : Nat} (h : memchr s c limit = some n) :
    s[n]? = some c ∧ ∀ ch ∈ s.take n, ch ≠ c := by
  obtain ⟨hn, hc, hlt⟩ := List.findIdx?_eq_some_iff_getElem.mp h
  rw [List.length_take] at hn
  have hns : n < s.length := by omega
  rw [List.getElem_take, decide_eq_true_eq] at hc
  refine ⟨by rw [List.getElem?_eq_getElem hns, hc], fun ch hch => ?_⟩
  obtain ⟨j, hj, rfl⟩ := List.getElem_of_mem hch
  rw [List.length_take] at hj
  have hne := hlt j (by omega)
  rw [List.getElem_take, decide_eq_true_eq] at hne
  rw [List.getElem_take]
  exact hne

theorem memchr_none {s : List UInt8} {c : UInt8} {limit : Nat} (h : memchr s c limit = none) :
    ∀ ch ∈ s.take limit, ch ≠ c := by
  intro ch hch
  exact of_decide_eq_false (List.findIdx?_eq_none_iff.mp h ch hch)

/-- How the rest of a line is passed over: to its end, or past the bytes where there is none in the first
`HTTP_MAX_HEADER_SIZE`. -/
theorem skipLine_spec (s : List UInt8) :
    (skipLine s = s.length ∧ (s.length ≤ httpMaxHeaderSize → ∀ ch ∈ s, ch ≠ cr ∧ ch ≠ lf)) ∨
    ((s[skipLine s]? = some cr ∨ s[skipLine s]? = some lf) ∧ ∀ ch ∈ s.take (skipLine s), ch ≠ cr ∧ ch ≠ lf) := by
  have hmono : ∀ {i j : Nat} {ch : UInt8}, i ≤ j → ch ∈ s.take i → ch ∈ s.take j := fun hij hch =>
    (List.take_prefix_take_left hij).subset hch
  have hlimit : ∀ {c : UInt8} {n : Nat}, memchr s c (min s.length httpMaxHeaderSize) = some n →
      n ≤ min s.length httpMaxHeaderSize := by
    intro c n h
    obtain ⟨hn, -⟩ := List.findIdx?_eq_some_iff_getElem.mp h
    rw [List.length_take] at hn
    omega
  cases hcr : memchr s cr (min s.length httpMaxHeaderSize) with
  | some pCr =>
    obtain ⟨hat, hbefore⟩ := memchr_some hcr
    cases hlf : memchr s lf (min s.length httpMaxHeaderSize) with
    | some pLf =>
      obtain ⟨hat', hbefore'⟩ := memchr_some hlf
      simp only [skipLine, hcr, hlf]
      by_cases hle : pLf ≤ pCr
      · rw [if_pos hle]
        exact Or.inr ⟨Or.inr hat', fun ch hch => ⟨hbefore ch (hmono hle hch), hbefore' ch hch⟩⟩
      · rw [if_neg hle]
        exact Or.inr ⟨Or.inl hat, fun ch hch => ⟨hbefore ch hch, hbefore' ch (hmono (Nat.le_of_not_le hle) hch)⟩⟩
    | none =>
      simp only [skipLine, hcr, hlf]
      exact Or.inr ⟨Or.inl hat, fun ch hch => ⟨hbefore ch hch, memchr_none hlf ch (hmono (hlimit hcr) hch)⟩⟩
  | none =>
    cases hlf : memchr s lf (min s.length httpMaxHeaderSize) with
    | some pLf =>
      obtain ⟨hat', hbefore'⟩ := memchr_some hlf
      simp only [skipLine, hcr, hlf]
      exact Or.inr ⟨Or.inr hat', fun ch hch => ⟨memchr_none hcr ch (hmono (hlimit hlf) hch), hbefore' ch hch⟩⟩
    | none =>
      simp only [skipLine, hcr, hlf]
      refine Or.inl ⟨trivial, fun hle ch hch => ?_⟩
      have hmem : ch ∈ s.take (min s.length httpMaxHeaderSize) := by rwa [Nat.min_eq_left hle, List.take_length]
      exact ⟨memchr_none hcr ch hmem, memchr_none hlf ch hmem⟩

/-- Where the loop over a value ends is where the parser comes a byte at a time, unless it has passed over too much. -/
def ValueEnd.Follows (q : Core) (bytes : List UInt8) : ValueEnd → Prop
  | .done q' n => n = bytes.length ∧ q'.InValue ∧
      (n ≤ httpMaxHeaderSize → ∀ m p, feedAll q m p bytes = feedAll q' m (p + n) (bytes.drop n))
  | .cr q' n => bytes[n]? = some Parser.cr ∧ q'.InValue ∧
    ∀ m p, feedAll q m p bytes = feedAll q' m (p + n) (bytes.drop n)
  | .lf q' n => bytes[n]? = some Parser.lf ∧ q'.InValue ∧
    ∀ m p, feedAll q m p bytes = feedAll q' m (p + n) (bytes.drop n)
  | .error q' n e => n < bytes.length ∧ e = .invalidContentLength ∧ ∀ m p, feedAll q m p bytes = .stop (p + n) q' m e
  | .abort => False

theorem ValueEnd.Follows.succ {q q₁ : Core} {ch : UInt8} {rest : List UInt8} {v : ValueEnd}
    (ht : byteTurn q ch = .next q₁ []) (h : v.Follows q₁ rest) : v.succ.Follows q (ch :: rest) := by
  have hfeed : ∀ m p, feedAll q m p (ch :: rest) = feedAll q₁ m (p + 1) rest := fun m p => feedAll_next ht
  have hplace : ∀ p n : Nat, p + (n + 1) = p + 1 + n := fun p n => by omega
  cases v with
  | done q' n =>
    obtain ⟨hn, hv, hf⟩ := h
    refine ⟨congrArg Nat.succ hn, hv, fun hle m p => ?_⟩
    rw [hfeed, List.drop_succ_cons, hplace p n]
    exact hf (Nat.le_of_succ_le hle) m (p + 1)
  | cr q' n | lf q' n =>
    obtain ⟨hc, hv, hf⟩ := h
    refine ⟨hc, hv, fun m p => ?_⟩
    rw [hfeed, List.drop_succ_cons, hplace p n]
    exact hf m (p + 1)
  | error q' n e =>
    obtain ⟨hn, he, hf⟩ := h
    refine ⟨Nat.succ_lt_succ hn, he, fun m p => ?_⟩
    rw [hfeed, hplace p n]
    exact hf m (p + 1)
  | abort => exact h

theorem headerValueLoop_follows (bytes : List UInt8) {q : Core} (h : q.InValue) :
    (headerValueLoop q bytes).Follows q bytes := by
  induction bytes generalizing q with
  | nil => exact ⟨rfl, h, fun _ _ _ => rfl⟩
  | cons ch rest ih =>
    unfold headerValueLoop
    split
    · rename_i hcr
      exact ⟨by rw [hcr]; rfl, h, fun _ _ => rfl⟩
    split
    · rename_i hlf
      exact ⟨by rw [hlf]; rfl, h, fun _ _ => rfl⟩
    rename_i hcr hlf
    have hturn := byteTurn_value h.1 hcr hlf
    split
    · rename_i hg
      have hpass : ∀ n, (∀ c ∈ (ch :: rest).take n, c ≠ cr ∧ c ≠ lf) → n ≤ (ch :: rest).length →
          ∀ m p, feedAll q m p (ch :: rest) = feedAll q m (p + n) ((ch :: rest).drop n) := by
        intro n hn hle m p
        have hf := feedAll_general h.1 hg hn ((ch :: rest).drop n) m p
        rwa [List.take_append_drop, List.length_take, Nat.min_eq_left hle] at hf
      rcases skipLine_spec (ch :: rest) with ⟨hlen, hno⟩ | ⟨hat, hno⟩
      · simp only [hlen, List.getElem?_length]
        refine ⟨rfl, h, fun hle => hpass _ ?_ (Nat.le_refl _)⟩
        rw [List.take_length]
        exact hno hle
      · have hle : skipLine (ch :: rest) ≤ (ch :: rest).length := by
          rcases hat with hat | hat <;> exact (List.getElem?_eq_some_iff.mp hat).1.le
        simp only
        rcases hat with hat | hat
        · rw [hat]
          exact ⟨hat, h, hpass _ hno hle⟩
        · rw [hat]
          exact ⟨hat, h, hpass _ hno hle⟩
    · rcases headerValueLetter_next ch h.1 h.2 with ⟨q', heq, hv⟩ | heq
      · rw [heq] at hturn ⊢
        exact (ih hv).succ hturn
      · rw [heq] at hturn ⊢
        exact ⟨Nat.succ_pos _, rfl, fun m p => feedAll_error hturn⟩

/-! ## Bodies -/

/-- The mark of a body is set once. -/
theorem act_mark_of_set {m : Marks} {d : Datum} (h : m.mark d ≠ none) (p : Nat) : m.act p (.mark d) = m := if_neg h

theorem act_mark_set (m : Marks) (d : Datum) (p : Nat) : (m.act p (.mark d)).mark d ≠ none := by
  simp only [Marks.act]
  split_ifs with h
  · simp
  · exact h

/-- The bytes of a body but for the last one. -/
theorem feedAll_body {k : Nat} {bytes : List UInt8} {q : Core} {m : Marks}
    (hturn : ∀ n, n ≠ 0 → n ≠ ullongMax → n ≠ 1 → ∀ ch,
      byteTurn { q with contentLength := n } ch = .next { q with contentLength := n - 1 } [.mark .body])
    (hk : k ≤ bytes.length) (hlt : k < q.contentLength.toNat) (hmax : q.contentLength ≠ ullongMax)
    (hm : m.mark .body ≠ none) (p : Nat) :
    feedAll q m p bytes = feedAll { q with contentLength := q.contentLength - .ofNat k } m (p + k) (bytes.drop k) := by
  induction k generalizing bytes q p with
  | zero => rw [show UInt64.ofNat 0 = 0 from rfl, UInt64.sub_zero, Nat.add_zero, List.drop_zero]
  | succ k ih =>
    cases bytes with
    | nil => nomatch hk
    | cons ch rest =>
      have h0 : q.contentLength ≠ 0 := by
        intro h
        rw [h] at hlt
        nomatch hlt
      have h1 : q.contentLength ≠ 1 := by
        intro h
        rw [h] at hlt
        exact absurd (Nat.lt_of_succ_lt_succ hlt) (Nat.not_lt_zero k)
      have hsub : (q.contentLength - 1).toNat = q.contentLength.toNat - 1 :=
        UInt64.toNat_sub_of_le _ _ (UInt64.le_iff_toNat_le.mpr (by show 1 ≤ _; omega))
      have hlen : q.contentLength - 1 - .ofNat k = q.contentLength - .ofNat (k + 1) := by
        rw [UInt64.ofNat_add, show UInt64.ofNat 1 = 1 from rfl]
        grind
      have hlt' : k < (q.contentLength - 1).toNat := by omega
      have hnext : ∀ p, feedAll { q with contentLength := q.contentLength - 1 } m p rest = _ := fun p =>
        ih (q := { q with contentLength := q.contentLength - 1 }) (p := p) hturn (Nat.le_of_succ_le_succ hk) hlt'
          (pred_ne h0 h1).2
      rw [feedAll_next (hturn _ h0 hmax h1 ch)]
      simp only [Marks.acts, List.foldl_cons, List.foldl_nil, act_mark_of_set hm]
      rw [hnext, List.drop_succ_cons, hlen]
      congr 1
      omega

/-- The bytes of a body but for the last one, where the mark is set by the first one. -/
theorem feedAll_body_last {k : Nat} (bytes : List UInt8) {q : Core} (m : Marks)
    (hturn : ∀ n, n ≠ 0 → n ≠ ullongMax → n ≠ 1 → ∀ ch,
      byteTurn { q with contentLength := n } ch = .next { q with contentLength := n - 1 } [.mark .body])
    (hk : k < bytes.length) (hlt : k < q.contentLength.toNat) (hmax : q.contentLength ≠ ullongMax) (p : Nat) :
    ∃ m' : Marks, m'.act (p + k) (.mark .body) = m.act p (.mark .body) ∧
      feedAll q m p bytes = feedAll { q with contentLength := q.contentLength - .ofNat k } m' (p + k)
      (bytes.drop k) := by
  cases k with
  | zero => exact ⟨m, rfl, by rw [show UInt64.ofNat 0 = 0 from rfl, UInt64.sub_zero, Nat.add_zero, List.drop_zero]⟩
  | succ k =>
    obtain ⟨ch, rest, rfl⟩ := List.exists_cons_of_length_pos (Nat.zero_lt_of_lt hk)
    have hset := act_mark_set m .body p
    refine ⟨m.act p (.mark .body), act_mark_of_set hset _, ?_⟩
    have hne : ∀ n : UInt64, n.toNat ≤ 1 → q.contentLength ≠ n := by
      rintro n hn rfl
      omega
    have hfirst := hturn _ (hne 0 (Nat.zero_le 1)) hmax (hne 1 (Nat.le_refl 1)) ch
    rw [← feedAll_body hturn (Nat.le_of_lt hk) hlt hmax hset p, feedAll_next hfirst, feedAll_next hfirst]
    simp only [Marks.acts, List.foldl_cons, List.foldl_nil, act_mark_of_set hset]

/-! ## The bound on headers -/

theorem nread_acts {acts : List Act} {n : UInt32} (hc : .check ∈ acts → n = 1 ∧ acts = [.check]) :
    ∃ n', acts.foldlM Act.nread n = some n' ∧ (n' = n ∨ n' = 0) ∧ (.clear ∈ acts → n' = 0) := by
  by_cases h : .check ∈ acts
  · obtain ⟨rfl, rfl⟩ := hc h
    exact ⟨1, rfl, Or.inl rfl, by simp⟩
  clear hc
  induction acts generalizing n with
  | nil => exact ⟨n, rfl, Or.inl rfl, nofun⟩
  | cons a acts ih =>
    rw [List.mem_cons, not_or] at h
    have hstep : ∀ n₁, a.nread n = some n₁ → (n₁ = n ∨ n₁ = 0) → (a = .clear → n₁ = 0) →
        ∃ n', (a :: acts).foldlM Act.nread n = some n' ∧ (n' = n ∨ n' = 0) ∧ (.clear ∈ a :: acts → n' = 0) := by
      intro n₁ h₁ hor hclear
      obtain ⟨n', hf, hor', hclear'⟩ := ih (n := n₁) h.2
      refine ⟨n', by rw [List.foldlM_cons, h₁]; exact hf, ?_, fun hm => ?_⟩
      · rcases hor' with rfl | rfl
        · exact hor
        · exact Or.inr rfl
      · rcases List.mem_cons.mp hm with hm | hm
        · rcases hor' with rfl | rfl
          · exact hclear hm.symm
          · rfl
        · exact hclear' hm
    cases a with
    | clear => exact hstep 0 rfl (Or.inr rfl) fun _ => rfl
    | check => exact absurd rfl h.1
    | mark | data | dataWith | notify => exact hstep n rfl (Or.inl rfl) nofun

theorem count_nread {nread : UInt32} {n : Nat} (hl : nread.toNat ≤ httpMaxHeaderSize) (hn : n ≤ 2 ^ 31) (q : Core)
    (m : Marks) :
    ((Locals.mk q nread m).count n).nread.toNat = nread.toNat + n := by
  have hmax : httpMaxHeaderSize = 81920 := rfl
  show (nread + UInt32.ofNat n).toNat = _
  rw [UInt32.toNat_add, UInt32.toNat_ofNat']
  omega

theorem nread_of_overflows {l : Locals} (h : l.overflows = true) : httpMaxHeaderSize < l.nread.toNat := by
  rwa [Locals.overflows, decide_eq_true_eq] at h

theorem nread_of_not_overflows {l : Locals} (h : ¬l.overflows = true) : l.nread.toNat ≤ httpMaxHeaderSize := by
  rw [Locals.overflows, decide_eq_true_eq] at h
  exact Nat.le_of_not_lt h

/-! ## The switch -/

/-- What is promised at a place of a call. -/
structure Locals.Ready (l : Locals) : Prop where
  sound : l.core.Sound
  nread : l.nread.toNat ≤ httpMaxHeaderSize

/-- A case at a place comes to where the bytes lead, unless the headers are too long. It counts no more than it
reads. -/
def Case.Matches (data : List UInt8) (place count : Nat) (course : Course) : Case → Prop
  | .next p l => place ≤ p ∧ p < data.length ∧ l.Ready ∧ l.nread.toNat + place ≤ count + (p + 1) ∧
      (l.core.state = .chunkSizeStart → l.nread = 0) ∧ course = feedAll l.core l.marks (p + 1) (data.drop (p + 1))
  | .stop n l e => n ≤ data.length ∧ (e = .headerOverflow ∧ httpMaxHeaderSize + place < count + data.length ∨
      course = .stop n l.core l.marks e ∧ l.nread.toNat ≤ httpMaxHeaderSize ∧
      l.nread.toNat + place ≤ count + data.length)
  | .again .. | .abort => False

section Switch

variable {data : List UInt8} {p : Nat} {l : Locals}

theorem Case.Matches.of_le {p' n n' : Nat} {course : Course} {c : Case} (h : c.Matches data p' n' course) (hp : p ≤ p')
    (hn : n' + p ≤ n + p') : c.Matches data p n course := by
  cases c with
  | next =>
    obtain ⟨hle, hlt, hl, hcount, hzero, hcourse⟩ := h
    exact ⟨hp.trans hle, hlt, hl, by omega, hzero, hcourse⟩
  | stop =>
    obtain ⟨hle, ⟨he, hcount⟩ | ⟨hcourse, hmax, hcount⟩⟩ := h
    · exact ⟨hle, Or.inl ⟨he, by omega⟩⟩
    · exact ⟨hle, Or.inr ⟨hcourse, hmax, by omega⟩⟩
  | again | abort => exact h

theorem getElem?_eq_getD (hp : p < data.length) : data[p]? = some (data.getD p 0) := by
  rw [List.getD_eq_getElem?_getD, List.getElem?_eq_getElem hp, Option.getD_some]

theorem drop_eq_cons (hp : p < data.length) : data.drop p = data.getD p 0 :: data.drop (p + 1) := by
  have hget := getElem?_eq_getD hp
  rw [List.getElem?_eq_getElem hp] at hget
  rw [List.drop_eq_getElem_cons hp, Option.some.inj hget]

theorem switch_of_not_readsOn (hr : l.core.state.readsOn = false) :
    switch data p l = (byteTurn l.core (data.getD p 0)).at p l := by
  unfold switch byteTurn
  cases hs : l.core.state <;> first | rfl | (rw [hs] at hr; nomatch hr)

/-- A turn that is not a second look. -/
theorem turn_matches {q : Core} {acts : List Act} (hl : l.Ready) (hp : p < data.length)
    (ht : byteTurn l.core (data.getD p 0) = .next q acts) (hone : .check ∈ acts → l.nread = 1) :
    ((Turn.next q acts).at p l).Matches data p l.nread.toNat (feedAll l.core l.marks p (data.drop p)) := by
  have hf := byteTurn_fits (data.getD p 0) hl.sound
  rw [ht] at hf
  obtain ⟨n', hn, hor, hclear⟩ := nread_acts (fun h => ⟨hone h, (hf.check h).2⟩)
  have hat : (Turn.next q acts).at p l = .next p ⟨q, n', l.marks.acts p acts⟩ := by
    simp only [Turn.at, Locals.acts, hn, Option.map_some]
  rw [hat, drop_eq_cons hp, feedAll_next ht]
  have hle : n'.toNat ≤ l.nread.toNat := by
    rcases hor with rfl | rfl
    · exact Nat.le_refl _
    · exact Nat.zero_le _
  exact ⟨Nat.le_refl p, hp, ⟨hf.sound, hle.trans hl.nread⟩,
    by show n'.toNat + p ≤ _; omega, fun h => hclear (hf.clear h), rfl⟩

theorem headerFieldCase_matches (hlen : data.length ≤ 2 ^ 31) (hl : l.Ready) (hp : p < data.length)
    (hs : l.core.state = .headerField) :
    (headerFieldCase data p l).Matches data p l.nread.toNat (feedAll l.core l.marks p (data.drop p)) := by
  have hname : l.core.headerState.ofName = true := by simpa only [Core.Sound, hs] using hl.sound
  obtain ⟨q', n, hloop, hle, hs', hname', hend, hfeed⟩ := headerFieldLoop_bytes (data.drop p) hs hname
  rw [List.length_drop] at hle
  have hcount := count_nread hl.nread (by omega : n ≤ 2 ^ 31)
  have hsound : q'.Sound := by simpa only [Core.Sound, hs'] using hname'
  rw [hfeed, List.drop_drop]
  unfold headerFieldCase
  simp only [hloop]
  split_ifs with ho hall hcolon
  · have hlt := nread_of_overflows ho
    rw [hcount] at hlt
    exact ⟨by omega, Or.inl ⟨rfl, by omega⟩⟩
  · have hpos : 0 < n := by omega
    refine ⟨by omega, by omega, ⟨hsound, nread_of_not_overflows ho⟩, by rw [hcount]; omega, fun h => ?_, ?_⟩
    · rw [show (Locals.core _) = q' from rfl, hs'] at h
      cases h
    · rw [Nat.sub_add_cancel (by omega : 1 ≤ p + n)]
      rfl
  · have hlt : p + n < data.length := by omega
    have hturn : byteTurn q' (data.getD (p + n) 0) =
        .next { q' with state := .headerValueDiscardWs } [.data .headerField] := by
      have htok := hend (data.getD (p + n) 0) (by rw [List.getElem?_drop, getElem?_eq_getD hlt]; rfl)
      unfold byteTurn
      simp only [hs']
      rw [if_neg (not_not.mpr htok), if_pos hcolon]
    exact (turn_matches (l := { l with core := q' }.count n) ⟨hsound, nread_of_not_overflows ho⟩ hlt hturn
      (by simp)).of_le (n := l.nread.toNat) (Nat.le_add_right p n) (by rw [hcount]; omega)
  · have hlt : p + n < data.length := by omega
    have hturn : byteTurn q' (data.getD (p + n) 0) = .error q' [] .invalidHeaderToken := by
      have htok := hend (data.getD (p + n) 0) (by rw [List.getElem?_drop, getElem?_eq_getD hlt]; rfl)
      unfold byteTurn
      simp only [hs']
      rw [if_neg (not_not.mpr htok), if_neg hcolon]
    refine ⟨by omega, Or.inr ⟨?_, nread_of_not_overflows ho, by rw [hcount]; omega⟩⟩
    rw [drop_eq_cons hlt, feedAll_error hturn]
    rfl

/-- A line feed ends a value and is looked at again. -/
theorem headerValueCase_matches (hlen : data.length ≤ 2 ^ 31) (hl : l.Ready) (hp : p < data.length)
    (hs : l.core.state = .headerValue) :
    (headerValueCase data p l).Matches data p l.nread.toNat (feedAll l.core l.marks p (data.drop p)) ∨
    ∃ n l', headerValueCase data p l = .again (p + n) l' ∧ p + n < data.length ∧ l'.Ready ∧
    l'.nread.toNat ≤ l.nread.toNat + n ∧
      l'.core.state = .headerAlmostDone ∧ feedAll l.core l.marks p (data.drop p) =
      feedAll l'.core l'.marks (p + n) (data.drop (p + n)) := by
  have hv : l.core.InValue := ⟨hs, by simpa only [Core.Sound, hs] using hl.sound⟩
  have hloop := headerValueLoop_follows (data.drop p) hv
  have hlength : (data.drop p).length = data.length - p := List.length_drop
  have hcount : ∀ {n : Nat}, n ≤ data.length →
      ∀ q m, ((Locals.mk q l.nread m).count n).nread.toNat = l.nread.toNat + n := fun hn =>
    count_nread hl.nread (hn.trans hlen)
  unfold headerValueCase
  cases he : headerValueLoop l.core (data.drop p) with
  | done q n =>
    rw [he] at hloop
    obtain ⟨rfl, hq, hfeed⟩ := hloop
    refine Or.inl ?_
    simp only
    have hn := hcount (n := (data.drop p).length) (by omega)
    split_ifs with ho
    · have hlt := nread_of_overflows ho
      rw [hn] at hlt
      exact ⟨by omega, Or.inl ⟨rfl, by omega⟩⟩
    · have hle := nread_of_not_overflows ho
      rw [hn] at hle
      refine ⟨by omega, by omega, ⟨hq.sound, nread_of_not_overflows ho⟩, by rw [hn]; omega, fun h => ?_, ?_⟩
      · rw [show (Locals.core _) = q from rfl, hq.1] at h
        cases h
      · rw [Nat.sub_add_cancel (by omega : 1 ≤ p + _), hfeed (by omega), List.drop_drop]
        rfl
  | cr q n =>
    rw [he] at hloop
    obtain ⟨hcr, hq, hfeed⟩ := hloop
    rw [List.getElem?_drop] at hcr
    have hlt : p + n < data.length := (List.getElem?_eq_some_iff.mp hcr).1
    refine Or.inl ?_
    have hn := hcount (n := n) (by omega)
    simp only
    split_ifs with ho
    · have hmax := nread_of_overflows ho
      rw [hn] at hmax
      exact ⟨by omega, Or.inl ⟨rfl, by omega⟩⟩
    · refine ⟨by omega, hlt, ⟨Core.sound_of_free rfl, nread_of_not_overflows ho⟩,
        by rw [hn]; omega, (fun h => by cases h), ?_⟩
      have hturn : byteTurn q cr = .next { q with state := .headerAlmostDone } [.data .headerValue] := by
        unfold byteTurn
        simp only [hq.1, if_true]
      have hget := getElem?_eq_getD hlt
      rw [hcr, Option.some.injEq] at hget
      rw [hfeed, List.drop_drop, drop_eq_cons hlt, ← hget, feedAll_next hturn]
      rfl
  | lf q n =>
    rw [he] at hloop
    obtain ⟨hlf, hq, hfeed⟩ := hloop
    rw [List.getElem?_drop] at hlf
    have hlt : p + n < data.length := (List.getElem?_eq_some_iff.mp hlf).1
    have hn := hcount (n := n) (by omega)
    simp only
    split_ifs with ho
    · have hmax := nread_of_overflows ho
      rw [hn] at hmax
      exact Or.inl ⟨by omega, Or.inl ⟨rfl, by omega⟩⟩
    · refine Or.inr ⟨n, _, rfl, hlt, ⟨Core.sound_of_free rfl, nread_of_not_overflows ho⟩, (hn _ _).le, rfl, ?_⟩
      have hturn : byteTurn q lf = .again { q with state := .headerAlmostDone } [.data .headerValue] := by
        unfold byteTurn
        simp only [hq.1, if_true]
        rw [if_neg (by decide)]
      have hget := getElem?_eq_getD hlt
      rw [hlf, Option.some.injEq] at hget
      rw [hfeed, List.drop_drop, drop_eq_cons hlt, ← hget, feedAll_again hturn hq.sound]
      rfl
  | error q n e =>
    rw [he] at hloop
    obtain ⟨hn, rfl, hfeed⟩ := hloop
    exact Or.inl ⟨by omega, Or.inr ⟨hfeed _ _, hl.nread, by show l.nread.toNat + p ≤ _; omega⟩⟩
  | abort =>
    rw [he] at hloop
    exact hloop.elim

theorem toRead_sub {n : UInt64} {k : Nat} (hk : k ≤ n.toNat) : (n - .ofNat k).toNat = n.toNat - k := by
  have hlt : k < 2 ^ 64 := Nat.lt_of_le_of_lt hk n.toNat_lt
  rw [UInt64.toNat_sub_of_le _ _ (UInt64.le_iff_toNat_le.mpr (by rwa [UInt64.toNat_ofNat_of_lt' hlt])),
    UInt64.toNat_ofNat_of_lt' hlt]

theorem byteTurn_bodyIdentity (q : Core) (hs : q.state = .bodyIdentity) (n : UInt64) (h0 : n ≠ 0) (hmax : n ≠ ullongMax)
    (h1 : n ≠ 1) (ch : UInt8) :
    byteTurn { q with contentLength := n } ch = .next { q with contentLength := n - 1 } [.mark .body] := by
  unfold byteTurn
  simp only [hs]
  rw [if_neg (by simp [h0, hmax]), if_neg h1]

theorem byteTurn_chunkData (q : Core) (hs : q.state = .chunkData) (hc : q.flags.chunked = true) (n : UInt64)
    (h0 : n ≠ 0) (hmax : n ≠ ullongMax) (h1 : n ≠ 1) (ch : UInt8) :
    byteTurn { q with contentLength := n } ch = .next { q with contentLength := n - 1 } [.mark .body] := by
  unfold byteTurn
  simp only [hs, hc]
  rw [if_neg (by simp [h0, hmax]), if_neg h1]

/-- What the cases of bodies have read when they come to their last byte. -/
theorem body_last {k : Nat} (hk : k = min l.core.contentLength.toNat (data.length - p)) (hp : p < data.length)
    (h0 : l.core.contentLength ≠ 0) (hmax : l.core.contentLength ≠ ullongMax)
    (hturn : ∀ n, n ≠ 0 → n ≠ ullongMax → n ≠ 1 → ∀ ch,
      byteTurn { l.core with contentLength := n } ch = .next { l.core with contentLength := n - 1 } [.mark .body]) :
    p ≤ p + k - 1 ∧ p + k - 1 < data.length ∧
      ∃ (m : Marks) (n : UInt64), m.act (p + k - 1) (.mark .body) = l.marks.act p (.mark .body) ∧
      n ≠ 0 ∧ n ≠ ullongMax ∧ (l.core.contentLength - .ofNat k = 0 ↔ n = 1) ∧ n - 1 = l.core.contentLength - .ofNat k ∧
      feedAll l.core l.marks p (data.drop p) =
      feedAll { l.core with contentLength := n } m (p + k - 1) (data.drop (p + k - 1)) := by
  have hpos : 0 < l.core.contentLength.toNat := UInt64.lt_iff_toNat_lt.mp (UInt64.pos_iff_ne_zero.mpr h0)
  have hk1 : 1 ≤ k := by omega
  have hkc : k ≤ l.core.contentLength.toNat := by omega
  obtain ⟨j, rfl⟩ := Nat.exists_eq_add_of_le' hk1
  have hsub := toRead_sub (Nat.le_of_succ_le hkc)
  have hsub' := toRead_sub hkc
  obtain ⟨m, hm, hfeed⟩ := feedAll_body_last (data.drop p) l.marks hturn (by rw [List.length_drop]; omega) hkc hmax p
  rw [Nat.add_succ_sub_one]
  refine ⟨Nat.le_add_right p j, by omega, m, _, hm, ?_, ?_, ?_, ?_, by rw [hfeed, List.drop_drop]⟩
  · intro h
    rw [h] at hsub
    have hz : (0 : UInt64).toNat = 0 := rfl
    omega
  · intro h
    rw [h] at hsub
    have hlt := l.core.contentLength.toNat_lt
    have hne : l.core.contentLength.toNat ≠ ullongMax.toNat := fun heq => hmax (UInt64.toNat_inj.mp heq)
    have hm : ullongMax.toNat = 2 ^ 64 - 1 := rfl
    omega
  · rw [← UInt64.toNat_inj, ← UInt64.toNat_inj, hsub, hsub']
    have hz : (0 : UInt64).toNat = 0 := rfl
    have ho : (1 : UInt64).toNat = 1 := rfl
    omega
  · rw [UInt64.ofNat_add, show UInt64.ofNat 1 = 1 from rfl]
    grind

theorem chunkDataCase_matches (hl : l.Ready) (hp : p < data.length) (hs : l.core.state = .chunkData) :
    (chunkDataCase data p l).Matches data p l.nread.toNat (feedAll l.core l.marks p (data.drop p)) := by
  obtain ⟨hc, h0, hmax⟩ : l.core.flags.chunked = true ∧ l.core.contentLength ≠ 0 ∧
      l.core.contentLength ≠ ullongMax := by
    simpa only [Core.Sound, hs] using hl.sound
  obtain ⟨hle, hlt, m, n, hm, hn0, hnmax, hn1, hsub, hfeed⟩ :=
    body_last rfl hp h0 hmax (byteTurn_chunkData l.core hs hc)
  unfold chunkDataCase
  simp only
  rw [if_neg (by simp [hc, h0, hmax]), hfeed, drop_eq_cons hlt, ← hm, ← hsub]
  by_cases h1 : n = 1
  · have hturn : byteTurn { l.core with contentLength := n }
        (data.getD (p + min l.core.contentLength.toNat (data.length - p) - 1) 0) =
        .next { l.core with contentLength := 0, state := .chunkDataAlmostDone } [.mark .body] := by
      unfold byteTurn
      simp only [hs, hc]
      rw [if_neg (by simp [hn0, hnmax]), if_pos h1]
    subst h1
    refine ⟨hle, hlt, ⟨?_, hl.nread⟩, by show l.nread.toNat + p ≤ _; omega, ?_, ?_⟩
    · exact ⟨hc, rfl⟩
    · exact fun h => by cases h
    · rw [feedAll_next hturn]
      rfl
  · have hne : n - 1 ≠ 0 := (pred_ne hn0 h1).1
    rw [feedAll_next (byteTurn_chunkData l.core hs hc n hn0 hnmax h1 _), if_neg hne]
    refine ⟨hle, hlt, ⟨?_, hl.nread⟩, by show l.nread.toNat + p ≤ _; omega, ?_, rfl⟩
    · simpa only [Core.Sound, hs] using ⟨hc, pred_ne hn0 h1⟩
    · simp only [hs]
      exact fun h => by cases h

/-- The last byte of a body is looked at again. -/
theorem bodyIdentityCase_matches (hl : l.Ready) (hp : p < data.length) (hs : l.core.state = .bodyIdentity) :
    (bodyIdentityCase data p l).Matches data p l.nread.toNat (feedAll l.core l.marks p (data.drop p)) ∨
    ∃ n l', bodyIdentityCase data p l = .again (p + n) l' ∧ p + n < data.length ∧ l'.Ready ∧
    l'.nread.toNat ≤ l.nread.toNat + n ∧
      l'.core.state = .messageDone ∧ feedAll l.core l.marks p (data.drop p) =
      feedAll l'.core l'.marks (p + n) (data.drop (p + n)) := by
  obtain ⟨h0, hmax⟩ : l.core.contentLength ≠ 0 ∧ l.core.contentLength ≠ ullongMax := by
    simpa only [Core.Sound, hs] using hl.sound
  obtain ⟨hle, hlt, m, n, hm, hn0, hnmax, hn1, hsub, hfeed⟩ :=
    body_last rfl hp h0 hmax (byteTurn_bodyIdentity l.core hs)
  unfold bodyIdentityCase
  simp only
  rw [if_neg (by simp [h0, hmax]), hfeed, drop_eq_cons hlt, ← hm, ← hsub]
  by_cases h1 : n = 1
  · have hturn : byteTurn { l.core with contentLength := n }
        (data.getD (p + min l.core.contentLength.toNat (data.length - p) - 1) 0) =
        .again { l.core with contentLength := 0, state := .messageDone } [.mark .body, .dataWith .body] := by
      unfold byteTurn
      simp only [hs]
      rw [if_neg (by simp [hn0, hnmax]), if_pos h1]
    have hsound : ({ l.core with contentLength := n } : Core).Sound := by
      simpa only [Core.Sound, hs] using ⟨hn0, hnmax⟩
    rw [feedAll_again hturn hsound, ← drop_eq_cons hlt]
    subst h1
    obtain ⟨j, hj⟩ := Nat.exists_eq_add_of_le hle
    rw [hj]
    exact Or.inr ⟨j, _, rfl, hj ▸ hlt, ⟨Core.sound_of_free rfl, hl.nread⟩, Nat.le_add_right _ _, rfl, rfl⟩
  · have hne : n - 1 ≠ 0 := (pred_ne hn0 h1).1
    rw [feedAll_next (byteTurn_bodyIdentity l.core hs n hn0 hnmax h1 _), if_neg hne]
    refine Or.inl ⟨hle, hlt, ⟨?_, hl.nread⟩, by show l.nread.toNat + p ≤ _; omega, ?_, rfl⟩
    · simpa only [Core.Sound, hs] using pred_ne hn0 h1
    · simp only [hs]
      exact fun h => by cases h

theorem bodyIdentityEofCase_matches (hl : l.Ready) (hp : p < data.length) (hs : l.core.state = .bodyIdentityEof) :
    (bodyIdentityEofCase data p l).Matches data p l.nread.toNat (feedAll l.core l.marks p (data.drop p)) := by
  have hturn : ∀ ch, byteTurn l.core ch = .next l.core [.mark .body] := by
    intro ch
    unfold byteTurn
    simp only [hs]
  have hall : ∀ {bytes : List UInt8} {m : Marks} {p : Nat}, m.mark .body ≠ none →
      feedAll l.core m p bytes = .on l.core m := by
    intro bytes m p hm
    induction bytes generalizing p with
    | nil => rfl
    | cons ch rest ih =>
      rw [feedAll_next (hturn ch)]
      simp only [Marks.acts, List.foldl_cons, List.foldl_nil, act_mark_of_set hm]
      exact ih
  unfold bodyIdentityEofCase
  refine ⟨by omega, by omega, ⟨hl.sound, hl.nread⟩, by show l.nread.toNat + p ≤ _; omega, fun h => ?_, ?_⟩
  · rw [show (Locals.core _) = l.core from rfl, hs] at h
    nomatch h
  · rw [drop_eq_cons hp, feedAll_next (hturn _), Nat.sub_add_cancel (by omega : 1 ≤ data.length), List.drop_length]
    exact hall (act_mark_set _ _ _)

/-- The switch, until it is left. -/
theorem reexecute_matches (hlen : data.length ≤ 2 ^ 31) {fuel : Nat} (hl : l.Ready) (hp : p < data.length)
    (hfuel : l.core.state.rank < fuel) (hone : l.core.state = .chunkSizeStart → l.nread = 1) :
    (reexecute data fuel p l).Matches data p l.nread.toNat (feedAll l.core l.marks p (data.drop p)) := by
  induction fuel generalizing p l with
  | zero => nomatch hfuel
  | succ fuel ih =>
    -- a case that does not look again is what the switch comes to
    have hleave : ∀ {c : Case}, switch data p l = c →
        c.Matches data p l.nread.toNat (feedAll l.core l.marks p (data.drop p)) →
        (reexecute data (fuel + 1) p l).Matches data p l.nread.toNat (feedAll l.core l.marks p (data.drop p)) := by
      intro c hc hm
      unfold reexecute
      rw [hc]
      cases c with
      | next | stop | abort => exact hm
      | again => exact hm.elim
    have hagain : ∀ {n : Nat} {l' : Locals}, switch data p l = .again (p + n) l' → p + n < data.length → l'.Ready →
        l'.nread.toNat ≤ l.nread.toNat + n → l'.core.state.rank < fuel → l'.core.state ≠ .chunkSizeStart →
        feedAll l.core l.marks p (data.drop p) = feedAll l'.core l'.marks (p + n) (data.drop (p + n)) →
        (reexecute data (fuel + 1) p l).Matches data p l.nread.toNat (feedAll l.core l.marks p (data.drop p)) := by
      intro n l' hc hlt hl' hcount hrank hne hfeed
      unfold reexecute
      rw [hc, hfeed]
      exact (ih hl' hlt hrank fun h => absurd h hne).of_le (Nat.le_add_right p n) (by omega)
    have hkept : ∀ {n' : UInt32}, n' = l.nread ∨ n' = 0 → n'.toNat ≤ l.nread.toNat := by
      rintro n' (rfl | rfl)
      · exact Nat.le_refl _
      · exact Nat.zero_le _
    by_cases hr : l.core.state.readsOn = false
    · have hswitch : switch data p l = _ := switch_of_not_readsOn hr
      have hf := byteTurn_fits (data.getD p 0) hl.sound
      cases ht : byteTurn l.core (data.getD p 0) with
      | next q acts =>
        rw [ht] at hf hswitch
        exact hleave hswitch (turn_matches hl hp ht fun h => hone (hf.check h).1)
      | again q acts =>
        rw [ht] at hf hswitch
        obtain ⟨hlead, hlt, -, hne⟩ := hf
        obtain ⟨n', hn, hor, -⟩ := nread_acts (n := l.nread) (fun h => ⟨hone (hlead.check h).1, (hlead.check h).2⟩)
        have hat : (Turn.again q acts).at p l = .again (p + 0) ⟨q, n', l.marks.acts p acts⟩ := by
          simp only [Turn.at, Locals.acts, hn, Option.map_some, Nat.add_zero]
        refine hagain (hswitch.trans hat) hp ⟨hlead.sound, (hkept hor).trans hl.nread⟩ (hkept hor)
          (Nat.lt_of_lt_of_le hlt (Nat.le_of_lt_succ hfuel)) hne ?_
        · rw [Nat.add_zero, drop_eq_cons hp, feedAll_again ht hl.sound]
      | exit q acts =>
        rw [ht] at hf hswitch
        obtain ⟨n', hn, hor, -⟩ := nread_acts (n := l.nread) (fun h => ⟨hone (hf.1.check h).1, (hf.1.check h).2⟩)
        have hat : (Turn.exit q acts).at p l = .stop (p + 1) ⟨q, n', l.marks.acts p acts⟩ .ok := by
          simp only [Turn.at, Locals.acts, hn, Option.map_some]
        refine hleave (hswitch.trans hat) ⟨hp, Or.inr
          ⟨?_, (hkept hor).trans hl.nread, Nat.add_le_add (hkept hor) hp.le⟩⟩
        rw [drop_eq_cons hp, feedAll_exit ht]
      | error q acts e =>
        rw [ht] at hf hswitch
        obtain ⟨n', hn, hor, -⟩ := nread_acts (n := l.nread) (fun h => ⟨hone (hf.1 h).1, (hf.1 h).2⟩)
        have hat : (Turn.error q acts e).at p l = .stop p ⟨q, n', l.marks.acts p acts⟩ e := by
          simp only [Turn.at, Locals.acts, hn, Option.map_some]
        refine hleave (hswitch.trans hat) ⟨hp.le,
          Or.inr ⟨?_, (hkept hor).trans hl.nread, Nat.add_le_add (hkept hor) hp.le⟩⟩
        rw [drop_eq_cons hp, feedAll_error ht]
      | abort =>
        rw [ht] at hf
        exact hf.elim
    · have hreads : l.core.state.readsOn = true := by simpa using hr
      cases hs : l.core.state
      case headerField => exact hleave (by unfold switch; rw [hs]) (headerFieldCase_matches hlen hl hp hs)
      case headerValue =>
        have hswitch : switch data p l = headerValueCase data p l := by unfold switch; rw [hs]
        rcases headerValueCase_matches hlen hl hp hs with hm | ⟨n, l', heq, hlt, hl', hcount, hs', hfeed⟩
        · exact hleave hswitch hm
        · rw [hs] at hfuel
          exact hagain (hswitch.trans heq) hlt hl' hcount (by rw [hs']; exact Nat.lt_of_succ_lt_succ hfuel)
            (by rw [hs']; nofun) hfeed
      case bodyIdentity =>
        have hswitch : switch data p l = bodyIdentityCase data p l := by unfold switch; rw [hs]
        rcases bodyIdentityCase_matches hl hp hs with hm | ⟨n, l', heq, hlt, hl', hcount, hs', hfeed⟩
        · exact hleave hswitch hm
        · rw [hs] at hfuel
          exact hagain (hswitch.trans heq) hlt hl' hcount (by rw [hs']; exact Nat.lt_of_succ_lt_succ hfuel)
            (by rw [hs']; nofun) hfeed
      case bodyIdentityEof => exact hleave (by unfold switch; rw [hs]) (bodyIdentityEofCase_matches hl hp hs)
      case chunkData => exact hleave (by unfold switch; rw [hs]) (chunkDataCase_matches hl hp hs)
      all_goals (rw [hs] at hreads; nomatch hreads)

end Switch

/-! ## The loop -/

/-- What is promised of a parser between two calls. -/
def HttpParser.Ready (parser : HttpParser) : Prop :=
  parser.errno = .ok → parser.core.Sound ∧ parser.nread.toNat ≤ httpMaxHeaderSize ∧
    (parser.core.state = .chunkSizeStart → parser.nread = 0)

/-- What a call gives is where its bytes lead. -/
def Course.Gives (data : List UInt8) (r : Executed) : Course → Prop
  | .on q m => ∃ nread, r = ⟨⟨q, nread, .ok⟩, (m.flush data.length).calls, data.length⟩
  | .stop n q m e => ∃ nread, r = ⟨⟨q, nread, e⟩, m.calls, n⟩
  | .abort => False

/-- A call ends, with the parser ready for another one, where its bytes lead, unless the headers are too long. A byte
is counted at most twice. -/
def Ends (data : List UInt8) (place count : Nat) (course : Course) (o : Option Executed) : Prop :=
  ∃ r, o = some r ∧ r.parser.Ready ∧ r.returned ≤ data.length ∧
    (r.parser.errno = .headerOverflow ∧ httpMaxHeaderSize + 2 * place < count + 2 * data.length ∨
      course.Gives data r ∧ r.parser.nread.toNat + 2 * place ≤ count + 2 * data.length)

theorem ready_of_error {core : Core} {nread : UInt32} {e : Errno} (h : e ≠ .ok) : (HttpParser.mk core nread e).Ready :=
  fun he => absurd he h

theorem finish_ends {data : List UInt8} {l : Locals} (hl : l.Ready)
    (hzero : l.core.state = .chunkSizeStart → l.nread = 0)
    (hfit : l.marks.Fit l.core.state.opened) :
    Ends data data.length l.nread.toNat (.on l.core l.marks) (finish data l) := by
  unfold finish
  rw [if_neg (Nat.not_lt.mpr hfit.left_length)]
  exact ⟨_, rfl, fun _ => ⟨hl.sound, hl.nread, hzero⟩, Nat.le_refl _, Or.inr ⟨⟨_, rfl⟩, Nat.le_refl _⟩⟩

theorem loop_ends {data : List UInt8} (hlen : data.length ≤ 2 ^ 31) {fuel p : Nat} {l : Locals} (hl : l.Ready)
    (hzero : l.core.state = .chunkSizeStart → l.nread = 0) (hp : p ≤ data.length) (hfuel : data.length - p < fuel)
    (hfits : (feedAll l.core l.marks p (data.drop p)).Fits data.length) :
    Ends data p l.nread.toNat (feedAll l.core l.marks p (data.drop p)) (loop data fuel p l) := by
  induction fuel generalizing p l with
  | zero => nomatch hfuel
  | succ fuel ih =>
    unfold loop
    by_cases hend : p = data.length
    · rw [if_pos hend]
      rw [hend, List.drop_length] at hfits ⊢
      exact finish_ends hl hzero hfits.2.1
    rw [if_neg hend]
    have hlt : p < data.length := Nat.lt_of_le_of_ne hp hend
    -- the byte is counted where headers are parsed
    have hstep : ∀ l₁ : Locals, l₁.core = l.core → l₁.marks = l.marks → l₁.Ready → l₁.nread.toNat ≤ l.nread.toNat + 1 →
        (l₁.core.state = .chunkSizeStart → l₁.nread = 1) →
        Ends data p l.nread.toNat (feedAll l.core l.marks p (data.drop p))
          (match reexecute data turns p l₁ with
          | .next p l => loop data fuel (p + 1) l
          | .stop n l e => some ⟨⟨l.core, l.nread, e⟩, l.marks.calls, n⟩
          | .again _ _ | .abort => none) := by
      intro l₁ hcore hmarks hl₁ hcount hone
      have hm := reexecute_matches hlen hl₁ hlt (rank_lt_turns _) hone
      rw [hcore, hmarks] at hm
      cases hc : reexecute data turns p l₁ with
      | next p' l' =>
        rw [hc] at hm
        obtain ⟨hle, hlt', hl', hcount', hzero', hcourse⟩ := hm
        rw [hcourse] at hfits ⊢
        obtain ⟨r, hr, hready, hret, hend⟩ := ih hl' hzero' hlt' (by omega) hfits
        refine ⟨r, hr, hready, hret, ?_⟩
        rcases hend with ⟨he, hmax⟩ | ⟨hgives, hn⟩
        · exact Or.inl ⟨he, by omega⟩
        · exact Or.inr ⟨hgives, by omega⟩
      | stop n l' e =>
        rw [hc] at hm
        obtain ⟨hle, ⟨rfl, hmax⟩ | ⟨hcourse, hmax, hn⟩⟩ := hm
        · exact ⟨_, rfl, ready_of_error nofun, hle, Or.inl ⟨rfl, by omega⟩⟩
        · rw [hcourse] at hfits ⊢
          refine ⟨_, rfl, fun he => ?_, hle, Or.inr ⟨⟨_, rfl⟩, by show l'.nread.toNat + 2 * p ≤ _; omega⟩⟩
          obtain ⟨hsound, hne⟩ := hfits.2.2.1 he
          exact ⟨hsound, hmax, fun h => absurd h hne⟩
      | again | abort =>
        rw [hc] at hm
        exact hm.elim
    have hone : (l.count 1).nread.toNat = l.nread.toNat + 1 := count_nread hl.nread (by decide) l.core l.marks
    by_cases hpar : l.core.state.parsingHeader = true
    · simp only [hpar, if_true, Bool.true_and, show (l.count 1).core = l.core from rfl]
      split_ifs with ho
      · have hmax := nread_of_overflows ho
        rw [hone] at hmax
        exact ⟨_, rfl, ready_of_error nofun, hp, Or.inl ⟨rfl, by omega⟩⟩
      · refine hstep (l.count 1) rfl rfl ⟨hl.sound, nread_of_not_overflows ho⟩ hone.le fun h => ?_
        rw [Locals.count, hzero h]
        rfl
    · simp only [hpar, Bool.false_eq_true, if_false, Bool.false_and]
      refine hstep l rfl rfl hl (Nat.le_succ _) fun h => ?_
      rw [h] at hpar
      exact absurd rfl hpar

/-- A call comes to where its bytes lead one at a time. -/
theorem execute_bytes {parser : HttpParser} {data : List UInt8} (h : parser.Ready) (hok : parser.errno = .ok)
    (hdata : data ≠ []) (hlen : data.length ≤ 2 ^ 31) :
    Ends data 0 parser.nread.toNat (feedAll parser.core parser.core.state.startMarks 0 data) (execute parser data) := by
  obtain ⟨hsound, hn, hzero⟩ := h hok
  have hfits := feedAll_fits data hsound (startMarks_fit _) (startMarks_within _)
  rw [Nat.zero_add] at hfits
  unfold execute
  rw [if_neg (not_not.mpr hok), if_neg hdata]
  exact loop_ends (l := ⟨parser.core, parser.nread, _⟩) hlen ⟨hsound, hn⟩ hzero (Nat.zero_le _) (by omega) hfits

/-! ## Calls -/

theorem httpParserInit_ready (type : ParserType) : (httpParserInit type).Ready := by
  refine fun _ => ⟨?_, Nat.zero_le _, ?_⟩
  · cases type <;> trivial
  · cases type <;> nofun

end ZeroServ.Parser
