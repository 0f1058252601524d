import ZeroServ.Parser.Readahead

/-!
# What callbacks are given

The offset and the length that a data callback is given lie in the bytes of its call, in whatever state the parser
is, and also where the headers turn out to be too long (`callbacks_inside`): by what each case leaves
(`Case.Inside`), and the loop over the cases.
-/

namespace ZeroServ.Parser

open CString

/-- A case leaves its place, the marks and the callbacks in the bytes. -/
def Case.Inside (data : List UInt8) : Case → Prop
  | .next p l => p < data.length ∧ l.marks.Within (p + 1) (p + 1)
  | .again p l => p < data.length ∧ l.marks.Within p (p + 1)
  | .stop n l _ => n ≤ data.length ∧ ∀ c ∈ l.marks.calls, c.inside data.length
  | .abort => True

section

variable {data : List UInt8} {p : Nat} {l : Locals}

theorem inside_of_within {m : Marks} {n : Nat} (h : m.Within p n) (hn : n ≤ data.length) :
    ∀ c ∈ m.calls, c.inside data.length :=
  (h.mono (Nat.le_refl p) hn).calls

theorem at_inside (t : Turn) (hp : p < data.length) (hw : l.marks.Within p (p + 1)) : (t.at p l).Inside data := by
  have hacts : ∀ {q acts l'}, ({ l with core := q } : Locals).acts p acts = some l' → l'.marks.Within p (p + 1) := by
    intro q acts l' h
    obtain ⟨nread, -, rfl⟩ := Option.map_eq_some_iff.mp h
    exact hw.acts acts
  cases t with
  | next q acts =>
    cases h : ({ l with core := q } : Locals).acts p acts with
    | none =>
      simp only [Turn.at, h]
      trivial
    | some l' =>
      simp only [Turn.at, h]
      exact ⟨hp, (hacts h).mono (Nat.le_succ p) (Nat.le_refl _)⟩
  | again q acts =>
    cases h : ({ l with core := q } : Locals).acts p acts with
    | none =>
      simp only [Turn.at, h]
      trivial
    | some l' =>
      simp only [Turn.at, h]
      exact ⟨hp, hacts h⟩
  | exit q acts =>
    cases h : ({ l with core := q } : Locals).acts p acts with
    | none =>
      simp only [Turn.at, h]
      trivial
    | some l' =>
      simp only [Turn.at, h]
      exact ⟨hp, inside_of_within (hacts h) hp⟩
  | error q acts e =>
    cases h : ({ l with core := q } : Locals).acts p acts with
    | none =>
      simp only [Turn.at, h]
      trivial
    | some l' =>
      simp only [Turn.at, h]
      exact ⟨hp.le, inside_of_within (hacts h) hp⟩
  | abort => trivial

/-! ## The cases that read on -/

theorem headerFieldLoop_le {bytes : List UInt8} {q q' : Core} {n : Nat} (h : headerFieldLoop q bytes = some (q', n)) :
    n ≤ bytes.length := by
  induction bytes generalizing q q' n with
  | nil =>
    simp only [headerFieldLoop, Option.some.injEq, Prod.mk.injEq] at h
    exact h.2.ge
  | cons ch rest ih =>
    unfold headerFieldLoop at h
    split_ifs at h with htok
    · simp only [Option.some.injEq, Prod.mk.injEq] at h
      rw [← h.2]
      exact Nat.zero_le _
    · split at h
      · obtain ⟨⟨q₁, k⟩, hrest, heq⟩ := Option.map_eq_some_iff.mp h
        simp only [Prod.mk.injEq] at heq
        rw [← heq.2]
        exact Nat.succ_le_succ (ih hrest)
      · cases h

theorem headerFieldCase_inside (hp : p < data.length) (hw : l.marks.Within p (p + 1)) :
    (headerFieldCase data p l).Inside data := by
  unfold headerFieldCase
  cases hloop : headerFieldLoop l.core (data.drop p) with
  | none => trivial
  | some r =>
    obtain ⟨q, n⟩ := r
    have hle := headerFieldLoop_le hloop
    rw [List.length_drop] at hle
    have hcalls := inside_of_within hw hp
    simp only
    split_ifs with ho hall hcolon
    · exact ⟨by omega, hcalls⟩
    · exact ⟨by omega, hw.mono (by omega) (by omega)⟩
    · exact at_inside _ (by omega) (hw.mono (Nat.le_add_right p n) (by omega))
    · exact ⟨by omega, hcalls⟩

/-- How far the loop over a value comes in so many bytes. -/
def ValueEnd.Inside (k : Nat) : ValueEnd → Prop
  | .done _ n => n = k
  | .cr _ n | .lf _ n => n < k
  | .error _ n _ => n ≤ k
  | .abort => True

theorem ValueEnd.Inside.succ {k : Nat} {v : ValueEnd} (h : v.Inside k) : v.succ.Inside (k + 1) := by
  cases v with
  | done q n => exact congrArg Nat.succ h
  | cr q n | lf q n => exact Nat.succ_lt_succ h
  | error q n e => exact Nat.succ_le_succ h
  | abort => trivial

theorem headerValueLoop_inside (q : Core) (bytes : List UInt8) : (headerValueLoop q bytes).Inside bytes.length := by
  induction bytes generalizing q with
  | nil => exact rfl
  | cons ch rest ih =>
    unfold headerValueLoop
    split_ifs with hcr hlf hg
    · exact Nat.succ_pos _
    · exact Nat.succ_pos _
    · rcases skipLine_spec (ch :: rest) with ⟨hlen, -⟩ | ⟨hat | hat, -⟩
      · simp only [hlen, List.getElem?_length]
        exact rfl
      · simp only [hat]
        exact (List.getElem?_eq_some_iff.mp hat).1
      · simp only [hat]
        exact (List.getElem?_eq_some_iff.mp hat).1
    · cases q.headerValueLetter ch with
      | next q' acts => exact (ih q').succ
      | error q' acts e => exact Nat.zero_le _
      | again | exit | abort => trivial

theorem headerValueCase_inside (hp : p < data.length) (hw : l.marks.Within p (p + 1)) :
    (headerValueCase data p l).Inside data := by
  have hloop := headerValueLoop_inside l.core (data.drop p)
  have hcalls := inside_of_within hw hp
  rw [List.length_drop] at hloop
  unfold headerValueCase
  have hcallback : ∀ n, (l.marks.callback .headerValue (p + n)).Within (p + n) (p + n + 1) := fun n =>
    (hw.mono (Nat.le_add_right p n) (by omega)).callback (Nat.le_refl _) (Nat.le_succ _) _
  cases he : headerValueLoop l.core (data.drop p) with
  | abort => trivial
  | error q n e =>
    rw [he] at hloop
    have hle : n ≤ data.length - p := hloop
    exact ⟨by omega, hcalls⟩
  | done q n =>
    rw [he] at hloop
    have hn : n = data.length - p := hloop
    simp only
    split_ifs
    · exact ⟨by omega, hcalls⟩
    · exact ⟨by omega, hw.mono (by omega) (by omega)⟩
  | cr q n =>
    rw [he] at hloop
    have hlt : n < data.length - p := hloop
    simp only
    split_ifs
    · exact ⟨by omega, inside_of_within (hcallback n) (by omega)⟩
    · exact ⟨by omega, (hcallback n).mono (Nat.le_succ _) (Nat.le_refl _)⟩
  | lf q n =>
    rw [he] at hloop
    have hlt : n < data.length - p := hloop
    simp only
    split_ifs
    · exact ⟨by omega, hcalls⟩
    · exact ⟨by omega, hcallback n⟩

theorem toNat_pos {n : UInt64} (h : n ≠ 0) : 0 < n.toNat :=
  Nat.pos_of_ne_zero fun h0 => h (UInt64.toNat_inj.mp h0)

theorem bodyIdentityCase_inside (hp : p < data.length) (hw : l.marks.Within p (p + 1)) :
    (bodyIdentityCase data p l).Inside data := by
  have hmark := hw.act (.mark .body)
  unfold bodyIdentityCase
  simp only
  split_ifs with hlen hlast
  · trivial
  · have hpos := toNat_pos (not_or.mp hlen).1
    exact at_inside _ (by omega) (hmark.mono (by omega) (by omega))
  · have hpos := toNat_pos (not_or.mp hlen).1
    exact ⟨by omega, hmark.mono (by omega) (by omega)⟩

theorem chunkDataCase_inside (hp : p < data.length) (hw : l.marks.Within p (p + 1)) :
    (chunkDataCase data p l).Inside data := by
  have hmark := hw.act (.mark .body)
  unfold chunkDataCase
  simp only
  by_cases hlen : (!l.core.flags.chunked) = true ∨ l.core.contentLength = 0 ∨ l.core.contentLength = ullongMax
  · rw [if_pos hlen]
    trivial
  · rw [if_neg hlen]
    have hpos := toNat_pos (not_or.mp (not_or.mp hlen).2).1
    exact ⟨by omega, hmark.mono (by omega) (by omega)⟩

theorem bodyIdentityEofCase_inside (hp : p < data.length) (hw : l.marks.Within p (p + 1)) :
    (bodyIdentityEofCase data p l).Inside data :=
  ⟨by omega, (hw.act (.mark .body)).mono (by omega) (by omega)⟩

/-! ## A call -/

theorem switch_inside (hp : p < data.length) (hw : l.marks.Within p (p + 1)) : (switch data p l).Inside data := by
  unfold switch
  split
  · exact headerFieldCase_inside hp hw
  · exact headerValueCase_inside hp hw
  · exact bodyIdentityCase_inside hp hw
  · exact bodyIdentityEofCase_inside hp hw
  · exact chunkDataCase_inside hp hw
  · exact at_inside _ hp hw

theorem reexecute_inside (fuel : Nat) (hp : p < data.length) (hw : l.marks.Within p (p + 1)) :
    (reexecute data fuel p l).Inside data := by
  induction fuel generalizing p l with
  | zero => trivial
  | succ fuel ih =>
    have hswitch := switch_inside hp hw
    unfold reexecute
    cases hc : switch data p l with
    | again p' l' =>
      rw [hc] at hswitch
      exact ih hswitch.1 hswitch.2
    | next | stop | abort =>
      rw [hc] at hswitch
      exact hswitch

theorem loop_inside {fuel : Nat} {r : Executed} (hp : p ≤ data.length) (hw : l.marks.Within p p)
    (h : loop data fuel p l = some r) :
    (∀ c ∈ r.calls, c.inside data.length) ∧ r.returned ≤ data.length := by
  induction fuel generalizing p l with
  | zero => cases h
  | succ fuel ih =>
    unfold loop at h
    by_cases hend : p = data.length
    · rw [if_pos hend] at h
      unfold finish at h
      split_ifs at h
      rw [← Option.some.inj h]
      exact ⟨(hend ▸ hw).flush.calls, Nat.le_refl _⟩
    · rw [if_neg hend] at h
      have hlt : p < data.length := Nat.lt_of_le_of_ne hp hend
      have hw' : (if l.core.state.parsingHeader = true then l.count 1 else l).marks.Within p (p + 1) := by
        have hmono := hw.mono (Nat.le_refl p) (Nat.le_succ p)
        split_ifs <;> exact hmono
      simp only at h
      generalize (if l.core.state.parsingHeader = true then l.count 1 else l) = l₁ at h hw'
      by_cases hover : (l₁.core.state.parsingHeader && l₁.overflows) = true
      · rw [if_pos hover] at h
        rw [← Option.some.inj h]
        exact ⟨inside_of_within hw' hlt, hp⟩
      rw [if_neg hover] at h
      have hcase := reexecute_inside turns hlt hw'
      cases hc : reexecute data turns p l₁ with
      | next p' l' =>
        rw [hc] at h hcase
        exact ih hcase.1 hcase.2 h
      | stop n l' e =>
        rw [hc] at h hcase
        rw [← Option.some.inj h]
        exact ⟨hcase.2, hcase.1⟩
      | again | abort =>
        rw [hc] at h
        cases h

end

/-- Callbacks of a call point into its bytes, and it parses no more than these. -/
theorem callbacks_inside {parser : HttpParser} {bytes : List UInt8} {r : Executed} (h : execute parser bytes = some r) :
    (∀ c ∈ r.calls, c.inside bytes.length) ∧ (bytes ≠ [] → r.returned ≤ bytes.length) := by
  unfold execute at h
  by_cases hok : parser.errno ≠ .ok
  · rw [if_pos hok] at h
    rw [← Option.some.inj h]
    exact ⟨fun c hc => absurd hc List.not_mem_nil, fun _ => Nat.zero_le _⟩
  rw [if_neg hok] at h
  by_cases hb : bytes = []
  · rw [if_pos hb] at h
    refine ⟨?_, fun hne => absurd hb hne⟩
    split at h
    all_goals
      rw [← Option.some.inj h]
      intro c hc
      simp only [List.mem_singleton, List.not_mem_nil] at hc
    rw [hc]
    trivial
  · rw [if_neg hb] at h
    obtain ⟨hcalls, hret⟩ := loop_inside (Nat.zero_le _) (startMarks_within _) h
    exact ⟨hcalls, fun _ => hret⟩

theorem callbacks_inside_get : ∃ r, execute (httpParserInit .request) (lit "GET /a HT") = some r ∧
    ∀ c ∈ r.calls, c.inside 9 := by
  have hr : (execute (httpParserInit .request) (lit "GET /a HT")).isSome = true := by decide +kernel
  obtain ⟨r, hr⟩ := Option.isSome_iff_exists.mp hr
  exact ⟨r, hr, (callbacks_inside hr).1⟩

end ZeroServ.Parser
