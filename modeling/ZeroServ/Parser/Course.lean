import ZeroServ.Parser.Bytes

/-!
# The bytes of a call

What `feedAll` makes of the bytes of a call, turn by turn, and what holds of its marks and callbacks on the way
(`Marks.Fit`): at most the mark of the state is set, and callbacks point into the bytes that were read.
-/

namespace ZeroServ.Parser

open CString

/-! ## Turn by turn -/

/-- A byte needs no more turns than its state has. -/
theorem feed_fuel {p : Nat} {ch : UInt8} {a b : Nat} {q : Core} {m : Marks} (h : q.Sound) (ha : q.state.rank < a)
    (hb : q.state.rank < b) :
    feed p ch a q m = feed p ch b q m := by
  induction a generalizing b q m with
  | zero => nomatch ha
  | succ a ih =>
    obtain ⟨b, rfl⟩ := Nat.exists_eq_add_one_of_ne_zero (Nat.ne_zero_of_lt hb)
    have hf := byteTurn_fits ch h
    unfold feed
    cases ht : byteTurn q ch with
    | again q' acts =>
      rw [ht] at hf
      have hlt := hf.2.1
      exact ih hf.1.sound (by omega) (by omega)
    | next | exit | error | abort => rfl

section Turns

variable {q q' : Core} {m : Marks} {p : Nat} {ch : UInt8} {rest : List UInt8} {acts : List Act} {e : Errno}

theorem feedAll_next (h : byteTurn q ch = .next q' acts) :
    feedAll q m p (ch :: rest) = feedAll q' (m.acts p acts) (p + 1) rest := by
  rw [feedAll, turns, feed, h]

theorem feedAll_exit (h : byteTurn q ch = .exit q' acts) :
    feedAll q m p (ch :: rest) = .stop (p + 1) q' (m.acts p acts) .ok := by
  rw [feedAll, turns, feed, h]

theorem feedAll_error (h : byteTurn q ch = .error q' acts e) :
    feedAll q m p (ch :: rest) = .stop p q' (m.acts p acts) e := by
  rw [feedAll, turns, feed, h]

theorem feedAll_again (h : byteTurn q ch = .again q' acts) (hq : q.Sound) :
    feedAll q m p (ch :: rest) = feedAll q' (m.acts p acts) p (ch :: rest) := by
  have hf := byteTurn_fits ch hq
  rw [h] at hf
  have hlt := hf.2.1
  have hle : q.state.rank < turns := rank_lt_turns q.state
  have hfeed : feed p ch turns q m = feed p ch turns q' (m.acts p acts) := by
    rw [turns, feed, h]
    exact feed_fuel hf.1.sound (by rw [turns] at hle; omega) (by rw [turns] at hle; omega)
  rw [feedAll, feedAll, hfeed]

end Turns

/-! ## Marks and callbacks -/

/-- What a callback points at lies in the first `n` bytes. -/
def Call.inside (n : Nat) : Call → Prop
  | .notify _ => True
  | .data _ ofs len => ofs + len ≤ n

/-- Marks that are not behind a place, and callbacks that point at what was read. -/
structure Marks.Within (m : Marks) (p n : Nat) : Prop where
  marks : ∀ d ofs, m.mark d = some ofs → ofs ≤ p
  calls : ∀ c ∈ m.calls, c.inside n

/-- The marks of a state. -/
def Marks.Fit (m : Marks) : Opened → Prop
  | .shut => ∀ d, m.mark d = none
  | .maybe => ∀ d, d ≠ .body → m.mark d = none
  | .set d => m.mark d ≠ none ∧ ∀ d', d' ≠ d → m.mark d' = none

theorem callback_of_none {m : Marks} {d : Datum} (h : m.mark d = none) (stop : Nat) : m.callback d stop = m := by
  rw [Marks.callback, h]

theorem callback_of_some {m : Marks} {d : Datum} {ofs : Nat} (h : m.mark d = some ofs) (stop : Nat) :
    m.callback d stop = ⟨Function.update m.mark d none, m.calls ++ [.data d ofs (stop - ofs)]⟩ := by
  rw [Marks.callback, h]

theorem callback_mark (m : Marks) (d : Datum) (stop : Nat) :
    (m.callback d stop).mark = Function.update m.mark d none := by
  cases h : m.mark d with
  | none => rw [callback_of_none h, ← h, Function.update_eq_self]
  | some ofs => rw [callback_of_some h]

namespace Marks.Within

variable {m : Marks} {p n : Nat}

theorem mono {p' n' : Nat} (h : m.Within p n) (hp : p ≤ p') (hn : n ≤ n') : m.Within p' n' := by
  refine ⟨fun d ofs hd => (h.marks d ofs hd).trans hp, fun c hc => ?_⟩
  cases c with
  | notify => trivial
  | data d ofs len => exact (h.calls _ hc).trans hn

theorem callback {stop : Nat} (h : m.Within p n) (hp : p ≤ stop) (hn : stop ≤ n) (d : Datum) :
    (m.callback d stop).Within p n := by
  cases hm : m.mark d with
  | none => rwa [callback_of_none hm]
  | some ofs =>
    rw [callback_of_some hm]
    refine ⟨fun d' ofs' hd' => ?_, fun c hc => ?_⟩
    · by_cases hdd : d' = d
      · simp only [hdd, Function.update_self] at hd'
        nomatch hd'
      · simp only [Function.update_of_ne hdd] at hd'
        exact h.marks d' ofs' hd'
    · rcases List.mem_append.mp hc with hc | hc
      · exact h.calls c hc
      · have hofs := h.marks d ofs hm
        rw [List.mem_singleton.mp hc]
        show ofs + (stop - ofs) ≤ n
        omega

theorem act (h : m.Within p (p + 1)) (a : Act) : (m.act p a).Within p (p + 1) := by
  cases a with
  | mark d =>
    simp only [Marks.act]
    split_ifs with hm
    · refine ⟨fun d' ofs hd' => ?_, h.calls⟩
      by_cases hdd : d' = d
      · simp only [hdd, Function.update_self, Option.some.injEq] at hd'
        exact hd'.ge
      · simp only [Function.update_of_ne hdd] at hd'
        exact h.marks d' ofs hd'
    · exact h
  | data d => exact h.callback (Nat.le_refl p) (Nat.le_succ p) d
  | dataWith d => exact h.callback (Nat.le_succ p) (Nat.le_refl _) d
  | notify note =>
    refine ⟨h.marks, fun c hc => ?_⟩
    rcases List.mem_append.mp hc with hc | hc
    · exact h.calls c hc
    · rw [List.mem_singleton.mp hc]
      trivial
  | clear | check => exact h

theorem acts (h : m.Within p (p + 1)) (acts : List Act) : (m.acts p acts).Within p (p + 1) := by
  induction acts generalizing m with
  | nil => exact h
  | cons a acts ih => exact ih (h.act a)

/-- The callbacks of the marks that are left point at what was read. -/
theorem flush (h : m.Within p p) : (m.flush p).Within p p := by
  have hle := Nat.le_refl p
  exact ((((h.callback hle hle _).callback hle hle _).callback hle hle _).callback hle hle _).callback hle hle _

end Marks.Within

namespace Marks.Fit

variable {m : Marks} {o o' : Opened}

/-- A mark is unset. -/
theorem callback {d : Datum} (h : ∀ d', d' ≠ d → m.mark d' = none) (stop : Nat) : (m.callback d stop).Fit .shut := by
  intro d'
  rw [callback_mark]
  by_cases hdd : d' = d
  · rw [hdd, Function.update_self]
  · rw [Function.update_of_ne hdd, h d' hdd]

/-- A mark is set where no other one is. -/
theorem mark {d : Datum} (h : ∀ d', d' ≠ d → m.mark d' = none) (p : Nat) : (m.act p (.mark d)).Fit (.set d) := by
  simp only [Marks.act]
  split_ifs with hm
  · exact ⟨by simp, fun d' hdd => (Function.update_of_ne hdd _ _).trans (h d' hdd)⟩
  · exact ⟨hm, h⟩

/-- An act keeps the marks as it moves them. -/
theorem act {a : Act} (h : m.Fit o) (ha : a.moves o = some o') (p : Nat) : (m.act p a).Fit o' := by
  unfold Act.moves at ha
  split at ha
  · exact Option.some.inj ha ▸ mark (fun d' _ => h d') p
  · exact Option.some.inj ha ▸ mark h p
  · exact Option.some.inj ha ▸ callback h p
  · split_ifs at ha with hd
    subst hd
    exact Option.some.inj ha ▸ callback h.2 p
  · split_ifs at ha with hd
    subst hd
    exact Option.some.inj ha ▸ callback h.2 (p + 1)
  · exact Option.some.inj ha ▸ h
  · exact Option.some.inj ha ▸ h
  · exact Option.some.inj ha ▸ h
  · nomatch ha

theorem acts {acts : List Act} (h : m.Fit o) (ha : acts.foldlM Act.moves o = some o') (p : Nat) :
    (m.acts p acts).Fit o' := by
  induction acts generalizing m o with
  | nil =>
    rw [List.foldlM_nil] at ha
    exact Option.some.inj ha ▸ h
  | cons a acts ih =>
    rw [List.foldlM_cons] at ha
    obtain ⟨o₁, h₁, h₂⟩ := Option.bind_eq_some_iff.mp ha
    exact ih (h.act h₁ p) h₂

theorem suits (h : m.Fit o) (ho : o.suits o' = true) : m.Fit o' := by
  unfold Opened.suits at ho
  split at ho
  · exact h
  · exact fun d _ => h d
  · exact h.2
  · exact of_decide_eq_true ho ▸ h
  · nomatch ho

theorem opened {s s' : State} {acts : List Act} (h : m.Fit s.opened) (hm : Moves s acts s') (p : Nat) :
    (m.acts p acts).Fit s'.opened := by
  obtain ⟨o, ho, hsuits⟩ := hm
  exact (h.acts ho p).suits hsuits

/-- Two marks that are set are one. -/
theorem unique (h : m.Fit o) {d d' : Datum} (hd : m.mark d ≠ none) (hd' : m.mark d' ≠ none) : d = d' := by
  cases o with
  | shut => exact absurd (h d) hd
  | maybe =>
    have hb : d = .body := not_not.mp fun hne => hd (h d hne)
    have hb' : d' = .body := not_not.mp fun hne => hd' (h d' hne)
    rw [hb, hb']
  | set d₀ =>
    have h₀ : d = d₀ := not_not.mp fun hne => hd (h.2 d hne)
    have h₀' : d' = d₀ := not_not.mp fun hne => hd' (h.2 d' hne)
    rw [h₀, h₀']

/-- At most one mark is left. -/
theorem left_length (h : m.Fit o) : m.left.length ≤ 1 := by
  have hnodup : m.left.Nodup := List.filter_sublist.nodup (by decide)
  have hmem : ∀ d ∈ m.left, m.mark d ≠ none := fun d hd => Option.isSome_iff_ne_none.mp (List.mem_filter.mp hd).2
  match hl : m.left with
  | [] => exact Nat.zero_le 1
  | [d] => exact Nat.le_refl 1
  | d :: d' :: l =>
    rw [hl] at hnodup hmem
    have heq : d = d' := h.unique (hmem d (by simp)) (hmem d' (by simp))
    rw [heq] at hnodup
    exact absurd List.mem_cons_self (List.nodup_cons.mp hnodup).1

end Marks.Fit

/-- The marks a call begins with. -/
theorem startMarks_fit (s : State) : s.startMarks.Fit s.opened := by
  have hnone : ∀ d, s.startMark ≠ some d → s.startMarks.mark d = none := fun d hd => if_neg hd
  cases hs : s.startMark with
  | some d =>
    rw [opened_of_startMark hs]
    refine ⟨?_, fun d' hd' => hnone d' fun h => hd' (Option.some.inj (hs.symm.trans h)).symm⟩
    simp [State.startMarks, hs]
  | none =>
    have hall : ∀ d, s.startMarks.mark d = none := fun d => hnone d (by rw [hs]; nofun)
    unfold State.opened
    split
    · exact fun d _ => hall d
    · exact fun d _ => hall d
    · exact fun d _ => hall d
    · exact fun d _ => hall d
    · rw [hs]
      exact hall

theorem startMarks_within (s : State) : s.startMarks.Within 0 0 := by
  refine ⟨fun d ofs hd => ?_, fun c hc => nomatch hc⟩
  simp only [State.startMarks] at hd
  split_ifs at hd
  exact (Option.some.inj hd).ge

/-! ## Where bytes lead -/

/-- What holds where bytes lead from a sound parser. -/
def Course.Fits (n : Nat) : Course → Prop
  | .on q m => q.Sound ∧ m.Fit q.state.opened ∧ m.Within n n
  | .stop k q m e => k ≤ n ∧ e ≠ .headerOverflow ∧ (e = .ok → q.Sound ∧ q.state ≠ .chunkSizeStart) ∧ (e ≠ .ok → k < n) ∧
      ∀ c ∈ m.calls, c.inside n
  | .abort => False

theorem Course.Fits.mono {n n' : Nat} {q : Core} {m : Marks} {k : Nat} {e : Errno} (h : (Course.stop k q m e).Fits n)
    (hn : n ≤ n') :
    (Course.stop k q m e).Fits n' := by
  obtain ⟨hk, he, hq, hlt, hc⟩ := h
  refine ⟨hk.trans hn, he, hq, fun h => (hlt h).trans_le hn, fun c hm => ?_⟩
  cases c with
  | notify => trivial
  | data d ofs len => exact (hc _ hm).trans hn

theorem feed_fits {p : Nat} (ch : UInt8) {fuel : Nat} {q : Core} {m : Marks} (hq : q.Sound)
    (hfuel : q.state.rank < fuel)
    (hm : m.Fit q.state.opened) (hw : m.Within p (p + 1)) : (feed p ch fuel q m).Fits (p + 1) := by
  induction fuel generalizing q m with
  | zero => nomatch hfuel
  | succ fuel ih =>
    have hf := byteTurn_fits ch hq
    unfold feed
    cases ht : byteTurn q ch with
    | next q' acts =>
      rw [ht] at hf
      exact ⟨hf.sound, hm.opened hf.moves p, (hw.acts acts).mono (Nat.le_succ p) (Nat.le_refl _)⟩
    | again q' acts =>
      rw [ht] at hf
      have hlt := hf.2.1
      exact ih hf.1.sound (by omega) (hm.opened hf.1.moves p) (hw.acts acts)
    | exit q' acts =>
      rw [ht] at hf
      exact ⟨Nat.le_refl _, nofun, fun _ => ⟨hf.1.sound, hf.2.1⟩, fun h => absurd rfl h, (hw.acts acts).calls⟩
    | error q' acts e =>
      rw [ht] at hf
      exact ⟨Nat.le_succ p, hf.2.2, fun h => absurd h hf.2.1, fun _ => Nat.lt_succ_self p, (hw.acts acts).calls⟩
    | abort =>
      rw [ht] at hf
      exact hf

/-- Bytes lead on, or to a return. -/
theorem feedAll_fits (bytes : List UInt8) {q : Core} {m : Marks} {p : Nat} (hq : q.Sound) (hm : m.Fit q.state.opened)
    (hw : m.Within p p) : (feedAll q m p bytes).Fits (p + bytes.length) := by
  induction bytes generalizing q m p with
  | nil => exact ⟨hq, hm, hw⟩
  | cons ch rest ih =>
    have hf := feed_fits ch hq (rank_lt_turns q.state) hm (hw.mono (Nat.le_refl p) (Nat.le_succ p))
    rw [feedAll, List.length_cons, ← Nat.add_assoc, Nat.add_right_comm]
    cases ht : feed p ch turns q m with
    | on q' m' =>
      rw [ht] at hf
      exact ih hf.1 hf.2.1 hf.2.2
    | stop k q' m' e =>
      rw [ht] at hf
      exact hf.mono (Nat.le_add_right _ _)
    | abort =>
      rw [ht] at hf
      exact hf

end ZeroServ.Parser
