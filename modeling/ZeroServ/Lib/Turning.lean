/-!
# Stacks that are turned around

New elements are put in front of a list, and now and then the whole list is turned around. What is in it is then its
elements that were turned around an even number of times since, the newest first, and behind them the others, the
oldest first. Elements that are put elsewhere (they do not meet `p`) count for the turns only.
-/

namespace Turning

variable {ι : Type} (turns : List ι → ι → Bool) (p : ι → Bool)

/-- The list after elements came, the newest of them first; `turns` says whether it is turned around when one comes
after others. -/
def stack : List ι → List ι
  | [] => []
  | e :: older =>
    let l := if p e then e :: stack older else stack older
    if turns older e then l.reverse else l

/-- The elements that came, the newest first, each with whether the list was turned around an odd number of times
since. -/
def marked : List ι → List (ι × Bool)
  | [] => []
  | e :: older => (e, turns older e) :: (marked older).map fun m => (m.1, m.2 ^^ turns older e)

/-- The list that the marks describe. -/
def unmark (l : List (ι × Bool)) : List ι := (l.filter (!·.2)).map (·.1) ++ ((l.filter (·.2)).map (·.1)).reverse

variable {turns p}

theorem unmark_cons_false (e : ι) (l : List (ι × Bool)) : unmark ((e, false) :: l) = e :: unmark l := by simp [unmark]

theorem unmark_cons_true (e : ι) (l : List (ι × Bool)) : unmark ((e, true) :: l) = unmark l ++ [e] := by simp [unmark]

/-- Where all marks change, the list is turned around. -/
theorem unmark_not (l : List (ι × Bool)) : unmark (l.map fun m => (m.1, !m.2)) = (unmark l).reverse := by
  induction l with
  | nil => rfl
  | cons m l ih =>
    obtain ⟨e, b⟩ := m
    cases b
    · rw [List.map_cons, unmark_cons_false, List.reverse_cons, ← ih]
      exact unmark_cons_true e _
    · rw [List.map_cons, unmark_cons_true, List.reverse_append, ← ih]
      exact unmark_cons_false e _

/-- The marks that are counted for each element change with a turn. -/
theorem filter_marked_map (b : Bool) (l : List (ι × Bool)) :
    (l.map fun m => (m.1, m.2 ^^ b)).filter (p ·.1) = (l.filter (p ·.1)).map fun m => (m.1, m.2 ^^ b) := by
  rw [List.filter_map]
  rfl

/-- The list is what the marks describe. -/
theorem stack_eq (es : List ι) : stack turns p es = unmark ((marked turns es).filter (p ·.1)) := by
  induction es with
  | nil => rfl
  | cons e older ih =>
    rw [stack, marked, List.filter_cons, filter_marked_map, ih]
    generalize (marked turns older).filter (p ·.1) = l
    cases turns older e <;> cases p e
    · simp
    · simp [unmark_cons_false]
    · simp [← unmark_not]
    · simp [← unmark_not, unmark_cons_true]

theorem unmark_eq_nil_iff {l : List (ι × Bool)} : unmark l = [] ↔ l = [] := by
  constructor
  · intro h
    cases l with
    | nil => rfl
    | cons m l =>
      obtain ⟨e, b⟩ := m
      cases b
      · rw [unmark_cons_false] at h
        cases h
      · rw [unmark_cons_true] at h
        exact absurd h (by simp)
  · rintro rfl
    rfl

/-- The front of the list is the newest of the elements that stand as they were put; where all are turned around, the
oldest one. -/
theorem head_unmark_iff {l : List (ι × Bool)} {e : ι} : (unmark l).head? = some e ↔
    ∃ newer b older, l = newer ++ (e, b) :: older ∧ (∀ m ∈ newer, m.2 = true) ∧ (b = false ∨ older = []) := by
  induction l with
  | nil => simp [unmark]
  | cons m l ih =>
    obtain ⟨x, b⟩ := m
    cases b with
    | false =>
      rw [unmark_cons_false, List.head?_cons, Option.some.injEq]
      constructor
      · rintro rfl
        exact ⟨[], false, l, rfl, by simp, .inl rfl⟩
      · rintro ⟨newer, b, older, hl, hnewer, -⟩
        cases newer with
        | nil =>
          obtain ⟨heq, -⟩ := List.cons.inj hl
          exact (Prod.mk.inj heq).1
        | cons m newer =>
          obtain ⟨rfl, -⟩ := List.cons.inj hl
          exact absurd (hnewer _ List.mem_cons_self) (by simp)
    | true =>
      rw [unmark_cons_true, List.head?_append]
      cases hl : unmark l with
      | nil =>
        obtain rfl := unmark_eq_nil_iff.mp hl
        simp only [List.head?_nil, Option.none_or, List.head?_cons, Option.some.injEq]
        constructor
        · rintro rfl
          exact ⟨[], true, [], rfl, by simp, .inr rfl⟩
        · rintro ⟨newer, b, older, heq, -⟩
          cases newer with
          | nil => exact (Prod.mk.inj (List.cons.inj heq).1).1
          | cons m newer => exact absurd (List.cons.inj heq).2 (by simp)
      | cons y ys =>
        rw [hl] at ih
        rw [List.head?_cons] at ih ⊢
        rw [Option.some_or, ih]
        constructor
        · rintro ⟨newer, b, older, rfl, hnewer, hb⟩
          exact ⟨(x, true) :: newer, b, older, rfl, by simpa using hnewer, hb⟩
        · rintro ⟨newer, b, older, heq, hnewer, hb⟩
          cases newer with
          | nil =>
            obtain ⟨hhead, rfl⟩ := List.cons.inj heq
            obtain ⟨rfl, rfl⟩ := Prod.mk.inj hhead
            obtain rfl := hb.resolve_left (by decide)
            cases hl
          | cons m newer =>
            obtain ⟨-, rfl⟩ := List.cons.inj heq
            exact ⟨newer, b, older, rfl, fun m hm => hnewer m (List.mem_cons_of_mem _ hm), hb⟩

/-- The front of the list, by the marks of all that came. -/
theorem head_stack_iff {es : List ι} {e : ι} : (stack turns p es).head? = some e ↔
    ∃ newer b older, marked turns es = newer ++ (e, b) :: older ∧ p e = true ∧
    (∀ m ∈ newer, p m.1 = true → m.2 = true) ∧
      (b = false ∨ ∀ m ∈ older, p m.1 = false) := by
  rw [stack_eq, head_unmark_iff]
  constructor
  · rintro ⟨newer, b, older, hsplit, hnewer, hb⟩
    obtain ⟨l₁, l₂, hl, rfl, hsecond⟩ := List.filter_eq_append_iff.mp hsplit
    obtain ⟨l₃, l₄, rfl, hnone, hp, rfl⟩ := List.filter_eq_cons_iff.mp hsecond
    refine ⟨l₁ ++ l₃, b, l₄, by rw [hl, List.append_assoc], hp, ?_, hb.imp_right fun hnil m hm => ?_⟩
    · intro m hm hpm
      rcases List.mem_append.mp hm with hm | hm
      · exact hnewer m (List.mem_filter.mpr ⟨hm, hpm⟩)
      · exact absurd hpm (hnone m hm)
    · exact Bool.eq_false_iff.mpr (List.filter_eq_nil_iff.mp hnil m hm)
  · rintro ⟨newer, b, older, hsplit, hp, hnewer, hb⟩
    refine ⟨newer.filter (p ·.1), b, older.filter (p ·.1), ?_, fun m hm => ?_, hb.imp_right fun hnone => ?_⟩
    · rw [hsplit, List.filter_append, List.filter_cons_of_pos (a := (e, b)) hp]
    · obtain ⟨hm, hpm⟩ := List.mem_filter.mp hm
      exact hnewer m hm hpm
    · exact List.filter_eq_nil_iff.mpr fun m hm => by simp [hnone m hm]

theorem mem_stack_iff {es : List ι} {e : ι} : e ∈ stack turns p es ↔ e ∈ es ∧ p e = true := by
  induction es with
  | nil => simp [stack]
  | cons x older ih =>
    have hstack : e ∈ stack turns p (x :: older) ↔
        e ∈ if p x then x :: stack turns p older else stack turns p older := by
      rw [stack]
      split <;> simp
    rw [hstack]
    cases hx : p x
    · simp only [Bool.false_eq_true, if_false, ih, List.mem_cons]
      refine ⟨fun h => ⟨.inr h.1, h.2⟩, fun ⟨h, he⟩ => ⟨h.resolve_left ?_, he⟩⟩
      rintro rfl
      rw [hx] at he
      cases he
    · simp only [if_true, List.mem_cons, ih]
      constructor
      · rintro (rfl | h)
        · exact ⟨.inl rfl, hx⟩
        · exact ⟨.inr h.1, h.2⟩
      · rintro ⟨rfl | h, he⟩
        · exact .inl rfl
        · exact .inr ⟨h, he⟩

end Turning
