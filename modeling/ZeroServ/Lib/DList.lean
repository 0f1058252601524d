import Mathlib.Data.List.Nodup

/-!
# Doubly linked lists

The nodes of a list that is linked both ways, between a head and a tail pointer. Pushing a node in front and
unlinking one change the pointers of its neighbours only, which the two theorems state for any successor and
predecessor functions that agree with that.
-/

/-- The nodes are linked both ways; `b` is what the first has before it and `e` what the last has after it. -/
def DSeg {α : Type*} (nx pv : α → Option α) : Option α → List α → Option α → Prop
  | _, [], _ => True
  | b, p :: l, e => pv p = b ∧ nx p = l.head?.or e ∧ DSeg nx pv (some p) l e

/-- A doubly linked list between its head and its tail. -/
structure DList {α : Type*} (nx pv : α → Option α) (head tail : Option α) (l : List α) : Prop where
  nodup : l.Nodup
  head_eq : head = l.head?
  tail_eq : tail = l.getLast?
  seg : DSeg nx pv none l none

variable {α : Type*} [DecidableEq α] {nx pv nx' pv' : α → Option α} {b e : Option α} {p : α} {l l₁ l₂ : List α}

namespace DSeg

omit [DecidableEq α] in
theorem congr (h : DSeg nx pv b l e) (hn : ∀ q ∈ l, nx' q = nx q) (hp : ∀ q ∈ l, pv' q = pv q) :
    DSeg nx' pv' b l e := by
  induction l generalizing b with
  | nil => trivial
  | cons q l ih =>
    refine ⟨?_, ?_, ih h.2.2 (fun r hr => hn r (List.mem_cons_of_mem _ hr)) fun r hr =>
      hp r (List.mem_cons_of_mem _ hr)⟩
    · rw [hp q List.mem_cons_self, h.1]
    · rw [hn q List.mem_cons_self, h.2.1]

omit [DecidableEq α] in
theorem append_iff : DSeg nx pv b (l₁ ++ l₂) e ↔
    DSeg nx pv b l₁ (l₂.head?.or e) ∧ DSeg nx pv (l₁.getLast?.or b) l₂ e := by
  induction l₁ generalizing b with
  | nil => simp [DSeg]
  | cons p l₁ ih =>
    have hlast : (p :: l₁).getLast?.or b = l₁.getLast?.or (some p) := by
      cases l₁ with
      | nil => simp
      | cons q l₁ => rw [List.getLast?_cons_cons, List.getLast?_cons, Option.some_or, Option.some_or]
    simp only [List.cons_append, DSeg, ih, hlast, List.head?_append, Option.or_assoc]
    constructor
    · rintro ⟨hp, hn, h₁, h₂⟩
      exact ⟨⟨hp, hn, h₁⟩, h₂⟩
    · rintro ⟨⟨hp, hn, h₁⟩, h₂⟩
      exact ⟨hp, hn, h₁, h₂⟩

/-- Another successor for the last node. -/
theorem set_end (h : DSeg nx pv b l e) {e' : Option α} (hnodup : l.Nodup)
    (hn : ∀ q ∈ l, nx' q = if l.getLast? = some q then e' else nx q) (hp : ∀ q ∈ l, pv' q = pv q) :
    DSeg nx' pv' b l e' := by
  induction l generalizing b with
  | nil => trivial
  | cons q l ih =>
    obtain ⟨hq, hnodup⟩ := List.nodup_cons.mp hnodup
    refine ⟨by rw [hp q List.mem_cons_self, h.1], ?_,
      ih h.2.2 hnodup (fun r hr => ?_) fun r hr => hp r (List.mem_cons_of_mem _ hr)⟩
    · rw [hn q List.mem_cons_self]
      cases l with
      | nil => simp
      | cons r l =>
        have hlast : (q :: r :: l).getLast? ≠ some q := by
          rw [List.getLast?_cons_cons]
          exact fun hlast => hq (List.mem_of_getLast? hlast)
        rw [if_neg hlast, h.2.1]
        rfl
    · rw [hn r (List.mem_cons_of_mem _ hr)]
      cases l with
      | nil => nomatch hr
      | cons s l => rw [List.getLast?_cons_cons]

/-- Another predecessor for the first node. -/
theorem set_start (h : DSeg nx pv b l e) {b' : Option α} (hnodup : l.Nodup) (hn : ∀ q ∈ l, nx' q = nx q)
    (hp : ∀ q ∈ l, pv' q = if l.head? = some q then b' else pv q) : DSeg nx' pv' b' l e := by
  cases l with
  | nil => trivial
  | cons q l =>
    obtain ⟨hq, -⟩ := List.nodup_cons.mp hnodup
    refine ⟨by rw [hp q List.mem_cons_self]; simp, by rw [hn q List.mem_cons_self, h.2.1], ?_⟩
    refine h.2.2.congr (fun r hr => hn r (List.mem_cons_of_mem _ hr)) fun r hr => ?_
    have hne : q ≠ r := fun he => hq (he ▸ hr)
    rw [hp r (List.mem_cons_of_mem _ hr), List.head?_cons, if_neg (by simpa using hne)]

end DSeg

namespace DList

variable {head tail : Option α}

omit [DecidableEq α] in
/-- The head is empty exactly when the tail is. -/
theorem head_isSome (h : DList nx pv head tail l) : head.isSome = tail.isSome := by
  rw [h.head_eq, h.tail_eq]
  cases l <;> simp

omit [DecidableEq α] in
theorem congr (h : DList nx pv head tail l) (hn : ∀ q ∈ l, nx' q = nx q) (hp : ∀ q ∈ l, pv' q = pv q) :
    DList nx' pv' head tail l :=
  ⟨h.nodup, h.head_eq, h.tail_eq, h.seg.congr hn hp⟩

/-- A new node in front of the head. -/
theorem push (h : DList nx pv head tail l) (hp : p ∉ l) (hnp : nx' p = head) (hpp : pv' p = none)
    (hn : ∀ q ∈ l, nx' q = nx q)
    (hpv : ∀ q ∈ l, pv' q = if head = some q then some p else pv q) :
    DList nx' pv' (some p) (tail.or (some p)) (p :: l) where
  nodup := List.nodup_cons.mpr ⟨hp, h.nodup⟩
  head_eq := rfl
  tail_eq := by
    rw [h.tail_eq]
    cases l with
    | nil => rfl
    | cons q l => simp [List.getLast?_cons]
  seg := by
    refine ⟨hpp, by simpa [← h.head_eq] using hnp, ?_⟩
    rw [h.head_eq] at hpv
    exact h.seg.set_start h.nodup hn hpv

omit [DecidableEq α] in
/-- What a node has before and after it. -/
theorem neighbours (h : DList nx pv head tail (l₁ ++ p :: l₂)) : pv p = l₁.getLast? ∧ nx p = l₂.head? := by
  obtain ⟨-, hp, hn, -⟩ := DSeg.append_iff.mp h.seg
  simp only [Option.or_none] at hp hn
  exact ⟨hp, hn⟩

omit [DecidableEq α] in
/-- A node is not met a second time. -/
theorem not_mem (h : DList nx pv head tail (l₁ ++ p :: l₂)) : p ∉ l₁ ++ l₂ :=
  (List.nodup_cons.mp (List.nodup_middle.mp h.nodup)).1

/-- A node unlinked: its neighbours, and the head and the tail where they point at it, take its pointers over. -/
theorem remove (h : DList nx pv head tail (l₁ ++ p :: l₂))
    (hn : ∀ q ∈ l₁ ++ l₂, nx' q = if pv p = some q then nx p else nx q)
    (hpv : ∀ q ∈ l₁ ++ l₂, pv' q = if nx p = some q then pv p else pv q) :
    DList nx' pv' (if head = some p then nx p else head) (if tail = some p then pv p else tail) (l₁ ++ l₂) := by
  obtain ⟨hpre, hnext⟩ := h.neighbours
  have hnodup : (l₁ ++ l₂).Nodup := h.nodup.sublist (by simp)
  obtain ⟨hnd₁, hnd₂, hdis⟩ := List.nodup_append.mp hnodup
  have hp := h.not_mem
  obtain ⟨hs₁, -, -, hs₂⟩ := DSeg.append_iff.mp h.seg
  refine ⟨hnodup, ?_, ?_, DSeg.append_iff.mpr ⟨?_, ?_⟩⟩
  · rw [h.head_eq, hnext]
    cases l₁ with
    | nil => simp
    | cons q l₁ =>
      have hqp : q ≠ p := fun he => hp (he ▸ by simp)
      simp [hqp]
  · rw [h.tail_eq, hpre]
    cases hl : l₂.getLast? with
    | none =>
      rw [List.getLast?_eq_none_iff] at hl
      simp [hl]
    | some q =>
      have hqp : q ≠ p := fun he => hp (he ▸ List.mem_append_right _ (List.mem_of_getLast? hl))
      have hcons : (p :: l₂).getLast? = some q := by
        rw [List.getLast?_cons, hl]
        rfl
      rw [List.getLast?_append, List.getLast?_append, hcons, hl, Option.some_or, if_neg (by simpa using hqp)]
  · refine hs₁.set_end hnd₁ (fun q hq => ?_) fun q hq => ?_
    · rw [hn q (List.mem_append_left _ hq), hpre, hnext, Option.or_none]
    · rw [hpv q (List.mem_append_left _ hq), hnext]
      refine if_neg fun hh => ?_
      exact hdis q hq q (List.mem_of_head? hh) rfl
  · refine hs₂.set_start hnd₂ (fun q hq => ?_) fun q hq => ?_
    · rw [hn q (List.mem_append_right _ hq), hpre]
      refine if_neg fun hh => ?_
      exact hdis q (List.mem_of_getLast? hh) q hq rfl
    · rw [hpv q (List.mem_append_right _ hq), hpre, hnext, Option.or_none]

end DList
