import Mathlib.Data.List.Nodup

/-!
# Singly linked chains

A chain over a successor function: the nodes met from a start, in their order, up to where there is no successor. A
chain has no node twice. Inserting in front and taking a node out change the start or one successor.
-/

/-- The nodes met from a start. -/
def Chain {α : Type*} (nx : α → Option α) : Option α → List α → Prop
  | s, [] => s = none
  | s, p :: l => s = some p ∧ Chain nx (nx p) l

namespace Chain

/-- What a node leads to, or the start where there is no node. -/
def follow {α : Type*} (nx : α → Option α) (s : Option α) : Option α → Option α
  | none => s
  | some q => nx q

variable {α : Type*} {nx nx' : α → Option α} {s : Option α} {p : α} {a b l : List α}

theorem head_eq (h : Chain nx s l) : s = l.head? := by
  cases l with
  | nil => exact h
  | cons p l => exact h.1

/-- A chain depends on the successors of its own nodes. -/
theorem congr (h : Chain nx s l) (hnx : ∀ q ∈ l, nx' q = nx q) : Chain nx' s l := by
  induction l generalizing s with
  | nil => exact h
  | cons q l ih =>
    refine ⟨h.1, ?_⟩
    rw [hnx q List.mem_cons_self]
    exact ih h.2 fun r hr => hnx r (List.mem_cons_of_mem _ hr)

theorem unique (h : Chain nx s a) (h' : Chain nx s b) : a = b := by
  induction a generalizing s b with
  | nil =>
    obtain rfl : s = none := h
    cases b with
    | nil => rfl
    | cons q b => exact absurd h'.1 (by simp)
  | cons p a ih =>
    cases b with
    | nil =>
      obtain rfl : s = none := h'
      exact absurd h.1 (by simp)
    | cons q b =>
      obtain rfl := Option.some.inj (h.1.symm.trans h'.1)
      rw [ih h.2 h'.2]

/-- The chain from a node on the way. -/
theorem drop (h : Chain nx s (a ++ b)) : ∃ t, Chain nx t b := by
  induction a generalizing s with
  | nil => exact ⟨s, h⟩
  | cons q a ih => exact ih h.2

theorem nodup (h : Chain nx s l) : l.Nodup := by
  induction l generalizing s with
  | nil => exact List.nodup_nil
  | cons p l ih =>
    refine List.nodup_cons.mpr ⟨fun hp => ?_, ih h.2⟩
    -- were the node met again, what follows it there would be what follows it here
    obtain ⟨a, b, rfl⟩ := List.append_of_mem hp
    obtain ⟨t, ht⟩ := drop h.2
    have hlen := congrArg List.length (unique ht.2 h.2)
    simp only [List.length_append, List.length_cons] at hlen
    omega

theorem not_mem (h : Chain nx s (a ++ p :: b)) : p ∉ a ++ b := (List.nodup_cons.mp (List.nodup_middle.mp h.nodup)).1

/-- What the start, or the last node of a first part, leads to is the first node of what follows. -/
theorem head?_rest (h : Chain nx s (a ++ b)) : follow nx s a.getLast? = b.head? := by
  induction a generalizing s with
  | nil => exact head_eq h
  | cons q a ih =>
    have hrest := ih h.2
    rw [List.getLast?_cons]
    cases hl : a.getLast? with
    | none =>
      rw [hl] at hrest
      exact hrest
    | some r =>
      rw [hl] at hrest
      exact hrest

/-- A new node in front. -/
theorem cons_new (h : Chain nx s l) (hp : nx' p = s) (hnx : ∀ q ∈ l, nx' q = nx q) : Chain nx' (some p) (p :: l) := by
  refine ⟨rfl, ?_⟩
  rw [hp]
  exact h.congr hnx

/-- A node taken out: the start, or the successor of the node before it, is now its own successor. -/
theorem remove [DecidableEq α] (h : Chain nx s (a ++ p :: b))
    (hnx : ∀ q ∈ a ++ b, nx' q = if a.getLast? = some q then nx p else nx q) :
    Chain nx' (if a = [] then nx p else s) (a ++ b) := by
  induction a generalizing s with
  | nil => exact h.2.congr fun q hq => (hnx q hq).trans (if_neg (by simp))
  | cons q a ih =>
    obtain ⟨hq, -⟩ := List.nodup_cons.mp h.nodup
    have hnq := hnx q List.mem_cons_self
    rw [if_neg (List.cons_ne_nil q a)]
    refine ⟨h.1, ?_⟩
    have hrest := ih h.2 fun r hr => ?_
    · cases a with
      | nil => simpa [hnq] using hrest
      | cons r a =>
        -- the node before the one taken out is further on
        have hlast : (q :: r :: a).getLast? ≠ some q := by
          rw [List.getLast?_cons_cons]
          exact fun hl => hq (List.mem_append_left _ (List.mem_of_getLast? hl))
        rwa [hnq, if_neg hlast]
    · rw [hnx r (List.mem_cons_of_mem _ hr)]
      cases a with
      | nil =>
        refine (if_neg fun hl => ?_).trans (if_neg (by simp)).symm
        have hrq : r = q := by simpa using hl.symm
        exact hq (by simp [← hrq, show r ∈ b from hr])
      | cons t a => rw [List.getLast?_cons_cons]

end Chain
