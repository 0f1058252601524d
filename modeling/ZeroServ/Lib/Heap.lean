import Mathlib.Data.List.Perm.Subperm
import Mathlib.Data.List.Nodup

/-!
# A heap of cells

Addresses and what is stored at them. An address without a cell is not allocated, and reading it gives `none`.
`count` bounds the length of any list of distinct allocated addresses, so that a walk along pointers that takes more
steps meets a cell twice.
-/

/-- The allocated cells of a heap. -/
structure Heap (α : Type*) where
  cells : List (Nat × α)

namespace Heap

variable {α : Type*} (h : Heap α)

/-- The cell at an address. -/
def get (p : Nat) : Option α := h.cells.lookup p

/-- Change the cell at an address, if there is one. -/
def modify (p : Nat) (f : α → α) : Heap α where
  cells := h.cells.map fun c => if c.1 = p then (c.1, f c.2) else c

/-- A cell at an address that has none. -/
def alloc (p : Nat) (a : α) : Heap α where
  cells := (p, a) :: h.cells

/-- The heap without the cell at an address. -/
def free (p : Nat) : Heap α where
  cells := h.cells.filter fun c => c.1 ≠ p

/-- How many cells there are. -/
def count : Nat := h.cells.length

variable {h}

theorem lookup_map_modify (l : List (Nat × α)) (p : Nat) (f : α → α) (q : Nat) :
    (l.map fun c => if c.1 = p then (c.1, f c.2) else c).lookup q = (l.lookup q).map fun a =>
      if q = p then f a else a := by
  induction l with
  | nil => rfl
  | cons c l ih =>
    obtain ⟨r, a⟩ := c
    rw [List.map_cons]
    by_cases hq : q = r
    · subst hq
      by_cases hp : q = p <;> simp [hp]
    · by_cases hp : r = p
      · simp [hp, List.lookup_cons, beq_false_of_ne (hp ▸ hq), ih]
      · simp [hp, List.lookup_cons, beq_false_of_ne hq, ih]

theorem get_modify (p : Nat) (f : α → α) (q : Nat) :
    (h.modify p f).get q = (h.get q).map fun a => if q = p then f a else a :=
  lookup_map_modify h.cells p f q

@[simp] theorem get_modify_self (p : Nat) (f : α → α) : (h.modify p f).get p = (h.get p).map f := by
  simp [get_modify]

theorem get_modify_of_ne {p q : Nat} (hq : q ≠ p) (f : α → α) : (h.modify p f).get q = h.get q := by
  simp [get_modify, hq]

theorem get_alloc (p : Nat) (a : α) (q : Nat) : (h.alloc p a).get q = if q = p then some a else h.get q := by
  by_cases hq : q = p
  · simp [get, alloc, hq]
  · simp [get, alloc, hq, List.lookup_cons, beq_false_of_ne hq]

@[simp] theorem get_alloc_self (p : Nat) (a : α) : (h.alloc p a).get p = some a := by
  simp [get_alloc]

theorem get_alloc_of_ne {p q : Nat} (hq : q ≠ p) (a : α) : (h.alloc p a).get q = h.get q := by
  simp [get_alloc, hq]

theorem lookup_filter_ne (l : List (Nat × α)) (p q : Nat) :
    (l.filter fun c => c.1 ≠ p).lookup q = if q = p then none else l.lookup q := by
  induction l with
  | nil => simp
  | cons c l ih =>
    obtain ⟨r, a⟩ := c
    by_cases hr : r = p
    · subst hr
      rw [List.filter_cons_of_neg (by simp), ih]
      by_cases hq : q = r
      · simp [hq]
      · simp [hq, List.lookup_cons, beq_false_of_ne hq]
    · rw [List.filter_cons_of_pos (by simp [hr])]
      by_cases hq : q = r
      · subst hq
        simp [hr]
      · rw [List.lookup_cons, beq_false_of_ne hq, ih, List.lookup_cons, beq_false_of_ne hq]

theorem get_free (p q : Nat) : (h.free p).get q = if q = p then none else h.get q :=
  lookup_filter_ne h.cells p q

@[simp] theorem get_free_self (p : Nat) : (h.free p).get p = none := by
  simp [get_free]

theorem get_free_of_ne {p q : Nat} (hq : q ≠ p) : (h.free p).get q = h.get q := by
  simp [get_free, hq]

@[simp] theorem count_modify (p : Nat) (f : α → α) : (h.modify p f).count = h.count := by
  simp [count, modify]

/-- Distinct allocated addresses are no more than the cells. -/
theorem length_le_count {l : List Nat} (hnodup : l.Nodup) (hlive : ∀ p ∈ l, h.get p ≠ none) : l.length ≤ h.count := by
  have hsub : l ⊆ h.cells.map Prod.fst := by
    intro p hp
    by_contra hno
    refine hlive p hp (List.lookup_eq_none_iff.mpr fun c hc => ?_)
    rw [bne_iff_ne]
    rintro rfl
    exact hno (List.mem_map_of_mem hc)
  have hle := (List.subperm_of_subset hnodup hsub).length_le
  rwa [List.length_map] at hle

end Heap
