import Mathlib.Data.List.Nodup
import Mathlib.Data.List.Perm.Basic

/-!
# A relation kept on both sides

A relation between things of two kinds that each side keeps for itself: every thing has a list of those of the other
kind it is related to. `Mirror` says that the two tables agree, list what exists and list nothing twice. It is kept
where both lists of a pair are written together, and where a thing that is related to nothing comes or goes.
-/

namespace Mirror

variable {α β : Type*}

/-- A write to the list of one key. -/
def setAt [DecidableEq α] (key : α) (f : List β → List β) (table : List (α × List β)) : List (α × List β) :=
  table.map fun row => if row.1 = key then (row.1, f row.2) else row

/-- One side: a row for each thing, and on it, once each, things that the other side has a row for. -/
structure Side (table : List (α × List β)) (other : List (β × List α)) : Prop where
  keys : (table.map Prod.fst).Nodup
  nodup : ∀ row ∈ table, row.2.Nodup
  live : ∀ row ∈ table, ∀ b ∈ row.2, b ∈ other.map Prod.fst

end Mirror

open Mirror in
/-- Two tables that keep one relation. -/
structure Mirror {α β : Type*} (left : List (α × List β)) (right : List (β × List α)) : Prop where
  onLeft : Side left right
  onRight : Side right left
  agree : ∀ l ∈ left, ∀ r ∈ right, r.1 ∈ l.2 ↔ l.1 ∈ r.2

namespace Mirror

variable {α β : Type*} {left : List (α × List β)} {right : List (β × List α)} {a : α} {b : β}

theorem symm (h : Mirror left right) : Mirror right left :=
  ⟨h.onRight, h.onLeft, fun r hr l hl => (h.agree l hl r hr).symm⟩

theorem nil : Mirror ([] : List (α × List β)) [] := ⟨⟨.nil, nofun, nofun⟩, ⟨.nil, nofun, nofun⟩, nofun⟩

/-! ## Writes to a list -/

section writes

variable [DecidableEq α]

@[simp] theorem map_fst_setAt (key : α) (f : List β → List β) (table : List (α × List β)) :
    (setAt key f table).map Prod.fst = table.map Prod.fst := by
  rw [setAt, List.map_map]
  refine List.map_congr_left fun row _ => ?_
  dsimp only [Function.comp_apply]
  split <;> rfl

/-- A row after a write is one before it, with its list written if it is that of the key. -/
theorem mem_setAt {key : α} {f : List β → List β} {table : List (α × List β)} {row : α × List β} :
    row ∈ setAt key f table ↔ ∃ old ∈ table, row = (old.1, if old.1 = key then f old.2 else old.2) := by
  rw [setAt, List.mem_map]
  constructor
  · rintro ⟨old, hold, rfl⟩
    refine ⟨old, hold, ?_⟩
    split <;> rfl
  · rintro ⟨old, hold, rfl⟩
    refine ⟨old, hold, ?_⟩
    split <;> rfl

theorem Side.setAt {f : List β → List β} {right' : List (β × List α)} (h : Side left right)
    (hkeys : right'.map Prod.fst = right.map Prod.fst) (hnodup : ∀ row ∈ left, row.1 = a → (f row.2).Nodup)
    (hlive : ∀ row ∈ left, row.1 = a → ∀ b ∈ f row.2, b ∈ right.map Prod.fst) : Side (setAt a f left) right' := by
  refine ⟨by rw [map_fst_setAt]; exact h.keys, ?_, ?_⟩
  · intro row hrow
    obtain ⟨old, hold, rfl⟩ := mem_setAt.mp hrow
    dsimp only
    split
    · next he => exact hnodup old hold he
    · exact h.nodup old hold
  · intro row hrow b hb
    obtain ⟨old, hold, rfl⟩ := mem_setAt.mp hrow
    dsimp only at hb
    rw [hkeys]
    split at hb
    · next he => exact hlive old hold he b hb
    · exact h.live old hold b hb

end writes

/-- Rows of one key are one row. -/
theorem Side.unique {l l' : α × List β} (h : Side left right) (hl : l ∈ left) (hl' : l' ∈ left)
    (he : l.1 = l'.1) : l = l' :=
  List.inj_on_of_nodup_map h.keys hl hl' he

variable [DecidableEq α] [DecidableEq β]

/-- Two things that were not related are related, on both sides. -/
theorem link (h : Mirror left right) {bs : List β} (hl : (a, bs) ∈ left) (hb : b ∈ right.map Prod.fst) (hno : b ∉ bs) :
    Mirror (setAt a (· ++ [b]) left) (setAt b (· ++ [a]) right) := by
  have hrow : ∀ l ∈ left, l.1 = a → b ∉ l.2 := fun l hl' he => h.onLeft.unique hl' hl he ▸ hno
  have hroll : ∀ r ∈ right, r.1 = b → a ∉ r.2 := fun r hr he ha => hno (he ▸ (h.agree _ hl r hr).mpr ha)
  refine ⟨h.onLeft.setAt (map_fst_setAt ..) ?_ ?_, h.onRight.setAt (map_fst_setAt ..) ?_ ?_, ?_⟩
  · intro l hl' he
    exact List.concat_eq_append ▸ (h.onLeft.nodup l hl').concat (hrow l hl' he)
  · intro l hl' he x hx
    rcases List.mem_append.mp hx with hx | hx
    · exact h.onLeft.live l hl' x hx
    · exact List.mem_singleton.mp hx ▸ hb
  · intro r hr he
    exact List.concat_eq_append ▸ (h.onRight.nodup r hr).concat (hroll r hr he)
  · intro r hr he x hx
    rcases List.mem_append.mp hx with hx | hx
    · exact h.onRight.live r hr x hx
    · exact List.mem_singleton.mp hx ▸ List.mem_map_of_mem hl
  · intro l hl' r hr
    obtain ⟨l, hold, rfl⟩ := mem_setAt.mp hl'
    obtain ⟨r, hroll, rfl⟩ := mem_setAt.mp hr
    have hagree := h.agree l hold r hroll
    dsimp only
    by_cases hla : l.1 = a
    · by_cases hrb : r.1 = b
      · rw [if_pos hla, if_pos hrb]
        simp [hla, hrb]
      · rw [if_pos hla, if_neg hrb, List.mem_append, List.mem_singleton]
        simp [hrb, hagree]
    · by_cases hrb : r.1 = b
      · rw [if_neg hla, if_pos hrb, List.mem_append, List.mem_singleton]
        simp [hla, hagree]
      · rw [if_neg hla, if_neg hrb]
        exact hagree

/-- Two things are no longer related, on both sides. -/
theorem unlink (h : Mirror left right) (a : α) (b : β) :
    Mirror (setAt a (·.erase b) left) (setAt b (·.erase a) right) := by
  refine ⟨h.onLeft.setAt (map_fst_setAt ..) ?_ ?_, h.onRight.setAt (map_fst_setAt ..) ?_ ?_, ?_⟩
  · exact fun l hl _ => (h.onLeft.nodup l hl).erase b
  · exact fun l hl _ x hx => h.onLeft.live l hl x (List.mem_of_mem_erase hx)
  · exact fun r hr _ => (h.onRight.nodup r hr).erase a
  · exact fun r hr _ x hx => h.onRight.live r hr x (List.mem_of_mem_erase hx)
  · intro l hl r hr
    obtain ⟨l, hold, rfl⟩ := mem_setAt.mp hl
    obtain ⟨r, hroll, rfl⟩ := mem_setAt.mp hr
    have hagree := h.agree l hold r hroll
    dsimp only
    by_cases hla : l.1 = a
    · by_cases hrb : r.1 = b
      · rw [if_pos hla, if_pos hrb, hla, hrb]
        exact iff_of_false (h.onLeft.nodup l hold).not_mem_erase (h.onRight.nodup r hroll).not_mem_erase
      · rw [if_pos hla, if_neg hrb, List.mem_erase_of_ne hrb]
        exact hagree
    · by_cases hrb : r.1 = b
      · rw [if_neg hla, if_pos hrb, List.mem_erase_of_ne hla]
        exact hagree
      · rw [if_neg hla, if_neg hrb]
        exact hagree

omit [DecidableEq α] [DecidableEq β] in
/-- A new thing is related to nothing. -/
theorem append (h : Mirror left right) (ha : a ∉ left.map Prod.fst) : Mirror (left ++ [(a, [])]) right := by
  refine ⟨⟨?_, ?_, ?_⟩, ⟨h.onRight.keys, h.onRight.nodup, ?_⟩, ?_⟩
  · rw [List.map_append, List.nodup_append]
    refine ⟨h.onLeft.keys, List.nodup_singleton _, ?_⟩
    intro x hx y hy
    obtain rfl : y = a := List.mem_singleton.mp hy
    exact fun he => ha (he ▸ hx)
  · intro l hl
    rcases List.mem_append.mp hl with hl | hl
    · exact h.onLeft.nodup l hl
    · exact List.mem_singleton.mp hl ▸ List.nodup_nil
  · intro l hl x hx
    rcases List.mem_append.mp hl with hl | hl
    · exact h.onLeft.live l hl x hx
    · obtain rfl := List.mem_singleton.mp hl
      nomatch hx
  · intro r hr x hx
    rw [List.map_append]
    exact List.mem_append_left _ (h.onRight.live r hr x hx)
  · intro l hl r hr
    rcases List.mem_append.mp hl with hl | hl
    · exact h.agree l hl r hr
    · obtain rfl := List.mem_singleton.mp hl
      exact iff_of_false nofun fun hx => ha (h.onRight.live r hr a hx)

omit [DecidableEq β] in
/-- A thing that is related to nothing goes. -/
theorem remove (h : Mirror left right) (ha : (a, []) ∈ left) : Mirror (left.filter fun row => row.1 ≠ a) right := by
  have hleft : ∀ l ∈ left.filter (fun row => row.1 ≠ a), l ∈ left ∧ l.1 ≠ a := by
    intro l hl
    obtain ⟨hl, hne⟩ := List.mem_filter.mp hl
    exact ⟨hl, of_decide_eq_true hne⟩
  refine ⟨⟨?_, ?_, ?_⟩, ⟨h.onRight.keys, h.onRight.nodup, ?_⟩, ?_⟩
  · exact h.onLeft.keys.sublist (List.filter_sublist.map _)
  · exact fun l hl => h.onLeft.nodup l (hleft l hl).1
  · exact fun l hl => h.onLeft.live l (hleft l hl).1
  · intro r hr x hx
    obtain ⟨l, hl, rfl⟩ := List.mem_map.mp (h.onRight.live r hr x hx)
    have hne : l.1 ≠ a := by
      intro he
      have hempty := h.onLeft.unique hl ha he
      have hrow := (h.agree l hl r hr).mpr hx
      rw [hempty] at hrow
      nomatch hrow
    exact List.mem_map_of_mem (List.mem_filter.mpr ⟨hl, decide_eq_true hne⟩)
  · exact fun l hl r hr => h.agree l (hleft l hl).1 r hr

end Mirror
