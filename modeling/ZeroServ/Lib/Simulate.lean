import Mathlib.Logic.Basic

/-!
# Partial computations that follow one another

A computation in `Option` follows another one if it has a result wherever the other one has, and the two results are
related. Programs that are put together alike from such parts follow one another; a program that is written over an
interface follows itself over another implementation of it.
-/

namespace Simulate

variable {α β α' β' : Type*} {R : α → β → Prop} {R' : α' → β' → Prop}

/-- The first computation has a related result where the second one has a result. -/
def Follows (R : α → β → Prop) (x : Option α) (y : Option β) : Prop := ∀ b, y = some b → ∃ a, x = some a ∧ R a b

namespace Follows

variable {x : Option α} {y : Option β}

theorem of_none : Follows R x none := fun _ h => absurd h (Option.some_ne_none _).symm

theorem pure {a : α} {b : β} (h : R a b) : Follows R (some a) (some b) := by
  intro c hc
  obtain rfl := Option.some.inj hc
  exact ⟨a, rfl, h⟩

theorem of_eq {x y : Option α} (h : ∀ a, y = some a → x = some a) : Follows (· = ·) x y := fun a ha => ⟨a, h a ha, rfl⟩

theorem bind {f : α → Option α'} {g : β → Option β'} (h : Follows R x y) (hf : ∀ a b, R a b → Follows R' (f a) (g b)) :
    Follows R' (x.bind f) (y.bind g) := by
  intro c hc
  obtain ⟨b, hb, hc⟩ := Option.bind_eq_some_iff.mp hc
  obtain ⟨a, ha, hab⟩ := h b hb
  obtain ⟨c', hc', hr⟩ := hf a b hab c hc
  exact ⟨c', Option.bind_eq_some_iff.mpr ⟨a, ha, hc'⟩, hr⟩

/-- What both sides compute alike may be taken as the same. -/
theorem bind_eq {f : α' → Option α} {g : α' → Option β} {x y : Option α'} (h : Follows (· = ·) x y)
    (hf : ∀ a, Follows R (f a) (g a)) :
    Follows R (x.bind f) (y.bind g) := by
  refine h.bind fun a b hab => ?_
  subst hab
  exact hf a

theorem ite {p q : Prop} [Decidable p] [Decidable q] {x' : Option α} {y' : Option β} (hpq : p ↔ q)
    (h : q → Follows R x y)
    (h' : ¬q → Follows R x' y') : Follows R (if p then x else x') (if q then y else y') := by
  by_cases hq : q
  · rw [if_pos hq, if_pos (hpq.mpr hq)]
    exact h hq
  · rw [if_neg hq, if_neg fun hp => hq (hpq.mp hp)]
    exact h' hq

theorem map {f : α → α'} {g : β → β'} (h : Follows R x y) (hf : ∀ a b, R a b → R' (f a) (g b)) :
    Follows R' (x.map f) (y.map g) := by
  rw [Option.map_eq_bind, Option.map_eq_bind]
  exact h.bind fun a b hab => pure (hf a b hab)

end Follows

end Simulate
