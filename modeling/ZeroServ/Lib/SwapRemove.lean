import Mathlib.Data.List.Induction
import Mathlib.Data.List.Perm.Basic

/-!
# Removal with the last element in its place

An array that keeps no order closes a gap with its last element. A sweep from the end removes every element that
meets a test, and leaves the others, in some order.
-/

namespace SwapRemove

variable {α : Type*}

/-- The array without the element at an index: one shorter, and the last element is put there, unless it is that one. -/
def removeAt (xs : List α) (i : Nat) : List α :=
  match xs.getLast? with
  | none => []
  | some x => if i < xs.length - 1 then (xs.set i x).dropLast else xs.dropLast

/-- The sweep of the indices below `n`, downwards. -/
def sweep (p : α → Bool) (xs : List α) : Nat → List α
  | 0 => xs
  | n + 1 =>
    match xs[n]? with
    | none => sweep p xs n
    | some x => if p x then sweep p (removeAt xs n) n else sweep p xs n

/-- What is before the gap stays where it is. -/
theorem removeAt_append (pre : List α) (x : α) (post : List α) :
    ∃ post', removeAt (pre ++ x :: post) pre.length = pre ++ post' ∧ post'.Perm post := by
  rcases List.eq_nil_or_concat post with rfl | ⟨mid, y, rfl⟩
  · refine ⟨[], ?_, .refl _⟩
    simp [removeAt]
  · have hlast : (pre ++ x :: (mid ++ [y])).getLast? = some y := by
      rw [← List.cons_append, ← List.append_assoc, List.getLast?_concat]
    have hlt : pre.length < (pre ++ x :: (mid ++ [y])).length - 1 := by
      simp only [List.length_append, List.length_cons]
      omega
    have hset : (pre ++ x :: (mid ++ [y])).set pre.length y = pre ++ y :: mid ++ [y] := by
      rw [List.set_append_right _ _ (Nat.le_refl _), Nat.sub_self, List.set_cons_zero, List.append_assoc,
        List.cons_append]
    rw [List.concat_eq_append]
    refine ⟨y :: mid, ?_, (List.perm_append_singleton y mid).symm⟩
    rw [removeAt, hlast]
    dsimp only
    rw [if_pos hlt, hset, List.dropLast_concat]

theorem removeAt_perm [DecidableEq α] {xs : List α} {i : Nat} {x : α} (h : xs[i]? = some x) :
    (removeAt xs i).Perm (xs.erase x) := by
  obtain ⟨hi, hx⟩ := List.getElem?_eq_some_iff.mp h
  have hsplit : xs.take i ++ x :: xs.drop (i + 1) = xs := by rw [← hx, List.getElem_cons_drop, List.take_append_drop]
  obtain ⟨post, heq, hperm⟩ := removeAt_append (xs.take i) x (xs.drop (i + 1))
  rw [hsplit, List.length_take_of_le (Nat.le_of_lt hi)] at heq
  rw [heq]
  refine (hperm.append_left _).trans (List.Perm.cons_inv (a := x) ?_)
  refine List.perm_middle.symm.trans ?_
  rw [hsplit]
  exact List.perm_cons_erase (hx ▸ List.getElem_mem hi)

/-- The sweep leaves what does not meet the test. -/
theorem sweep_append (p : α → Bool) (pre post : List α) :
    (sweep p (pre ++ post) pre.length).Perm (pre.filter (fun x => !p x) ++ post) := by
  induction pre using List.reverseRecOn generalizing post with
  | nil => exact .refl _
  | append_singleton pre x ih =>
    have hx : (pre ++ [x] ++ post)[pre.length]? = some x := by simp
    rw [List.length_append, List.length_singleton, sweep, hx, List.append_assoc, List.singleton_append,
      List.filter_append]
    dsimp only
    split
    · next hp =>
      obtain ⟨post', heq, hperm⟩ := removeAt_append pre x post
      have hgone : [x].filter (fun x => !p x) = [] := by simp [hp]
      rw [heq, hgone, List.append_nil]
      exact (ih post').trans (hperm.append_left _)
    · next hp =>
      have hkept : [x].filter (fun x => !p x) = [x] := by simp [hp]
      rw [hkept, List.append_assoc]
      exact ih (x :: post)

theorem sweep_perm (p : α → Bool) (xs : List α) : (sweep p xs xs.length).Perm (xs.filter fun x => !p x) := by
  have h := sweep_append p xs []
  rwa [List.append_nil, List.append_nil] at h

end SwapRemove
