import Mathlib.Data.BitVec
import Mathlib.Data.List.TakeWhile

/-!
# Trees of wrapping keys

A tree sorted by unsigned keys of some bits, as the list of its nodes in their order, where equal keys stay in the
order of their insertion. A walk stands between what it has passed and what lies ahead (`Cursor`). One that starts at
the first key not below `x` and goes on at the first node where the tree ends meets the nodes in the order of their
distance from `x`, counted with wrap-around.
-/

namespace EbTree

variable {α : Type*} {w : Nat} (key : α → BitVec w)

/-- The nodes stand in the order of their keys. -/
def Sorted (l : List α) : Prop := l.Pairwise fun a b => key a ≤ key b

/-- A node put behind those whose key is not above its own. -/
def insert (a : α) (l : List α) : List α :=
  (l.takeWhile fun b => key b ≤ key a) ++ a :: l.dropWhile fun b => key b ≤ key a

/-- A place in a tree: the nodes before it, and those from it on. -/
structure Cursor (α : Type*) where
  before : List α
  rest : List α

namespace Cursor

/-- All nodes of the tree. -/
def tree (c : Cursor α) : List α := c.before ++ c.rest

/-- The nodes in the order a walk meets them that goes on at the first one from the end of the tree. -/
def ahead (c : Cursor α) : List α := c.rest ++ c.before

/-- At the end of the tree, its first node. -/
def wrap (c : Cursor α) : Cursor α := if c.rest = [] then ⟨[], c.before⟩ else c

@[simp] theorem wrap_tree (c : Cursor α) : c.wrap.tree = c.tree := by
  unfold wrap tree
  split
  · next h => simp [h]
  · rfl

@[simp] theorem wrap_ahead (c : Cursor α) : c.wrap.ahead = c.ahead := by
  unfold wrap ahead
  split
  · next h => simp [h]
  · rfl

/-- From a place that was wrapped nothing lies ahead only in an empty tree. -/
theorem tree_of_wrap_rest {c : Cursor α} (h : c.wrap.rest = []) : c.tree = [] := by
  unfold wrap at h
  split at h
  · next hr =>
    rw [tree, hr]
    simpa using h
  · next hr => exact absurd h hr

theorem mem_ahead {c : Cursor α} {a : α} : a ∈ c.ahead ↔ a ∈ c.tree := by
  rw [ahead, tree, List.mem_append, List.mem_append, or_comm]

/-- What lies ahead of a walk that has passed its next node. -/
theorem ahead_past {c : Cursor α} {a : α} {rest : List α} (h : c.wrap.rest = a :: rest) :
    c.ahead = a :: ahead ⟨c.wrap.before, rest⟩ := by
  rw [← c.wrap_ahead, ahead, ahead, h, List.cons_append]

end Cursor

/-- The first node whose key is not below `x`. -/
def lookupGe (x : BitVec w) (l : List α) : Cursor α := ⟨l.takeWhile fun a => key a < x, l.dropWhile fun a => key a < x⟩

variable {key} {x : BitVec w} {a b : α} {l : List α}

@[simp] theorem lookupGe_tree (x : BitVec w) (l : List α) : (lookupGe key x l).tree = l :=
  List.takeWhile_append_dropWhile

theorem lookupGe_congr {key' : α → BitVec w} (h : ∀ a ∈ l, key' a = key a) (x : BitVec w) :
    lookupGe key' x l = lookupGe key x l := by
  have hsplit : l.takeWhile (fun a => decide (key' a < x)) = l.takeWhile (fun a => decide (key a < x)) ∧
      l.dropWhile (fun a => decide (key' a < x)) = l.dropWhile (fun a => decide (key a < x)) := by
    induction l with
    | nil => exact ⟨rfl, rfl⟩
    | cons a l ih =>
      obtain ⟨ih₁, ih₂⟩ := ih fun b hb => h b (List.mem_cons_of_mem _ hb)
      simp only [List.takeWhile_cons, List.dropWhile_cons, h a List.mem_cons_self, ih₁, ih₂, and_self]
  rw [lookupGe, lookupGe, hsplit.1, hsplit.2]

theorem insert_perm (key : α → BitVec w) (a : α) (l : List α) : (insert key a l).Perm (a :: l) := by
  rw [insert]
  refine List.perm_middle.trans (List.Perm.cons a ?_)
  rw [List.takeWhile_append_dropWhile]

theorem mem_insert : b ∈ insert key a l ↔ b = a ∨ b ∈ l := (insert_perm key a l).mem_iff.trans List.mem_cons

/-- A list of different numbers below `n` has no more than `n` of them. -/
theorem length_le_of_lt {n : Nat} {l : List Nat} (hnodup : l.Nodup) (hlt : ∀ i ∈ l, i < n) : l.length ≤ n := by
  have hsub : l ⊆ List.range n := fun i hi => List.mem_range.mpr (hlt i hi)
  have hlen := (hnodup.subperm hsub).length_le
  rwa [List.length_range] at hlen

/-- The place of a new node is behind the nodes whose keys are not above its own, where those that follow are. -/
theorem insert_eq {p s : List α} (hp : ∀ b ∈ p, key b ≤ key a) (hs : ∀ b ∈ s, key a < key b) :
    insert key a (p ++ s) = p ++ a :: s := by
  have htake : s.takeWhile (fun b => decide (key b ≤ key a)) = [] := by
    cases s with
    | nil => rfl
    | cons b s => exact List.takeWhile_cons_of_neg (by simpa using hs b List.mem_cons_self)
  have hdrop : s.dropWhile (fun b => decide (key b ≤ key a)) = s := by
    cases s with
    | nil => rfl
    | cons b s => exact List.dropWhile_cons_of_neg (by simpa using hs b List.mem_cons_self)
  have hp' : ∀ b ∈ p, decide (key b ≤ key a) = true := fun b hb => decide_eq_true (hp b hb)
  rw [insert, List.takeWhile_append_of_pos hp', List.dropWhile_append_of_pos hp', htake, hdrop, List.append_nil]

/-- From the first node on that is above a key, all are. -/
theorem Sorted.dropWhile_le (h : Sorted key l) {y : BitVec w} {p : α → Bool} (hp : ∀ a, p a = false → y ≤ key a) :
    ∀ a ∈ l.dropWhile p, y ≤ key a := by
  induction l with
  | nil => simp
  | cons b l ih =>
    obtain ⟨hb, hl⟩ := List.pairwise_cons.mp h
    intro a ha
    cases hpb : p b with
    | true =>
      rw [List.dropWhile_cons_of_pos hpb] at ha
      exact ih hl a ha
    | false =>
      rw [List.dropWhile_cons_of_neg (by simp [hpb])] at ha
      rcases List.mem_cons.mp ha with rfl | ha
      · exact hp a hpb
      · exact BitVec.le_trans (hp b hpb) (hb a ha)

theorem Sorted.insert (h : Sorted key l) (a : α) : Sorted key (EbTree.insert key a l) := by
  have hbelow : ∀ b ∈ l.takeWhile fun b => decide (key b ≤ key a), key b ≤ key a := by
    intro b hb
    simpa using List.mem_takeWhile_imp hb
  have habove : ∀ b ∈ l.dropWhile fun b => decide (key b ≤ key a), key a ≤ key b :=
    h.dropWhile_le fun b hb => (BitVec.le_total (key b) (key a)).resolve_left (of_decide_eq_false hb)
  refine List.pairwise_append.mpr ⟨h.sublist (List.takeWhile_sublist _), List.pairwise_cons.mpr ⟨habove, ?_⟩,
    fun b hb c hc => ?_⟩
  · exact h.sublist (List.dropWhile_sublist _)
  · rcases List.mem_cons.mp hc with rfl | hc
    · exact hbelow b hb
    · exact BitVec.le_trans (hbelow b hb) (habove c hc)

theorem Sorted.dropWhile_lt (h : Sorted key l) {y : BitVec w} :
    ∀ a ∈ l.dropWhile fun a => decide (key a ≤ y), y < key a := by
  induction l with
  | nil => simp
  | cons b l ih =>
    obtain ⟨hb, hl⟩ := List.pairwise_cons.mp h
    by_cases hle : key b ≤ y
    · rw [List.dropWhile_cons_of_pos (by simpa using hle)]
      exact ih hl
    · rw [List.dropWhile_cons_of_neg (by simpa using hle)]
      have hlt := BitVec.not_le.mp hle
      intro a ha
      rcases List.mem_cons.mp ha with rfl | ha
      · exact hlt
      · have hle' := hb a ha
        rw [BitVec.lt_def] at hlt ⊢
        rw [BitVec.le_def] at hle'
        omega

/-- A relation in which a new node comes after those that are not above it, and before the others. -/
theorem Sorted.pairwise_insert (h : Sorted key l) {R : α → α → Prop} (hR : l.Pairwise R)
    (hbelow : ∀ b ∈ l, key b ≤ key a → R b a)
    (habove : ∀ b ∈ l, key a < key b → R a b) : (EbTree.insert key a l).Pairwise R := by
  have htake : ∀ b ∈ l.takeWhile fun b => decide (key b ≤ key a), R b a := by
    intro b hb
    exact hbelow b ((List.takeWhile_sublist _).subset hb) (by simpa using List.mem_takeWhile_imp hb)
  have hdrop : ∀ b ∈ l.dropWhile fun b => decide (key b ≤ key a), R a b := by
    intro b hb
    exact habove b ((List.dropWhile_sublist _).subset hb) (h.dropWhile_lt b hb)
  rw [← List.takeWhile_append_dropWhile (p := fun b => decide (key b ≤ key a)) (l := l)] at hR
  obtain ⟨h₁, h₂, h₃⟩ := List.pairwise_append.mp hR
  refine List.pairwise_append.mpr ⟨h₁, List.pairwise_cons.mpr ⟨hdrop, h₂⟩, fun b hb c hc => ?_⟩
  rcases List.mem_cons.mp hc with rfl | hc
  · exact htake b hb
  · exact h₃ b hb c hc

/-- The nodes lie ahead in the order of their distance from a key. -/
def Ring (key : α → BitVec w) (x : BitVec w) (l : List α) : Prop :=
  l.Pairwise fun a b => (key a - x).toNat ≤ (key b - x).toNat

/-- A walk from the first key not below `x` meets the nodes in the order of their distance from `x`. -/
theorem lookupGe_ring (h : Sorted key l) (x : BitVec w) : Ring key x (lookupGe key x l).ahead := by
  have hbelow : ∀ a ∈ l.takeWhile fun a => decide (key a < x), key a < x := by
    intro a ha
    simpa using List.mem_takeWhile_imp ha
  have habove : ∀ a ∈ l.dropWhile fun a => decide (key a < x), x ≤ key a :=
    h.dropWhile_le fun a ha => BitVec.not_lt.mp (of_decide_eq_false ha)
  refine List.pairwise_append.mpr ⟨?_, ?_, fun a ha b hb => ?_⟩
  · refine (h.sublist (List.dropWhile_sublist _)).imp_of_mem ?_
    intro a b ha hb hab
    have hxa := habove a ha
    have hxb := habove b hb
    rw [BitVec.toNat_sub_of_le hxa, BitVec.toNat_sub_of_le hxb]
    exact Nat.sub_le_sub_right hab _
  · refine (h.sublist (List.takeWhile_sublist _)).imp_of_mem ?_
    intro a b ha hb hab
    rw [BitVec.toNat_sub_of_lt (hbelow a ha), BitVec.toNat_sub_of_lt (hbelow b hb)]
    exact Nat.sub_le_sub_left (Nat.sub_le_sub_left hab _) _
  · -- a node that is not below `x` comes before those that are
    have hxa := habove a ha
    have hbx := hbelow b hb
    rw [BitVec.toNat_sub_of_le hxa, BitVec.toNat_sub_of_lt hbx]
    have hlt := (key a).isLt
    rw [BitVec.lt_def] at hbx
    omega

end EbTree
