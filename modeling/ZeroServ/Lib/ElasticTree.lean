import Mathlib.Data.Nat.Bitwise
import ZeroServ.Lib.EbTree

/-!
# Elastic binary trees

A binary tree whose leaves are entries with keys, and whose inner nodes belong to entries too: the node of an entry
stands somewhere above the leaf of the same entry. A node with a bit from 0 on has the keys with that bit clear on
its left and those with it set on its right, and the keys below it agree with its own on the bits above; below a node
with a negative bit all keys are equal. Such a tree has its leaves in the order of their keys (`Ordered.sorted`).

A place in a tree is the list of the frames above it, the nearest one first; `plug` puts a tree in its place.
-/

namespace Elastic

variable {ι : Type*} {w : Nat}

/-- Two keys agree on the bits above `n`. -/
def AgreeAbove (n : Nat) (a b : BitVec w) : Prop := ∀ m, n < m → a.getLsbD m = b.getLsbD m

namespace AgreeAbove

variable {n k : Nat} {a b c : BitVec w}

theorem refl (n : Nat) (a : BitVec w) : AgreeAbove n a a := fun _ _ => rfl

theorem symm (h : AgreeAbove n a b) : AgreeAbove n b a := fun m hm => (h m hm).symm

theorem trans (h : AgreeAbove n a b) (h' : AgreeAbove n b c) : AgreeAbove n a c := fun m hm => (h m hm).trans (h' m hm)

theorem mono (h : AgreeAbove n a b) (hn : n ≤ k) : AgreeAbove k a b := fun m hm => h m (Nat.lt_of_le_of_lt hn hm)

/-- The difference of the keys, shifted to the bit, is less than two. -/
theorem iff_shift : AgreeAbove n a b ↔ ((a ^^^ b) >>> n).toNat < 2 := by
  have hbit (i : Nat) : ((a ^^^ b) >>> n).toNat.testBit i = (a.getLsbD (n + i) ^^ b.getLsbD (n + i)) := by
    rw [BitVec.testBit_toNat, BitVec.getLsbD_ushiftRight, BitVec.getLsbD_xor]
  constructor
  · intro h
    refine Nat.lt_pow_two_of_testBit (n := 1) _ fun i hi => ?_
    rw [hbit, h (n + i) (by omega), Bool.xor_self]
  · intro h m hm
    have hzero : ((a ^^^ b) >>> n).toNat.testBit (m - n) = false := by
      refine Nat.testBit_lt_two_pow (Nat.lt_of_lt_of_le h ?_)
      exact Nat.le_self_pow (by omega) 2
    rw [hbit, show n + (m - n) = m by omega] at hzero
    simpa using hzero

/-- The key with the bit clear is the smaller one. -/
theorem lt_of_bit (h : AgreeAbove n a b) (ha : a.getLsbD n = false) (hb : b.getLsbD n = true) : a < b := by
  rw [BitVec.lt_def]
  refine Nat.lt_of_testBit n ?_ ?_ fun j hj => ?_
  · rwa [BitVec.testBit_toNat]
  · rwa [BitVec.testBit_toNat]
  · rw [BitVec.testBit_toNat, BitVec.testBit_toNat]
    exact h j hj

/-- Keys that agree on the bit as well agree from it on. -/
theorem shift_eq (h : AgreeAbove n a b) (hbit : a.getLsbD n = b.getLsbD n) : a >>> n = b >>> n := by
  refine BitVec.eq_of_getLsbD_eq fun i _ => ?_
  rw [BitVec.getLsbD_ushiftRight, BitVec.getLsbD_ushiftRight]
  rcases Nat.eq_zero_or_pos i with rfl | hi
  · exact hbit
  · exact h (n + i) (by omega)

end AgreeAbove

/-- The highest bit on which two keys differ. -/
def topBit (a b : BitVec w) : Nat := Nat.log2 (a ^^^ b).toNat

section topBit

variable {a b c : BitVec w}

theorem topBit_agree (a b : BitVec w) : AgreeAbove (topBit a b) a b := by
  intro m hm
  have hzero : (a ^^^ b).toNat.testBit m = false :=
    Nat.testBit_lt_two_pow (Nat.lt_of_lt_of_le Nat.lt_log2_self (Nat.pow_le_pow_right Nat.zero_lt_two hm))
  rw [BitVec.testBit_toNat, BitVec.getLsbD_xor] at hzero
  simpa using hzero

theorem topBit_differ (h : a ≠ b) : a.getLsbD (topBit a b) = !b.getLsbD (topBit a b) := by
  have hne : (a ^^^ b).toNat ≠ 0 := by
    intro h0
    exact h (BitVec.xor_eq_zero_iff.mp (BitVec.eq_of_toNat_eq h0))
  have hone := Nat.testBit_log2 hne
  rw [BitVec.testBit_toNat, BitVec.getLsbD_xor] at hone
  exact Bool.eq_not_of_ne (by simpa [topBit] using hone)

/-- Which of two keys is the smaller one, by the highest bit on which they differ. -/
theorem AgreeAbove.lt_iff {n : Nat} (h : AgreeAbove n a b) (hdiff : a.getLsbD n = !b.getLsbD n) :
    a < b ↔ b.getLsbD n = true := by
  cases hb : b.getLsbD n with
  | true =>
    rw [hb] at hdiff
    exact iff_of_true (h.lt_of_bit hdiff hb) rfl
  | false =>
    rw [hb] at hdiff
    have hlt := h.symm.lt_of_bit hb hdiff
    exact iff_of_false (BitVec.not_lt.mpr (BitVec.le_of_lt hlt)) Bool.false_ne_true

theorem lt_iff_topBit (h : a ≠ b) : a < b ↔ b.getLsbD (topBit a b) = true := (topBit_agree a b).lt_iff (topBit_differ h)

/-- A key that differs from another one above a bit differs from it at its highest bit, which is above as well. -/
theorem lt_topBit {n : Nat} (h : ¬AgreeAbove n a b) : n < topBit a b := by
  by_contra hle
  exact h ((topBit_agree a b).mono (Nat.le_of_not_lt hle))

/-- A key that does not agree with those above a bit is on the same side of all of them, and the shifted keys tell
which. -/
theorem shift_lt_iff {n : Nat} (h : ¬AgreeAbove n a b) (hc : AgreeAbove n c b) : a >>> n < b >>> n ↔ a < c := by
  have hn := lt_topBit h
  have hne : a ≠ b := fun hab => h (hab ▸ AgreeAbove.refl n a)
  have hagree := topBit_agree a b
  have hdiff := topBit_differ hne
  have hcb : c.getLsbD (topBit a b) = b.getLsbD (topBit a b) := hc _ hn
  have hshift : AgreeAbove (topBit a b - n) (a >>> n) (b >>> n) := by
    intro m hm
    rw [BitVec.getLsbD_ushiftRight, BitVec.getLsbD_ushiftRight]
    exact hagree (n + m) (by omega)
  have hbit (d : BitVec w) : (d >>> n).getLsbD (topBit a b - n) = d.getLsbD (topBit a b) := by
    rw [BitVec.getLsbD_ushiftRight, show n + (topBit a b - n) = topBit a b by omega]
  rw [hshift.lt_iff (by rw [hbit, hbit, hdiff]), hbit]
  rw [(hagree.trans (hc.mono (Nat.le_of_lt hn)).symm).lt_iff (by rw [hdiff, hcb]), hcb]

end topBit

/-- A tree of entries; a node belongs to an entry and has a bit. -/
inductive ETree (ι : Type*) where
  | leaf (i : ι)
  | node (i : ι) (bit : Int) (left right : ETree ι)

namespace ETree

/-- The entries of the leaves, from left to right. -/
def leaves : ETree ι → List ι
  | leaf i => [i]
  | node _ _ l r => l.leaves ++ r.leaves

/-- The entries of the nodes. -/
def owners : ETree ι → List ι
  | leaf _ => []
  | node i _ l r => i :: (l.owners ++ r.owners)

/-- The entry of the leftmost leaf. -/
def first : ETree ι → ι
  | leaf i => i
  | node _ _ l _ => l.first

/-- How many nodes there are above the lowest leaf. -/
def depth : ETree ι → Nat
  | leaf _ => 0
  | node _ _ l r => max l.depth r.depth + 1

@[simp] theorem leaves_leaf (i : ι) : (leaf i).leaves = [i] := rfl

@[simp] theorem leaves_node (i : ι) (bit : Int) (l r : ETree ι) : (node i bit l r).leaves = l.leaves ++ r.leaves := rfl

@[simp] theorem owners_leaf (i : ι) : (leaf i).owners = [] := rfl

@[simp] theorem owners_node (i : ι) (bit : Int) (l r : ETree ι) :
    (node i bit l r).owners = i :: (l.owners ++ r.owners) := rfl

theorem head?_leaves (t : ETree ι) : t.leaves.head? = some t.first := by
  induction t with
  | leaf i => rfl
  | node i bit l r hl _ => rw [leaves_node, List.head?_append, hl, Option.some_or, first]

theorem first_mem (t : ETree ι) : t.first ∈ t.leaves := List.mem_of_head? t.head?_leaves

theorem leaves_ne_nil (t : ETree ι) : t.leaves ≠ [] := List.ne_nil_of_mem t.first_mem

/-- All entries but one have their node in the tree. -/
theorem length_leaves (t : ETree ι) : t.leaves.length = t.owners.length + 1 := by
  induction t with
  | leaf i => rfl
  | node i bit l r hl hr =>
    rw [leaves_node, owners_node, List.length_append, List.length_cons, List.length_append, hl, hr]
    omega

theorem depth_lt (t : ETree ι) : t.depth < t.leaves.length := by
  induction t with
  | leaf i => exact Nat.zero_lt_one
  | node i bit l r hl hr =>
    rw [leaves_node, List.length_append, depth]
    omega

end ETree

open ETree

/-- A key belongs on one side of a node with the key `o`, as its bit says; below a negative bit it is `o` itself. -/
def OnSide (o : BitVec w) (bit : Int) (side : Bool) (k : BitVec w) : Prop :=
  if bit < 0 then k = o else AgreeAbove bit.toNat k o ∧ k.getLsbD bit.toNat = side

/-- The leaves below each node are on their sides. -/
def Ordered (key : ι → BitVec w) : ETree ι → Prop
  | .leaf _ => True
  | .node i bit l r =>
    (∀ j ∈ l.leaves, OnSide (key i) bit false (key j)) ∧ (∀ j ∈ r.leaves, OnSide (key i) bit true (key j)) ∧
      Ordered key l ∧ Ordered key r

/-- Each node stands above the leaf of its entry. -/
def Owned : ETree ι → Prop
  | .leaf _ => True
  | .node i _ l r => (i ∈ l.leaves ∨ i ∈ r.leaves) ∧ Owned l ∧ Owned r

variable {key : ι → BitVec w} {i j a : ι} {bit : Int} {side : Bool} {o k k' : BitVec w}

namespace OnSide

theorem of_neg (h : OnSide o bit side k) (hbit : bit < 0) : k = o := by
  rwa [OnSide, if_pos hbit] at h

theorem of_nonneg (h : OnSide o bit side k) (hbit : 0 ≤ bit) :
    AgreeAbove bit.toNat k o ∧ k.getLsbD bit.toNat = side := by
  rwa [OnSide, if_neg (Int.not_lt.mpr hbit)] at h

/-- A key from below the node may stand for its own. -/
theorem transfer {s : Bool} (h : OnSide o bit side k) (ha : OnSide o bit s k') : OnSide k' bit side k := by
  unfold OnSide
  split
  · next hbit => exact (h.of_neg hbit).trans (ha.of_neg hbit).symm
  · next hbit =>
    obtain ⟨hagree, hside⟩ := h.of_nonneg (Int.not_lt.mp hbit)
    exact ⟨hagree.trans (ha.of_nonneg (Int.not_lt.mp hbit)).1.symm, hside⟩

/-- A key on the left is not above one on the right. -/
theorem le (ha : OnSide o bit false k) (hb : OnSide o bit true k') : k ≤ k' := by
  by_cases hbit : bit < 0
  · rw [ha.of_neg hbit, hb.of_neg hbit]
    exact BitVec.le_refl _
  · obtain ⟨haa, has⟩ := ha.of_nonneg (Int.not_lt.mp hbit)
    obtain ⟨hba, hbs⟩ := hb.of_nonneg (Int.not_lt.mp hbit)
    exact BitVec.le_of_lt ((haa.trans hba.symm).lt_of_bit has hbs)

theorem lt (hbit : 0 ≤ bit) (ha : OnSide o bit false k) (hb : OnSide o bit true k') : k < k' := by
  obtain ⟨haa, has⟩ := ha.of_nonneg hbit
  obtain ⟨hba, hbs⟩ := hb.of_nonneg hbit
  exact (haa.trans hba.symm).lt_of_bit has hbs

end OnSide

/-- The leaves of an ordered tree stand in the order of their keys. -/
theorem Ordered.sorted {t : ETree ι} (h : Ordered key t) : EbTree.Sorted key t.leaves := by
  induction t with
  | leaf i => exact List.pairwise_singleton _ _
  | node i bit l r hl hr =>
    obtain ⟨hleft, hright, hol, hor⟩ := h
    exact List.pairwise_append.mpr ⟨hl hol, hr hor, fun a ha b hb => (hleft a ha).le (hright b hb)⟩

/-- All keys below a node are like its own, up to the bit. -/
theorem Ordered.node_agree {l r : ETree ι} (h : Ordered key (.node i bit l r)) (hbit : 0 ≤ bit) :
    ∀ j ∈ (ETree.node i bit l r).leaves, AgreeAbove bit.toNat (key j) (key i) := by
  intro j hj
  rcases List.mem_append.mp hj with hj | hj
  · exact ((h.1 j hj).of_nonneg hbit).1
  · exact ((h.2.1 j hj).of_nonneg hbit).1

/-- Below a negative bit all keys are equal. -/
theorem Ordered.node_dup {l r : ETree ι} (h : Ordered key (.node i bit l r)) (hbit : bit < 0) :
    ∀ j ∈ (ETree.node i bit l r).leaves, key j = key i := by
  intro j hj
  rcases List.mem_append.mp hj with hj | hj
  · exact (h.1 j hj).of_neg hbit
  · exact (h.2.1 j hj).of_neg hbit

/-- A node with keys on both sides has one of their bits. -/
theorem Ordered.bit_lt {l r : ETree ι} (h : Ordered key (.node i bit l r)) : bit < w := by
  by_contra hge
  obtain ⟨-, hset⟩ := (h.2.1 _ r.first_mem).of_nonneg (by omega)
  rw [BitVec.getLsbD_of_ge _ _ (by omega)] at hset
  exact Bool.false_ne_true hset

/-- The keys of entries that are not below a node do not matter. -/
theorem Ordered.congr_key {key' : ι → BitVec w} {t : ETree ι} (h : Ordered key t) (ho : Owned t)
    (hkey : ∀ j ∈ t.leaves, key' j = key j) :
    Ordered key' t := by
  induction t with
  | leaf i => trivial
  | node i bit l r hl hr =>
    obtain ⟨hleft, hright, hol, hor⟩ := h
    have hi : key' i = key i := hkey i (List.mem_append.mpr ho.1)
    have hkl : ∀ j ∈ l.leaves, key' j = key j := fun j hj => hkey j (List.mem_append_left _ hj)
    have hkr : ∀ j ∈ r.leaves, key' j = key j := fun j hj => hkey j (List.mem_append_right _ hj)
    refine ⟨fun j hj => ?_, fun j hj => ?_, hl hol ho.2.1 hkl, hr hor ho.2.2 hkr⟩
    · rw [hi, hkl j hj]
      exact hleft j hj
    · rw [hi, hkr j hj]
      exact hright j hj

/-! ## Places -/

/-- A node above a place: the side of the place, and the tree on the other side. -/
structure Frame (ι : Type*) where
  owner : ι
  bit : Int
  side : Bool
  sibling : ETree ι

/-- A tree below the node. -/
def Frame.plug (f : Frame ι) (t : ETree ι) : ETree ι :=
  if f.side then .node f.owner f.bit f.sibling t else .node f.owner f.bit t f.sibling

/-- A tree in its place. -/
def plug : List (Frame ι) → ETree ι → ETree ι
  | [], t => t
  | f :: fs, t => plug fs (f.plug t)

/-- The leaves to the left of a place. -/
def before : List (Frame ι) → List ι
  | [] => []
  | f :: fs => before fs ++ if f.side then f.sibling.leaves else []

/-- The leaves to the right of a place. -/
def after : List (Frame ι) → List ι
  | [] => []
  | f :: fs => (if f.side then [] else f.sibling.leaves) ++ after fs

/-- The entries of the nodes around a place. -/
def around : List (Frame ι) → List ι
  | [] => []
  | f :: fs => f.owner :: (f.sibling.owners ++ around fs)

variable {f : Frame ι} {fs gs : List (Frame ι)} {t t' e : ETree ι}

theorem leaves_frame_plug (f : Frame ι) (t : ETree ι) :
    (f.plug t).leaves = (if f.side then f.sibling.leaves else []) ++ t.leaves ++ if f.side then [] else
      f.sibling.leaves := by
  unfold Frame.plug
  split <;> simp

theorem mem_leaves_frame_plug : j ∈ (f.plug t).leaves ↔ j ∈ t.leaves ∨ j ∈ f.sibling.leaves := by
  unfold Frame.plug
  split
  · rw [leaves_node, List.mem_append, or_comm]
  · rw [leaves_node, List.mem_append]

theorem owners_frame_plug (f : Frame ι) (t : ETree ι) :
    (f.plug t).owners.Perm (f.owner :: (f.sibling.owners ++ t.owners)) := by
  unfold Frame.plug
  split
  · exact List.Perm.refl _
  · exact List.Perm.cons _ List.perm_append_comm

theorem leaves_plug (fs : List (Frame ι)) (t : ETree ι) : (plug fs t).leaves = before fs ++ t.leaves ++ after fs := by
  induction fs generalizing t with
  | nil => simp [plug, before, after]
  | cons f fs ih =>
    rw [plug, ih, leaves_frame_plug, before, after]
    simp only [List.append_assoc]

theorem owners_plug (fs : List (Frame ι)) (t : ETree ι) : (plug fs t).owners.Perm (around fs ++ t.owners) := by
  induction fs generalizing t with
  | nil => exact List.Perm.refl _
  | cons f fs ih =>
    refine (ih (f.plug t)).trans (((owners_frame_plug f t).append_left _).trans ?_)
    rw [around, List.cons_append]
    refine List.perm_middle.trans (List.Perm.cons _ ?_)
    rw [← List.append_assoc]
    exact List.perm_append_comm.append_right _

theorem plug_append (gs fs : List (Frame ι)) (t : ETree ι) : plug (gs ++ fs) t = plug fs (plug gs t) := by
  induction gs generalizing t with
  | nil => rfl
  | cons g gs ih => exact ih (g.plug t)

/-- The frames a key fits into. -/
def Fits (key : ι → BitVec w) (fs : List (Frame ι)) (k : BitVec w) : Prop :=
  ∀ f ∈ fs, OnSide (key f.owner) f.bit f.side k

theorem ordered_frame_plug : Ordered key (f.plug t) ↔
    (∀ j ∈ f.sibling.leaves, OnSide (key f.owner) f.bit (!f.side) (key j)) ∧
    (∀ j ∈ t.leaves, OnSide (key f.owner) f.bit f.side (key j)) ∧ Ordered key f.sibling ∧ Ordered key t := by
  unfold Frame.plug
  cases f.side with
  | true => exact Iff.rfl
  | false =>
    simp only [Bool.false_eq_true, if_false, Ordered, Bool.not_false]
    tauto

theorem Ordered.of_plug (h : Ordered key (plug fs t)) : Ordered key t := by
  induction fs generalizing t with
  | nil => exact h
  | cons f fs ih => exact (ordered_frame_plug.mp (ih h)).2.2.2

theorem Ordered.of_plug_cons (h : Ordered key (plug (f :: fs) t)) : Ordered key (f.plug t) := of_plug (t := f.plug t) h

/-- The leaves below the frames are on their sides. -/
theorem Ordered.fits (h : Ordered key (plug fs t)) : ∀ j ∈ t.leaves, Fits key fs (key j) := by
  induction fs generalizing t with
  | nil => exact fun j _ f hf => absurd hf List.not_mem_nil
  | cons f fs ih =>
    intro j hj g hg
    rcases List.mem_cons.mp hg with rfl | hg
    · exact (ordered_frame_plug.mp h.of_plug_cons).2.1 j hj
    · exact ih h j (mem_leaves_frame_plug.mpr (.inl hj)) g hg

/-- Another tree in the place, with leaves that fit. -/
theorem Ordered.replug (h : Ordered key (plug fs t)) (ht : Ordered key t')
    (hfit : ∀ j ∈ t'.leaves, j ∈ t.leaves ∨ Fits key fs (key j)) :
    Ordered key (plug fs t') := by
  induction fs generalizing t t' with
  | nil => exact ht
  | cons f fs ih =>
    obtain ⟨hsib, hin, hos, -⟩ := ordered_frame_plug.mp h.of_plug_cons
    refine ih h (ordered_frame_plug.mpr ⟨hsib, fun j hj => ?_, hos, ht⟩) fun j hj => ?_
    · rcases hfit j hj with hold | hnew
      · exact hin j hold
      · exact hnew f List.mem_cons_self
    · rcases mem_leaves_frame_plug.mp hj with hj | hj
      · rcases hfit j hj with hold | hnew
        · exact .inl (mem_leaves_frame_plug.mpr (.inl hold))
        · exact .inr fun g hg => hnew g (List.mem_cons_of_mem _ hg)
      · exact .inl (mem_leaves_frame_plug.mpr (.inr hj))

theorem owned_frame_plug : Owned (f.plug t) ↔ (f.owner ∈ t.leaves ∨ f.owner ∈ f.sibling.leaves) ∧ Owned f.sibling ∧
    Owned t := by
  unfold Frame.plug
  split
  · rw [Owned, or_comm]
  · rw [Owned, and_comm (a := Owned t)]

theorem Owned.of_plug (h : Owned (plug fs t)) : Owned t := by
  induction fs generalizing t with
  | nil => exact h
  | cons f fs ih => exact (owned_frame_plug.mp (ih h)).2.2

theorem Owned.of_plug_cons (h : Owned (plug (f :: fs) t)) : Owned (f.plug t) := of_plug (t := f.plug t) h

/-- Another tree in the place, with the leaves of the old one. -/
theorem Owned.replug (h : Owned (plug fs t)) (ht : Owned t') (hkeep : ∀ j ∈ t.leaves, j ∈ t'.leaves) :
    Owned (plug fs t') := by
  induction fs generalizing t t' with
  | nil => exact ht
  | cons f fs ih =>
    obtain ⟨hown, hos, -⟩ := owned_frame_plug.mp h.of_plug_cons
    refine ih h (owned_frame_plug.mpr ⟨hown.imp_left (hkeep _), hos, ht⟩) fun j hj => ?_
    exact mem_leaves_frame_plug.mpr ((mem_leaves_frame_plug.mp hj).imp_left (hkeep j))

theorem Owned.mem_leaves {t : ETree ι} (h : Owned t) : ∀ i ∈ t.owners, i ∈ t.leaves := by
  induction t with
  | leaf i => exact fun _ hi => absurd hi List.not_mem_nil
  | node i bit l r hl hr =>
    obtain ⟨hi, hol, hor⟩ := h
    intro k hk
    rw [leaves_node, List.mem_append]
    rcases List.mem_cons.mp hk with rfl | hk
    · exact hi
    · exact (List.mem_append.mp hk).imp (hl hol k) (hr hor k)

/-! ## A new entry -/

/-- The node of a new entry above a tree, with its leaf on one side of it. -/
def join (a : ι) (bit : Int) (right : Bool) (t : ETree ι) : ETree ι :=
  if right then .node a bit t (.leaf a) else .node a bit (.leaf a) t

theorem leaves_join (a : ι) (bit : Int) (right : Bool) (t : ETree ι) :
    (join a bit right t).leaves = if right then t.leaves ++ [a] else a :: t.leaves := by
  unfold join
  split <;> rfl

theorem mem_leaves_join {right : Bool} : j ∈ (join a bit right t).leaves ↔ j = a ∨ j ∈ t.leaves := by
  rw [leaves_join]
  split
  · rw [List.mem_append, List.mem_singleton, or_comm]
  · exact List.mem_cons

theorem owners_join (a : ι) (bit : Int) (right : Bool) (t : ETree ι) : (join a bit right t).owners = a :: t.owners := by
  unfold join
  split <;> simp

theorem owned_join {right : Bool} (h : Owned t) : Owned (join a bit right t) := by
  unfold join
  split
  · exact ⟨.inr List.mem_cons_self, h, trivial⟩
  · exact ⟨.inl List.mem_cons_self, trivial, h⟩

/-- Above equal keys, with a negative bit. -/
theorem ordered_join_dup (h : Ordered key t) (hbit : bit < 0) (hkey : ∀ j ∈ t.leaves, key j = key a) :
    Ordered key (join a bit true t) := by
  have hside {s : Bool} {j : ι} (hj : key j = key a) : OnSide (key a) bit s (key j) := by
    rwa [OnSide, if_pos hbit]
  refine ⟨fun j hj => hside (hkey j hj), fun j hj => ?_, h, trivial⟩
  rw [List.mem_singleton.mp hj]
  exact hside rfl

/-- Above keys that agree with another key down to the highest bit on which the new one differs from it. -/
theorem ordered_join (h : Ordered key t) {o : ι} (hne : key a ≠ key o)
    (hkey : ∀ j ∈ t.leaves, key j >>> topBit (key a) (key o) = key o >>> topBit (key a) (key o)) :
    Ordered key (join a (topBit (key a) (key o)) (decide (key o ≤ key a)) t) := by
  have hdiff := topBit_differ hne
  have hright : decide (key o ≤ key a) = !(key o).getLsbD (topBit (key a) (key o)) := by
    have hle : key o ≤ key a ↔ ¬(key o).getLsbD (topBit (key a) (key o)) = true := by
      rw [← BitVec.not_lt, lt_iff_topBit hne]
    simp [hle]
  have hold : ∀ j ∈ t.leaves, OnSide (key a) (topBit (key a) (key o)) ((key o).getLsbD (topBit (key a) (key o)))
      (key j) := by
    intro j hj
    rw [OnSide, if_neg (Int.not_lt.mpr (Int.natCast_nonneg _)), Int.toNat_natCast]
    have hbits (i : Nat) := congrArg (fun b : BitVec w => b.getLsbD i) (hkey j hj)
    simp only [BitVec.getLsbD_ushiftRight] at hbits
    refine ⟨fun m hm => ?_, by simpa using hbits 0⟩
    rw [topBit_agree (key a) (key o) m hm]
    have hm' := hbits (m - topBit (key a) (key o))
    rwa [show topBit (key a) (key o) + (m - topBit (key a) (key o)) = m by omega] at hm'
  have hnew : OnSide (key a) (topBit (key a) (key o)) (!(key o).getLsbD (topBit (key a) (key o))) (key a) := by
    rw [OnSide, if_neg (Int.not_lt.mpr (Int.natCast_nonneg _)), Int.toNat_natCast]
    exact ⟨AgreeAbove.refl _ _, hdiff⟩
  rw [hright, join]
  cases hb : (key o).getLsbD (topBit (key a) (key o)) with
  | true =>
    rw [hb] at hold hnew
    refine ⟨fun j hj => ?_, hold, trivial, h⟩
    rw [List.mem_singleton.mp hj]
    exact hnew
  | false =>
    rw [hb] at hold hnew
    refine ⟨hold, fun j hj => ?_, h, trivial⟩
    rw [List.mem_singleton.mp hj]
    exact hnew

/-- What is to the left of a place that a key fits into is not above it, and what is to the right is above it, if
only nodes of different keys have the place on their left. -/
theorem Ordered.around_place (h : Ordered key (plug fs t)) (hfit : Fits key fs k)
    (hright : ∀ f ∈ fs, f.bit < 0 → f.side = true) :
    (∀ j ∈ before fs, key j ≤ k) ∧ ∀ j ∈ after fs, k < key j := by
  induction fs generalizing t with
  | nil => exact ⟨fun _ hj => absurd hj List.not_mem_nil, fun _ hj => absurd hj List.not_mem_nil⟩
  | cons f fs ih =>
    obtain ⟨hsib, -, -, -⟩ := ordered_frame_plug.mp h.of_plug_cons
    have hf := hfit f List.mem_cons_self
    obtain ⟨hbefore, hafter⟩ := ih (t := f.plug t) h (fun g hg => hfit g (List.mem_cons_of_mem _ hg))
      fun g hg => hright g (List.mem_cons_of_mem _ hg)
    cases hs : f.side with
    | true =>
      rw [hs] at hsib hf
      simp only [before, after, hs, if_true, List.nil_append]
      refine ⟨fun j hj => ?_, hafter⟩
      rcases List.mem_append.mp hj with hj | hj
      · exact hbefore j hj
      · exact (hsib j hj).le hf
    | false =>
      rw [hs] at hsib hf
      simp only [before, after, hs, Bool.false_eq_true, if_false, List.append_nil]
      refine ⟨hbefore, fun j hj => ?_⟩
      rcases List.mem_append.mp hj with hj | hj
      · have hbit : 0 ≤ f.bit := by
          by_contra hneg
          have hs' := hright f List.mem_cons_self (Int.not_le.mp hneg)
          rw [hs] at hs'
          exact Bool.false_ne_true hs'
        exact hf.lt hbit (hsib j hj)
      · exact hafter j hj

/-- A new entry stands behind those whose key is not above its own. -/
theorem leaves_insert {right : Bool} (h : Ordered key (plug fs (join a bit right t))) (hfit : Fits key fs (key a))
    (hdup : ∀ f ∈ fs, f.bit < 0 → f.side = true) (hbit : right = false → 0 ≤ bit) :
    (plug fs (join a bit right t)).leaves = EbTree.insert key a (plug fs t).leaves := by
  obtain ⟨hbefore, hafter⟩ := h.around_place hfit hdup
  have hjoin := h.of_plug
  rw [leaves_plug, leaves_plug, leaves_join]
  cases right with
  | true =>
    have hle : ∀ j ∈ t.leaves, key j ≤ key a := fun j hj => (hjoin.1 j hj).le (hjoin.2.1 a List.mem_cons_self)
    rw [EbTree.insert_eq (fun j hj => (List.mem_append.mp hj).elim (hbefore j) (hle j)) hafter]
    simp
  | false =>
    have hlt : ∀ j ∈ t.leaves, key a < key j :=
      fun j hj => (hjoin.1 a List.mem_cons_self).lt (hbit rfl) (hjoin.2.1 j hj)
    rw [List.append_assoc (before fs) t.leaves,
      EbTree.insert_eq hbefore fun j hj => (List.mem_append.mp hj).elim (hlt j) (hafter j)]
    simp

/-! ## An entry that leaves -/

section rename

variable [DecidableEq ι]

/-- The node of an entry is given to another one. -/
def Frame.rename (i p : ι) (f : Frame ι) : Frame ι := if f.owner = i then { f with owner := p } else f

@[simp] theorem rename_bit (i p : ι) (f : Frame ι) : (f.rename i p).bit = f.bit := by
  unfold Frame.rename
  split <;> rfl

@[simp] theorem rename_side (i p : ι) (f : Frame ι) : (f.rename i p).side = f.side := by
  unfold Frame.rename
  split <;> rfl

@[simp] theorem rename_sibling (i p : ι) (f : Frame ι) : (f.rename i p).sibling = f.sibling := by
  unfold Frame.rename
  split <;> rfl

theorem rename_of_ne {i p : ι} (h : f.owner ≠ i) : f.rename i p = f := if_neg h

theorem rename_owner (i p : ι) (f : Frame ι) : (f.rename i p).owner = if f.owner = i then p else f.owner := by
  unfold Frame.rename
  split <;> rfl

@[simp] theorem before_rename (i p : ι) (fs : List (Frame ι)) : before (fs.map (Frame.rename i p)) = before fs := by
  induction fs with
  | nil => rfl
  | cons f fs ih => simp only [List.map_cons, before, ih, rename_side, rename_sibling]

@[simp] theorem after_rename (i p : ι) (fs : List (Frame ι)) : after (fs.map (Frame.rename i p)) = after fs := by
  induction fs with
  | nil => rfl
  | cons f fs ih => simp only [List.map_cons, after, ih, rename_side, rename_sibling]

/-- The frames stay ordered around fewer leaves, if the entry that is given the node is one of them. -/
theorem Ordered.rename {p : ι} (h : Ordered key (plug fs t)) (ht : Ordered key t')
    (hsub : ∀ j ∈ t'.leaves, j ∈ t.leaves)
    (hp : p ∈ t.leaves) : Ordered key (plug (fs.map (Frame.rename i p)) t') := by
  induction fs generalizing t t' with
  | nil => exact ht
  | cons f fs ih =>
    obtain ⟨hsib, hin, hos, -⟩ := ordered_frame_plug.mp h.of_plug_cons
    refine ih (t := f.plug t) h ?_ ?_ (mem_leaves_frame_plug.mpr (.inl hp))
    · rw [ordered_frame_plug, rename_bit, rename_side, rename_sibling, rename_owner]
      split
      · exact ⟨fun j hj => (hsib j hj).transfer (hin p hp),
          fun j hj => (hin j (hsub j hj)).transfer (hin p hp), hos, ht⟩
      · exact ⟨hsib, fun j hj => hin j (hsub j hj), hos, ht⟩
    · intro j hj
      rw [mem_leaves_frame_plug, rename_sibling] at hj
      exact mem_leaves_frame_plug.mpr (hj.imp_left (hsub j))

/-- The nodes stay above the leaves of their entries, if the one whose leaf is missing is given to an entry below. -/
theorem Owned.rename {p : ι} (h : Owned (plug fs t)) (ht : Owned t') (hkeep : ∀ j ∈ t.leaves, j ∈ t'.leaves ∨ j = i)
    (hp : p ∈ t'.leaves) (hi : ∀ f ∈ fs, i ∉ f.sibling.leaves) : Owned (plug (fs.map (Frame.rename i p)) t') := by
  induction fs generalizing t t' with
  | nil => exact ht
  | cons f fs ih =>
    obtain ⟨hown, hos, -⟩ := owned_frame_plug.mp h.of_plug_cons
    have hp' : p ∈ ((f.rename i p).plug t').leaves := mem_leaves_frame_plug.mpr (.inl hp)
    refine ih (t := f.plug t) h ?_ ?_ hp' fun g hg => hi g (List.mem_cons_of_mem _ hg)
    · rw [owned_frame_plug, rename_sibling, rename_owner]
      refine ⟨?_, hos, ht⟩
      split
      · exact .inl hp
      · next hne => exact hown.imp_left fun ho => (hkeep _ ho).resolve_right hne
    · intro j hj
      rw [mem_leaves_frame_plug, rename_sibling]
      rcases mem_leaves_frame_plug.mp hj with hj | hj
      · exact (hkeep j hj).imp_left .inl
      · exact .inl (.inr hj)

end rename

/-! ## Duplicates below a node -/

/-- No node of equal keys has the node of the entry on its left: what is put below it on the right is the last one of
its key. -/
def TakesDups (i : ι) : ETree ι → Prop
  | .leaf _ => True
  | .node _ bit l r => (bit < 0 → i ∉ l.owners) ∧ TakesDups i l ∧ TakesDups i r

theorem takesDups_of_notMem {t : ETree ι} (h : i ∉ t.owners) : TakesDups i t := by
  induction t with
  | leaf j => trivial
  | node j bit l r hl hr =>
    rw [owners_node, List.mem_cons, List.mem_append, not_or, not_or] at h
    exact ⟨fun _ => h.2.1, hl h.2.1, hr h.2.2⟩

theorem takesDups_frame_plug : TakesDups i (f.plug t) ↔
    (f.bit < 0 → i ∉ if f.side then f.sibling.owners else t.owners) ∧ TakesDups i f.sibling ∧ TakesDups i t := by
  unfold Frame.plug
  cases f.side with
  | true => exact Iff.rfl
  | false =>
    simp only [Bool.false_eq_true, if_false, TakesDups]
    tauto

theorem TakesDups.of_plug (h : TakesDups i (plug fs t)) : TakesDups i t := by
  induction fs generalizing t with
  | nil => exact h
  | cons f fs ih => exact (takesDups_frame_plug.mp (ih h)).2.2

theorem mem_owners_frame_plug : i ∈ (f.plug t).owners ↔ i = f.owner ∨ i ∈ f.sibling.owners ∨ i ∈ t.owners := by
  rw [(owners_frame_plug f t).mem_iff, List.mem_cons, List.mem_append]

/-- Such a node is reached from the top node of the same keys by going to the right. -/
theorem TakesDups.right (h : TakesDups i (plug fs t)) (hi : i ∈ t.owners) : ∀ f ∈ fs, f.bit < 0 → f.side = true := by
  induction fs generalizing t with
  | nil => exact fun _ hf => absurd hf List.not_mem_nil
  | cons f fs ih =>
    have hf := (takesDups_frame_plug.mp (TakesDups.of_plug (t := f.plug t) h)).1
    refine List.forall_mem_cons.mpr ⟨fun hneg => ?_, ih (t := f.plug t) h (mem_owners_frame_plug.mpr (.inr (.inr hi)))⟩
    cases hs : f.side with
    | true => rfl
    | false =>
      rw [hs] at hf
      exact absurd hi (hf hneg)

/-- Another tree in a place, with a node of the entry only if the old one has it. -/
theorem TakesDups.replug (h : TakesDups i (plug fs t)) (ht : TakesDups i t') (hsub : i ∈ t'.owners → i ∈ t.owners) :
    TakesDups i (plug fs t') := by
  induction fs generalizing t t' with
  | nil => exact ht
  | cons f fs ih =>
    obtain ⟨hleft, hs, -⟩ := takesDups_frame_plug.mp (TakesDups.of_plug (t := f.plug t) h)
    refine ih (t := f.plug t) h (takesDups_frame_plug.mpr ⟨fun hneg => ?_, hs, ht⟩) fun hi => ?_
    · have hno := hleft hneg
      split at hno <;> rename_i hside
      · rwa [if_pos hside]
      · rw [if_neg hside]
        exact mt hsub hno
    · rw [mem_owners_frame_plug] at hi ⊢
      exact hi.imp_right fun hi => hi.imp_right hsub

/-- A place to the right of all nodes of equal keys. -/
theorem takesDups_plug (ht : TakesDups i t) (hright : ∀ f ∈ fs, f.bit < 0 → f.side = true)
    (hsib : ∀ f ∈ fs, i ∉ f.sibling.owners) :
    TakesDups i (plug fs t) := by
  induction fs generalizing t with
  | nil => exact ht
  | cons f fs ih =>
    refine ih (takesDups_frame_plug.mpr ⟨fun hneg => ?_, ?_, ht⟩) (fun g hg => hright g (List.mem_cons_of_mem _ hg))
      fun g hg => hsib g (List.mem_cons_of_mem _ hg)
    · rw [if_pos (hright f List.mem_cons_self hneg)]
      exact hsib f List.mem_cons_self
    · exact takesDups_of_notMem (hsib f List.mem_cons_self)

theorem takesDups_join {right : Bool} (h : TakesDups i t) (hno : bit < 0 → i ∉ t.owners) :
    TakesDups i (join a bit right t) := by
  unfold join
  split
  · exact ⟨hno, h, trivial⟩
  · exact ⟨fun _ => List.not_mem_nil, trivial, h⟩

/-- The node that is free takes the place of another one above it. -/
theorem TakesDups.rename [DecidableEq ι] {p : ι} (h : TakesDups i (plug fs t)) (ht : TakesDups i t')
    (hsub : i ∈ t'.owners → i ∈ t.owners)
    (hp : p ∈ t.owners) : TakesDups i (plug (fs.map (Frame.rename j p)) t') := by
  induction fs generalizing t t' with
  | nil => exact ht
  | cons f fs ih =>
    obtain ⟨hleft, hs, -⟩ := takesDups_frame_plug.mp (TakesDups.of_plug (t := f.plug t) h)
    refine ih (t := f.plug t) h ?_ (fun hi => ?_) (mem_owners_frame_plug.mpr (.inr (.inr hp)))
    · rw [takesDups_frame_plug, rename_bit, rename_side, rename_sibling]
      refine ⟨fun hneg => ?_, hs, ht⟩
      have hno := hleft hneg
      split at hno <;> rename_i hside
      · rwa [if_pos hside]
      · rw [if_neg hside]
        exact mt hsub hno
    · rw [mem_owners_frame_plug, rename_sibling, rename_owner] at hi
      rw [mem_owners_frame_plug]
      rcases hi with hi | hi | hi
      · split at hi
        · exact .inr (.inr (hi ▸ hp))
        · exact .inl hi
      · exact .inr (.inl hi)
      · exact .inr (.inr (hsub hi))

/-! ## How low the bits go

A new node among equal keys stands at the end of the nodes on the right, or above the lowest ones of them if no bit
is free below, as in a binary counter. What the bits weigh grows by one at most with each entry, so that the bits go
down with the logarithm of their number only. -/

/-- What the bit of a node weighs: nothing above different keys, else one at -1 and twice as much for each step down. -/
def weight (bit : Int) : Nat := if bit < 0 then 2 ^ (-bit - 1).toNat else 0

theorem weight_of_nonneg (h : 0 ≤ bit) : weight bit = 0 := if_neg (Int.not_lt.mpr h)

theorem weight_neg_one : weight (-1) = 1 := rfl

/-- Each step down doubles the weight. -/
theorem weight_pred (h : bit < 0) : weight (bit - 1) = weight bit + weight bit := by
  have hnext : (-(bit - 1) - 1).toNat = (-bit - 1).toNat + 1 := by omega
  rw [weight, weight, if_pos h, if_pos (by omega), hnext, Nat.pow_succ, Nat.mul_two]

theorem weight_anti {low : Int} (h : low ≤ bit) (hneg : bit < 0) : weight bit ≤ weight low := by
  rw [weight, weight, if_pos hneg, if_pos (by omega)]
  exact Nat.pow_le_pow_right Nat.zero_lt_two (by omega)

/-- A bit that weighs little is not low. -/
theorem le_of_weight_lt {k : Nat} (h : weight bit < 2 ^ k) : -k ≤ bit := by
  by_contra hlow
  rw [weight, if_pos (by omega), Nat.pow_lt_pow_iff_right (by decide)] at h
  omega

/-- What the bits of a tree weigh. -/
def ETree.load : ETree ι → Nat
  | .leaf _ => 0
  | .node _ bit l r => max (weight bit) l.load + r.load

theorem load_frame_plug (f : Frame ι) (t : ETree ι) :
    (f.plug t).load = if f.side then max (weight f.bit) f.sibling.load + t.load else
      max (weight f.bit) t.load + f.sibling.load := by
  unfold Frame.plug
  split <;> rfl

/-- What a tree gains it gains in its place. -/
theorem load_plug_le {k : Nat} (h : t'.load ≤ t.load + k) : (plug fs t').load ≤ (plug fs t).load + k := by
  induction fs generalizing t t' with
  | nil => exact h
  | cons f fs ih =>
    refine ih ?_
    rw [load_frame_plug, load_frame_plug]
    split <;> omega

theorem load_le_plug (fs : List (Frame ι)) (t : ETree ι) : t.load ≤ (plug fs t).load := by
  induction fs generalizing t with
  | nil => exact Nat.le_refl _
  | cons f fs ih =>
    refine Nat.le_trans ?_ (ih (f.plug t))
    rw [load_frame_plug]
    split <;> omega

theorem load_sibling_le (f : Frame ι) (t : ETree ι) : f.sibling.load ≤ (f.plug t).load := by
  rw [load_frame_plug]
  split <;> omega

/-- The bit of each node counts. -/
theorem weight_le_load {l r : ETree ι} (fs : List (Frame ι)) (i : ι) (bit : Int) :
    weight bit ≤ (plug fs (.node i bit l r)).load := by
  refine Nat.le_trans ?_ (load_le_plug fs _)
  rw [ETree.load]
  omega

theorem load_join {right : Bool} (h : weight bit ≤ t.load + 1) (hright : right = false → 0 ≤ bit) :
    (join a bit right t).load ≤ t.load + 1 := by
  unfold join
  cases right with
  | true =>
    rw [if_pos rfl]
    simp only [ETree.load]
    omega
  | false =>
    have hzero := weight_of_nonneg (hright rfl)
    rw [if_neg Bool.false_ne_true]
    simp only [ETree.load]
    omega

theorem load_rename [DecidableEq ι] (p : ι) (fs : List (Frame ι)) (t : ETree ι) :
    (plug (fs.map (Frame.rename i p)) t).load = (plug fs t).load := by
  induction fs generalizing t with
  | nil => rfl
  | cons f fs ih =>
    have hload : ((f.rename i p).plug t).load = (f.plug t).load := by
      rw [load_frame_plug, load_frame_plug, rename_bit, rename_side, rename_sibling]
    rw [List.map_cons, plug, ih, plug]
    exact Nat.le_antisymm (load_plug_le (k := 0) (Nat.le_of_eq hload)) (load_plug_le (k := 0) (Nat.le_of_eq hload.symm))

/-- From a node with this bit on the bits of the nodes on the right leave no hole, down to the last one. -/
def Full : Int → ETree ι → Prop
  | bit, .leaf _ => -1 ≤ bit
  | bit, .node _ bit' _ r => bit' ≤ bit + 1 ∧ Full bit' r

/-- Where no bit is free the next lower one weighs one more than all of them at most. -/
theorem Full.weight_pred_le {r : ETree ι} (h : Full bit r) (hneg : bit < 0) :
    weight (bit - 1) ≤ weight bit + r.load + 1 := by
  induction r generalizing bit with
  | leaf i =>
    obtain rfl : bit = -1 := Int.le_antisymm (Int.le_sub_one_of_lt hneg) h
    exact Nat.le_refl 2
  | node i bit' l r _ ih =>
    obtain ⟨hle, hfull⟩ := h
    rw [weight_pred hneg, ETree.load]
    by_cases hneg' : bit' < 0
    · have hrest := ih hfull hneg'
      have hstep : weight bit ≤ weight (bit' - 1) := weight_anti (by omega) hneg
      omega
    · obtain rfl : bit = -1 := by omega
      rw [weight_neg_one]
      omega

/-! ## Places of leaves -/

/-- Each leaf has its place. -/
theorem exists_place {t : ETree ι} (h : i ∈ t.leaves) : ∃ fs, t = plug fs (.leaf i) := by
  have hin : ∀ gs, ∃ fs, plug gs t = plug fs (.leaf i) := by
    induction t with
    | leaf j =>
      rw [List.mem_singleton.mp h]
      exact fun gs => ⟨gs, rfl⟩
    | node k bit l r hl hr =>
      intro gs
      rcases List.mem_append.mp h with h | h
      · exact hl h (⟨k, bit, false, r⟩ :: gs)
      · exact hr h (⟨k, bit, true, l⟩ :: gs)
  exact hin []

/-- Each node has its place. -/
theorem exists_node {t : ETree ι} (h : i ∈ t.owners) : ∃ fs bit l r, t = plug fs (.node i bit l r) := by
  have hin : ∀ gs, ∃ fs bit l r, plug gs t = plug fs (.node i bit l r) := by
    induction t with
    | leaf j => exact absurd h List.not_mem_nil
    | node k bit l r hl hr =>
      intro gs
      rcases List.mem_cons.mp h with rfl | h
      · exact ⟨gs, bit, l, r, rfl⟩
      · rcases List.mem_append.mp h with h | h
        · exact hl h (⟨k, bit, false, r⟩ :: gs)
        · exact hr h (⟨k, bit, true, l⟩ :: gs)
  exact hin []

end Elastic
