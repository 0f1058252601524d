import ZeroServ.Ebtree.Shape

/-!
# Walks through a tree in memory

`Lists m l`: the memory holds a tree whose entries are `l`, in the order of their keys; `Holds m l`: and no other
entry is in a tree. `eb_first` and `eb_next` go through `l`, and `eb32_lookup_ge` finds the first of its entries
whose key is not below a value; `EbTree` is the theory of such lists.
-/

namespace ZeroServ.Ebtree

open Elastic

/-- A tree in memory as the insertions and deletions leave it. -/
structure Linked (m : Mem) (t : ETree Nat) : Prop where
  rep : RepTree m t
  nodup : t.leaves.Nodup
  owners_nodup : t.owners.Nodup
  owned : Owned t
  ordered : Ordered m.key t
  /-- a node part that is in no use is marked as such -/
  spare : ∀ i ∈ t.leaves, i ∉ t.owners → m.nodeP i = null

/-- The entries of the tree are `l`, in their order. -/
def Lists (m : Mem) (l : List Nat) : Prop :=
  l = [] ∧ m.b .top ebLeft = null ∧ m.b .top ebRght = null ∨ ∃ t, t.leaves = l ∧ Linked m t

/-- All other entries are marked as being in no tree. -/
structure Holds (m : Mem) (l : List Nat) : Prop where
  lists : Lists m l
  unlinked : ∀ i ∉ l, m.leafP i = null

variable {m m' : Mem} {t : ETree Nat} {fs : List (Frame Nat)} {l p s : List Nat} {i n fuel : Nat}
    {x : BitVec 32} {c : Troot}

theorem holds_init (key : Nat → BitVec 32) : Holds (Mem.init key) [] := ⟨.inl ⟨rfl, rfl, rfl⟩, fun _ _ => rfl⟩

/-- A tree that is not empty. -/
theorem Lists.linked (h : Lists m l) (hl : l ≠ []) : ∃ t, t.leaves = l ∧ Linked m t :=
  Or.resolve_left h fun hnil => hl hnil.1

theorem Lists.nodup (h : Lists m l) : l.Nodup := by
  rcases h with ⟨rfl, -⟩ | ⟨t, rfl, ht⟩
  · exact List.nodup_nil
  · exact ht.nodup

/-- The branch at the top is NULL in an empty tree only. -/
theorem Lists.top_eq_null (h : Lists m l) : m.b .top ebLeft = null ↔ l = [] := by
  rcases h with ⟨rfl, hb, -⟩ | ⟨t, rfl, ht⟩
  · exact iff_of_true hb rfl
  · refine iff_of_false ?_ t.leaves_ne_nil
    rw [ht.rep.1.1]
    exact troot_ne_null t

theorem leafP_ne_null (h : Linked m t) (hi : i ∈ t.leaves) : m.leafP i ≠ null := by
  obtain ⟨fs, rfl⟩ := exists_place hi
  have hrep : m.leafP i = upOf fs := ((repTree_plug fs (.leaf i)).mp h.rep).2
  rw [hrep]
  cases fs <;> simp [upOf, ebDotag, null]

/-- `leaf_p` tells whether an entry is in the tree. -/
theorem Holds.leafP_eq_null (h : Holds m l) : m.leafP i = null ↔ i ∉ l := by
  refine ⟨fun hp hi => ?_, h.unlinked i⟩
  obtain ⟨t, rfl, ht⟩ := h.lists.linked (List.ne_nil_of_mem hi)
  exact leafP_ne_null ht hi hp

theorem around_lt_leaves (fs : List (Frame Nat)) (t : ETree Nat) : (around fs).length < (plug fs t).leaves.length := by
  have h₁ := (owners_plug fs t).length_eq
  have h₂ := (plug fs t).length_leaves
  rw [List.length_append] at h₁
  omega

theorem owners_lt_leaves (fs : List (Frame Nat)) (t : ETree Nat) : t.owners.length < (plug fs t).leaves.length := by
  have h₁ := (owners_plug fs t).length_eq
  have h₂ := (plug fs t).length_leaves
  rw [List.length_append] at h₁
  omega

/-- `eb_first` gives the first entry. -/
theorem ebFirst_spec (h : Lists m l) (hfuel : l.length < fuel) : ebFirst m fuel = some l.head? := by
  rcases h with ⟨rfl, hb, -⟩ | ⟨t, rfl, ht⟩
  · obtain ⟨n, rfl⟩ := Nat.exists_eq_succ_of_ne_zero (Nat.ne_of_gt (Nat.zero_lt_of_lt hfuel))
    simp [ebFirst, hb, ebWalkDown, null]
  · obtain ⟨⟨hb, -⟩, hrep⟩ := ht.rep
    rw [ebFirst, hb, ebWalkDown_left hrep (t.depth_lt.trans hfuel), t.head?_leaves]

/-- `eb_next` gives the entry that follows. -/
theorem ebNext_spec (h : Lists m (p ++ i :: s)) (hfuel : (p ++ i :: s).length < fuel) :
    ebNext m fuel i = some s.head? := by
  obtain ⟨t, hleaves, ht⟩ := h.linked (by simp)
  obtain ⟨fs, rfl⟩ := exists_place (t := t) (i := i) (by simp [hleaves])
  obtain ⟨hat, hrep⟩ := (repTree_plug fs (.leaf i)).mp ht.rep
  have hsplit := leaves_plug fs (.leaf i)
  have hnodup := h.nodup
  have hs : after fs = s := by
    rw [hleaves, ETree.leaves_leaf, List.append_assoc, List.singleton_append] at hsplit
    have hnotin : i ∉ before fs ∧ i ∉ after fs := by
      rw [hsplit] at hnodup
      obtain ⟨-, hcons, hdisj⟩ := List.nodup_append.mp hnodup
      exact ⟨fun hi => hdisj i hi i List.mem_cons_self rfl, (List.nodup_cons.mp hcons).1⟩
    exact ((List.append_cons_inj_of_notMem hnotin.1 hnotin.2).mp hsplit.symm).2.2
  have hlt := around_lt_leaves fs (.leaf i)
  rw [hleaves] at hlt
  rw [ebNext, show m.leafP i = upOf fs from hrep, ebAfter_spec hat (hlt.trans hfuel), hs]

/-! ## Entries that are in no tree -/

/-- The key of an entry, which the callers set. -/
def Mem.setKey (m : Mem) (i : Nat) (x : BitVec 32) : Mem := { m with key := Function.update m.key i x }

/-- The memory has changed in one entry at most. -/
structure EqOff (i : Nat) (m m' : Mem) : Prop where
  top : m'.b .top = m.b .top
  b : ∀ j ≠ i, m'.b (.node j) = m.b (.node j)
  nodeP : ∀ j ≠ i, m'.nodeP j = m.nodeP j
  leafP : ∀ j ≠ i, m'.leafP j = m.leafP j
  bit : ∀ j ≠ i, m'.bit j = m.bit j
  key : ∀ j ≠ i, m'.key j = m.key j

/-- What is in an entry that is in no tree does not matter. -/
theorem Linked.eqOff (h : Linked m t) (hi : i ∉ t.leaves) (hm : EqOff i m m') : Linked m' t := by
  have hne : ∀ j ∈ t.leaves, j ≠ i := by
    rintro j hj rfl
    exact hi hj
  have hown : ∀ j ∈ t.owners, j ≠ i := fun j hj => hne j (h.owned.mem_leaves j hj)
  have hsame : Same m m' t.leaves t.owners :=
    ⟨fun j hj => hm.leafP j (hne j hj), fun j hj => hm.nodeP j (hown j hj), fun j hj => hm.bit j (hown j hj),
      fun j hj side => congrFun (hm.b j (hown j hj)) side⟩
  refine ⟨⟨?_, ?_⟩, h.nodup, h.owners_nodup, h.owned, ?_, fun j hj hno => ?_⟩
  · exact h.rep.1.congr (hsame.mono (fun _ hj => absurd hj List.not_mem_nil) fun _ hj =>
      absurd hj List.not_mem_nil) hm.top
  · exact h.rep.2.congr hsame
  · exact h.ordered.congr_key h.owned fun j hj => hm.key j (hne j hj)
  · rw [hm.nodeP j (hne j hj), h.spare j hj hno]

theorem Lists.eqOff (h : Lists m l) (hi : i ∉ l) (hm : EqOff i m m') : Lists m' l := by
  rcases h with ⟨hl, h₀, h₁⟩ | ⟨t, rfl, ht⟩
  · exact .inl ⟨hl, by rw [hm.top, h₀], by rw [hm.top, h₁]⟩
  · exact .inr ⟨t, rfl, ht.eqOff hi hm⟩

/-- As long as it is marked so, it can be inserted. -/
theorem Holds.eqOff (h : Holds m l) (hi : i ∉ l) (hm : EqOff i m m') (hleaf : m'.leafP i = null) : Holds m' l where
  lists := h.lists.eqOff hi hm
  unlinked := by
    intro j hj
    by_cases hji : j = i
    · rw [hji, hleaf]
    · rw [hm.leafP j hji, h.unlinked j hj]

theorem eqOff_setKey (m : Mem) (i : Nat) (x : BitVec 32) : EqOff i m (m.setKey i x) :=
  ⟨rfl, fun _ _ => rfl, fun _ _ => rfl, fun _ _ => rfl, fun _ _ => rfl, fun _ hj => Function.update_of_ne hj _ _⟩

theorem Holds.setKey (h : Holds m l) (hi : i ∉ l) (x : BitVec 32) : Holds (m.setKey i x) l :=
  h.eqOff hi (eqOff_setKey m i x) (h.unlinked i hi)

/-! ## `eb32_lookup_ge` -/

/-- Where all leaves of a tree are below the value, the first one that is not comes after it. -/
theorem head?_below {key : Nat → BitVec 32} (h : ∀ i ∈ p, key i < x) (hs : ∀ i ∈ s, x < key i) :
    ((p ++ s).dropWhile fun i => decide (key i < x)).head? = s.head? := by
  rw [List.dropWhile_append_of_pos fun i hi => decide_eq_true (h i hi)]
  cases s with
  | nil => rfl
  | cons i s =>
    rw [List.dropWhile_cons_of_neg]
    simpa using BitVec.le_of_lt (hs i List.mem_cons_self)

theorem head?_above {key : Nat → BitVec 32} (h : x ≤ key t.first) :
    ((t.leaves ++ s).dropWhile fun i => decide (key i < x)).head? = some t.first := by
  have hhead := t.head?_leaves
  cases hs : t.leaves with
  | nil => exact absurd hs t.leaves_ne_nil
  | cons i p =>
    rw [hs, List.head?_cons, Option.some.injEq] at hhead
    subst hhead
    rw [List.cons_append, List.dropWhile_cons_of_neg (by simpa using h), List.head?_cons]

/-- What `eb32_lookup_ge` finds at a place that the value fits into. -/
theorem lookupGeLoop_spec (hat : RepAt m fs (troot t)) (hrep : Rep m t (upOf fs)) (hord : Ordered m.key (plug fs t))
    (hfit : Fits m.key fs x)
    (hbit : ∀ f ∈ fs, 0 ≤ f.bit) (hfuel : (plug fs t).leaves.length ≤ fuel) (hn : t.depth < n) :
    lookupGeLoop m fuel x n (troot t) = some ((t.leaves ++ after fs).dropWhile fun i =>
      decide (m.key i < x)).head? := by
  induction t generalizing fs n with
  | leaf i =>
    obtain ⟨n, rfl⟩ := Nat.exists_eq_succ_of_ne_zero (Nat.ne_of_gt (Nat.zero_lt_of_lt hn))
    obtain ⟨-, hafter⟩ := hord.around_place hfit fun f hf hneg => absurd (hbit f hf) (Int.not_le.mpr hneg)
    have hnext : ebAfter m fuel (upOf fs) = some (after fs).head? :=
      ebAfter_spec hat (Nat.lt_of_lt_of_le (around_lt_leaves fs _) hfuel)
    have hstep : lookupGeLoop m fuel x (n + 1) (troot (.leaf i)) =
      if x ≤ m.key i then some (some i) else ebAfter m fuel (m.leafP i) := rfl
    rw [hstep]
    split
    · next hge =>
      rw [head?_above (t := .leaf i) hge]
      rfl
    · next hlt =>
      rw [head?_below (fun j hj => ?_) hafter, show m.leafP i = upOf fs from hrep, hnext]
      rw [List.mem_singleton.mp hj]
      exact BitVec.not_le.mp hlt
  | node i bit l r hl hr =>
    obtain ⟨n, rfl⟩ := Nat.exists_eq_succ_of_ne_zero (Nat.ne_of_gt (Nat.zero_lt_of_lt hn))
    obtain ⟨-, hafter⟩ := hord.around_place hfit fun f hf hneg => absurd (hbit f hf) (Int.not_le.mpr hneg)
    have hnext : ebAfter m fuel (upOf fs) = some (after fs).head? :=
      ebAfter_spec hat (Nat.lt_of_lt_of_le (around_lt_leaves fs _) hfuel)
    obtain ⟨hp, hmbit, hb₀, hb₁, hrl, hrr⟩ := hrep
    have hown := hord.of_plug
    have hwalk : ebWalkDown m fuel (m.b (.node i) ebLeft) ebLeft = some (some (ETree.node i bit l r).first) := by
      rw [hb₀]
      refine ebWalkDown_left hrl ?_
      have h₁ := owners_lt_leaves fs (.node i bit l r)
      have h₂ := depth_le_owners l
      rw [ETree.owners_node, List.length_cons, List.length_append] at h₁
      omega
    have hstep : lookupGeLoop m fuel x (n + 1) (troot (.node i bit l r)) =
        if m.bit i < 0 then
          if x ≤ m.key i then ebWalkDown m fuel (m.b (.node i) ebLeft) ebLeft else ebAfter m fuel (m.nodeP i)
        else if 2 ≤ ((x ^^^ m.key i) >>> (m.bit i).toNat).toNat then
          if x >>> (m.bit i).toNat < m.key i >>> (m.bit i).toNat then ebWalkDown m fuel (m.b (.node i) ebLeft) ebLeft
          else ebAfter m fuel (m.nodeP i)
        else lookupGeLoop m fuel x n (m.b (.node i) (x.getLsbD (m.bit i).toNat)) := rfl
    rw [hstep, hmbit, hp, hwalk, hnext]
    by_cases hneg : bit < 0
    · -- a tree of duplicates
      have hdup := hown.node_dup hneg
      rw [if_pos hneg]
      split
      · next hge => rw [head?_above (by rwa [hdup _ (ETree.first_mem _)])]
      · next hlt =>
        rw [head?_below (fun j hj => ?_) hafter]
        rw [hdup j hj]
        exact BitVec.not_le.mp hlt
    · have hpos := Int.not_lt.mp hneg
      have hagree := hown.node_agree hpos
      rw [if_neg hneg]
      by_cases hfar : 2 ≤ ((x ^^^ m.key i) >>> bit.toNat).toNat
      · -- all keys are on the same side of the value
        have hnot : ¬AgreeAbove bit.toNat x (m.key i) :=
          fun h => absurd (AgreeAbove.iff_shift.mp h) (Nat.not_lt.mpr hfar)
        rw [if_pos hfar]
        split
        · next hlt => rw [head?_above (BitVec.le_of_lt ((shift_lt_iff hnot (hagree _ (ETree.first_mem _))).mp hlt))]
        · next hge =>
          rw [head?_below (fun j hj => ?_) hafter]
          have hne : m.key j ≠ x := fun hj' => hnot (hj' ▸ hagree j hj)
          exact BitVec.lt_of_le_ne (BitVec.not_lt.mp (mt (shift_lt_iff hnot (hagree j hj)).mpr hge)) hne
      · have hin : AgreeAbove bit.toNat x (m.key i) := AgreeAbove.iff_shift.mpr (Nat.not_le.mp hfar)
        have hon : OnSide (m.key i) bit (x.getLsbD bit.toNat) x := by
          rw [OnSide, if_neg hneg]
          exact ⟨hin, rfl⟩
        have hdepth : l.depth < n ∧ r.depth < n := by
          rw [ETree.depth] at hn
          omega
        rw [if_neg hfar]
        cases hside : x.getLsbD bit.toNat with
        | false =>
          rw [hside] at hon
          have hat' : RepAt m (⟨i, bit, false, r⟩ :: fs) (troot l) := ⟨hp, hmbit, hb₀, hb₁, hrr, hat⟩
          rw [show m.b (.node i) false = troot l from hb₀,
            hl hat' hrl hord (List.forall_mem_cons.mpr ⟨hon, hfit⟩)
            (List.forall_mem_cons.mpr ⟨hpos, hbit⟩) hfuel hdepth.1]
          simp [after]
        | true =>
          rw [hside] at hon
          have hat' : RepAt m (⟨i, bit, true, l⟩ :: fs) (troot r) := ⟨hp, hmbit, hb₁, hb₀, hrl, hat⟩
          rw [show m.b (.node i) true = troot r from hb₁,
            hr hat' hrr hord (List.forall_mem_cons.mpr ⟨hon, hfit⟩)
            (List.forall_mem_cons.mpr ⟨hpos, hbit⟩) hfuel hdepth.2]
          have hleft : ∀ j ∈ l.leaves, decide (m.key j < x) = true :=
            fun j hj => decide_eq_true ((hown.1 j hj).lt hpos hon)
          rw [ETree.leaves_node, List.append_assoc, List.dropWhile_append_of_pos hleft]
          simp [after]

/-- `eb32_lookup_ge` gives the first entry whose key is not below the value. -/
theorem eb32LookupGe_spec (h : Lists m l) (x : BitVec 32) (hfuel : l.length ≤ fuel) :
    eb32LookupGe m fuel x = some (EbTree.lookupGe m.key x l).rest.head? := by
  rw [eb32LookupGe]
  rcases h with ⟨rfl, hb, -⟩ | ⟨t, rfl, ht⟩
  · rw [if_pos hb]
    rfl
  · obtain ⟨hat, hrep⟩ := ht.rep
    have hloop := lookupGeLoop_spec hat hrep ht.ordered (fun _ hf => absurd hf List.not_mem_nil)
      (fun _ hf => absurd hf List.not_mem_nil) hfuel (Nat.lt_of_lt_of_le t.depth_lt hfuel) (x := x)
    rw [if_neg (mt (Lists.top_eq_null (.inr ⟨t, rfl, ht⟩)).mp t.leaves_ne_nil), hat.1, hloop, after, List.append_nil]
    rfl

end ZeroServ.Ebtree
