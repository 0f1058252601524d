import ZeroServ.Ebtree.Walk

/-!
# Insertion

Each branch of `eb32_insert` puts the node of the new entry above a tree `e` that stands at some place (`Attached`);
the branches differ in the place, the bit and the side of the new leaf. With the keys this makes the list of
`EbTree.insert` of the list of the entries (`eb32Insert_spec`).
-/

namespace ZeroServ.Ebtree

open Elastic

/-- The entry that a tree begins with. -/
def entry : ETree Nat → Nat
  | .leaf i => i
  | .node i _ _ _ => i

/-- The pointer to its parent in what a tree begins with. -/
def upPtr (m : Mem) (t : ETree Nat) : Troot := if (troot t).tag = ebLeaf then m.leafP (entry t) else m.nodeP (entry t)

/-- The node of a new entry was put above the tree `e`, with its own leaf on the right of it or on the left. -/
structure Attached (m m' : Mem) (fs : List (Frame Nat)) (e : ETree Nat) (new : Nat) (bit : Int)
    (right : Bool) : Prop where
  nodeP : m'.nodeP new = upOf fs
  bit : m'.bit new = bit
  leafP : m'.leafP new = ebDotag (.node new) right
  own : m'.b (.node new) right = ebDotag (.node new) ebLeaf
  below : m'.b (.node new) (!right) = troot e
  child : upPtr m' e = ebDotag (.node new) !right
  place : ∀ root side, upOf fs = ebDotag root side → m'.b root side = ebDotag (.node new) ebNode
  otherLeafP : ∀ i, i ≠ new → ((troot e).tag = ebLeaf → i ≠ entry e) → m'.leafP i = m.leafP i
  otherNodeP : ∀ i, i ≠ new → ((troot e).tag = ebNode → i ≠ entry e) → m'.nodeP i = m.nodeP i
  otherBit : ∀ i, i ≠ new → m'.bit i = m.bit i
  otherB : ∀ root side, root ≠ .node new → upOf fs ≠ ebDotag root side → m'.b root side = m.b root side
  key : m'.key = m.key

variable {m m' : Mem} {t e : ETree Nat} {fs gs : List (Frame Nat)} {l p s : List Nat} {i n new fuel : Nat} {bit : Int}
    {right : Bool}
  {x : BitVec 32} {c up : Troot}

theorem troot_entry (t : ETree Nat) : (troot t).entry = some (entry t) := by
  cases t <;> rfl

theorem entry_mem_leaves (h : Owned e) : entry e ∈ e.leaves := by
  cases e with
  | leaf i => exact List.mem_cons_self
  | node i bit l r => exact List.mem_append.mpr h.1

theorem entry_mem_owners (h : (troot e).tag = ebNode) : entry e ∈ e.owners := by
  cases e with
  | leaf i => exact absurd h Bool.noConfusion
  | node i bit l r => exact List.mem_cons_self

theorem Rep.upPtr (h : Rep m t up) : upPtr m t = up := by
  cases t with
  | leaf i => exact h
  | node i bit l r => exact h.1

/-- The branch at a place. -/
theorem RepAt.branch (h : RepAt m fs c) {root : Addr} {side : Bool} (hup : upOf fs = ebDotag root side) :
    m.b root side = c := by
  cases fs with
  | nil =>
    obtain ⟨rfl, rfl⟩ : Addr.top = root ∧ ebLeft = side := by simpa [upOf, ebDotag] using hup
    exact h.1
  | cons f fs =>
    obtain ⟨rfl, rfl⟩ : Addr.node f.owner = root ∧ f.side = side := by simpa [upOf, ebDotag] using hup
    exact h.2.2.1

/-! ## What the insertion of a node makes of a tree -/

/-- The entries around a place and those in the tree there. -/
theorem mem_leaves_plug {j : Nat} : j ∈ (plug fs e).leaves ↔ j ∈ e.leaves ∨ j ∈ beside fs := by
  simp only [leaves_plug, beside, List.mem_append]
  tauto

theorem mem_owners_plug {j : Nat} : j ∈ (plug fs e).owners ↔ j ∈ e.owners ∨ j ∈ around fs := by
  rw [(owners_plug fs e).mem_iff, List.mem_append, or_comm]

/-- The nodes of a tree and those around it are of different entries. -/
theorem Linked.owners_disjoint (h : Linked m (plug fs e)) :
    (around fs).Nodup ∧ e.owners.Nodup ∧ ∀ j ∈ around fs, j ∉ e.owners := by
  obtain ⟨h₁, h₂, h₃⟩ := List.nodup_append.mp ((owners_plug fs e).nodup_iff.mp h.owners_nodup)
  exact ⟨h₁, h₂, fun j hj hj' => h₃ j hj j hj' rfl⟩

theorem Linked.leaves_disjoint (h : Linked m (plug fs e)) : e.leaves.Nodup ∧ ∀ j ∈ beside fs, j ∉ e.leaves := by
  have hnodup := h.nodup
  rw [leaves_plug] at hnodup
  obtain ⟨h₁, h₂, h₃⟩ := List.nodup_append.mp hnodup
  obtain ⟨h₄, h₅, h₆⟩ := List.nodup_append.mp h₁
  refine ⟨h₅, fun j hj hj' => ?_⟩
  rcases List.mem_append.mp hj with hj | hj
  · exact h₆ j hj j hj' rfl
  · exact h₃ j (List.mem_append_right _ hj') j hj rfl

namespace Attached

variable (hatt : Attached m m' fs e new bit right) (h : Linked m (plug fs e)) (hnew : new ∉ (plug fs e).leaves)

include hatt h hnew

/-- Below the new node nothing else has changed. -/
theorem rep : Rep m' e (ebDotag (.node new) !right) := by
  have hrep := ((repTree_plug fs e).mp h.rep).2
  have hleaf : ∀ j ∈ e.leaves, j ≠ new := by
    rintro j hj rfl
    exact hnew (mem_leaves_plug.mpr (.inl hj))
  have hown : ∀ j ∈ e.owners, j ≠ new := fun j hj => hleaf j (h.owned.of_plug.mem_leaves j hj)
  have hchild := hatt.child
  obtain ⟨-, hnodup, -⟩ := h.owners_disjoint
  cases e with
  | leaf i => exact hchild
  | node i bit' l r =>
    obtain ⟨-, hbit, hb₀, hb₁, hrl, hrr⟩ := hrep
    have hi : i ∈ (ETree.node i bit' l r).owners := List.mem_cons_self
    have hiown : i ∉ l.owners ++ r.owners := (List.nodup_cons.mp hnodup).1
    have hneup : ∀ side, ∀ j ∈ (ETree.node i bit' l r).owners, upOf fs ≠ ebDotag (.node j) side := by
      intro side j hj heq
      cases fs with
      | nil => simp [upOf, ebDotag] at heq
      | cons f fs =>
        obtain ⟨rfl, -⟩ : f.owner = j ∧ f.side = side := by simpa [upOf, ebDotag] using heq
        exact h.owners_disjoint.2.2 f.owner List.mem_cons_self hj
    have hb (j : Nat) (hj : j ∈ (ETree.node i bit' l r).owners) (side : Bool) : m'.b (.node j) side =
        m.b (.node j) side :=
      hatt.otherB _ _ (by simpa using hown j hj) (hneup side j hj)
    have hsame : Same m m' (l.leaves ++ r.leaves) (l.owners ++ r.owners) := by
      refine ⟨fun j hj => hatt.otherLeafP j (hleaf j hj) fun htag => ?_, fun j hj => ?_, fun j hj => ?_, fun j hj => ?_⟩
      · exact absurd htag Bool.noConfusion
      · exact hatt.otherNodeP j (hown j (List.mem_cons_of_mem _ hj)) fun _ heq => hiown ((show j = i from heq) ▸ hj)
      · exact hatt.otherBit j (hown j (List.mem_cons_of_mem _ hj))
      · exact hb j (List.mem_cons_of_mem _ hj)
    refine ⟨hchild, (hatt.otherBit i (hown i hi)).trans hbit, (hb i hi _).trans hb₀, (hb i hi _).trans hb₁, ?_, ?_⟩
    · exact hrl.congr (hsame.mono (List.subset_append_left _ _) (List.subset_append_left _ _))
    · exact hrr.congr (hsame.mono (List.subset_append_right _ _) (List.subset_append_right _ _))

/-- Around the place nothing has changed but the branch there. -/
theorem repAt : RepAt m' fs (ebDotag (.node new) ebNode) := by
  have hat := ((repTree_plug fs e).mp h.rep).1
  have hleaf : ∀ j ∈ beside fs, m'.leafP j = m.leafP j := by
    intro j hj
    refine hatt.otherLeafP j ?_ fun _ heq => ?_
    · rintro rfl
      exact hnew (mem_leaves_plug.mpr (.inr hj))
    · refine h.leaves_disjoint.2 j hj ?_
      rw [heq]
      exact entry_mem_leaves h.owned.of_plug
  have hne : ∀ j ∈ around fs, j ≠ new := by
    rintro j hj rfl
    exact hnew (h.owned.mem_leaves j (mem_owners_plug.mpr (.inr hj)))
  have hnodeP : ∀ j ∈ around fs, m'.nodeP j = m.nodeP j := by
    intro j hj
    refine hatt.otherNodeP j (hne j hj) fun htag heq => ?_
    refine h.owners_disjoint.2.2 j hj ?_
    rw [heq]
    exact entry_mem_owners htag
  have hbit : ∀ j ∈ around fs, m'.bit j = m.bit j := fun j hj => hatt.otherBit j (hne j hj)
  have hnodup := h.owners_disjoint.1
  have hplace := hatt.place
  have hb := hatt.otherB
  cases fs with
  | nil => exact ⟨hplace _ _ rfl, (hb .top ebRght (by simp) (by simp [upOf, ebDotag])).trans hat.2⟩
  | cons f fs =>
    obtain ⟨hp, hfbit, -, hb₁, hsib, hrest⟩ := hat
    have hout := (List.nodup_cons.mp hnodup).1
    have hbsame : ∀ j ∈ f.sibling.owners ++ around fs, ∀ side, m'.b (.node j) side = m.b (.node j) side := by
      intro j hj side
      refine hb _ _ (by simpa using hne j (List.mem_cons_of_mem _ hj)) fun heq => ?_
      obtain ⟨rfl, -⟩ : f.owner = j ∧ f.side = side := by simpa [upOf, ebDotag] using heq
      exact hout hj
    have hsame : Same m m' (beside (f :: fs)) (f.sibling.owners ++ around fs) :=
      ⟨hleaf, fun j hj => hnodeP j (List.mem_cons_of_mem _ hj), fun j hj => hbit j (List.mem_cons_of_mem _ hj), hbsame⟩
    refine ⟨(hnodeP _ List.mem_cons_self).trans hp, (hbit _ List.mem_cons_self).trans hfbit, hplace _ _ rfl, ?_, ?_, ?_⟩
    · refine (hb _ _ (by simpa using hne _ List.mem_cons_self) ?_).trans hb₁
      simp [upOf, ebDotag]
    · exact hsib.congr (hsame.mono (fun k hk => mem_beside_cons.mpr (.inl hk)) (List.subset_append_left _ _))
    · refine hrest.congr (hsame.mono (fun k hk => mem_beside_cons.mpr (.inr hk)) (List.subset_append_right _ _)) ?_
      funext side
      exact hb .top side (by simp) (by simp [upOf, ebDotag])

theorem repTree : RepTree m' (plug fs (join new bit right e)) := by
  have hrep := hatt.rep h hnew
  have hleafP := hatt.leafP
  have hown := hatt.own
  have hbelow := hatt.below
  rw [repTree_plug, join]
  cases right with
  | true => exact ⟨hatt.repAt h hnew, hatt.nodeP, hatt.bit, hbelow, hown, hrep, hleafP⟩
  | false => exact ⟨hatt.repAt h hnew, hatt.nodeP, hatt.bit, hown, hbelow, hleafP, hrep⟩

/-- The tree with the new entry, if its leaves are on their sides. -/
theorem linked (hord : Ordered m.key (plug fs (join new bit right e))) :
    Linked m' (plug fs (join new bit right e)) where
  rep := hatt.repTree h hnew
  nodup := by
    have hperm : (plug fs (join new bit right e)).leaves.Perm (new :: (plug fs e).leaves) := by
      rw [leaves_plug, leaves_plug, leaves_join]
      split
      · rw [← List.append_assoc, List.append_assoc _ [new], List.singleton_append]
        exact List.perm_middle
      · rw [List.append_assoc, List.append_assoc, List.cons_append]
        exact List.perm_middle
    exact hperm.nodup_iff.mpr (List.nodup_cons.mpr ⟨hnew, h.nodup⟩)
  owners_nodup := by
    have hperm : (plug fs (join new bit right e)).owners.Perm (new :: (plug fs e).owners) := by
      refine (owners_plug fs _).trans (List.Perm.trans ?_ ((owners_plug fs e).symm.cons new))
      rw [owners_join]
      exact List.perm_middle
    exact hperm.nodup_iff.mpr (List.nodup_cons.mpr ⟨fun hi => hnew (h.owned.mem_leaves new hi), h.owners_nodup⟩)
  owned := h.owned.replug (owned_join h.owned.of_plug) fun j hj => mem_leaves_join.mpr (.inr hj)
  ordered := by rwa [hatt.key]
  spare := by
    intro i hi hno
    rw [mem_leaves_plug, mem_leaves_join] at hi
    rw [mem_owners_plug, owners_join, List.mem_cons, not_or, not_or] at hno
    have hne : i ≠ new := hno.1.1
    have hold : i ∈ (plug fs e).leaves := mem_leaves_plug.mpr (hi.imp_left fun hi => hi.resolve_left hne)
    have hspare := h.spare i hold fun ho => (mem_owners_plug.mp ho).elim hno.1.2 hno.2
    rw [hatt.otherNodeP i hne fun htag heq => ?_, hspare]
    refine hno.1.2 ?_
    rw [heq]
    exact entry_mem_owners htag

end Attached

/-! ## Where the entry goes -/

/-- Where the descent stops: at a leaf, above duplicates, or where the new key has left the keys below. -/
def Stop (key : Nat → BitVec 32) (x : BitVec 32) : ETree Nat → Prop
  | .leaf _ => True
  | .node i bit _ _ => bit < 0 ∨ ¬AgreeAbove bit.toNat x (key i)

/-- The descent ends at a place that the new key fits into. -/
theorem insertDown_spec (hat : RepAt m fs (troot t)) (hrep : Rep m t (upOf fs)) (hfit : Fits m.key fs x)
    (hbit : ∀ f ∈ fs, 0 ≤ f.bit)
    {root : Addr} {side : Bool} (hup : upOf fs = ebDotag root side) (hn : t.depth < n) :
    ∃ root' side' gs e, insertDown m x n root side = some (root', side') ∧ plug fs t = plug gs e ∧
      upOf gs = ebDotag root' side' ∧
      Fits m.key gs x ∧ (∀ f ∈ gs, 0 ≤ f.bit) ∧ Stop m.key x e := by
  induction t generalizing fs root side n with
  | leaf i =>
    obtain ⟨n, rfl⟩ := Nat.exists_eq_succ_of_ne_zero (Nat.ne_of_gt (Nat.zero_lt_of_lt hn))
    refine ⟨root, side, fs, .leaf i, ?_, rfl, hup, hfit, hbit, trivial⟩
    rw [insertDown, hat.branch hup]
    rfl
  | node i bit l r hl hr =>
    obtain ⟨n, rfl⟩ := Nat.exists_eq_succ_of_ne_zero (Nat.ne_of_gt (Nat.zero_lt_of_lt hn))
    obtain ⟨hp, hmbit, hb₀, hb₁, hrl, hrr⟩ := hrep
    have hstep : insertDown m x (n + 1) root side =
        if m.bit i < 0 ∨ 2 ≤ ((x ^^^ m.key i) >>> (m.bit i).toNat).toNat then some (root, side)
        else insertDown m x n (.node i) (x.getLsbD (m.bit i).toNat) := by
      rw [insertDown, hat.branch hup]
      rfl
    rw [hstep, hmbit]
    by_cases hstop : bit < 0 ∨ 2 ≤ ((x ^^^ m.key i) >>> bit.toNat).toNat
    · rw [if_pos hstop]
      refine ⟨root, side, fs, .node i bit l r, rfl, rfl, hup, hfit, hbit, hstop.imp_right fun hfar hagree => ?_⟩
      exact absurd (AgreeAbove.iff_shift.mp hagree) (Nat.not_lt.mpr hfar)
    · rw [if_neg hstop]
      obtain ⟨hneg, hfar⟩ := not_or.mp hstop
      have hon : OnSide (m.key i) bit (x.getLsbD bit.toNat) x := by
        rw [OnSide, if_neg hneg]
        exact ⟨AgreeAbove.iff_shift.mpr (Nat.not_le.mp hfar), rfl⟩
      have hdepth : l.depth < n ∧ r.depth < n := by
        rw [ETree.depth] at hn
        omega
      cases hside : x.getLsbD bit.toNat with
      | false =>
        rw [hside] at hon
        have hat' : RepAt m (⟨i, bit, false, r⟩ :: fs) (troot l) := ⟨hp, hmbit, hb₀, hb₁, hrr, hat⟩
        exact hl hat' hrl (List.forall_mem_cons.mpr ⟨hon, hfit⟩)
          (List.forall_mem_cons.mpr ⟨Int.not_lt.mp hneg, hbit⟩) rfl hdepth.1
      | true =>
        rw [hside] at hon
        have hat' : RepAt m (⟨i, bit, true, l⟩ :: fs) (troot r) := ⟨hp, hmbit, hb₁, hb₀, hrl, hat⟩
        exact hr hat' hrr (List.forall_mem_cons.mpr ⟨hon, hfit⟩)
          (List.forall_mem_cons.mpr ⟨Int.not_lt.mp hneg, hbit⟩) rfl hdepth.2

/-- The parent of a place is not an entry that is not in the tree. -/
theorem Linked.root_ne (h : Linked m (plug fs e)) (hnew : new ∉ (plug fs e).leaves) {root : Addr} {side : Bool}
    (hup : upOf fs = ebDotag root side) : root ≠ .node new := by
  rintro rfl
  cases fs with
  | nil => simp [upOf, ebDotag] at hup
  | cons f fs =>
    obtain ⟨rfl, -⟩ : f.owner = new ∧ f.side = side := by simpa [upOf, ebDotag] using hup
    exact hnew (h.owned.mem_leaves _ (mem_owners_plug.mpr (.inr List.mem_cons_self)))

/-- `insertAbove` puts the new node above what the branch leads to. -/
theorem insertAbove_attached (h : Linked m (plug fs e)) (hnew : new ∉ (plug fs e).leaves) {root : Addr} {side : Bool}
    (hup : upOf fs = ebDotag root side) (bit : Int) :
    Attached m (insertAbove ((m.setNodeP new (upOf fs)).setBit new bit) root side (troot e) (entry e) new) fs e new bit
      (decide (m.key (entry e) ≤ m.key new)) := by
  have hroot : Addr.node new ≠ root := (h.root_ne hnew hup).symm
  have hentry : new ≠ entry e := by
    intro heq
    exact hnew (mem_leaves_plug.mpr (.inl (heq ▸ entry_mem_leaves h.owned.of_plug)))
  have hplace {root' : Addr} {side' : Bool} : upOf fs = ebDotag root' side' ↔ root' = root ∧ side' = side := by
    rw [hup, ebDotag, ebDotag, Troot.mk.injEq, Option.some.injEq, eq_comm, eq_comm (a := side)]
  unfold insertAbove
  split
  · next hle =>
    replace hle : m.key (entry e) ≤ m.key new := hle
    rw [decide_eq_true hle]
    constructor <;> simp +contextual [hroot, hentry, hplace, upPtr]
  · next hgt =>
    replace hgt : ¬m.key (entry e) ≤ m.key new := hgt
    rw [decide_eq_false hgt]
    constructor <;> simp +contextual [hroot, hentry, hplace, upPtr]

/-! ## Duplicates -/

/-- The node of an entry is reached by going to the right only, and if `c` holds no bit is free from there on. -/
def OnSpine (t : ETree Nat) (i : Nat) (c : Prop) : Prop :=
  ∃ gs bit l r, t = plug gs (.node i bit l r) ∧ (∀ g ∈ gs, g.side = true) ∧ (c → Full bit r)

/-- What is in memory of a node below a place. -/
theorem rep_inside (hrep : RepTree m (plug fs (plug gs e))) :
    RepAt m (gs ++ fs) (troot e) ∧ Rep m e (upOf (gs ++ fs)) := by
  rw [← plug_append] at hrep
  exact (repTree_plug _ _).mp hrep

/-- The walk to the right ends at a node whose right branch is a leaf. -/
theorem dupHead_spec {r l : ETree Nat} {head sub : Nat} (hrep : RepTree m (plug fs t))
    (ht : t = plug gs (.node head bit l r))
    (hgs : ∀ g ∈ gs, g.side = true) (hsub : OnSpine t sub (Full bit r)) (hn : r.depth < n) :
    ∃ head' sub' hs bit' l' i, dupHead m n head sub = some (head', sub') ∧ OnSpine t sub' (-1 ≤ bit') ∧
      t = plug hs (.node head' bit' l' (.leaf i)) ∧ ∀ g ∈ hs, g.side = true := by
  induction r generalizing gs bit l head sub n with
  | leaf i =>
    obtain ⟨n, rfl⟩ := Nat.exists_eq_succ_of_ne_zero (Nat.ne_of_gt (Nat.zero_lt_of_lt hn))
    obtain ⟨-, -, -, -, hb₁, -⟩ := rep_inside (ht ▸ hrep)
    refine ⟨head, sub, gs, bit, l, i, ?_, hsub, ht, hgs⟩
    rw [dupHead, hb₁]
    rfl
  | node next bit' l' r' _ ih =>
    obtain ⟨n, rfl⟩ := Nat.exists_eq_succ_of_ne_zero (Nat.ne_of_gt (Nat.zero_lt_of_lt hn))
    obtain ⟨-, -, hmbit, -, hb₁, -, hrest⟩ := rep_inside (ht ▸ hrep)
    have hstep : dupHead m (n + 1) head sub = dupHead m n next (if m.bit head + 1 < m.bit next then next else sub) := by
      rw [dupHead, hb₁]
      rfl
    have ht' : t = plug (⟨head, bit, true, l⟩ :: gs) (.node next bit' l' r') := ht
    have hgs' : ∀ g ∈ (⟨head, bit, true, l⟩ :: gs : List (Frame Nat)), g.side = true :=
      List.forall_mem_cons.mpr ⟨rfl, hgs⟩
    have hsub' : OnSpine t (if m.bit head + 1 < m.bit next then next else sub) (Full bit' r') := by
      rw [hmbit, hrest.2.1]
      split
      · exact ⟨_, bit', l', r', ht', hgs', id⟩
      · next hhole =>
        obtain ⟨ss, bit₂, l₂, r₂, hplace, hss, hfull⟩ := hsub
        exact ⟨ss, bit₂, l₂, r₂, hplace, hss, fun hr => hfull ⟨Int.not_lt.mp hhole, hr⟩⟩
    have hdepth : r'.depth < n := by
      rw [ETree.depth] at hn
      omega
    rw [hstep]
    exact ih ht' hgs' hsub' hdepth

/-- Above leaves of one key a node has a negative bit. -/
theorem bit_neg_of_dup {key : Nat → BitVec 32} {l r : ETree Nat} (h : Ordered key (.node i bit l r))
    (hkey : ∀ j ∈ (ETree.node i bit l r).leaves, key j = x) : bit < 0 := by
  by_contra hneg
  have hlt := (h.1 _ l.first_mem).lt (Int.not_lt.mp hneg) (h.2.1 _ r.first_mem)
  rw [hkey _ (List.mem_append_left _ l.first_mem), hkey _ (List.mem_append_right _ r.first_mem)] at hlt
  exact BitVec.lt_irrefl _ hlt

theorem exists_upOf (fs : List (Frame Nat)) : ∃ root side, upOf fs = ebDotag root side := by
  cases fs with
  | nil => exact ⟨_, _, rfl⟩
  | cons f fs => exact ⟨_, _, rfl⟩

theorem dupLeaf_attached {head : Nat} {l : ETree Nat} {hs : List (Frame Nat)} {bit' : Int}
    (h : Linked m (plug (⟨head, bit', true, l⟩ :: hs) (.leaf i)))
    (hnew : new ∉ (plug (⟨head, bit', true, l⟩ :: hs) (.leaf i)).leaves)
    (bit : Int) : Attached m (dupLeaf (m.setBit new bit) head i new) (⟨head, bit', true, l⟩ :: hs)
    (.leaf i) new bit true := by
  have hroot : Addr.node head ≠ .node new := h.root_ne hnew rfl
  have hi : i ≠ new := by
    rintro rfl
    exact hnew (mem_leaves_plug.mpr (.inl List.mem_cons_self))
  have hleaf : m.leafP i = upOf (⟨head, bit', true, l⟩ :: hs) := ((repTree_plug _ _).mp h.rep).2
  have hplace {root : Addr} {side : Bool} : upOf (⟨head, bit', true, l⟩ :: hs) = ebDotag root side ↔
      root = .node head ∧ side = ebRght := by
    rw [upOf, ebDotag, ebDotag, Troot.mk.injEq, Option.some.injEq, eq_comm, eq_comm (a := true)]
  constructor <;> simp +contextual [dupLeaf, hroot, hi.symm, hleaf, hplace, upPtr, troot, entry]

theorem dupNode_attached {sub : Nat} {l r : ETree Nat} {bit' : Int} (h : Linked m (plug fs (.node sub bit' l r)))
    (hnew : new ∉ (plug fs (.node sub bit' l r)).leaves) {root : Addr} {side : Bool} (hup : upOf fs = ebDotag root side)
    (bit : Int) :
    Attached m (dupNode (m.setBit new bit) root side sub new) fs (.node sub bit' l r) new bit true := by
  have hroot := h.root_ne hnew hup
  have hi : sub ≠ new := by
    rintro rfl
    exact hnew (mem_leaves_plug.mpr (.inl (List.mem_append.mpr h.owned.of_plug.1)))
  have hnode : m.nodeP sub = upOf fs := ((repTree_plug _ _).mp h.rep).2.1
  have hplace {root' : Addr} {side' : Bool} : upOf fs = ebDotag root' side' ↔ root' = root ∧ side' = side := by
    rw [hup, ebDotag, ebDotag, Troot.mk.injEq, Option.some.injEq, eq_comm, eq_comm (a := side)]
  constructor <;> simp +contextual [dupNode, hroot, hi.symm, hnode, hplace, upPtr, troot, entry]

/-- `eb_insert_dup` puts the new node above a tree on the right spine of the duplicates, with its leaf on the right. -/
theorem ebInsertDup_spec {top : Nat} {l r : ETree Nat} (h : Linked m (plug fs (.node top bit l r))) (hbit : bit < 0)
    (hnew : new ∉ (plug fs (.node top bit l r)).leaves) (hfuel : (plug fs (.node top bit l r)).leaves.length ≤ fuel) :
    ∃ m' gs e bit', ebInsertDup m fuel top new = some m' ∧ ETree.node top bit l r = plug gs e ∧
      (∀ g ∈ gs, g.side = true) ∧ bit' < 0 ∧
      (gs = [] → bit' < bit) ∧ weight bit' ≤ e.load + 1 ∧ Attached m m' (gs ++ fs) e new bit' true := by
  have hdup := h.ordered.of_plug.node_dup hbit
  have hdepth : r.depth < fuel := by
    have h₁ := owners_lt_leaves fs (.node top bit l r)
    have h₂ := depth_le_owners r
    rw [ETree.owners_node, List.length_cons, List.length_append] at h₁
    omega
  have hnone : ∀ g ∈ ([] : List (Frame Nat)), g.side = true := fun _ hg => absurd hg List.not_mem_nil
  have hstart : OnSpine (.node top bit l r) top (Full bit r) := ⟨[], bit, l, r, rfl, hnone, id⟩
  obtain ⟨head, sub, hs, bit₁, l₁, i, hwalk, ⟨ss, bit₂, l₂, r₂, hsub, hss, hfull⟩, hhead, hhs⟩ :=
    dupHead_spec h.rep rfl hnone hstart hdepth
  obtain ⟨-, -, hlastbit, -⟩ := rep_inside (hhead ▸ h.rep)
  by_cases hhole : m.bit head < -1
  · -- above the last leaf
    have hplace : ETree.node top bit l r = plug (⟨head, bit₁, true, l₁⟩ :: hs) (.leaf i) := hhead
    rw [hplace, ← plug_append, List.cons_append] at h hnew
    have hb : m.b (.node head) ebRght = troot (.leaf i) := ((repTree_plug _ _).mp h.rep).1.branch rfl
    refine ⟨_, _, _, _, ?_, hplace, List.forall_mem_cons.mpr ⟨rfl, hhs⟩,
      by decide, fun hnil => absurd hnil (List.cons_ne_nil _ _),
      Nat.le_of_eq weight_neg_one, dupLeaf_attached h hnew (-1)⟩
    simp [ebInsertDup, hwalk, hhole, hb, troot_entry, entry]
  · -- above the lowest of the nodes that leave no hole
    have hneg : bit₂ < 0 := by
      refine bit_neg_of_dup (x := m.key top) (hsub ▸ h.ordered.of_plug).of_plug fun j hj => hdup j ?_
      rw [hsub]
      exact mem_leaves_plug.mpr (.inl hj)
    rw [hsub, ← plug_append] at h hnew
    obtain ⟨root, side, hup⟩ := exists_upOf (ss ++ fs)
    obtain ⟨hnode, hmbit, -⟩ := ((repTree_plug _ _).mp h.rep).2
    refine ⟨_, _, _, _, ?_, hsub, hss, ?_, fun hnil => ?_, ?_, dupNode_attached h hnew hup (m.bit sub - 1)⟩
    · simp [ebInsertDup, hwalk, hhole, hnode, hup, ebDotag]
    · rw [hmbit]
      omega
    · subst hnil
      obtain ⟨-, hbits, -⟩ := ETree.node.inj hsub
      rw [hmbit, hbits]
      omega
    · have hpred := (hfull (by rw [hlastbit] at hhole; omega)).weight_pred_le hneg
      rw [hmbit, ETree.load]
      omega

/-! ## `eb32_insert` -/

/-- A new entry was put where its key belongs. -/
structure Inserted (m m' : Mem) (fs : List (Frame Nat)) (e : ETree Nat) (new : Nat) (bit : Int)
    (right : Bool) : Prop where
  attached : Attached m m' fs e new bit right
  fits : Fits m.key fs (m.key new)
  dups : ∀ f ∈ fs, f.bit < 0 → f.side = true
  ordered : Ordered m.key (plug fs (join new bit right e))
  left : right = false → 0 ≤ bit
  load : weight bit ≤ e.load + 1

/-- Its place among the entries is the one of `EbTree.insert`. -/
theorem Inserted.leaves (h : Inserted m m' fs e new bit right) :
    (plug fs (join new bit right e)).leaves = EbTree.insert m.key new (plug fs e).leaves :=
  leaves_insert h.ordered h.fits h.dups h.left

/-- Below a node that is no duplicate of the new key, all keys are on the same side of it. -/
theorem shift_of_stop {key : Nat → BitVec 32} (h : Ordered key e) (hstop : Stop key x e) (hne : x ≠ key (entry e)) :
    ∀ j ∈ e.leaves, key j >>> topBit x (key (entry e)) = key (entry e) >>> topBit x (key (entry e)) := by
  cases e with
  | leaf i =>
    intro j hj
    rw [List.mem_singleton.mp hj]
    rfl
  | node i bit l r =>
    intro j hj
    by_cases hneg : bit < 0
    · rw [h.node_dup hneg j hj]
      rfl
    · have hagree := h.node_agree (Int.not_lt.mp hneg) j hj
      have htop := lt_topBit (hstop.resolve_left hneg)
      exact (hagree.mono (Nat.le_of_lt htop)).shift_eq (hagree _ htop)

/-- Where the descent stops at a different key, the new node gets the highest bit on which they differ. -/
theorem inserted_above (h : Linked m (plug fs e)) (hnew : new ∉ (plug fs e).leaves) (hfit : Fits m.key fs (m.key new))
    (hbit : ∀ f ∈ fs, 0 ≤ f.bit) (hstop : Stop m.key (m.key new) e) (hne : m.key new ≠ m.key (entry e)) {root : Addr}
    {side : Bool} (hup : upOf fs = ebDotag root side) :
    Inserted m (insertAbove ((m.setNodeP new (upOf fs)).setBit new (topBit (m.key new) (m.key (entry e)))) root side
      (troot e) (entry e) new)
      fs e new (topBit (m.key new) (m.key (entry e))) (decide (m.key (entry e) ≤ m.key new)) where
  attached := insertAbove_attached h hnew hup _
  fits := hfit
  dups f hf hneg := absurd (hbit f hf) (Int.not_le.mpr hneg)
  ordered := by
    refine h.ordered.replug (ordered_join h.ordered.of_plug hne (shift_of_stop h.ordered.of_plug hstop hne))
      fun j hj => ?_
    rcases mem_leaves_join.mp hj with rfl | hj
    · exact .inr hfit
    · exact .inl hj
  left _ := Int.natCast_nonneg _
  load := by
    rw [weight_of_nonneg (Int.natCast_nonneg _)]
    exact Nat.zero_le _

/-- Above equal keys, with a negative bit and the new leaf on the right. -/
theorem inserted_dup (h : Linked m (plug fs e)) (hatt : Attached m m' fs e new bit true) (hbit : bit < 0)
    (hload : weight bit ≤ e.load + 1)
    (hkey : ∀ j ∈ e.leaves, m.key j = m.key new) (hdups : ∀ f ∈ fs, f.bit < 0 → f.side = true) :
    Inserted m m' fs e new bit true where
  attached := hatt
  fits := by
    rw [← hkey _ e.first_mem]
    exact h.ordered.fits _ e.first_mem
  dups := hdups
  ordered := by
    have hfit := h.ordered.fits _ e.first_mem
    rw [hkey _ e.first_mem] at hfit
    refine h.ordered.replug (ordered_join_dup h.ordered.of_plug hbit hkey) fun j hj => ?_
    rcases mem_leaves_join.mp hj with rfl | hj
    · exact .inr hfit
    · exact .inl hj
  left hno := absurd hno Bool.noConfusion
  load := hload

/-- What is set in an entry that is not in the tree does not matter to it. -/
theorem Linked.congr (h : Linked m t) (hs : Same m m' t.leaves t.owners) (htop : m'.b .top = m.b .top)
    (hkey : m'.key = m.key) (hnodeP : ∀ i ∈ t.leaves, m'.nodeP i = m.nodeP i) : Linked m' t where
  rep := ⟨h.rep.1.congr (hs.mono (fun _ hi => absurd hi List.not_mem_nil) fun _ hi => absurd hi List.not_mem_nil) htop,
    h.rep.2.congr hs⟩
  nodup := h.nodup
  owners_nodup := h.owners_nodup
  owned := h.owned
  ordered := by rw [hkey]; exact h.ordered
  spare i hi hno := (hnodeP i hi).trans (h.spare i hi hno)

/-- The fields of the new entry that are set first do not matter. -/
theorem Attached.of_new {up : Troot} {bit' : Int}
    (h : Attached ((m.setNodeP new up).setBit new bit') m' fs e new bit right) :
    Attached m m' fs e new bit right :=
  { h with
    otherLeafP := h.otherLeafP
    otherNodeP := fun i hi ht => by simpa [hi] using h.otherNodeP i hi ht
    otherBit := fun i hi => by simpa [hi] using h.otherBit i hi
    otherB := h.otherB
    key := h.key }

theorem Linked.setNew (h : Linked m t) (hnew : new ∉ t.leaves) (up : Troot) (bit : Int) :
    Linked ((m.setNodeP new up).setBit new bit) t := by
  have hown : new ∉ t.owners := fun hi => hnew (h.owned.mem_leaves new hi)
  refine h.congr ((Same.setNodeP up hown).trans (.setBit bit hown)) rfl rfl fun i hi => ?_
  have hne : i ≠ new := by
    rintro rfl
    exact hnew hi
  simp [hne]

@[simp] theorem setBit_setBit (m : Mem) (i : Nat) (b b' : Int) : (m.setBit i b).setBit i b' = m.setBit i b' := by
  simp [Mem.setBit]

/-- What `eb32_insert` does where the descent has stopped. -/
theorem eb32Insert_stop (h : Linked m (plug fs e)) {root : Addr} {side : Bool}
    (hdown : insertDown m (m.key new) fuel .top ebLeft = some (root, side)) (hup : upOf fs = ebDotag root side) :
    eb32Insert m fuel new =
      if m.key new = m.key (entry e) then
        if (troot e).tag ≠ ebLeaf then (ebInsertDup ((m.setNodeP new (upOf fs)).setBit new (-1)) fuel
          (entry e) new).map (·, new)
        else some (insertAbove ((m.setNodeP new (upOf fs)).setBit new (-1)) root side (troot e) (entry e) new, new)
      else some (insertAbove ((m.setNodeP new (upOf fs)).setBit new (topBit (m.key new) (m.key (entry e)))) root side
        (troot e) (entry e) new, new) := by
  obtain ⟨hat, hrep⟩ := (repTree_plug fs e).mp h.rep
  have htop : m.b .top ebLeft ≠ null := by
    rw [h.rep.1.1]
    exact troot_ne_null _
  have hright : (m.b .top ebRght).tag = false := by rw [h.rep.1.2]; rfl
  have hb : m.b root side = troot e := hat.branch hup
  have hptr : (if (troot e).tag = ebLeaf then m.leafP (entry e) else m.nodeP (entry e)) = upOf fs := hrep.upPtr
  have hbit : (flsnz (m.key new ^^^ m.key (entry e)) : Int) - 1 = topBit (m.key new) (m.key (entry e)) := by
    simp [flsnz, topBit]
  rw [eb32Insert, if_neg htop, hdown]
  simp only [Option.bind_eq_bind, Option.bind_some, hb, troot_entry, hptr, hbit, hright, setBit_setBit,
    Bool.false_eq_true, if_false, Mem.setBit_key, Mem.setNodeP_key]
  split
  · split
    · rw [Option.map_eq_bind]
      rfl
    · rfl
  · rfl

/-- `eb32_insert` into a tree that is not empty. -/
theorem eb32Insert_linked (h : Linked m t) (hnew : new ∉ t.leaves) (hfuel : t.leaves.length ≤ fuel) :
    ∃ m' fs e bit right, eb32Insert m fuel new = some (m', new) ∧ t = plug fs e ∧ Inserted m m' fs e new bit right := by
  obtain ⟨hat, hrep⟩ := h.rep
  have hnone : ∀ f ∈ ([] : List (Frame Nat)), 0 ≤ f.bit := fun _ hf => absurd hf List.not_mem_nil
  obtain ⟨root, side, fs, e, hdown, hplace, hup, hfit, hbit, hstop⟩ :=
    insertDown_spec hat hrep (fun _ hf => absurd hf List.not_mem_nil : Fits m.key [] (m.key new)) hnone rfl
      (Nat.lt_of_lt_of_le t.depth_lt hfuel)
  replace hplace : t = plug fs e := hplace
  subst hplace
  have hdups : ∀ f ∈ fs, f.bit < 0 → f.side = true := fun f hf hneg => absurd (hbit f hf) (Int.not_le.mpr hneg)
  rw [eb32Insert_stop h hdown hup]
  by_cases hkey : m.key new = m.key (entry e)
  · rw [if_pos hkey]
    cases e with
    | leaf i =>
      have hatt := insertAbove_attached h hnew hup (-1)
      rw [decide_eq_true (by rw [hkey]; exact BitVec.le_refl _)] at hatt
      refine ⟨_, fs, .leaf i, -1, true, rfl, rfl,
        inserted_dup h hatt (by decide) (Nat.le_of_eq weight_neg_one) (fun j hj => ?_) hdups⟩
      rw [List.mem_singleton.mp hj, hkey]
      rfl
    | node i bit l r =>
      -- the descent stops above a node with the new key only if its bit is negative
      have hneg : bit < 0 := hstop.resolve_right fun hno => hno (hkey ▸ AgreeAbove.refl _ _)
      obtain ⟨m', gs, e, bit', hrun, hin, hgs, hneg', -, hload, hatt⟩ :=
        ebInsertDup_spec (h.setNew hnew (upOf fs) (-1)) hneg hnew hfuel
      have hdup := h.ordered.of_plug.node_dup hneg
      have hplace : plug fs (.node i bit l r) = plug (gs ++ fs) e := by rw [plug_append, ← hin]
      have hdupRun : (if (troot (.node i bit l r)).tag ≠ ebLeaf then
          (ebInsertDup ((m.setNodeP new (upOf fs)).setBit new (-1)) fuel (entry (.node i bit l r)) new).map (·, new)
          else some (insertAbove ((m.setNodeP new (upOf fs)).setBit new (-1)) root side (troot (.node i bit l r))
            (entry (.node i bit l r)) new, new)) = some (m', new) := by
        rw [if_pos (by simp [troot])]
        exact congrArg (Option.map (·, new)) hrun
      refine ⟨m', gs ++ fs, e, bit', true, hdupRun, hplace,
        inserted_dup (hplace ▸ h) hatt.of_new hneg' hload (fun j hj => ?_) fun f hf hf' => ?_⟩
      · rw [hdup j (hin ▸ mem_leaves_plug.mpr (.inl hj)), hkey]
        rfl
      · exact (List.mem_append.mp hf).elim (fun hf => hgs f hf) fun hf => hdups f hf hf'
  · rw [if_neg hkey]
    exact ⟨_, fs, e, _, _, rfl, rfl, inserted_above h hnew hfit hbit hstop hkey hup⟩

/-- The entries that are in no tree, after an insertion. -/
theorem Attached.unlinked (h : Attached m m' fs e new bit right) (hun : ∀ i ∉ (plug fs e).leaves, m.leafP i = null)
    (ho : Owned (plug fs e)) :
    ∀ i, i ≠ new → i ∉ (plug fs e).leaves → m'.leafP i = null := by
  intro i hi hno
  rw [h.otherLeafP i hi fun _ heq => ?_, hun i hno]
  rw [heq] at hno
  exact hno (mem_leaves_plug.mpr (.inl (entry_mem_leaves ho.of_plug)))

theorem Inserted.holds (h : Inserted m m' fs e new bit right) (hl : Linked m (plug fs e))
    (hnew : new ∉ (plug fs e).leaves)
    (hun : ∀ i ∉ (plug fs e).leaves, m.leafP i = null) : Holds m' (EbTree.insert m.key new (plug fs e).leaves) where
  lists := .inr ⟨_, h.leaves, h.attached.linked hl hnew h.ordered⟩
  unlinked := by
    intro i hi
    rw [EbTree.mem_insert, not_or] at hi
    exact h.attached.unlinked hun hl.owned i hi.1 hi.2

/-- `eb32_insert` puts an entry that is in no tree behind those whose key is not above its own. -/
theorem eb32Insert_spec (h : Holds m l) (hnew : new ∉ l) (hfuel : l.length ≤ fuel) :
    ∃ m', eb32Insert m fuel new = some (m', new) ∧ Holds m' (EbTree.insert m.key new l) ∧ m'.key = m.key := by
  rcases h.lists with ⟨rfl, hb₀, hb₁⟩ | ⟨t, rfl, ht⟩
  · refine ⟨_, if_pos hb₀, ⟨.inr ⟨.leaf new, rfl, ?_⟩, ?_⟩, rfl⟩
    · refine ⟨⟨⟨?_, ?_⟩, ?_⟩, List.nodup_singleton _, List.nodup_nil, trivial, trivial, ?_⟩
      · simp [troot]
      · simp [hb₁]
      · simp [Rep, upOf]
      · intro i hi _
        simp [List.mem_singleton.mp hi]
    · intro i hi
      rw [EbTree.mem_insert, not_or] at hi
      simp [hi.1, h.unlinked i hi.2]
  · obtain ⟨m', fs, e, bit, right, hrun, rfl, hins⟩ := eb32Insert_linked ht hnew hfuel
    exact ⟨m', hrun, hins.holds ht hnew h.unlinked, hins.attached.key⟩

end ZeroServ.Ebtree
