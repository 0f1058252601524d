import ZeroServ.Ebtree.Insert

/-!
# Deletion

`eb_delete` takes a leaf out of the tree, with the node above it: the sibling gets their place. If the node of the
deleted entry was in use elsewhere, the node that has become free takes its place, so that nothing in the tree leads
to the entry any more (`ebDelete_spec`).
-/

namespace ZeroServ.Ebtree

open Elastic

variable {m m' : Mem} {t e : ETree Nat} {f : Frame Nat} {fs gs : List (Frame Nat)} {l p s : List Nat}
    {i n fuel : Nat} {bit : Int}
  {c up : Troot}

/-- Another parent for a tree. -/
theorem Rep.setUp (h : Rep m e up) (hnodup : e.owners.Nodup) (up' : Troot) :
    Rep (m.setUp (troot e).tag (entry e) up') e up' := by
  cases e with
  | leaf i => simp [Rep, troot, entry]
  | node i bit l r =>
    obtain ⟨-, hbit, hb₀, hb₁, hrl, hrr⟩ := h
    have hi : i ∉ l.owners ++ r.owners := (List.nodup_cons.mp hnodup).1
    rw [List.mem_append, not_or] at hi
    refine ⟨by simp [troot, entry], by simpa using hbit, by simpa using hb₀, by simpa using hb₁, ?_, ?_⟩
    · exact hrl.congr (.setNodeP _ hi.1)
    · exact hrr.congr (.setNodeP _ hi.2)

/-- A tree stands in a place from which a node was taken out: the node part of `p` is free, the other parts are as
before. -/
structure Moved (m m' : Mem) (t : ETree Nat) (e : ETree Nat) (p : Nat) : Prop where
  rep : RepTree m' t
  free : m'.nodeP p = null
  nodeP : ∀ j, j ≠ p → j ∉ e.owners → m'.nodeP j = m.nodeP j
  leafP : ∀ j, j ∉ e.leaves → m'.leafP j = m.leafP j
  key : m'.key = m.key

/-- The sibling in the place of the parent. -/
theorem liftSibling_spec (h : Linked m (plug (f :: fs) (.leaf i))) :
    ∃ m', liftSibling m f.owner f.side = some m' ∧ Moved m m' (plug fs f.sibling) f.sibling f.owner := by
  obtain ⟨hat, -⟩ := (repTree_plug _ _).mp h.rep
  obtain ⟨hp, hbit, hb₀, hb₁, hsib, hrest⟩ := hat
  obtain ⟨root, side, hup⟩ := exists_upOf fs
  have hnodup := h.owners_disjoint.1
  rw [around, List.nodup_cons, List.mem_append, not_or, List.nodup_append] at hnodup
  obtain ⟨⟨hps, hpa⟩, hsn, han, hdisj⟩ := hnodup
  refine ⟨((m.setB root side (troot f.sibling)).setUp (troot f.sibling).tag (entry f.sibling)
    (ebDotag root side)).setNodeP f.owner null, ?_, ?_⟩
  · simp [liftSibling, hp, hup, hb₁, troot_entry]
  · have howned : Owned f.sibling := (owned_frame_plug.mp h.owned.of_plug_cons).2.1
    have hleaf : ∀ j ∈ beside fs, j ∉ f.sibling.leaves := by
      have hplug : Linked m (plug fs (f.plug (.leaf i))) := h
      exact fun j hj hj' => hplug.leaves_disjoint.2 j hj (mem_leaves_frame_plug.mpr (.inr hj'))
    have hroot : ∀ j ∈ f.sibling.owners, Addr.node j ≠ root := by
      rintro j hj rfl
      cases fs with
      | nil => simp [upOf, ebDotag] at hup
      | cons g fs =>
        obtain ⟨rfl, -⟩ : g.owner = j ∧ g.side = side := by simpa [upOf, ebDotag] using hup
        exact hdisj _ hj _ List.mem_cons_self rfl
    constructor
    · rw [repTree_plug]
      constructor
      · have hset := hrest.setB han hup (troot f.sibling)
        refine hset.congr ((Same.setUp _ _ ?_ ?_).trans (.setNodeP _ hpa)) (by simp)
        · exact fun htag hin => hleaf _ hin (entry_mem_leaves howned)
        · exact fun htag hin => hdisj _ (entry_mem_owners htag) _ hin rfl
      · have hset : Rep (m.setB root side (troot f.sibling)) f.sibling (ebDotag (.node f.owner) !f.side) :=
          hsib.congr (.setB _ _ hroot)
        rw [hup]
        exact (hset.setUp hsn _).congr (.setNodeP _ hps)
    · simp
    · intro j hj hno
      have hentry : (troot f.sibling).tag = ebNode → j ≠ entry f.sibling := by
        rintro htag rfl
        exact hno (entry_mem_owners htag)
      simp only [Mem.setNodeP_nodeP, if_neg hj, Mem.setUp_nodeP, Mem.setB_nodeP]
      rw [if_neg fun hand => hentry hand.1 hand.2]
    · intro j hno
      have hentry : j ≠ entry f.sibling := by
        rintro rfl
        exact hno (entry_mem_leaves howned)
      simp [hentry]
    · simp

/-- The parent of a place is the root or around it. -/
theorem upOf_around {root : Addr} {side : Bool} (hup : upOf fs = ebDotag root side) (hi : i ∉ around fs) :
    Addr.node i ≠ root := by
  rintro rfl
  cases fs with
  | nil => simp [upOf, ebDotag] at hup
  | cons f fs =>
    obtain ⟨rfl, -⟩ : f.owner = i ∧ f.side = side := by simpa [upOf, ebDotag] using hup
    exact hi List.mem_cons_self

/-- The node of `p` in the place of another one. -/
theorem takeOver_spec {p : Nat} {l r : ETree Nat} (hrep : RepTree m (plug fs (.node i bit l r)))
    (howners : (plug fs (.node i bit l r)).owners.Nodup) (hleaves : (plug fs (.node i bit l r)).leaves.Nodup)
    (hol : Owned l) (hor : Owned r) (hp : p ∉ (plug fs (.node i bit l r)).owners) :
    ∃ m', takeOver m p i = some m' ∧ RepTree m' (plug fs (.node p bit l r)) ∧
      (∀ j, j ≠ p → j ∉ l.owners → j ∉ r.owners → m'.nodeP j = m.nodeP j) ∧
      (∀ j, j ∉ l.leaves → j ∉ r.leaves → m'.leafP j = m.leafP j) ∧ m'.key = m.key := by
  obtain ⟨hat, hnode, hbit, hb₀, hb₁, hrl, hrr⟩ := (repTree_plug _ _).mp hrep
  obtain ⟨root, side, hup⟩ := exists_upOf fs
  obtain ⟨han, hin, hai⟩ := List.nodup_append.mp ((owners_plug fs _).nodup_iff.mp howners)
  rw [ETree.owners_node, List.nodup_cons, List.mem_append, not_or, List.nodup_append] at hin
  obtain ⟨⟨hil, hir⟩, hln, hrn, hlr⟩ := hin
  have hal : ∀ j ∈ l.owners, j ∉ around fs :=
    fun j hj hj' => hai j hj' j (List.mem_cons_of_mem _ (List.mem_append_left _ hj)) rfl
  have har : ∀ j ∈ r.owners, j ∉ around fs :=
    fun j hj hj' => hai j hj' j (List.mem_cons_of_mem _ (List.mem_append_right _ hj)) rfl
  rw [mem_owners_plug, ETree.owners_node, List.mem_cons, List.mem_append, not_or, not_or, not_or] at hp
  obtain ⟨⟨hpi, hpl, hpr⟩, hpa⟩ := hp
  rw [leaves_plug, List.nodup_append, List.nodup_append, ETree.leaves_node, List.nodup_append] at hleaves
  obtain ⟨⟨-, ⟨-, -, hlrl⟩, hbl⟩, -, hla⟩ := hleaves
  have hbeside : ∀ j ∈ beside fs, j ∉ l.leaves ∧ j ∉ r.leaves := by
    intro j hj
    rcases List.mem_append.mp hj with hj | hj
    · exact ⟨fun h => hbl j hj j (List.mem_append_left _ h) rfl, fun h => hbl j hj j (List.mem_append_right _ h) rfl⟩
    · exact ⟨fun h => hla j (List.mem_append_right _ (List.mem_append_left _ h)) j hj rfl,
        fun h => hla j (List.mem_append_right _ (List.mem_append_right _ h)) j hj rfl⟩
  have hproot : Addr.node p ≠ root := upOf_around hup hpa
  have hlentry : (troot l).tag = ebNode → entry l ∈ l.owners := entry_mem_owners
  have hrentry : (troot r).tag = ebNode → entry r ∈ r.owners := entry_mem_owners
  -- the memory before the children get their new parent
  have hmem : ∃ m₅ : Mem, m₅ = ((((m.setNodeP p (upOf fs)).setB (.node p) ebLeft (troot l)).setB
      (.node p) ebRght (troot r)).setBit p bit).setB root side (ebDotag (.node p) ebNode) := ⟨_, rfl⟩
  obtain ⟨m₅, hm₅⟩ := hmem
  have hsame {L O : List Nat} (hpO : p ∉ O) (hO : ∀ j ∈ O, j ∉ around fs) : Same m m₅ L O := by
    have hpne : ∀ j ∈ O, Addr.node j ≠ .node p := by
      rintro j hj heq
      exact hpO (Addr.node.inj heq ▸ hj)
    rw [hm₅]
    refine ((((Same.setNodeP _ hpO).trans (.setB _ _ hpne)).trans (.setB _ _ hpne)).trans (.setBit _ hpO)).trans
      (.setB _ _ ?_)
    exact fun j hj => upOf_around hup (hO j hj)
  have hat₅ : RepAt m₅ fs (ebDotag (.node p) ebNode) := by
    have hpne : ∀ j ∈ around fs, Addr.node j ≠ .node p := by
      rintro j hj heq
      exact hpa (Addr.node.inj heq ▸ hj)
    rw [hm₅]
    refine RepAt.setB (hat.congr ?_ (by funext s; simp)) han hup _
    exact (((Same.setNodeP _ hpa).trans (.setB _ _ hpne)).trans (.setB _ _ hpne)).trans (.setBit _ hpa)
  have hl₅ : Rep m₅ l (ebDotag (.node i) ebLeft) := hrl.congr (hsame hpl hal)
  have hr₅ : Rep m₅ r (ebDotag (.node i) ebRght) := hrr.congr (hsame hpr har)
  refine ⟨(m₅.setUp (troot l).tag (entry l) (ebDotag (.node p) ebLeft)).setUp (troot r).tag (entry r)
    (ebDotag (.node p) ebRght), ?_, ?_, ?_, ?_, ?_⟩
  · have hpi' : i ≠ p := Ne.symm hpi
    simp [takeOver, adopt, hnode, hup, hb₀, hb₁, hbit, hpi', hproot, troot_entry, hm₅]
  · rw [repTree_plug]
    refine ⟨?_, ?_, ?_, ?_, ?_, ?_, ?_⟩
    · refine hat₅.congr ((Same.setUp _ _ ?_ ?_).trans (.setUp _ _ ?_ ?_)) (by simp)
      · exact fun _ hj => (hbeside _ hj).1 (entry_mem_leaves hol)
      · exact fun htag hj => hal _ (hlentry htag) hj
      · exact fun _ hj => (hbeside _ hj).2 (entry_mem_leaves hor)
      · exact fun htag hj => har _ (hrentry htag) hj
    · have hpl' : (troot l).tag = ebNode → p ≠ entry l := fun htag heq => hpl (heq ▸ hlentry htag)
      have hpr' : (troot r).tag = ebNode → p ≠ entry r := fun htag heq => hpr (heq ▸ hrentry htag)
      simp only [Mem.setUp_nodeP, hm₅, Mem.setB_nodeP, Mem.setBit_nodeP, Mem.setNodeP_nodeP, if_true]
      rw [if_neg fun h => hpr' h.1 h.2, if_neg fun h => hpl' h.1 h.2]
    · simp [hm₅]
    · simp [hm₅, hproot]
    · simp [hm₅, hproot]
    · refine (hl₅.setUp hln (ebDotag (.node p) ebLeft)).congr (.setUp _ _ ?_ ?_)
      · exact fun _ hj => hlrl _ hj _ (entry_mem_leaves hor) rfl
      · exact fun htag hj => hlr _ hj _ (hrentry htag) rfl
    · refine (hr₅.congr (.setUp _ _ ?_ ?_)).setUp hrn (ebDotag (.node p) ebRght)
      · exact fun _ hj => hlrl _ (entry_mem_leaves hol) _ hj rfl
      · exact fun htag hj => hlr _ (hlentry htag) _ hj rfl
  · intro j hj hjl hjr
    have hjl' : (troot l).tag = ebNode → j ≠ entry l := fun htag heq => hjl (heq ▸ hlentry htag)
    have hjr' : (troot r).tag = ebNode → j ≠ entry r := fun htag heq => hjr (heq ▸ hrentry htag)
    simp only [Mem.setUp_nodeP, hm₅, Mem.setB_nodeP, Mem.setBit_nodeP, Mem.setNodeP_nodeP, if_neg hj]
    rw [if_neg fun h => hjr' h.1 h.2, if_neg fun h => hjl' h.1 h.2]
  · intro j hjl hjr
    have hjl' : j ≠ entry l := fun heq => hjl (heq ▸ entry_mem_leaves hol)
    have hjr' : j ≠ entry r := fun heq => hjr (heq ▸ entry_mem_leaves hor)
    simp [hm₅, hjl', hjr']
  · simp [hm₅]

/-! ## `eb_delete` -/

/-- The frames without a node of the entry stay as they are. -/
theorem map_rename_of_forall {p : Nat} (h : ∀ f ∈ fs, f.owner ≠ i) : fs.map (Frame.rename i p) = fs := by
  induction fs with
  | nil => rfl
  | cons f fs ih =>
    rw [List.map_cons, rename_of_ne (h f List.mem_cons_self), ih fun g hg => h g (List.mem_cons_of_mem _ hg)]

theorem around_eq_flatMap (fs : List (Frame Nat)) : around fs = fs.flatMap fun f => f.owner :: f.sibling.owners := by
  induction fs with
  | nil => rfl
  | cons f fs ih => rw [around, ih, List.flatMap_cons, List.cons_append]

theorem mem_around : i ∈ around fs ↔ ∃ f ∈ fs, i = f.owner ∨ i ∈ f.sibling.owners := by
  simp only [around_eq_flatMap, List.mem_flatMap, List.mem_cons]

theorem mem_beside : i ∈ beside fs ↔ ∃ f ∈ fs, i ∈ f.sibling.leaves := by
  induction fs with
  | nil => simp [beside, before, after]
  | cons f fs ih => simp only [mem_beside_cons, ih, List.exists_mem_cons_iff]

theorem owner_mem_around (hf : f ∈ fs) : f.owner ∈ around fs := mem_around.mpr ⟨f, hf, .inl rfl⟩

/-- What is left of a tree when the leaf at a place is taken out. -/
def removed (i : Nat) (f : Frame Nat) (fs : List (Frame Nat)) : ETree Nat :=
  plug (fs.map (Frame.rename i f.owner)) f.sibling

theorem leaves_removed (h : (plug (f :: fs) (.leaf i)).leaves.Nodup) :
    (removed i f fs).leaves = (plug (f :: fs) (.leaf i)).leaves.erase i := by
  rw [leaves_plug, ETree.leaves_leaf, List.append_assoc, List.singleton_append] at h ⊢
  have hno : i ∉ before (f :: fs) := fun hi => (List.nodup_append.mp h).2.2 i hi i List.mem_cons_self rfl
  rw [List.erase_append_right _ hno, List.erase_cons_head, removed, leaves_plug, before_rename, after_rename,
    before, after]
  cases f.side <;> simp

theorem owned_sibling (h : Owned (plug fs e)) (hf : f ∈ fs) : Owned f.sibling := by
  induction fs generalizing e with
  | nil => exact absurd hf List.not_mem_nil
  | cons g fs ih =>
    rcases List.mem_cons.mp hf with rfl | hf
    · exact (owned_frame_plug.mp h.of_plug_cons).2.1
    · exact ih (e := g.plug e) h hf

/-- A node that the entry of a leaf has is above the leaf. -/
theorem Linked.node_above (h : Linked m (plug fs (.leaf i))) (hi : i ∈ around fs) : ∃ g ∈ fs, g.owner = i := by
  obtain ⟨g, hg, howner | hin⟩ := mem_around.mp hi
  · exact ⟨g, hg, howner.symm⟩
  · have hleaf := (owned_sibling h.owned hg).mem_leaves i hin
    exact absurd List.mem_cons_self (h.leaves_disjoint.2 i (mem_beside.mpr ⟨g, hg, hleaf⟩))

theorem around_append (fs gs : List (Frame Nat)) : around (fs ++ gs) = around fs ++ around gs := by
  simp only [around_eq_flatMap, List.flatMap_append]

theorem removed_of_no_node (h : ∀ g ∈ fs, g.owner ≠ i) : removed i f fs = plug fs f.sibling := by
  rw [removed, map_rename_of_forall h]

theorem removed_of_node {fs gs : List (Frame Nat)} {g : Frame Nat} (hg : g.owner = i) (hfs : ∀ g ∈ fs, g.owner ≠ i)
    (hgs : ∀ g ∈ gs, g.owner ≠ i) : removed i f (fs ++ g :: gs) =
    plug gs ({ g with owner := f.owner }.plug (plug fs f.sibling)) := by
  have hrename : g.rename i f.owner = { g with owner := f.owner } := if_pos hg
  rw [removed, List.map_append, List.map_cons, map_rename_of_forall hfs, map_rename_of_forall hgs, hrename, plug_append]
  rfl

/-- The entry is out of the tree: its own node is free, or the node above its leaf. -/
structure Cut (m m' : Mem) (t t' : ETree Nat) (i : Nat) : Prop where
  rep : RepTree m' t'
  owners : ∃ k, t.owners.Perm (k :: t'.owners) ∧ (k = i ∨ m'.nodeP k = null)
  nodeP : ∀ j ∉ t.owners, m'.nodeP j = m.nodeP j
  leafP : ∀ j ∉ t.leaves, m'.leafP j = m.leafP j
  key : m'.key = m.key

/-- `takeOver` where the node of the entry has the place of what was moved on one of its sides. -/
theorem takeOver_frame {p : Nat} (hrep : RepTree m (plug gs (f.plug e))) (howners : (plug gs (f.plug e)).owners.Nodup)
    (hleaves : (plug gs (f.plug e)).leaves.Nodup) (hos : Owned f.sibling) (hoe : Owned e)
    (hp : p ∉ (plug gs (f.plug e)).owners) :
    ∃ m', takeOver m p f.owner = some m' ∧ RepTree m' (plug gs ({ f with owner := p }.plug e)) ∧
      (∀ j, j ≠ p → j ∉ (f.plug e).owners → m'.nodeP j = m.nodeP j) ∧
      (∀ j, j ∉ (f.plug e).leaves → m'.leafP j = m.leafP j) ∧
        m'.key = m.key := by
  have hsplit {l r : ETree Nat} (heq : ∀ o, { f with owner := o }.plug e = .node o f.bit l r) (hol : Owned l)
      (hor : Owned r) :
      ∃ m', takeOver m p f.owner = some m' ∧ RepTree m' (plug gs ({ f with owner := p }.plug e)) ∧
        (∀ j, j ≠ p → j ∉ (f.plug e).owners → m'.nodeP j = m.nodeP j) ∧
        (∀ j, j ∉ (f.plug e).leaves → m'.leafP j = m.leafP j) ∧
          m'.key = m.key := by
    have hf : f.plug e = .node f.owner f.bit l r := heq f.owner
    rw [hf] at hrep howners hleaves hp
    rw [hf, heq p]
    obtain ⟨m', hrun, hrep', hnode, hleaf, hkey⟩ := takeOver_spec hrep howners hleaves hol hor hp
    refine ⟨m', hrun, hrep', fun j hj hno => ?_, fun j hno => ?_, hkey⟩
    · rw [ETree.owners_node, List.mem_cons, List.mem_append, not_or, not_or] at hno
      exact hnode j hj hno.2.1 hno.2.2
    · rw [ETree.leaves_node, List.mem_append, not_or] at hno
      exact hleaf j hno.1 hno.2
  rcases Bool.eq_false_or_eq_true f.side with hside | hside
  · exact hsplit (fun _ => if_pos hside) hos hoe
  · exact hsplit (fun _ => if_neg (by simp [hside])) hoe hos

theorem not_mem_removed (h : (plug (f :: fs) (.leaf i)).leaves.Nodup) : i ∉ (removed i f fs).leaves := by
  rw [leaves_removed h]
  exact h.not_mem_erase

theorem RepTree.setLeafP (h : RepTree m t) (hi : i ∉ t.leaves) (up : Troot) : RepTree (m.setLeafP i up) t :=
  ⟨h.1, h.2.congr (.setLeafP up hi)⟩

theorem Cut.setLeafP {t' : ETree Nat} (h : Cut m m' t t' i) (hi : i ∈ t.leaves) (hi' : i ∉ t'.leaves) :
    Cut m (m'.setLeafP i null) t t' i where
  rep := h.rep.setLeafP hi' null
  owners := h.owners
  nodeP := h.nodeP
  leafP j hj := by
    have hne : j ≠ i := by
      rintro rfl
      exact hj hi
    simpa [hne] using h.leafP j hj
  key := h.key

/-- The nodes above a leaf are of different entries. -/
theorem Linked.around_nodup (h : Linked m (plug fs (.leaf i))) : (around fs).Nodup := h.owners_disjoint.1

theorem Linked.sibling_leaves (h : Linked m (plug fs (.leaf i))) (hf : f ∈ fs) : i ∉ f.sibling.leaves :=
  fun hi => h.leaves_disjoint.2 i (mem_beside.mpr ⟨f, hf, hi⟩) List.mem_cons_self

/-- Where no node above is the one of the entry, the others stay above their leaves without it. -/
theorem owned_without (h : Owned (plug (f :: fs) (.leaf i))) (hno : ∀ g ∈ fs, g.owner ≠ i)
    (hsib : ∀ g ∈ fs, i ∉ g.sibling.leaves) :
    Owned (plug fs f.sibling) := by
  have hkeep : ∀ j ∈ (f.plug (.leaf i)).leaves, j ∈ f.sibling.leaves ∨ j = i := by
    intro j hj
    rcases mem_leaves_frame_plug.mp hj with hj | hj
    · exact .inr (List.mem_singleton.mp hj)
    · exact .inl hj
  have hown := h.rename (t := f.plug (.leaf i)) (owned_frame_plug.mp h.of_plug_cons).2.1 hkeep f.sibling.first_mem hsib
  rwa [map_rename_of_forall hno] at hown

/-- The nodes of a tree are the one above a leaf and those that are left without them. -/
theorem owners_without (i : Nat) (f : Frame Nat) (fs : List (Frame Nat)) :
    (plug (f :: fs) (.leaf i)).owners.Perm (f.owner :: (plug fs f.sibling).owners) := by
  refine (owners_plug _ _).trans (List.Perm.trans ?_ ((owners_plug fs f.sibling).symm.cons f.owner))
  rw [ETree.owners_leaf, List.append_nil, around]
  exact List.perm_append_comm.cons _

/-- The node of the entry is not in use: the one above its leaf is free. -/
theorem Moved.cut (hm : Moved m m' (plug fs f.sibling) f.sibling f.owner)
    (hno : ∀ g ∈ fs, g.owner ≠ i) : Cut m m' (plug (f :: fs) (.leaf i)) (removed i f fs) i where
  rep := by
    rw [removed_of_no_node hno]
    exact hm.rep
  owners := by
    refine ⟨f.owner, ?_, .inr hm.free⟩
    rw [removed_of_no_node hno]
    exact owners_without i f fs
  nodeP j hj := by
    rw [mem_owners_plug, around, List.mem_cons, List.mem_append, not_or, not_or, not_or] at hj
    exact hm.nodeP j hj.2.1 hj.2.2.1
  leafP j hj := by
    rw [mem_leaves_plug, mem_beside_cons, not_or, not_or] at hj
    exact hm.leafP j hj.2.1
  key := hm.key

theorem Moved.node_free (h : Linked m (plug (f :: fs) (.leaf i)))
    (hm : Moved m m' (plug fs f.sibling) f.sibling f.owner) (hno : ∀ g ∈ fs, g.owner ≠ i) : m'.nodeP i = null := by
  by_cases hi : i = f.owner
  · rw [hi]
    exact hm.free
  · have hout : i ∉ around (f :: fs) := by
      intro hin
      obtain ⟨g, hg, howner⟩ := h.node_above hin
      rcases List.mem_cons.mp hg with rfl | hg
      · exact hi howner.symm
      · exact hno g hg howner
    have hspare := h.spare i (mem_leaves_plug.mpr (.inl List.mem_cons_self)) fun ho => by
      rcases mem_owners_plug.mp ho with ho | ho
      · exact absurd ho List.not_mem_nil
      · exact hout ho
    rw [around, List.mem_cons, List.mem_append, not_or, not_or] at hout
    rw [hm.nodeP i hi hout.2.1, hspare]

/-- The node of the entry is in use above: the one above its leaf takes its place. -/
theorem Moved.takeOver {g : Frame Nat} (h : Linked m (plug (f :: (fs ++ g :: gs)) (.leaf i)))
    (hm : Moved m m' (plug (fs ++ g :: gs) f.sibling) f.sibling f.owner) (hg : g.owner = i) :
    m'.nodeP i ≠ null ∧ ∃ m'', takeOver m' f.owner i = some m'' ∧
      Cut m m'' (plug (f :: (fs ++ g :: gs)) (.leaf i)) (removed i f (fs ++ g :: gs)) i := by
  subst hg
  have hg : g ∈ f :: (fs ++ g :: gs) := List.mem_cons_of_mem _ (List.mem_append_right _ List.mem_cons_self)
  have hplace : plug (fs ++ g :: gs) f.sibling = plug gs (g.plug (plug fs f.sibling)) := plug_append _ _ _
  have hperm := owners_without g.owner f (fs ++ g :: gs)
  have howners := List.nodup_cons.mp (hperm.nodup_iff.mp h.owners_nodup)
  have hleaves : (plug (fs ++ g :: gs) f.sibling).leaves.Nodup := by
    refine h.nodup.sublist ?_
    rw [leaves_plug, leaves_plug, before, after]
    cases f.side <;> simp
  have hrep := hm.rep
  rw [hplace] at hrep howners hleaves
  -- no other node is the one of the entry
  have hne : (∀ x ∈ fs, x.owner ≠ g.owner) ∧ ∀ x ∈ gs, x.owner ≠ g.owner := by
    have hnodup := h.around_nodup
    rw [around, around_append, around, List.nodup_cons, List.nodup_append, List.nodup_append, List.nodup_cons] at hnodup
    obtain ⟨-, -, ⟨-, ⟨hg', -⟩, hdisj⟩, -⟩ := hnodup
    exact ⟨fun x hx => hdisj _ (owner_mem_around hx) _ List.mem_cons_self,
      fun x hx heq => hg' (List.mem_append_right _ (heq ▸ owner_mem_around hx))⟩
  have howned : Owned (plug fs f.sibling) := by
    have hbelow : Owned (plug (f :: fs) (.leaf g.owner)) := by
      have hall := h.owned
      rw [← List.cons_append, plug_append] at hall
      exact hall.of_plug
    exact owned_without hbelow hne.1 fun x hx => h.sibling_leaves (List.mem_cons_of_mem _ (List.mem_append_left _ hx))
  obtain ⟨m'', hrun, hrep', hnode, hleaf, hkey⟩ :=
    takeOver_frame hrep howners.2 hleaves (owned_sibling h.owned hg) howned howners.1
  refine ⟨?_, m'', hrun, ?_, ?_, fun j hj => ?_, fun j hj => ?_, hkey.trans hm.key⟩
  · have hup : m'.nodeP g.owner = upOf gs := (rep_frame_plug.mp ((repTree_plug _ _).mp hrep).2).1
    rw [hup]
    cases gs <;> simp [upOf, ebDotag, null]
  · rw [removed_of_node rfl hne.1 hne.2]
    exact hrep'
  · refine ⟨g.owner, hperm.trans ?_, .inl rfl⟩
    rw [removed_of_node rfl hne.1 hne.2, hplace]
    refine ((owners_plug _ _).trans ((owners_frame_plug _ _).append_left _)).cons _ |>.trans ?_
    refine List.Perm.trans ?_ (((owners_plug _ _).trans ((owners_frame_plug _ _).append_left _)).symm.cons _)
    refine List.perm_iff_count.mpr fun a => ?_
    simp only [List.count_cons, List.count_append]
    omega
  · have hout : j ∉ f.owner :: (plug (fs ++ g :: gs) f.sibling).owners := fun hin => hj (hperm.mem_iff.mpr hin)
    rw [List.mem_cons, not_or] at hout
    have hout₂ := hout.2
    rw [hplace, mem_owners_plug, not_or] at hout₂
    rw [hnode j hout.1 hout₂.1]
    refine hm.nodeP j hout.1 fun hin => hout.2 ?_
    exact mem_owners_plug.mpr (.inl hin)
  · have hin {k : Nat} (hk : k ∈ (plug (fs ++ g :: gs) f.sibling).leaves) :
        k ∈ (plug (f :: (fs ++ g :: gs)) (.leaf g.owner)).leaves := by
      rw [mem_leaves_plug] at hk ⊢
      rw [mem_beside_cons]
      exact .inr hk
    have hout : j ∉ (plug (fs ++ g :: gs) f.sibling).leaves := fun hk => hj (hin hk)
    have hout₂ := hout
    rw [hplace, mem_leaves_plug, not_or] at hout₂
    rw [hleaf j hout₂.1]
    exact hm.leafP j fun hk => hout (mem_leaves_plug.mpr (.inl hk))

/-- `eb_delete` of an entry that has another one beside it. -/
theorem ebDelete_cut (h : Linked m (plug (f :: fs) (.leaf i))) :
    ∃ m', ebDelete m i = some m' ∧ Cut m m' (plug (f :: fs) (.leaf i)) (removed i f fs) i ∧ m'.leafP i = null := by
  have hleaf : m.leafP i = ebDotag (.node f.owner) f.side := ((repTree_plug _ _).mp h.rep).2
  have hnull : m.leafP i ≠ null := by
    rw [hleaf]
    simp [ebDotag, null]
  have hright : (m.b (.node f.owner) ebRght).root ≠ none := by
    obtain ⟨-, -, hb₀, hb₁, -⟩ := ((repTree_plug _ _).mp h.rep).1
    cases hside : f.side with
    | true =>
      rw [hside] at hb₀
      simp [hb₀, troot]
    | false =>
      rw [hside] at hb₁
      simp only [show ebRght = !false from rfl, hb₁, troot_root, ne_eq, not_false_eq_true]
  obtain ⟨m₂, hlift, hmoved⟩ := liftSibling_spec h
  have hrun : ebDelete m i = if m₂.nodeP i = null then some (m₂.setLeafP i null) else (takeOver m₂ f.owner i).map
      fun m => m.setLeafP i null := by
    rw [ebDelete, if_neg hnull, hleaf]
    simp only [ebDotag_root, ebDotag_tag, ebDotag_entry, Option.bind_eq_bind, Option.bind_some, if_neg hright, hlift,
      Option.map_eq_bind]
    rfl
  have hin : i ∈ (plug (f :: fs) (.leaf i)).leaves := mem_leaves_plug.mpr (.inl List.mem_cons_self)
  rw [hrun]
  by_cases hno : ∀ g ∈ fs, g.owner ≠ i
  · rw [if_pos (hmoved.node_free h hno)]
    exact ⟨_, rfl, (hmoved.cut hno).setLeafP hin (not_mem_removed h.nodup), by simp⟩
  · push Not at hno
    obtain ⟨g, hg, howner⟩ := hno
    obtain ⟨f₁, f₂, rfl⟩ := List.append_of_mem hg
    obtain ⟨hused, m₃, htake, hcut⟩ := hmoved.takeOver h howner
    rw [if_neg hused, htake]
    exact ⟨_, rfl, hcut.setLeafP hin (not_mem_removed h.nodup), by simp⟩

theorem owned_removed (h : Linked m (plug (f :: fs) (.leaf i))) : Owned (removed i f fs) := by
  have hsib : ∀ g ∈ fs, i ∉ g.sibling.leaves := fun g hg => h.sibling_leaves (List.mem_cons_of_mem _ hg)
  have hown := owned_frame_plug.mp h.owned.of_plug_cons
  by_cases hi : f.owner = i
  · have hno : ∀ g ∈ fs, g.owner ≠ i := by
      have hnodup := h.around_nodup
      rw [around, List.nodup_cons] at hnodup
      exact fun g hg heq => hnodup.1 (List.mem_append_right _ (hi ▸ heq ▸ owner_mem_around hg))
    rw [removed_of_no_node hno]
    exact owned_without h.owned hno hsib
  · refine h.owned.rename (t := f.plug (.leaf i)) hown.2.1 (fun j hj => ?_) ?_ hsib
    · rcases mem_leaves_frame_plug.mp hj with hj | hj
      · exact .inr (List.mem_singleton.mp hj)
      · exact .inl hj
    · exact hown.1.resolve_left fun hin => hi (List.mem_singleton.mp hin)

theorem ordered_removed (h : Linked m (plug (f :: fs) (.leaf i))) : Ordered m.key (removed i f fs) := by
  have hord : Ordered m.key (plug fs (f.plug (.leaf i))) := h.ordered
  refine hord.rename (ordered_frame_plug.mp hord.of_plug).2.2.1 (fun j hj => mem_leaves_frame_plug.mpr (.inr hj)) ?_
  exact mem_leaves_frame_plug.mpr (owned_frame_plug.mp h.owned.of_plug_cons).1

theorem Cut.linked (h : Linked m (plug (f :: fs) (.leaf i)))
    (hcut : Cut m m' (plug (f :: fs) (.leaf i)) (removed i f fs) i) :
    Linked m' (removed i f fs) where
  rep := hcut.rep
  nodup := by
    rw [leaves_removed h.nodup]
    exact h.nodup.erase i
  owners_nodup := by
    obtain ⟨k, hperm, -⟩ := hcut.owners
    exact (List.nodup_cons.mp (hperm.nodup_iff.mp h.owners_nodup)).2
  owned := owned_removed h
  ordered := by
    rw [hcut.key]
    exact ordered_removed h
  spare := by
    obtain ⟨k, hperm, hk⟩ := hcut.owners
    intro j hj hno
    by_cases hjk : j = k
    · subst hjk
      refine hk.resolve_left ?_
      rintro rfl
      exact not_mem_removed h.nodup hj
    · have hout : j ∉ (plug (f :: fs) (.leaf i)).owners := by
        rw [hperm.mem_iff, List.mem_cons, not_or]
        exact ⟨hjk, hno⟩
      rw [leaves_removed h.nodup] at hj
      rw [hcut.nodeP j hout, h.spare j (List.mem_of_mem_erase hj) hout]

/-- `eb_delete` takes the entry out, and marks it as being in no tree. -/
theorem ebDelete_spec (h : Holds m l) (i : Nat) :
    ∃ m', ebDelete m i = some m' ∧ Holds m' (l.erase i) ∧ m'.key = m.key := by
  by_cases hi : i ∈ l
  · obtain ⟨t, rfl, ht⟩ := h.lists.linked (List.ne_nil_of_mem hi)
    obtain ⟨fs, rfl⟩ := exists_place hi
    cases fs with
    | nil =>
      obtain ⟨⟨-, hright⟩, hleaf⟩ := ht.rep
      have hleaf : m.leafP i = ebDotag .top ebLeft := hleaf
      have hrun : ebDelete m i = some ((m.setB .top ebLeft null).setLeafP i null) := by
        simp [ebDelete, hleaf, hright, ebDotag, null]
      refine ⟨_, hrun, ⟨.inl ⟨?_, by simp, by simp [hright]⟩, fun j hj => ?_⟩, rfl⟩
      · simp [plug]
      · by_cases hji : j = i
        · simp [hji]
        · have hout : j ∉ (plug [] (.leaf i)).leaves := fun hin => hj ((List.mem_erase_of_ne hji).mpr hin)
          simp [hji, h.unlinked j hout]
    | cons f fs =>
      obtain ⟨m', hrun, hcut, hleaf⟩ := ebDelete_cut ht
      refine ⟨m', hrun, ⟨.inr ⟨_, leaves_removed ht.nodup, hcut.linked ht⟩, fun j hj => ?_⟩, hcut.key⟩
      by_cases hji : j = i
      · rw [hji, hleaf]
      · have hout : j ∉ (plug (f :: fs) (.leaf i)).leaves := fun hin => hj ((List.mem_erase_of_ne hji).mpr hin)
        rw [hcut.leafP j hout, h.unlinked j hout]
  · refine ⟨m, if_pos (h.unlinked i hi), ?_, rfl⟩
    rwa [List.erase_of_not_mem hi]

end ZeroServ.Ebtree
