import ZeroServ.Ebtree.Nodes
import ZeroServ.Lib.ElasticTree

/-!
# What a tree in memory is

`RepTree m t`: the memory holds the tree `t`, every branch and every pointer to a parent being as it has to be;
around a place of the tree this is `RepAt`. The leaf of an entry is in its leaf part, the node it owns in its node
part, so that a change of one part leaves alone whatever only the other one is in (`Rep.congr`, `RepAt.congr`).
-/

namespace ZeroServ.Ebtree

open Elastic

/-- The branch that leads to a tree. -/
def troot : ETree Nat → Troot
  | .leaf i => ebDotag (.node i) ebLeaf
  | .node i _ _ _ => ebDotag (.node i) ebNode

/-- The memory holds a tree, whose parent is at `up`. -/
def Rep (m : Mem) : ETree Nat → Troot → Prop
  | .leaf i, up => m.leafP i = up
  | .node i bit l r, up =>
    m.nodeP i = up ∧ m.bit i = bit ∧ m.b (.node i) ebLeft = troot l ∧ m.b (.node i) ebRght = troot r ∧
      Rep m l (ebDotag (.node i) ebLeft) ∧ Rep m r (ebDotag (.node i) ebRght)

/-- The pointer to its parent in what stands at a place. -/
def upOf : List (Frame Nat) → Troot
  | [] => ebDotag .top ebLeft
  | f :: _ => ebDotag (.node f.owner) f.side

/-- The memory holds what is around a place, where the branch `c` is. -/
def RepAt (m : Mem) : List (Frame Nat) → Troot → Prop
  | [], c => m.b .top ebLeft = c ∧ m.b .top ebRght = null
  | f :: fs, c =>
    m.nodeP f.owner = upOf fs ∧ m.bit f.owner = f.bit ∧ m.b (.node f.owner) f.side = c ∧
      m.b (.node f.owner) (!f.side) = troot f.sibling ∧ Rep m f.sibling (ebDotag (.node f.owner) !f.side) ∧
      RepAt m fs (ebDotag (.node f.owner) ebNode)

/-- The memory holds a tree below the root. -/
def RepTree (m : Mem) (t : ETree Nat) : Prop := RepAt m [] (troot t) ∧ Rep m t (upOf [])

variable {m m' : Mem} {t e : ETree Nat} {f : Frame Nat} {fs : List (Frame Nat)} {c up : Troot} {i j n fuel : Nat}

theorem troot_frame_plug (f : Frame Nat) (t : ETree Nat) : troot (f.plug t) = ebDotag (.node f.owner) ebNode := by
  unfold Frame.plug
  split <;> rfl

theorem rep_frame_plug : Rep m (f.plug t) up ↔
    m.nodeP f.owner = up ∧ m.bit f.owner = f.bit ∧ m.b (.node f.owner) f.side = troot t ∧
    m.b (.node f.owner) (!f.side) = troot f.sibling ∧ Rep m f.sibling (ebDotag (.node f.owner) !f.side) ∧
    Rep m t (ebDotag (.node f.owner) f.side) := by
  unfold Frame.plug
  cases f.side with
  | true =>
    simp only [if_true, Rep, Bool.not_true]
    tauto
  | false =>
    simp only [Bool.false_eq_true, if_false, Rep, Bool.not_false]
    tauto

/-- A tree in its place, in memory. -/
theorem repTree_plug (fs : List (Frame Nat)) (t : ETree Nat) :
    RepTree m (plug fs t) ↔ RepAt m fs (troot t) ∧ Rep m t (upOf fs) := by
  induction fs generalizing t with
  | nil => exact Iff.rfl
  | cons f fs ih =>
    rw [plug, ih, rep_frame_plug, troot_frame_plug, RepAt, upOf]
    tauto

theorem troot_ne_null (t : ETree Nat) : troot t ≠ null := by
  cases t <;> simp [troot, ebDotag, null]

theorem troot_root (t : ETree Nat) : (troot t).root ≠ none := by
  cases t <;> simp [troot, ebDotag]

/-! ## Changes elsewhere -/

/-- Two memories have the same leaf parts of some entries and the same node parts of others. -/
structure Same (m m' : Mem) (leaves owners : List Nat) : Prop where
  leafP : ∀ i ∈ leaves, m'.leafP i = m.leafP i
  nodeP : ∀ i ∈ owners, m'.nodeP i = m.nodeP i
  bit : ∀ i ∈ owners, m'.bit i = m.bit i
  b : ∀ i ∈ owners, ∀ side, m'.b (.node i) side = m.b (.node i) side

namespace Same

variable {L L' O O' : List Nat} {m'' : Mem}

theorem refl (m : Mem) (L O : List Nat) : Same m m L O :=
  ⟨fun _ _ => rfl, fun _ _ => rfl, fun _ _ => rfl, fun _ _ _ => rfl⟩

theorem trans (h : Same m m' L O) (h' : Same m' m'' L O) : Same m m'' L O where
  leafP i hi := (h'.leafP i hi).trans (h.leafP i hi)
  nodeP i hi := (h'.nodeP i hi).trans (h.nodeP i hi)
  bit i hi := (h'.bit i hi).trans (h.bit i hi)
  b i hi side := (h'.b i hi side).trans (h.b i hi side)

theorem mono (h : Same m m' L O) (hL : L' ⊆ L) (hO : O' ⊆ O) : Same m m' L' O' where
  leafP i hi := h.leafP i (hL hi)
  nodeP i hi := h.nodeP i (hO hi)
  bit i hi := h.bit i (hO hi)
  b i hi := h.b i (hO hi)

theorem setLeafP (t : Troot) (hi : i ∉ L) : Same m (m.setLeafP i t) L O where
  leafP _ hj := Function.update_of_ne (ne_of_mem_of_not_mem hj hi) _ _
  nodeP _ _ := rfl
  bit _ _ := rfl
  b _ _ _ := rfl

theorem setNodeP (t : Troot) (hi : i ∉ O) : Same m (m.setNodeP i t) L O where
  leafP _ _ := rfl
  nodeP _ hj := Function.update_of_ne (ne_of_mem_of_not_mem hj hi) _ _
  bit _ _ := rfl
  b _ _ _ := rfl

theorem setBit (bit : Int) (hi : i ∉ O) : Same m (m.setBit i bit) L O where
  leafP _ _ := rfl
  nodeP _ _ := rfl
  bit _ hj := Function.update_of_ne (ne_of_mem_of_not_mem hj hi) _ _
  b _ _ _ := rfl

theorem setB {a : Addr} (side : Bool) (t : Troot) (ha : ∀ i ∈ O, .node i ≠ a) : Same m (m.setB a side t) L O where
  leafP _ _ := rfl
  nodeP _ _ := rfl
  bit _ _ := rfl
  b j hj _ := congrFun (Function.update_of_ne (ha j hj) _ _) _

theorem setUp (branch : Bool) (t : Troot) (hi : branch = ebLeaf → i ∉ L) (hi' : branch = ebNode → i ∉ O) :
    Same m (m.setUp branch i t) L O := by
  cases branch with
  | false => exact setLeafP t (hi rfl)
  | true => exact setNodeP t (hi' rfl)

end Same

theorem Rep.congr (h : Rep m t up) (hs : Same m m' t.leaves t.owners) : Rep m' t up := by
  induction t generalizing up with
  | leaf i => exact (hs.leafP i List.mem_cons_self).trans h
  | node i bit l r hl hr =>
    obtain ⟨hp, hbit, hb₀, hb₁, hrl, hrr⟩ := h
    have hi : i ∈ (ETree.node i bit l r).owners := List.mem_cons_self
    refine ⟨(hs.nodeP i hi).trans hp, (hs.bit i hi).trans hbit, (hs.b i hi _).trans hb₀, (hs.b i hi _).trans hb₁,
      hl hrl ?_, hr hrr ?_⟩
    · exact hs.mono (List.subset_append_left _ _) fun k hk => List.mem_cons_of_mem _ (List.mem_append_left _ hk)
    · exact hs.mono (List.subset_append_right _ _) fun k hk => List.mem_cons_of_mem _ (List.mem_append_right _ hk)

/-- The leaves around a place. -/
def beside (fs : List (Frame Nat)) : List Nat := before fs ++ after fs

theorem mem_beside_cons : j ∈ beside (f :: fs) ↔ j ∈ f.sibling.leaves ∨ j ∈ beside fs := by
  simp only [beside, before, after, List.mem_append]
  cases f.side <;> simp <;> tauto

theorem RepAt.congr (h : RepAt m fs c) (hs : Same m m' (beside fs) (around fs)) (htop : m'.b .top = m.b .top) :
    RepAt m' fs c := by
  induction fs generalizing c with
  | nil => exact ⟨(congrFun htop _).trans h.1, (congrFun htop _).trans h.2⟩
  | cons f fs ih =>
    obtain ⟨hp, hbit, hb₀, hb₁, hsib, hrest⟩ := h
    have hi : f.owner ∈ around (f :: fs) := List.mem_cons_self
    refine ⟨(hs.nodeP _ hi).trans hp, (hs.bit _ hi).trans hbit, (hs.b _ hi _).trans hb₀, (hs.b _ hi _).trans hb₁,
      hsib.congr ?_, ih hrest ?_⟩
    · exact hs.mono (fun k hk => mem_beside_cons.mpr (.inl hk)) fun k hk =>
        List.mem_cons_of_mem _ (List.mem_append_left _ hk)
    · exact hs.mono (fun k hk => mem_beside_cons.mpr (.inr hk)) fun k hk =>
        List.mem_cons_of_mem _ (List.mem_append_right _ hk)

theorem setB_self (m : Mem) (a : Addr) (side : Bool) (t : Troot) : (m.setB a side t).b a side = t := by
  simp

theorem setB_other (m : Mem) (a : Addr) (side : Bool) (t : Troot) : (m.setB a side t).b a (!side) = m.b a !side := by
  simp

theorem setB_of_ne (m : Mem) {a a' : Addr} (h : a' ≠ a) (side : Bool) (t : Troot) : (m.setB a side t).b a' = m.b a' :=
  Function.update_of_ne h _ _

/-- Another branch at the place. -/
theorem RepAt.setB (h : RepAt m fs c) (hnodup : (around fs).Nodup) {a : Addr} {side : Bool}
    (hup : upOf fs = ebDotag a side) (c' : Troot) :
    RepAt (m.setB a side c') fs c' := by
  cases fs with
  | nil =>
    obtain ⟨rfl, rfl⟩ : Addr.top = a ∧ ebLeft = side := by simpa [upOf, ebDotag] using hup
    exact ⟨setB_self .., (setB_other m .top ebLeft c').trans h.2⟩
  | cons f fs =>
    obtain ⟨rfl, rfl⟩ : Addr.node f.owner = a ∧ f.side = side := by simpa [upOf, ebDotag] using hup
    obtain ⟨hp, hbit, hb₀, hb₁, hsib, hrest⟩ := h
    obtain ⟨hout, -⟩ := List.nodup_cons.mp hnodup
    rw [List.mem_append, not_or] at hout
    have hne {O : List Nat} (hO : f.owner ∉ O) : ∀ i ∈ O, Addr.node i ≠ .node f.owner := by
      intro i hi heq
      exact hO (Addr.node.inj heq ▸ hi)
    refine ⟨hp, hbit, setB_self .., (setB_other ..).trans hb₁, hsib.congr (.setB _ _ (hne hout.1)),
      hrest.congr (.setB _ _ (hne hout.2)) ?_⟩
    exact setB_of_ne m (by simp) _ _

/-! ## Walks -/

theorem depth_le_owners (t : ETree Nat) : t.depth ≤ t.owners.length := by
  have h₁ := t.depth_lt
  have h₂ := t.length_leaves
  omega

/-- The walk down ends at the first leaf. -/
theorem ebWalkDown_left (h : Rep m t up) (hn : t.depth < n) :
    ebWalkDown m n (troot t) ebLeft = some (some t.first) := by
  induction t generalizing up n with
  | leaf i =>
    obtain ⟨n, rfl⟩ := Nat.exists_eq_succ_of_ne_zero (Nat.ne_of_gt hn)
    rfl
  | node i bit l r hl _ =>
    obtain ⟨n, rfl⟩ := Nat.exists_eq_succ_of_ne_zero (Nat.ne_of_gt (Nat.zero_lt_of_lt hn))
    obtain ⟨-, -, hb, -, hrl, -⟩ := h
    have hdepth : l.depth < n := by
      rw [ETree.depth] at hn
      omega
    have hstep : ebWalkDown m (n + 1) (troot (.node i bit l r)) ebLeft = ebWalkDown m n (m.b (.node i) ebLeft) ebLeft :=
      rfl
    rw [hstep, hb]
    exact hl hrl hdepth

/-- What the walk up meets: the root, where nothing is to the right of the place, or the node that has it on its
left. -/
theorem ebUp_spec (h : RepAt m fs c) (hn : fs.length < n) :
    (ebUp m n (upOf fs) = some .top ∧ after fs = [] ∧ m.b .top ebRght = null) ∨
      ∃ (f : Frame Nat) (rest : List Nat), ebUp m n (upOf fs) = some (.node f.owner) ∧
      after fs = f.sibling.leaves ++ rest ∧
        m.b (.node f.owner) ebRght = troot f.sibling ∧ Rep m f.sibling (ebDotag (.node f.owner) ebRght) ∧ f ∈ fs := by
  induction fs generalizing n c with
  | nil =>
    obtain ⟨n, rfl⟩ := Nat.exists_eq_succ_of_ne_zero (Nat.ne_of_gt hn)
    exact .inl ⟨rfl, rfl, h.2⟩
  | cons f fs ih =>
    obtain ⟨n, rfl⟩ := Nat.exists_eq_succ_of_ne_zero (Nat.ne_of_gt (Nat.zero_lt_of_lt hn))
    obtain ⟨hp, -, -, hb₁, hsib, hrest⟩ := h
    cases hside : f.side with
    | false =>
      rw [hside] at hb₁ hsib
      refine .inr ⟨f, after fs, ?_, ?_, hb₁, hsib, List.mem_cons_self⟩
      · simp [upOf, ebUp, ebDotag, hside]
      · simp [after, hside]
    | true =>
      have hstep : ebUp m (n + 1) (upOf (f :: fs)) = ebUp m n (upOf fs) := by
        rw [ebUp, if_pos (by simp [upOf, ebDotag, hside])]
        simp [upOf, ebDotag, Troot.entry, hp]
      have hafter : after (f :: fs) = after fs := by simp [after, hside]
      rw [hstep, hafter]
      rcases ih hrest (Nat.lt_of_succ_lt_succ hn) with htop | ⟨g, rest, hg, ha, hb, hr, hmem⟩
      · exact .inl htop
      · exact .inr ⟨g, rest, hg, ha, hb, hr, List.mem_cons_of_mem _ hmem⟩

theorem sibling_depth_le (hf : f ∈ fs) : f.sibling.depth ≤ (around fs).length := by
  induction fs with
  | nil => exact absurd hf List.not_mem_nil
  | cons g fs ih =>
    rw [around, List.length_cons, List.length_append]
    rcases List.mem_cons.mp hf with rfl | hf
    · have h := depth_le_owners f.sibling
      omega
    · have h := ih hf
      omega

theorem length_le_around (fs : List (Frame Nat)) : fs.length ≤ (around fs).length := by
  induction fs with
  | nil => exact Nat.le_refl _
  | cons f fs ih =>
    rw [around, List.length_cons, List.length_cons, List.length_append]
    omega

/-- From the parent of a place, the first leaf to its right. -/
theorem ebAfter_spec (h : RepAt m fs c) (hfuel : (around fs).length < fuel) :
    ebAfter m fuel (upOf fs) = some (after fs).head? := by
  have hlen := length_le_around fs
  rcases ebUp_spec h (n := fuel) (by omega) with ⟨hup, hafter, hright⟩ | ⟨f, rest, hup, hafter, hb, hsib, hf⟩
  · simp [ebAfter, hup, hafter, hright, null]
  · have hdepth := sibling_depth_le hf
    have hwalk := ebWalkDown_left hsib (n := fuel) (by omega)
    simp [ebAfter, hup, hafter, hb, troot_root, hwalk, List.head?_append, ETree.head?_leaves]

end ZeroServ.Ebtree
