import ZeroServ.Ebtree.Duplicates

/-!
# The bits fit in a `short`

The memory holds one tree only (`repTree_unique`). An insertion adds one at most to what its bits weigh, also the one
that goes straight below the entry that is remembered, and a deletion adds nothing (`eb32Insert_loaded`,
`ebInsertDup_loaded`, `ebDelete_loaded`); so the bits of the nodes in the tree are bounded by the logarithm of the
number of insertions (`Loaded.bit_bounds`).
-/

namespace ZeroServ.Ebtree

open Elastic

variable {m m' : Mem} {t t' e : ETree Nat} {f : Frame Nat} {fs gs : List (Frame Nat)} {l : List Nat}
    {i last new fuel k : Nat} {bit : Int}
  {right : Bool} {x : BitVec 32} {up up' : Troot}

theorem rep_unique (h : Rep m t up) (h' : Rep m t' up') (ht : troot t = troot t') : t = t' := by
  induction t generalizing t' up up' with
  | leaf i =>
    cases t' with
    | leaf j =>
      obtain rfl : i = j := by simpa [troot, ebDotag] using ht
      rfl
    | node j bit l r => simp [troot, ebDotag, ebLeaf, ebNode] at ht
  | node i bit l r hl hr =>
    cases t' with
    | leaf j => simp [troot, ebDotag, ebLeaf, ebNode] at ht
    | node j bit' l' r' =>
      obtain rfl : i = j := by simpa [troot, ebDotag] using ht
      obtain ⟨-, hbit, hb₀, hb₁, hrl, hrr⟩ := h
      obtain ⟨-, hbit', hb₀', hb₁', hrl', hrr'⟩ := h'
      rw [hl hrl hrl' (hb₀.symm.trans hb₀'), hr hrr hrr' (hb₁.symm.trans hb₁'), ← hbit, ← hbit']

/-- The memory holds one tree. -/
theorem repTree_unique (h : RepTree m t) (h' : RepTree m t') : t = t' := rep_unique h.2 h'.2 (h.1.1.symm.trans h'.1.1)

/-- The bits of the tree weigh no more than `k`. -/
def Loaded (k : Nat) (m : Mem) : Prop := ∀ t, RepTree m t → t.load ≤ k

theorem loaded_of (h : RepTree m t) (hk : t.load ≤ k) : Loaded k m := fun _ ht => repTree_unique h ht ▸ hk

/-- An empty tree weighs nothing. -/
theorem loaded_empty (h : Lists m []) (k : Nat) : Loaded k m := by
  rcases h with ⟨-, hb₀, -⟩ | ⟨t, ht, -⟩
  · exact fun t ht => absurd (ht.1.1.symm.trans hb₀) (troot_ne_null t)
  · exact absurd ht t.leaves_ne_nil

theorem Loaded.setKey (h : Loaded k m) (i : Nat) (x : BitVec 32) : Loaded k (m.setKey i x) := by
  intro t ht
  have hsame (L O : List Nat) : Same (m.setKey i x) m L O :=
    ⟨fun _ _ => rfl, fun _ _ => rfl, fun _ _ => rfl, fun _ _ _ => rfl⟩
  exact h t ⟨ht.1.congr (hsame _ _) rfl, ht.2.congr (hsame _ _)⟩

/-! ## What the operations add -/

theorem Inserted.loaded (h : Inserted m m' fs e new bit right) (hl : Linked m (plug fs e))
    (hnew : new ∉ (plug fs e).leaves) (hk : Loaded k m) : Loaded (k + 1) m' := by
  refine loaded_of (h.attached.repTree hl hnew) ((load_plug_le (load_join h.load h.left)).trans ?_)
  exact Nat.succ_le_succ (hk _ hl.rep)

theorem eb32Insert_loaded (h : Holds m l) (hnew : new ∉ l) (hfuel : l.length ≤ fuel) (hk : Loaded k m)
    (hrun : eb32Insert m fuel new = some (m', new)) : Loaded (k + 1) m' := by
  by_cases hl : l = []
  · subst hl
    obtain ⟨m₁, hrun₁, hholds, -⟩ := eb32Insert_spec h hnew hfuel
    obtain ⟨rfl, -⟩ := Prod.mk.inj (Option.some.inj (hrun₁.symm.trans hrun))
    obtain ⟨t, hleaves, ht⟩ := hholds.lists.linked (List.ne_nil_of_mem (EbTree.mem_insert.mpr (.inl rfl)))
    have hlen := t.length_leaves
    rw [hleaves] at hlen
    cases t with
    | leaf i => exact loaded_of ht.rep (Nat.zero_le _)
    | node i bit l r => exact absurd hlen (by simp [EbTree.insert])
  · obtain ⟨t, rfl, ht⟩ := h.lists.linked hl
    obtain ⟨m₁, fs, e, bit, right, hrun₁, rfl, hins⟩ := eb32Insert_linked ht hnew hfuel
    obtain ⟨rfl, -⟩ := Prod.mk.inj (Option.some.inj (hrun₁.symm.trans hrun))
    exact hins.loaded ht hnew hk

theorem ebInsertDup_loaded (hlast : LastOk m l (some last)) (hnew : new ∉ l) (hbit : m.bit last < 0)
    (hp : m.nodeP last ≠ null)
    (hfuel : l.length ≤ fuel) (hk : Loaded k m) (hrun : ebInsertDup m fuel last new = some m') : Loaded (k + 1) m' := by
  obtain ⟨hmem, t, rfl, ht, -⟩ := hlast last rfl
  obtain ⟨fs, bit, l, r, rfl⟩ := exists_node (ht.owner_of_nodeP hmem hp)
  obtain ⟨-, hmbit, -⟩ := ((repTree_plug _ _).mp ht.rep).2
  obtain ⟨m₁, gs, e, bit', hrun₁, hin, -, hneg, -, hload, hatt⟩ := ebInsertDup_spec ht (hmbit ▸ hbit) hnew hfuel
  obtain rfl := Option.some.inj (hrun₁.symm.trans hrun)
  have hplace : plug fs (.node last bit l r) = plug (gs ++ fs) e := by rw [plug_append, ← hin]
  rw [hplace] at ht hnew
  refine loaded_of (hatt.repTree ht hnew) ((load_plug_le (load_join hload fun h => absurd h Bool.noConfusion)).trans ?_)
  exact Nat.succ_le_succ (hk _ ht.rep)

theorem load_removed (i : Nat) (f : Frame Nat) (fs : List (Frame Nat)) :
    (removed i f fs).load ≤ (plug (f :: fs) (.leaf i)).load := by
  rw [removed, load_rename]
  exact load_plug_le (k := 0) (t := f.plug (.leaf i)) (load_sibling_le f _)

theorem ebDelete_loaded (h : Holds m l) (hk : Loaded k m) (hrun : ebDelete m i = some m') : Loaded k m' := by
  by_cases hi : i ∈ l
  · obtain ⟨t, rfl, ht⟩ := h.lists.linked (List.ne_nil_of_mem hi)
    obtain ⟨fs, rfl⟩ := exists_place hi
    cases fs with
    | nil =>
      obtain ⟨m₁, hrun₁, hholds, -⟩ := ebDelete_spec h i
      obtain rfl := Option.some.inj (hrun₁.symm.trans hrun)
      have hnil : (plug [] (ETree.leaf i)).leaves.erase i = [] := by simp [plug]
      exact loaded_empty (hnil ▸ hholds.lists) k
    | cons f fs =>
      obtain ⟨m₁, hrun₁, hcut, -⟩ := ebDelete_cut ht
      obtain rfl := Option.some.inj (hrun₁.symm.trans hrun)
      exact loaded_of hcut.rep ((load_removed i f fs).trans (hk _ ht.rep))
  · have hstay : ebDelete m i = some m := if_pos (h.unlinked i hi)
    obtain rfl := Option.some.inj (hstay.symm.trans hrun)
    exact hk

/-- The bits of the nodes in the tree. -/
theorem Loaded.bit_bounds {j : Nat} (hk : Loaded k m) (h : Holds m l) (hlt : k < 2 ^ j) (hi : m.leafP i ≠ null)
    (hp : m.nodeP i ≠ null) :
    -j ≤ m.bit i ∧ m.bit i < 32 := by
  have hin : i ∈ l := by
    by_contra hout
    exact hi (h.unlinked i hout)
  obtain ⟨t, rfl, ht⟩ := h.lists.linked (List.ne_nil_of_mem hin)
  obtain ⟨fs, bit, l, r, rfl⟩ := exists_node (ht.owner_of_nodeP hin hp)
  obtain ⟨-, hmbit, -⟩ := ((repTree_plug _ _).mp ht.rep).2
  rw [hmbit]
  exact ⟨le_of_weight_lt (((weight_le_load fs i bit).trans (hk _ ht.rep)).trans_lt hlt), ht.ordered.of_plug.bit_lt⟩

end ZeroServ.Ebtree
