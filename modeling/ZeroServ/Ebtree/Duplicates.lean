import ZeroServ.Ebtree.Delete

/-!
# Insertion below the node of an entry with the same key

`__task_queue` puts a task straight below the node of the one queued last, with `eb_insert_dup`, if they have the
same date. This is what `eb32_insert` would do as long as that node can take duplicates (`TakesDups`), and it stays
so when other entries come and go, if the entry is replaced by the new one whenever the bit of that one is lower
(`insertDup_last`, `insert_last`, `delete_last`).
-/

namespace ZeroServ.Ebtree

open Elastic

/-- The entry that is remembered is in the tree, and its node can take duplicates. -/
def LastOk (m : Mem) (l : List Nat) (last : Option Nat) : Prop :=
  ∀ i, last = some i → i ∈ l ∧ ∃ t, t.leaves = l ∧ Linked m t ∧ TakesDups i t

variable {m m' : Mem} {t e : ETree Nat} {f : Frame Nat} {fs gs : List (Frame Nat)} {l : List Nat}
    {i last new fuel : Nat} {bit : Int}
  {right : Bool} {x : BitVec 32}

theorem lastOk_none (m : Mem) (l : List Nat) : LastOk m l none := fun _ h => absurd h (Option.some_ne_none _).symm

theorem lastOk_some (hi : i ∈ t.leaves) (ht : Linked m t) (hd : TakesDups i t) : LastOk m t.leaves (some i) :=
  fun j hj => by
    obtain rfl := Option.some.inj hj
    exact ⟨hi, t, rfl, ht, hd⟩

theorem LastOk.eqOff {r : Option Nat} (h : LastOk m l r) (hi : i ∉ l) (hm : EqOff i m m') : LastOk m' l r := by
  intro j hj
  obtain ⟨hmem, t, rfl, ht, hd⟩ := h j hj
  exact ⟨hmem, t, rfl, ht.eqOff hi hm, hd⟩

/-- The node of an entry whose node part is in use is in the tree. -/
theorem Linked.owner_of_nodeP (h : Linked m t) (hi : i ∈ t.leaves) (hp : m.nodeP i ≠ null) : i ∈ t.owners := by
  by_contra hno
  exact hp (h.spare i hi hno)

theorem upOf_ne_null (fs : List (Frame Nat)) : upOf fs ≠ null := by
  cases fs <;> simp [upOf, ebDotag, null]

/-- A node among equal keys can be told by its fields. -/
theorem Linked.dup_node (h : Linked m (plug fs e)) (hi : i ∈ e.owners) (hkey : ∀ j ∈ e.leaves, m.key j = x) :
    m.bit i < 0 ∧ m.key i = x ∧ m.nodeP i ≠ null := by
  obtain ⟨gs, bit, l, r, rfl⟩ := exists_node hi
  have hown := h.owned.of_plug
  have hplace : plug fs (plug gs (.node i bit l r)) = plug (gs ++ fs) (.node i bit l r) := (plug_append ..).symm
  rw [hplace] at h
  obtain ⟨hp, hbit, -⟩ := ((repTree_plug _ _).mp h.rep).2
  refine ⟨?_, hkey i (hown.mem_leaves i hi), ?_⟩
  · rw [hbit]
    exact bit_neg_of_dup h.ordered.of_plug fun j hj => hkey j (mem_leaves_plug.mpr (.inl hj))
  · rw [hp]
    exact upOf_ne_null _

/-! ## Insertions -/

/-- The top node of a tree is around every place below it. -/
theorem top_mem_around {l r : ETree Nat} (h : ETree.node i bit l r = plug gs e) (hgs : gs ≠ []) : i ∈ around gs := by
  obtain ⟨gs, g, rfl⟩ := List.eq_nil_or_concat gs |>.resolve_left hgs
  rw [List.concat_eq_append, plug_append] at h
  have howner : i = g.owner := by
    have hplug : ETree.node i bit l r = g.plug (plug gs e) := h
    unfold Frame.plug at hplug
    split at hplug
    · exact (ETree.node.inj hplug).1
    · exact (ETree.node.inj hplug).1
  rw [List.concat_eq_append, howner]
  exact owner_mem_around (List.mem_append_right _ List.mem_cons_self)

/-- The new entry can be the one to remember. -/
theorem Inserted.takesDups_new (h : Inserted m m' fs e new bit right) (ho : Owned (plug fs e))
    (hnew : new ∉ (plug fs e).leaves) :
    TakesDups new (plug fs (join new bit right e)) := by
  have hout : new ∉ (plug fs e).owners := fun hin => hnew (ho.mem_leaves new hin)
  rw [mem_owners_plug, not_or] at hout
  refine takesDups_plug (takesDups_join (takesDups_of_notMem hout.1) fun _ => hout.1) h.dups fun f hf hin => ?_
  exact hout.2 (mem_around.mpr ⟨f, hf, .inr hin⟩)

/-- The old one can be, where its node is not among those with the new key on which the new node stands. -/
theorem takesDups_old (h : TakesDups last (plug fs e)) (hne : last ≠ new) (hno : bit < 0 → last ∉ e.owners) :
    TakesDups last (plug fs (join new bit right e)) := by
  refine h.replug (takesDups_join h.of_plug hno) fun hin => ?_
  rw [owners_join, List.mem_cons] at hin
  exact hin.resolve_left hne

/-- `eb_insert_dup` below the entry that is remembered, which has the same key. -/
theorem insertDup_last (h : Holds m l) (hlast : LastOk m l (some last)) (hnew : new ∉ l) (hbit : m.bit last < 0)
    (hkey : m.key last = m.key new) (hp : m.nodeP last ≠ null) (hfuel : l.length ≤ fuel) :
    ∃ m', ebInsertDup m fuel last new = some m' ∧ Holds m' (EbTree.insert m.key new l) ∧ m'.key = m.key ∧
      LastOk m' (EbTree.insert m.key new l) (if m'.bit new < m'.bit last then some new else some last) := by
  obtain ⟨hmem, t, rfl, ht, hd⟩ := hlast last rfl
  have hown := ht.owner_of_nodeP hmem hp
  obtain ⟨fs, bit, l, r, rfl⟩ := exists_node hown
  obtain ⟨-, hmbit, -⟩ := ((repTree_plug _ _).mp ht.rep).2
  have hneg : bit < 0 := by
    rwa [← hmbit]
  obtain ⟨m', gs, e, bit', hrun, hin, hgs, hneg', hlow, hload, hatt⟩ := ebInsertDup_spec ht hneg hnew hfuel
  have hplace : plug fs (.node last bit l r) = plug (gs ++ fs) e := by rw [plug_append, ← hin]
  have hdups : ∀ f ∈ gs ++ fs, f.bit < 0 → f.side = true := by
    intro f hf hf'
    rcases List.mem_append.mp hf with hf | hf
    · exact hgs f hf
    · exact hd.right List.mem_cons_self f hf hf'
  have hsame := ht.ordered.of_plug.node_dup hneg
  have hkeys : ∀ j ∈ e.leaves, m.key j = m.key new := by
    intro j hj
    rw [← hkey]
    refine hsame j ?_
    rw [hin]
    exact mem_leaves_plug.mpr (.inl hj)
  have hlastbit : m'.bit last = m.bit last := hatt.otherBit last (ne_of_mem_of_not_mem hmem hnew)
  rw [hplace] at ht hd hnew h hmem ⊢
  have hins : Inserted m m' (gs ++ fs) e new bit' true := inserted_dup ht hatt hneg' hload hkeys hdups
  have hlinked := hatt.linked ht hnew hins.ordered
  refine ⟨m', hrun, hins.holds ht hnew h.unlinked, hatt.key, ?_⟩
  rw [← hins.leaves]
  split
  · exact lastOk_some (mem_leaves_plug.mpr (.inl (mem_leaves_join.mpr (.inl rfl)))) hlinked
      (hins.takesDups_new ht.owned hnew)
  · next hge =>
    refine lastOk_some ?_ hlinked (takesDups_old hd (ne_of_mem_of_not_mem hmem hnew) fun _ hlo => ?_)
    · rw [hins.leaves]
      exact EbTree.mem_insert.mpr (.inr hmem)
    · -- the new node stands below the old one, or its bit is lower
      cases gs with
      | nil =>
        rw [hatt.bit, hlastbit, hmbit] at hge
        exact hge (hlow rfl)
      | cons g gs =>
        have htop := top_mem_around hin (List.cons_ne_nil g gs)
        refine ht.owners_disjoint.2.2 last ?_ hlo
        rw [around_append]
        exact List.mem_append_left _ htop

/-- The tree of the entries, and what is remembered of it. -/
theorem LastOk.tree {r : Option Nat} (hlast : LastOk m l r) (h : Holds m l) (hl : l ≠ []) :
    ∃ t, t.leaves = l ∧ Linked m t ∧ ∀ i, r = some i → i ∈ l ∧ TakesDups i t := by
  cases hr : r with
  | none =>
    obtain ⟨t, hleaves, ht⟩ := h.lists.linked hl
    exact ⟨t, hleaves, ht, fun _ hi => absurd hi (Option.some_ne_none _).symm⟩
  | some last =>
    obtain ⟨hmem, t, hleaves, ht, hd⟩ := hlast last hr
    refine ⟨t, hleaves, ht, fun i hi => ?_⟩
    obtain rfl := Option.some.inj hi
    exact ⟨hmem, hd⟩

/-- `eb32_insert` where the entry that is remembered has another key, or no node that can take duplicates: it may be
kept or replaced. -/
theorem insert_last {r : Option Nat} (h : Holds m l) (hlast : LastOk m l r) (hnew : new ∉ l)
    (hno : ∀ i, r = some i → ¬(m.bit i < 0 ∧ m.key i = m.key new ∧ m.nodeP i ≠ null)) (hfuel : l.length ≤ fuel) :
    ∃ m', eb32Insert m fuel new = some (m', new) ∧ Holds m' (EbTree.insert m.key new l) ∧ m'.key = m.key ∧
      LastOk m' (EbTree.insert m.key new l) r ∧ LastOk m' (EbTree.insert m.key new l) (some new) := by
  by_cases hl : l = []
  · subst hl
    obtain ⟨m', hrun, hholds, hkey⟩ := eb32Insert_spec h hnew hfuel
    refine ⟨m', hrun, hholds, hkey, fun i hi => absurd (hlast i hi).1 List.not_mem_nil, fun i hi => ?_⟩
    obtain rfl := Option.some.inj hi
    have hmem : new ∈ EbTree.insert m.key new [] := EbTree.mem_insert.mpr (.inl rfl)
    obtain ⟨t, hleaves, ht⟩ := hholds.lists.linked (List.ne_nil_of_mem hmem)
    have hlen := t.length_leaves
    rw [hleaves] at hlen
    have hnone : t.owners = [] := List.eq_nil_of_length_eq_zero (Nat.succ.inj hlen).symm
    refine ⟨hmem, t, hleaves, ht, takesDups_of_notMem ?_⟩
    rw [hnone]
    exact List.not_mem_nil
  · obtain ⟨t, rfl, ht, hd⟩ := hlast.tree h hl
    obtain ⟨m', fs, e, bit, right, hrun, rfl, hins⟩ := eb32Insert_linked ht hnew hfuel
    have hlinked := hins.attached.linked ht hnew hins.ordered
    refine ⟨m', hrun, hins.holds ht hnew h.unlinked, hins.attached.key, ?_⟩
    rw [← hins.leaves]
    refine ⟨fun i hi => ?_, ?_⟩
    · obtain ⟨hmem, hdi⟩ := hd i hi
      refine ⟨?_, _, rfl, hlinked, takesDups_old hdi (ne_of_mem_of_not_mem hmem hnew) fun hneg hin => ?_⟩
      · rw [hins.leaves]
        exact EbTree.mem_insert.mpr (.inr hmem)
      · -- all keys there are the new one, so that the entry could have been used
        have hkeys : ∀ j ∈ e.leaves, m.key j = m.key new := by
          intro j hj
          have hjoin := hins.ordered.of_plug
          have hdup : ∀ k ∈ (join new bit right e).leaves, m.key k = m.key new := by
            unfold join at hjoin ⊢
            split at hjoin
            · next hr =>
              rw [if_pos hr]
              exact hjoin.node_dup hneg
            · next hr =>
              rw [if_neg hr]
              exact hjoin.node_dup hneg
          exact hdup j (mem_leaves_join.mpr (.inr hj))
        exact hno i hi (ht.dup_node hin hkeys)
    · exact lastOk_some (mem_leaves_plug.mpr (.inl (mem_leaves_join.mpr (.inl rfl)))) hlinked
        (hins.takesDups_new ht.owned hnew)

/-! ## Deletion -/

/-- A deletion forgets the entry that is remembered if it is the one, and else leaves it as it is. -/
theorem delete_last {r : Option Nat} (h : Holds m l) (hlast : LastOk m l r) (i : Nat) :
    ∃ m', ebDelete m i = some m' ∧ Holds m' (l.erase i) ∧ m'.key = m.key ∧
      LastOk m' (l.erase i) (if r = some i then none else r) := by
  obtain ⟨m', hrun, hholds, hkey⟩ := ebDelete_spec h i
  refine ⟨m', hrun, hholds, hkey, ?_⟩
  split
  · exact lastOk_none _ _
  · next hne =>
    intro last hr
    subst hr
    have hli : last ≠ i := fun heq => hne (congrArg some heq)
    obtain ⟨hmem, t, rfl, ht, hd⟩ := hlast last rfl
    have hmem' : last ∈ t.leaves.erase i := (List.mem_erase_of_ne hli).mpr hmem
    by_cases hi : i ∈ t.leaves
    · obtain ⟨fs, rfl⟩ := exists_place hi
      cases fs with
      | nil => exact absurd (List.mem_singleton.mp hmem) hli
      | cons f fs =>
        obtain ⟨m₁, hrun₁, hcut, -⟩ := ebDelete_cut ht
        obtain rfl := Option.some.inj (hrun₁.symm.trans hrun)
        refine ⟨hmem', removed i f fs, leaves_removed ht.nodup, hcut.linked ht, ?_⟩
        have hframe := takesDups_frame_plug.mp (TakesDups.of_plug (t := f.plug (.leaf i)) hd)
        refine TakesDups.rename (t := f.plug (.leaf i)) hd hframe.2.1 (fun hin => ?_) ?_
        · exact mem_owners_frame_plug.mpr (.inr (.inl hin))
        · exact mem_owners_frame_plug.mpr (.inl rfl)
    · obtain rfl : m = m' := by
        have hstay : ebDelete m i = some m := if_pos (h.unlinked i hi)
        exact Option.some.inj (hstay.symm.trans hrun)
      exact ⟨hmem', t, (List.erase_of_not_mem hi).symm, ht, hd⟩

end ZeroServ.Ebtree
