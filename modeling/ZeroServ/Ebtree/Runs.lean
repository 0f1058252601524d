import ZeroServ.Ebtree.Delete
import ZeroServ.Lib.Run

/-!
# Runs of insertions and deletions

`n` entries in memory and one tree; an entry gets its key when it is inserted, which is done only where `leaf_p` is
NULL, as the callers test. After any run `eb32_first` and `eb32_next` list the entries that are in the tree, in the
order of their keys and those of equal keys in the order of their insertion (`walk_lists`), `eb32_lookup_ge` finds
what it has to (`lookup_finds`), and an entry that was deleted can be freed (`deleted_forgotten`).
-/

namespace ZeroServ.Ebtree

open Elastic Run

/-- What is done with a tree. -/
inductive Op where
  | insert (i : Nat) (x : BitVec 32)
  | delete (i : Nat)
  deriving DecidableEq, Repr

/-- An operation on memory; as many steps as there are entries are enough for its loops. -/
def step (n : Nat) (m : Mem) : Op → Option Mem
  | .insert i x => (eb32Insert (m.setKey i x) n i).map Prod.fst
  | .delete i => ebDelete m i

/-- Only an entry that is in no tree is inserted. -/
def Unlinked (n : Nat) (m : Mem) : Op → Prop
  | .insert i _ => i < n ∧ m.leafP i = null
  | .delete _ => True

instance (n : Nat) (m : Mem) (o : Op) : Decidable (Unlinked n m o) := by
  cases o with
  | insert i x => exact inferInstanceAs (Decidable (i < n ∧ m.leafP i = null))
  | delete i => exact instDecidableTrue

/-- What the callers mean by a tree: its entries in the order of their insertion, and the keys. -/
structure Entries where
  live : List Nat
  key : Nat → BitVec 32

namespace Entries

def apply (t : Entries) : Op → Entries
  | .insert i x => ⟨t.live ++ [i], Function.update t.key i x⟩
  | .delete i => ⟨t.live.erase i, t.key⟩

/-- An entry comes before another one by its key, or by its age. -/
def Before (t : Entries) (i j : Nat) : Prop := t.key i < t.key j ∨ t.key i = t.key j ∧ [i, j].Sublist t.live

/-- The entries in the order in which they come. -/
structure Listing (t : Entries) (l : List Nat) : Prop where
  perm : l.Perm t.live
  order : l.Pairwise t.Before

end Entries

variable {m m' : Mem} {t : Entries} {l p s : List Nat} {i j n fuel : Nat} {x : BitVec 32}

/-! ## The walk -/

/-- From an entry on with `eb32_next`. -/
def walk (m : Mem) (fuel : Nat) : Nat → Option Nat → Option (List Nat)
  | 0, _ => none
  | _ + 1, none => some []
  | n + 1, some i => do
    let j ← ebNext m fuel i
    let l ← walk m fuel n j
    pure (i :: l)

/-- `eb32_first`, and `eb32_next` as long as there is an entry. -/
def entries (m : Mem) (fuel : Nat) : Option (List Nat) := do
  let i ← ebFirst m fuel
  walk m fuel fuel i

theorem walk_spec (h : Lists m (p ++ s)) (hfuel : (p ++ s).length < fuel) (hn : s.length < n) :
    walk m fuel n s.head? = some s := by
  induction s generalizing p n with
  | nil =>
    obtain ⟨n, rfl⟩ := Nat.exists_eq_succ_of_ne_zero (Nat.ne_of_gt hn)
    rfl
  | cons i s ih =>
    obtain ⟨n, rfl⟩ := Nat.exists_eq_succ_of_ne_zero (Nat.ne_of_gt (Nat.zero_lt_of_lt hn))
    have hrest : walk m fuel n s.head? = some s := by
      refine ih (p := p ++ [i]) ?_ ?_ (Nat.lt_of_succ_lt_succ hn)
      · rwa [List.append_assoc, List.singleton_append]
      · rwa [List.append_assoc, List.singleton_append]
    rw [List.head?_cons, walk, ebNext_spec h hfuel]
    simp only [Option.bind_eq_bind, Option.bind_some, hrest]
    rfl

theorem entries_spec (h : Lists m l) (hfuel : l.length < fuel) : entries m fuel = some l := by
  rw [entries, ebFirst_spec h hfuel]
  exact walk_spec (p := []) h hfuel hfuel

/-! ## Runs -/

namespace Entries

theorem Before.mono {live' : List Nat} (h : t.Before i j) (hs : t.live.Sublist live') : Before ⟨live', t.key⟩ i j :=
  h.imp_right fun h => ⟨h.1, h.2.trans hs⟩

/-- A new entry comes after the entries whose keys are not above its own. -/
theorem Listing.insert (h : t.Listing l) (hi : i ∉ l) (x : BitVec 32) :
    (t.apply (.insert i x)).Listing (EbTree.insert (Function.update t.key i x) i l) where
  perm := (EbTree.insert_perm _ i l).trans ((h.perm.cons i).trans (List.perm_append_singleton i t.live).symm)
  order := by
    have hkey : ∀ a ∈ l, Function.update t.key i x a = t.key a :=
      fun a ha => Function.update_of_ne (ne_of_mem_of_not_mem ha hi) _ _
    have hold : l.Pairwise (t.apply (.insert i x)).Before := by
      refine h.order.imp_of_mem fun {a b} ha hb hab => ?_
      have hab' : Before ⟨t.live ++ [i], t.key⟩ a b := hab.mono (List.sublist_append_left t.live [i])
      rw [Before, apply]
      dsimp only
      rwa [hkey a ha, hkey b hb]
    have hsorted : EbTree.Sorted (Function.update t.key i x) l := by
      refine h.order.imp_of_mem fun {a b} ha hb hab => ?_
      rw [hkey a ha, hkey b hb]
      rcases hab with hlt | ⟨heq, -⟩
      · exact BitVec.le_of_lt hlt
      · rw [heq]
        exact BitVec.le_refl _
    refine hsorted.pairwise_insert hold (fun a ha hle => ?_) fun a _ hlt => .inl hlt
    by_cases heq : Function.update t.key i x a = Function.update t.key i x i
    · exact .inr ⟨heq, (List.singleton_sublist.mpr (h.perm.mem_iff.mp ha)).append_right [i]⟩
    · exact .inl (BitVec.lt_of_le_ne hle heq)

theorem Listing.delete (h : t.Listing l) (hnodup : l.Nodup) (i : Nat) : (t.apply (.delete i)).Listing (l.erase i) where
  perm := h.perm.erase i
  order := by
    refine (h.order.sublist List.erase_sublist).imp_of_mem fun {a b} ha hb hab => ?_
    refine hab.imp_right fun hab => ⟨hab.1, ?_⟩
    have hne : a ≠ i ∧ b ≠ i := ⟨(hnodup.mem_erase_iff.mp ha).1, (hnodup.mem_erase_iff.mp hb).1⟩
    have hsub := hab.2.erase i
    rwa [List.erase_of_not_mem (by simp [hne.1.symm, hne.2.symm])] at hsub

end Entries

/-- The memory holds a tree of such entries, of the first `n`. -/
structure Refines (n : Nat) (m : Mem) (t : Entries) (l : List Nat) : Prop where
  holds : Holds m l
  key : m.key = t.key
  listing : t.Listing l
  bounded : ∀ i ∈ l, i < n

theorem Refines.length_le (h : Refines n m t l) : l.length ≤ n := EbTree.length_le_of_lt h.holds.lists.nodup h.bounded

theorem refines_init (n : Nat) (key : Nat → BitVec 32) : Refines n (Mem.init key) ⟨[], key⟩ [] :=
  ⟨holds_init key, rfl, ⟨List.Perm.refl [], List.Pairwise.nil⟩, fun _ hi => absurd hi List.not_mem_nil⟩

/-- An operation keeps up with what is meant. -/
theorem step_refines {o : Op} (h : ∃ l, Refines n m t l) (ho : Unlinked n m o) :
    ∃ m', step n m o = some m' ∧ ∃ l, Refines n m' (t.apply o) l := by
  obtain ⟨l, h⟩ := h
  cases o with
  | insert i x =>
    obtain ⟨hi, hnull⟩ := ho
    have hout : i ∉ l := h.holds.leafP_eq_null.mp hnull
    obtain ⟨m', hrun, hholds, hkey⟩ := eb32Insert_spec (h.holds.setKey hout x) hout h.length_le
    have hkeys : (m.setKey i x).key = Function.update t.key i x := by
      rw [← h.key]
      rfl
    rw [hkeys] at hholds hkey
    refine ⟨m', by rw [step, hrun]; rfl, _, hholds, hkey, h.listing.insert hout x, fun j hj => ?_⟩
    rcases EbTree.mem_insert.mp hj with rfl | hj
    · exact hi
    · exact h.bounded j hj
  | delete i =>
    obtain ⟨m', hrun, hholds, hkey⟩ := ebDelete_spec h.holds i
    exact ⟨m', hrun, _, hholds, hkey.trans h.key, h.listing.delete h.holds.lists.nodup i,
      fun j hj => h.bounded j (List.mem_of_mem_erase hj)⟩

/-- A run of operations, on memory and as it is meant. -/
theorem exec_refines_entries {ops : List Op} {key : Nat → BitVec 32}
    (h : AllEvents (step n) (Unlinked n) (Mem.init key) ops) :
    ∃ m l, exec (step n) (Mem.init key) ops = some m ∧ Refines n m (ops.foldl Entries.apply ⟨[], key⟩) l := by
  obtain ⟨m, hrun, l, href⟩ := exec_simulates (R := fun m t => ∃ l, Refines n m t l)
    (fun _ _ o href ho => step_refines (o := o) href ho) ⟨[], refines_init n key⟩ h
  exact ⟨m, l, hrun, href⟩

/-- After every run of insertions and deletions the walk from `eb32_first` with `eb32_next` lists the entries in
their order. -/
theorem walk_lists (n : Nat) (key : Nat → BitVec 32) (ops : List Op)
    (h : AllEvents (step n) (Unlinked n) (Mem.init key) ops) :
    ∃ m l, exec (step n) (Mem.init key) ops = some m ∧ entries m (n + 1) = some l ∧
      (ops.foldl Entries.apply ⟨[], key⟩).Listing l := by
  obtain ⟨m, l, hrun, href⟩ := exec_refines_entries h
  exact ⟨m, l, hrun, entries_spec href.holds.lists (Nat.lt_succ_of_le href.length_le), href.listing⟩

theorem walk_lists_four : ∃ m l,
    exec (step 4) (Mem.init fun _ => 0) [.insert 0 5, .insert 1 3, .insert 2 5, .delete 0, .insert 3 5,
      .insert 0 5] = some m ∧
      entries m 5 = some l ∧ ([.insert 0 5, .insert 1 3, .insert 2 5, .delete 0, .insert 3 5,
        .insert 0 5].foldl Entries.apply ⟨[], fun _ => 0⟩).Listing l :=
  walk_lists 4 (fun _ => 0) [.insert 0 5, .insert 1 3, .insert 2 5, .delete 0, .insert 3 5, .insert 0 5]
    (by decide +kernel)

/-- What `eb32_lookup_ge` may find: no entry where all keys are below the value, or the first one whose key is not. -/
def Found (t : Entries) (x : BitVec 32) : Option Nat → Prop
  | none => ∀ i ∈ t.live, t.key i < x
  | some i => i ∈ t.live ∧ x ≤ t.key i ∧ ∀ j ∈ t.live, x ≤ t.key j → j = i ∨ t.Before i j

theorem Entries.Listing.found (h : t.Listing l) (x : BitVec 32) : Found t x (EbTree.lookupGe t.key x l).rest.head? := by
  have hsplit : (EbTree.lookupGe t.key x l).tree = l := EbTree.lookupGe_tree x l
  have hbelow : ∀ i ∈ (EbTree.lookupGe t.key x l).before, t.key i < x := by
    intro i hi
    simpa using List.mem_takeWhile_imp hi
  have horder := h.order
  rw [← hsplit, EbTree.Cursor.tree] at horder
  have hlive : ∀ i, i ∈ t.live ↔ i ∈ (EbTree.lookupGe t.key x l).before ∨ i ∈ (EbTree.lookupGe t.key x l).rest := by
    intro i
    rw [← h.perm.mem_iff, ← List.mem_append]
    exact iff_of_eq (congrArg (i ∈ ·) hsplit.symm)
  cases hrest : (EbTree.lookupGe t.key x l).rest with
  | nil =>
    intro i hi
    rw [hlive, hrest] at hi
    exact hbelow i (hi.resolve_right List.not_mem_nil)
  | cons i rest =>
    rw [hrest] at horder hlive
    have hhead := List.head?_dropWhile_not (fun a => decide (t.key a < x)) l
    rw [show l.dropWhile (fun a => decide (t.key a < x)) = i :: rest from hrest, List.head?_cons] at hhead
    have hfirst : x ≤ t.key i := BitVec.not_lt.mp (of_decide_eq_false hhead)
    refine ⟨(hlive i).mpr (.inr List.mem_cons_self), hfirst, fun j hj hge => ?_⟩
    rcases (hlive j).mp hj with hj | hj
    · exact absurd (hbelow j hj) (BitVec.not_lt.mpr hge)
    · rcases List.mem_cons.mp hj with rfl | hj
      · exact .inl rfl
      · exact .inr ((List.pairwise_cons.mp (List.pairwise_append.mp horder).2.1).1 j hj)

/-- In every run `eb32_lookup_ge` finds the first entry whose key is not below a value, the oldest one of those with
this key. -/
theorem lookup_finds (n : Nat) (key : Nat → BitVec 32) (ops : List Op)
    (h : AllEvents (step n) (Unlinked n) (Mem.init key) ops) :
    ∃ m, exec (step n) (Mem.init key) ops = some m ∧
      ∀ x, ∃ r, eb32LookupGe m n x = some r ∧ Found (ops.foldl Entries.apply ⟨[], key⟩) x r := by
  obtain ⟨m, l, hrun, href⟩ := exec_refines_entries h
  refine ⟨m, hrun, fun x => ⟨_, eb32LookupGe_spec href.holds.lists x href.length_le, ?_⟩⟩
  rw [href.key]
  exact href.listing.found x

theorem lookup_finds_three : ∃ m, exec (step 3) (Mem.init fun _ => 0)
    [.insert 0 9, .insert 1 4, .insert 2 9, .delete 0] = some m ∧
    ∀ x, ∃ r, eb32LookupGe m 3 x = some r ∧
      Found ([.insert 0 9, .insert 1 4, .insert 2 9, .delete 0].foldl Entries.apply ⟨[], fun _ => 0⟩) x r :=
  lookup_finds 3 (fun _ => 0) [.insert 0 9, .insert 1 4, .insert 2 9, .delete 0] (by decide +kernel)

/-- After `eb_delete` the memory of the entry can be freed: whatever is written there, walks and lookups go as
before, and once `leaf_p` is NULL again the entry can be inserted again, at its place among the others. -/
theorem deleted_forgotten (n : Nat) (key : Nat → BitVec 32) (ops : List Op)
    (h : AllEvents (step n) (Unlinked n) (Mem.init key) ops) (i : Nat) :
    ∃ m m' l, exec (step n) (Mem.init key) ops = some m ∧ ebDelete m i = some m' ∧ i ∉ l ∧ ∀ m'', EqOff i m' m'' →
      entries m'' (n + 1) = some l ∧ (∀ x, eb32LookupGe m'' n x = eb32LookupGe m' n x) ∧ Holds (m''.setLeafP i null) l ∧
        (i < n → ∀ x, ∃ m₁, step n (m''.setLeafP i null) (.insert i x) = some m₁ ∧
          entries m₁ (n + 1) = some (EbTree.insert (Function.update m''.key i x) i l)) := by
  obtain ⟨m, l, hrun, href⟩ := exec_refines_entries h
  obtain ⟨m', hdel, hholds, -⟩ := ebDelete_spec href.holds i
  have hlen : (l.erase i).length ≤ n := (List.length_erase_le ..).trans href.length_le
  have hout : i ∉ l.erase i := href.holds.lists.nodup.not_mem_erase
  refine ⟨m, m', l.erase i, hrun, hdel, hout, fun m'' hoff => ?_⟩
  have hlists := hholds.lists.eqOff hout hoff
  have hagain : Holds (m''.setLeafP i null) (l.erase i) := by
    refine hholds.eqOff hout ⟨hoff.top, hoff.b, hoff.nodeP, fun j hj => ?_, hoff.bit, hoff.key⟩ (by simp)
    simpa [hj] using hoff.leafP j hj
  refine ⟨entries_spec hlists (Nat.lt_succ_of_le hlen), fun x => ?_, hagain, fun hi x => ?_⟩
  · have hkey : ∀ j ∈ l.erase i, m''.key j = m'.key j := fun j hj => hoff.key j (ne_of_mem_of_not_mem hj hout)
    rw [eb32LookupGe_spec hlists x hlen, eb32LookupGe_spec hholds.lists x hlen, EbTree.lookupGe_congr hkey]
  · obtain ⟨m₁, hins, hholds₁, -⟩ := eb32Insert_spec (hagain.setKey hout x) hout hlen
    refine ⟨m₁, by rw [step, hins]; rfl, entries_spec hholds₁.lists (Nat.lt_succ_of_le ?_)⟩
    rw [(EbTree.insert_perm _ i _).length_eq]
    exact EbTree.length_le_of_lt (List.nodup_cons.mpr ⟨hout, href.holds.lists.nodup.erase i⟩)
      (List.forall_mem_cons.mpr ⟨hi, fun j hj => href.bounded j (List.mem_of_mem_erase hj)⟩)

theorem deleted_forgotten_two : ∃ m m' l, exec (step 2) (Mem.init fun _ => 0) [.insert 0 7, .insert 1 7] = some m ∧
    ebDelete m 1 = some m' ∧
    1 ∉ l ∧ ∀ m'', EqOff 1 m' m'' →
      entries m'' 3 = some l ∧ (∀ x, eb32LookupGe m'' 2 x = eb32LookupGe m' 2 x) ∧ Holds (m''.setLeafP 1 null) l ∧
        (1 < 2 → ∀ x, ∃ m₁, step 2 (m''.setLeafP 1 null) (.insert 1 x) = some m₁ ∧
          entries m₁ 3 = some (EbTree.insert (Function.update m''.key 1 x) 1 l)) :=
  deleted_forgotten 2 (fun _ => 0) [.insert 0 7, .insert 1 7] (by decide +kernel) 1

end ZeroServ.Ebtree
