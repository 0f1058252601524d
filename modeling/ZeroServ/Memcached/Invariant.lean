import Mathlib.Algebra.BigOperators.Group.List.Basic
import ZeroServ.Memcached.Assoc

/-!
# The invariant of the item store

`Inv s l refs` says of a store that the items `l` are the linked ones: the list and the hash table hold them, the
counters count them, and every item has as many references as `refs` says, at least one where it is not linked. Each
function of `items.c` keeps it, for the items and the references that the function leaves, and fails at most for an
item that is too large.
-/

namespace ZeroServ.Mc

/-- An item without its pointers and its time. -/
def Item.core (x : Item) : Item := { x with next := none, prev := none, hNext := none, time := 0 }

/-- The key, the suffix and the data of an item. -/
def Item.content (x : Item) : List UInt8 × List UInt8 × List UInt8 := (x.key, x.suffix, x.data)

/-- `ITEM_ntotal` of the item at an address. -/
def Store.ntotalAt (s : Store) (p : Ptr) : Nat := ((s.heap.get p).map Item.ntotal).getD 0

/-- An item is marked as linked if it is, and has its number of references and room for the end of its data; none is
deleted, and none expires. -/
structure Item.Ok (x : Item) (linked : Prop) (refs : Nat) : Prop where
  linked_iff : x.linked = true ↔ linked
  deleted : x.deleted = false
  exptime : x.exptime = 0
  refcount : x.refcount = refs
  sized : 2 ≤ x.nbytes

/-- The items' flags and reference counts; what is not allocated has no references. -/
structure Marked (s : Store) (l : List Ptr) (refs : Ptr → Nat) : Prop where
  items : ∀ {p x}, s.heap.get p = some x → x.Ok (p ∈ l) (refs p)
  dead : ∀ {p}, s.heap.get p = none → refs p = 0

/-- What `struct stats` counts. -/
structure Counted (s : Store) (l : List Ptr) : Prop where
  currItems : s.stats.currItems = UInt32.ofNat l.length
  currBytes : s.stats.currBytes = UInt64.ofNat (l.map s.ntotalAt).sum

/-- The invariant, but that an item may have to be freed. -/
structure Base (hash : List UInt8 → UInt32) (s : Store) (l : List Ptr) (refs : Ptr → Nat) : Prop where
  listed : Listed s l
  hashed : Hashed hash s l
  marked : Marked s l refs
  counted : Counted s l
  oldestLive : s.oldestLive = 0

/-- What is not linked has a reference. -/
structure Inv (hash : List UInt8 → UInt32) (s : Store) (l : List Ptr) (refs : Ptr → Nat) :
    Prop extends Base hash s l refs where
  held : ∀ {p x}, s.heap.get p = some x → p ∉ l → 0 < refs p

variable {hash : List UInt8 → UInt32} {s s' : Store} {l l' a b : List Ptr} {refs : Ptr → Nat} {p q : Ptr} {x : Item}

/-! ## What the parts of the invariant depend on -/

theorem SameButList.core (h : SameButList s s') : Same Item.core s s' := h.items.mono Item.core fun _ => rfl

theorem SameButChain.core (h : SameButChain s s') : Same Item.core s s' := h.items.mono Item.core fun _ => rfl

theorem Same.content (h : Same Item.core s s') : Same Item.content s s' := h.mono Item.content fun _ => rfl

/-- What has the content of an item has its key, its suffix and its data. -/
theorem item_of_content {o : Option Item} (h : o.map Item.content = some x.content) :
    ∃ y, o = some y ∧ y.key = x.key ∧ y.suffix = x.suffix ∧ y.data = x.data := by
  obtain ⟨y, hy, hyx⟩ := Option.map_eq_some_iff.mp h
  refine ⟨y, hy, ?_⟩
  simpa only [Item.content, Prod.mk.injEq] using hyx

theorem Same.item (h : Same Item.content s s') (hx : s.heap.get p = some x) :
    ∃ y, s'.heap.get p = some y ∧ y.key = x.key ∧ y.suffix = x.suffix ∧ y.data = x.data :=
  item_of_content ((h p).trans (congrArg _ hx))

theorem Item.Ok.congr {y : Item} {P : Prop} {n : Nat} (h : x.Ok P n) (hxy : y.core = x.core) : y.Ok P n := by
  have hl : y.linked = x.linked := (congrArg Item.linked hxy :)
  have hd : y.deleted = x.deleted := (congrArg Item.deleted hxy :)
  have he : y.exptime = x.exptime := (congrArg Item.exptime hxy :)
  have hr : y.refcount = x.refcount := (congrArg Item.refcount hxy :)
  have hs : y.nbytes = x.nbytes := (congrArg Item.nbytes hxy :)
  exact ⟨hl ▸ h.linked_iff, hd.trans h.deleted, he.trans h.exptime, hr.trans h.refcount, hs ▸ h.sized⟩

theorem Marked.congr (h : Marked s l refs) (hs : Same Item.core s s') : Marked s' l refs where
  items hx := by
    obtain ⟨y, hy, hyx⟩ := hs.symm.get_some hx
    exact (h.items hy).congr hyx.symm
  dead hno := h.dead (hs.get_none.mp hno)

theorem ntotalAt_congr (hs : Same Item.ntotal s s') (p : Ptr) : s'.ntotalAt p = s.ntotalAt p := by
  rw [Store.ntotalAt, Store.ntotalAt, hs p]

theorem Counted.congr (h : Counted s l) (hs : Same Item.ntotal s s') (hst : s'.stats = s.stats) : Counted s' l := by
  have hsum : l.map s'.ntotalAt = l.map s.ntotalAt := List.map_congr_left fun p _ => ntotalAt_congr hs p
  exact ⟨by rw [hst, h.currItems], by rw [hst, h.currBytes, hsum]⟩

theorem Same.ntotal (h : Same Item.core s s') : Same Item.ntotal s s' := h.mono Item.ntotal fun _ => rfl

/-- The list depends on its own items. -/
theorem Listed.congr_on (h : Listed s l) (hlru : s'.lru = s.lru) (hs : ∀ q ∈ l, s'.heap.get q = s.heap.get q) :
    Listed s' l := by
  refine ⟨?_, fun q hq => by rw [hs q hq]; exact h.live q hq, by rw [hlru, h.sizes]⟩
  rw [hlru]
  exact h.dlist.congr (fun q hq => by rw [Store.nx, Store.nx, hs q hq]) fun q hq => by rw [Store.pv, Store.pv, hs q hq]

/-- The table depends on its own items. -/
theorem Hashed.congr_on (h : Hashed hash s l) (ha : s'.assoc = s.assoc) (hs : ∀ q ∈ l, s'.heap.get q = s.heap.get q) :
    Hashed hash s' l := by
  have hkey : ∀ q ∈ l, s'.keyAt q = s.keyAt q := fun q hq => by rw [Store.keyAt, Store.keyAt, hs q hq]
  refine ⟨h.nodup, fun q hq => by rw [hs q hq]; exact h.live q hq, fun b hb => ?_, fun p hp q hq he => ?_, ?_, ?_⟩
  · rw [ha] at hb ⊢
    obtain ⟨c, hc, hmem⟩ := h.chains b hb
    refine ⟨c, hc.congr fun q hq => ?_, fun q => ?_⟩
    · rw [Store.hn, Store.hn, hs q ((hmem q).mp hq).1]
    · rw [hmem]
      refine and_congr_right fun hq => ?_
      rw [Store.slotAt, Store.slotAt, hkey q hq, ha]
  · rw [hkey p hp, hkey q hq] at he
    exact h.keys p hp q hq he
  · rw [ha, h.hashItems]
  · rw [ha]
    exact h.power

theorem Counted.congr_on (h : Counted s l) (hst : s'.stats = s.stats) (hs : ∀ q ∈ l, s'.heap.get q = s.heap.get q) :
    Counted s' l := by
  have hsum : l.map s'.ntotalAt = l.map s.ntotalAt := List.map_congr_left fun p hp => by
    rw [Store.ntotalAt, Store.ntotalAt, hs p hp]
  exact ⟨by rw [hst, h.currItems], by rw [hst, h.currBytes, hsum]⟩

theorem Marked.perm (h : Marked s l refs) (hl : l'.Perm l) : Marked s l' refs where
  items hx :=
    have hok := h.items hx
    ⟨hok.linked_iff.trans hl.mem_iff.symm, hok.deleted, hok.exptime, hok.refcount, hok.sized⟩
  dead := h.dead

theorem Counted.perm (h : Counted s l) (hl : l'.Perm l) : Counted s l' where
  currItems := by rw [h.currItems, hl.length_eq]
  currBytes := by rw [h.currBytes, (hl.map _).sum_eq]

theorem Base.live (h : Base hash s l refs) (hp : 0 < refs p) : ∃ x, s.heap.get p = some x := by
  refine Option.ne_none_iff_exists'.mp fun hno => ?_
  have h0 := h.marked.dead hno
  omega

/-- Writing the reference count, the flags and the data of an item leaves its pointers. -/
theorem same_modify {α : Type} {f : Item → Item} (g : Item → α) (hg : ∀ x, g (f x) = g x) :
    Same g s (s.modify p f) := by
  intro q
  rw [Store.get_modify, Option.map_map]
  refine Option.map_congr fun x _ => ?_
  simp only [Function.comp_apply]
  split
  · exact hg x
  · rfl

/-- A write that leaves the pointers of the list leaves the list. -/
theorem Listed.modify (h : Listed s l) (p : Ptr) {f : Item → Item}
    (hf : ∀ x, ((f x).next, (f x).prev) = (x.next, x.prev)) :
    Listed (s.modify p f) l :=
  h.congr rfl (same_modify (fun y => (y.next, y.prev)) hf) id fun _ => rfl

/-- A write that leaves the keys and the chains leaves the table. -/
theorem Hashed.modify (h : Hashed hash s l) (p : Ptr) {f : Item → Item}
    (hf : ∀ x, ((f x).hNext, (f x).key) = (x.hNext, x.key)) :
    Hashed hash (s.modify p f) l :=
  h.congr rfl (same_modify (fun y => (y.hNext, y.key)) hf) id fun _ => rfl

theorem Store.keyAt_modify (p : Ptr) {f : Item → Item} (hf : ∀ x, (f x).key = x.key) (q : Ptr) :
    (s.modify p f).keyAt q = s.keyAt q :=
  same_keyAt (same_modify Item.key hf) id (fun _ => rfl) q

theorem Listed.withStats (h : Listed s l) (stats : Stats) : Listed { s with stats } l := ⟨h.dlist, h.live, h.sizes⟩

theorem Hashed.withStats (h : Hashed hash s l) (stats : Stats) : Hashed hash { s with stats } l :=
  ⟨h.nodup, h.live, h.chains, h.keys, h.hashItems, h.power⟩

/-- Every linked item is allocated. -/
theorem Base.get_linked (h : Base hash s l refs) (hp : p ∈ l) : ∃ x, s.heap.get p = some x :=
  Option.ne_none_iff_exists'.mp (h.hashed.live p hp)

/-! ## References -/

/-- Another reference count for an item. -/
theorem Base.setRefcount (h : Base hash s l refs) (hx : s.heap.get p = some x) {f : Item → Nat} {n : Nat}
    (hf : f x = n) :
    Base hash (s.modify p fun y => { y with refcount := f y }) l (Function.update refs p n) := by
  refine ⟨?_, ?_, ⟨fun {q y} hy => ?_, fun {q} hq => ?_⟩, ?_, h.oldestLive⟩
  · exact h.listed.modify p fun _ => rfl
  · exact h.hashed.modify p fun _ => rfl
  · rw [Store.get_modify] at hy
    obtain ⟨z, hz, rfl⟩ := Option.map_eq_some_iff.mp hy
    have hok := h.marked.items hz
    by_cases hqp : q = p
    · subst hqp
      obtain rfl : x = z := by rwa [hx, Option.some.injEq] at hz
      rw [if_pos rfl, Function.update_self]
      exact ⟨hok.linked_iff, hok.deleted, hok.exptime, hf, hok.sized⟩
    · rw [if_neg hqp, Function.update_of_ne hqp]
      exact hok
  · rw [Store.get_modify, Option.map_eq_none_iff] at hq
    have hqp : q ≠ p := fun he => by rw [he, hx] at hq; nomatch hq
    rw [Function.update_of_ne hqp]
    exact h.marked.dead hq
  · exact h.counted.congr (same_modify Item.ntotal fun _ => rfl) rfl

theorem same_setRefcount (f : Item → Nat) : Same Item.content s (s.modify p fun y => { y with refcount := f y }) :=
  same_modify Item.content fun _ => rfl

/-- One reference more. -/
theorem refer_spec (h : Inv hash s l refs) (hx : s.heap.get p = some x) (hn : refs p + 1 < 65536) :
    ∃ s', s.refer p = .ok s' ∧ Inv hash s' l (Function.update refs p (refs p + 1)) ∧ Same Item.content s s' := by
  have hf : (x.refcount + 1) % 65536 = refs p + 1 := by
    rw [(h.marked.items hx).refcount, Nat.mod_eq_of_lt hn]
  refine ⟨_, Store.write_ok (by simp [hx]) _, ⟨h.toBase.setRefcount hx hf, fun {q y} hy hq => ?_⟩, same_setRefcount _⟩
  by_cases hqp : q = p
  · rw [hqp, Function.update_self]
    exact Nat.succ_pos _
  · rw [Store.get_modify] at hy
    obtain ⟨z, hz, -⟩ := Option.map_eq_some_iff.mp hy
    rw [Function.update_of_ne hqp]
    exact h.held hz hq

/-- An item that is not linked and has no reference is freed. -/
theorem itemFree_spec (h : Base hash s l refs) (hp : p ∉ l) (hx : s.heap.get p = some x) (hr : refs p = 0) :
    itemFree s p = .ok { s with heap := s.heap.free p } ∧ Base hash { s with heap := s.heap.free p } l refs := by
  have hok := h.marked.items hx
  have hother : ∀ q ∈ l, (s.heap.free p).get q = s.heap.get q := fun q hq => Heap.get_free_of_ne fun he => hp (he ▸ hq)
  have hlinked : x.linked = false := Bool.eq_false_iff.mpr fun hl => hp (hok.linked_iff.mp hl)
  refine ⟨?_, ?_, ?_, ⟨fun {q z} hz => ?_, fun {q} hq => ?_⟩, ?_, h.oldestLive⟩
  · rw [itemFree, Store.deref_ok hx, ok_bind, check_ok (by simp [hlinked]), ok_bind,
      check_ok (by simp [hok.refcount, hr]), ok_bind]
    rfl
  · exact h.listed.congr_on rfl hother
  · exact h.hashed.congr_on rfl hother
  · have hqp : q ≠ p := by
      rintro rfl
      rw [Heap.get_free_self] at hz
      nomatch hz
    rw [Heap.get_free_of_ne hqp] at hz
    exact h.marked.items hz
  · by_cases hqp : q = p
    · rw [hqp, hr]
    · rw [Heap.get_free_of_ne hqp] at hq
      exact h.marked.dead hq
  · exact h.counted.congr_on rfl hother

/-- What is left of the contents when an item is freed in some case. -/
def FreedIf (c : Prop) [Decidable c] (p : Ptr) (s s' : Store) : Prop :=
  ∀ q, (s'.heap.get q).map Item.content = if q = p ∧ c then none else (s.heap.get q).map Item.content

/-- `do_item_remove`: one reference less; without any, an item that is not linked is freed. -/
theorem doItemRemove_spec (h : Inv hash s l refs) (hr : 0 < refs p) :
    ∃ s', doItemRemove s p = .ok s' ∧ Inv hash s' l (Function.update refs p (refs p - 1)) ∧
      FreedIf (refs p = 1 ∧ p ∉ l) p s s' := by
  obtain ⟨x, hx⟩ := h.live hr
  have hok := h.marked.items hx
  have hc := hok.refcount
  have hbase := h.toBase.setRefcount (f := fun _ => x.refcount - 1) hx (congrArg (· - 1) hc)
  have hcont : Same Item.content s (s.modify p fun y => { y with refcount := x.refcount - 1 }) :=
    same_setRefcount fun _ => x.refcount - 1
  rw [doItemRemove, Store.deref_ok hx, ok_bind]
  dsimp only
  rw [Store.write_ok (by simp [hx]), ok_bind, check_ok (by simp [hok.deleted]), ok_bind]
  by_cases hfree : refs p = 1 ∧ p ∉ l
  · have hlinked : x.linked = false := Bool.eq_false_iff.mpr fun hl => hfree.2 (hok.linked_iff.mp hl)
    have hzero : x.refcount - 1 = 0 := by omega
    rw [if_pos (by simp [hlinked, hzero])]
    obtain ⟨y, hy, -⟩ := hcont.get_some hx
    obtain ⟨hfr, hbase⟩ := itemFree_spec hbase hfree.2 hy (by rw [Function.update_self, hfree.1])
    refine ⟨_, hfr, ⟨hbase, fun {q z} hz hq => ?_⟩, fun q => ?_⟩
    · have hqp : q ≠ p := by
        rintro rfl
        rw [Heap.get_free_self] at hz
        nomatch hz
      rw [Heap.get_free_of_ne hqp] at hz
      obtain ⟨w, hw, -⟩ := hcont.symm.get_some hz
      rw [Function.update_of_ne hqp]
      exact h.held hw hq
    · by_cases hqp : q = p
      · rw [if_pos ⟨hqp, hfree⟩, hqp, Heap.get_free_self, Option.map_none]
      · rw [if_neg fun hq => hqp hq.1, Heap.get_free_of_ne hqp]
        exact hcont q
  · have hkeep : ¬(x.refcount - 1 = 0 ∧ x.linked = false) := by
      rintro ⟨hz, hl⟩
      refine hfree ⟨by omega, fun hp => ?_⟩
      rw [hok.linked_iff.mpr hp] at hl
      nomatch hl
    rw [if_neg (by simpa using hkeep)]
    refine ⟨_, rfl, ⟨hbase, fun {q z} hz hq => ?_⟩, fun q => ?_⟩
    · by_cases hqp : q = p
      · subst hqp
        rw [Function.update_self]
        have hne : refs q ≠ 1 := fun hone => hfree ⟨hone, hq⟩
        omega
      · obtain ⟨w, hw, -⟩ := hcont.symm.get_some hz
        rw [Function.update_of_ne hqp]
        exact h.held hw hq
    · rw [if_neg fun hq => hfree hq.2]
      exact hcont q

/-! ## Linking -/

/-- The flags after an item was marked as linked or not, and whatever was done to its time. -/
theorem Marked.setLinked {l' : List Ptr} (h : Marked s l refs) (linked : Bool) (time : Item → UInt32)
    (hp : linked = true ↔ p ∈ l')
    (hothers : ∀ q, q ≠ p → (q ∈ l ↔ q ∈ l'))
    (hs : Same Item.core (s.modify p fun y => { y with linked, time := time y }) s') :
    Marked s' l' refs where
  items := by
    intro q y hy
    obtain ⟨z, hz, hzy⟩ := hs.symm.get_some hy
    rw [Store.get_modify] at hz
    obtain ⟨w, hw, rfl⟩ := Option.map_eq_some_iff.mp hz
    have hok := h.items hw
    by_cases hqp : q = p
    · subst hqp
      rw [if_pos rfl] at hzy
      have hz' : Item.Ok { w with linked, time := time w } (q ∈ l') (refs q) :=
        ⟨hp, hok.deleted, hok.exptime, hok.refcount, hok.sized⟩
      exact hz'.congr hzy.symm
    · rw [if_neg hqp] at hzy
      have hz' : w.Ok (q ∈ l') (refs q) :=
        ⟨hok.linked_iff.trans (hothers q hqp), hok.deleted, hok.exptime, hok.refcount, hok.sized⟩
      exact hz'.congr hzy.symm
  dead := by
    intro q hq
    rw [hs.get_none, Store.get_modify, Option.map_eq_none_iff] at hq
    exact h.dead hq

/-- The statistics with one item more. -/
def Stats.add (st : Stats) (x : Item) : Stats where
  currItems := st.currItems + 1
  totalItems := st.totalItems + 1
  currBytes := st.currBytes + UInt64.ofNat x.ntotal

/-- What `do_item_link` does to the list, the table and the counters. -/
theorem doItemLink_parts (hlist₀ : Listed s l) (hhash₀ : Hashed hash s l) (hx : s.heap.get p = some x) (hp : p ∉ l)
    (hnew : ∀ q ∈ l, s.keyAt q ≠ some x.key) (hsmall : x.nbytes < 1024 * 1024) (now : UInt32) (granted : Bool) :
    ∃ s₂ s', assocInsert hash (s.modify p fun y => { y with linked := true, time := now }) p granted = .ok s₂ ∧
      doItemLink hash s p now granted = .ok s' ∧ Listed s' (p :: l) ∧ Hashed hash s' (p :: l) ∧
      Same Item.core (s.modify p fun y => { y with linked := true, time := now }) s' ∧ s'.assoc = s₂.assoc ∧
      s'.stats = s.stats.add x ∧ s'.oldestLive = s.oldestLive := by
  have hlive : s.heap.get p ≠ none := by simp [hx]
  rw [doItemLink, Store.deref_ok hx, ok_bind, if_pos hsmall, Store.write_ok hlive, ok_bind]
  -- the flag and the time, then the table, then the list
  have hlist₁ : Listed (s.modify p fun y => { y with linked := true, time := now }) l := hlist₀.modify p fun _ => rfl
  have hhash₁ : Hashed hash (s.modify p fun y => { y with linked := true, time := now }) l :=
    hhash₀.modify p fun _ => rfl
  have hcont₁ : Same Item.content s (s.modify p fun y => { y with linked := true, time := now }) :=
    same_modify Item.content fun _ => rfl
  have hkeys₁ : ∀ q, (s.modify p fun y => { y with linked := true, time := now }).keyAt q = s.keyAt q :=
    Store.keyAt_modify p fun _ => rfl
  obtain ⟨s₂, hs₂, hhash₂, hchain⟩ := assocInsert_spec hhash₁ hp (by rw [hkeys₁, Store.keyAt, hx]; rfl)
    (fun q hq => by rw [hkeys₁]; exact hnew q hq) granted
  rw [hs₂, ok_bind]
  dsimp only
  have hlist₂ : Listed s₂ l := hlist₁.congr hchain.lru hchain.items (fun y => (y.next, y.prev)) fun _ => rfl
  have hlive₂ : s₂.heap.get p ≠ none := hchain.items.get_none.ne.mpr (hcont₁.get_none.ne.mpr hlive)
  obtain ⟨hlink, hlist⟩ := itemLinkQ_spec (hlist₂.withStats (s₂.stats.add x)) hlive₂ hp
  have hq := linkQ_sameButList { s₂ with stats := s₂.stats.add x } p
  generalize Store.linkQ { s₂ with stats := s₂.stats.add x } p = s' at hlink hlist hq
  have hhash : Hashed hash s' (p :: l) :=
    (hhash₂.withStats (s₂.stats.add x)).congr hq.assoc hq.items (fun y => (y.hNext, y.key)) fun _ => rfl
  refine ⟨s₂, s', rfl, hlink, hlist, hhash, hchain.core.trans hq.core, hq.assoc, ?_,
    hq.oldestLive.trans hchain.oldestLive⟩
  exact hq.stats.trans (congrArg (Stats.add · x) hchain.stats)

/-- `do_item_link`: an item that is not linked and whose key no linked item has becomes the first. -/
theorem doItemLink_spec (h : Inv hash s l refs) (hx : s.heap.get p = some x) (hp : p ∉ l)
    (hnew : ∀ q ∈ l, s.keyAt q ≠ some x.key) (hsmall : x.nbytes < 1024 * 1024) (now : UInt32) (granted : Bool) :
    ∃ s', doItemLink hash s p now granted = .ok s' ∧ Inv hash s' (p :: l) refs ∧ Same Item.content s s' := by
  obtain ⟨s₂, s', -, hlink, hlist, hhash, hcore, -, hstats, hlive⟩ :=
    doItemLink_parts h.listed h.hashed hx hp hnew hsmall now granted
  have hcont₁ : Same Item.content s (s.modify p fun y => { y with linked := true, time := now }) :=
    same_modify Item.content fun _ => rfl
  have hcont : Same Item.content s s' := hcont₁.trans hcore.content
  have hnt : Same Item.ntotal s s' :=
    hcont.mono (fun c => 56 + c.1.length + 1 + c.2.1.length + c.2.2.length) fun _ => rfl
  have hcurr : Counted s' (p :: l) := by
    refine ⟨?_, ?_⟩
    · rw [hstats, List.length_cons, UInt32.ofNat_add, ← h.counted.currItems]
      rfl
    · have hsum : (p :: l).map s'.ntotalAt = (p :: l).map s.ntotalAt :=
        List.map_congr_left fun q _ => ntotalAt_congr hnt q
      have hnp : s.ntotalAt p = x.ntotal := by simp [Store.ntotalAt, hx]
      rw [hstats, hsum, List.map_cons, List.sum_cons, hnp, Nat.add_comm, UInt64.ofNat_add, ← h.counted.currBytes]
      rfl
  refine ⟨s', hlink, ⟨⟨hlist, hhash, h.marked.setLinked true (fun _ => now) (by simp) (fun q hq => by simp [hq]) hcore,
    hcurr, hlive.trans h.oldestLive⟩, fun {q z} hz hql => ?_⟩, hcont⟩
  obtain ⟨w, hw, -⟩ := hcont.symm.get_some hz
  exact h.held hw fun hl => hql (List.mem_cons_of_mem _ hl)

/-! ## Unlinking -/

/-- The statistics with one item less. -/
def Stats.remove (st : Stats) (x : Item) : Stats :=
  { st with currBytes := st.currBytes - UInt64.ofNat x.ntotal, currItems := st.currItems - 1 }

theorem Counted.unlink (h : Counted s (a ++ p :: b)) (hx : s.heap.get p = some x) (hst : s'.stats = s.stats.remove x)
    (hs : Same Item.ntotal s s') : Counted s' (a ++ b) where
  currItems := by
    have hc := h.currItems
    rw [List.length_append, List.length_cons, ← Nat.add_assoc, ← List.length_append, UInt32.ofNat_add] at hc
    rw [hst, Stats.remove, hc]
    exact UInt32.add_sub_cancel _ _
  currBytes := by
    have hsum : (a ++ b).map s'.ntotalAt = (a ++ b).map s.ntotalAt := List.map_congr_left fun q _ => ntotalAt_congr hs q
    have hnp : s.ntotalAt p = x.ntotal := by simp [Store.ntotalAt, hx]
    have hperm : ((a ++ p :: b).map s.ntotalAt).sum = ((a ++ b).map s.ntotalAt).sum + x.ntotal := by
      rw [(List.perm_middle.map _).sum_eq, List.map_cons, List.sum_cons, hnp, Nat.add_comm]
    have hc := h.currBytes
    rw [hperm, UInt64.ofNat_add] at hc
    rw [hst, Stats.remove, hc, hsum]
    exact UInt64.add_sub_cancel _ _

/-- What a linked item's removal does to the list, the table and the counters, before the item is freed. -/
theorem unlink_parts (hlist₀ : Listed s (a ++ p :: b)) (hhash₀ : Hashed hash s (a ++ p :: b))
    (hx : s.heap.get p = some x) :
    ∃ s₁ s₂, assocDelete hash { (s.modify p fun y => { y with linked := false }) with stats := s.stats.remove x }
      x.key = .ok s₁ ∧
      itemUnlinkQ s₁ p = .ok s₂ ∧ Listed s₂ (a ++ b) ∧ Hashed hash s₂ (a ++ b) ∧
      Same Item.core (s.modify p fun y => { y with linked := false }) s₂ ∧ s₂.assoc = s₁.assoc ∧
      s₂.stats = s.stats.remove x ∧
      s₂.oldestLive = s.oldestLive := by
  have hlist₁ : Listed (s.modify p fun y => { y with linked := false }) (a ++ p :: b) := hlist₀.modify p fun _ => rfl
  have hhash₁ : Hashed hash (s.modify p fun y => { y with linked := false }) (a ++ p :: b) :=
    hhash₀.modify p fun _ => rfl
  have hkeys : ∀ q, (s.modify p fun y => { y with linked := false }).keyAt q = s.keyAt q :=
    Store.keyAt_modify p fun _ => rfl
  have hkey₁ : (s.modify p fun y => { y with linked := false }).keyAt p = some x.key := by
    rw [hkeys, Store.keyAt, hx]
    rfl
  obtain ⟨s₁, hs₁, hhash, hchain⟩ := assocDelete_spec (hhash₁.withStats (s.stats.remove x)) hkey₁
  have hlist₂ : Listed s₁ (a ++ p :: b) :=
    (hlist₁.withStats (s.stats.remove x)).congr hchain.lru hchain.items (fun y => (y.next, y.prev)) fun _ => rfl
  obtain ⟨y, hy⟩ := Option.ne_none_iff_exists'.mp (hlist₂.live p (by simp))
  obtain ⟨hunlink, hlist⟩ := itemUnlinkQ_spec hlist₂ hy
  have hq := unlinkQ_sameButList s₁ p y
  refine ⟨s₁, _, hs₁, hunlink, hlist, ?_, hchain.core.trans hq.core, hq.assoc, hq.stats.trans hchain.stats,
    hq.oldestLive.trans hchain.oldestLive⟩
  exact hhash.congr hq.assoc hq.items (fun y => (y.hNext, y.key)) fun _ => rfl

/-- What a linked item's removal from the table and the list makes of it, before it is freed. -/
theorem unlink_base (h : Base hash s (a ++ p :: b) refs) (hx : s.heap.get p = some x) :
    ∃ s₁ s₂, assocDelete hash { (s.modify p fun y => { y with linked := false }) with stats := s.stats.remove x }
      x.key = .ok s₁ ∧
      itemUnlinkQ s₁ p = .ok s₂ ∧ Base hash s₂ (a ++ b) refs ∧ Same Item.content s s₂ := by
  obtain ⟨s₁, s₂, hs₁, hunlink, hlist, hhash, hcore, -, hstats, hlive⟩ := unlink_parts h.listed h.hashed hx
  have hcont₁ : Same Item.content s (s.modify p fun y => { y with linked := false }) :=
    same_modify Item.content fun _ => rfl
  have hcont : Same Item.content s s₂ := hcont₁.trans hcore.content
  have hnt : Same Item.ntotal s s₂ :=
    hcont.mono (fun c => 56 + c.1.length + 1 + c.2.1.length + c.2.2.length) fun _ => rfl
  have hp := h.listed.not_mem
  exact ⟨s₁, s₂, hs₁, hunlink,
    ⟨hlist, hhash, h.marked.setLinked false Item.time (by simpa using hp) (fun q hq => by simp [hq]) hcore,
    h.counted.unlink hx hstats hnt, hlive.trans h.oldestLive⟩, hcont⟩

/-- `do_item_unlink`: the item is no more linked, and freed if it has no reference. -/
theorem doItemUnlink_spec (h : Inv hash s (a ++ p :: b) refs) :
    ∃ s', doItemUnlink hash s p = .ok s' ∧ Inv hash s' (a ++ b) refs ∧ FreedIf (refs p = 0) p s s' := by
  obtain ⟨x, hx⟩ := h.get_linked (by simp : p ∈ a ++ p :: b)
  have hok := h.marked.items hx
  have hp := h.listed.not_mem
  obtain ⟨s₁, s₂, hs₁, hs₂, hbase, hcont⟩ := unlink_base h.toBase hx
  rw [doItemUnlink, Store.deref_ok hx, ok_bind, if_pos (hok.linked_iff.mpr (by simp)),
    Store.write_ok (by simp [hx]), ok_bind]
  have hheld : ∀ {q z}, s₂.heap.get q = some z → q ≠ p → q ∉ a ++ b → 0 < refs q := by
    intro q z hz hqp hq
    obtain ⟨w, hw, -⟩ := hcont.symm.get_some hz
    refine h.held hw fun hl => hq ?_
    rw [List.mem_append, List.mem_cons] at hl
    rw [List.mem_append]
    exact hl.imp_right fun hr => hr.resolve_left hqp
  have hrest : ∀ s', (if x.refcount = 0 then itemFree s₂ p else pure s₂) = .ok s' →
      (do let s ← assocDelete hash
            { (s.modify p fun y => { y with linked := false }) with stats := s.stats.remove x } x.key
          let s ← itemUnlinkQ s p
          if x.refcount = 0 then itemFree s p else pure s) = .ok s' := by
    intro s' h'
    rw [hs₁, ok_bind, hs₂, ok_bind, h']
  by_cases hr : refs p = 0
  · obtain ⟨y, hy, -⟩ := hcont.get_some hx
    obtain ⟨hfree, hbase⟩ := itemFree_spec hbase hp hy hr
    refine ⟨_, hrest _ (by rw [if_pos (by rw [hok.refcount, hr]), hfree]), ⟨hbase, fun {q z} hz hq => ?_⟩, fun q => ?_⟩
    · have hqp : q ≠ p := by
        rintro rfl
        rw [Heap.get_free_self] at hz
        nomatch hz
      rw [Heap.get_free_of_ne hqp] at hz
      exact hheld hz hqp hq
    · by_cases hqp : q = p
      · rw [if_pos ⟨hqp, hr⟩, hqp, Heap.get_free_self, Option.map_none]
      · rw [if_neg fun hc => hqp hc.1, Heap.get_free_of_ne hqp]
        exact hcont q
  · refine ⟨_, hrest _ (by rw [if_neg (by rwa [hok.refcount])]; rfl), ⟨hbase, fun {q z} hz hq => ?_⟩, fun q => ?_⟩
    · by_cases hqp : q = p
      · rw [hqp]
        exact Nat.pos_of_ne_zero hr
      · exact hheld hz hqp hq
    · rw [if_neg fun hc => hr hc.2]
      exact hcont q

/-- `do_item_update`: the linked item may become the first. -/
theorem doItemUpdate_spec (h : Inv hash s (a ++ p :: b) refs) (now : UInt32) :
    ∃ s' l', doItemUpdate s p now = .ok s' ∧ l'.Perm (a ++ p :: b) ∧ Inv hash s' l' refs ∧ Same Item.content s s' := by
  obtain ⟨x, hx⟩ := h.get_linked (by simp : p ∈ a ++ p :: b)
  rw [doItemUpdate, Store.deref_ok hx, ok_bind]
  split
  · have hp := h.listed.not_mem
    obtain ⟨hunlink, hlist₁⟩ := itemUnlinkQ_spec h.listed hx
    have hq₁ := unlinkQ_sameButList s p x
    generalize s.unlinkQ p x = s₁ at hunlink hlist₁ hq₁
    have hlive₁ : s₁.heap.get p ≠ none := hq₁.items.get_none.ne.mpr (by simp [hx])
    have htime : Same Item.core s₁ (s₁.modify p fun y => { y with time := now }) := same_modify Item.core fun _ => rfl
    have hlist₂ : Listed (s₁.modify p fun y => { y with time := now }) (a ++ b) := hlist₁.modify p fun _ => rfl
    obtain ⟨hlink, hlist⟩ := itemLinkQ_spec hlist₂ (htime.get_none.ne.mpr hlive₁) hp
    have hq₂ := linkQ_sameButList (s₁.modify p fun y => { y with time := now }) p
    have hhash : Hashed hash ((s₁.modify p fun y => { y with time := now }).linkQ p) (p :: (a ++ b)) := by
      have hh₁ : Hashed hash s₁ (a ++ p :: b) :=
        h.hashed.congr hq₁.assoc hq₁.items (fun y => (y.hNext, y.key)) fun _ => rfl
      have hh₂ : Hashed hash (s₁.modify p fun y => { y with time := now }) (a ++ p :: b) := hh₁.modify p fun _ => rfl
      exact (hh₂.congr hq₂.assoc hq₂.items (fun y => (y.hNext, y.key)) fun _ => rfl).perm List.perm_middle.symm
    have hcore : Same Item.core s ((s₁.modify p fun y => { y with time := now }).linkQ p) :=
      (hq₁.core.trans htime).trans hq₂.core
    rw [hunlink, ok_bind, Store.write_ok hlive₁, ok_bind, hlink]
    have hperm : (p :: (a ++ b)).Perm (a ++ p :: b) := List.perm_middle.symm
    refine ⟨_, _, rfl, hperm, ⟨⟨hlist, hhash, (h.marked.congr hcore).perm hperm, ?_, ?_⟩, fun {q z} hz hq => ?_⟩,
      hcore.content⟩
    · exact (h.counted.congr hcore.ntotal (hq₂.stats.trans hq₁.stats)).perm hperm
    · exact hq₂.oldestLive.trans (hq₁.oldestLive.trans h.oldestLive)
    · obtain ⟨w, hw, -⟩ := hcore.symm.get_some hz
      exact h.held hw fun hl => hq (hperm.mem_iff.mpr hl)
  · exact ⟨s, _, rfl, .refl _, h, .refl _ s⟩

/-! ## Getting and allocating -/

/-- No linked item has the key: `do_item_get_notedeleted` finds none. -/
theorem doItemGetNotedeleted_absent {key : List UInt8} (h : Inv hash s l refs) (hkey : ∀ q ∈ l, s.keyAt q ≠ some key)
    (now : UInt32) :
    doItemGetNotedeleted hash s key now = .ok (s, none, false) := by
  rw [doItemGetNotedeleted, assocFind_absent h.hashed hkey]
  rfl

/-- A linked item has the key: it is found, and has one reference more. -/
theorem doItemGetNotedeleted_present {key : List UInt8} (h : Inv hash s l refs) (hp : p ∈ l)
    (hkey : s.keyAt p = some key) (hn : refs p + 1 < 65536) (now : UInt32) :
    ∃ s', doItemGetNotedeleted hash s key now = .ok (s', some p, false) ∧
      Inv hash s' l (Function.update refs p (refs p + 1)) ∧ Same Item.content s s' := by
  obtain ⟨x, hx, hxg, -⟩ := deref_keyAt hkey
  have hok := h.marked.items hxg
  obtain ⟨s', hs', hinv, hcont⟩ := refer_spec h hxg hn
  refine ⟨s', ?_, hinv, hcont⟩
  rw [doItemGetNotedeleted, assocFind_present h.hashed hp hkey, ok_bind]
  dsimp only
  rw [hx, ok_bind, if_neg (by simp [hok.deleted]), if_neg (by simp [h.oldestLive]), if_neg (by simp [hok.exptime]), hs']
  rfl

/-- A linked item has the key or none has. -/
theorem find_key (s : Store) (l : List Ptr) (key : List UInt8) :
    (∃ p ∈ l, s.keyAt p = some key) ∨ ∀ q ∈ l, s.keyAt q ≠ some key := by
  by_cases h : ∃ p ∈ l, s.keyAt p = some key
  · exact .inl h
  · push Not at h
    exact .inr h

/-- `do_item_alloc` with memory that was free: an item with one reference. -/
theorem alloc_inv (h : Inv hash s l refs) (hp : s.heap.get p = none) (hx : x.linked = false) (hd : x.deleted = false)
    (he : x.exptime = 0) (hr : x.refcount = 1) (hs : 2 ≤ x.nbytes) :
    Inv hash { s with heap := s.heap.alloc p x } l (Function.update refs p 1) := by
  have hpl : p ∉ l := fun hl => h.hashed.live p hl hp
  have hother : ∀ q ∈ l, (s.heap.alloc p x).get q = s.heap.get q := by
    intro q hq
    exact Heap.get_alloc_of_ne (by rintro rfl; exact hpl hq) x
  refine ⟨⟨h.listed.congr_on rfl hother, h.hashed.congr_on rfl hother, ⟨fun {q y} hy => ?_, fun {q} hq => ?_⟩,
    h.counted.congr_on rfl hother, h.oldestLive⟩, fun {q y} hy hq => ?_⟩
  · by_cases hqp : q = p
    · rw [hqp, Heap.get_alloc_self, Option.some.injEq] at hy
      subst hy
      rw [hqp, Function.update_self]
      exact ⟨by simp [hx, hpl], hd, he, hr, hs⟩
    · rw [Heap.get_alloc_of_ne hqp] at hy
      rw [Function.update_of_ne hqp]
      exact h.marked.items hy
  · have hqp : q ≠ p := by
      rintro rfl
      rw [Heap.get_alloc_self] at hq
      nomatch hq
    rw [Heap.get_alloc_of_ne hqp] at hq
    rw [Function.update_of_ne hqp]
    exact h.marked.dead hq
  · by_cases hqp : q = p
    · rw [hqp, Function.update_self]
      exact Nat.one_pos
    · rw [Heap.get_alloc_of_ne hqp] at hy
      rw [Function.update_of_ne hqp]
      exact h.held hy hq

/-- Writing an item that is not linked, but for its flags, its references and the room for its data. -/
theorem modify_unlinked (h : Inv hash s l refs) (hp : p ∉ l) {f : Item → Item} (hf : ∀ x, (f x).linked = x.linked ∧
    (f x).deleted = x.deleted ∧ (f x).exptime = x.exptime ∧ (f x).refcount = x.refcount)
    (hs : ∀ x, s.heap.get p = some x → 2 ≤ (f x).nbytes) : Inv hash (s.modify p f) l refs := by
  have hother : ∀ q ∈ l, (s.modify p f).heap.get q = s.heap.get q := by
    intro q hq
    exact Heap.get_modify_of_ne (by rintro rfl; exact hp hq) f
  refine ⟨⟨h.listed.congr_on rfl hother, h.hashed.congr_on rfl hother, ⟨fun {q y} hy => ?_, fun {q} hq => ?_⟩,
    h.counted.congr_on rfl hother, h.oldestLive⟩, fun {q y} hy hq => ?_⟩
  · rw [Store.get_modify] at hy
    obtain ⟨z, hz, rfl⟩ := Option.map_eq_some_iff.mp hy
    have hok := h.marked.items hz
    split
    · next hqp =>
      obtain ⟨h₁, h₂, h₃, h₄⟩ := hf z
      subst hqp
      exact ⟨h₁ ▸ hok.linked_iff, h₂ ▸ hok.deleted, h₃ ▸ hok.exptime, h₄ ▸ hok.refcount, hs z hz⟩
    · exact hok
  · rw [Store.get_modify, Option.map_eq_none_iff] at hq
    exact h.marked.dead hq
  · rw [Store.get_modify] at hy
    obtain ⟨z, hz, -⟩ := Option.map_eq_some_iff.mp hy
    exact h.held hz hq

theorem Inv.congr_refs {refs' : Ptr → Nat} (h : Inv hash s l refs) (hr : ∀ q, refs' q = refs q) : Inv hash s l refs' :=
  (funext hr : refs' = refs) ▸ h

end ZeroServ.Mc
