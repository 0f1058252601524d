import ZeroServ.Lib.DList
import ZeroServ.Memcached.Items

/-!
# The list of the linked items

What `item_link_q` and `item_unlink_q` do: on the list `heads .. tails` of some items they push one in front or take
one out, and they change nothing but the list's own pointers (`SameButList`). No assertion of theirs fails.
-/

namespace ZeroServ.Mc

/-! ## Reading and writing -/

@[simp] theorem ok_bind {ε α β : Type} (a : α) (f : α → Except ε β) : (Except.ok a >>= f) = f a := rfl

theorem check_ok {b : Bool} (h : b = true) : check b = .ok () := by
  rw [check, if_pos h]

namespace Store

variable {s : Store} {p : Ptr}

theorem deref_ok {x : Item} (h : s.heap.get p = some x) : s.deref p = .ok x := by
  rw [deref, h]

theorem write_ok (h : s.heap.get p ≠ none) (f : Item → Item) : s.write p f = .ok (s.modify p f) := by
  obtain ⟨x, hx⟩ := Option.ne_none_iff_exists'.mp h
  rw [write, deref_ok hx]
  rfl

/-- What a write through a pointer that may be NULL makes. -/
def modifyAt (s : Store) (o : Option Ptr) (f : Item → Item) : Store :=
  match o with
  | some p => s.modify p f
  | none => s

theorem writeAt_ok {o : Option Ptr} (h : ∀ p, o = some p → s.heap.get p ≠ none) (f : Item → Item) :
    s.writeAt o f = .ok (s.modifyAt o f) := by
  cases o with
  | none => rfl
  | some p => exact write_ok (h p rfl) f

@[simp] theorem modify_lru (f : Item → Item) : (s.modify p f).lru = s.lru := rfl
@[simp] theorem modify_assoc (f : Item → Item) : (s.modify p f).assoc = s.assoc := rfl
@[simp] theorem modify_stats (f : Item → Item) : (s.modify p f).stats = s.stats := rfl
@[simp] theorem modify_oldestLive (f : Item → Item) : (s.modify p f).oldestLive = s.oldestLive := rfl

@[simp] theorem modifyAt_lru (o : Option Ptr) (f : Item → Item) : (s.modifyAt o f).lru = s.lru := by
  cases o <;> rfl

@[simp] theorem modifyAt_assoc (o : Option Ptr) (f : Item → Item) : (s.modifyAt o f).assoc = s.assoc := by
  cases o <;> rfl

@[simp] theorem modifyAt_stats (o : Option Ptr) (f : Item → Item) : (s.modifyAt o f).stats = s.stats := by
  cases o <;> rfl

@[simp] theorem modifyAt_oldestLive (o : Option Ptr) (f : Item → Item) :
    (s.modifyAt o f).oldestLive = s.oldestLive := by
  cases o <;> rfl

theorem get_modify (p : Ptr) (f : Item → Item) (q : Ptr) :
    (s.modify p f).heap.get q = (s.heap.get q).map fun x => if q = p then f x else x :=
  Heap.get_modify p f q

theorem get_modifyAt (o : Option Ptr) (f : Item → Item) (q : Ptr) :
    (s.modifyAt o f).heap.get q = (s.heap.get q).map fun x => if o = some q then f x else x := by
  cases o with
  | none => simp [modifyAt]
  | some p =>
    rw [modifyAt, get_modify]
    simp only [Option.some.injEq, eq_comm (a := q)]

/-- The successor and the predecessor in the list, and the successor in the hash chain. -/
def nx (s : Store) (p : Ptr) : Option Ptr := (s.heap.get p).bind Item.next
def pv (s : Store) (p : Ptr) : Option Ptr := (s.heap.get p).bind Item.prev
def hn (s : Store) (p : Ptr) : Option Ptr := (s.heap.get p).bind Item.hNext

end Store

/-- An item without its pointers of the list. -/
def Item.offList (x : Item) : Item := { x with next := none, prev := none }

/-- The stores have the same items up to what `f` keeps of an item. -/
def Same {α : Type} (f : Item → α) (s s' : Store) : Prop := ∀ q, (s'.heap.get q).map f = (s.heap.get q).map f

namespace Same

variable {α β : Type} {f : Item → α} {s s₁ s₂ : Store}

theorem refl (f : Item → α) (s : Store) : Same f s s := fun _ => rfl

theorem trans (h : Same f s s₁) (h' : Same f s₁ s₂) : Same f s s₂ := fun q => (h' q).trans (h q)

/-- What `g` keeps of an item, where it keeps no more than `f`. -/
theorem mono (h : Same f s s₁) {g : Item → β} (k : α → β) (hk : ∀ x, g x = k (f x)) : Same g s s₁ := by
  intro q
  have hg : g = k ∘ f := funext hk
  have hq := congrArg (Option.map k) (h q)
  rwa [Option.map_map, Option.map_map, ← hg] at hq

/-- An item of the one store is there in the other. -/
theorem get_some (h : Same f s s₁) {q : Ptr} {x : Item} (hx : s.heap.get q = some x) :
    ∃ y, s₁.heap.get q = some y ∧ f y = f x := by
  have hq := h q
  rw [hx] at hq
  exact Option.map_eq_some_iff.mp hq

theorem get_none (h : Same f s s₁) {q : Ptr} : s₁.heap.get q = none ↔ s.heap.get q = none := by
  rw [← Option.map_eq_none_iff (f := f), h q, Option.map_eq_none_iff]

theorem symm (h : Same f s s₁) : Same f s₁ s := fun q => (h q).symm

end Same

/-- A change of the list only. -/
structure SameButList (s s' : Store) : Prop where
  items : Same Item.offList s s'
  assoc : s'.assoc = s.assoc
  stats : s'.stats = s.stats
  oldestLive : s'.oldestLive = s.oldestLive

/-- The list of the linked items and its length. -/
structure Listed (s : Store) (l : List Ptr) : Prop where
  dlist : DList s.nx s.pv s.lru.heads s.lru.tails l
  live : ∀ p ∈ l, s.heap.get p ≠ none
  sizes : s.lru.sizes = UInt32.ofNat l.length

variable {s : Store} {l a b : List Ptr} {p : Ptr} {x : Item}

theorem Listed.not_mem (h : Listed s (a ++ p :: b)) : p ∉ a ++ b := h.dlist.not_mem

/-- The list depends on its own pointers. -/
theorem Listed.congr {s' : Store} (h : Listed s l) (hlru : s'.lru = s.lru) {α : Type} {f : Item → α}
    (hs : Same f s s') (k : α → Option Ptr × Option Ptr) (hk : ∀ x, (x.next, x.prev) = k (f x)) : Listed s' l := by
  have hpair := hs.mono k hk
  have hnx : ∀ q, s'.nx q = s.nx q := by
    intro q
    have hq := congrArg (fun o => Option.bind o Prod.fst) (hpair q)
    simpa [Store.nx, Option.bind_map, Function.comp_def] using hq
  have hpv : ∀ q, s'.pv q = s.pv q := by
    intro q
    have hq := congrArg (fun o => Option.bind o Prod.snd) (hpair q)
    simpa [Store.pv, Option.bind_map, Function.comp_def] using hq
  refine ⟨?_, fun q hq hno => h.live q hq (hs.get_none.mp hno), by rw [hlru, h.sizes]⟩
  rw [hlru]
  exact h.dlist.congr (fun q _ => hnx q) fun q _ => hpv q

/-- What `item_link_q` makes of the store. -/
def Store.linkQ (s : Store) (p : Ptr) : Store :=
  { (s.modify p fun y => { y with prev := none, next := s.lru.heads }).modifyAt s.lru.heads fun y =>
    { y with prev := some p } with
    lru := { heads := some p, tails := s.lru.tails.or (some p), sizes := s.lru.sizes + 1 } }

theorem get_linkQ (s : Store) (p q : Ptr) : (s.linkQ p).heap.get q = (s.heap.get q).map fun x =>
    let x := if q = p then { x with prev := none, next := s.lru.heads } else x
    if s.lru.heads = some q then { x with prev := some p } else x := by
  rw [Store.linkQ, Store.get_modifyAt, Store.get_modify, Option.map_map]
  rfl

/-- It changes the list only. -/
theorem linkQ_sameButList (s : Store) (p : Ptr) : SameButList s (s.linkQ p) := by
  refine ⟨fun q => ?_, by simp [Store.linkQ], by simp [Store.linkQ], by simp [Store.linkQ]⟩
  rw [get_linkQ, Option.map_map]
  refine Option.map_congr fun x _ => ?_
  simp only [Function.comp_apply, Item.offList]
  split <;> split <;> rfl

theorem itemLinkQ_spec (h : Listed s l) (hx : s.heap.get p ≠ none) (hp : p ∉ l) :
    itemLinkQ s p = .ok (s.linkQ p) ∧ Listed (s.linkQ p) (p :: l) := by
  have hhead : ∀ q, s.lru.heads = some q → q ∈ l := by
    intro q hq
    rw [h.dlist.head_eq] at hq
    exact List.mem_of_head? hq
  have hne : s.lru.heads ≠ some p := fun hh => hp (hhead p hh)
  constructor
  · have hlive : ∀ q, s.lru.heads = some q →
        (s.modify p fun y => { y with prev := none, next := s.lru.heads }).heap.get q ≠ none := by
      intro q hq
      rw [Store.get_modify, ne_eq, Option.map_eq_none_iff]
      exact h.live q (hhead q hq)
    unfold itemLinkQ
    rw [check_ok (by simpa using hne), ok_bind, check_ok (by simpa using h.dlist.head_isSome), ok_bind,
      Store.write_ok hx, ok_bind]
    simp only [Store.modify_lru]
    rw [Store.writeAt_ok hlive, ok_bind]
    simp only [Store.modifyAt_lru, Store.modify_lru, Store.linkQ]
    rfl
  · have hother : ∀ q ∈ l, q ≠ p := fun q hq he => hp (he ▸ hq)
    refine ⟨?_, fun q hq => ?_, ?_⟩
    · refine h.dlist.push hp ?_ ?_ (fun q hq => ?_) fun q hq => ?_
      · obtain ⟨x, hx⟩ := Option.ne_none_iff_exists'.mp hx
        simp [Store.nx, get_linkQ, hx, hne]
      · obtain ⟨x, hx⟩ := Option.ne_none_iff_exists'.mp hx
        simp [Store.pv, get_linkQ, hx, hne]
      · simp only [Store.nx, get_linkQ, if_neg (hother q hq), Option.bind_map, Function.comp_def]
        congr 1
        funext x
        split <;> rfl
      · obtain ⟨x, hx⟩ := Option.ne_none_iff_exists'.mp (h.live q hq)
        simp only [Store.pv, get_linkQ, hx, if_neg (hother q hq), Option.map_some, Option.bind_some]
        split <;> rfl
    · rw [(linkQ_sameButList s p).items.get_none.ne]
      rcases List.mem_cons.mp hq with rfl | hq
      · exact hx
      · exact h.live q hq
    · rw [List.length_cons, UInt32.ofNat_add]
      exact congrArg (· + 1) h.sizes

/-- What `item_unlink_q` makes of the store, for an item with the pointers of `x`. -/
def Store.unlinkQ (s : Store) (p : Ptr) (x : Item) : Store :=
  { (s.modifyAt x.next fun y => { y with prev := x.prev }).modifyAt x.prev fun y => { y with next := x.next } with
    lru :=
      { heads := if s.lru.heads = some p then x.next else s.lru.heads
        tails := if s.lru.tails = some p then x.prev else s.lru.tails
        sizes := s.lru.sizes - 1 } }

theorem get_unlinkQ (s : Store) (p : Ptr) (x : Item) (q : Ptr) :
    (s.unlinkQ p x).heap.get q = (s.heap.get q).map fun y =>
    let y := if x.next = some q then { y with prev := x.prev } else y
    if x.prev = some q then { y with next := x.next } else y := by
  rw [Store.unlinkQ, Store.get_modifyAt, Store.get_modifyAt, Option.map_map]
  rfl

theorem unlinkQ_sameButList (s : Store) (p : Ptr) (x : Item) : SameButList s (s.unlinkQ p x) := by
  refine ⟨fun q => ?_, by simp [Store.unlinkQ], by simp [Store.unlinkQ], by simp [Store.unlinkQ]⟩
  rw [get_unlinkQ, Option.map_map]
  refine Option.map_congr fun y _ => ?_
  simp only [Function.comp_apply, Item.offList]
  split <;> split <;> rfl

theorem itemUnlinkQ_spec (h : Listed s (a ++ p :: b)) (hx : s.heap.get p = some x) :
    itemUnlinkQ s p = .ok (s.unlinkQ p x) ∧ Listed (s.unlinkQ p x) (a ++ b) := by
  have hpre : x.prev = a.getLast? := by simpa [Store.pv, hx] using h.dlist.neighbours.1
  have hnext : x.next = b.head? := by simpa [Store.nx, hx] using h.dlist.neighbours.2
  have hp := h.not_mem
  have hprelive : ∀ q, x.prev = some q → q ∈ a := fun q hq => List.mem_of_getLast? (hpre ▸ hq)
  have hnextlive : ∀ q, x.next = some q → q ∈ b := fun q hq => List.mem_of_head? (hnext ▸ hq)
  constructor
  · have hheads : s.lru.heads = some p → x.prev = none := by
      intro hh
      rw [h.dlist.head_eq] at hh
      cases a with
      | nil => exact hpre
      | cons q a =>
        have hq : q = p := by simpa using hh
        exact absurd (by simp [hq]) hp
    have htails : s.lru.tails = some p → x.next = none := by
      intro ht
      rw [h.dlist.tail_eq] at ht
      cases hb : b.getLast? with
      | none => rw [hnext, List.getLast?_eq_none_iff.mp hb, List.head?_nil]
      | some q =>
        rw [List.getLast?_append, List.getLast?_cons, hb] at ht
        have hq : q = p := by simpa using ht
        exact absurd (List.mem_append_right _ (List.mem_of_getLast? (hq ▸ hb))) hp
    have hnp : x.next ≠ some p := fun hn => hp (List.mem_append_right _ (hnextlive p hn))
    have hpp : x.prev ≠ some p := fun hn => hp (List.mem_append_left _ (hprelive p hn))
    have hlive₁ : ∀ q, x.next = some q → s.heap.get q ≠ none := fun q hq => h.live q (by simp [hnextlive q hq])
    have hlive₂ : ∀ q, x.prev = some q → (s.modifyAt x.next fun y => { y with prev := x.prev }).heap.get q ≠ none := by
      intro q hq
      rw [Store.get_modifyAt, ne_eq, Option.map_eq_none_iff]
      exact h.live q (by simp [hprelive q hq])
    unfold itemUnlinkQ
    rw [Store.deref_ok hx, ok_bind, check_ok (decide_eq_true hheads), ok_bind, check_ok (decide_eq_true htails),
      ok_bind,
      check_ok (by simpa using hnp), ok_bind, check_ok (by simpa using hpp), ok_bind]
    dsimp only
    rw [Store.writeAt_ok hlive₁, ok_bind, Store.writeAt_ok hlive₂, ok_bind]
    rfl
  · refine ⟨?_, fun q hq => ?_, ?_⟩
    · have hnx : s.nx p = x.next := by simp [Store.nx, hx]
      have hpv : s.pv p = x.prev := by simp [Store.pv, hx]
      have hremove : DList (s.unlinkQ p x).nx (s.unlinkQ p x).pv (if s.lru.heads = some p then s.nx p else s.lru.heads)
          (if s.lru.tails = some p then s.pv p else s.lru.tails) (a ++ b) := by
        refine h.dlist.remove (fun q hq => ?_) fun q hq => ?_
        all_goals
          obtain ⟨y, hy⟩ := Option.ne_none_iff_exists'.mp (h.live q (by
            rcases List.mem_append.mp hq with hq | hq <;> simp [hq]))
        · rw [hnx, hpv]
          simp only [Store.nx, get_unlinkQ, hy, Option.map_some, Option.bind_some]
          split <;> split <;> rfl
        · rw [hnx, hpv]
          simp only [Store.pv, get_unlinkQ, hy, Option.map_some, Option.bind_some]
          split <;> split <;> rfl
      rwa [hnx, hpv] at hremove
    · rw [(unlinkQ_sameButList s p x).items.get_none.ne]
      refine h.live q ?_
      rcases List.mem_append.mp hq with hq | hq <;> simp [hq]
    · have hsz := h.sizes
      rw [List.length_append, List.length_cons, ← Nat.add_assoc, ← List.length_append, UInt32.ofNat_add] at hsz
      show s.lru.sizes - 1 = _
      rw [hsz]
      exact UInt32.add_sub_cancel _ _

end ZeroServ.Mc
