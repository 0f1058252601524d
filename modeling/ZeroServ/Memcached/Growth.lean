import ZeroServ.Memcached.Migration

/-!
# How far the hash table grows

Runs of the item store: items are linked and unlinked in any order, and every table asked for is granted. The first
expansion starts when 98305 items are linked; it moves one bucket, and nothing moves the others, so that it goes on
for ever and no further one starts. `growth_bound_iff`: the items are at most twice as many as the buckets just as
long as no more than 262144 are linked at a time.
-/

namespace ZeroServ.Mc

open Run Decimal

/-- The item store, and the items linked in it, the latest first. -/
structure Links where
  store : Store
  items : List Ptr

namespace Links

/-- What is done to the store: memory that no linked item has gets an item, an item is linked or unlinked. -/
inductive Act where
  | alloc (it : Ptr) (x : Item)
  | link (it : Ptr) (now : UInt32)
  | unlink (it : Ptr)

/-- An item is linked. -/
def Act.isLink : Act → Bool
  | .link _ _ => true
  | _ => false

/-- The store at first. -/
def init : Links := { store := Store.init, items := [] }

/-- One action. An item that is linked is not linked yet, and no linked item has its key. -/
def step (hash : List UInt8 → UInt32) (t : Links) : Act → Option Links
  | .alloc it x => if it ∉ t.items ∧ x.linked = false then some { t with store := t.store.hold it x } else none
  | .link it now =>
    if it ∉ t.items ∧ ∀ q ∈ t.items, t.store.keyAt q ≠ t.store.keyAt it then
      (doItemLink hash t.store it now true).toOption.map fun s => { store := s, items := it :: t.items }
    else none
  | .unlink it => (doItemUnlink hash t.store it).toOption.map fun s => { store := s, items := t.items.erase it }

/-- No more than two items to a bucket. -/
def Bounded (t : Links) : Prop := t.store.assoc.hashItems.toNat ≤ 2 * hashsize t.store.assoc.hashpower

/-- The items are those of the list and of the table, and they are marked as linked. -/
structure Inv (hash : List UInt8 → UInt32) (t : Links) : Prop where
  listed : Listed t.store t.items
  hashed : Hashed hash t.store t.items
  marked : ∀ {p x}, t.store.heap.get p = some x → (x.linked = true ↔ p ∈ t.items)

/-- The table has its first size, or has started to grow and grows since. -/
def Sized (t : Links) : Prop :=
  t.store.assoc.expanding = false ∧ t.store.assoc.hashpower = 16 ∧ t.items.length ≤ 98304 ∨
    t.store.assoc.expanding = true ∧ t.store.assoc.hashpower = 17

variable {hash : List UInt8 → UInt32} {t t' : Links} {p : Ptr} {x : Item}

theorem init_inv : init.Inv hash where
  listed := ⟨⟨List.nodup_nil, rfl, rfl, trivial⟩, by simp [init], rfl⟩
  hashed := Table.init_inv.hashed
  marked h := by simp [init, Store.init, Heap.get] at h

theorem init_sized : init.Sized := .inl ⟨rfl, rfl, by decide⟩

/-- The counter of the table. -/
theorem Inv.hashItems (h : t.Inv hash) (hlt : t.items.length < 4294967296) :
    t.store.assoc.hashItems.toNat = t.items.length := by
  rw [h.hashed.hashItems, UInt32.toNat_ofNat', Nat.mod_eq_of_lt hlt]

/-- The bound in a state of any run. -/
theorem bounded_iff (h : t.Inv hash) (hs : t.Sized) (hlt : t.items.length ≤ 262145) :
    t.Bounded ↔ t.items.length ≤ 262144 := by
  rw [Bounded, h.hashItems (by omega)]
  rcases hs with ⟨-, hpower, hle⟩ | ⟨-, hpower⟩
  · rw [hpower, hashsize]
    omega
  · rw [hpower, hashsize]
    omega

/-! ## The actions -/

theorem Inv.alloc (h : t.Inv hash) (hpl : p ∉ t.items) (hx : x.linked = false) :
    Inv hash { t with store := t.store.hold p x } := by
  have hother : ∀ q ∈ t.items, (t.store.hold p x).heap.get q = t.store.heap.get q := by
    intro q hq
    exact Heap.get_alloc_of_ne (by rintro rfl; exact hpl hq) x
  refine ⟨h.listed.congr_on rfl hother, h.hashed.congr_on rfl hother, fun {q y} hy => ?_⟩
  rw [Store.hold, Heap.get_alloc] at hy
  split at hy
  · next hqp =>
    obtain rfl := Option.some.inj hy
    rw [hqp, hx]
    exact iff_of_false Bool.false_ne_true hpl
  · exact h.marked hy

/-- An item is linked: the table keeps its size, or starts to grow. -/
theorem Inv.link (h : t.Inv hash) (hsized : t.Sized) (hx : t.store.heap.get p = some x) (hp : p ∉ t.items)
    (hnew : ∀ q ∈ t.items, t.store.keyAt q ≠ some x.key) (hsmall : x.nbytes < 1024 * 1024)
    (hlt : t.items.length + 1 < 4294967296) (now : UInt32) :
    ∃ s', doItemLink hash t.store p now true = .ok s' ∧ Inv hash { store := s', items := p :: t.items } ∧
      Sized { store := s', items := p :: t.items } ∧ ∀ q, s'.keyAt q = t.store.keyAt q := by
  obtain ⟨s₂, s', hins, hlink, hlist, hhash, hcore, hassoc, -, -⟩ :=
    doItemLink_parts h.listed h.hashed hx hp hnew hsmall now true
  have hcont : Same Item.content t.store (t.store.modify p fun y => { y with linked := true, time := now }) :=
    same_modify Item.content fun _ => rfl
  have hkeys : ∀ q, (t.store.modify p fun y => { y with linked := true, time := now }).keyAt q = t.store.keyAt q :=
    Store.keyAt_modify p fun _ => rfl
  have hhash₁ : Hashed hash (t.store.modify p fun y => { y with linked := true, time := now }) t.items :=
    h.hashed.modify p fun _ => rfl
  have hkey : (t.store.modify p fun y => { y with linked := true, time := now }).keyAt p = some x.key := by
    rw [hkeys, Store.keyAt, hx]
    rfl
  have hnew₁ : ∀ q ∈ t.items, (t.store.modify p fun y => { y with linked := true, time := now }).keyAt q ≠
      some x.key := by
    intro q hq
    rw [hkeys]
    exact hnew q hq
  have hitems : (t.store.assoc.hashItems + 1).toNat = t.items.length + 1 := by
    rw [h.hashed.hashItems, ← UInt32.ofNat_one, ← UInt32.ofNat_add, UInt32.toNat_ofNat', Nat.mod_eq_of_lt hlt]
  refine ⟨s', hlink, ⟨hlist, hhash, fun {q y} hy => ?_⟩, ?_,
    same_keyAt (hcont.trans hcore.content) Prod.fst fun _ => rfl⟩
  · obtain ⟨z, hz, hzy⟩ := hcore.symm.get_some hy
    have hlinked : y.linked = z.linked := (congrArg Item.linked hzy).symm
    rw [Store.get_modify] at hz
    obtain ⟨w, hw, rfl⟩ := Option.map_eq_some_iff.mp hz
    rw [hlinked, List.mem_cons]
    by_cases hqp : q = p
    · simp [hqp]
    · rw [if_neg hqp, h.marked hw]
      simp [hqp]
  · unfold Sized
    rw [hassoc]
    rcases hsized with ⟨he, hpower, hle⟩ | ⟨he, hpower⟩
    · by_cases hload : t.items.length < 98304
      · have hkept := assocInsert_kept hkey (fun _ _ => by
          rw [Store.modify_assoc, hitems, hpower, hashsize]
          omega) hins
        exact .inl ⟨hkept.2.trans he, hkept.1.trans hpower, hload⟩
      · have hgrown := assocInsert_grown hhash₁ hp hkey hnew₁ he (by
          rw [Store.modify_assoc, hitems, hpower, hashsize]
          omega) hins
        refine .inr ⟨hgrown.2.mpr ?_, hgrown.1.trans (congrArg (· + 1) hpower)⟩
        rw [Store.modify_assoc, hpower]
        decide
    · have hkept := assocInsert_kept hkey (fun _ hno => by
        rw [Store.modify_assoc, he] at hno
        cases hno) hins
      exact .inr ⟨hkept.2.trans he, hkept.1.trans hpower⟩

/-- Taking an item out of the table leaves its size. -/
theorem delete_kept {s s₁ : Store} {a b : List Ptr} (h : Hashed hash s (a ++ p :: b)) (hx : s.heap.get p = some x)
    (hdel : assocDelete hash { (s.modify p fun y => { y with linked := false }) with stats := s.stats.remove x }
      x.key = .ok s₁) :
    s₁.assoc.hashpower = s.assoc.hashpower ∧ s₁.assoc.expanding = s.assoc.expanding := by
  have hmod : Hashed hash (s.modify p fun y => { y with linked := false }) (a ++ p :: b) := h.modify p fun _ => rfl
  have hkeys : ∀ q, (s.modify p fun y => { y with linked := false }).keyAt q = s.keyAt q :=
    Store.keyAt_modify p fun _ => rfl
  have hkey : (s.modify p fun y => { y with linked := false }).keyAt p = some x.key := by
    rw [hkeys, Store.keyAt, hx]
    rfl
  have hkept := assocDelete_kept (hmod.withStats (s.stats.remove x)) (by simp : p ∈ a ++ p :: b) hkey hdel
  exact hkept

/-- A linked item is unlinked: the table keeps its size. -/
theorem Inv.unlink (h : t.Inv hash) (hsized : t.Sized) (hp : p ∈ t.items) :
    ∃ s', doItemUnlink hash t.store p = .ok s' ∧ Inv hash { store := s', items := t.items.erase p } ∧
      Sized { store := s', items := t.items.erase p } := by
  obtain ⟨x, hx⟩ := Option.ne_none_iff_exists'.mp (h.hashed.live p hp)
  obtain ⟨a, b, hitems⟩ := List.append_of_mem hp
  have hlisted := h.listed
  have hhashed := h.hashed
  rw [hitems] at hlisted hhashed
  have hpab := hlisted.not_mem
  have herase : t.items.erase p = a ++ b := by
    rw [hitems, List.erase_append_right _ fun hpa => hpab (List.mem_append_left b hpa), List.erase_cons_head]
  obtain ⟨s₁, s₂, hdel, hunlink, hlist, hhash, hcore, hassoc, -, -⟩ := unlink_parts hlisted hhashed hx
  have hkept : s₂.assoc.hashpower = t.store.assoc.hashpower ∧ s₂.assoc.expanding = t.store.assoc.expanding := by
    rw [hassoc]
    exact delete_kept hhashed hx hdel
  have hmarked : ∀ {q y}, s₂.heap.get q = some y → (y.linked = true ↔ q ∈ a ++ b) := by
    intro q y hy
    obtain ⟨z, hz, hzy⟩ := hcore.symm.get_some hy
    have hlinked : y.linked = z.linked := (congrArg Item.linked hzy).symm
    rw [Store.get_modify] at hz
    obtain ⟨w, hw, rfl⟩ := Option.map_eq_some_iff.mp hz
    rw [hlinked]
    by_cases hqp : q = p
    · simpa [hqp] using hpab
    · rw [if_neg hqp, h.marked hw, hitems]
      simp [hqp]
  have hsized₂ : Sized { store := s₂, items := a ++ b } := by
    have hlen := congrArg List.length hitems
    simp only [List.length_append, List.length_cons] at hlen
    rcases hsized with ⟨he, hpower, hle⟩ | ⟨he, hpower⟩
    · refine .inl ⟨hkept.2.trans he, hkept.1.trans hpower, ?_⟩
      rw [List.length_append]
      omega
    · exact .inr ⟨hkept.2.trans he, hkept.1.trans hpower⟩
  rw [herase, doItemUnlink, Store.deref_ok hx, ok_bind, if_pos ((h.marked hx).mpr hp),
    Store.write_ok (by simp [hx]), ok_bind]
  have hrest : ∀ s', (if x.refcount = 0 then itemFree s₂ p else pure s₂) = .ok s' →
      (do let s ← assocDelete hash { (t.store.modify p fun y =>
      { y with linked := false }) with stats := t.store.stats.remove x } x.key
          let s ← itemUnlinkQ s p
          if x.refcount = 0 then itemFree s p else pure s) = .ok s' := by
    intro s' h'
    rw [hdel, ok_bind, hunlink, ok_bind, h']
  by_cases hr : x.refcount = 0
  · -- nobody holds the item: it is freed
    obtain ⟨y, hy, hyx⟩ := hcore.get_some (by rw [Store.get_modify, hx, Option.map_some])
    have hylinked : y.linked = false := Bool.eq_false_iff.mpr fun hl => hpab ((hmarked hy).mp hl)
    have hyref : y.refcount = x.refcount := by
      have hc := congrArg Item.refcount hyx
      simpa [Item.core] using hc
    have hother : ∀ q ∈ a ++ b, (s₂.heap.free p).get q = s₂.heap.get q :=
      fun q hq => Heap.get_free_of_ne (by rintro rfl; exact hpab hq)
    refine ⟨{ s₂ with heap := s₂.heap.free p }, hrest _ ?_,
      ⟨hlist.congr_on rfl hother, hhash.congr_on rfl hother, fun {q z} hz => ?_⟩, hsized₂⟩
    · rw [if_pos hr, itemFree, Store.deref_ok hy, ok_bind, check_ok (by simp [hylinked]), ok_bind,
        check_ok (by simp [hyref, hr]), ok_bind]
      rfl
    · have hqp : q ≠ p := by
        rintro rfl
        rw [Heap.get_free_self] at hz
        cases hz
      rw [Heap.get_free_of_ne hqp] at hz
      exact hmarked hz
  · exact ⟨s₂, hrest _ (if_neg hr), ⟨hlist, hhash, hmarked⟩, hsized₂⟩

/-! ## Runs -/

/-- What one action does: the invariant stays, and only linking makes the items more, by one. -/
theorem step_inv {a : Act} (h : t.Inv hash) (hsized : t.Sized) (hlt : t.items.length + 1 < 4294967296)
    (hs : t.step hash a = some t') :
    t'.Inv hash ∧ t'.Sized ∧ t'.items.length ≤ t.items.length + if a.isLink = true then 1 else 0 := by
  cases a with
  | alloc it x =>
    simp only [step, Option.ite_none_right_eq_some, Option.some.injEq] at hs
    obtain ⟨⟨hp, hx⟩, rfl⟩ := hs
    exact ⟨h.alloc hp hx, hsized, Nat.le_add_right ..⟩
  | link it now =>
    simp only [step, Option.ite_none_right_eq_some, Option.map_eq_some_iff] at hs
    obtain ⟨⟨hp, hnew⟩, s', hs', rfl⟩ := hs
    cases hx : t.store.heap.get it with
    | none =>
      rw [doItemLink, Store.deref, hx] at hs'
      cases hs'
    | some x =>
      by_cases hsmall : x.nbytes < 1024 * 1024
      · have hkey : t.store.keyAt it = some x.key := by
          rw [Store.keyAt, hx]
          rfl
        rw [hkey] at hnew
        obtain ⟨s₁, hs₁, hinv, hsz, -⟩ := h.link hsized hx hp hnew hsmall hlt now
        rw [hs₁] at hs'
        obtain rfl := Option.some.inj hs'
        exact ⟨hinv, hsz, Nat.le_refl _⟩
      · rw [doItemLink, Store.deref_ok hx, ok_bind, if_neg hsmall] at hs'
        cases hs'
  | unlink it =>
    simp only [step, Option.map_eq_some_iff] at hs
    obtain ⟨s', hs', rfl⟩ := hs
    have hlen : (t.items.erase it).length ≤ t.items.length := List.length_erase_le
    by_cases hp : it ∈ t.items
    · obtain ⟨s₁, hs₁, hinv, hsz⟩ := h.unlink hsized hp
      rw [hs₁] at hs'
      obtain rfl := Option.some.inj hs'
      exact ⟨hinv, hsz, hlen⟩
    · -- an item that is not linked stays as it is
      cases hx : t.store.heap.get it with
      | none =>
        rw [doItemUnlink, Store.deref, hx] at hs'
        cases hs'
      | some x =>
        have hlinked : x.linked = false := Bool.eq_false_iff.mpr fun hl => hp ((h.marked hx).mp hl)
        rw [doItemUnlink, Store.deref_ok hx, ok_bind, if_neg (by simp [hlinked])] at hs'
        obtain rfl := Option.some.inj hs'
        rw [List.erase_of_not_mem hp]
        exact ⟨h, hsized, Nat.le_add_right ..⟩

/-- Linking an item makes the items one more. -/
theorem length_link {a : Act} (ha : a.isLink = true) (hs : t.step hash a = some t') :
    t'.items.length = t.items.length + 1 := by
  cases a with
  | alloc it x => nomatch ha
  | link it now =>
    simp only [step, Option.ite_none_right_eq_some, Option.map_eq_some_iff] at hs
    obtain ⟨-, s', -, rfl⟩ := hs
    rfl
  | unlink it => nomatch ha

/-- The items are at most twice as many as the buckets throughout a run just when an item is linked only where fewer
than 262144 are. -/
theorem growth_bound_iff (hash : List UInt8 → UInt32) (as : List Act) :
    AllStates (step hash) Bounded init as ↔
      AllSteps (step hash) (fun t a _ => a.isLink = true → t.items.length < 262144) init as := by
  refine AllStates.iff_allSteps (I := fun t => t.Inv hash ∧ t.Sized ∧ t.items.length ≤ 262144) (E := fun _ _ _ => True)
    ⟨init_inv, init_sized, by decide⟩ ?_ ?_ ?_ (.of_forall (fun _ _ _ => trivial) _ _)
  · rintro t ⟨hinv, hsized, hle⟩
    exact (bounded_iff hinv hsized (by omega)).mpr hle
  · rintro t a t' ⟨hinv, hsized, hle⟩ hs - hc
    obtain ⟨hinv', hsized', hle'⟩ := step_inv hinv hsized (by omega) hs
    refine ⟨hinv', hsized', ?_⟩
    split at hle'
    · next ha =>
      have hlt := hc ha
      omega
    · omega
  · rintro t a t' ⟨hinv, hsized, hle⟩ hs - hb ha
    obtain ⟨hinv', hsized', -⟩ := step_inv hinv hsized (by omega) hs
    have hlen := length_link ha hs
    have hle' := (bounded_iff hinv' hsized' (by omega)).mp hb
    omega

/-! ## Too many items -/

/-- Items of different keys may be linked one after the other. -/
theorem link_many (hash : List UInt8 → UInt32) {n : Nat} (hn : n < 4294967296) :
    ∃ as t, exec (step hash) init as = some t ∧
    t.Inv hash ∧ t.Sized ∧ t.items.length = n ∧ ∀ p ∈ t.items, p < n ∧ t.store.keyAt p = some (natText p) := by
  induction n with
  | zero => exact ⟨[], init, rfl, init_inv, init_sized, rfl, by simp [init]⟩
  | succ n ih =>
    obtain ⟨as, t, hr, hinv, hsized, hlen, hitems⟩ := ih (by omega)
    have hnew : n ∉ t.items := fun hn => absurd (hitems n hn).1 (Nat.lt_irrefl n)
    -- an item comes into memory, and is linked
    have hold := hinv.alloc (x := Table.sample (natText n)) hnew rfl
    have hget : (t.store.hold n (Table.sample (natText n))).heap.get n = some (Table.sample (natText n)) :=
      Heap.get_alloc_self ..
    have hkeys : ∀ p ∈ t.items, (t.store.hold n (Table.sample (natText n))).keyAt p = some (natText p) := by
      intro p hp
      rw [← (hitems p hp).2, Store.keyAt, Store.hold, Heap.get_alloc_of_ne (by rintro rfl; exact hnew hp)]
      rfl
    have hfresh : ∀ q ∈ t.items, (t.store.hold n (Table.sample (natText n))).keyAt q ≠ some (natText n) := by
      intro q hq hk
      rw [hkeys q hq, Option.some.injEq] at hk
      have hv := congrArg value hk
      rw [value_natText, value_natText] at hv
      exact (hitems q hq).1.ne hv
    have hsmall : (Table.sample (natText n)).nbytes < 1024 * 1024 := by
      show 2 < 1024 * 1024
      omega
    obtain ⟨s', hs', hinv', hsized', hkeep⟩ := hold.link hsized hget hnew hfresh hsmall (by rw [hlen]; exact hn) 0
    refine ⟨as ++ [.alloc n (Table.sample (natText n)), .link n 0], { store := s', items := n :: t.items }, ?_, hinv',
      hsized', ?_, ?_⟩
    · have halloc : step hash t (.alloc n (Table.sample (natText n))) =
          some { t with store := t.store.hold n (Table.sample (natText n)) } := if_pos ⟨hnew, rfl⟩
      have hkeyAt : (t.store.hold n (Table.sample (natText n))).keyAt n = some (natText n) := by
        rw [Store.keyAt, hget]
        rfl
      have hlink : step hash { t with store := t.store.hold n (Table.sample (natText n)) } (.link n 0) =
          some { store := s', items := n :: t.items } := by
        simp only [step, hkeyAt, hs']
        rw [if_pos ⟨hnew, hfresh⟩]
        rfl
      rw [exec_append, hr, Option.bind_some, exec_cons, halloc, Option.bind_some, exec_cons, hlink,
        Option.bind_some, exec_nil]
    · rw [List.length_cons, hlen]
    · intro p hp
      rcases List.mem_cons.mp hp with rfl | hp
      · exact ⟨Nat.lt_succ_self p, by rw [hkeep, Store.keyAt, hget]; rfl⟩
      · exact ⟨Nat.lt_succ_of_lt (hitems p hp).1, (hkeep p).trans (hkeys p hp)⟩

/-- With 262145 items linked the table still has 131072 buckets. -/
theorem growth_stops : ¬∀ (hash : List UInt8 → UInt32) (as : List Act), AllStates (step hash) Bounded init as := by
  intro h
  obtain ⟨as, t, hr, hinv, hsized, hlen, -⟩ := link_many (fun _ => 0) (n := 262145) (by decide)
  have hle := (bounded_iff hinv hsized (by omega)).mp ((h (fun _ => 0) as).last hr)
  omega

end Links
end ZeroServ.Mc
