import ZeroServ.Lib.Chain
import ZeroServ.Memcached.Lru

/-!
# The hash table

What `assoc.c` does on a table that holds some items (`Hashed`): a lookup finds the item with the key, an insertion
adds one, also where it makes the table grow, a deletion takes one out, and none of them changes more of an item than
its successor in the chain (`SameButChain`). No assertion fails, and no walk takes more steps than there are items.
-/

namespace ZeroServ.Mc

/-- An item without its successor in the hash chain. -/
def Item.offChain (x : Item) : Item := { x with hNext := none }

/-- A change of the table only. -/
structure SameButChain (s s' : Store) : Prop where
  items : Same Item.offChain s s'
  lru : s'.lru = s.lru
  stats : s'.stats = s.stats
  oldestLive : s'.oldestLive = s.oldestLive

theorem SameButChain.trans {s s₁ s₂ : Store} (h : SameButChain s s₁) (h' : SameButChain s₁ s₂) : SameButChain s s₂ :=
  ⟨h.items.trans h'.items, h'.lru.trans h.lru, h'.stats.trans h.stats, h'.oldestLive.trans h.oldestLive⟩

/-- The key of the item at an address. -/
def Store.keyAt (s : Store) (p : Ptr) : Option (List UInt8) := (s.heap.get p).map Item.key

section slots

variable (hash : List UInt8 → UInt32)

/-- A bucket that keys may belong to: during an expansion those that are moved are in the larger table, the others in
the old one. -/
def Assoc.Uses (a : Assoc) : Slot → Prop
  | .primary n => a.expanding = true → n % hashsize (a.hashpower - 1) < a.expandBucket
  | .old n => a.expanding = true ∧ a.expandBucket ≤ n

theorem Assoc.uses_slot (a : Assoc) (key : List UInt8) : a.Uses (a.slot hash key) := by
  unfold Assoc.slot
  dsimp only
  split
  · next h => simpa [Assoc.Uses] using h
  · next h =>
    intro he
    have hlt : ¬a.expandBucket ≤ (hash key).toNat % hashsize (a.hashpower - 1) := by simpa [he] using h
    have hdvd : hashsize (a.hashpower - 1) ∣ hashsize a.hashpower := Nat.pow_dvd_pow 2 (Nat.sub_le ..)
    rw [Nat.mod_mod_of_dvd _ hdvd]
    exact Nat.lt_of_not_le hlt

@[simp] theorem Assoc.slot_setHead (a : Assoc) (p : Option Ptr) (b : Slot) (key : List UInt8) :
    (a.setHead p b).slot hash key = a.slot hash key := by
  cases b <;> rfl

theorem Assoc.head_setHead (a : Assoc) (p : Option Ptr) (b b' : Slot) :
    (a.setHead p b).head b' = if b' = b then p else a.head b' := by
  cases b <;> cases b' <;> simp [Assoc.setHead, Assoc.head, Function.update_apply]

@[simp] theorem Assoc.uses_setHead (a : Assoc) (p : Option Ptr) (b b' : Slot) :
    (a.setHead p b).Uses b' ↔ a.Uses b' := by
  cases b <;> cases b' <;> rfl

@[simp] theorem Assoc.setHead_hashpower (a : Assoc) (p : Option Ptr) (b : Slot) :
    (a.setHead p b).hashpower = a.hashpower := by
  cases b <;> rfl

@[simp] theorem Assoc.setHead_hashItems (a : Assoc) (p : Option Ptr) (b : Slot) :
    (a.setHead p b).hashItems = a.hashItems := by
  cases b <;> rfl

@[simp] theorem Assoc.setHead_expanding (a : Assoc) (p : Option Ptr) (b : Slot) :
    (a.setHead p b).expanding = a.expanding := by
  cases b <;> rfl

@[simp] theorem Assoc.setHead_expandBucket (a : Assoc) (p : Option Ptr) (b : Slot) :
    (a.setHead p b).expandBucket = a.expandBucket := by
  cases b <;> rfl

/-- The bucket the item at an address belongs to. -/
def Store.slotAt (s : Store) (p : Ptr) : Option Slot := (s.keyAt p).map (s.assoc.slot hash)

/-- The table holds the items: in the chain of every bucket those that belong to it, no two of them with one key. -/
structure Hashed (s : Store) (l : List Ptr) : Prop where
  nodup : l.Nodup
  live : ∀ p ∈ l, s.heap.get p ≠ none
  chains : ∀ b, s.assoc.Uses b → ∃ c, Chain s.hn (s.assoc.head b) c ∧ ∀ p, p ∈ c ↔ p ∈ l ∧ s.slotAt hash p = some b
  keys : ∀ p ∈ l, ∀ q ∈ l, s.keyAt p = s.keyAt q → p = q
  hashItems : s.assoc.hashItems = UInt32.ofNat l.length
  power : 0 < s.assoc.hashpower

end slots

variable {hash : List UInt8 → UInt32} {s : Store} {l a b : List Ptr} {p : Ptr} {x : Item} {key : List UInt8}

/-! ## Looking up -/

theorem deref_keyAt (h : s.keyAt p = some key) : ∃ x, s.deref p = .ok x ∧ s.heap.get p = some x ∧ x.key = key := by
  obtain ⟨x, hx, rfl⟩ := Option.map_eq_some_iff.mp h
  exact ⟨x, Store.deref_ok hx, hx, rfl⟩

/-- The walk along nodes none of which has the key. -/
theorem seek_skip (n : Nat) (before : Option Ptr) {start : Option Ptr} (hc : Chain s.hn start (a ++ b))
    (hlive : ∀ q ∈ a, s.heap.get q ≠ none) (hkey : ∀ q ∈ a, s.keyAt q ≠ some key) :
    ∃ t, Chain s.hn t b ∧ seek s key (a.length + n) before start = seek s key n (a.getLast?.or before) t := by
  induction a generalizing before start with
  | nil => exact ⟨start, hc, by simp⟩
  | cons q a ih =>
    obtain ⟨x, hx⟩ := Option.ne_none_iff_exists'.mp (hlive q List.mem_cons_self)
    have hne : x.key ≠ key := by
      have hk := hkey q List.mem_cons_self
      simpa [Store.keyAt, hx] using hk
    obtain ⟨t, ht, hseek⟩ := ih (some q) hc.2 (fun r hr => hlive r (List.mem_cons_of_mem _ hr))
      fun r hr => hkey r (List.mem_cons_of_mem _ hr)
    refine ⟨t, ht, ?_⟩
    have hnext : s.hn q = x.hNext := by simp [Store.hn, hx]
    rw [hc.1, List.length_cons, Nat.add_right_comm, seek, Store.deref_ok hx, ok_bind, if_neg hne, ← hnext, hseek,
      List.getLast?_cons]
    cases a.getLast? <;> rfl

/-- The walk along a chain without the key. -/
theorem seek_absent {n : Nat} {start : Option Ptr} (hc : Chain s.hn start a) (hlive : ∀ q ∈ a, s.heap.get q ≠ none)
    (hkey : ∀ q ∈ a, s.keyAt q ≠ some key) (hn : a.length ≤ n) : seek s key n none start = .ok (a.getLast?, none) := by
  rw [← List.append_nil a] at hc
  obtain ⟨t, ht, hseek⟩ := seek_skip (n - a.length) none hc hlive hkey
  obtain rfl : t = none := ht
  rw [Nat.add_sub_cancel' hn, Option.or_none] at hseek
  refine hseek.trans ?_
  cases n - a.length <;> rfl

/-- The walk up to the item with the key. -/
theorem seek_present {n : Nat} {start : Option Ptr} (hc : Chain s.hn start (a ++ p :: b))
    (hlive : ∀ q ∈ a, s.heap.get q ≠ none)
    (hkey : ∀ q ∈ a, s.keyAt q ≠ some key) (hp : s.keyAt p = some key) (hn : (a ++ p :: b).length ≤ n) :
    seek s key n none start = .ok (a.getLast?, some p) := by
  rw [List.length_append, List.length_cons] at hn
  obtain ⟨t, ht, hseek⟩ := seek_skip (n - a.length) none hc hlive hkey
  obtain ⟨x, hx, -, hxk⟩ := deref_keyAt hp
  obtain ⟨m, hm⟩ : ∃ m, n - a.length = m + 1 := ⟨n - a.length - 1, by omega⟩
  rw [Nat.add_sub_cancel' (by omega), hm, ht.1, seek, hx, ok_bind, if_pos hxk, Option.or_none] at hseek
  exact hseek

theorem Hashed.not_mem (h : Hashed hash s (a ++ p :: b)) : p ∉ a ++ b :=
  (List.nodup_cons.mp (List.nodup_middle.mp h.nodup)).1

theorem Hashed.length_le (h : Hashed hash s l) {c : List Ptr} (hn : c.Nodup) (hc : ∀ q ∈ c, q ∈ l) :
    c.length ≤ s.heap.count :=
  Heap.length_le_count hn fun q hq => h.live q (hc q hq)

/-- No item has the key: the lookup finds none, and the end of a chain. -/
theorem hashitemBefore_absent (h : Hashed hash s l) (hkey : ∀ q ∈ l, s.keyAt q ≠ some key) :
    ∃ c, Chain s.hn (s.assoc.head (s.assoc.slot hash key)) c ∧ hashitemBefore hash s key = .ok (c.getLast?, none) := by
  obtain ⟨c, hc, hmem⟩ := h.chains _ (s.assoc.uses_slot hash key)
  refine ⟨c, hc, ?_⟩
  exact seek_absent hc (fun q hq => h.live q ((hmem q).mp hq).1) (fun q hq => hkey q ((hmem q).mp hq).1)
    (h.length_le hc.nodup fun q hq => ((hmem q).mp hq).1)

/-- An item has the key: the lookup finds it, and what is before it in its chain. -/
theorem hashitemBefore_present (h : Hashed hash s l) (hp : p ∈ l) (hkey : s.keyAt p = some key) :
    ∃ a b, Chain s.hn (s.assoc.head (s.assoc.slot hash key)) (a ++ p :: b) ∧
      (∀ q, q ∈ a ++ p :: b ↔ q ∈ l ∧ s.slotAt hash q = some (s.assoc.slot hash key)) ∧
      hashitemBefore hash s key = .ok (a.getLast?, some p) := by
  obtain ⟨c, hc, hmem⟩ := h.chains _ (s.assoc.uses_slot hash key)
  have hpc : p ∈ c := (hmem p).mpr ⟨hp, by rw [Store.slotAt, hkey]; rfl⟩
  obtain ⟨a, b, rfl⟩ := List.append_of_mem hpc
  refine ⟨a, b, hc, hmem, ?_⟩
  refine seek_present hc (fun q hq => ?_) (fun q hq hqk => ?_) hkey
    (h.length_le hc.nodup fun q hq => ((hmem q).mp hq).1)
  · exact h.live q ((hmem q).mp (by simp [hq])).1
  · have hqp := h.keys q ((hmem q).mp (by simp [hq])).1 p hp (hqk.trans hkey.symm)
    exact hc.not_mem (by simp [← hqp, hq])

theorem assocFind_absent (h : Hashed hash s l) (hkey : ∀ q ∈ l, s.keyAt q ≠ some key) :
    assocFind hash s key = .ok none := by
  obtain ⟨c, -, hb⟩ := hashitemBefore_absent h hkey
  rw [assocFind, hb]
  rfl

theorem assocFind_present (h : Hashed hash s l) (hp : p ∈ l) (hkey : s.keyAt p = some key) :
    assocFind hash s key = .ok (some p) := by
  obtain ⟨a, b, -, -, hb⟩ := hashitemBefore_present h hp hkey
  rw [assocFind, hb]
  rfl

/-! ## Inserting -/

theorem same_keyAt {s s' : Store} {α : Type} {f : Item → α} (h : Same f s s') (k : α → List UInt8)
    (hk : ∀ x, x.key = k (f x)) (q : Ptr) : s'.keyAt q = s.keyAt q :=
  h.mono k hk q

/-- The table depends on the keys, the chains and the statics of `assoc.c`. -/
theorem Hashed.congr {s' : Store} (h : Hashed hash s l) (ha : s'.assoc = s.assoc) {α : Type} {f : Item → α}
    (hs : Same f s s')
    (k : α → Option Ptr × List UInt8) (hk : ∀ x, (x.hNext, x.key) = k (f x)) : Hashed hash s' l := by
  have hkey : ∀ q, s'.keyAt q = s.keyAt q := same_keyAt hs (fun y => (k y).2) fun x => by rw [← hk]
  have hslot : ∀ q, s'.slotAt hash q = s.slotAt hash q := by
    intro q
    rw [Store.slotAt, Store.slotAt, hkey, ha]
  have hhn : ∀ q, s'.hn q = s.hn q := by
    intro q
    have hq := congrArg (fun o => Option.bind o id) (hs.mono (fun y => (k y).1) (fun x => by rw [← hk]) q)
    simpa [Store.hn, Option.bind_map, Function.comp_def] using hq
  refine ⟨h.nodup, fun q hq => (hs.get_none.ne).mpr (h.live q hq), fun b hb => ?_, fun p hp q hq he => ?_, ?_, ?_⟩
  · rw [ha] at hb ⊢
    obtain ⟨c, hc, hmem⟩ := h.chains b hb
    exact ⟨c, hc.congr fun q _ => hhn q, fun q => by rw [hmem, hslot]⟩
  · rw [hkey, hkey] at he
    exact h.keys p hp q hq he
  · rw [ha, h.hashItems]
  · rw [ha]
    exact h.power

/-- The items of the table in another order. -/
theorem Hashed.perm {l' : List Ptr} (h : Hashed hash s l) (hl : l'.Perm l) : Hashed hash s l' where
  nodup := hl.nodup_iff.mpr h.nodup
  live p hp := h.live p (hl.mem_iff.mp hp)
  chains b hb := by
    obtain ⟨c, hc, hmem⟩ := h.chains b hb
    exact ⟨c, hc, fun p => by rw [hmem, hl.mem_iff]⟩
  keys p hp q hq := h.keys p (hl.mem_iff.mp hp) q (hl.mem_iff.mp hq)
  hashItems := by rw [h.hashItems, hl.length_eq]
  power := h.power

/-- An item put in front of its chain. -/
def Store.insertHead (hash : List UInt8 → UInt32) (s : Store) (p : Ptr) (key : List UInt8) : Store :=
  { s.modify p fun y => { y with hNext := s.assoc.head (s.assoc.slot hash key) } with
    assoc :=
      { s.assoc.setHead (some p) (s.assoc.slot hash key) with
        hashItems := (s.assoc.setHead (some p) (s.assoc.slot hash key)).hashItems + 1 } }

theorem insertHead_sameButChain (hash : List UInt8 → UInt32) (s : Store) (p : Ptr) (key : List UInt8) :
    SameButChain s (s.insertHead hash p key) := by
  refine ⟨fun q => ?_, rfl, rfl, rfl⟩
  simp only [Store.insertHead, Store.get_modify, Option.map_map]
  refine Option.map_congr fun x _ => ?_
  simp only [Function.comp_apply, Item.offChain]
  split <;> rfl

theorem insertHead_hashed (h : Hashed hash s l) (hp : p ∉ l) (hkey : s.keyAt p = some key)
    (hnew : ∀ q ∈ l, s.keyAt q ≠ some key) :
    Hashed hash (s.insertHead hash p key) (p :: l) := by
  have hsame := insertHead_sameButChain hash s p key
  have hkeys : ∀ q, (s.insertHead hash p key).keyAt q = s.keyAt q := same_keyAt hsame.items Item.key fun _ => rfl
  have hslotk : ∀ k, (s.insertHead hash p key).assoc.slot hash k = s.assoc.slot hash k := by
    intro k
    show (s.assoc.setHead (some p) (s.assoc.slot hash key)).slot hash k = _
    exact Assoc.slot_setHead hash s.assoc _ _ k
  have hslot : ∀ q, (s.insertHead hash p key).slotAt hash q = s.slotAt hash q := by
    intro q
    rw [Store.slotAt, Store.slotAt, hkeys]
    exact Option.map_congr fun k _ => hslotk k
  have hpslot : s.slotAt hash p = some (s.assoc.slot hash key) := by rw [Store.slotAt, hkey]; rfl
  obtain ⟨x, -, hx, -⟩ := deref_keyAt hkey
  have hnp : (s.insertHead hash p key).hn p = s.assoc.head (s.assoc.slot hash key) := by
    simp [Store.hn, Store.insertHead, Store.get_modify, hx]
  have hnq : ∀ q, q ≠ p → (s.insertHead hash p key).hn q = s.hn q := by
    intro q hq
    simp [Store.hn, Store.insertHead, Store.get_modify, hq]
  refine ⟨List.nodup_cons.mpr ⟨hp, h.nodup⟩, fun q hq => ?_, fun b hb => ?_, fun q hq r hr he => ?_, ?_,
    (Assoc.setHead_hashpower ..).symm ▸ h.power⟩
  · rw [hsame.items.get_none.ne]
    rcases List.mem_cons.mp hq with rfl | hq
    · simp [hx]
    · exact h.live q hq
  · have hhead : (s.insertHead hash p key).assoc.head b =
        if b = s.assoc.slot hash key then some p else s.assoc.head b :=
      Assoc.head_setHead s.assoc _ _ b
    obtain ⟨c, hc, hmem⟩ := h.chains b ((Assoc.uses_setHead s.assoc _ _ b).mp hb)
    have hpc : p ∉ c := fun hpc => hp ((hmem p).mp hpc).1
    rw [hhead]
    by_cases hbk : b = s.assoc.slot hash key
    · rw [if_pos hbk]
      refine ⟨p :: c, hc.cons_new (by rw [hnp, hbk]) fun q hq => hnq q fun he => hpc (he ▸ hq), fun q => ?_⟩
      rw [List.mem_cons, List.mem_cons, hslot, hmem]
      constructor
      · rintro (rfl | ⟨hq, hs⟩)
        · exact ⟨.inl rfl, by rw [hpslot, hbk]⟩
        · exact ⟨.inr hq, hs⟩
      · rintro ⟨rfl | hq, hs⟩
        · exact .inl rfl
        · exact .inr ⟨hq, hs⟩
    · rw [if_neg hbk]
      refine ⟨c, hc.congr fun q hq => hnq q fun he => hpc (he ▸ hq), fun q => ?_⟩
      rw [List.mem_cons, hslot, hmem]
      refine ⟨fun hq => ⟨.inr hq.1, hq.2⟩, fun hq => ⟨hq.1.resolve_left fun he => hbk ?_, hq.2⟩⟩
      rw [he, hpslot] at hq
      exact (Option.some.inj hq.2).symm
  · rw [hkeys, hkeys] at he
    rcases List.mem_cons.mp hq with hq | hq <;> rcases List.mem_cons.mp hr with hr | hr
    · rw [hq, hr]
    · rw [hq, hkey] at he
      exact absurd he.symm (hnew r hr)
    · rw [hr, hkey] at he
      exact absurd he (hnew q hq)
    · exact h.keys q hq r hr he
  · rw [List.length_cons, UInt32.ofNat_add]
    exact congrArg (· + 1) ((Assoc.setHead_hashItems ..).trans h.hashItems)

/-! ## Growing -/

/-- The bucket of the larger table that the item at an address goes to. -/
def Store.bucketAt (hash : List UInt8 → UInt32) (s : Store) (p : Ptr) : Option Nat :=
  (s.keyAt p).map fun k => (hash k).toNat % hashsize s.assoc.hashpower

/-- The buckets of the larger table hold the items `m` that are moved. -/
def Moved (hash : List UInt8 → UInt32) (s : Store) (m : List Ptr) : Prop :=
  ∀ n, ∃ d, Chain s.hn (s.assoc.primaryHashtable n) d ∧ ∀ p, p ∈ d ↔ p ∈ m ∧ s.bucketAt hash p = some n

/-- What moving a chain leaves: everything but the chains of the moved items and the buckets of the larger table. -/
structure MovedOnly (s s' : Store) (c : List Ptr) : Prop where
  same : SameButChain s s'
  assoc : s'.assoc = { s.assoc with primaryHashtable := s'.assoc.primaryHashtable }
  others : ∀ q, q ∉ c → s'.hn q = s.hn q

/-- One item moved to its bucket of the larger table. -/
def Store.moveOne (hash : List UInt8 → UInt32) (s : Store) (p : Ptr) (key : List UInt8) : Store :=
  { s.modify p fun y =>
      { y with hNext := s.assoc.primaryHashtable ((hash key).toNat % hashsize s.assoc.hashpower) } with
    assoc := s.assoc.setHead (some p) (.primary ((hash key).toNat % hashsize s.assoc.hashpower)) }

theorem moveOne_movedOnly (hash : List UInt8 → UInt32) (s : Store) (p : Ptr) (key : List UInt8) :
    MovedOnly s (s.moveOne hash p key) [p] := by
  refine ⟨⟨fun q => ?_, rfl, rfl, rfl⟩, rfl, fun q hq => ?_⟩
  · simp only [Store.moveOne, Store.get_modify, Option.map_map]
    refine Option.map_congr fun x _ => ?_
    simp only [Function.comp_apply, Item.offChain]
    split <;> rfl
  · have hqp : q ≠ p := by simpa using hq
    simp [Store.hn, Store.moveOne, Store.get_modify, hqp]

theorem moveOne_moved {m : List Ptr} (h : Moved hash s m) (hkey : s.keyAt p = some key) (hp : p ∉ m) :
    Moved hash (s.moveOne hash p key) (p :: m) := by
  have honly := moveOne_movedOnly hash s p key
  have hkeys : ∀ q, (s.moveOne hash p key).keyAt q = s.keyAt q := same_keyAt honly.same.items Item.key fun _ => rfl
  have hbucket : ∀ q, (s.moveOne hash p key).bucketAt hash q = s.bucketAt hash q := by
    intro q
    rw [Store.bucketAt, Store.bucketAt, hkeys]
    rfl
  have hpb : s.bucketAt hash p = some ((hash key).toNat % hashsize s.assoc.hashpower) := by
    rw [Store.bucketAt, hkey]; rfl
  obtain ⟨x, -, hx, -⟩ := deref_keyAt hkey
  intro n
  obtain ⟨d, hd, hmem⟩ := h n
  have hpd : p ∉ d := fun hpd => hp ((hmem p).mp hpd).1
  have hother : ∀ q ∈ d, (s.moveOne hash p key).hn q = s.hn q := fun q hq => honly.others q (by
    rw [List.mem_singleton]
    exact fun he => hpd (he ▸ hq))
  have hhead : (s.moveOne hash p key).assoc.primaryHashtable n =
      if n = (hash key).toNat % hashsize s.assoc.hashpower then some p else s.assoc.primaryHashtable n :=
    Function.update_apply ..
  rw [hhead]
  by_cases hn : n = (hash key).toNat % hashsize s.assoc.hashpower
  · rw [if_pos hn]
    refine ⟨p :: d, hd.cons_new ?_ hother, fun q => ?_⟩
    · simp [Store.hn, Store.moveOne, Store.get_modify, hx, hn]
    · rw [List.mem_cons, List.mem_cons, hbucket, hmem]
      constructor
      · rintro (rfl | ⟨hq, hb⟩)
        · exact ⟨.inl rfl, by rw [hpb, hn]⟩
        · exact ⟨.inr hq, hb⟩
      · rintro ⟨rfl | hq, hb⟩
        · exact .inl rfl
        · exact .inr ⟨hq, hb⟩
  · rw [if_neg hn]
    refine ⟨d, hd.congr hother, fun q => ?_⟩
    rw [List.mem_cons, hbucket, hmem]
    refine ⟨fun hq => ⟨.inr hq.1, hq.2⟩, fun hq => ⟨hq.1.resolve_left fun he => hn ?_, hq.2⟩⟩
    rw [he, hpb] at hq
    exact (Option.some.inj hq.2).symm

theorem MovedOnly.trans {s₁ s₂ : Store} {c d : List Ptr} (h : MovedOnly s s₁ c) (h' : MovedOnly s₁ s₂ d) :
    MovedOnly s s₂ (c ++ d) where
  same := h.same.trans h'.same
  assoc := by rw [h'.assoc, h.assoc]
  others q hq := by
    rw [List.mem_append, not_or] at hq
    rw [h'.others q hq.2, h.others q hq.1]

/-- The loop moves the items of a chain. -/
theorem moveChain_spec {c m : List Ptr} {n : Nat} {start : Option Ptr} (hc : Chain s.hn start c)
    (hlive : ∀ p ∈ c, s.heap.get p ≠ none) (hdis : ∀ p ∈ c, p ∉ m) (hm : Moved hash s m) (hn : c.length ≤ n) :
    ∃ s', moveChain hash s n start = .ok s' ∧ Moved hash s' (c.reverse ++ m) ∧ MovedOnly s s' c := by
  induction c generalizing s m n start with
  | nil =>
    obtain rfl : start = none := hc
    refine ⟨s, ?_, hm, ⟨⟨.refl _ s, rfl, rfl, rfl⟩, rfl, fun _ _ => rfl⟩⟩
    cases n <;> rfl
  | cons p c ih =>
    obtain ⟨n, rfl⟩ : ∃ k, n = k + 1 := ⟨n - 1, by rw [List.length_cons] at hn; omega⟩
    have hlen : c.length ≤ n := by
      rw [List.length_cons] at hn
      omega
    obtain ⟨x, hx⟩ := Option.ne_none_iff_exists'.mp (hlive p List.mem_cons_self)
    obtain ⟨hpc, -⟩ := List.nodup_cons.mp hc.nodup
    have hkey : s.keyAt p = some x.key := by rw [Store.keyAt, hx]; rfl
    have honly := moveOne_movedOnly hash s p x.key
    have hnext : s.hn p = x.hNext := by simp [Store.hn, hx]
    have hrest : Chain (s.moveOne hash p x.key).hn x.hNext c := by
      rw [← hnext]
      refine hc.2.congr fun q hq => honly.others q ?_
      rw [List.mem_singleton]
      exact fun he => hpc (he ▸ hq)
    obtain ⟨s', hs', hmoved, honly'⟩ := ih hrest
      (fun q hq => (honly.same.items.get_none.ne).mpr (hlive q (List.mem_cons_of_mem _ hq)))
      (fun q hq hqm => by
        rcases List.mem_cons.mp hqm with rfl | hqm
        · exact hpc hq
        · exact hdis q (List.mem_cons_of_mem _ hq) hqm)
      (moveOne_moved hm hkey (hdis p List.mem_cons_self)) hlen
    refine ⟨s', ?_, ?_, honly.trans honly'⟩
    · rw [hc.1, moveChain, Store.deref_ok hx, ok_bind]
      dsimp only
      rw [Store.write_ok (by simp [hx]), ok_bind]
      exact hs'
    · rwa [List.reverse_cons, List.append_assoc]

/-- The store when an expansion starts. -/
def Store.expanded (s : Store) : Store :=
  { s with
    assoc :=
      { s.assoc with
        oldHashtable := s.assoc.primaryHashtable
        hashpower := s.assoc.hashpower + 1
        primaryHashtable := fun _ => none
        expanding := true
        expandBucket := 0 } }

/-- At first every key is in the old table, where it was. -/
theorem expanded_hashed (h : Hashed hash s l) (he : s.assoc.expanding = false) : Hashed hash s.expanded l := by
  have hslot : ∀ k, s.assoc.slot hash k = .primary ((hash k).toNat % hashsize s.assoc.hashpower) := by
    intro k
    simp [Assoc.slot, he]
  have hslot' : ∀ k, s.expanded.assoc.slot hash k = .old ((hash k).toNat % hashsize s.assoc.hashpower) := by
    intro k
    simp [Assoc.slot, Store.expanded]
  refine ⟨h.nodup, h.live, fun b hb => ?_, h.keys, h.hashItems, Nat.succ_pos _⟩
  cases b with
  | primary n => exact absurd (hb rfl) (Nat.not_lt_zero _)
  | old n =>
    obtain ⟨c, hc, hmem⟩ := h.chains (.primary n) fun hexp => by rw [he] at hexp; nomatch hexp
    refine ⟨c, hc, fun p => ?_⟩
    rw [hmem]
    have hkey : s.expanded.keyAt p = s.keyAt p := rfl
    simp only [Store.slotAt, hkey, Option.map_eq_some_iff, hslot, hslot', Slot.primary.injEq, Slot.old.injEq]

/-- During an expansion the buckets that no key belongs to are empty, and not all of the old ones are moved yet. -/
structure Migrating (a : Assoc) : Prop where
  vacant : a.expanding = true → ∀ b, ¬a.Uses b → a.head b = none
  more : a.expanding = true → a.expandBucket < hashsize (a.hashpower - 1)

theorem Migrating.of_not_expanding {t : Assoc} (h : t.expanding = false) : Migrating t where
  vacant he := by rw [h] at he; nomatch he
  more he := by rw [h] at he; nomatch he

theorem expanded_migrating (s : Store) : Migrating s.expanded.assoc where
  vacant _ b hb := by
    cases b with
    | primary n => rfl
    | old n => exact absurd ⟨rfl, Nat.zero_le n⟩ hb
  more _ := Nat.two_pow_pos _

/-- The store after a bucket was moved, where `s₁` is the store after its chain was. -/
def Store.bucketMoved (s₁ : Store) : Store :=
  { s₁ with
    assoc :=
      { s₁.assoc.setHead none (.old s₁.assoc.expandBucket) with
        expandBucket := s₁.assoc.expandBucket + 1
        expanding := s₁.assoc.expandBucket + 1 ≠ hashsize (s₁.assoc.hashpower - 1) } }

/-- The bucket of a key after a bucket was moved. -/
theorem slot_bucketMoved (s₁ : Store) (k : List UInt8) :
    s₁.bucketMoved.assoc.slot hash k =
      if s₁.assoc.expandBucket < (hash k).toNat % hashsize (s₁.assoc.hashpower - 1) then
        .old ((hash k).toNat % hashsize (s₁.assoc.hashpower - 1))
      else .primary ((hash k).toNat % hashsize s₁.assoc.hashpower) := by
  have hlt : (hash k).toNat % hashsize (s₁.assoc.hashpower - 1) < hashsize (s₁.assoc.hashpower - 1) :=
    Nat.mod_lt _ (Nat.two_pow_pos _)
  have hif : (decide (s₁.assoc.expandBucket + 1 ≠ hashsize (s₁.assoc.hashpower - 1)) &&
      decide (s₁.assoc.expandBucket + 1 ≤ (hash k).toNat % hashsize (s₁.assoc.hashpower - 1))) = true ↔
      s₁.assoc.expandBucket < (hash k).toNat % hashsize (s₁.assoc.hashpower - 1) := by
    rw [Bool.and_eq_true, decide_eq_true_eq, decide_eq_true_eq]
    omega
  unfold Assoc.slot
  simp only [Store.bucketMoved, Assoc.setHead_hashpower]
  exact if_congr hif rfl rfl

/-- The items that are in the larger table while an expansion goes on. -/
theorem moved_of_hashed (h : Hashed hash s l) (hm : Migrating s.assoc) (he : s.assoc.expanding = true) :
    ∃ m, Moved hash s m ∧ ∀ p, p ∈ m ↔ p ∈ l ∧ ∃ n, s.slotAt hash p = some (.primary n) := by
  classical
  have hmem : ∀ p, p ∈ l.filter (fun p => ∃ n, s.slotAt hash p = some (.primary n)) ↔
      p ∈ l ∧ ∃ n, s.slotAt hash p = some (.primary n) := by simp
  refine ⟨l.filter fun p => ∃ n, s.slotAt hash p = some (.primary n), fun n => ?_, hmem⟩
  -- an item of the larger table is in the bucket of its key
  have hbucket : ∀ {p n}, s.slotAt hash p = some (.primary n) → s.bucketAt hash p = some n := by
    intro p n hp
    obtain ⟨k, hk, hs⟩ := Option.map_eq_some_iff.mp hp
    unfold Assoc.slot at hs
    dsimp only at hs
    split at hs
    · nomatch hs
    · rw [Store.bucketAt, hk]
      exact congrArg some (Slot.primary.inj hs)
  by_cases hn : n % hashsize (s.assoc.hashpower - 1) < s.assoc.expandBucket
  · obtain ⟨d, hd, hdmem⟩ := h.chains (.primary n) fun _ => hn
    refine ⟨d, hd, fun p => ?_⟩
    rw [hdmem, hmem, and_assoc]
    refine and_congr_right fun _ => ⟨fun hp => ⟨⟨n, hp⟩, hbucket hp⟩, ?_⟩
    rintro ⟨⟨n', hp⟩, hb⟩
    rw [hbucket hp, Option.some.injEq] at hb
    rw [hp, hb]
  · refine ⟨[], hm.vacant he (.primary n) fun hu => hn (hu he), fun p => iff_of_false (by simp) ?_⟩
    rintro ⟨hp, hb⟩
    obtain ⟨-, n', hp⟩ := (hmem p).mp hp
    rw [hbucket hp, Option.some.injEq] at hb
    obtain ⟨k, -, hs⟩ := Option.map_eq_some_iff.mp hp
    have hu := s.assoc.uses_slot hash k
    rw [hs, hb] at hu
    exact hn (hu he)

/-- Where a key belongs during an expansion. -/
theorem slot_expanding (he : s.assoc.expanding = true) (k : List UInt8) : s.assoc.slot hash k =
    if s.assoc.expandBucket ≤ (hash k).toNat % hashsize (s.assoc.hashpower - 1) then
      .old ((hash k).toNat % hashsize (s.assoc.hashpower - 1))
    else .primary ((hash k).toNat % hashsize s.assoc.hashpower) := by
  simp only [Assoc.slot, he, Bool.true_and, decide_eq_true_eq]

/-! What moving the next bucket makes of the store `s`, where its chain `c` was moved in `s₁`. -/

section bucketMoved

variable {s₁ : Store} {c m : List Ptr}

theorem bucketMoved_keyAt (honly : MovedOnly s s₁ c) (q : Ptr) : s₁.bucketMoved.keyAt q = s.keyAt q :=
  same_keyAt honly.same.items Item.key (fun _ => rfl) q

theorem bucketMoved_hashpower (honly : MovedOnly s s₁ c) : s₁.bucketMoved.assoc.hashpower = s.assoc.hashpower := by
  refine (Assoc.setHead_hashpower ..).trans ?_
  rw [honly.assoc]

theorem bucketMoved_expandBucket (honly : MovedOnly s s₁ c) :
    s₁.bucketMoved.assoc.expandBucket = s.assoc.expandBucket + 1 := by
  refine congrArg (· + 1) ?_
  rw [honly.assoc]

/-- Of the old table only the bucket that was moved is written. -/
theorem bucketMoved_head_old (honly : MovedOnly s s₁ c) (n : Nat) :
    s₁.bucketMoved.assoc.head (.old n) = if n = s.assoc.expandBucket then none else s.assoc.head (.old n) := by
  refine (Assoc.head_setHead s₁.assoc none (.old s₁.assoc.expandBucket) (.old n)).trans ?_
  simp only [Slot.old.injEq]
  rw [honly.assoc]
  rfl

/-- Where an item belongs after the move: in the old table if its bucket is behind the one that was moved. -/
theorem bucketMoved_slotAt (honly : MovedOnly s s₁ c) (q : Ptr) :
    s₁.bucketMoved.slotAt hash q = (s.keyAt q).map fun k =>
      if s.assoc.expandBucket < (hash k).toNat % hashsize (s.assoc.hashpower - 1) then
        .old ((hash k).toNat % hashsize (s.assoc.hashpower - 1))
      else .primary ((hash k).toNat % hashsize s.assoc.hashpower) := by
  have hpower : s₁.assoc.hashpower = s.assoc.hashpower := by rw [honly.assoc]
  have hbucket : s₁.assoc.expandBucket = s.assoc.expandBucket := by rw [honly.assoc]
  rw [Store.slotAt, bucketMoved_keyAt honly]
  refine Option.map_congr fun k _ => ?_
  rw [slot_bucketMoved, hbucket, hpower]

/-- The larger table gets the items of the bucket, besides those that were moved before. -/
theorem bucketMoved_primary (honly : MovedOnly s s₁ c) (he : s.assoc.expanding = true)
    (hmem : ∀ p, p ∈ c ↔ p ∈ l ∧ s.slotAt hash p = some (.old s.assoc.expandBucket))
    (hmmem : ∀ p, p ∈ m ↔ p ∈ l ∧ ∃ n, s.slotAt hash p = some (.primary n)) (p : Ptr) (n : Nat) :
    p ∈ c.reverse ++ m ∧ s₁.bucketAt hash p = some n ↔ p ∈ l ∧ s₁.bucketMoved.slotAt hash p = some (.primary n) := by
  have hpower : s₁.assoc.hashpower = s.assoc.hashpower := by rw [honly.assoc]
  have hkp : s₁.keyAt p = s.keyAt p := bucketMoved_keyAt honly p
  rw [List.mem_append, List.mem_reverse, hmem, hmmem, ← and_or_left, and_assoc, bucketMoved_slotAt honly,
    Store.bucketAt, hkp, hpower, Store.slotAt]
  refine and_congr_right fun _ => ?_
  cases hk : s.keyAt p with
  | none => simp
  | some k =>
    simp only [Option.map_some, Option.some.injEq, slot_expanding he]
    by_cases hlt : s.assoc.expandBucket < (hash k).toNat % hashsize (s.assoc.hashpower - 1)
    · rw [if_pos hlt.le, if_pos hlt]
      simp only [Slot.old.injEq, reduceCtorEq, exists_false, or_false, iff_false, not_and]
      omega
    · rw [if_neg hlt]
      split
      · next hle =>
        simp only [Slot.old.injEq, Slot.primary.injEq, reduceCtorEq, exists_false, or_false, and_iff_right_iff_imp]
        omega
      · simp

/-- The buckets behind the one that was moved keep their items. -/
theorem bucketMoved_old (honly : MovedOnly s s₁ c) (he : s.assoc.expanding = true) {n : Nat}
    (hn : s.assoc.expandBucket < n)
    (p : Ptr) : s.slotAt hash p = some (.old n) ↔ s₁.bucketMoved.slotAt hash p = some (.old n) := by
  rw [bucketMoved_slotAt honly, Store.slotAt]
  cases hk : s.keyAt p with
  | none => simp
  | some k =>
    simp only [Option.map_some, Option.some.injEq, slot_expanding he]
    by_cases hlt : s.assoc.expandBucket < (hash k).toNat % hashsize (s.assoc.hashpower - 1)
    · rw [if_pos hlt.le, if_pos hlt]
    · rw [if_neg hlt]
      split
      · simp only [Slot.old.injEq, reduceCtorEq, iff_false]
        omega
      · simp

/-- The items after a bucket was moved: a key is in the larger table if its bucket was moved, and else in the old
one. -/
theorem bucketMoved_hashed (h : Hashed hash s l) (he : s.assoc.expanding = true)
    (hmem : ∀ p, p ∈ c ↔ p ∈ l ∧ s.slotAt hash p = some (.old s.assoc.expandBucket))
    (hmmem : ∀ p, p ∈ m ↔ p ∈ l ∧ ∃ n, s.slotAt hash p = some (.primary n)) (hmoved : Moved hash s₁ (c.reverse ++ m))
    (honly : MovedOnly s s₁ c) : Hashed hash s₁.bucketMoved l := by
  have hkeys := bucketMoved_keyAt honly
  refine ⟨h.nodup, fun q hq => (honly.same.items.get_none.ne).mpr (h.live q hq), fun b hb => ?_,
    fun p hp q hq hpq => ?_, ?_, ?_⟩
  · cases b with
    | primary n =>
      obtain ⟨d, hd, hdmem⟩ := hmoved n
      exact ⟨d, hd, fun p => (hdmem p).trans (bucketMoved_primary honly he hmem hmmem p n)⟩
    | old n =>
      have hn : s.assoc.expandBucket < n := by
        have hle := hb.2
        rw [bucketMoved_expandBucket honly] at hle
        exact hle
      obtain ⟨d, hd, hdmem⟩ := h.chains (.old n) ⟨he, hn.le⟩
      rw [bucketMoved_head_old honly, if_neg hn.ne']
      refine ⟨d, hd.congr fun q hq => honly.others q fun hqc => ?_, fun p => ?_⟩
      · -- the chain of another bucket
        have h1 := ((hdmem q).mp hq).2
        rw [((hmem q).mp hqc).2, Option.some.injEq, Slot.old.injEq] at h1
        exact hn.ne h1
      · rw [hdmem, bucketMoved_old honly he hn]
  · rw [hkeys, hkeys] at hpq
    exact h.keys p hp q hq hpq
  · have hitems : s₁.assoc.hashItems = s.assoc.hashItems := by rw [honly.assoc]
    exact ((Assoc.setHead_hashItems ..).trans hitems).trans h.hashItems
  · rw [bucketMoved_hashpower honly]
    exact h.power

/-- The progress of the expansion after a bucket was moved. -/
theorem bucketMoved_migrating (hm : Migrating s.assoc) (he : s.assoc.expanding = true)
    (hmem : ∀ p, p ∈ c ↔ p ∈ l ∧ s.slotAt hash p = some (.old s.assoc.expandBucket))
    (hmmem : ∀ p, p ∈ m ↔ p ∈ l ∧ ∃ n, s.slotAt hash p = some (.primary n)) (hmoved : Moved hash s₁ (c.reverse ++ m))
    (honly : MovedOnly s s₁ c) : Migrating s₁.bucketMoved.assoc where
  vacant he' b hb := by
    cases b with
    | primary n =>
      -- an item in the chain would be one that belongs to the bucket
      obtain ⟨d, hd, hdmem⟩ := hmoved n
      cases d with
      | nil => exact hd
      | cons p d =>
        obtain ⟨-, hs⟩ := (bucketMoved_primary honly he hmem hmmem p n).mp ((hdmem p).mp List.mem_cons_self)
        obtain ⟨k, -, hs⟩ := Option.map_eq_some_iff.mp hs
        have hu := s₁.bucketMoved.assoc.uses_slot hash k
        rw [hs] at hu
        exact absurd hu hb
    | old n =>
      have hle : n ≤ s.assoc.expandBucket := by
        by_contra hgt
        refine hb ⟨he', ?_⟩
        rw [bucketMoved_expandBucket honly]
        omega
      rw [bucketMoved_head_old honly]
      split
      · rfl
      · next hne =>
        refine hm.vacant he (.old n) fun hu => ?_
        have hle' := hu.2
        omega
  more he' := by
    have hmore := hm.more he
    have hne : s₁.assoc.expandBucket + 1 ≠ hashsize (s₁.assoc.hashpower - 1) := of_decide_eq_true he'
    have hpower : s₁.assoc.hashpower = s.assoc.hashpower := by rw [honly.assoc]
    have hbucket : s₁.assoc.expandBucket = s.assoc.expandBucket := by rw [honly.assoc]
    rw [hbucket, hpower] at hne
    rw [bucketMoved_hashpower honly, bucketMoved_expandBucket honly]
    omega

end bucketMoved

/-- What `do_assoc_move_next_bucket` does while an expansion goes on. -/
theorem doAssocMoveNextBucket_eq (h : Hashed hash s l) (hm : Migrating s.assoc) (he : s.assoc.expanding = true) :
    ∃ s₁ c, doAssocMoveNextBucket hash s = .ok s₁.bucketMoved ∧ MovedOnly s s₁ c ∧ Hashed hash s₁.bucketMoved l ∧
      Migrating s₁.bucketMoved.assoc := by
  obtain ⟨c, hc, hmem⟩ := h.chains (.old s.assoc.expandBucket) ⟨he, Nat.le_refl _⟩
  obtain ⟨m, hmoved, hmmem⟩ := moved_of_hashed h hm he
  have hcl : ∀ p ∈ c, p ∈ l := fun p hp => ((hmem p).mp hp).1
  have hdis : ∀ p ∈ c, p ∉ m := by
    intro p hp hpm
    obtain ⟨-, n, hs⟩ := (hmmem p).mp hpm
    rw [((hmem p).mp hp).2] at hs
    nomatch hs
  obtain ⟨s₁, hs₁, hmoved₁, honly⟩ :=
    moveChain_spec hc (fun p hp => h.live p (hcl p hp)) hdis hmoved (h.length_le hc.nodup hcl)
  have hh := bucketMoved_hashed h he hmem hmmem hmoved₁ honly
  have hm' := bucketMoved_migrating hm he hmem hmmem hmoved₁ honly
  have hstart : s.assoc.oldHashtable s.assoc.expandBucket = s.assoc.head (.old s.assoc.expandBucket) := rfl
  refine ⟨s₁, c, ?_, honly, hh, hm'⟩
  rw [doAssocMoveNextBucket, if_pos he, hstart, hs₁, ok_bind]
  rfl

/-- `do_assoc_move_next_bucket` keeps the items. -/
theorem doAssocMoveNextBucket_spec (h : Hashed hash s l) (hm : Migrating s.assoc) :
    ∃ s', doAssocMoveNextBucket hash s = .ok s' ∧ Hashed hash s' l ∧ Migrating s'.assoc ∧ SameButChain s s' := by
  by_cases he : s.assoc.expanding = true
  · obtain ⟨s₁, c, hs₁, honly, hh, hm'⟩ := doAssocMoveNextBucket_eq h hm he
    exact ⟨_, hs₁, hh, hm', honly.same.items, honly.same.lru, honly.same.stats, honly.same.oldestLive⟩
  · refine ⟨s, ?_, h, hm, ⟨.refl _ s, rfl, rfl, rfl⟩⟩
    rw [doAssocMoveNextBucket, if_neg he]
    rfl

/-- `assoc_expand` keeps the items, whether the larger table is granted or not. -/
theorem assocExpand_spec (h : Hashed hash s l) (he : s.assoc.expanding = false) (granted : Bool) :
    ∃ s', assocExpand hash s granted = .ok s' ∧ Hashed hash s' l ∧ Migrating s'.assoc ∧ SameButChain s s' := by
  unfold assocExpand
  dsimp only
  cases granted with
  | false =>
    refine ⟨_, rfl, ⟨h.nodup, h.live, fun b hb => ?_, h.keys, h.hashItems, h.power⟩, .of_not_expanding he,
      ⟨.refl _ s, rfl, rfl, rfl⟩⟩
    cases b with
    | primary n => exact h.chains (.primary n) hb
    | old n => exact absurd (he.symm.trans hb.1) Bool.false_ne_true
  | true =>
    obtain ⟨s', hs', hh, hm, hsame⟩ := doAssocMoveNextBucket_spec (expanded_hashed h he) (expanded_migrating s)
    exact ⟨s', hs', hh, hm, hsame.items, hsame.lru, hsame.stats, hsame.oldestLive⟩

/-- A table that is granted starts an expansion, which goes on unless the old table has one bucket only. -/
theorem assocExpand_grown {s' : Store} (h : Hashed hash s l) (he : s.assoc.expanding = false)
    (hs' : assocExpand hash s true = .ok s') :
    s'.assoc.hashpower = s.assoc.hashpower + 1 ∧ (s'.assoc.expanding = true ↔ hashsize s.assoc.hashpower ≠ 1) := by
  obtain ⟨s₁, c, hs₁, honly, -, -⟩ := doAssocMoveNextBucket_eq (expanded_hashed h he) (expanded_migrating s) rfl
  obtain rfl := Except.ok.inj (hs₁.symm.trans hs')
  have hpower : s₁.assoc.hashpower = s.assoc.hashpower + 1 := by
    rw [honly.assoc]
    rfl
  have hbucket : s₁.assoc.expandBucket = 0 := by
    rw [honly.assoc]
    rfl
  refine ⟨(Assoc.setHead_hashpower ..).trans hpower, ?_⟩
  simp only [Store.bucketMoved, hbucket, hpower, Nat.add_sub_cancel, Nat.zero_add, decide_eq_true_eq, ne_comm]

/-- What `assoc_insert` does. -/
theorem assocInsert_eq (hkey : s.keyAt p = some key) (granted : Bool) : assocInsert hash s p granted =
    if s.assoc.expanding = false ∧ hashsize s.assoc.hashpower * 3 / 2 < (s.assoc.hashItems + 1).toNat then
      assocExpand hash (s.insertHead hash p key) granted
    else .ok (s.insertHead hash p key) := by
  obtain ⟨x, hx, hxg, rfl⟩ := deref_keyAt hkey
  rw [assocInsert, hx, ok_bind]
  dsimp only
  rw [Store.write_ok (by simp [hxg]), ok_bind]
  refine if_congr ?_ rfl rfl
  simp [Assoc.setHead_expanding, Assoc.setHead_hashpower, Assoc.setHead_hashItems, Store.modify]

/-- The statics of `assoc.c` that an item put in front of its chain leaves. -/
theorem insertHead_assoc (hash : List UInt8 → UInt32) (s : Store) (p : Ptr) (key : List UInt8) :
    (s.insertHead hash p key).assoc.hashpower = s.assoc.hashpower ∧
      (s.insertHead hash p key).assoc.expanding = s.assoc.expanding :=
  ⟨Assoc.setHead_hashpower .., Assoc.setHead_expanding ..⟩

theorem assocInsert_spec (h : Hashed hash s l) (hp : p ∉ l) (hkey : s.keyAt p = some key)
    (hnew : ∀ q ∈ l, s.keyAt q ≠ some key) (granted : Bool) :
    ∃ s', assocInsert hash s p granted = .ok s' ∧ Hashed hash s' (p :: l) ∧ SameButChain s s' := by
  have hins := insertHead_hashed h hp hkey hnew
  have hsame := insertHead_sameButChain hash s p key
  rw [assocInsert_eq hkey]
  split
  · next hb =>
    obtain ⟨s', hs', hh, -, hsame'⟩ := assocExpand_spec hins ((insertHead_assoc hash s p key).2.trans hb.1) granted
    exact ⟨s', hs', hh, hsame.trans hsame'⟩
  · exact ⟨_, rfl, hins, hsame⟩

/-- An insertion for which no table is asked, or none granted, leaves the size of the table. -/
theorem assocInsert_kept {s' : Store} {granted : Bool} (hkey : s.keyAt p = some key)
    (hno : granted = true → s.assoc.expanding = false →
      (s.assoc.hashItems + 1).toNat ≤ hashsize s.assoc.hashpower * 3 / 2)
    (hs' : assocInsert hash s p granted = .ok s') :
    s'.assoc.hashpower = s.assoc.hashpower ∧ s'.assoc.expanding = s.assoc.expanding := by
  rw [assocInsert_eq hkey] at hs'
  split at hs'
  · next hb =>
    cases granted with
    | true => exact absurd (hno rfl hb.1) (Nat.not_le.mpr hb.2)
    | false =>
      obtain rfl := Except.ok.inj hs'
      exact insertHead_assoc hash s p key
  · obtain rfl := Except.ok.inj hs'
    exact insertHead_assoc hash s p key

/-- An insertion that goes beyond the load of the table starts an expansion. -/
theorem assocInsert_grown {s' : Store} (h : Hashed hash s l) (hp : p ∉ l) (hkey : s.keyAt p = some key)
    (hnew : ∀ q ∈ l, s.keyAt q ≠ some key) (he : s.assoc.expanding = false)
    (hload : hashsize s.assoc.hashpower * 3 / 2 < (s.assoc.hashItems + 1).toNat)
    (hs' : assocInsert hash s p true = .ok s') :
    s'.assoc.hashpower = s.assoc.hashpower + 1 ∧ (s'.assoc.expanding = true ↔ hashsize s.assoc.hashpower ≠ 1) := by
  obtain ⟨hpower, hexp⟩ := insertHead_assoc hash s p key
  rw [assocInsert_eq hkey, if_pos ⟨he, hload⟩] at hs'
  have hgrown := assocExpand_grown (insertHead_hashed h hp hkey hnew) (hexp.trans he) hs'
  rwa [hpower] at hgrown

/-- A bucket that keys belong to has another head. -/
theorem Migrating.setHead {t : Assoc} (h : Migrating t) {c : Slot} (hc : t.Uses c) (q : Option Ptr) :
    Migrating (t.setHead q c) where
  vacant he b hb := by
    rw [Assoc.setHead_expanding] at he
    rw [Assoc.uses_setHead] at hb
    have hbc : b ≠ c := by
      rintro rfl
      exact hb hc
    rw [Assoc.head_setHead, if_neg hbc]
    exact h.vacant he b hb
  more he := by
    rw [Assoc.setHead_expanding] at he
    rw [Assoc.setHead_hashpower, Assoc.setHead_expandBucket]
    exact h.more he

theorem assocInsert_migrating {s' : Store} {granted : Bool} (h : Hashed hash s l) (hm : Migrating s.assoc) (hp : p ∉ l)
    (hkey : s.keyAt p = some key) (hnew : ∀ q ∈ l, s.keyAt q ≠ some key) (hs' : assocInsert hash s p granted = .ok s') :
    Migrating s'.assoc := by
  rw [assocInsert_eq hkey] at hs'
  split at hs'
  · next hb =>
    have hexp := (insertHead_assoc hash s p key).2.trans hb.1
    obtain ⟨s₁, hs₁, -, hm₁, -⟩ := assocExpand_spec (insertHead_hashed h hp hkey hnew) hexp granted
    rw [hs₁] at hs'
    exact Except.ok.inj hs' ▸ hm₁
  · obtain rfl := Except.ok.inj hs'
    have hset := hm.setHead (s.assoc.uses_slot hash key) (some p)
    exact ⟨hset.vacant, hset.more⟩

/-! ## Deleting -/

/-- An item taken out of the chain of its bucket, where `before` is the item before it and `nxt` the one behind it. -/
def Store.unchain (s : Store) (p : Ptr) (before nxt : Option Ptr) (b : Slot) : Store :=
  let s := { s with assoc := { s.assoc with hashItems := s.assoc.hashItems - 1 } }
  let s := s.modify p fun y => { y with hNext := none }
  match before with
  | some q => s.modify q fun y => { y with hNext := nxt }
  | none => { s with assoc := s.assoc.setHead nxt b }

theorem unchain_sameButChain (s : Store) (p : Ptr) (before nxt : Option Ptr) (b : Slot) :
    SameButChain s (s.unchain p before nxt b) := by
  cases before with
  | none =>
    refine ⟨fun q => ?_, rfl, rfl, rfl⟩
    simp only [Store.unchain, Store.get_modify, Option.map_map]
    refine Option.map_congr fun x _ => ?_
    simp only [Function.comp_apply, Item.offChain]
    split <;> rfl
  | some r =>
    refine ⟨fun q => ?_, rfl, rfl, rfl⟩
    simp only [Store.unchain, Store.get_modify, Option.map_map]
    refine Option.map_congr fun x _ => ?_
    simp only [Function.comp_apply, Item.offChain]
    split <;> split <;> rfl

theorem unchain_hn {before nxt : Option Ptr} {b : Slot} {q : Ptr} (hq : s.heap.get q ≠ none) (hqp : q ≠ p) :
    (s.unchain p before nxt b).hn q = if before = some q then nxt else s.hn q := by
  obtain ⟨x, hx⟩ := Option.ne_none_iff_exists'.mp hq
  cases before with
  | none => simp [Store.unchain, Store.hn, Store.get_modify, hqp]
  | some r =>
    by_cases hr : q = r
    · subst hr
      simp [Store.unchain, Store.hn, Store.get_modify, hx]
    · simp [Store.unchain, Store.hn, Store.get_modify, hqp, hr, Ne.symm hr]

/-- The statics of `assoc.c` after a deletion. -/
theorem unchain_assoc (s : Store) (p : Ptr) (before nxt : Option Ptr) (b : Slot) : (s.unchain p before nxt b).assoc =
    { (if before = none then s.assoc.setHead nxt b else s.assoc) with hashItems := s.assoc.hashItems - 1 } := by
  cases before with
  | none => cases b <;> rfl
  | some r => rfl

theorem mem_middle {α : Type} {c d : List α} {p q : α} (h : q ∈ c ++ d) : q ∈ c ++ p :: d := by
  rcases List.mem_append.mp h with h | h <;> simp [h]

theorem mem_of_mem_middle {α : Type} {c d : List α} {p q : α} (h : q ∈ c ++ p :: d) (hq : q ≠ p) : q ∈ c ++ d := by
  rw [List.mem_append, List.mem_cons] at h
  rcases h with h | h | h
  · exact List.mem_append_left d h
  · exact absurd h hq
  · exact List.mem_append_right c h

/-- A deletion leaves where the keys belong. -/
theorem unchain_slotAt (s : Store) (p : Ptr) (before nxt : Option Ptr) (b : Slot) (q : Ptr) :
    (s.unchain p before nxt b).slotAt hash q = s.slotAt hash q := by
  have hkeys := same_keyAt (unchain_sameButChain s p before nxt b).items Item.key (fun _ => rfl) q
  rw [Store.slotAt, Store.slotAt, hkeys]
  refine Option.map_congr fun k _ => ?_
  rw [unchain_assoc]
  split
  · exact Assoc.slot_setHead hash s.assoc _ _ k
  · rfl

theorem unchain_uses (s : Store) (p : Ptr) (before nxt : Option Ptr) (b b' : Slot) :
    (s.unchain p before nxt b).assoc.Uses b' ↔ s.assoc.Uses b' := by
  rw [unchain_assoc]
  split
  · exact Assoc.uses_setHead s.assoc _ _ b'
  · rfl

/-- A bucket's chain starts elsewhere only where the item was the first one. -/
theorem unchain_head (s : Store) (p : Ptr) (c : List Ptr) (nxt : Option Ptr) (b b' : Slot) :
    (s.unchain p c.getLast? nxt b).assoc.head b' = if c = [] ∧ b' = b then nxt else s.assoc.head b' := by
  rw [unchain_assoc]
  by_cases hnil : c = []
  · rw [if_pos (by rw [hnil]; rfl)]
    refine (Assoc.head_setHead s.assoc _ _ b').trans ?_
    simp [hnil]
  · rw [if_neg (by rwa [List.getLast?_eq_none_iff])]
    simp only [hnil, false_and, if_false]
    rfl

/-! The chains after the item `p` was taken out of the chain of its bucket, where `c` is before it and `d` behind it. -/

section unchain

variable {c d : List Ptr}

/-- The chain of its bucket. -/
theorem unchain_chain (h : Hashed hash s (a ++ p :: b))
    (hc : Chain s.hn (s.assoc.head (s.assoc.slot hash key)) (c ++ p :: d))
    (hmem : ∀ q, q ∈ c ++ p :: d ↔ q ∈ a ++ p :: b ∧ s.slotAt hash q = some (s.assoc.slot hash key)) :
    Chain (s.unchain p c.getLast? (s.hn p) (s.assoc.slot hash key)).hn
        ((s.unchain p c.getLast? (s.hn p) (s.assoc.slot hash key)).assoc.head (s.assoc.slot hash key)) (c ++ d) ∧
      ∀ q, q ∈ c ++ d ↔ q ∈ a ++ b ∧ s.slotAt hash q = some (s.assoc.slot hash key) := by
  have hne : ∀ q ∈ c ++ d, q ≠ p := fun q hq he => hc.not_mem (he ▸ hq)
  refine ⟨?_, fun q => ⟨fun hq => ?_, fun hq => ?_⟩⟩
  · rw [unchain_head]
    simp only [and_true]
    refine hc.remove fun q hq => ?_
    exact unchain_hn (h.live q ((hmem q).mp (mem_middle hq)).1) (hne q hq)
  · obtain ⟨hql, hqs⟩ := (hmem q).mp (mem_middle hq)
    exact ⟨mem_of_mem_middle hql (hne q hq), hqs⟩
  · exact mem_of_mem_middle ((hmem q).mpr ⟨mem_middle hq.1, hq.2⟩) fun he => h.not_mem (he ▸ hq.1)

/-- The chain of another bucket has neither the item nor the one before it. -/
theorem unchain_other (h : Hashed hash s (a ++ p :: b))
    (hmem : ∀ q, q ∈ c ++ p :: d ↔ q ∈ a ++ p :: b ∧ s.slotAt hash q = some (s.assoc.slot hash key)) {b' : Slot}
    (hb : b' ≠ s.assoc.slot hash key) {e : List Ptr} (he : Chain s.hn (s.assoc.head b') e)
    (hemem : ∀ q, q ∈ e ↔ q ∈ a ++ p :: b ∧ s.slotAt hash q = some b') :
    Chain (s.unchain p c.getLast? (s.hn p) (s.assoc.slot hash key)).hn
        ((s.unchain p c.getLast? (s.hn p) (s.assoc.slot hash key)).assoc.head b') e ∧
      ∀ q, q ∈ e ↔ q ∈ a ++ b ∧ s.slotAt hash q = some b' := by
  have hother : ∀ q ∈ e, q ∉ c ++ p :: d := by
    intro q hq hqc
    have hqs := ((hemem q).mp hq).2
    rw [((hmem q).mp hqc).2] at hqs
    exact hb (Option.some.inj hqs).symm
  have hne : ∀ q ∈ e, q ≠ p := fun q hq hp => hother q hq (by simp [hp])
  refine ⟨?_, fun q => ⟨fun hq => ?_, fun hq => (hemem q).mpr ⟨mem_middle hq.1, hq.2⟩⟩⟩
  · rw [unchain_head, if_neg fun hcb => hb hcb.2]
    refine he.congr fun q hq => ?_
    rw [unchain_hn (h.live q ((hemem q).mp hq).1) (hne q hq)]
    exact if_neg fun hl => hother q hq (List.mem_append_left _ (List.mem_of_getLast? hl))
  · obtain ⟨hql, hqs⟩ := (hemem q).mp hq
    exact ⟨mem_of_mem_middle hql (hne q hq), hqs⟩

theorem unchain_hashed (h : Hashed hash s (a ++ p :: b))
    (hc : Chain s.hn (s.assoc.head (s.assoc.slot hash key)) (c ++ p :: d))
    (hmem : ∀ q, q ∈ c ++ p :: d ↔ q ∈ a ++ p :: b ∧ s.slotAt hash q = some (s.assoc.slot hash key)) :
    Hashed hash (s.unchain p c.getLast? (s.hn p) (s.assoc.slot hash key)) (a ++ b) := by
  have hsame := unchain_sameButChain s p c.getLast? (s.hn p) (s.assoc.slot hash key)
  have hassoc := unchain_assoc s p c.getLast? (s.hn p) (s.assoc.slot hash key)
  have hkeys := same_keyAt hsame.items Item.key fun _ => rfl
  refine ⟨h.nodup.sublist (by simp), fun q hq => (hsame.items.get_none.ne).mpr (h.live q (mem_middle hq)),
    fun b' hb' => ?_, fun q hq r hr he => ?_, ?_, ?_⟩
  · simp only [unchain_slotAt]
    by_cases hb : b' = s.assoc.slot hash key
    · subst hb
      exact ⟨c ++ d, unchain_chain h hc hmem⟩
    · obtain ⟨e, he, hemem⟩ := h.chains b' ((unchain_uses ..).mp hb')
      exact ⟨e, unchain_other h hmem hb he hemem⟩
  · rw [hkeys, hkeys] at he
    exact h.keys q (mem_middle hq) r (mem_middle hr) he
  · have hitems := h.hashItems
    rw [List.length_append, List.length_cons, ← Nat.add_assoc, ← List.length_append, UInt32.ofNat_add] at hitems
    rw [hassoc, hitems]
    exact UInt32.add_sub_cancel _ _
  · rw [hassoc]
    dsimp only
    split
    · exact (Assoc.setHead_hashpower ..).symm ▸ h.power
    · exact h.power

end unchain

/-- What `assoc_delete` does. -/
theorem assocDelete_eq (h : Hashed hash s l) (hp : p ∈ l) (hkey : s.keyAt p = some key) :
    ∃ c d, Chain s.hn (s.assoc.head (s.assoc.slot hash key)) (c ++ p :: d) ∧
      (∀ q, q ∈ c ++ p :: d ↔ q ∈ l ∧ s.slotAt hash q = some (s.assoc.slot hash key)) ∧
      assocDelete hash s key = .ok (s.unchain p c.getLast? (s.hn p) (s.assoc.slot hash key)) := by
  obtain ⟨c, d, hc, hmem, hbefore⟩ := hashitemBefore_present h hp hkey
  refine ⟨c, d, hc, hmem, ?_⟩
  obtain ⟨x, hx, hxg, -⟩ := deref_keyAt hkey
  have hnext : s.hn p = x.hNext := by simp [Store.hn, hxg]
  rw [assocDelete, hbefore, ok_bind]
  dsimp only
  rw [hx, ok_bind, Store.write_ok (by simp [hxg]), ok_bind, hnext]
  cases hl : c.getLast? with
  | none => rfl
  | some q =>
    have hq := h.live q ((hmem q).mp (List.mem_append_left _ (List.mem_of_getLast? hl))).1
    refine Store.write_ok ?_ _
    rw [Store.get_modify, ne_eq, Option.map_eq_none_iff]
    exact hq

theorem assocDelete_spec (h : Hashed hash s (a ++ p :: b)) (hkey : s.keyAt p = some key) :
    ∃ s', assocDelete hash s key = .ok s' ∧ Hashed hash s' (a ++ b) ∧ SameButChain s s' := by
  obtain ⟨c, d, hc, hmem, hs'⟩ := assocDelete_eq h (by simp) hkey
  exact ⟨_, hs', unchain_hashed h hc hmem, unchain_sameButChain ..⟩

/-- A deletion leaves the size of the table. -/
theorem assocDelete_kept {s' : Store} (h : Hashed hash s l) (hp : p ∈ l) (hkey : s.keyAt p = some key)
    (hs' : assocDelete hash s key = .ok s') :
    s'.assoc.hashpower = s.assoc.hashpower ∧ s'.assoc.expanding = s.assoc.expanding := by
  obtain ⟨c, d, -, -, hdel⟩ := assocDelete_eq h hp hkey
  obtain rfl := Except.ok.inj (hdel.symm.trans hs')
  rw [unchain_assoc]
  split
  · exact ⟨Assoc.setHead_hashpower .., Assoc.setHead_expanding ..⟩
  · exact ⟨rfl, rfl⟩

theorem assocDelete_migrating {s' : Store} (h : Hashed hash s l) (hm : Migrating s.assoc) (hp : p ∈ l)
    (hkey : s.keyAt p = some key) (hs' : assocDelete hash s key = .ok s') : Migrating s'.assoc := by
  obtain ⟨c, d, -, -, hdel⟩ := assocDelete_eq h hp hkey
  obtain rfl := Except.ok.inj (hdel.symm.trans hs')
  rw [unchain_assoc]
  split
  · have hset := hm.setHead (s.assoc.uses_slot hash key) (s.hn p)
    exact ⟨hset.vacant, hset.more⟩
  · exact ⟨hm.vacant, hm.more⟩

end ZeroServ.Mc
