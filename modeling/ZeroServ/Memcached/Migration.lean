import ZeroServ.Lib.Run
import ZeroServ.Memcached.Invariant

/-!
# The hash table while it grows

The calls of `assoc.c` in any order: insertions that may start an expansion, whether the larger table is granted or
not, deletions, and the steps that move a bucket. `Table.calls_sound`: after every call each item is in one chain of
one of the tables, a lookup finds precisely the item with the key, and no call fails. `hash_items` counts the items
as an `unsigned int` does, so that it is their number as long as that fits (`hashItems_wraps`).
-/

namespace ZeroServ.Mc

open Run Decimal

/-- The hash table, and what the calls so far have put into it and not taken out: keys and items, the latest first. -/
structure Table where
  store : Store
  items : List (List UInt8 × Ptr)

/-- An item in memory. -/
def Store.hold (s : Store) (it : Ptr) (x : Item) : Store := { s with heap := s.heap.alloc it x }

/-- A bucket of a table that is there: of the larger one always, of the old one during an expansion. -/
def Assoc.Has (a : Assoc) : Slot → Prop
  | .primary n => n < hashsize a.hashpower
  | .old n => a.expanding = true ∧ n < hashsize (a.hashpower - 1)

/-- The item is in the chain of a bucket. -/
def Store.InChain (s : Store) (b : Slot) (p : Ptr) : Prop := ∃ c, Chain s.hn (s.assoc.head b) c ∧ p ∈ c

/-- What the pointer holds that `_hashitem_before` gives the address of: the one in the item `before`, or else in the
bucket of the key. -/
def Store.pointer (s : Store) (hash : List UInt8 → UInt32) (key : List UInt8) (before : Option Ptr) : Option Ptr :=
  Chain.follow s.hn (s.assoc.head (s.assoc.slot hash key)) before

namespace Table

/-- The calls of `assoc.c`. -/
inductive Call where
  /-- an item that lies in memory at an address of its own -/
  | insert (it : Ptr) (x : Item) (granted : Bool)
  | delete (key : List UInt8)
  | move

/-- An item with a key and no data. -/
def sample (key : List UInt8) : Item where
  next := none
  prev := none
  hNext := none
  time := 0
  exptime := 0
  refcount := 1
  linked := false
  deleted := false
  key := key
  suffix := []
  data := [13, 10]

/-- The table at first (`assoc_init`). -/
def init : Table := { store := Store.init, items := [] }

/-- What is inserted is neither in the table nor has a key that is; what is deleted is a key that is. -/
def Allows (t : Table) : Call → Prop
  | .insert it x _ => ∀ e ∈ t.items, e.1 ≠ x.key ∧ e.2 ≠ it
  | .delete key => ∃ e ∈ t.items, e.1 = key
  | .move => True

instance (t : Table) (c : Call) : Decidable (t.Allows c) := by
  cases c <;> unfold Allows <;> infer_instance

section run

variable (hash : List UInt8 → UInt32)

/-- One call. -/
def call (t : Table) : Call → Except Fault Table
  | .insert it x granted => do
    let s ← assocInsert hash (t.store.hold it x) it granted
    pure { store := s, items := (x.key, it) :: t.items }
  | .delete key => do
    let s ← assocDelete hash t.store key
    pure { store := s, items := t.items.filter (·.1 ≠ key) }
  | .move => do
    let s ← doAssocMoveNextBucket hash t.store
    pure { t with store := s }

/-- A call of a run, in which the table does not grow beyond what the `int` of a bucket holds. -/
def step (t : Table) (c : Call) : Option Table :=
  if t.Allows c then
    match t.call hash c with
    | .ok t' => if t'.store.assoc.hashpower < 31 then some t' else none
    | .error _ => none
  else none

end run

/-! ## Where items are and what lookups find -/

section sound

variable (hash : List UInt8 → UInt32)

/-- The table is sound: the items recorded are in memory under their keys, each in one chain of one of the tables;
the buckets that were moved are empty; a lookup gives the item recorded under the key, and the pointer to it, if
there is one; no call fails. -/
structure Sound (t : Table) : Prop where
  keyed : ∀ e ∈ t.items, t.store.keyAt e.2 = some e.1
  chains : ∀ b, t.store.assoc.Has b → ∃ c, Chain t.store.hn (t.store.assoc.head b) c ∧ ∀ p ∈ c, p ∈ t.items.map Prod.snd
  placed : ∀ p ∈ t.items.map Prod.snd, ∃! b, t.store.assoc.Has b ∧ t.store.InChain b p
  moved : t.store.assoc.expanding = true → ∀ n < t.store.assoc.expandBucket, t.store.assoc.oldHashtable n = none
  hashItems : t.store.assoc.hashItems = UInt32.ofNat t.items.length
  find : ∀ key, assocFind hash t.store key = .ok (t.items.lookup key)
  before : ∀ key, ∃ pos, hashitemBefore hash t.store key = .ok (pos, t.items.lookup key) ∧
    t.store.pointer hash key pos = t.items.lookup key
  answers : ∀ c, t.Allows c → ∃ t', t.call hash c = .ok t'

/-- The invariant: the table holds the items, and what is recorded of them is so. -/
structure Inv (t : Table) : Prop where
  hashed : Hashed hash t.store (t.items.map Prod.snd)
  migrating : Migrating t.store.assoc
  keyed : ∀ e ∈ t.items, t.store.keyAt e.2 = some e.1

end sound

variable {hash : List UInt8 → UInt32} {t t' : Table} {key : List UInt8} {p : Ptr}

theorem init_inv : init.Inv hash where
  hashed :=
    { nodup := List.nodup_nil
      live := by simp [init]
      chains := by
        intro b _
        refine ⟨[], ?_, by simp [init]⟩
        cases b <;> rfl
      keys := by simp [init]
      hashItems := rfl
      power := by decide }
  migrating := .of_not_expanding rfl
  keyed := by simp [init]

/-- What a lookup in the record gives is recorded. -/
theorem mem_of_lookup {l : List (List UInt8 × Ptr)} (h : l.lookup key = some p) : (key, p) ∈ l := by
  obtain ⟨a, b, rfl, -⟩ := List.lookup_eq_some_iff.mp h
  simp

/-- Nothing is recorded under a key that no item has. -/
theorem Inv.lookup_eq_none (h : t.Inv hash) (hl : t.items.lookup key = none) :
    ∀ q ∈ t.items.map Prod.snd, t.store.keyAt q ≠ some key := by
  intro q hq hk
  obtain ⟨e, he, rfl⟩ := List.mem_map.mp hq
  rw [h.keyed e he, Option.some.injEq] at hk
  have hne := List.lookup_eq_none_iff.mp hl e he
  rw [hk] at hne
  simp at hne

/-! ## One call -/

/-- An item laid into memory that is none of the table's. -/
theorem Inv.hold (h : t.Inv hash) {it : Ptr} (x : Item) (hnew : ∀ e ∈ t.items, e.2 ≠ it) :
    Inv hash { t with store := t.store.hold it x } := by
  have hother : ∀ q ∈ t.items.map Prod.snd, (t.store.hold it x).heap.get q = t.store.heap.get q := by
    intro q hq
    obtain ⟨e, he, rfl⟩ := List.mem_map.mp hq
    exact Heap.get_alloc_of_ne (hnew e he) x
  refine ⟨h.hashed.congr_on rfl hother, h.migrating, fun e he => ?_⟩
  have hk := h.keyed e he
  rwa [Store.keyAt, ← hother e.2 (List.mem_map_of_mem he)] at hk

theorem Inv.insert (h : t.Inv hash) {it : Ptr} {x : Item} {granted : Bool} (ha : t.Allows (.insert it x granted)) :
    ∃ t', t.call hash (.insert it x granted) = .ok t' ∧ t'.Inv hash := by
  have hold := h.hold x fun e he => (ha e he).2
  have hkey : (t.store.hold it x).keyAt it = some x.key := by
    rw [Store.keyAt, Store.hold, Heap.get_alloc_self]
    rfl
  have hit : it ∉ t.items.map Prod.snd := by
    rw [List.mem_map]
    rintro ⟨e, he, rfl⟩
    exact (ha e he).2 rfl
  have hnew : ∀ q ∈ t.items.map Prod.snd, (t.store.hold it x).keyAt q ≠ some x.key := by
    intro q hq hk
    obtain ⟨e, he, rfl⟩ := List.mem_map.mp hq
    rw [hold.keyed e he, Option.some.injEq] at hk
    exact (ha e he).1 hk
  obtain ⟨s', hs', hh, hsame⟩ := assocInsert_spec hold.hashed hit hkey hnew granted
  have hkeys : ∀ q, s'.keyAt q = (t.store.hold it x).keyAt q := same_keyAt hsame.items Item.key fun _ => rfl
  refine ⟨{ store := s', items := (x.key, it) :: t.items }, ?_, hh, ?_, fun e he => ?_⟩
  · simp only [call, hs', ok_bind]
    rfl
  · exact assocInsert_migrating hold.hashed hold.migrating hit hkey hnew hs'
  · dsimp only
    rw [hkeys]
    rcases List.mem_cons.mp he with rfl | he
    · exact hkey
    · exact hold.keyed e he

/-- One item among the others. -/
theorem Inv.hashed_middle (h : t.Inv hash) {a b : List (List UInt8 × Ptr)} {e : List UInt8 × Ptr}
    (hitems : t.items = a ++ e :: b) :
    Hashed hash t.store (a.map Prod.snd ++ e.2 :: b.map Prod.snd) := by
  have hh := h.hashed
  rwa [hitems, List.map_append, List.map_cons] at hh

/-- Taking a key out of the record takes out its item. -/
theorem Inv.filter_eq (h : t.Inv hash) {a b : List (List UInt8 × Ptr)} {e : List UInt8 × Ptr}
    (hitems : t.items = a ++ e :: b) :
    t.items.filter (·.1 ≠ e.1) = a ++ b := by
  have hnot := (h.hashed_middle hitems).not_mem
  rw [← List.map_append] at hnot
  have hother : ∀ f ∈ a ++ b, f.1 ≠ e.1 := by
    intro f hf hfe
    have hfm : f ∈ t.items := by
      rw [hitems]
      exact mem_middle hf
    have hem : e ∈ t.items := by simp [hitems]
    have heq := h.hashed.keys f.2 (List.mem_map_of_mem hfm) e.2 (List.mem_map_of_mem hem)
      (by rw [h.keyed f hfm, h.keyed e hem, hfe])
    exact hnot (heq ▸ List.mem_map_of_mem hf)
  have hall : ∀ l : List (List UInt8 × Ptr), (∀ f ∈ l, f ∈ a ++ b) → l.filter (·.1 ≠ e.1) = l := by
    intro l hl
    rw [List.filter_eq_self]
    intro f hf
    simpa using hother f (hl f hf)
  rw [hitems, List.filter_append, List.filter_cons_of_neg (by simp), hall a fun f hf => List.mem_append_left b hf,
    hall b fun f hf => List.mem_append_right a hf]

theorem Inv.delete (h : t.Inv hash) (ha : t.Allows (.delete key)) :
    ∃ t', t.call hash (.delete key) = .ok t' ∧ t'.Inv hash := by
  obtain ⟨e, he, rfl⟩ := ha
  obtain ⟨a, b, hitems⟩ := List.append_of_mem he
  have hfilter := h.filter_eq hitems
  obtain ⟨s', hs', hh, hsame⟩ := assocDelete_spec (h.hashed_middle hitems) (h.keyed e he)
  have hkeys : ∀ q, s'.keyAt q = t.store.keyAt q := same_keyAt hsame.items Item.key fun _ => rfl
  refine ⟨{ store := s', items := a ++ b }, ?_, ?_, ?_, fun f hf => ?_⟩
  · simp only [call, hs', ok_bind, hfilter]
    rfl
  · rwa [List.map_append]
  · exact assocDelete_migrating h.hashed h.migrating (List.mem_map_of_mem he) (h.keyed e he) hs'
  · rw [hkeys]
    refine h.keyed f ?_
    rw [hitems]
    exact mem_middle hf

theorem Inv.move (h : t.Inv hash) : ∃ t', t.call hash .move = .ok t' ∧ t'.Inv hash := by
  obtain ⟨s', hs', hh, hm, hsame⟩ := doAssocMoveNextBucket_spec h.hashed h.migrating
  have hkeys : ∀ q, s'.keyAt q = t.store.keyAt q := same_keyAt hsame.items Item.key fun _ => rfl
  refine ⟨{ t with store := s' }, ?_, hh, hm, fun e he => (hkeys e.2).trans (h.keyed e he)⟩
  simp only [call, hs', ok_bind]
  rfl

/-- No call fails, and every call keeps the invariant. -/
theorem Inv.call (h : t.Inv hash) {c : Call} (ha : t.Allows c) : ∃ t', t.call hash c = .ok t' ∧ t'.Inv hash := by
  cases c with
  | insert it x granted => exact h.insert ha
  | delete key => exact h.delete ha
  | move => exact h.move

theorem step_inv {c : Call} (h : t.Inv hash) (hs : t.step hash c = some t') : t'.Inv hash := by
  unfold step at hs
  split at hs
  · next ha =>
    obtain ⟨t₁, ht₁, hinv⟩ := h.call ha
    rw [ht₁] at hs
    dsimp only at hs
    split at hs
    · exact Option.some.inj hs ▸ hinv
    · nomatch hs
  · nomatch hs

/-! ## From the invariant -/

/-- The pointer that leads to the item with a key. -/
theorem Inv.before (h : t.Inv hash) (key : List UInt8) :
    ∃ pos, hashitemBefore hash t.store key = .ok (pos, t.items.lookup key) ∧
    t.store.pointer hash key pos = t.items.lookup key := by
  cases hl : t.items.lookup key with
  | none =>
    obtain ⟨c, hc, hb⟩ := hashitemBefore_absent h.hashed (h.lookup_eq_none hl)
    rw [← List.append_nil c] at hc
    exact ⟨_, hb, hc.head?_rest⟩
  | some p =>
    have hmem := mem_of_lookup hl
    obtain ⟨a, b, hc, -, hb⟩ := hashitemBefore_present h.hashed (List.mem_map_of_mem hmem) (h.keyed _ hmem)
    exact ⟨_, hb, hc.head?_rest⟩

/-- The bucket of a key is one of the tables. -/
theorem has_slot (hash : List UInt8 → UInt32) (a : Assoc) (key : List UInt8) : a.Has (a.slot hash key) := by
  unfold Assoc.slot
  dsimp only
  split
  · next h =>
    rw [Bool.and_eq_true] at h
    exact ⟨h.1, Nat.mod_lt _ (Nat.two_pow_pos _)⟩
  · exact Nat.mod_lt _ (Nat.two_pow_pos _)

/-- The chain of a bucket has the items that belong to it: none, where no key does. -/
theorem Inv.chain (h : t.Inv hash) {b : Slot} (hb : t.store.assoc.Has b) :
    ∃ c, Chain t.store.hn (t.store.assoc.head b) c ∧ ∀ p, p ∈ c ↔
      p ∈ t.items.map Prod.snd ∧ t.store.slotAt hash p = some b := by
  by_cases hu : t.store.assoc.Uses b
  · exact h.hashed.chains b hu
  · have he : t.store.assoc.expanding = true := by
      cases b with
      | primary n =>
        by_contra hno
        exact hu fun he => absurd he hno
      | old n => exact hb.1
    refine ⟨[], h.migrating.vacant he b hu, fun p => iff_of_false (by simp) ?_⟩
    rintro ⟨-, hp⟩
    obtain ⟨k, -, rfl⟩ := Option.map_eq_some_iff.mp hp
    exact hu (t.store.assoc.uses_slot hash k)

theorem Inv.placed (h : t.Inv hash) (hp : p ∈ t.items.map Prod.snd) :
    ∃! b, t.store.assoc.Has b ∧ t.store.InChain b p := by
  obtain ⟨e, he, rfl⟩ := List.mem_map.mp hp
  have hslot : t.store.slotAt hash e.2 = some (t.store.assoc.slot hash e.1) := by
    rw [Store.slotAt, h.keyed e he]
    rfl
  refine ⟨t.store.assoc.slot hash e.1, ⟨has_slot hash _ _, ?_⟩, ?_⟩
  · obtain ⟨c, hc, hmem⟩ := h.chain (has_slot hash t.store.assoc e.1)
    exact ⟨c, hc, (hmem _).mpr ⟨hp, hslot⟩⟩
  · rintro b ⟨hb, c, hc, hpc⟩
    obtain ⟨d, hd, hmem⟩ := h.chain hb
    rw [hc.unique hd, hmem, hslot, Option.some.injEq] at hpc
    exact hpc.2.symm

theorem Inv.sound (h : t.Inv hash) : t.Sound hash where
  keyed := h.keyed
  chains b hb := by
    obtain ⟨c, hc, hmem⟩ := h.chain hb
    exact ⟨c, hc, fun p hp => ((hmem p).mp hp).1⟩
  placed _ := h.placed
  moved he n hn := h.migrating.vacant he (.old n) fun hu => absurd hu.2 (Nat.not_le.mpr hn)
  hashItems := by rw [h.hashed.hashItems, List.length_map]
  find key := by
    obtain ⟨pos, hpos, -⟩ := h.before key
    rw [assocFind, hpos]
    rfl
  before := h.before
  answers _ ha := by
    obtain ⟨t', ht', -⟩ := h.call ha
    exact ⟨t', ht'⟩

/-- After any calls, in any order, the table is sound. -/
theorem calls_sound (hash : List UInt8 → UInt32) (cs : List Call) : AllStates (step hash) (Sound hash) init cs :=
  (AllStates.of_step init_inv (fun _ _ _ h hs => step_inv h hs) cs).mono fun _ h => h.sound

/-! ## `hash_items` -/

/-- Any number of items may be put into a table that does not grow. -/
theorem fill (hash : List UInt8 → UInt32) (n : Nat) : ∃ cs t, exec (step hash) init cs = some t ∧ t.Inv hash ∧
    t.store.assoc.hashpower = 16 ∧ t.items.length = n ∧ ∀ e ∈ t.items, e.1 = natText e.2 ∧ e.2 < n := by
  induction n with
  | zero => exact ⟨[], init, rfl, init_inv, rfl, rfl, by simp [init]⟩
  | succ n ih =>
    obtain ⟨cs, t, hr, hinv, hpower, hlen, hitems⟩ := ih
    have ha : t.Allows (.insert n (sample (natText n)) false) := by
      intro e he
      obtain ⟨hkey, hlt⟩ := hitems e he
      refine ⟨fun h => ?_, hlt.ne⟩
      rw [hkey] at h
      have hn := congrArg value h
      rw [value_natText, sample, value_natText] at hn
      exact hlt.ne hn
    obtain ⟨t', ht', hinv'⟩ := hinv.insert ha
    have hrec : t'.items = (natText n, n) :: t.items ∧ t'.store.assoc.hashpower = 16 := by
      simp only [call] at ht'
      cases hs' : assocInsert hash (t.store.hold n (sample (natText n))) n false with
      | error f =>
        rw [hs'] at ht'
        cases ht'
      | ok s' =>
        rw [hs', ok_bind] at ht'
        obtain rfl := Except.ok.inj ht'
        have hkey : (t.store.hold n (sample (natText n))).keyAt n = some (natText n) := by
          rw [Store.keyAt, Store.hold, Heap.get_alloc_self]
          rfl
        exact ⟨rfl, (assocInsert_kept hkey (by simp) hs').1.trans hpower⟩
    have hstep : t.step hash (.insert n (sample (natText n)) false) = some t' := by
      rw [step, if_pos ha, ht']
      exact if_pos (by rw [hrec.2]; decide)
    refine ⟨cs ++ [.insert n (sample (natText n)) false], t', ?_, hinv', hrec.2, ?_, fun e he => ?_⟩
    · rw [exec_append, hr, Option.bind_some, exec_cons, hstep, Option.bind_some, exec_nil]
    · rw [hrec.1, List.length_cons, hlen]
    · rw [hrec.1] at he
      rcases List.mem_cons.mp he with rfl | he
      · exact ⟨rfl, Nat.lt_succ_self n⟩
      · obtain ⟨hkey, hlt⟩ := hitems e he
        exact ⟨hkey, Nat.lt_succ_of_lt hlt⟩

/-- `hash_items` is not the number of items of every table: with 2³² of them, for which no larger table was granted,
it is zero. -/
theorem hashItems_wraps : ¬∀ (hash : List UInt8 → UInt32) (cs : List Call),
    AllStates (step hash) (fun t => t.store.assoc.hashItems.toNat = t.items.length) init cs := by
  intro h
  obtain ⟨cs, t, hr, hinv, -, hlen, -⟩ := fill (fun _ => 0) (2 ^ 32)
  have hlast := (h (fun _ => 0) cs).last hr
  rw [hinv.sound.hashItems, hlen, UInt32.toNat_ofNat'] at hlast
  norm_num at hlast

end Table
end ZeroServ.Mc
