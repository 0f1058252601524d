import Mathlib.Data.Nat.Bitwise
import Mathlib.Logic.Function.Basic
import ZeroServ.Lib.Turning

/-!
# The hash table of `uthash.h`

`HASH_ADD` puts an entry in front of the chain of its bucket, whether or not there is an equal key, and where the
chain is long it doubles the number of buckets (`HASH_EXPAND_BUCKETS`). That walks the chains from their heads and
puts each entry in front of a new chain, so that the entries of a key, which are all in one bucket, come to stand in
the opposite order. `find_made_iff` says which of them `HASH_FIND` returns, where nothing is deleted.
-/

namespace ZeroServ.UtHash

open Turning

/-! ## `HASH_JEN` -/

/-- The variables of `HASH_JEN`. -/
structure Jen where
  i : UInt32
  j : UInt32
  hashv : UInt32

/-- `HASH_JEN_MIX` -/
def Jen.mix : Jen → Jen
  | ⟨a, b, c⟩ =>
    let a := (a - b - c) ^^^ (c >>> 13)
    let b := (b - c - a) ^^^ (a <<< 8)
    let c := (c - a - b) ^^^ (b >>> 13)
    let a := (a - b - c) ^^^ (c >>> 12)
    let b := (b - c - a) ^^^ (a <<< 16)
    let c := (c - a - b) ^^^ (b >>> 5)
    let a := (a - b - c) ^^^ (c >>> 3)
    let b := (b - c - a) ^^^ (a <<< 10)
    let c := (c - a - b) ^^^ (b >>> 15)
    ⟨a, b, c⟩

/-- A byte of the key, moved to a place of a word; behind the key it adds nothing. -/
def keyByte (key : List UInt8) (n : Nat) (shift : UInt32) : UInt32 := (key.getD n 0).toUInt32 <<< shift

/-- Four bytes of the key. -/
def keyWord (key : List UInt8) (n : Nat) : UInt32 :=
  keyByte key n 0 + keyByte key (n + 1) 8 + keyByte key (n + 2) 16 + keyByte key (n + 3) 24

/-- The loop over whole blocks of twelve bytes, and the rest of the key. -/
def jenBlocks : Nat → List UInt8 → Jen → Jen × List UInt8
  | 0, key, s => (s, key)
  | n + 1, key, s => jenBlocks n (key.drop 12)
    (Jen.mix ⟨s.i + keyWord key 0, s.j + keyWord key 4, s.hashv + keyWord key 8⟩)

/-- `HASH_JEN`. The cases of the rest fall through; its last word has no lowest byte, which the length was added to. -/
def hashJen (key : List UInt8) : UInt32 :=
  let (s, rest) := jenBlocks (key.length / 12) key ⟨0x9e3779b9, 0x9e3779b9, 0xfeedbeef⟩
  let last := keyByte rest 8 8 + keyByte rest 9 16 + keyByte rest 10 24
  (Jen.mix ⟨s.i + keyWord rest 0, s.j + keyWord rest 4, s.hashv + .ofNat key.length + last⟩).hashv

/-! ## The table -/

section

variable {κ α : Type}

/-- `UT_hash_bucket`: its chain from `hh_head`, whose length is `count`. -/
structure Bucket (κ α : Type) where
  chain : List (κ × α) := []
  expandMult : Nat := 0

/-- `UT_hash_table`, as `HASH_MAKE_TABLE` leaves it. The number of buckets is the power of two that
`log2_num_buckets` says; memory ends long before their numbers reach 2^32. -/
structure Table (κ α : Type) where
  buckets : Nat → Bucket κ α := fun _ => {}
  log2NumBuckets : Nat := 5
  numItems : Nat := 0
  ineffExpands : Nat := 0
  noexpand : Bool := false

/-- `num_buckets` -/
def Table.numBuckets (t : Table κ α) : Nat := 2 ^ t.log2NumBuckets

/-- `HASH_TO_BKT` -/
def toBkt (hashv : UInt32) (numBkts : Nat) : Nat := hashv.toNat &&& (numBkts - 1)

variable (hash : κ → UInt32)

namespace Table

/-- An entry in its turn of the loops of `HASH_EXPAND_BUCKETS`: the new buckets and `nonideal_items`, where there are
`numBkts` and `ideal_chain_maxlen` is `maxlen`. -/
def move (numBkts maxlen : Nat) (moved : (Nat → Bucket κ α) × Nat) (e : κ × α) : (Nat → Bucket κ α) × Nat :=
  let i := toBkt (hash e.1) numBkts
  let newbkt := moved.1 i
  let count := newbkt.chain.length + 1
  if maxlen < count then (Function.update moved.1 i ⟨e :: newbkt.chain, count / maxlen⟩, moved.2 + 1)
  else (Function.update moved.1 i ⟨e :: newbkt.chain, newbkt.expandMult⟩, moved.2)

/-- `HASH_EXPAND_BUCKETS`: the entries in the order in which its loops come to them. -/
def expandBuckets (t : Table κ α) : Table κ α :=
  let numBkts := t.numBuckets * 2
  let maxlen := (t.numItems >>> (t.log2NumBuckets + 1)) + if t.numItems &&& (numBkts - 1) = 0 then 0 else 1
  let entries := (List.range t.numBuckets).flatMap fun i => (t.buckets i).chain
  let moved := entries.foldl (move hash numBkts maxlen) (fun _ => {}, 0)
  let ineffExpands := if t.numItems >>> 1 < moved.2 then t.ineffExpands + 1 else 0
  { t with
    buckets := moved.1
    log2NumBuckets := t.log2NumBuckets + 1
    ineffExpands
    noexpand := t.noexpand || 1 < ineffExpands }

/-- The test of `HASH_ADD_TO_BKT` once an entry with the key is counted. -/
def expands (t : Table κ α) (k : κ) : Bool :=
  let b := t.buckets (toBkt (hash k) t.numBuckets)
  (b.expandMult + 1) * 10 ≤ b.chain.length + 1 && !t.noexpand

/-- `HASH_ADD` -/
def add (t : Table κ α) (e : κ × α) : Table κ α :=
  let i := toBkt (hash e.1) t.numBuckets
  let b := t.buckets i
  let added :=
    { t with numItems := t.numItems + 1, buckets := Function.update t.buckets i { b with chain := e :: b.chain } }
  if t.expands hash e.1 then added.expandBuckets hash else added

/-- `HASH_FIND` -/
def find [DecidableEq κ] (t : Table κ α) (k : κ) : Option (κ × α) :=
  (t.buckets (toBkt (hash k) t.numBuckets)).chain.find? (·.1 = k)

/-- The table of entries that were added one after the other, the newest first. -/
def made : List (κ × α) → Table κ α
  | [] => {}
  | e :: older => (made older).add hash e

/-! ## The entries of a key -/

/-- The entries of a key, in the order of its bucket. -/
def entriesOf [DecidableEq κ] (t : Table κ α) (k : κ) : List (κ × α) :=
  (t.buckets (toBkt (hash k) t.numBuckets)).chain.filter (·.1 = k)

/-- Every entry is in the bucket of its key. -/
def Placed (t : Table κ α) : Prop := ∀ i, ∀ e ∈ (t.buckets i).chain, toBkt (hash e.1) t.numBuckets = i

variable {hash} {t : Table κ α} {k : κ}

theorem find_eq_head [DecidableEq κ] : t.find hash k = (t.entriesOf hash k).head? := List.head?_filter.symm

theorem toBkt_lt (hashv : UInt32) (t : Table κ α) : toBkt hashv t.numBuckets < t.numBuckets := by
  rw [toBkt, numBuckets, Nat.and_two_pow_sub_one_eq_mod]
  exact Nat.mod_lt _ (Nat.two_pow_pos _)

/-- The chains that entries are moved to, one after the other. -/
theorem foldl_move (numBkts maxlen : Nat) (entries : List (κ × α)) (moved : (Nat → Bucket κ α) × Nat) (i : Nat) :
    ((entries.foldl (move hash numBkts maxlen) moved).1 i).chain =
      (entries.filter fun e => toBkt (hash e.1) numBkts = i).reverse ++ (moved.1 i).chain := by
  induction entries generalizing moved with
  | nil => rfl
  | cons e entries ih =>
    have hmove : ((move hash numBkts maxlen moved e).1 i).chain =
        if toBkt (hash e.1) numBkts = i then e :: (moved.1 i).chain else (moved.1 i).chain := by
      unfold move
      dsimp only
      by_cases hi : toBkt (hash e.1) numBkts = i
      · rw [if_pos hi, ← hi]
        split <;> simp
      · rw [if_neg hi]
        split <;> simp [Function.update_of_ne (Ne.symm hi)]
    rw [List.foldl_cons, ih, hmove, List.filter_cons]
    by_cases hi : toBkt (hash e.1) numBkts = i <;> simp [hi]

theorem flatMap_range_eq {ι : Type} {f : Nat → List ι} {n b : Nat} (hb : b < n) (h : ∀ i, i ≠ b → f i = []) :
    (List.range n).flatMap f = f b := by
  obtain ⟨m, rfl⟩ := Nat.exists_eq_add_of_lt hb
  have hnil : ∀ l : List Nat, b ∉ l → l.flatMap f = [] := fun l hl =>
    List.flatMap_eq_nil_iff.mpr fun i hi => h i (ne_of_mem_of_not_mem hi hl)
  rw [Nat.add_assoc, List.range_add, List.range_succ_eq_map, List.map_cons, List.map_map, List.flatMap_append,
    List.flatMap_cons, hnil _ (by simp), hnil _ (by simp), List.append_nil, Nat.add_zero, List.nil_append]

/-- The doubling keeps the entries in their places. -/
theorem Placed.expandBuckets (t : Table κ α) : (t.expandBuckets hash).Placed hash := by
  intro i e he
  rw [Table.expandBuckets] at he
  simp only [foldl_move, List.append_nil, List.mem_reverse, List.mem_filter, decide_eq_true_eq] at he
  rw [numBuckets, Table.expandBuckets, pow_succ]
  exact he.2

/-- The doubling turns the entries of each key around. -/
theorem entriesOf_expandBuckets [DecidableEq κ] (h : t.Placed hash) (k : κ) :
    (t.expandBuckets hash).entriesOf hash k = (t.entriesOf hash k).reverse := by
  have hall : ((List.range t.numBuckets).flatMap fun i => (t.buckets i).chain).filter (fun e => e.1 = k) =
      t.entriesOf hash k := by
    rw [List.filter_flatMap]
    refine flatMap_range_eq (toBkt_lt (hash k) t) fun i hi => List.filter_eq_nil_iff.mpr fun e he hk => ?_
    have hplace := h i e he
    rw [of_decide_eq_true hk] at hplace
    exact hi hplace.symm
  have hnum : (t.expandBuckets hash).numBuckets = t.numBuckets * 2 := pow_succ ..
  rw [entriesOf, hnum, ← hall, Table.expandBuckets]
  simp only [foldl_move, List.append_nil, List.filter_reverse, List.filter_filter]
  congr 2
  funext e
  by_cases hk : e.1 = k <;> simp [hk]

/-- The table with an entry in front of its chain. -/
def push (hash : κ → UInt32) (t : Table κ α) (e : κ × α) : Table κ α :=
  let i := toBkt (hash e.1) t.numBuckets
  let b := t.buckets i
  { t with numItems := t.numItems + 1, buckets := Function.update t.buckets i { b with chain := e :: b.chain } }

theorem add_eq (t : Table κ α) (e : κ × α) :
    t.add hash e = if t.expands hash e.1 then (t.push hash e).expandBuckets hash else t.push hash e := rfl

theorem Placed.push (h : t.Placed hash) (e : κ × α) : (t.push hash e).Placed hash := by
  intro i e' he'
  change e' ∈ (Function.update t.buckets (toBkt (hash e.1) t.numBuckets) _ i).chain at he'
  by_cases hi : i = toBkt (hash e.1) t.numBuckets
  · subst hi
    rw [Function.update_self] at he'
    rcases List.mem_cons.mp he' with rfl | he'
    · rfl
    · exact h _ e' he'
  · rw [Function.update_of_ne hi] at he'
    exact h i e' he'

theorem entriesOf_push [DecidableEq κ] (hash : κ → UInt32) (t : Table κ α) (e : κ × α) (k : κ) :
    (t.push hash e).entriesOf hash k = if e.1 = k then e :: t.entriesOf hash k else t.entriesOf hash k := by
  change (Function.update t.buckets (toBkt (hash e.1) t.numBuckets) _ (toBkt (hash k) t.numBuckets)).chain.filter _ = _
  by_cases hk : e.1 = k
  · subst hk
    rw [Function.update_self, if_pos rfl]
    exact List.filter_cons_of_pos (decide_eq_true rfl)
  · rw [if_neg hk]
    by_cases hi : toBkt (hash k) t.numBuckets = toBkt (hash e.1) t.numBuckets
    · rw [hi, Function.update_self, entriesOf, hi]
      exact List.filter_cons_of_neg (by simpa using hk)
    · rw [Function.update_of_ne hi]
      rfl

theorem Placed.add (h : t.Placed hash) (e : κ × α) : (t.add hash e).Placed hash := by
  rw [add_eq]
  split
  · exact .expandBuckets _
  · exact h.push e

theorem placed_made (es : List (κ × α)) : (made hash es).Placed hash := by
  induction es with
  | nil => exact fun i e he => absurd he List.not_mem_nil
  | cons e older ih => exact ih.add e

/-- A doubling comes with the last of these entries. -/
def doubles (hash : κ → UInt32) (older : List (κ × α)) (e : κ × α) : Bool := (made hash older).expands hash e.1

/-- The entries of a key are a stack that the doublings turn around. -/
theorem entriesOf_made [DecidableEq κ] (es : List (κ × α)) (k : κ) :
    (made hash es).entriesOf hash k = stack (doubles hash) (·.1 = k) es := by
  induction es with
  | nil => rfl
  | cons e older ih =>
    have hpush := entriesOf_push hash (made hash older) e k
    rw [stack, ← ih, made, add_eq, doubles]
    by_cases hd : (made hash older).expands hash e.1
    · simp only [hd, if_true, entriesOf_expandBuckets ((placed_made older).push e), hpush, decide_eq_true_eq]
    · simp only [hd, if_false, hpush, decide_eq_true_eq, Bool.false_eq_true]

/-- The entries that were added, the newest first, each with whether the table has doubled an odd number of times
since, with its own addition counted. -/
def turned (hash : κ → UInt32) (es : List (κ × α)) : List ((κ × α) × Bool) := marked (doubles hash) es

/-- What is found for a key is the newest of its entries for which that number is even; where it is odd for all, the
oldest. -/
theorem find_made_iff [DecidableEq κ] {es : List (κ × α)} {k : κ} {e : κ × α} : (made hash es).find hash k = some e ↔
    e.1 = k ∧ ∃ newer b older, turned hash es = newer ++ (e, b) :: older ∧ (∀ m ∈ newer, m.1.1 = k → m.2 = true) ∧
      (b = false ∨ ∀ m ∈ older, m.1.1 ≠ k) := by
  rw [find_eq_head, entriesOf_made, head_stack_iff]
  simp only [decide_eq_true_eq, decide_eq_false_iff_not, turned, ne_eq]
  constructor
  · rintro ⟨newer, b, older, hsplit, hk, hrest⟩
    exact ⟨hk, newer, b, older, hsplit, hrest⟩
  · rintro ⟨hk, newer, b, older, hsplit, hrest⟩
    exact ⟨newer, b, older, hsplit, hk, hrest⟩

example : (made hashJen ((List.range 9).reverse.map fun n => ([97], n))).find hashJen [97] = some ([97], 8) := by
  decide +kernel

example : (made hashJen ((List.range 10).reverse.map fun n => ([97], n))).find hashJen [97] = some ([97], 0) := by
  decide +kernel

theorem mem_of_find_made [DecidableEq κ] {es : List (κ × α)} {k : κ} {e : κ × α}
    (h : (made hash es).find hash k = some e) :
    e ∈ es ∧ e.1 = k := by
  rw [find_eq_head, entriesOf_made] at h
  obtain ⟨he, hk⟩ := mem_stack_iff.mp (List.mem_of_head? h)
  exact ⟨he, of_decide_eq_true hk⟩

/-- Some entry of a key is found if there is one. -/
theorem find_made_of_mem [DecidableEq κ] (hash : κ → UInt32) {es : List (κ × α)} {e : κ × α} (he : e ∈ es) :
    ∃ e', (made hash es).find hash e.1 = some e' := by
  rw [find_eq_head, entriesOf_made]
  have hmem : e ∈ stack (doubles hash) (fun e' => decide (e'.1 = e.1)) es := mem_stack_iff.mpr ⟨he, decide_eq_true rfl⟩
  exact ⟨_, List.head?_eq_some_head (List.ne_nil_of_mem hmem)⟩

end Table

end

end ZeroServ.UtHash
