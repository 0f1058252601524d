import Mathlib.Tactic.IntervalCases
import ZeroServ.Lib.LittleEndian
import ZeroServ.Memcached.Items

/-!
# The hash of a key

`hash` of `assoc.c` on a machine of little-endian order, without `VALGRIND`: it reads the key in words, in half-words
or in bytes, as its address allows. `hash_of_key`: the three ways give the same value for keys of every length,
whatever follows the key in memory. So a token of a command and the key of an item lie in the same bucket.
-/

namespace ZeroServ.Mc.Hash

open LittleEndian

/-- Memory from an address on, byte by byte. -/
abbrev Bytes := Nat → UInt8

/-- A key in memory, and what follows it. -/
def memory (key : List UInt8) (rest : Bytes) : Bytes := fun i => key.getD i (rest i)

/-- The byte at an offset, as a `uint32_t`. -/
def read8 (k : Bytes) (i : Nat) : UInt32 := (k i).toUInt32

/-- The `uint16_t` at an offset, as a `uint32_t`. -/
def read16 (k : Bytes) (i : Nat) : UInt32 := UInt32.ofNat (word [k i, k (i + 1)])

/-- The `uint32_t` at an offset. -/
def read32 (k : Bytes) (i : Nat) : UInt32 := UInt32.ofNat (word [k i, k (i + 1), k (i + 2), k (i + 3)])

/-- The internal state of `hash`. -/
structure Abc where
  a : UInt32
  b : UInt32
  c : UInt32
  deriving DecidableEq

def rot (x k : UInt32) : UInt32 := (x <<< k) ^^^ (x >>> (32 - k))

namespace Abc

def mix : Abc → Abc
  | ⟨a, b, c⟩ =>
    let a := (a - c) ^^^ rot c 4; let c := c + b
    let b := (b - a) ^^^ rot a 6; let a := a + c
    let c := (c - b) ^^^ rot b 8; let b := b + a
    let a := (a - c) ^^^ rot c 16; let c := c + b
    let b := (b - a) ^^^ rot a 19; let a := a + c
    let c := (c - b) ^^^ rot b 4; let b := b + a
    ⟨a, b, c⟩

def final : Abc → Abc
  | ⟨a, b, c⟩ =>
    let c := (c ^^^ b) - rot b 14
    let a := (a ^^^ c) - rot c 11
    let b := (b ^^^ a) - rot a 25
    let c := (c ^^^ b) - rot b 16
    let a := (a ^^^ c) - rot c 4
    let b := (b ^^^ a) - rot a 14
    let c := (c ^^^ b) - rot b 24
    ⟨a, b, c⟩

/-- The state after additions to its three words. -/
def plus (s : Abc) (a b c : UInt32) : Abc := ⟨s.a + a, s.b + b, s.c + c⟩

end Abc

/-! ## The three branches -/

/-- A block of twelve bytes, read in words. -/
def wordBlock (k : Bytes) (s : Abc) : Abc := s.plus (read32 k 0) (read32 k 4) (read32 k 8)

/-- The last block, read in words: the bytes behind the key are masked off. -/
def wordTail (k : Bytes) : Nat → Abc → Abc
  | 12, s => s.plus (read32 k 0) (read32 k 4) (read32 k 8)
  | 11, s => s.plus (read32 k 0) (read32 k 4) (read32 k 8 &&& 0xffffff)
  | 10, s => s.plus (read32 k 0) (read32 k 4) (read32 k 8 &&& 0xffff)
  | 9, s => s.plus (read32 k 0) (read32 k 4) (read32 k 8 &&& 0xff)
  | 8, s => s.plus (read32 k 0) (read32 k 4) 0
  | 7, s => s.plus (read32 k 0) (read32 k 4 &&& 0xffffff) 0
  | 6, s => s.plus (read32 k 0) (read32 k 4 &&& 0xffff) 0
  | 5, s => s.plus (read32 k 0) (read32 k 4 &&& 0xff) 0
  | 4, s => s.plus (read32 k 0) 0 0
  | 3, s => s.plus (read32 k 0 &&& 0xffffff) 0 0
  | 2, s => s.plus (read32 k 0 &&& 0xffff) 0 0
  | 1, s => s.plus (read32 k 0 &&& 0xff) 0 0
  | _, s => s

/-- Two half-words, as the half-word branch adds them. -/
def readPair (k : Bytes) (i : Nat) : UInt32 := read16 k i + (read16 k (i + 2) <<< 16)

/-- A block of twelve bytes, read in half-words. -/
def halfBlock (k : Bytes) (s : Abc) : Abc := s.plus (readPair k 0) (readPair k 4) (readPair k 8)

/-- The last block, read in half-words, with the cases that fall through. -/
def halfTail (k : Bytes) : Nat → Abc → Abc
  | 12, s => s.plus (readPair k 0) (readPair k 4) (readPair k 8)
  | 11, s => (s.plus 0 0 (read8 k 10 <<< 16)).plus (readPair k 0) (readPair k 4) (read16 k 8)
  | 10, s => s.plus (readPair k 0) (readPair k 4) (read16 k 8)
  | 9, s => (s.plus 0 0 (read8 k 8)).plus (readPair k 0) (readPair k 4) 0
  | 8, s => s.plus (readPair k 0) (readPair k 4) 0
  | 7, s => (s.plus 0 (read8 k 6 <<< 16) 0).plus (readPair k 0) (read16 k 4) 0
  | 6, s => s.plus (readPair k 0) (read16 k 4) 0
  | 5, s => (s.plus 0 (read8 k 4) 0).plus (readPair k 0) 0 0
  | 4, s => s.plus (readPair k 0) 0 0
  | 3, s => (s.plus (read8 k 2 <<< 16) 0 0).plus (read16 k 0) 0 0
  | 2, s => s.plus (read16 k 0) 0 0
  | 1, s => s.plus (read8 k 0) 0 0
  | _, s => s

/-- The addition for the byte at an offset of the last block. -/
def addByte (k : Bytes) : Nat → Abc → Abc
  | 11, s => s.plus 0 0 (read8 k 11 <<< 24)
  | 10, s => s.plus 0 0 (read8 k 10 <<< 16)
  | 9, s => s.plus 0 0 (read8 k 9 <<< 8)
  | 8, s => s.plus 0 0 (read8 k 8)
  | 7, s => s.plus 0 (read8 k 7 <<< 24) 0
  | 6, s => s.plus 0 (read8 k 6 <<< 16) 0
  | 5, s => s.plus 0 (read8 k 5 <<< 8) 0
  | 4, s => s.plus 0 (read8 k 4) 0
  | 3, s => s.plus (read8 k 3 <<< 24) 0 0
  | 2, s => s.plus (read8 k 2 <<< 16) 0 0
  | 1, s => s.plus (read8 k 1 <<< 8) 0 0
  | 0, s => s.plus (read8 k 0) 0 0
  | _, s => s

/-- Four bytes, as the byte branch adds them. -/
def readBytes (k : Bytes) (i : Nat) (x : UInt32) : UInt32 :=
  x + read8 k i + (read8 k (i + 1) <<< 8) + (read8 k (i + 2) <<< 16) + (read8 k (i + 3) <<< 24)

/-- A block of twelve bytes, read byte by byte. -/
def byteBlock (k : Bytes) (s : Abc) : Abc := ⟨readBytes k 0 s.a, readBytes k 4 s.b, readBytes k 8 s.c⟩

/-- The last block, read byte by byte: all cases fall through. -/
def byteTail (k : Bytes) : Nat → Abc → Abc
  | 0, s => s
  | n + 1, s => byteTail k n (addByte k n s)

/-- The loop over all but the last block: the state, the memory from the last block on, and its length. -/
def blocks (block : Bytes → Abc → Abc) (k : Bytes) (length : Nat) (s : Abc) : Abc × Bytes × Nat :=
  if 12 < length then blocks block (fun i => k (12 + i)) (length - 12) (block k s).mix else (s, k, length)

/-- A branch of `hash`, with how it adds a block and the last block. -/
def branch (block : Bytes → Abc → Abc) (tail : Bytes → Nat → Abc → Abc) (k : Bytes) (length : Nat)
    (initval : UInt32) : UInt32 :=
  let s₀ := 0xdeadbeef + UInt32.ofNat length + initval
  match blocks block k length ⟨s₀, s₀, s₀⟩ with
  | (s, _, 0) => s.c
  | (s, k, n + 1) => (tail k (n + 1) s).final.c

/-- `hash` of the memory at an address. -/
def hash (address : Nat) (k : Bytes) (length : Nat) (initval : UInt32) : UInt32 :=
  if address &&& 3 = 0 then branch wordBlock wordTail k length initval
  else if address &&& 1 = 0 then branch halfBlock halfTail k length initval
  else branch byteBlock byteTail k length initval

/-- The hash of a key as its bytes give it. -/
def keyHash (key : List UInt8) (initval : UInt32) : UInt32 :=
  branch byteBlock byteTail (memory key fun _ => 0) key.length initval

/-! ## Words as bytes -/

variable {k k' : Bytes} {n : Nat} {s : Abc}

/-- What the byte branch adds for the first `n` bytes of a word. -/
def low (k : Bytes) (i : Nat) : Nat → UInt32
  | 0 => 0
  | 1 => read8 k i
  | 2 => read8 k i + (read8 k (i + 1) <<< 8)
  | 3 => read8 k i + (read8 k (i + 1) <<< 8) + (read8 k (i + 2) <<< 16)
  | _ => read8 k i + (read8 k (i + 1) <<< 8) + (read8 k (i + 2) <<< 16) + (read8 k (i + 3) <<< 24)

/-- The number that the bytes of a word make. -/
def wordAt (k : Bytes) (i : Nat) : Nat :=
  (k i).toNat + 256 * (k (i + 1)).toNat + 65536 * (k (i + 2)).toNat + 16777216 * (k (i + 3)).toNat

theorem wordAt_lt (k : Bytes) (i : Nat) : wordAt k i < 4294967296 := by
  have h₀ := (k i).toNat_lt
  have h₁ := (k (i + 1)).toNat_lt
  have h₂ := (k (i + 2)).toNat_lt
  have h₃ := (k (i + 3)).toNat_lt
  rw [wordAt]
  omega

theorem toNat_read32 (k : Bytes) (i : Nat) : (read32 k i).toNat = wordAt k i := by
  have hlt := wordAt_lt k i
  rw [wordAt] at hlt ⊢
  simp only [read32, word, UInt32.toNat_ofNat']
  omega

theorem toNat_readPair (k : Bytes) (i : Nat) : (readPair k i).toNat = wordAt k i := by
  have h₀ := (k i).toNat_lt
  have h₁ := (k (i + 1)).toNat_lt
  have h₂ := (k (i + 2)).toNat_lt
  have h₃ := (k (i + 3)).toNat_lt
  change (UInt32.ofNat (word [k i, k (i + 1)]) + (UInt32.ofNat (word [k (i + 2), k (i + 3)]) <<< 16)).toNat = _
  simp only [wordAt, word, UInt32.toNat_ofNat', UInt32.toNat_add, UInt32.toNat_shiftLeft, Nat.shiftLeft_eq,
    UInt32.reduceToNat, Nat.reduceMod, Nat.reducePow]
  omega

/-- The sum of the first bytes is what is left of the word below their bits. -/
theorem toNat_low (k : Bytes) (i : Nat) (hn : n = 1 ∨ n = 2 ∨ n = 3 ∨ n = 4) :
    (low k i n).toNat = wordAt k i % 2 ^ (8 * n) := by
  have h₀ := (k i).toNat_lt
  have h₁ := (k (i + 1)).toNat_lt
  have h₂ := (k (i + 2)).toNat_lt
  have h₃ := (k (i + 3)).toNat_lt
  rcases hn with rfl | rfl | rfl | rfl <;>
  · simp only [wordAt, low, read8, UInt32.toNat_add, UInt32.toNat_shiftLeft, UInt8.toNat_toUInt32, Nat.shiftLeft_eq,
      UInt32.reduceToNat, Nat.reduceMod, Nat.reducePow, Nat.reduceMul]
    omega

/-- A word that is read whole. -/
theorem eq_low_four {x : UInt32} {i : Nat} (h : x.toNat = wordAt k i) : x = low k i 4 := by
  rw [← UInt32.toNat_inj, h, toNat_low k i (by simp)]
  exact (Nat.mod_eq_of_lt (wordAt_lt k i)).symm

theorem read32_eq (k : Bytes) (i : Nat) : read32 k i = low k i 4 := eq_low_four (toNat_read32 k i)

theorem readPair_eq (k : Bytes) (i : Nat) : readPair k i = low k i 4 := eq_low_four (toNat_readPair k i)

theorem read16_eq (k : Bytes) (i : Nat) : read16 k i = low k i 2 := by
  have h₀ := (k i).toNat_lt
  have h₁ := (k (i + 1)).toNat_lt
  rw [← UInt32.toNat_inj, toNat_low k i (by simp)]
  simp only [wordAt, read16, word, UInt32.toNat_ofNat', Nat.reducePow, Nat.reduceMul]
  omega

/-- A mask of the low bytes leaves them. -/
theorem read32_and_mask {m : UInt32} (i : Nat) (hn : n = 1 ∨ n = 2 ∨ n = 3 ∨ n = 4) (hm : m.toNat = 2 ^ (8 * n) - 1) :
    read32 k i &&& m = low k i n := by
  rw [← UInt32.toNat_inj, UInt32.toNat_and, hm, Nat.and_two_pow_sub_one_eq_mod, toNat_read32, toNat_low k i hn]

theorem mask_three (k : Bytes) (i : Nat) : read32 k i &&& 0xffffff = low k i 3 := read32_and_mask i (by simp) rfl

theorem mask_two (k : Bytes) (i : Nat) : read32 k i &&& 0xffff = low k i 2 := read32_and_mask i (by simp) rfl

theorem mask_one (k : Bytes) (i : Nat) : read32 k i &&& 0xff = low k i 1 := read32_and_mask i (by simp) rfl

/-! ## The branches agree -/

theorem wordBlock_eq : wordBlock = byteBlock := by
  funext k s
  simp only [wordBlock, byteBlock, Abc.plus, readBytes, read32_eq, low, UInt32.add_assoc]

theorem halfBlock_eq : halfBlock = byteBlock := by
  funext k s
  simp only [halfBlock, byteBlock, Abc.plus, readBytes, readPair_eq, low, UInt32.add_assoc]

theorem Abc.plus_plus (s : Abc) (a b c a' b' c' : UInt32) :
    (s.plus a b c).plus a' b' c' = s.plus (a + a') (b + b') (c + c') := by
  simp only [Abc.plus, UInt32.add_assoc]

theorem Abc.plus_zero (s : Abc) : s.plus 0 0 0 = s := by
  simp only [Abc.plus, UInt32.add_zero]

/-- The bytes of a word, added from the last on. -/
theorem low_two (k : Bytes) (i : Nat) : (read8 k (i + 1) <<< 8) + read8 k i = low k i 2 := UInt32.add_comm _ _

theorem low_three (k : Bytes) (i : Nat) : (read8 k (i + 2) <<< 16) + low k i 2 = low k i 3 := UInt32.add_comm _ _

theorem low_four (k : Bytes) (i : Nat) : (read8 k (i + 3) <<< 24) + low k i 3 = low k i 4 := UInt32.add_comm _ _

/-- What the last block adds to the three words, byte by byte. -/
theorem byteTail_eq (k : Bytes) (h : n ≤ 12) (s : Abc) :
    byteTail k n s = s.plus (low k 0 n) (low k 4 (n - 4)) (low k 8 (n - 8)) := by
  have hzero : s = s.plus (low k 0 0) (low k 4 0) (low k 8 0) := s.plus_zero.symm
  interval_cases n
  · exact hzero
  all_goals
    simp only [byteTail, addByte, Abc.plus_plus, UInt32.add_zero, UInt32.zero_add, UInt32.add_assoc, low_two k 0,
      low_two k 4, low_two k 8,
      low_three k 0, low_three k 4, low_three k 8, low_four k 0, low_four k 4, low_four k 8]
    rfl

/-- In each of the cases of the last block the words are the same. -/
theorem wordTail_eq (k : Bytes) (h : n ≤ 12) (s : Abc) : wordTail k n s = byteTail k n s := by
  have hzero : s = s.plus (low k 0 0) (low k 4 0) (low k 8 0) := s.plus_zero.symm
  rw [byteTail_eq k h]
  interval_cases n
  · exact hzero
  all_goals
    simp only [wordTail, ↓mask_three, ↓mask_two, ↓mask_one, read32_eq]
    rfl

theorem halfTail_eq (k : Bytes) (h : n ≤ 12) (s : Abc) : halfTail k n s = byteTail k n s := by
  have hzero : s = s.plus (low k 0 0) (low k 4 0) (low k 8 0) := s.plus_zero.symm
  rw [byteTail_eq k h]
  interval_cases n
  · exact hzero
  all_goals
    simp only [halfTail, readPair_eq, read16_eq, Abc.plus_plus, UInt32.zero_add, UInt32.add_zero, low_three k 0,
      low_three k 4, low_three k 8]
    rfl

theorem blocks_long (block : Bytes → Abc → Abc) (k : Bytes) {length : Nat} (h : 12 < length) (s : Abc) :
    blocks block k length s = blocks block (fun i => k (12 + i)) (length - 12) (block k s).mix := by
  rw [blocks, if_pos h]

theorem blocks_short (block : Bytes → Abc → Abc) (k : Bytes) {length : Nat} (h : ¬12 < length) (s : Abc) :
    blocks block k length s = (s, k, length) := by
  rw [blocks, if_neg h]

/-- The loop leaves a last block of twelve bytes at most. -/
theorem blocks_le (block : Bytes → Abc → Abc) (k : Bytes) (length : Nat) (s : Abc) :
    (blocks block k length s).2.2 ≤ 12 := by
  induction length using Nat.strong_induction_on generalizing k s with
  | _ length ih =>
    by_cases hlong : 12 < length
    · rw [blocks_long _ _ hlong]
      exact ih (length - 12) (by omega) _ _
    · rw [blocks_short _ _ hlong]
      exact Nat.not_lt.mp hlong

/-- Two branches that add the same for a block and for a last block. -/
theorem branch_congr {block : Bytes → Abc → Abc} {tail tail' : Bytes → Nat → Abc → Abc}
    (h : ∀ k n s, n ≤ 12 → tail k n s = tail' k n s) (k : Bytes) (length : Nat) (initval : UInt32) :
    branch block tail k length initval = branch block tail' k length initval := by
  rw [branch, branch]
  generalize 0xdeadbeef + UInt32.ofNat length + initval = s₀
  have hle := blocks_le block k length ⟨s₀, s₀, s₀⟩
  generalize blocks block k length ⟨s₀, s₀, s₀⟩ = r at hle ⊢
  obtain ⟨s, k₁, n⟩ := r
  cases n with
  | zero => rfl
  | succ n =>
    dsimp only
    rw [h k₁ (n + 1) s hle]

theorem branch_word (k : Bytes) (length : Nat) (initval : UInt32) :
    branch wordBlock wordTail k length initval = branch byteBlock byteTail k length initval := by
  rw [wordBlock_eq]
  exact branch_congr (fun k n s h => wordTail_eq k h s) k length initval

theorem branch_half (k : Bytes) (length : Nat) (initval : UInt32) :
    branch halfBlock halfTail k length initval = branch byteBlock byteTail k length initval := by
  rw [halfBlock_eq]
  exact branch_congr (fun k n s h => halfTail_eq k h s) k length initval

/-! ## The bytes behind the key -/

theorem byteBlock_congr (h : ∀ i < 12, k i = k' i) (s : Abc) : byteBlock k s = byteBlock k' s := by
  simp only [byteBlock, readBytes, read8, Nat.zero_add, Nat.reduceAdd, h 0, h 1, h 2, h 3, h 4, h 5, h 6, h 7, h 8,
    h 9, h 10, h 11, Nat.reduceLT]

theorem addByte_congr (h : k n = k' n) (s : Abc) : addByte k n s = addByte k' n s := by
  unfold addByte
  split <;> simp only [read8, h]

theorem byteTail_congr (h : ∀ i < n, k i = k' i) (s : Abc) : byteTail k n s = byteTail k' n s := by
  induction n generalizing s with
  | zero => rfl
  | succ n ih =>
    rw [byteTail, byteTail, addByte_congr (h n (Nat.lt_succ_self n)), ih fun i hi => h i (Nat.lt_succ_of_lt hi)]

/-- The loop comes to the same state, and the same last block, in memory that has the same key. -/
theorem blocks_congr {length : Nat} (h : ∀ i < length, k i = k' i) (s : Abc) :
    ∃ s₁ k₁ k₁' n, blocks byteBlock k length s = (s₁, k₁, n) ∧ blocks byteBlock k' length s = (s₁, k₁', n) ∧
      ∀ i < n, k₁ i = k₁' i := by
  induction length using Nat.strong_induction_on generalizing k k' s with
  | _ length ih =>
    by_cases hlong : 12 < length
    · rw [blocks_long _ _ hlong, blocks_long _ _ hlong, byteBlock_congr fun i hi => h i (hi.trans hlong)]
      exact ih (length - 12) (by omega) (fun i hi => h (12 + i) (by omega)) _
    · exact ⟨s, k, k', length, blocks_short _ _ hlong s, blocks_short _ _ hlong s, h⟩

theorem branch_bytes {length : Nat} (h : ∀ i < length, k i = k' i) (initval : UInt32) :
    branch byteBlock byteTail k length initval = branch byteBlock byteTail k' length initval := by
  rw [branch, branch]
  generalize 0xdeadbeef + UInt32.ofNat length + initval = s₀
  obtain ⟨s, k₁, k₁', n, hb, hb', hsame⟩ := blocks_congr h ⟨s₀, s₀, s₀⟩
  rw [hb, hb']
  cases n with
  | zero => rfl
  | succ n =>
    dsimp only
    rw [byteTail_congr hsame]

/-- For keys of every length the three branches give one value, whatever follows the key in memory. -/
theorem branches_eq (key : List UInt8) (rest : Bytes) (initval : UInt32) :
    branch wordBlock wordTail (memory key rest) key.length initval = keyHash key initval ∧
      branch halfBlock halfTail (memory key rest) key.length initval = keyHash key initval ∧
      branch byteBlock byteTail (memory key rest) key.length initval = keyHash key initval := by
  have hbytes : branch byteBlock byteTail (memory key rest) key.length initval = keyHash key initval := by
    refine branch_bytes ?_ initval
    intro i hi
    simp only [memory, List.getD_eq_getElem?_getD, List.getElem?_eq_getElem hi, Option.getD_some]
  exact ⟨(branch_word _ _ _).trans hbytes, (branch_half _ _ _).trans hbytes, hbytes⟩

/-- The hash of a key depends neither on where it is stored nor on what follows it. So a lookup and an insertion of
it, in any state of the table, use the same bucket. -/
theorem hash_of_key (key : List UInt8) (initval : UInt32) :
    (∀ address rest, hash address (memory key rest) key.length initval = keyHash key initval) ∧
      ∀ (a : Assoc) (token item : Nat) (rest rest' : Bytes),
        a.slot (fun key => hash token (memory key rest) key.length 0) key =
          a.slot (fun key => hash item (memory key rest') key.length 0) key := by
  have hhash : ∀ (key : List UInt8) (initval : UInt32) (address : Nat) (rest : Bytes),
      hash address (memory key rest) key.length initval = keyHash key initval := by
    intro key initval address rest
    obtain ⟨hword, hhalf, hbyte⟩ := branches_eq key rest initval
    rw [hash]
    split
    · exact hword
    · split
      · exact hhalf
      · exact hbyte
  refine ⟨hhash key initval, ?_⟩
  intro a token item rest rest'
  simp only [hhash]

end ZeroServ.Mc.Hash
