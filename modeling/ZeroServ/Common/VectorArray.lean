import Mathlib.Algebra.Order.Ring.Rat
import Mathlib.Order.Monotone.Basic
import Mathlib.Tactic.Linarith
import ZeroServ.Common.Vector
import ZeroServ.Lib.Run

/-!
# The pointer vector in memory

`vector.h` as the code computes it: a block of `capacity` elements that grows by a truncated factor, a scan, and a
`memmove` that reads one element more than there are. What lies behind the block is anything, at every call; so is
what `realloc` adds to it. `vector_is_list`: the elements are those of a list. `vector_inside_iff`: a call stays
inside the block, unless it removes an object from a full vector.

`assert` is on. A call is not possible where an assertion fails, or where an `int` computation leaves its range,
which C does not define.
-/

namespace ZeroServ.VectorMem

open Run

/-! ## `vector.h` -/

/-- Rounding of `float` arithmetic: it keeps the order, and the whole numbers of up to 24 bits. -/
structure Rounding where
  round : ℚ → ℚ
  mono : Monotone round
  exact : ∀ n : ℕ, n ≤ 2 ^ 24 → round n = n

/-- Exact arithmetic. -/
def Rounding.rational : Rounding := ⟨id, monotone_id, fun _ _ => rfl⟩

/-- `struct vector`; `data` gives the element at each index. -/
structure Vector where
  data : Nat → Nat
  growthFactor : ℚ
  size : Nat
  capacity : Nat

/-- `type_size` -/
def typeSize : Nat := 8

/-- What a call leaves: the vector, the value it returns, and the indices of the elements it reads and writes. -/
structure Called where
  vector : Vector
  ret : Nat
  touched : List Nat

/-- `vector_create`, with `malloc`'s memory as it is. -/
def vectorCreate (initialCapacity : Nat) (growthFactor : ℚ) (data : Nat → Nat) : Option Vector :=
  if 1 < growthFactor then some ⟨data, growthFactor, 0, initialCapacity⟩ else none

/-- `vector_access` -/
def vectorAccess (v : Vector) (i : Nat) : Option Nat := if i < v.capacity then some (v.data i) else none

namespace Vector

/-- The memory from `data` on, with what lies behind the block. -/
def memory (v : Vector) (behind : Nat → Nat) (i : Nat) : Nat := if i < v.capacity then v.data i else behind i

/-- `(int) (v->capacity * v->growth_factor + 1)` -/
def newCapacity (rd : Rounding) (v : Vector) : Nat :=
  (rd.round (rd.round (rd.round v.capacity * v.growthFactor) + 1)).floor.toNat

/-- A full vector grows. -/
def grow (rd : Rounding) (v : Vector) (behind : Nat → Nat) : Vector :=
  if v.size = v.capacity then { v with data := v.memory behind, capacity := v.newCapacity rd } else v

/-- The elements at the indices `0, ..., size - 1`. -/
def elements (v : Vector) : List Nat := (List.range v.size).map v.data

end Vector

/-- `vector_insert`; the value is the index of the slot whose address it returns. -/
def vectorInsert (rd : Rounding) (v : Vector) (object : Nat) (behind : Nat → Nat) : Option Called :=
  if 0 < v.capacity ∧ v.size ≤ v.capacity then
    let v := v.grow rd behind
    -- the sizes of the block are products of `int`
    if v.capacity * typeSize < 2 ^ 31 ∧ v.size * typeSize + typeSize ≤ v.capacity * typeSize then
      if object ≠ 0 then some ⟨{ v with data := Function.update v.data v.size object, size := v.size + 1 },
        v.size, [v.size]⟩
      else some ⟨{ v with size := v.size + 1 }, v.size, []⟩
    else none
  else none

/-- The loop of `vector_remove` and `vector_is_exist`, with `n` turns left at `idx`: the first index whose element is
the object, and the indices that are read. -/
def scan (data : Nat → Nat) (object : Nat) : Nat → Nat → Option Nat × List Nat
  | _, 0 => (none, [])
  | idx, n + 1 =>
    if data idx = object then (some idx, [idx])
    else ((scan data object (idx + 1) n).1, idx :: (scan data object (idx + 1) n).2)

/-- `memmove` of `n` elements. -/
def memmove (data : Nat → Nat) (dst src n : Nat) (i : Nat) : Nat :=
  if dst ≤ i ∧ i < dst + n then data (src + (i - dst)) else data i

/-- `vector_remove` -/
def vectorRemove (v : Vector) (object : Nat) (behind : Nat → Nat) : Option Called :=
  if 0 < v.capacity then
    let data := v.memory behind
    match scan data object 0 v.size with
    | (some idx, read) =>
      -- the size before it is decremented: one element more than there are behind the object
      let n := v.size - idx
      some ⟨{ v with data := memmove data idx (idx + 1) n, size := v.size - 1 }, 0,
      read ++ List.range' (idx + 1) n ++ List.range' idx n⟩
    | (none, read) => some ⟨v, 1, read⟩
  else none

/-- `vector_is_exist` -/
def vectorIsExist (v : Vector) (object : Nat) (behind : Nat → Nat) : Option Called :=
  if 0 < v.capacity then
    match scan (v.memory behind) object 0 v.size with
    | (some _, read) => some ⟨v, 1, read⟩
    | (none, read) => some ⟨v, 0, read⟩
  else none

/-- A call, with what the memory behind the block holds then. -/
inductive VectorCall where
  | insert (object : Nat) (behind : Nat → Nat)
  | remove (object : Nat) (behind : Nat → Nat)
  | isExist (object : Nat) (behind : Nat → Nat)

/-- What a call does to a vector. -/
def VectorCall.result (rd : Rounding) (v : Vector) : VectorCall → Option Called
  | .insert object behind => vectorInsert rd v object behind
  | .remove object behind => vectorRemove v object behind
  | .isExist object behind => vectorIsExist v object behind

/-- The vector a call leaves. -/
def vectorStep (rd : Rounding) (v : Vector) (c : VectorCall) : Option Vector := (c.result rd v).map Called.vector

/-! ## The operations on the elements -/

section elements

variable {rd : Rounding} {v : Vector} {object : Nat} {behind : Nat → Nat} {r : Called}

@[simp] theorem length_elements (v : Vector) : v.elements.length = v.size := by
  simp [Vector.elements]

theorem memory_of_lt {i : Nat} (h : i < v.capacity) : v.memory behind i = v.data i :=
  if_pos h

/-- What lies behind the block is no element. -/
theorem map_memory (behind : Nat → Nat) {n : Nat} (h : n ≤ v.capacity) :
    (List.range n).map (v.memory behind) = (List.range n).map v.data :=
  List.map_congr_left fun _ hi => memory_of_lt ((List.mem_range.mp hi).trans_le h)

@[simp] theorem grow_size (rd : Rounding) (v : Vector) (behind : Nat → Nat) : (v.grow rd behind).size = v.size := by
  unfold Vector.grow
  split <;> rfl

theorem grow_elements (rd : Rounding) (behind : Nat → Nat) (h : v.size ≤ v.capacity) :
    (v.grow rd behind).elements = v.elements := by
  unfold Vector.grow
  split
  · exact map_memory behind h
  · rfl

/-- What the scan finds is the first index of the object, and it reads no index behind its turns. -/
theorem scan_spec (data : Nat → Nat) (object idx n : Nat) :
    (∀ i ∈ (scan data object idx n).2, i < idx + n) ∧
      match (scan data object idx n).1 with
      | some j => idx ≤ j ∧ j < idx + n ∧ data j = object ∧ ∀ i, idx ≤ i → i < j → data i ≠ object
      | none => ∀ i, idx ≤ i → i < idx + n → data i ≠ object := by
  induction n generalizing idx with
  | zero => exact ⟨by simp [scan], fun i h₁ h₂ => absurd h₂ (by omega)⟩
  | succ n ih =>
    obtain ⟨hread, hfound⟩ := ih (idx + 1)
    rw [scan]
    by_cases h : data idx = object
    · rw [if_pos h]
      exact ⟨by simp, le_refl _, by omega, h, fun i h₁ h₂ => absurd h₂ (by omega)⟩
    · rw [if_neg h]
      refine ⟨fun i hi => ?_, ?_⟩
      · rcases List.mem_cons.mp hi with rfl | hi
        · omega
        · have := hread i hi
          omega
      · -- an index is `idx` itself or one of the rest
        have hne : ∀ {i}, idx ≤ i → (idx + 1 ≤ i → data i ≠ object) → data i ≠ object := by
          intro i hi hrest
          rcases Nat.eq_or_lt_of_le hi with rfl | hlt
          · exact h
          · exact hrest hlt
        cases hr : (scan data object (idx + 1) n).1 with
        | some j =>
          rw [hr] at hfound
          obtain ⟨h₁, h₂, h₃, h₄⟩ := hfound
          exact ⟨by omega, by omega, h₃, fun i hi hj => hne hi fun hi' => h₄ i hi' hj⟩
        | none =>
          rw [hr] at hfound
          exact fun i hi hn => hne hi fun hi' => hfound i hi' (by omega)

theorem mem_elements_iff {x : Nat} : x ∈ v.elements ↔ ∃ i < v.size, v.data i = x := by
  simp [Vector.elements]

/-- The scan of a vector ends at the first element that is the object, or there is none; it reads elements only. -/
theorem scan_cases (h : v.size ≤ v.capacity) (object : Nat) (behind : Nat → Nat) :
    (∃ idx read, scan (v.memory behind) object 0 v.size = (some idx, read) ∧ (∀ i ∈ read, i < v.size) ∧
      idx < v.size ∧ v.data idx = object ∧ ∀ i < idx, v.data i ≠ object) ∨
    ∃ read, scan (v.memory behind) object 0 v.size = (none, read) ∧ (∀ i ∈ read, i < v.size) ∧ object ∉ v.elements := by
  obtain ⟨hread, hfound⟩ := scan_spec (v.memory behind) object 0 v.size
  have hmem : ∀ {i}, i < v.size → v.memory behind i = v.data i := fun hi => memory_of_lt (hi.trans_le h)
  rw [Nat.zero_add] at hread hfound
  generalize scan (v.memory behind) object 0 v.size = scanned at hread hfound ⊢
  obtain ⟨found, read⟩ := scanned
  cases found with
  | some idx =>
    obtain ⟨-, hidx, hobj, hbefore⟩ := hfound
    rw [hmem hidx] at hobj
    refine .inl ⟨idx, read, rfl, hread, hidx, hobj, fun i hi => ?_⟩
    rw [← hmem (hi.trans hidx)]
    exact hbefore i (Nat.zero_le i) hi
  | none =>
    refine .inr ⟨read, rfl, hread, fun hin => ?_⟩
    obtain ⟨i, hi, hobj⟩ := mem_elements_iff.mp hin
    exact hfound i (Nat.zero_le i) hi (by rw [hmem hi, hobj])

theorem map_range_split {f : Nat → Nat} {idx n : Nat} (h : idx < n) :
    (List.range n).map f = (List.range idx).map f ++ f idx :: (List.range' (idx + 1) (n - idx - 1)).map f := by
  obtain ⟨k, rfl⟩ := Nat.exists_eq_add_of_lt h
  have hk : idx + k + 1 - idx - 1 = k := by omega
  rw [hk, List.range_eq_range', Nat.add_assoc, ← List.range'_append_1, Nat.zero_add, List.range'_succ, List.map_append,
    List.map_cons, List.range_eq_range']

/-- Moving what lies behind an element one place down takes the element out. -/
theorem map_memmove {f : Nat → Nat} {idx n : Nat} (h : idx < n) :
    (List.range (n - 1)).map (memmove f idx (idx + 1) (n - idx)) =
      (List.range idx).map f ++ (List.range' (idx + 1) (n - idx - 1)).map f := by
  obtain ⟨k, rfl⟩ := Nat.exists_eq_add_of_lt h
  have hk : idx + k + 1 - idx - 1 = k := by omega
  have hn : idx + k + 1 - 1 = idx + k := by omega
  rw [hk, hn, List.range_eq_range', ← List.range'_append_1, Nat.zero_add, List.map_append, List.range_eq_range']
  congr 1
  · refine List.map_congr_left fun i hi => if_neg ?_
    have := List.mem_range'_1.mp hi
    omega
  · refine List.ext_getElem (by simp) fun i hi _ => ?_
    simp only [List.length_map, List.length_range'] at hi
    simp only [List.getElem_map, List.getElem_range', memmove]
    rw [if_pos (by omega)]
    congr 1
    omega

/-- What `vector_remove` does: the first element that is the object goes, and 0 says so. Where the object is in a
full vector, one index behind the block is read. -/
structure Removes (v : Vector) (object : Nat) (r : Called) : Prop where
  elements : r.vector.elements = ZeroServ.vectorRemove v.elements object
  capacity : r.vector.capacity = v.capacity
  factor : r.vector.growthFactor = v.growthFactor
  size : r.vector.size ≤ v.size
  ret : r.ret = 0 ↔ object ∈ v.elements
  inside : (∀ i ∈ r.touched, i < v.capacity) ↔ (object ∈ v.elements → v.size < v.capacity)

theorem vectorRemove_spec (hcap : 0 < v.capacity) (hsize : v.size ≤ v.capacity) (object : Nat) (behind : Nat → Nat) :
    ∃ r, vectorRemove v object behind = some r ∧ Removes v object r := by
  rw [vectorRemove, if_pos hcap]
  rcases scan_cases hsize object behind with ⟨idx, read, hscan, hread, hidx, hobj, hbefore⟩ | ⟨read, hscan, hread, hno⟩
  · have hin : object ∈ v.elements := mem_elements_iff.mpr ⟨idx, hidx, hobj⟩
    simp only [hscan]
    refine ⟨_, rfl, ?_, rfl, rfl, Nat.sub_le _ _, by simp [hin], ?_⟩
    · have hpre : object ∉ (List.range idx).map v.data := by
        simp only [List.mem_map, List.mem_range, not_exists, not_and]
        exact hbefore
      have hafter := map_memmove (f := v.memory behind) hidx
      have hall := map_memory behind (hidx.le.trans hsize)
      have hrest : (List.range' (idx + 1) (v.size - idx - 1)).map (v.memory behind) =
          (List.range' (idx + 1) (v.size - idx - 1)).map v.data := by
        refine List.map_congr_left fun i hi => memory_of_lt ?_
        have := List.mem_range'_1.mp hi
        omega
      rw [hall, hrest] at hafter
      rw [Vector.elements, hafter, ZeroServ.vectorRemove, Vector.elements, map_range_split hidx,
        List.erase_append_right _ hpre, hobj, List.erase_cons_head]
    · -- the last index that the move reads is the size
      constructor
      · intro h _
        exact h v.size (by simp; omega)
      · intro h i hi
        have hlt := h hin
        simp only [List.mem_append, List.mem_range'_1] at hi
        rcases hi with (hi | hi) | hi
        · exact (hread i hi).trans hlt
        · omega
        · omega
  · simp only [hscan]
    exact ⟨_, rfl, by simp [ZeroServ.vectorRemove, List.erase_of_not_mem hno], rfl, rfl, le_refl _, by simp [hno],
      iff_of_true (fun i hi => (hread i hi).trans_le hsize) fun hin => absurd hin hno⟩

/-- `vector_is_exist`: the vector is as it was, and elements only are read. -/
theorem vectorIsExist_spec (hcap : 0 < v.capacity) (hsize : v.size ≤ v.capacity) (object : Nat) (behind : Nat → Nat) :
    ∃ r, vectorIsExist v object behind = some r ∧ r.vector = v ∧
      r.ret = (if ZeroServ.vectorIsExist v.elements object then 1 else 0) ∧
      ∀ i ∈ r.touched, i < v.capacity := by
  rw [vectorIsExist, if_pos hcap]
  rcases scan_cases hsize object behind with ⟨idx, read, hscan, hread, hidx, hobj, -⟩ | ⟨read, hscan, hread, hno⟩
  · have hin : object ∈ v.elements := mem_elements_iff.mpr ⟨idx, hidx, hobj⟩
    simp only [hscan]
    exact ⟨_, rfl, rfl, by simp [hin], fun i hi => (hread i hi).trans_le hsize⟩
  · simp only [hscan]
    exact ⟨_, rfl, rfl, by simp [hno], fun i hi => (hread i hi).trans_le hsize⟩

/-- What `vector_insert` does, where it is possible: the object goes in at the end, inside the block. -/
structure Inserts (rd : Rounding) (v : Vector) (object : Nat) (behind : Nat → Nat) (r : Called) : Prop where
  pos : 0 < v.capacity
  room : v.size ≤ v.capacity
  elements : r.vector.elements = ZeroServ.vectorInsert v.elements object ((v.grow rd behind).data v.size)
  capacity : r.vector.capacity = (v.grow rd behind).capacity
  factor : r.vector.growthFactor = v.growthFactor
  fits : v.size < r.vector.capacity ∧ r.vector.size ≤ r.vector.capacity
  inside : ∀ i ∈ r.touched, i < r.vector.capacity

theorem vectorInsert_spec (h : vectorInsert rd v object behind = some r) : Inserts rd v object behind r := by
  unfold vectorInsert at h
  split at h
  · next hv =>
    dsimp only at h
    split at h
    · next hroom =>
      have hlt : v.size + 1 ≤ (v.grow rd behind).capacity := by
        have := hroom.2
        rw [grow_size] at this
        unfold typeSize at this
        omega
      have hfactor : (v.grow rd behind).growthFactor = v.growthFactor := by
        unfold Vector.grow
        split <;> rfl
      have hold := grow_elements rd behind hv.2
      rw [Vector.elements, grow_size] at hold
      split at h
      · next hobj =>
        obtain rfl := Option.some.inj h
        refine ⟨hv.1, hv.2, ?_, rfl, hfactor, ⟨hlt, by simpa using hlt⟩, ?_⟩
        · rw [ZeroServ.vectorInsert_of_ne hobj, ← hold]
          simp only [Vector.elements, grow_size, List.range_succ, List.map_append, List.map_cons, List.map_nil,
            Function.update_self]
          congr 1
          refine List.map_congr_left fun i hi => Function.update_of_ne ?_ ..
          exact (List.mem_range.mp hi).ne
        · simp only [List.mem_singleton, forall_eq, grow_size]
          exact hlt
      · next hobj =>
        obtain rfl := Option.some.inj h
        refine ⟨hv.1, hv.2, ?_, rfl, hfactor, ⟨hlt, by simpa using hlt⟩, by simp⟩
        rw [ZeroServ.vectorInsert, if_neg hobj, ← hold]
        simp [Vector.elements, List.range_succ]
    · exact absurd h.symm (Option.some_ne_none r)
  · exact absurd h.symm (Option.some_ne_none r)

/-! ## The growth -/

/-- A growth is strict: the product is no less than the capacity, and rounding keeps it so. -/
theorem lt_newCapacity (rd : Rounding) (hg : 1 < v.growthFactor) (hcap : v.capacity < 2 ^ 20) :
    v.capacity < v.newCapacity rd := by
  have hexact : rd.round v.capacity = v.capacity := rd.exact _ (by omega)
  have hprod : (v.capacity : ℚ) ≤ rd.round (rd.round v.capacity * v.growthFactor) := by
    calc (v.capacity : ℚ) = rd.round v.capacity := hexact.symm
      _ ≤ rd.round (rd.round v.capacity * v.growthFactor) := by
        refine rd.mono ?_
        rw [hexact]
        exact le_mul_of_one_le_right v.capacity.cast_nonneg hg.le
  have hsum : ((v.capacity + 1 : ℕ) : ℚ) ≤ rd.round (rd.round (rd.round v.capacity * v.growthFactor) + 1) := by
    rw [← rd.exact (v.capacity + 1) (by omega)]
    refine rd.mono ?_
    push_cast
    linarith
  have hfloor : ((v.capacity + 1 : ℕ) : ℤ) ≤ (rd.round (rd.round (rd.round v.capacity * v.growthFactor) + 1)).floor :=
    Rat.le_floor_iff.mpr (by exact_mod_cast hsum)
  unfold Vector.newCapacity
  omega

/-- The growth that an insertion needs, if it needs one, is to fewer than 2^20 elements. -/
def Small (rd : Rounding) (v : Vector) : VectorCall → Prop
  | .insert _ _ => v.size = v.capacity → v.newCapacity rd < 2 ^ 20
  | _ => True

/-- No assertion of `vector_insert` fails. -/
theorem vectorInsert_isSome (hpos : 0 < v.capacity) (hsize : v.size ≤ v.capacity) (hg : 1 < v.growthFactor)
    (hcap : v.capacity < 2 ^ 20)
    (hsmall : v.size = v.capacity → v.newCapacity rd < 2 ^ 20) (object : Nat) (behind : Nat → Nat) :
    ∃ r, vectorInsert rd v object behind = some r ∧ (v.grow rd behind).capacity < 2 ^ 20 := by
  have hroom : v.size < (v.grow rd behind).capacity ∧ (v.grow rd behind).capacity < 2 ^ 20 := by
    unfold Vector.grow
    split
    · next hfull => exact ⟨hfull ▸ lt_newCapacity rd hg hcap, hsmall hfull⟩
    · next hnot => exact ⟨lt_of_le_of_ne hsize hnot, hcap⟩
  have hassert : (v.grow rd behind).capacity * typeSize < 2 ^ 31 ∧
      (v.grow rd behind).size * typeSize + typeSize ≤ (v.grow rd behind).capacity * typeSize := by
    rw [grow_size]
    unfold typeSize
    omega
  rw [vectorInsert, if_pos ⟨hpos, hsize⟩]
  dsimp only
  rw [if_pos hassert]
  split
  · exact ⟨_, rfl, hroom.2⟩
  · exact ⟨_, rfl, hroom.2⟩

end elements

/-! ## The vector is a list -/

/-- The list that a call leaves of a list. -/
def listStep (l : List Nat) : VectorCall → List Nat
  | .insert object _ => l ++ [object]
  | .remove object _ => l.erase object
  | .isExist _ _ => l

/-- No `NULL` is inserted. -/
def VectorCall.NonNull : VectorCall → Prop
  | .insert object _ => object ≠ 0
  | _ => True

/-- What the callers see of a vector is a list. -/
structure IsList (rd : Rounding) (v : Vector) (l : List Nat) : Prop where
  size : v.size = l.length
  access : ∀ i (h : i < l.length), vectorAccess v i = some l[i]
  isExist : ∀ object behind, ∃ r, vectorIsExist v object behind = some r ∧ r.ret = if object ∈ l then 1 else 0
  remove : ∀ object behind, ∃ r, vectorRemove v object behind = some r ∧ (r.ret = 0 ↔ object ∈ l)
  room : v.size ≤ v.capacity
  growth : ∀ object behind r, v.size = v.capacity → vectorInsert rd v object behind = some r →
    v.capacity < r.vector.capacity

/-- The invariant: the elements are the list, in a block that is not too large. -/
structure Holds (v : Vector) (l : List Nat) : Prop where
  elements : v.elements = l
  pos : 0 < v.capacity
  room : v.size ≤ v.capacity
  small : v.capacity < 2 ^ 20
  factor : 1 < v.growthFactor

namespace Holds

variable {rd : Rounding} {v : Vector} {l : List Nat}

theorem isList (h : Holds v l) : IsList rd v l := by
  obtain ⟨rfl, hpos, hroom, hsmall, hfactor⟩ := h
  refine ⟨(length_elements v).symm, fun i hi => ?_, fun object behind => ?_, fun object behind => ?_, hroom, ?_⟩
  · rw [length_elements] at hi
    rw [vectorAccess, if_pos (hi.trans_le hroom)]
    simp [Vector.elements]
  · obtain ⟨r, hr, -, hret, -⟩ := vectorIsExist_spec hpos hroom object behind
    exact ⟨r, hr, by simpa using hret⟩
  · obtain ⟨r, hr, h⟩ := vectorRemove_spec hpos hroom object behind
    exact ⟨r, hr, h.ret⟩
  · intro object behind r hfull hr
    rw [(vectorInsert_spec hr).capacity, Vector.grow, if_pos hfull]
    exact lt_newCapacity rd hfactor hsmall

/-- A call that fits is possible, and does to the vector what it does to the list. -/
theorem step {c : VectorCall} (h : Holds v l) (hc : c.NonNull ∧ Small rd v c) :
    ∃ v', vectorStep rd v c = some v' ∧ Holds v' (listStep l c) := by
  obtain ⟨rfl, hpos, hroom, hsmall, hfactor⟩ := h
  unfold vectorStep
  cases c with
  | insert object behind =>
    obtain ⟨r, hr, hlt⟩ := vectorInsert_isSome hpos hroom hfactor hsmall hc.2 object behind
    have h := vectorInsert_spec hr
    refine ⟨r.vector, by simp [VectorCall.result, hr], ?_, Nat.zero_lt_of_lt h.fits.1, h.fits.2, h.capacity ▸ hlt,
      h.factor ▸ hfactor⟩
    rw [h.elements, ZeroServ.vectorInsert_of_ne hc.1]
    rfl
  | remove object behind =>
    obtain ⟨r, hr, h⟩ := vectorRemove_spec hpos hroom object behind
    exact ⟨r.vector, by simp [VectorCall.result, hr], h.elements, h.capacity ▸ hpos, h.capacity ▸ h.size.trans hroom,
      h.capacity ▸ hsmall, h.factor ▸ hfactor⟩
  | isExist object behind =>
    obtain ⟨r, hr, hv, -⟩ := vectorIsExist_spec hpos hroom object behind
    exact ⟨v, by simp [VectorCall.result, hr, hv], rfl, hpos, hroom, hsmall, hfactor⟩

end Holds

/-- For every sequence of calls that inserts no `NULL`, from any capacity and factor, as long as the sizes are below
2^20: no assertion fails, and the vector is the list that the calls make. -/
theorem vector_is_list (rd : Rounding) {capacity : Nat} {factor : ℚ} {data : Nat → Nat} {v₀ : Vector}
    (h₀ : vectorCreate capacity factor data = some v₀) (hpos : 0 < capacity) (hcap : capacity < 2 ^ 20)
    (es : List VectorCall) (hes : AllEvents (vectorStep rd) (fun v c => c.NonNull ∧ Small rd v c) v₀ es) :
    ∃ v, exec (vectorStep rd) v₀ es = some v ∧ IsList rd v (es.foldl listStep []) := by
  unfold vectorCreate at h₀
  split at h₀
  · next hfactor =>
    obtain rfl := Option.some.inj h₀
    have hstart : Holds ⟨data, factor, 0, capacity⟩ [] := ⟨rfl, hpos, Nat.zero_le _, hcap, hfactor⟩
    obtain ⟨v, hv, h⟩ := exec_simulates (fun _ _ _ => Holds.step) hstart hes
    exact ⟨v, hv, h.isList⟩
  · nomatch h₀

instance : DecidablePred VectorCall.NonNull
  | .insert _ _ => inferInstanceAs (Decidable (_ ≠ _))
  | .remove _ _ => inferInstanceAs (Decidable True)
  | .isExist _ _ => inferInstanceAs (Decidable True)

instance (rd : Rounding) (v : Vector) : DecidablePred (Small rd v)
  | .insert _ _ => inferInstanceAs (Decidable (_ → _))
  | .remove _ _ => inferInstanceAs (Decidable True)
  | .isExist _ _ => inferInstanceAs (Decidable True)

/-- A block of one element, which grows to three. -/
def one : Vector := ⟨fun _ => 0, 2, 0, 1⟩

theorem vectorCreate_one : vectorCreate 1 2 (fun _ => 0) = some one :=
  if_pos (by norm_num)

/-- Two objects go in, and the first one out again. -/
theorem vector_is_list_grown : ∃ v, exec (vectorStep .rational) one
    [.insert 7 fun _ => 0, .insert 8 fun _ => 5, .remove 7 fun _ => 0] = some v ∧ IsList .rational v [8] :=
  vector_is_list .rational vectorCreate_one (by decide) (by decide) _ (by decide +kernel)

/-! ## Inside the block -/

/-- A call, where it is possible, reads and writes elements below the capacity only. -/
def Inside (rd : Rounding) (v : Vector) (c : VectorCall) : Prop :=
  ∀ r, c.result rd v = some r → ∀ i ∈ r.touched, i < r.vector.capacity

/-- An object that is removed is not in a full vector. -/
def Roomy (v : Vector) : VectorCall → Prop
  | .remove object _ => object ∈ v.elements → v.size < v.capacity
  | _ => True

section inside

variable {rd : Rounding} {v v' : Vector} {c : VectorCall} {r : Called}

/-- The assertions on the capacity. -/
theorem pos_of_result (h : c.result rd v = some r) : 0 < v.capacity := by
  cases c with
  | insert object behind => exact (vectorInsert_spec h).pos
  | remove object behind =>
    by_contra hzero
    rw [VectorCall.result, vectorRemove, if_neg hzero] at h
    nomatch h
  | isExist object behind =>
    by_contra hzero
    rw [VectorCall.result, vectorIsExist, if_neg hzero] at h
    nomatch h

theorem inside_iff (hsize : v.size ≤ v.capacity) : Inside rd v c ↔ Roomy v c := by
  by_cases hpos : 0 < v.capacity
  · cases c with
    | insert object behind => exact iff_of_true (fun r hr => (vectorInsert_spec hr).inside) trivial
    | remove object behind =>
      obtain ⟨r, hr, h⟩ := vectorRemove_spec hpos hsize object behind
      simp [Inside, Roomy, VectorCall.result, hr, h.capacity, h.inside]
    | isExist object behind =>
      obtain ⟨r, hr, hv, -, htouched⟩ := vectorIsExist_spec hpos hsize object behind
      simpa [Inside, Roomy, VectorCall.result, hr, hv] using htouched
  · have hno : v.elements = [] := List.length_eq_zero_iff.mp (by rw [length_elements]; omega)
    refine iff_of_true (fun r hr => absurd (pos_of_result hr) hpos) ?_
    cases c <;> simp [Roomy, hno]

/-- The elements are in the block. -/
def Fits (v : Vector) : Prop := v.size ≤ v.capacity

theorem Fits.step (hsize : Fits v) (h : vectorStep rd v c = some v') : Fits v' := by
  obtain ⟨r, hr, rfl⟩ := Option.map_eq_some_iff.mp h
  have hpos := pos_of_result hr
  cases c with
  | insert object behind => exact (vectorInsert_spec hr).fits.2
  | remove object behind =>
    obtain ⟨r', hr', hrem⟩ := vectorRemove_spec hpos hsize object behind
    obtain rfl := Option.some.inj (hr'.symm.trans hr)
    rw [Fits, hrem.capacity]
    exact hrem.size.trans hsize
  | isExist object behind =>
    obtain ⟨r', hr', hv, -⟩ := vectorIsExist_spec hpos hsize object behind
    obtain rfl := Option.some.inj (hr'.symm.trans hr)
    exact hv ▸ hsize

end inside

/-- In every run from any capacity: all calls stay inside the block, exactly if none removes an object that is in a
full vector. -/
theorem vector_inside_iff (rd : Rounding) {capacity : Nat} {factor : ℚ} {data : Nat → Nat} {v₀ : Vector}
    (h₀ : vectorCreate capacity factor data = some v₀) (es : List VectorCall) :
    AllSteps (vectorStep rd) (fun v c _ => Inside rd v c) v₀ es ↔
      AllSteps (vectorStep rd) (fun v c _ => Roomy v c) v₀ es := by
  have hstart : Fits v₀ := by
    unfold vectorCreate at h₀
    split at h₀
    · obtain rfl := Option.some.inj h₀
      exact Nat.zero_le _
    · nomatch h₀
  exact AllSteps.congr (AllStates.of_step hstart (fun _ _ _ => Fits.step) es) fun _ _ _ hsize _ => inside_iff hsize

instance (v : Vector) : DecidablePred (Roomy v)
  | .insert _ _ => inferInstanceAs (Decidable True)
  | .remove _ _ => inferInstanceAs (Decidable (_ → _))
  | .isExist _ _ => inferInstanceAs (Decidable True)

/-- Two objects go in, and the first one out again. -/
theorem vector_inside_iff_grown : AllSteps (vectorStep .rational) (fun v c _ => Inside .rational v c) one
    [.insert 7 fun _ => 0, .insert 8 fun _ => 5, .remove 7 fun _ => 0] :=
  (vector_inside_iff .rational vectorCreate_one _).mpr (by decide +kernel)

/-- An object goes in and out of a block of one element: the index behind it is read. -/
theorem full_remove_outside : ∃ v₀, vectorCreate 1 2 (fun _ => 0) = some v₀ ∧
    ¬AllSteps (vectorStep .rational) (fun v c _ => Inside .rational v c) v₀
    [.insert 7 fun _ => 0, .remove 7 fun _ => 0] := by
  refine ⟨one, vectorCreate_one, fun h => ?_⟩
  have hin := ((h _ rfl).2 _ rfl).1 _ rfl 1 (by decide)
  exact absurd hin (by decide)

end ZeroServ.VectorMem
