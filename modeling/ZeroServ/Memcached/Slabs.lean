import ZeroServ.Lib.CInt
import ZeroServ.Lib.ChunkPool
import ZeroServ.Lib.Run
import ZeroServ.Lib.SwapRemove

/-!
# The slab allocator

`slabs.c`: each class hands out chunks of its own size, of pages of `POWER_BLOCK` bytes, from its free list or from
the end of the page it got last. `do_slabs_reassign` moves a page to another class. It takes the chunks of the page
off the free list; the loop that unlinked the items in the page is commented out, so that what is live there is
handed out again. `chunks_apart_run` says what keeps live chunks apart.

An address is a number, and the counters of pages do not wrap: the address space has not as many. Neither the
contents of the chunks nor the statistics are modelled. Whether `malloc` and `realloc` have memory is for the
environment to say; no memory is had for more bytes than half the address space.
-/

namespace ZeroServ.Mc.Slab

open CInt ChunkPool SwapRemove Run

def POWER_SMALLEST : Nat := 1
def POWER_BLOCK : Nat := 1048576
def CHUNK_ALIGN_BYTES : UInt64 := 8

/-- `slabclass_t`: `slots` has `sl_curr` entries and `slab_list` has `slabs`. -/
structure SlabClass where
  size : UInt32
  perslab : UInt32
  slots : List Nat
  slTotal : UInt32
  endPagePtr : Option Nat
  endPageFree : UInt32
  slabList : List Nat
  listSize : UInt32
  killing : UInt32
  deriving DecidableEq, Repr

/-- `killing` as `do_slabs_reassign` sets it. -/
def SlabClass.dying (p : SlabClass) : UInt32 := if p.killing = 0 then 1 else p.killing

/-- The variables of `slabs.c`. -/
structure Slabs where
  slabclass : Nat → SlabClass
  memLimit : UInt64
  memMalloced : UInt64
  powerLargest : Nat
  memBase : Option Nat
  memCurrent : Nat
  memAvail : UInt64

namespace Slabs

variable (s : Slabs)

/-- A class is changed. -/
def setClass (id : Nat) (p : SlabClass) : Slabs := { s with slabclass := Function.update s.slabclass id p }

@[simp] theorem setClass_self (id : Nat) (p : SlabClass) : (s.setClass id p).slabclass id = p := Function.update_self ..

theorem setClass_of_ne {id j : Nat} (hj : j ≠ id) (p : SlabClass) : (s.setClass id p).slabclass j = s.slabclass j :=
  Function.update_of_ne hj ..

/-- `memory_allocate`; `page` is what `malloc` returns. -/
def memoryAllocate (size : UInt64) (page : Option Nat) : Slabs × Option Nat :=
  match s.memBase with
  | none => (s, page)
  | some _ =>
    if size > s.memAvail then (s, none)
    else
      let size := if size % CHUNK_ALIGN_BYTES ≠ 0 then size + (CHUNK_ALIGN_BYTES - size % CHUNK_ALIGN_BYTES) else size
      ({ s with
        memCurrent := s.memCurrent + size.toNat
        memAvail := if size < s.memAvail then s.memAvail - size else 0 }, some s.memCurrent)

/-- `grow_slab_list`; `memory` is whether `realloc` has it. -/
def growSlabList (id : Nat) (memory : Bool) : Slabs × Bool :=
  let p := s.slabclass id
  if p.slabList.length = p.listSize.toNat then
    let newSize := if p.listSize ≠ 0 then p.listSize * 2 else 16
    if memory && newSize ≠ 0 then (s.setClass id { p with listSize := newSize }, true) else (s, false)
  else (s, true)

/-- `len` of `do_slabs_newslab`: a page, whatever the class. -/
def pageLen : UInt64 := .ofNat POWER_BLOCK

/-- `do_slabs_newslab` -/
def doSlabsNewslab (id : Nat) (page : Option Nat) (memory : Bool) : Slabs × Bool :=
  if s.memLimit ≠ 0 ∧ s.memMalloced + pageLen > s.memLimit ∧ (s.slabclass id).slabList ≠ [] then (s, false)
  else
    match s.growSlabList id memory with
    | (s, false) => (s, false)
    | (s, true) =>
      match s.memoryAllocate pageLen page with
      | (s, none) => (s, false)
      | (s, some ptr) =>
        let p := s.slabclass id
        ({ s with memMalloced := s.memMalloced + pageLen }.setClass id
          { p with endPagePtr := some ptr, endPageFree := p.perslab, slabList := p.slabList ++ [ptr] }, true)

/-- The part of `do_slabs_alloc` that takes a chunk, off the free list or from the end of the page. -/
def takeChunk (id : Nat) : Slabs × Option Nat :=
  let p := s.slabclass id
  match p.slots.getLast? with
  | some ret => (s.setClass id { p with slots := p.slots.dropLast }, some ret)
  | none =>
    match p.endPagePtr with
    | none => (s, none)
    | some ret =>
      let endPageFree := p.endPageFree - 1
      (s.setClass id { p with endPageFree, endPagePtr := if endPageFree ≠ 0 then some (ret + p.size.toNat) else none },
      some ret)

/-- `do_slabs_alloc` -/
def doSlabsAlloc (id : Nat) (page : Option Nat) (memory : Bool) : Slabs × Option Nat :=
  if id < POWER_SMALLEST ∨ id > s.powerLargest then (s, none)
  else if (s.slabclass id).endPagePtr.isSome || (s.slabclass id).slots ≠ [] then s.takeChunk id
  else
    match s.doSlabsNewslab id page memory with
    | (s, false) => (s, none)
    | (s, true) => s.takeChunk id

/-- `new_size` of `do_slabs_free` -/
def newSlots (slTotal : UInt32) : Int := if slTotal ≠ 0 then int32 (slTotal * 2).toNat else 16

/-- `realloc` of `new_size` pointers. -/
def reallocSlots (newSize : Int) (memory : Bool) : Bool := memory && sizeT (newSize * 8) < 2 ^ 63

/-- `do_slabs_free` -/
def doSlabsFree (ptr : Nat) (id : Nat) (memory : Bool) : Slabs :=
  if id < POWER_SMALLEST ∨ id > s.powerLargest then s
  else
    let p := s.slabclass id
    if p.slots.length = p.slTotal.toNat then
      if reallocSlots (newSlots p.slTotal) memory then
        s.setClass id { p with slots := p.slots ++ [ptr], slTotal := .ofInt (newSlots p.slTotal) }
      else s
    else s.setClass id { p with slots := p.slots ++ [ptr] }

/-- The guards of `do_slabs_reassign`: what is left, if it goes on. -/
def reassignGuards (src dst : Nat) (memory : Bool) : Option Slabs :=
  if src < POWER_SMALLEST ∨ src > s.powerLargest ∨ dst < POWER_SMALLEST ∨ dst > s.powerLargest then none
  else if (s.slabclass src).endPagePtr.isSome ∨ (s.slabclass src).slabList = [] then none
  else if (s.slabclass dst).endPagePtr.isSome then none
  else
    match s.growSlabList dst memory with
    | (_, false) => none
    | (s, true) => some s

/-- The page that `do_slabs_reassign` moves. -/
def movedSlab (src : Nat) : Nat := (s.slabclass src).slabList.getD ((s.slabclass src).dying - 1).toNat 0

/-- A pointer of the free list lies in a page. -/
def inSlab (slab ptr : Nat) : Bool := slab ≤ ptr && ptr < slab + POWER_BLOCK

/-- The loop over the free list, from its end down. -/
def discard (slab : Nat) (slots : List Nat) : List Nat :=
  sweep (inSlab slab) slots (int32 (slots.length - 1) + 1).toNat

/-- `do_slabs_reassign` behind its guards. -/
def moveSlab (src dst : Nat) : Slabs :=
  let slab := s.movedSlab src
  let p := s.slabclass src
  let s := s.setClass src
    { p with slots := discard slab p.slots, slabList := removeAt p.slabList (p.dying - 1).toNat, killing := 0 }
  let dp := s.slabclass dst
  s.setClass dst { dp with slabList := dp.slabList ++ [slab], endPagePtr := some slab, endPageFree := dp.perslab }

/-- `do_slabs_reassign` -/
def doSlabsReassign (src dst : UInt8) (memory : Bool) : Slabs × Int :=
  match s.reassignGuards src.toNat dst.toNat memory with
  | none => (s, 0)
  | some s => (s.moveSlab src.toNat dst.toNat, 1)

end Slabs

/-! ## Runs -/

/-- The allocator with the chunks that it handed out and that were not freed, each with its class. -/
structure Heap where
  slabs : Slabs
  live : List (Nat × Nat)

/-- The pages of all classes. -/
def Slabs.pages (s : Slabs) : List Nat := (List.range (s.powerLargest + 1)).flatMap fun id => (s.slabclass id).slabList

/-- A call, with what `malloc` returns and whether `realloc` has memory. -/
inductive SlabStep where
  | alloc (id : Nat) (page : Option Nat) (memory : Bool)
  | free (chunk : Nat × Nat) (memory : Bool)
  | reassign (src dst : UInt8) (memory : Bool)
  deriving DecidableEq, Repr

/-- One call, if it is possible: `malloc` returns memory apart from what is in use, and a live chunk is freed, with
its class. -/
def heapStep (h : Heap) : SlabStep → Option Heap
  | .alloc id page memory =>
    if ∀ a ∈ page, ∀ b ∈ h.slabs.pages, Apart a POWER_BLOCK b POWER_BLOCK then
      let (slabs, ret) := h.slabs.doSlabsAlloc id page memory
      some { slabs, live := ret.elim h.live fun ptr => (ptr, id) :: h.live }
    else none
  | .free c memory =>
    if c ∈ h.live then some { slabs := h.slabs.doSlabsFree c.1 c.2 memory, live := h.live.erase c }
    else none
  | .reassign src dst memory => some { h with slabs := (h.slabs.doSlabsReassign src dst memory).1 }

/-- The sizes of the classes, with pages that hold the chunks. -/
structure Sizes where
  size : Nat → UInt32
  perslab : Nat → UInt32
  fits : ∀ id, (size id).toNat * (perslab id).toNat ≤ POWER_BLOCK

/-- The memory allocated in advance, if any: where it starts. -/
structure Start where
  powerLargest : Nat
  memLimit : UInt64
  memMalloced : UInt64
  memBase : Option Nat

/-- The allocator as `slabs_init` leaves it, over any sizes: no class has pages. -/
def heapStart (Z : Sizes) (t : Start) : Heap where
  slabs :=
    { slabclass := fun id =>
        { size := Z.size id, perslab := Z.perslab id, slots := [], slTotal := 0, endPagePtr := none, endPageFree := 0,
          slabList := [],
          listSize := 0, killing := 0 }
      memLimit := t.memLimit
      memMalloced := t.memMalloced
      powerLargest := t.powerLargest
      memBase := t.memBase
      memCurrent := t.memBase.getD 0
      memAvail := if t.memBase.isSome then t.memLimit else 0 }
  live := []

/-- What is to hold: live chunks do not overlap, each lies in a page, and a free list has no live chunk and none of a
page of another class. -/
structure ChunksApart (h : Heap) : Prop where
  disjoint : h.live.Pairwise fun c d =>
    Apart c.1 (h.slabs.slabclass c.2).size.toNat d.1 (h.slabs.slabclass d.2).size.toNat
  inside : ∀ c ∈ h.live, ∃ a ∈ (h.slabs.slabclass c.2).slabList, a ≤ c.1 ∧
    c.1 + (h.slabs.slabclass c.2).size.toNat ≤ a + POWER_BLOCK
  notLive : ∀ id, ∀ p ∈ (h.slabs.slabclass id).slots, ∀ c ∈ h.live, c.1 ≠ p
  ownPage : ∀ id, ∀ p ∈ (h.slabs.slabclass id).slots,
    ∀ other ≠ id, ∀ a ∈ (h.slabs.slabclass other).slabList, ¬(a ≤ p ∧ p < a + POWER_BLOCK)

/-- A class with at least one byte in a chunk and one chunk in a page. -/
def SlabClass.HasChunks (p : SlabClass) : Prop := 0 < p.size ∧ 0 < p.perslab

/-- The condition on a call: chunks are asked of classes that have some, and a page goes to such a class, with
nothing live in it. -/
def Vacated (h : Heap) : SlabStep → Prop
  | .alloc id _ _ => (h.slabs.slabclass id).HasChunks
  | .free _ _ => True
  | .reassign src dst memory =>
    h.slabs.reassignGuards src.toNat dst.toNat memory ≠ none →
      (h.slabs.slabclass dst.toNat).HasChunks ∧
        ∀ c ∈ h.live, ¬(h.slabs.movedSlab src.toNat ≤ c.1 ∧ c.1 < h.slabs.movedSlab src.toNat + POWER_BLOCK)

/-! ## The chunks as a pool -/

/-- The chunks at the end of the page that a class got last. -/
def SlabClass.tail (p : SlabClass) : List Nat :=
  p.endPagePtr.elim [] fun e => (List.range p.endPageFree.toNat).map fun k => e + k * p.size.toNat

def Sizes.layout (Z : Sizes) : Layout Nat where
  block := POWER_BLOCK
  size id := (Z.size id).toNat
  count id := (Z.perslab id).toNat
  pos := by decide
  fits := Z.fits

/-- Free is what is on the free list of a class, and the end of its page. -/
def Heap.pool (h : Heap) : Pool Nat where
  pages id := (h.slabs.slabclass id).slabList
  free id := (h.slabs.slabclass id).slots ++ (h.slabs.slabclass id).tail
  live := h.live

/-- What holds of the counters of a class. -/
structure SlabClass.Ok (p : SlabClass) : Prop where
  killing : p.killing = 0
  slots : p.slots.length ≤ p.slTotal.toNat
  total : p.slTotal.toNat < 2 ^ 31
  tail : p.endPagePtr ≠ none → p.endPageFree ≠ 0

/-- The invariant: the chunks are a well-formed pool, and the memory allocated in advance goes on behind its pages. -/
structure Inv (Z : Sizes) (h : Heap) : Prop where
  sizes : ∀ id, (h.slabs.slabclass id).size = Z.size id ∧ (h.slabs.slabclass id).perslab = Z.perslab id
  ok : ∀ id, (h.slabs.slabclass id).Ok
  range : ∀ id, (h.slabs.slabclass id).slabList ≠ [] → POWER_SMALLEST ≤ id ∧ id ≤ h.slabs.powerLargest
  bump : h.slabs.memBase ≠ none → ∀ id, ∀ a ∈ (h.slabs.slabclass id).slabList, a + POWER_BLOCK ≤ h.slabs.memCurrent
  pool : h.pool.Wf Z.layout

namespace Inv

variable {Z : Sizes} {h : Heap}

/-- The invariant gives what is to hold. -/
theorem chunksApart (hi : Inv Z h) : ChunksApart h := by
  have hsize : ∀ id, (h.slabs.slabclass id).size.toNat = Z.layout.size id := fun id => by rw [(hi.sizes id).1]; rfl
  refine ⟨?_, ?_, ?_, ?_⟩
  · simp only [hsize]
    exact hi.pool.live_apart
  · intro c hc
    rw [hsize]
    exact hi.pool.live_inside hc
  · intro id p hp c hc
    exact hi.pool.free_not_live (List.mem_append_left _ hp) hc
  · intro id p hp other hne a ha
    exact hi.pool.free_page (List.mem_append_left _ hp) ha hne

theorem heapStart (Z : Sizes) (t : Start) : Inv Z (heapStart Z t) where
  sizes _ := ⟨rfl, rfl⟩
  ok _ := ⟨rfl, Nat.le_refl _, Nat.two_pow_pos 31, fun h => absurd rfl h⟩
  range _ h := absurd rfl h
  bump _ _ _ ha := absurd ha (List.not_mem_nil)
  pool :=
    { apart := fun ha => absurd ha (List.not_mem_nil)
      pages := fun _ => List.nodup_nil
      free := fun _ => List.nodup_nil
      live := List.nodup_nil
      freeChunk := fun hp => absurd hp (List.not_mem_nil)
      liveChunk := fun hc => absurd hc (List.not_mem_nil)
      notFree := fun hc => absurd hc (List.not_mem_nil) }

section update

variable {s : Slabs} {live live' : List (Nat × Nat)} {id : Nat} {p : SlabClass} (hi : Inv Z ⟨s, live⟩)
  (hsize : p.size = (s.slabclass id).size) (hper : p.perslab = (s.slabclass id).perslab) (hok : p.Ok)

include hi hsize hper hok

/-- One class is changed, and the chunks are a pool again. -/
theorem setClass (hrange : p.slabList ≠ [] → POWER_SMALLEST ≤ id ∧ id ≤ s.powerLargest)
    (hbump : s.memBase ≠ none → ∀ a ∈ p.slabList, a + POWER_BLOCK ≤ s.memCurrent) {Q : Pool Nat} (hwf : Q.Wf Z.layout)
    (hpages : (Q.pages id).Perm p.slabList) (hfree : (Q.free id).Perm (p.slots ++ p.tail))
    (hother : ∀ j ≠ id, Q.pages j = (s.slabclass j).slabList ∧ Q.free j = (s.slabclass j).slots ++ (s.slabclass j).tail)
    (hlive : Q.live = live') : Inv Z ⟨s.setClass id p, live'⟩ := by
  have hself := s.setClass_self id p
  have hclass : ∀ j ≠ id, (s.setClass id p).slabclass j = s.slabclass j := fun j hj => s.setClass_of_ne hj p
  refine ⟨fun j => ?_, fun j => ?_, fun j => ?_, fun hbase j => ?_,
    Pool.Similar.wf ⟨fun j => ?_, fun j => ?_, hlive⟩ hwf⟩ <;>
    by_cases hj : j = id
  · rw [hj, hself]
    exact ⟨hsize.trans (hi.sizes id).1, hper.trans (hi.sizes id).2⟩
  · rw [hclass j hj]
    exact hi.sizes j
  · rw [hj, hself]
    exact hok
  · rw [hclass j hj]
    exact hi.ok j
  · rw [hj, hself]
    exact hrange
  · rw [hclass j hj]
    exact hi.range j
  · rw [hj, hself]
    exact hbump hbase
  · rw [hclass j hj]
    exact hi.bump hbase j
  · rw [hj, Heap.pool]
    dsimp only
    rw [hself]
    exact hpages
  · rw [Heap.pool, (hother j hj).1]
    dsimp only
    rw [hclass j hj]
  · rw [hj, Heap.pool]
    dsimp only
    rw [hself]
    exact hfree
  · rw [Heap.pool, (hother j hj).2]
    dsimp only
    rw [hclass j hj]

/-- The pages of the class stay, and one of its free chunks becomes live. -/
theorem take {ret : Nat} (hpages : p.slabList = (s.slabclass id).slabList)
    (hfree : ((s.slabclass id).slots ++ (s.slabclass id).tail).Perm (ret :: (p.slots ++ p.tail))) :
    Inv Z ⟨s.setClass id p, (ret, id) :: live⟩ := by
  have hmem : ret ∈ (Heap.pool ⟨s, live⟩).free id := hfree.mem_iff.mpr List.mem_cons_self
  refine hi.setClass hsize hper hok (hpages ▸ hi.range id) (hpages ▸ fun hbase => hi.bump hbase id)
    (hi.pool.take hmem) ?_ ?_ ?_ rfl
  · rw [hpages]
    exact .refl _
  · rw [Pool.take_free, if_pos rfl]
    exact ((List.perm_cons_erase hmem).symm.trans hfree).cons_inv
  · intro j hj
    exact ⟨rfl, by rw [Pool.take_free, if_neg hj]; rfl⟩

/-- The pages of the class stay, and one of its live chunks becomes free. -/
theorem give {ptr : Nat} (hlive : (ptr, id) ∈ live) (hpages : p.slabList = (s.slabclass id).slabList)
    (hfree : (p.slots ++ p.tail).Perm ((s.slabclass id).slots ++ (s.slabclass id).tail ++ [ptr])) :
    Inv Z ⟨s.setClass id p, live.erase (ptr, id)⟩ := by
  refine hi.setClass hsize hper hok (hpages ▸ hi.range id) (hpages ▸ fun hbase => hi.bump hbase id)
    (hi.pool.give hlive) ?_ ?_ ?_ rfl
  · rw [hpages]
    exact .refl _
  · rw [Pool.give_free, if_pos rfl]
    exact hfree.symm
  · intro j hj
    exact ⟨rfl, by rw [Pool.give_free, if_neg hj]; rfl⟩

/-- The class gets a page, and nothing is left of the end of its last one. -/
theorem addPage {ptr : Nat} (hid : POWER_SMALLEST ≤ id ∧ id ≤ s.powerLargest) (hpos : 0 < Z.size id)
    (hfresh : ∀ j, ∀ b ∈ (s.slabclass j).slabList, Apart ptr POWER_BLOCK b POWER_BLOCK)
    (hbump : s.memBase ≠ none → ptr + POWER_BLOCK ≤ s.memCurrent) (hnone : (s.slabclass id).endPagePtr = none)
    (hslots : p.slots = (s.slabclass id).slots) (hpages : p.slabList = (s.slabclass id).slabList ++ [ptr])
    (hptr : p.endPagePtr = some ptr) (hfull : p.endPageFree = p.perslab) : Inv Z ⟨s.setClass id p, live⟩ := by
  have hwf := hi.pool.addPage (i := id) (UInt32.lt_iff_toNat_lt.mp hpos) hfresh
  refine hi.setClass hsize hper hok (fun _ => hid) ?_ hwf ?_ ?_ ?_ rfl
  · intro hbase a ha
    rw [hpages, List.mem_append, List.mem_singleton] at ha
    rcases ha with ha | rfl
    · exact hi.bump hbase id a ha
    · exact hbump hbase
  · rw [Pool.addPage_pages, if_pos rfl, hpages]
    exact .refl _
  · have hnotail : (s.slabclass id).tail = [] := by rw [SlabClass.tail, hnone, Option.elim_none]
    have htail : p.tail = Z.layout.chunks id ptr := by
      rw [SlabClass.tail, hptr, Option.elim_some, hfull, hper, hsize, (hi.sizes id).1, (hi.sizes id).2]
      rfl
    rw [Pool.addPage_free, if_pos rfl, hslots, htail, Heap.pool]
    dsimp only
    rw [hnotail, List.append_nil]
  · intro j hj
    rw [Pool.addPage_pages, if_neg hj, Pool.addPage_free, if_neg hj]
    exact ⟨rfl, rfl⟩

/-- The class gives up a page with nothing live in it. -/
theorem dropPage {slab : Nat} (hmem : slab ∈ (s.slabclass id).slabList)
    (hlive : ∀ c ∈ live, ¬(slab ≤ c.1 ∧ c.1 < slab + POWER_BLOCK)) (hnone : (s.slabclass id).endPagePtr = none)
    (hptr : p.endPagePtr = none) (hpages : p.slabList.Perm ((s.slabclass id).slabList.erase slab))
    (hslots : p.slots.Perm ((s.slabclass id).slots.filter fun q => !Slabs.inSlab slab q)) :
    Inv Z ⟨s.setClass id p, live⟩ := by
  have hsub : ∀ a ∈ p.slabList, a ∈ (s.slabclass id).slabList :=
    fun a ha => List.mem_of_mem_erase (hpages.mem_iff.mp ha)
  have hwf := hi.pool.dropPage (i := id) hmem hlive
  refine hi.setClass hsize hper hok ?_ (fun hbase a ha => hi.bump hbase id a (hsub a ha)) hwf ?_ ?_ ?_ rfl
  · exact fun _ => hi.range id (List.ne_nil_of_mem hmem)
  · rw [Pool.dropPage_pages, if_pos rfl]
    exact hpages.symm
  · have htail : ∀ q : SlabClass, q.endPagePtr = none → q.tail = [] :=
      fun q hq => by rw [SlabClass.tail, hq, Option.elim_none]
    have htest : (fun q => !decide (Z.layout.InPage slab q)) = fun q => !Slabs.inSlab slab q := by
      funext q
      exact congrArg not (Bool.decide_and (slab ≤ q) (q < slab + POWER_BLOCK))
    rw [Pool.dropPage_free, if_pos rfl, htest, htail p hptr, List.append_nil, Heap.pool]
    dsimp only
    rw [htail _ hnone, List.append_nil]
    exact hslots.symm
  · intro j hj
    rw [Pool.dropPage_pages, if_neg hj, Pool.dropPage_free, if_neg hj]
    exact ⟨rfl, rfl⟩

end update

/-! ## The calls -/

section calls

variable {s : Slabs} {live : List (Nat × Nat)} {id : Nat} {page : Option Nat} {memory : Bool} (hi : Inv Z ⟨s, live⟩)

/-- The list of pages of a class has grown, at most. -/
theorem growSlabList_cases (s : Slabs) (id : Nat) (memory : Bool) :
    s.growSlabList id memory = (s, false) ∨
      ∃ n, s.growSlabList id memory = (s.setClass id { s.slabclass id with listSize := n }, true) := by
  unfold Slabs.growSlabList
  dsimp only
  generalize (if (s.slabclass id).listSize ≠ 0 then (s.slabclass id).listSize * 2 else 16) = n
  split
  · split
    · exact .inr ⟨n, rfl⟩
    · exact .inl rfl
  · refine .inr ⟨(s.slabclass id).listSize, ?_⟩
    rw [Slabs.setClass, Function.update_eq_self]

/-- A page comes from `malloc`, or from the front of the memory allocated in advance. -/
theorem memoryAllocate_cases (s : Slabs) (page : Option Nat) :
    s.memoryAllocate Slabs.pageLen page = (s, none) ∨
      (∃ a, page = some a ∧ s.memBase = none ∧ s.memoryAllocate Slabs.pageLen page = (s, some a)) ∨
      ∃ avail, s.memBase ≠ none ∧ s.memoryAllocate Slabs.pageLen page =
        ({ s with memCurrent := s.memCurrent + POWER_BLOCK, memAvail := avail }, some s.memCurrent) := by
  unfold Slabs.memoryAllocate
  cases s.memBase with
  | none =>
    cases page with
    | none => exact .inl rfl
    | some a => exact .inr (.inl ⟨a, rfl, rfl, rfl⟩)
  | some base =>
    dsimp only
    split
    · exact .inl rfl
    · exact .inr (.inr ⟨_, Option.some_ne_none base, rfl⟩)

include hi

/-- How long the list of pages is says nothing about the chunks. -/
theorem grown (n : UInt32) : Inv Z ⟨s.setClass id { s.slabclass id with listSize := n }, live⟩ :=
  hi.setClass rfl rfl ⟨(hi.ok id).killing, (hi.ok id).slots, (hi.ok id).total, (hi.ok id).tail⟩ (hi.range id)
    (fun hbase => hi.bump hbase id) hi.pool (.refl _) (.refl _) (fun _ _ => ⟨rfl, rfl⟩) rfl

/-- Only the memory that is left and the counters of it are others. -/
theorem elsewhere {s' : Slabs} (hclass : s'.slabclass = s.slabclass) (hlargest : s'.powerLargest = s.powerLargest)
    (hbase : s'.memBase = s.memBase) (hcurrent : s.memCurrent ≤ s'.memCurrent) : Inv Z ⟨s', live⟩ := by
  obtain ⟨hsizes, hok, hrange, hbump, hpool⟩ := hi
  obtain ⟨slabclass, limit, malloced, largest, base, current, avail⟩ := s
  obtain ⟨slabclass', limit', malloced', largest', base', current', avail'⟩ := s'
  dsimp only at hclass hlargest hbase hcurrent
  subst hclass hlargest hbase
  exact ⟨hsizes, hok, hrange, fun h id a ha => (hbump h id a ha).trans hcurrent, hpool⟩

/-- Every page of a class is among the pages. -/
theorem mem_pages {j b : Nat} (hb : b ∈ (s.slabclass j).slabList) : b ∈ s.pages :=
  List.mem_flatMap.mpr ⟨j, List.mem_range.mpr (Nat.lt_succ_of_le (hi.range j (List.ne_nil_of_mem hb)).2), hb⟩

/-- A page that the class can have, for a class without an end of one. -/
theorem newPage {ptr : Nat} (hid : POWER_SMALLEST ≤ id ∧ id ≤ s.powerLargest) (hhas : (s.slabclass id).HasChunks)
    (hnone : (s.slabclass id).endPagePtr = none)
    (hfresh : ∀ j, ∀ b ∈ (s.slabclass j).slabList, Apart ptr POWER_BLOCK b POWER_BLOCK)
    (hbump : s.memBase ≠ none → ptr + POWER_BLOCK ≤ s.memCurrent) :
    Inv Z ⟨s.setClass id { s.slabclass id with
      endPagePtr := some ptr, endPageFree := (s.slabclass id).perslab,
      slabList := (s.slabclass id).slabList ++ [ptr] }, live⟩ := by
  have hpos : 0 < Z.size id := (hi.sizes id).1 ▸ hhas.1
  have hfull : (s.slabclass id).perslab ≠ 0 := fun h => absurd (h ▸ hhas.2) (by decide)
  exact hi.addPage rfl rfl ⟨(hi.ok id).killing, (hi.ok id).slots, (hi.ok id).total, fun _ => hfull⟩ hid hpos
    hfresh hbump hnone rfl rfl rfl rfl

theorem newslab (hid : POWER_SMALLEST ≤ id ∧ id ≤ s.powerLargest) (hhas : (s.slabclass id).HasChunks)
    (hnone : (s.slabclass id).endPagePtr = none)
    (hfresh : ∀ a ∈ page, ∀ b ∈ s.pages, Apart a POWER_BLOCK b POWER_BLOCK) :
    Inv Z ⟨(s.doSlabsNewslab id page memory).1, live⟩ := by
  unfold Slabs.doSlabsNewslab
  dsimp only
  split
  · exact hi
  rcases growSlabList_cases s id memory with heq | ⟨n, heq⟩
  · rw [heq]
    exact hi
  have hg : Inv Z ⟨s.setClass id { s.slabclass id with listSize := n }, live⟩ := hi.grown n
  rw [heq]
  dsimp only
  generalize hs : s.setClass id { s.slabclass id with listSize := n } = g at hg ⊢
  have hself : g.slabclass id = { s.slabclass id with listSize := n } := by rw [← hs, Slabs.setClass_self]
  have hpages : ∀ j, (g.slabclass j).slabList = (s.slabclass j).slabList := by
    intro j
    rw [← hs]
    by_cases hj : j = id
    · rw [hj, Slabs.setClass_self]
    · rw [s.setClass_of_ne hj]
  have hid' : POWER_SMALLEST ≤ id ∧ id ≤ g.powerLargest := by rwa [← hs]
  have hhas' : (g.slabclass id).HasChunks := by rwa [hself]
  have hnone' : (g.slabclass id).endPagePtr = none := by rwa [hself]
  rcases memoryAllocate_cases g page with heq | ⟨a, rfl, hbase, heq⟩ | ⟨avail, hbase, heq⟩
  · rw [heq]
    exact hg
  · have hm : Inv Z ⟨{ g with memMalloced := g.memMalloced + Slabs.pageLen }, live⟩ :=
      hg.elsewhere rfl rfl rfl (Nat.le_refl _)
    rw [heq]
    refine hm.newPage hid' hhas' hnone' (fun j b hb => ?_) fun h => absurd hbase h
    rw [hpages] at hb
    exact hfresh a rfl b (hi.mem_pages hb)
  · have hm : Inv Z
        ⟨{ g with
          memCurrent := g.memCurrent + POWER_BLOCK, memAvail := avail,
          memMalloced := g.memMalloced + Slabs.pageLen }, live⟩ :=
      hg.elsewhere rfl rfl rfl (Nat.le_add_right ..)
    rw [heq]
    exact hm.newPage hid' hhas' hnone' (fun j b hb => .inr (hg.bump hbase j b hb)) fun _ => Nat.le_refl _

theorem takeChunk : Inv Z ⟨(s.takeChunk id).1, (s.takeChunk id).2.elim live fun ptr => (ptr, id) :: live⟩ := by
  have hok := hi.ok id
  unfold Slabs.takeChunk
  dsimp only
  cases hlast : (s.slabclass id).slots.getLast? with
  | some ret =>
    have hsplit : (s.slabclass id).slots.dropLast ++ [ret] = (s.slabclass id).slots :=
      List.dropLast_append_getLast? _ hlast
    dsimp only [Option.elim_some]
    refine hi.take ?_ ?_ ⟨?_, ?_, ?_, ?_⟩ ?_ ?_
    · rfl
    · rfl
    · exact hok.killing
    · rw [List.length_dropLast]
      exact (Nat.sub_le ..).trans hok.slots
    · exact hok.total
    · exact hok.tail
    · rfl
    · conv_lhs => rw [← hsplit, List.append_assoc]
      exact List.perm_middle
  | none =>
    have hempty : (s.slabclass id).slots = [] := List.getLast?_eq_none_iff.mp hlast
    cases hptr : (s.slabclass id).endPagePtr with
    | none => exact hi
    | some ret =>
      have hpos : (s.slabclass id).endPageFree ≠ 0 := hok.tail (by simp [hptr])
      have hone : 1 ≤ (s.slabclass id).endPageFree.toNat :=
        Nat.one_le_iff_ne_zero.mpr fun h => hpos (UInt32.toNat_inj.mp h)
      have hle : 1 ≤ (s.slabclass id).endPageFree := UInt32.le_iff_toNat_le.mpr hone
      have hless : ((s.slabclass id).endPageFree - 1).toNat + 1 = (s.slabclass id).endPageFree.toNat := by
        rw [UInt32.toNat_sub_of_le _ _ hle]
        exact Nat.sub_add_cancel hone
      dsimp only [Option.elim_some]
      refine hi.take ?_ ?_ ⟨?_, ?_, ?_, ?_⟩ ?_ ?_
      · rfl
      · rfl
      · exact hok.killing
      · exact hok.slots
      · exact hok.total
      · dsimp only
        split
        · next hne => exact fun _ => hne
        · exact fun h => absurd rfl h
      · rfl
      · have htail : (s.slabclass id).tail = ret :: (List.range ((s.slabclass id).endPageFree - 1).toNat).map fun k =>
            ret + (s.slabclass id).size.toNat + k * (s.slabclass id).size.toNat := by
          rw [SlabClass.tail, hptr, Option.elim_some, ← hless, Layout.range_succ_chunks]
        rw [hempty, htail, List.nil_append, List.nil_append, SlabClass.tail]
        dsimp only
        split
        · exact .refl _
        · next hzero =>
          rw [not_ne_iff.mp hzero]
          exact .refl _

theorem alloc (hhas : (s.slabclass id).HasChunks)
    (hfresh : ∀ a ∈ page, ∀ b ∈ s.pages, Apart a POWER_BLOCK b POWER_BLOCK) :
    Inv Z ⟨(s.doSlabsAlloc id page memory).1,
      (s.doSlabsAlloc id page memory).2.elim live fun ptr => (ptr, id) :: live⟩ := by
  unfold Slabs.doSlabsAlloc
  split
  · exact hi
  · next hrange =>
    have hid : POWER_SMALLEST ≤ id ∧ id ≤ s.powerLargest := by omega
    split
    · exact hi.takeChunk
    · next hempty =>
      have hnone : (s.slabclass id).endPagePtr = none := by
        rw [Bool.or_eq_true, not_or] at hempty
        simpa using hempty.1
      have hnew : Inv Z ⟨(s.doSlabsNewslab id page memory).1, live⟩ := hi.newslab hid hhas hnone hfresh
      split
      · next heq =>
        rw [heq] at hnew
        exact hnew
      · next heq =>
        rw [heq] at hnew
        exact hnew.takeChunk

omit hi in
/-- A free list that has grown has room, and is no longer than an `int` counts. -/
theorem newSlots_room {t : UInt32} (ht : t.toNat < 2 ^ 31) (h : Slabs.reallocSlots (Slabs.newSlots t) memory = true) :
    t.toNat + 1 ≤ (UInt32.ofInt (Slabs.newSlots t)).toNat ∧ (UInt32.ofInt (Slabs.newSlots t)).toNat < 2 ^ 31 := by
  have hdouble : (t * 2).toNat = 2 * t.toNat := by
    rw [UInt32.toNat_mul, show (2 : UInt32).toNat = 2 from rfl]
    omega
  have hbytes : sizeT (Slabs.newSlots t * 8) < 2 ^ 63 := by
    rw [Slabs.reallocSlots, Bool.and_eq_true, decide_eq_true_eq] at h
    exact h.2
  rw [Slabs.newSlots, hdouble] at hbytes ⊢
  split at hbytes
  · next hne =>
    have hpos : t.toNat ≠ 0 := fun h0 => hne (UInt32.toNat_inj.mp h0)
    rw [if_pos hne]
    rcases Nat.lt_or_ge (2 * t.toNat) (2 ^ 31) with hlt | hge
    · rw [int32_of_range (by omega) (by omega), UInt32.ofInt, UInt32.toNat_ofNat']
      omega
    · -- the `int` is negative, and what is asked of `realloc` more than it can have
      rw [int32_wrap (by omega) (by omega), sizeT] at hbytes
      omega
  · next hzero =>
    rw [if_neg hzero, not_ne_iff.mp hzero]
    decide

theorem free {ptr : Nat} (hlive : (ptr, id) ∈ live) : Inv Z ⟨s.doSlabsFree ptr id memory, live.erase (ptr, id)⟩ := by
  have hok := hi.ok id
  obtain ⟨a, ha, -⟩ := hi.pool.liveChunk hlive
  have hrange : POWER_SMALLEST ≤ id ∧ id ≤ s.powerLargest := hi.range id (List.ne_nil_of_mem ha)
  have hgive : ∀ t : UInt32, (s.slabclass id).slots.length + 1 ≤ t.toNat → t.toNat < 2 ^ 31 →
      Inv Z ⟨s.setClass id { s.slabclass id with slots := (s.slabclass id).slots ++ [ptr], slTotal := t },
      live.erase (ptr, id)⟩ := by
    intro t hroom htotal
    refine hi.give ?_ ?_ ⟨?_, ?_, ?_, ?_⟩ hlive ?_ ?_
    · rfl
    · rfl
    · exact hok.killing
    · rw [List.length_append, List.length_singleton]
      exact hroom
    · exact htotal
    · exact hok.tail
    · rfl
    · rw [List.append_assoc, List.append_assoc]
      exact List.perm_append_comm.append_left _
  unfold Slabs.doSlabsFree
  rw [if_neg (by omega)]
  dsimp only
  split
  · next hfull =>
    split
    · next hrealloc =>
      obtain ⟨hroom, htotal⟩ := newSlots_room hok.total hrealloc
      exact hgive _ (hfull ▸ hroom) htotal
    · exact ⟨hi.sizes, hi.ok, hi.range, hi.bump, hi.pool.lose (ptr, id)⟩
  · next hroom => exact hgive _ (Nat.lt_of_le_of_ne hok.slots hroom) hok.total

/-- The sweep of the free list is over all of it. -/
theorem discard_perm (slab : Nat) : (Slabs.discard slab (s.slabclass id).slots).Perm
    ((s.slabclass id).slots.filter fun q => !Slabs.inSlab slab q) := by
  have hlen : (s.slabclass id).slots.length < 2 ^ 31 := (hi.ok id).slots.trans_lt (hi.ok id).total
  have hall : (int32 ((s.slabclass id).slots.length - 1) + 1).toNat = (s.slabclass id).slots.length := by
    rw [int32_of_range (by omega) (by omega)]
    omega
  rw [Slabs.discard, hall]
  exact sweep_perm _ _

/-- The first page of a class, none of which is its last one, goes to a class without an end of one. -/
theorem moveSlab {dst : Nat} (hdst : POWER_SMALLEST ≤ dst ∧ dst ≤ s.powerLargest)
    (hpages : (s.slabclass id).slabList ≠ [])
    (hnone : (s.slabclass id).endPagePtr = none) (hnone' : (s.slabclass dst).endPagePtr = none)
    (hhas : (s.slabclass dst).HasChunks)
    (hlive : ∀ c ∈ live, ¬(s.movedSlab id ≤ c.1 ∧ c.1 < s.movedSlab id + POWER_BLOCK)) :
    Inv Z ⟨s.moveSlab id dst, live⟩ := by
  have hok := hi.ok id
  have hfirst : ((s.slabclass id).dying - 1).toNat = 0 := by
    rw [SlabClass.dying, if_pos hok.killing]
    rfl
  have hslab : (s.slabclass id).slabList[0]? = some (s.movedSlab id) := by
    rw [Slabs.movedSlab, hfirst]
    cases hl : (s.slabclass id).slabList with
    | nil => exact absurd hl hpages
    | cons a as => rfl
  unfold Slabs.moveSlab
  dsimp only
  generalize s.movedSlab id = slab at hlive hslab ⊢
  have hmem : slab ∈ (s.slabclass id).slabList := List.mem_of_getElem? hslab
  have hperm : (Slabs.discard slab (s.slabclass id).slots).Perm _ := discard_perm hi slab
  have hslots : (Slabs.discard slab (s.slabclass id).slots).length ≤ (s.slabclass id).slots.length := by
    rw [hperm.length_eq]
    exact List.length_filter_le ..
  rw [hfirst]
  generalize hp : ({ s.slabclass id with
    slots := Slabs.discard slab (s.slabclass id).slots, slabList := removeAt (s.slabclass id).slabList 0
    killing := 0 } : SlabClass) = p
  have hdrop : Inv Z ⟨s.setClass id p, live⟩ := by
    rw [← hp]
    refine hi.dropPage rfl rfl ⟨rfl, hslots.trans hok.slots, hok.total, hok.tail⟩ hmem hlive hnone hnone ?_ ?_
    · exact removeAt_perm hslab
    · exact hperm
  have hclass : ∀ j, (s.setClass id p).slabclass j = s.slabclass j ∨ (j = id ∧ (s.setClass id p).slabclass j = p) := by
    intro j
    by_cases hj : j = id
    · exact .inr ⟨hj, by rw [hj, Slabs.setClass_self]⟩
    · exact .inl (s.setClass_of_ne hj p)
  refine hdrop.newPage hdst ?_ ?_ ?_ fun hbase => hi.bump hbase id slab hmem
  · rcases hclass dst with h | ⟨rfl, h⟩ <;> rw [h]
    · exact hhas
    · exact hp ▸ hhas
  · rcases hclass dst with h | ⟨rfl, h⟩ <;> rw [h]
    · exact hnone'
    · exact hp ▸ hnone
  · -- the page is apart from what is left
    intro j b hb
    by_cases hj : j = id
    · subst hj
      rw [Slabs.setClass_self, ← hp] at hb
      obtain ⟨hne, hb⟩ := (hi.pool.pages j).mem_erase_iff.mp ((removeAt_perm hslab).mem_iff.mp hb)
      exact hi.pool.apart hmem hb fun he => hne (Prod.mk.inj he).2.symm
    · rw [s.setClass_of_ne hj] at hb
      exact hi.pool.apart hmem hb fun he => hj (Prod.mk.inj he).1.symm

omit hi in
/-- What the guards of `do_slabs_reassign` leave. -/
theorem reassignGuards_some {src dst : Nat} {s' : Slabs} (h : s.reassignGuards src dst memory = some s') :
    (POWER_SMALLEST ≤ dst ∧ dst ≤ s.powerLargest) ∧ (s.slabclass src).slabList ≠ [] ∧
      (s.slabclass src).endPagePtr = none ∧
      (s.slabclass dst).endPagePtr = none ∧ ∃ n, s' = s.setClass dst { s.slabclass dst with listSize := n } := by
  unfold Slabs.reassignGuards at h
  split at h
  · cases h
  · next hrange =>
    split at h
    · cases h
    · next hsrc =>
      split at h
      · cases h
      · next hdst =>
        simp only [not_or, Bool.not_eq_true, Option.isSome_eq_false_iff, Option.isNone_iff_eq_none] at hsrc hdst
        rcases growSlabList_cases s dst memory with heq | ⟨n, heq⟩
        · rw [heq] at h
          cases h
        · rw [heq] at h
          exact ⟨by omega, hsrc.2, hsrc.1, hdst, n, (Option.some.inj h).symm⟩

theorem reassign {src dst : UInt8} (hvacated : Vacated ⟨s, live⟩ (.reassign src dst memory)) :
    Inv Z ⟨(s.doSlabsReassign src dst memory).1, live⟩ := by
  unfold Slabs.doSlabsReassign
  cases hguards : s.reassignGuards src.toNat dst.toNat memory with
  | none => exact hi
  | some s' =>
    obtain ⟨hhas, hlive⟩ := hvacated (by rw [hguards]; exact Option.some_ne_none s')
    obtain ⟨hdst, hpages, hnone, hnone', n, rfl⟩ := reassignGuards_some hguards
    have hclass : ∀ j, ∃ k, (s.setClass dst.toNat { s.slabclass dst.toNat with listSize := n }).slabclass j =
        { s.slabclass j with listSize := k } := by
      intro j
      by_cases hj : j = dst.toNat
      · exact ⟨n, by rw [hj, Slabs.setClass_self]⟩
      · exact ⟨(s.slabclass j).listSize, by rw [s.setClass_of_ne hj]⟩
    obtain ⟨k, hsrc⟩ := hclass src.toNat
    refine (hi.grown n).moveSlab hdst ?_ ?_ ?_ ?_ ?_
    · rw [hsrc]
      exact hpages
    · rw [hsrc]
      exact hnone
    · rw [Slabs.setClass_self]
      exact hnone'
    · rw [Slabs.setClass_self]
      exact hhas
    · rw [Slabs.movedSlab, hsrc]
      exact hlive

end calls

theorem step {h h' : Heap} {e : SlabStep} (hi : Inv Z h) (hs : heapStep h e = some h') (hvacated : Vacated h e) :
    Inv Z h' := by
  cases e with
  | alloc id page memory =>
    obtain ⟨hfresh, hr⟩ := Option.ite_none_right_eq_some.mp hs
    obtain rfl := Option.some.inj hr
    exact hi.alloc hvacated hfresh
  | free c memory =>
    obtain ⟨hlive, hr⟩ := Option.ite_none_right_eq_some.mp hs
    obtain rfl := Option.some.inj hr
    exact hi.free hlive
  | reassign src dst memory =>
    obtain rfl := Option.some.inj hs
    exact hi.reassign hvacated

end Inv

/-- In every run over any sizes, with memory found or not: as long as a page that is moved has nothing live in it,
and chunks are asked of classes that have some, live chunks do not overlap and no free list has one of them or one of
another class. -/
theorem chunks_apart_run (Z : Sizes) (t : Start) (es : List SlabStep)
    (h : AllSteps heapStep (fun h e _ => Vacated h e) (heapStart Z t) es) :
    AllStates heapStep ChunksApart (heapStart Z t) es :=
  (AllStates.of_invariant (Inv.heapStart Z t) (fun _ _ _ hi hs hc => hi.step hs hc) h).mono fun _ hi => hi.chunksApart

/-! ## A page with live chunks -/

/-- Two classes: of half a page and of a page. -/
def halves : Sizes where
  size id := if id = 1 then 524288 else 1048576
  perslab id := if id = 1 then 2 else 1
  fits id := by split <;> decide

/-- Memory that `malloc` gives as it is asked for. -/
def unlimited : Start := { powerLargest := 2, memLimit := 0, memMalloced := 0, memBase := none }

instance (p : SlabClass) : Decidable p.HasChunks := inferInstanceAs (Decidable (_ ∧ _))

instance (h : Heap) : (e : SlabStep) → Decidable (Vacated h e)
  | .alloc id _ _ => inferInstanceAs (Decidable (h.slabs.slabclass id).HasChunks)
  | .free _ _ => isTrue trivial
  | .reassign src dst memory =>
    haveI : Decidable (h.slabs.reassignGuards src.toNat dst.toNat memory ≠ none) :=
      decidable_of_iff ((h.slabs.reassignGuards src.toNat dst.toNat memory).isSome = true) Option.isSome_iff_ne_none
    inferInstanceAs (Decidable (_ → _))

/-- Both halves of a page are freed before it is moved. -/
theorem chunks_apart_run_freed : AllStates heapStep ChunksApart (heapStart halves unlimited)
    [.alloc 1 (some 4096) true, .alloc 1 none true, .free (4096, 1) true, .free (528384, 1) true, .reassign 1 2 true,
      .alloc 2 none true] :=
  chunks_apart_run _ _ _ (by decide)

/-- The page is moved with both halves live, and handed out again. -/
theorem moved_page_handed_out : ¬AllStates heapStep ChunksApart (heapStart halves unlimited)
    [.alloc 1 (some 4096) true, .alloc 1 none true, .reassign 1 2 true, .alloc 2 none true] := by
  intro h
  have hrun : (exec heapStep (heapStart halves unlimited)
      [.alloc 1 (some 4096) true, .alloc 1 none true, .reassign 1 2 true, .alloc 2 none true]).map (fun h => decide
        (h.live.Pairwise fun c d =>
        Apart c.1 (h.slabs.slabclass c.2).size.toNat d.1 (h.slabs.slabclass d.2).size.toNat)) = some false := by
    decide
  obtain ⟨h', hr, hd⟩ := Option.map_eq_some_iff.mp hrun
  exact of_decide_eq_false hd (h.last hr).disjoint

end ZeroServ.Mc.Slab
