import Mathlib.Logic.Function.Basic
import ZeroServ.Fd
import ZeroServ.Lib.TwoBit

/-!
# The poller's picture of the kernel

`poller.c` keeps two bits for each descriptor in packed words (`fd_evts`), and a list of the descriptors whose bits
have changed since the last `fd_flush_changes`, with the bits they had then (`chg_list`); `chg_ptr` says which entry
is a descriptor's. A flush tells the kernel of every change by one `epoll_ctl`, whose result nobody reads: the opcode
is chosen from what the poller was `told` of the descriptor. `flush_interest` says what a flush does to a descriptor
that the kernel has not in its set: it is added exactly when the poller was told of nothing.

The tables are taken to be large enough; `global.maxconn` bounds their size.
-/

namespace ZeroServ

open TwoBit

/-! ## The kernel -/

def epollIn : BitVec 32 := 1
def epollOut : BitVec 32 := 4

/-- `EPOLL_CTL_ADD`, `EPOLL_CTL_MOD` and `EPOLL_CTL_DEL` -/
inductive EpollOp where
  | add | mod | del
  deriving DecidableEq, Repr

/-- What the kernel has of the process: its open descriptors, and the epoll interest set with the events of each
member. -/
structure Kernel where
  isOpen : Fd → Bool
  interest : Fd → Option (BitVec 32)

namespace Kernel

variable {k : Kernel}

/-- `epoll_ctl`: to add, the descriptor must be open and not in the set; to change or delete, it must be in it. -/
def epollCtl (k : Kernel) (op : EpollOp) (fd : Fd) (events : BitVec 32) : Kernel :=
  match op with
  | .add =>
    if k.isOpen fd && (k.interest fd).isNone then { k with interest := Function.update k.interest fd (some events) }
    else k
  | .mod => if (k.interest fd).isSome then { k with interest := Function.update k.interest fd (some events) } else k
  | .del => if (k.interest fd).isSome then { k with interest := Function.update k.interest fd none } else k

/-- `socket` or `accept` returned the descriptor. -/
def opened (k : Kernel) (fd : Fd) : Kernel := { k with isOpen := Function.update k.isOpen fd true }

/-- `close`: the descriptor leaves the interest set. -/
def closed (k : Kernel) (fd : Fd) : Kernel where
  isOpen := Function.update k.isOpen fd false
  interest := Function.update k.interest fd none

/-- The interest set has open descriptors only. -/
def Wf (k : Kernel) : Prop := ∀ fd, k.interest fd ≠ none → k.isOpen fd = true

@[simp] theorem epollCtl_isOpen (k : Kernel) (op : EpollOp) (fd : Fd) (events : BitVec 32) :
    (k.epollCtl op fd events).isOpen = k.isOpen := by
  cases op <;> simp only [epollCtl] <;> split <;> rfl

theorem epollCtl_interest_of_ne {op : EpollOp} {fd : Fd} {events : BitVec 32} {x : Fd} (hx : x ≠ fd) :
    (k.epollCtl op fd events).interest x = k.interest x := by
  cases op <;> simp only [epollCtl] <;> split <;> simp [Function.update_of_ne hx]

theorem Wf.epollCtl (h : k.Wf) (op : EpollOp) (fd : Fd) (events : BitVec 32) : (k.epollCtl op fd events).Wf := by
  intro x hx
  rw [epollCtl_isOpen]
  by_cases hfd : x = fd
  · subst hfd
    cases hi : k.interest x with
    | some _ => exact h x (by rw [hi]; exact Option.some_ne_none _)
    | none =>
      cases ho : k.isOpen x with
      | true => rfl
      | false => cases op <;> simp [Kernel.epollCtl, hi, ho] at hx
  · exact h x (by rwa [epollCtl_interest_of_ne hfd] at hx)

theorem Wf.opened (h : k.Wf) (fd : Fd) : (k.opened fd).Wf := by
  intro x hx
  by_cases hfd : x = fd
  · simp [Kernel.opened, hfd]
  · simpa [Kernel.opened, Function.update_of_ne hfd] using h x hx

theorem Wf.closed (h : k.Wf) (fd : Fd) : (k.closed fd).Wf := by
  intro x hx
  by_cases hfd : x = fd
  · simp [Kernel.closed, hfd] at hx
  · simp only [Kernel.closed, Function.update_of_ne hfd] at hx ⊢
    exact h x hx

end Kernel

/-! ## `poller.c` -/

/-- `DIR2MSK` -/
def Dir.mask : Dir → BitVec 32
  | .rd => 1
  | .wr => 2

/-- `dmsk2event` -/
def dmsk2event (m : BitVec 32) : BitVec 32 :=
  (if m &&& Dir.rd.mask ≠ 0 then epollIn else 0) ||| (if m &&& Dir.wr.mask ≠ 0 then epollOut else 0)

/-- `struct fd_chg`: the two bits the descriptor had, and the descriptor. Its field has thirty bits, more than a
descriptor below `global.maxconn` needs. -/
structure FdChg where
  prev : BitVec 32
  fd : Nat
  deriving DecidableEq, Repr

/-- `fd_evts`, the first `nbchanges` entries of `chg_list`, and `chg_ptr` as indices of it. -/
structure Poller where
  fdEvts : Nat → BitVec 32
  chgList : List FdChg
  chgPtr : Fd → Option Nat

namespace Poller

variable (p : Poller)

/-- The bits of a descriptor: `(fd_evts[FD2OFS(fd)] >> FD2BIT(fd)) & 3`. -/
def evt (fd : Fd) : BitVec 32 := field (p.fdEvts (fd / 16)) (fd % 16)

/-- What the poller takes the kernel to have of a descriptor: its bits as they were at the last flush. -/
def told (fd : Fd) : BitVec 32 :=
  match p.chgPtr fd with
  | some i => p.chgList[i]?.elim 0 FdChg.prev
  | none => p.evt fd

/-- `__fd_is_set` -/
def fdIsSet (fd : Fd) (dir : Dir) : Bool := p.evt fd &&& dir.mask ≠ 0

/-- `alloc_chg_list`: a new entry, unless the descriptor has one. -/
def allocChgList (fd : Fd) (oldEvt : BitVec 32) : Poller :=
  match p.chgPtr fd with
  | some _ => p
  | none =>
    { p with
      chgList := p.chgList ++ [{ prev := oldEvt, fd := fd }]
      chgPtr := Function.update p.chgPtr fd (some p.chgList.length) }

/-- Write the word a descriptor's bits are in, in `fd_evts`. -/
def setWord (fd : Fd) (f : BitVec 32 → BitVec 32) : Poller :=
  { p with fdEvts := Function.update p.fdEvts (fd / 16) (f (p.fdEvts (fd / 16))) }

/-- `__fd_set` -/
def fdSet (fd : Fd) (dir : Dir) : Poller :=
  if p.evt fd &&& dir.mask ≠ 0 then p
  else (p.allocChgList fd (p.evt fd)).setWord fd fun w => setBits w (fd % 16) dir.mask

/-- `__fd_clr` -/
def fdClr (fd : Fd) (dir : Dir) : Poller :=
  if p.evt fd &&& dir.mask = 0 then p
  else (p.allocChgList fd (p.evt fd)).setWord fd fun w => clearBits w (fd % 16) dir.mask

/-- `__fd_rem` -/
def fdRem (fd : Fd) : Poller :=
  if p.evt fd = 0 then p else (p.allocChgList fd (p.evt fd)).setWord fd fun w => clearBits w (fd % 16) 3

/-- `__fd_clo`: the bits are dropped, and what the descriptor's entry says of them. -/
def fdClo (fd : Fd) : Poller :=
  let p := p.setWord fd fun w => clearBits w (fd % 16) 3
  match p.chgPtr fd with
  | some i =>
    { p with
      chgList := p.chgList.modify i fun c => { c with prev := 0 }
      chgPtr := Function.update p.chgPtr fd none }
  | none => p

/-- One turn of `fd_flush_changes`, for the entry of a change. -/
def flushOne (k : Kernel) (c : FdChg) : Kernel :=
  let next := p.evt c.fd
  if c.prev = next then k
  else
    let op : EpollOp := if c.prev ≠ 0 then (if next = 0 then .del else .mod) else .add
    k.epollCtl op c.fd (dmsk2event next)

/-- `fd_flush_changes` -/
def fdFlushChanges (k : Kernel) : Poller × Kernel :=
  ({ p with chgList := [], chgPtr := p.chgList.foldl (fun ptr c => Function.update ptr c.fd none) p.chgPtr },
    p.chgList.foldl p.flushOne k)

/-! ## What the operations do to the bits -/

variable {p}

theorem mask_and_three (dir : Dir) : dir.mask &&& 3 = dir.mask := by
  cases dir <;> rfl

/-- A descriptor is the word its bits are in and its place there. -/
theorem mod_eq_iff_of_div_eq {x fd : Nat} (h : x / 16 = fd / 16) : x % 16 = fd % 16 ↔ x = fd := by
  omega

theorem evt_and_three (fd : Fd) : p.evt fd &&& 3 = p.evt fd :=
  field_and_three _ _

theorem evt_setWord {fd : Fd} {f g : BitVec 32 → BitVec 32}
    (hf : ∀ w j, j < 16 → field (f w) j = if j = fd % 16 then g (field w j) else field w j) (x : Fd) :
    (p.setWord fd f).evt x = if x = fd then g (p.evt x) else p.evt x := by
  simp only [evt, setWord]
  by_cases hw : x / 16 = fd / 16
  · rw [hw, Function.update_self, hf _ _ (Nat.mod_lt _ (by decide))]
    simp only [mod_eq_iff_of_div_eq hw]
  · have hx : x ≠ fd := fun h => hw (by rw [h])
    rw [Function.update_of_ne hw, if_neg hx]

@[simp] theorem evt_allocChgList (fd : Fd) (old : BitVec 32) (x : Fd) : (p.allocChgList fd old).evt x = p.evt x := by
  unfold allocChgList
  split <;> rfl

/-- A mask whose bit is there is not changed by setting it. -/
theorem or_mask_of_set {m : BitVec 32} (hm : m &&& 3 = m) {dir : Dir} (h : m &&& dir.mask ≠ 0) :
    m ||| dir.mask = m := by
  rcases four_masks hm with rfl | rfl | rfl | rfl <;> cases dir <;> revert h <;> decide

/-- A mask whose bit is not there is not changed by clearing it. -/
theorem and_not_mask_of_clear {m : BitVec 32} (hm : m &&& 3 = m) {dir : Dir} (h : m &&& dir.mask = 0) :
    m &&& ~~~dir.mask = m := by
  rcases four_masks hm with rfl | rfl | rfl | rfl <;> cases dir <;> revert h <;> decide

theorem evt_fdSet (fd : Fd) (dir : Dir) (x : Fd) :
    (p.fdSet fd dir).evt x = if x = fd then p.evt x ||| dir.mask else p.evt x := by
  unfold fdSet
  by_cases h : p.evt fd &&& dir.mask ≠ 0
  · rw [if_pos h]
    by_cases hx : x = fd
    · rw [if_pos hx, hx, or_mask_of_set (evt_and_three fd) h]
    · rw [if_neg hx]
  · rw [if_neg h, evt_setWord (g := fun m => m ||| dir.mask) (fun w j hj => field_setBits (mask_and_three dir) hj),
      evt_allocChgList]

theorem evt_fdClr (fd : Fd) (dir : Dir) (x : Fd) :
    (p.fdClr fd dir).evt x = if x = fd then p.evt x &&& ~~~dir.mask else p.evt x := by
  unfold fdClr
  by_cases h : p.evt fd &&& dir.mask = 0
  · rw [if_pos h]
    by_cases hx : x = fd
    · rw [if_pos hx, hx, and_not_mask_of_clear (evt_and_three fd) h]
    · rw [if_neg hx]
  · rw [if_neg h, evt_setWord (g := fun m => m &&& ~~~dir.mask) (fun w j hj => field_clearBits (mask_and_three dir) hj),
      evt_allocChgList]

/-- No bits are left of two. -/
theorem and_not_three {m : BitVec 32} (hm : m &&& 3 = m) : m &&& ~~~3 = 0 := by
  rcases four_masks hm with rfl | rfl | rfl | rfl <;> decide

theorem evt_fdRem (fd x : Fd) : (p.fdRem fd).evt x = if x = fd then 0 else p.evt x := by
  unfold fdRem
  by_cases h : p.evt fd = 0
  · rw [if_pos h]
    by_cases hx : x = fd
    · rw [if_pos hx, hx, h]
    · rw [if_neg hx]
  · rw [if_neg h, evt_setWord (g := fun m => m &&& ~~~3) (fun w j hj => field_clearBits rfl hj), evt_allocChgList,
      and_not_three (evt_and_three x)]

theorem evt_fdClo (fd x : Fd) : (p.fdClo fd).evt x = if x = fd then 0 else p.evt x := by
  have hword : (p.fdClo fd).evt x = (p.setWord fd fun w => clearBits w (fd % 16) 3).evt x := by
    unfold fdClo
    dsimp only
    split <;> rfl
  rw [hword, evt_setWord (g := fun m => m &&& ~~~3) (fun w j hj => field_clearBits rfl hj),
    and_not_three (evt_and_three x)]

/-! ## The list of changes -/

/-- `chg_ptr` points at entries of the descriptor itself. An entry that it does not point at was closed over. -/
structure Tracked (p : Poller) : Prop where
  ptr : ∀ {fd i}, p.chgPtr fd = some i → ∃ c, p.chgList[i]? = some c ∧ c.fd = fd
  stale : ∀ {i c}, p.chgList[i]? = some c → p.chgPtr c.fd ≠ some i → c.prev = 0 ∧ p.told c.fd = 0

/-- An empty list of changes, with no pointer into it. -/
theorem Tracked.empty (fdEvts : Nat → BitVec 32) : Tracked ⟨fdEvts, [], fun _ => none⟩ where
  ptr := by simp
  stale := by simp

theorem told_of_some {fd : Fd} {i : Nat} {c : FdChg} (hp : p.chgPtr fd = some i) (hc : p.chgList[i]? = some c) :
    p.told fd = c.prev := by
  simp [told, hp, hc]

theorem told_of_none {fd : Fd} (hp : p.chgPtr fd = none) : p.told fd = p.evt fd := by
  simp [told, hp]

/-- Every entry has what the poller was told of its descriptor. -/
theorem Tracked.prev_eq (h : Tracked p) {c : FdChg} (hc : c ∈ p.chgList) : c.prev = p.told c.fd := by
  obtain ⟨i, hi⟩ := List.mem_iff_getElem?.mp hc
  by_cases hp : p.chgPtr c.fd = some i
  · rw [told_of_some hp hi]
  · obtain ⟨hprev, htold⟩ := h.stale hi hp
    rw [hprev, htold]

/-- A change of one descriptor's bits, with the entry that is made for it first. -/
inductive Touched (p : Poller) (fd : Fd) : Poller → Prop where
  | same : Touched p fd p
  | changed {f g : BitVec 32 → BitVec 32}
      (hf : ∀ w j, j < 16 → field (f w) j = if j = fd % 16 then g (field w j) else field w j) :
      Touched p fd ((p.allocChgList fd (p.evt fd)).setWord fd f)

theorem touched_fdSet (fd : Fd) (dir : Dir) : Touched p fd (p.fdSet fd dir) := by
  unfold fdSet
  split
  · exact .same
  · exact .changed (g := fun m => m ||| dir.mask) fun w j hj => field_setBits (mask_and_three dir) hj

theorem touched_fdClr (fd : Fd) (dir : Dir) : Touched p fd (p.fdClr fd dir) := by
  unfold fdClr
  split
  · exact .same
  · exact .changed (g := fun m => m &&& ~~~dir.mask) fun w j hj => field_clearBits (mask_and_three dir) hj

theorem touched_fdRem (fd : Fd) : Touched p fd (p.fdRem fd) := by
  unfold fdRem
  split
  · exact .same
  · exact .changed (g := fun m => m &&& ~~~3) fun w j hj => field_clearBits rfl hj

theorem allocChgList_of_some {fd : Fd} {i : Nat} (hp : p.chgPtr fd = some i) (old : BitVec 32) :
    p.allocChgList fd old = p := by
  simp [allocChgList, hp]

theorem allocChgList_of_none {fd : Fd} (hp : p.chgPtr fd = none) (old : BitVec 32) :
    p.allocChgList fd old =
      { p with
        chgList := p.chgList ++ [{ prev := old, fd := fd }]
        chgPtr := Function.update p.chgPtr fd (some p.chgList.length) } := by
  simp [allocChgList, hp]

/-- What the poller was told of a descriptor depends on the list and, where it has no entry, on its bits. -/
theorem told_congr {q : Poller} {x : Fd} (hptr : q.chgPtr x = p.chgPtr x)
    (hlist : ∀ i, p.chgPtr x = some i → q.chgList[i]? = p.chgList[i]?) (hevt : p.chgPtr x = none → q.evt x = p.evt x) :
    q.told x = p.told x := by
  unfold told
  rw [hptr]
  cases hx : p.chgPtr x with
  | some i => simp only [hlist i hx]
  | none => simp only [hevt hx]

namespace Tracked

variable (h : Tracked p)
include h

/-- The entry of a descriptor is in the list. -/
theorem lt_length {fd : Fd} {i : Nat} (hp : p.chgPtr fd = some i) : i < p.chgList.length := by
  obtain ⟨c, hc, -⟩ := h.ptr hp
  exact (List.getElem?_eq_some_iff.mp hc).1

theorem told_touched {fd : Fd} {q : Poller} (hq : Touched p fd q) (x : Fd) : q.told x = p.told x := by
  cases hq with
  | same => rfl
  | @changed f g hf =>
    cases hp : p.chgPtr fd with
    | some i =>
      rw [allocChgList_of_some hp]
      refine told_congr rfl (fun _ _ => rfl) fun hx => ?_
      rw [evt_setWord hf, if_neg fun he => by rw [he, hp] at hx; nomatch hx]
    | none =>
      rw [allocChgList_of_none hp]
      by_cases hx : x = fd
      · rw [hx, told_of_none hp]
        have hnew : (p.chgList ++ [{ prev := p.evt fd, fd := fd }])[p.chgList.length]? =
            some { prev := p.evt fd, fd := fd } :=
          List.getElem?_concat_length
        rw [told_of_some (Function.update_self ..) hnew]
      · refine told_congr (Function.update_of_ne hx ..)
          (fun i hi => List.getElem?_append_left (h.lt_length hi)) fun _ => ?_
        rw [evt_setWord hf, if_neg hx]
        rfl

theorem touched {fd : Fd} {q : Poller} (hq : Touched p fd q) : Tracked q := by
  have htold := h.told_touched hq
  cases hq with
  | same => exact h
  | @changed f g hf =>
    cases hp : p.chgPtr fd with
    | some i =>
      simp only [allocChgList_of_some hp] at htold ⊢
      exact ⟨h.ptr, fun hc hne => by rw [htold]; exact h.stale hc hne⟩
    | none =>
      simp only [allocChgList_of_none hp] at htold ⊢
      refine ⟨fun {x i} hx => ?_, fun {i c} hc hne => ?_⟩
      · simp only [setWord] at hx ⊢
        by_cases hxfd : x = fd
        · rw [hxfd, Function.update_self] at hx
          exact ⟨_, by rw [← Option.some.inj hx]; exact List.getElem?_concat_length, hxfd.symm⟩
        · rw [Function.update_of_ne hxfd] at hx
          obtain ⟨c, hc, hcfd⟩ := h.ptr hx
          exact ⟨c, by rw [List.getElem?_append_left (h.lt_length hx), hc], hcfd⟩
      · rw [htold]
        simp only [setWord] at hc hne
        rcases Nat.lt_or_ge i p.chgList.length with hi | hi
        · rw [List.getElem?_append_left hi] at hc
          refine h.stale hc fun hptr => ?_
          by_cases hcfd : c.fd = fd
          · rw [hcfd, hp] at hptr
            nomatch hptr
          · exact hne (by rw [Function.update_of_ne hcfd, hptr])
        · -- the entry is the new one, and `chg_ptr` points at it
          obtain ⟨rfl, rfl⟩ : i = p.chgList.length ∧ c = { prev := p.evt fd, fd := fd } := by
            have hlt := (List.getElem?_eq_some_iff.mp hc).1
            simp only [List.length_append, List.length_singleton] at hlt
            have hlen : i = p.chgList.length := by omega
            rw [hlen, List.getElem?_concat_length] at hc
            exact ⟨hlen, (Option.some.inj hc).symm⟩
          exact absurd (Function.update_self ..) hne

omit h in
theorem fdClo_chgPtr (fd x : Fd) : (p.fdClo fd).chgPtr x = if x = fd then none else p.chgPtr x := by
  unfold Poller.fdClo
  dsimp only [setWord]
  cases hp : p.chgPtr fd with
  | some i => exact Function.update_apply ..
  | none =>
    by_cases hx : x = fd
    · rw [if_pos hx, hx, hp]
    · rw [if_neg hx]

omit h in
theorem fdClo_getElem? (fd : Fd) (j : Nat) : (p.fdClo fd).chgList[j]? =
    p.chgList[j]?.map fun c => if p.chgPtr fd = some j then { c with prev := 0 } else c := by
  unfold Poller.fdClo
  dsimp only [setWord]
  cases hp : p.chgPtr fd with
  | some i =>
    simp only [Option.some.injEq]
    exact List.getElem?_modify ..
  | none => simp

theorem told_fdClo (fd x : Fd) : (p.fdClo fd).told x = if x = fd then 0 else p.told x := by
  have hevt := evt_fdClo (p := p) fd x
  have hptr := fdClo_chgPtr (p := p) fd x
  by_cases hx : x = fd
  · rw [if_pos hx] at hevt hptr ⊢
    rw [told_of_none hptr, hevt]
  · rw [if_neg hx] at hevt hptr ⊢
    refine told_congr hptr (fun j hj => ?_) fun _ => hevt
    obtain ⟨c, hc, hcx⟩ := h.ptr hj
    have hne : p.chgPtr fd ≠ some j := by
      intro hfd
      obtain ⟨_, hd, hdfd⟩ := h.ptr hfd
      rw [hc] at hd
      exact hx (by rw [← hcx, Option.some.inj hd, hdfd])
    rw [fdClo_getElem?, hc, Option.map_some, if_neg hne]

theorem fdClo (fd : Fd) : Tracked (p.fdClo fd) := by
  refine ⟨fun {x j} hx => ?_, fun {j c} hc hne => ?_⟩
  · rw [fdClo_chgPtr, Option.ite_none_left_eq_some] at hx
    obtain ⟨c, hc, hcx⟩ := h.ptr hx.2
    refine ⟨_, by rw [fdClo_getElem?, hc]; rfl, ?_⟩
    split <;> exact hcx
  · rw [fdClo_getElem?, Option.map_eq_some_iff] at hc
    obtain ⟨b, hb, rfl⟩ := hc
    rw [h.told_fdClo]
    by_cases hj : p.chgPtr fd = some j
    · obtain ⟨_, hd, hdfd⟩ := h.ptr hj
      rw [hb] at hd
      obtain rfl := Option.some.inj hd
      simp [hj, hdfd]
    · rw [if_neg hj] at hne ⊢
      rw [fdClo_chgPtr] at hne
      by_cases hbfd : b.fd = fd
      · -- the entry was closed over before
        obtain ⟨hprev, -⟩ := h.stale hb (by rwa [hbfd])
        exact ⟨hprev, if_pos hbfd⟩
      · rw [if_neg hbfd] at hne ⊢
        exact h.stale hb hne

end Tracked

/-! ## A flush -/

variable {k : Kernel}

@[simp] theorem flushOne_isOpen (k : Kernel) (c : FdChg) : (p.flushOne k c).isOpen = k.isOpen := by
  unfold flushOne
  dsimp only
  split
  · rfl
  · exact Kernel.epollCtl_isOpen ..

theorem flushOne_interest_of_ne {c : FdChg} {x : Fd} (hx : x ≠ c.fd) : (p.flushOne k c).interest x = k.interest x := by
  unfold flushOne
  dsimp only
  split
  · rfl
  · exact Kernel.epollCtl_interest_of_ne hx

theorem flush_isOpen (cs : List FdChg) (k : Kernel) : (cs.foldl p.flushOne k).isOpen = k.isOpen := by
  induction cs generalizing k with
  | nil => rfl
  | cons c cs ih => rw [List.foldl_cons, ih, flushOne_isOpen]

theorem flush_wf {k : Kernel} (h : k.Wf) (cs : List FdChg) : (cs.foldl p.flushOne k).Wf := by
  induction cs generalizing k with
  | nil => exact h
  | cons c cs ih =>
    refine ih ?_
    unfold flushOne
    dsimp only
    split
    · exact h
    · exact h.epollCtl _ _ _

/-- A change of a descriptor the kernel does not have: it is added if its entry says that nothing was told, and else
the call fails. -/
theorem flushOne_absent {c : FdChg} (ho : k.isOpen c.fd = true) (hi : k.interest c.fd = none) (hm : p.evt c.fd ≠ 0) :
    (p.flushOne k c).interest c.fd = if c.prev = 0 then some (dmsk2event (p.evt c.fd)) else none := by
  unfold flushOne
  dsimp only
  by_cases hprev : c.prev = 0
  · rw [if_neg (by rw [hprev]; exact fun h => hm h.symm), if_neg (by simp [hprev]), if_pos hprev]
    simp [Kernel.epollCtl, ho, hi]
  · rw [if_neg hprev, if_pos hprev, if_neg hm]
    split <;> simp [Kernel.epollCtl, hi]

/-- A second change that says nothing was told fails. -/
theorem flushOne_present {c : FdChg} {ev : BitVec 32} (hi : k.interest c.fd = some ev) (hm : p.evt c.fd ≠ 0)
    (hprev : c.prev = 0) :
    (p.flushOne k c).interest c.fd = some ev := by
  unfold flushOne
  dsimp only
  rw [if_neg (by rw [hprev]; exact fun h => hm h.symm), if_neg (by simp [hprev])]
  simp [Kernel.epollCtl, hi]

theorem flush_told {fd : Fd} {t : BitVec 32} (ht : t ≠ 0) (hm : p.evt fd ≠ 0) (cs : List FdChg) {k : Kernel}
    (hcs : ∀ c ∈ cs, c.fd = fd → c.prev = t) (ho : k.isOpen fd = true) (hi : k.interest fd = none) :
    (cs.foldl p.flushOne k).interest fd = none := by
  induction cs generalizing k with
  | nil => exact hi
  | cons c cs ih =>
    refine ih (fun d hd => hcs d (List.mem_cons_of_mem _ hd)) (by rwa [flushOne_isOpen]) ?_
    by_cases hc : c.fd = fd
    · have hprev := hcs c List.mem_cons_self hc
      subst hc
      rw [flushOne_absent ho hi hm, if_neg (by rwa [hprev])]
    · rw [flushOne_interest_of_ne (Ne.symm hc), hi]

theorem flush_present {fd : Fd} (hm : p.evt fd ≠ 0) (cs : List FdChg) {k : Kernel} {ev : BitVec 32}
    (hcs : ∀ c ∈ cs, c.fd = fd → c.prev = 0) (hi : k.interest fd = some ev) :
    (cs.foldl p.flushOne k).interest fd = some ev := by
  induction cs generalizing k with
  | nil => exact hi
  | cons c cs ih =>
    refine ih (fun d hd => hcs d (List.mem_cons_of_mem _ hd)) ?_
    by_cases hc : c.fd = fd
    · have hprev := hcs c List.mem_cons_self hc
      subst hc
      exact flushOne_present hi hm hprev
    · rw [flushOne_interest_of_ne (Ne.symm hc), hi]

theorem flush_untold {fd : Fd} (hm : p.evt fd ≠ 0) (cs : List FdChg) {k : Kernel}
    (hcs : ∀ c ∈ cs, c.fd = fd → c.prev = 0)
    (hmem : ∃ c ∈ cs, c.fd = fd) (ho : k.isOpen fd = true) (hi : k.interest fd = none) :
    (cs.foldl p.flushOne k).interest fd = some (dmsk2event (p.evt fd)) := by
  induction cs generalizing k with
  | nil =>
    obtain ⟨_, hc, -⟩ := hmem
    nomatch hc
  | cons c cs ih =>
    have hrest : ∀ d ∈ cs, d.fd = fd → d.prev = 0 := fun d hd => hcs d (List.mem_cons_of_mem _ hd)
    by_cases hc : c.fd = fd
    · have hprev := hcs c List.mem_cons_self hc
      subst hc
      exact flush_present hm cs hrest (by rw [flushOne_absent ho hi hm, if_pos hprev])
    · refine ih hrest ?_ (by rwa [flushOne_isOpen]) (by rw [flushOne_interest_of_ne (Ne.symm hc), hi])
      obtain ⟨d, hd, hdfd⟩ := hmem
      rcases List.mem_cons.mp hd with rfl | hd
      · exact absurd hdfd hc
      · exact ⟨d, hd, hdfd⟩

/-- What a flush makes of an open descriptor that has bits and that the kernel does not have. -/
theorem Tracked.flush_interest (h : Tracked p) {fd : Fd} (ho : k.isOpen fd = true) (hi : k.interest fd = none)
    (hm : p.evt fd ≠ 0) :
    (p.fdFlushChanges k).2.interest fd = if p.told fd = 0 then some (dmsk2event (p.evt fd)) else none := by
  have hcs : ∀ c ∈ p.chgList, c.fd = fd → c.prev = p.told fd := fun c hc hcfd => hcfd ▸ h.prev_eq hc
  by_cases ht : p.told fd = 0
  · rw [if_pos ht]
    rw [ht] at hcs
    refine flush_untold hm p.chgList hcs ?_ ho hi
    cases hp : p.chgPtr fd with
    | none => exact absurd (by rw [← told_of_none hp, ht]) hm
    | some i =>
      obtain ⟨c, hc, hcfd⟩ := h.ptr hp
      exact ⟨c, List.mem_of_getElem? hc, hcfd⟩
  · rw [if_neg ht]
    exact flush_told ht hm p.chgList hcs ho hi

theorem flush_chgPtr (cs : List FdChg) (ptr : Fd → Option Nat) (fd : Fd) :
    cs.foldl (fun (ptr : Fd → Option Nat) c => Function.update ptr c.fd none) ptr fd =
      if ∃ c ∈ cs, c.fd = fd then none else ptr fd := by
  induction cs generalizing ptr with
  | nil => simp
  | cons c cs ih =>
    rw [List.foldl_cons, ih]
    by_cases hc : c.fd = fd
    · simp [hc]
    · simp [hc, Function.update_of_ne (Ne.symm hc)]

theorem Tracked.flush_chgPtr_eq_none (h : Tracked p) (k : Kernel) (fd : Fd) :
    (p.fdFlushChanges k).1.chgPtr fd = none := by
  refine (flush_chgPtr p.chgList p.chgPtr fd).trans ?_
  split
  · rfl
  · next hno =>
    cases hp : p.chgPtr fd with
    | none => rfl
    | some i =>
      obtain ⟨c, hc, hcfd⟩ := h.ptr hp
      exact absurd ⟨c, List.mem_of_getElem? hc, hcfd⟩ hno

theorem Tracked.flush (h : Tracked p) (k : Kernel) : Tracked (p.fdFlushChanges k).1 where
  ptr hx := by
    rw [h.flush_chgPtr_eq_none] at hx
    nomatch hx
  stale hc := by simp [fdFlushChanges] at hc

theorem Tracked.told_flush (h : Tracked p) (k : Kernel) (fd : Fd) : (p.fdFlushChanges k).1.told fd = p.evt fd :=
  told_of_none (h.flush_chgPtr_eq_none k fd)

end Poller

end ZeroServ
