import Mathlib.Data.List.Nodup
import ZeroServ.Interest

/-!
# The table of changes

The two bits of every descriptor are an independent map, and `chg_ptr` leads to the mask a descriptor had before its
first change since it was last flushed or closed (`packed_bits_iff`). `poll_init` has room for `global.maxconn`
entries, one for each descriptor. But `__fd_clo` drops the pointer to an entry and not the entry: a descriptor that
is closed and changed again before a flush gets a second one. Without such changes the table is large enough
(`change_list_fits`).
-/

namespace ZeroServ

open Run TwoBit

/-- A call on a descriptor, or a flush. -/
inductive BitStep where
  | set (fd : Fd) (dir : Dir)
  | clr (fd : Fd) (dir : Dir)
  | rem (fd : Fd)
  | clo (fd : Fd)
  | flush
  deriving DecidableEq, Repr

namespace Poller

/-- The value `__fd_set` returns. -/
def fdSetRet (p : Poller) (fd : Fd) (dir : Dir) : Nat := if p.evt fd &&& dir.mask ≠ 0 then 0 else 1

/-- The value `__fd_clr` returns. -/
def fdClrRet (p : Poller) (fd : Fd) (dir : Dir) : Nat := if p.evt fd &&& dir.mask = 0 then 0 else 1

/-- What a flush leaves of the poller, whatever the kernel has. -/
def flushed (p : Poller) : Poller := (p.fdFlushChanges ⟨fun _ => false, fun _ => none⟩).1

/-- What a call leaves of the poller. -/
def call (p : Poller) : BitStep → Poller
  | .set fd dir => p.fdSet fd dir
  | .clr fd dir => p.fdClr fd dir
  | .rem fd => p.fdRem fd
  | .clo fd => p.fdClo fd
  | .flush => p.flushed

/-- The call makes an entry: it changes a bit of a descriptor for which `chg_ptr` has none. -/
def Allocates (p : Poller) : BitStep → Prop
  | .set fd dir => p.chgPtr fd = none ∧ p.fdIsSet fd dir = false
  | .clr fd dir => p.chgPtr fd = none ∧ p.fdIsSet fd dir = true
  | .rem fd => p.chgPtr fd = none ∧ p.evt fd ≠ 0
  | .clo _ | .flush => False

instance (p : Poller) : DecidablePred p.Allocates
  | .set _ _ | .clr _ _ => inferInstanceAs (Decidable (_ ∧ _))
  | .rem _ => inferInstanceAs (Decidable (_ ∧ _))
  | .clo _ | .flush => inferInstanceAs (Decidable False)

/-- The descriptors of the entries. -/
def pending (p : Poller) : List Fd := p.chgList.map FdChg.fd

end Poller

namespace BitStep

/-- The descriptor a call is about. -/
def fd? : BitStep → Option Fd
  | .set fd _ | .clr fd _ | .rem fd | .clo fd => some fd
  | .flush => none

/-- What a call makes of the bits of its descriptor: the union, the difference, or none. -/
def mask : BitStep → BitVec 32 → BitVec 32
  | .set _ dir, m => m ||| dir.mask
  | .clr _ dir, m => m &&& ~~~dir.mask
  | .rem _, _ | .clo _, _ => 0
  | .flush, m => m

/-- The value a call returns. -/
def ret (p : Poller) : BitStep → Option Nat
  | .set fd dir => some (p.fdSetRet fd dir)
  | .clr fd dir => some (p.fdClrRet fd dir)
  | .rem _ | .clo _ | .flush => none

end BitStep

/-- The calls on a descriptor. -/
theorem BitStep.of_fd? {e : BitStep} {fd : Fd} (h : fd ∈ e.fd?) :
    (∃ dir, e = .set fd dir) ∨ (∃ dir, e = .clr fd dir) ∨ e = .rem fd ∨ e = .clo fd := by
  cases e with
  | set fd' dir => exact .inl ⟨dir, by rw [Option.some.inj h]⟩
  | clr fd' dir => exact .inr (.inl ⟨dir, by rw [Option.some.inj h]⟩)
  | rem fd' => exact .inr (.inr (.inl (by rw [Option.some.inj h])))
  | clo fd' => exact .inr (.inr (.inr (by rw [Option.some.inj h])))
  | flush => nomatch h

theorem BitStep.of_fd?_none {e : BitStep} (h : e.fd? = none) : e = .flush := by
  cases e with
  | flush => rfl
  | set | clr | rem | clo => nomatch h

/-! ## The abstract map -/

/-- Two bits for each descriptor, and the mask it had before its first change since the last flush or the last time
it was closed. -/
structure Noted where
  bits : Fd → BitVec 32
  first : Fd → Option (BitVec 32)

namespace Noted

/-- A descriptor gets a mask; where that is its first change, the one it had is noted. -/
def change (a : Noted) (fd : Fd) (m : BitVec 32) : Noted where
  bits := Function.update a.bits fd m
  first := if m = a.bits fd ∨ a.first fd ≠ none then a.first else Function.update a.first fd (some (a.bits fd))

def call (a : Noted) : BitStep → Noted
  | .set fd dir => a.change fd (a.bits fd ||| dir.mask)
  | .clr fd dir => a.change fd (a.bits fd &&& ~~~dir.mask)
  | .rem fd => a.change fd 0
  | .clo fd => ⟨Function.update a.bits fd 0, Function.update a.first fd none⟩
  | .flush => { a with first := fun _ => none }

end Noted

/-- The poller, and what is to be noted. -/
abbrev Traced := Poller × Noted

/-- A call, where its descriptor is below `global.maxconn`. -/
def bitStep (maxconn : Nat) (s : Traced) (e : BitStep) : Option Traced :=
  if ∀ fd ∈ e.fd?, fd < maxconn then some (s.1.call e, s.2.call e) else none

/-- `poll_init` -/
def tracedStart : Traced := (⟨fun _ => 0, [], fun _ => none⟩, ⟨fun _ => 0, fun _ => none⟩)

/-- What a call does to the bits and what it returns. -/
structure Updates (s : Traced) (e : BitStep) (s' : Traced) : Prop where
  own : ∀ fd ∈ e.fd?, s'.1.evt fd = e.mask (s.1.evt fd)
  others : ∀ x, x ∉ e.fd? → s'.1.evt x = s.1.evt x
  ret : ∀ fd ∈ e.fd?, ∀ n ∈ e.ret s.1, n = if s'.1.evt fd = s.1.evt fd then 0 else 1

/-- The bits are the abstract ones, and `chg_ptr` leads to what was noted, by an entry inside the table. -/
structure Points (maxconn : Nat) (s : Traced) : Prop where
  bits : s.1.evt = s.2.bits
  entry : ∀ fd i, s.1.chgPtr fd = some i →
    i < maxconn ∧ ∃ c, s.1.chgList[i]? = some c ∧ c.fd = fd ∧ s.2.first fd = some c.prev
  pending : ∀ fd, s.2.first fd ≠ none → s.1.chgPtr fd ≠ none

/-! ## One call -/

namespace Poller

variable {p : Poller}

theorem or_mask_ne {m : BitVec 32} (hm : m &&& 3 = m) {dir : Dir} (h : m &&& dir.mask = 0) : m ||| dir.mask ≠ m := by
  rcases four_masks hm with rfl | rfl | rfl | rfl <;> cases dir <;> revert h <;> decide

theorem and_not_mask_ne {m : BitVec 32} (hm : m &&& 3 = m) {dir : Dir} (h : m &&& dir.mask ≠ 0) :
    m &&& ~~~dir.mask ≠ m := by
  rcases four_masks hm with rfl | rfl | rfl | rfl <;> cases dir <;> revert h <;> decide

/-- The bits after a call. -/
theorem evt_call (p : Poller) (e : BitStep) (x : Fd) :
    (p.call e).evt x = if x ∈ e.fd? then e.mask (p.evt x) else p.evt x := by
  cases e with
  | set fd dir => simpa [call, BitStep.fd?, BitStep.mask, eq_comm] using evt_fdSet fd dir x
  | clr fd dir => simpa [call, BitStep.fd?, BitStep.mask, eq_comm] using evt_fdClr fd dir x
  | rem fd => simpa [call, BitStep.fd?, BitStep.mask, eq_comm] using evt_fdRem fd x
  | clo fd => simpa [call, BitStep.fd?, BitStep.mask, eq_comm] using evt_fdClo fd x
  | flush => simp [call, BitStep.fd?, flushed, fdFlushChanges, evt]

/-- A call that may make an entry leaves the poller as it is, or makes one and writes the descriptor's bits. -/
theorem call_cases (p : Poller) (e : BitStep) {fd : Fd} (hfd : fd ∈ e.fd?) :
    (e = .clo fd ∧ p.call e = p.fdClo fd) ∨ (e.mask (p.evt fd) = p.evt fd ∧ ¬p.Allocates e ∧ p.call e = p) ∨
      (e.mask (p.evt fd) ≠ p.evt fd ∧ (p.Allocates e ↔ p.chgPtr fd = none) ∧
        ∃ f : BitVec 32 → BitVec 32, p.call e = (p.allocChgList fd (p.evt fd)).setWord fd f) := by
  have hm : p.evt fd &&& 3 = p.evt fd := evt_and_three fd
  rcases BitStep.of_fd? hfd with ⟨dir, rfl⟩ | ⟨dir, rfl⟩ | rfl | rfl
  · refine .inr ?_
    by_cases h : p.evt fd &&& dir.mask ≠ 0
    · have hset : p.fdIsSet fd dir = true := by simpa [fdIsSet] using h
      exact .inl ⟨or_mask_of_set hm h, by simp [Allocates, hset], if_pos h⟩
    · have hset : p.fdIsSet fd dir = false := by simpa [fdIsSet] using h
      exact .inr ⟨or_mask_ne hm (not_not.mp h), and_iff_left hset, _, if_neg h⟩
  · refine .inr ?_
    by_cases h : p.evt fd &&& dir.mask = 0
    · have hset : p.fdIsSet fd dir = false := by simpa [fdIsSet] using h
      exact .inl ⟨and_not_mask_of_clear hm h, by simp [Allocates, hset], if_pos h⟩
    · have hset : p.fdIsSet fd dir = true := by simpa [fdIsSet] using h
      exact .inr ⟨and_not_mask_ne hm h, and_iff_left hset, _, if_neg h⟩
  · refine .inr ?_
    by_cases h : p.evt fd = 0
    · exact .inl ⟨h.symm, fun hal => hal.2 h, if_pos h⟩
    · exact .inr ⟨fun h' => h h'.symm, and_iff_left h, _, if_neg h⟩
  · exact .inl ⟨rfl, rfl⟩

/-- A call that does not close its descriptor changes its bits at most. -/
theorem touched_call {e : BitStep} {fd : Fd} (hfd : fd ∈ e.fd?) (hclo : e ≠ .clo fd) : Touched p fd (p.call e) := by
  rcases BitStep.of_fd? hfd with ⟨dir, rfl⟩ | ⟨dir, rfl⟩ | rfl | rfl
  · exact touched_fdSet fd dir
  · exact touched_fdClr fd dir
  · exact touched_fdRem fd
  · exact absurd rfl hclo

/-- Closing a descriptor leaves its entry in the list. -/
theorem pending_fdClo (p : Poller) (fd : Fd) : (p.fdClo fd).pending = p.pending := by
  refine List.ext_getElem? fun j => ?_
  rw [pending, pending, List.getElem?_map, List.getElem?_map, Tracked.fdClo_getElem?, Option.map_map]
  refine congrArg (fun g => Option.map g p.chgList[j]?) (funext fun c => ?_)
  rw [Function.comp_apply]
  split <;> rfl

/-- The entries after a call: a flush drops them, and a call that allocates adds its descriptor's. -/
theorem pending_call (p : Poller) (e : BitStep) : (p.call e).pending = [] ∨
    (∃ fd ∈ e.fd?, p.Allocates e ∧ (p.call e).pending = p.pending ++ [fd]) ∨
    (¬p.Allocates e ∧ (p.call e).pending = p.pending) := by
  cases hfd : e.fd? with
  | none =>
    rw [BitStep.of_fd?_none hfd]
    exact .inl rfl
  | some fd =>
    refine .inr ?_
    rcases p.call_cases e hfd with ⟨rfl, hq⟩ | ⟨-, hno, hq⟩ | ⟨-, hal, f, hq⟩
    · refine .inr ⟨id, ?_⟩
      rw [hq, pending_fdClo]
    · exact .inr ⟨hno, by rw [hq]⟩
    · rw [hq, pending, pending]
      cases hptr : p.chgPtr fd with
      | none =>
        refine .inl ⟨fd, rfl, hal.mpr hptr, ?_⟩
        rw [allocChgList_of_none hptr]
        simp [setWord]
      | some i =>
        refine .inr ⟨fun h => ?_, ?_⟩
        · exact absurd (hptr.symm.trans (hal.mp h)) (Option.some_ne_none i)
        · rw [allocChgList_of_some hptr]
          rfl

theorem chgPtr_changed (p : Poller) (fd : Fd) (old : BitVec 32) (f : BitVec 32 → BitVec 32) (x : Fd) :
    ((p.allocChgList fd old).setWord fd f).chgPtr x =
      if x = fd ∧ p.chgPtr fd = none then some p.chgList.length else p.chgPtr x := by
  cases hptr : p.chgPtr fd with
  | none => simp [allocChgList_of_none hptr, setWord, Function.update_apply]
  | some i => simp [allocChgList_of_some hptr, setWord]

end Poller

/-! ## The invariant -/

/-- The bits are the abstract ones, and what was noted of a descriptor is what the poller takes the kernel to have of
it. -/
structure Noting (s : Traced) : Prop where
  tracked : s.1.Tracked
  bits : s.1.evt = s.2.bits
  first : ∀ fd, s.2.first fd = if s.1.chgPtr fd = none then none else some (s.1.told fd)

namespace Noted

variable {a : Noted}

theorem bits_call (a : Noted) (e : BitStep) (x : Fd) :
    (a.call e).bits x = if x ∈ e.fd? then e.mask (a.bits x) else a.bits x := by
  cases e with
  | set fd dir | clr fd dir =>
    simp only [call, change, BitStep.fd?, BitStep.mask, Function.update_apply, Option.mem_def, Option.some.injEq]
    by_cases hx : x = fd
    · rw [if_pos hx, if_pos hx.symm, hx]
    · rw [if_neg hx, if_neg (Ne.symm hx)]
  | rem fd | clo fd =>
    simp only [call, change, BitStep.fd?, BitStep.mask, Function.update_apply, Option.mem_def,
      Option.some.injEq, eq_comm]
  | flush => rfl

theorem call_change {e : BitStep} {fd : Fd} (hfd : fd ∈ e.fd?) (hclo : e ≠ .clo fd) :
    a.call e = a.change fd (e.mask (a.bits fd)) := by
  rcases BitStep.of_fd? hfd with ⟨dir, rfl⟩ | ⟨dir, rfl⟩ | rfl | rfl
  · rfl
  · rfl
  · rfl
  · exact absurd rfl hclo

end Noted

namespace Noting

variable {s : Traced}

theorem start : Noting tracedStart where
  tracked := .empty _
  bits := by
    funext fd
    simp [tracedStart, Poller.evt, TwoBit.field]
  first _ := rfl

theorem flush (h : Noting s) : Noting (s.1.call .flush, s.2.call .flush) where
  tracked := h.tracked.flush ⟨fun _ => false, fun _ => none⟩
  bits := h.bits
  first fd := by
    have hptr : (s.1.call .flush).chgPtr fd = none := h.tracked.flush_chgPtr_eq_none ⟨fun _ => false, fun _ => none⟩ fd
    rw [if_pos hptr]
    rfl

theorem clo (h : Noting s) (fd : Fd) : Noting (s.1.call (.clo fd), s.2.call (.clo fd)) where
  tracked := h.tracked.fdClo fd
  bits := by
    funext x
    rw [Poller.evt_call, Noted.bits_call, h.bits]
  first x := by
    simp only [Poller.call, Noted.call, Poller.Tracked.fdClo_chgPtr, h.tracked.told_fdClo, Function.update_apply]
    by_cases hx : x = fd
    · simp [hx]
    · simp [hx, h.first]

/-- A change of the bits is noted where it is the first one, which is where an entry is made. -/
theorem change (h : Noting s) {e : BitStep} {fd : Fd} (hfd : fd ∈ e.fd?) (hclo : e ≠ .clo fd) :
    Noting (s.1.call e, s.2.call e) where
  tracked := h.tracked.touched (Poller.touched_call hfd hclo)
  bits := by
    funext x
    rw [Poller.evt_call, Noted.bits_call, h.bits]
  first x := by
    dsimp only
    rw [h.tracked.told_touched (Poller.touched_call hfd hclo), Noted.call_change hfd hclo, Noted.change, ← h.bits]
    rcases s.1.call_cases e hfd with ⟨hclo', -⟩ | ⟨hsame, -, hq⟩ | ⟨hne, -, f, hq⟩
    · exact absurd hclo' hclo
    · rw [if_pos (.inl hsame), hq]
      exact h.first x
    · rw [hq, Poller.chgPtr_changed, h.first fd]
      cases hptr : s.1.chgPtr fd with
      | some i => simpa using h.first x
      | none =>
        by_cases hx : x = fd
        · subst hx
          simp [hne, Poller.told_of_none hptr]
        · simp [hne, hx, h.first]

theorem call (h : Noting s) (e : BitStep) : Noting (s.1.call e, s.2.call e) := by
  cases hfd : e.fd? with
  | none =>
    rw [BitStep.of_fd?_none hfd]
    exact h.flush
  | some fd =>
    by_cases hclo : e = .clo fd
    · rw [hclo]
      exact h.clo fd
    · exact h.change hfd hclo

end Noting

/-! ## The bits and the entries, in every run -/

/-- A call that makes an entry points `chg_ptr` at the end of the list. -/
theorem Poller.chgPtr_allocates {p : Poller} {e : BitStep} (h : p.Allocates e) :
    ∃ fd ∈ e.fd?, (p.call e).chgPtr fd = some p.chgList.length := by
  cases hfd : e.fd? with
  | none =>
    rw [BitStep.of_fd?_none hfd] at h
    exact h.elim
  | some fd =>
    refine ⟨fd, rfl, ?_⟩
    rcases p.call_cases e hfd with ⟨rfl, -⟩ | ⟨-, hno, -⟩ | ⟨-, hal, f, hq⟩
    · exact h.elim
    · exact absurd h hno
    · rw [hq, Poller.chgPtr_changed, if_pos ⟨rfl, hal.mp h⟩]

theorem Poller.length_pending (p : Poller) : p.pending.length = p.chgList.length :=
  List.length_map _

/-- The bits are written one descriptor at a time, and the returned value says whether they changed. -/
theorem updates_call (s : Traced) (e : BitStep) : Updates s e (s.1.call e, s.2.call e) where
  own fd hfd := by rw [Poller.evt_call, if_pos hfd]
  others x hx := by rw [Poller.evt_call, if_neg hx]
  ret fd hfd n hn := by
    rw [Poller.evt_call, if_pos hfd]
    have hm : s.1.evt fd &&& 3 = s.1.evt fd := Poller.evt_and_three fd
    rcases BitStep.of_fd? hfd with ⟨dir, rfl⟩ | ⟨dir, rfl⟩ | rfl | rfl
    · obtain rfl : s.1.fdSetRet fd dir = n := Option.some.inj hn
      rw [Poller.fdSetRet, BitStep.mask]
      by_cases h : s.1.evt fd &&& dir.mask ≠ 0
      · rw [if_pos h, if_pos (Poller.or_mask_of_set hm h)]
      · rw [if_neg h, if_neg (Poller.or_mask_ne hm (not_not.mp h))]
    · obtain rfl : s.1.fdClrRet fd dir = n := Option.some.inj hn
      rw [Poller.fdClrRet, BitStep.mask]
      by_cases h : s.1.evt fd &&& dir.mask = 0
      · rw [if_pos h, if_pos (Poller.and_not_mask_of_clear hm h)]
      · rw [if_neg h, if_neg (Poller.and_not_mask_ne hm h)]
    · nomatch hn
    · nomatch hn

/-- A table with no more entries than it has room for. -/
theorem Noting.points {s : Traced} {maxconn : Nat} (h : Noting s) (hlen : s.1.chgList.length ≤ maxconn) :
    Points maxconn s where
  bits := h.bits
  entry fd i hi := by
    obtain ⟨c, hc, hcfd⟩ := h.tracked.ptr hi
    refine ⟨(h.tracked.lt_length hi).trans_le hlen, c, hc, hcfd, ?_⟩
    rw [h.first, if_neg (by rw [hi]; exact Option.some_ne_none i), Poller.told_of_some hi hc]
  pending fd hfd hptr := hfd (by rw [h.first, if_pos hptr])

theorem bitStep_eq {maxconn : Nat} {s s' : Traced} {e : BitStep} (hs : bitStep maxconn s e = some s') :
    s' = (s.1.call e, s.2.call e) := by
  obtain ⟨-, hs⟩ := Option.ite_none_right_eq_some.mp hs
  exact (Option.some.inj hs).symm

/-- In every run of calls and flushes on descriptors below `maxconn`: every call does to the bits what it does to an
independent map and says so, and every `chg_ptr` leads to an entry of the table with the mask of its descriptor
before the first change, exactly if no call makes an entry when `maxconn` are pending. -/
theorem packed_bits_iff (maxconn : Nat) (es : List BitStep) :
    AllSteps (bitStep maxconn) Updates tracedStart es ∧ AllStates (bitStep maxconn) (Points maxconn) tracedStart es ↔
      AllSteps (bitStep maxconn) (fun s e _ => s.1.Allocates e → s.1.chgList.length < maxconn) tracedStart es := by
  have hnoting : AllStates (bitStep maxconn) Noting tracedStart es :=
    .of_step .start (fun s e s' h hs => bitStep_eq hs ▸ h.call e) es
  have hupdates : AllSteps (bitStep maxconn) Updates tracedStart es :=
    .of_allStates (fun s e s' _ hs _ => bitStep_eq hs ▸ updates_call s e) hnoting
  rw [and_iff_right hupdates]
  refine AllStates.iff_allSteps (I := fun s => Noting s ∧ s.1.chgList.length ≤ maxconn) (E := fun _ _ _ => True)
    ⟨.start, Nat.zero_le _⟩ (fun s h => h.1.points h.2) ?_ ?_ (.of_forall (fun _ _ _ => trivial) _ _)
  · rintro s e s' ⟨h, hlen⟩ hs - hroom
    obtain rfl := bitStep_eq hs
    refine ⟨h.call e, ?_⟩
    dsimp only
    rw [← Poller.length_pending] at hlen ⊢
    rcases s.1.pending_call e with hq | ⟨fd, -, hal, hq⟩ | ⟨-, hq⟩
    · rw [hq]
      exact Nat.zero_le _
    · have := hroom hal
      rw [hq, List.length_append, Poller.length_pending]
      exact this
    · rwa [hq]
  · rintro s e s' ⟨h, -⟩ hs - hpoints hal
    obtain rfl := bitStep_eq hs
    obtain ⟨fd, -, hptr⟩ := Poller.chgPtr_allocates hal
    exact (hpoints.entry fd _ hptr).1

/-- In a table of one entry: the descriptor is closed with its entry pending, and the next change makes a second one. -/
theorem entry_outside : ¬AllStates (bitStep 1) (Points 1) tracedStart [.set 0 .rd, .clo 0, .set 0 .rd] := by
  intro h
  have hrun : exec (bitStep 1) tracedStart [.set 0 .rd, .clo 0, .set 0 .rd] = some _ := rfl
  exact absurd ((h.last hrun).entry 0 1 (by decide)).1 (by decide)

/-! ## The length of the list -/

namespace PollStep

/-- The descriptor of a step. -/
def fd? : PollStep → Option Fd
  | .opened fd | .set fd _ | .clr fd _ | .rem fd | .delete fd => some fd
  | .flush => none

/-- The call that a step makes; handing a descriptor out makes none. -/
def call : PollStep → Option BitStep
  | .opened _ => none
  | .set fd dir => some (.set fd dir)
  | .clr fd dir => some (.clr fd dir)
  | .rem fd => some (.rem fd)
  | .delete fd => some (.clo fd)
  | .flush => some .flush

end PollStep

/-- A step, where its descriptor is below `global.maxconn`. -/
def belowStep (maxconn : Nat) (s : Polled) (e : PollStep) : Option Polled :=
  if ∀ fd ∈ e.fd?, fd < maxconn then pollStep s e else none

/-- No second entry is made for a descriptor that has one in the list. -/
def Single (p : Poller) (e : PollStep) : Prop := ∀ c ∈ e.call, p.Allocates c → ∀ fd ∈ c.fd?, fd ∉ p.pending

/-- The entries are of distinct descriptors below `maxconn`. -/
structure Distinct (maxconn : Nat) (s : Polled) : Prop where
  nodup : s.1.pending.Nodup
  below : ∀ fd ∈ s.1.pending, fd < maxconn

namespace Distinct

variable {maxconn : Nat} {s s' : Polled} {e : PollStep}

theorem length_le (h : Distinct maxconn s) : s.1.chgList.length ≤ maxconn := by
  have hsub : s.1.pending ⊆ List.range maxconn := fun fd hfd => List.mem_range.mpr (h.below fd hfd)
  have hle := (List.subperm_of_subset h.nodup hsub).length_le
  rwa [List.length_range, Poller.length_pending] at hle

theorem call {p : Poller} {k k' : Kernel} {c : BitStep} (h : Distinct maxconn (p, k))
    (hsingle : p.Allocates c → ∀ fd ∈ c.fd?, fd ∉ p.pending) (hbelow : ∀ fd ∈ c.fd?, fd < maxconn) :
    Distinct maxconn (p.call c, k') := by
  rcases p.pending_call c with hq | ⟨fd, hfd, hal, hq⟩ | ⟨-, hq⟩
  · exact ⟨by simp [hq], by simp [hq]⟩
  · refine ⟨?_, fun x hx => ?_⟩
    · rw [hq]
      refine List.nodup_append.mpr ⟨h.nodup, List.nodup_singleton _, fun x hx y hy => ?_⟩
      rw [List.mem_singleton.mp hy]
      exact ne_of_mem_of_not_mem hx (hsingle hal fd hfd)
    · rw [hq, List.mem_append, List.mem_singleton] at hx
      rcases hx with hx | rfl
      · exact h.below x hx
      · exact hbelow x hfd
  · exact ⟨by rw [hq]; exact h.nodup, by rw [hq]; exact h.below⟩

theorem step (h : Distinct maxconn s) (hs : belowStep maxconn s e = some s') (hc : Single s.1 e) :
    Distinct maxconn s' := by
  obtain ⟨hbelow, hs⟩ := Option.ite_none_right_eq_some.mp hs
  cases e with
  | opened fd =>
    obtain rfl := Option.some.inj (Option.ite_none_left_eq_some.mp hs).2
    exact ⟨h.nodup, h.below⟩
  | set fd dir | clr fd dir | rem fd | delete fd =>
    obtain rfl := Option.some.inj (Option.ite_none_right_eq_some.mp hs).2
    exact h.call (hc _ rfl) hbelow
  | flush =>
    obtain rfl := Option.some.inj hs
    exact h.call (hc _ rfl) hbelow

end Distinct

/-- In every run of steps on descriptors below `maxconn`, with any descriptors open at its start: as long as no
second entry is made for a descriptor between two flushes, the list is no longer than the table. -/
theorem change_list_fits (maxconn : Nat) (isOpen : Fd → Bool) (es : List PollStep)
    (h : AllSteps (belowStep maxconn) (fun s e _ => Single s.1 e) (polledStart isOpen) es) :
    AllStates (belowStep maxconn) (fun s => s.1.chgList.length ≤ maxconn) (polledStart isOpen) es := by
  have hstart : Distinct maxconn (polledStart isOpen) := ⟨List.nodup_nil, fun _ hfd => nomatch hfd⟩
  exact (AllStates.of_invariant hstart (fun _ _ _ hd hs hc => Distinct.step hd hs hc) h).mono fun _ hd => hd.length_le

instance (p : Poller) : DecidablePred (Single p)
  | .opened _ => isTrue fun _ hc => nomatch hc
  | .set _ _ | .clr _ _ | .rem _ | .delete _ | .flush =>
      inferInstanceAs (Decidable (∀ c ∈ some _, _ → ∀ fd ∈ BitStep.fd? c, _))

/-- A descriptor is closed with its entry pending, and changed again after a flush. -/
theorem change_list_fits_flushed : AllStates (belowStep 1) (fun s => s.1.chgList.length ≤ 1)
    (polledStart fun _ => false) [.opened 0, .set 0 .rd, .delete 0, .flush, .opened 0, .set 0 .rd] :=
  change_list_fits _ _ _ (by decide)

/-- Without the flush there are two entries in a table of one. -/
theorem two_entries : ¬AllStates (belowStep 1) (fun s => s.1.chgList.length ≤ 1) (polledStart fun _ => false)
    [.opened 0, .set 0 .rd, .delete 0, .opened 0, .set 0 .rd] := by
  decide

end ZeroServ
