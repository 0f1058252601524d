import ZeroServ.Lib.Run
import ZeroServ.Poller

/-!
# The change list against immediate updates

Any sequence of changes of the descriptors' bits, of descriptors closed and numbers handed out again, and of flushes:
after a flush the kernel has of every open descriptor exactly its bits (`flush_refines`), which are those that
updates made at once would have left (`deferred_immediate`). The invariant is `Synced`: what the kernel has of an
open descriptor is what the poller was `told` of it.
-/

namespace ZeroServ

open Run

/-- What an interest in some bits is to the kernel: nothing, or the events of a member. -/
def interestOf (m : BitVec 32) : Option (BitVec 32) := if m = 0 then none else some (dmsk2event m)

/-- A step on a descriptor: the kernel hands it out, its bits are changed, `fd_delete` closes it; or a flush. -/
inductive PollStep where
  | opened (fd : Fd)
  | set (fd : Fd) (dir : Dir)
  | clr (fd : Fd) (dir : Dir)
  | rem (fd : Fd)
  | delete (fd : Fd)
  | flush
  deriving DecidableEq, Repr

/-- The poller, and the kernel it talks to. -/
abbrev Polled := Poller × Kernel

/-- One step, if it is possible: only a closed descriptor is handed out, and only the bits of open ones are changed. -/
def pollStep (s : Polled) : PollStep → Option Polled
  | .opened fd => if s.2.isOpen fd then none else some (s.1, s.2.opened fd)
  | .set fd dir => if s.2.isOpen fd then some (s.1.fdSet fd dir, s.2) else none
  | .clr fd dir => if s.2.isOpen fd then some (s.1.fdClr fd dir, s.2) else none
  | .rem fd => if s.2.isOpen fd then some (s.1.fdRem fd, s.2) else none
  | .delete fd => if s.2.isOpen fd then some (s.1.fdClo fd, s.2.closed fd) else none
  | .flush => some (s.1.fdFlushChanges s.2)

/-- `poll_init`, in a process that has some descriptors open: no bits, no changes, an empty interest set. -/
def polledStart (isOpen : Fd → Bool) : Polled := (⟨fun _ => 0, [], fun _ => none⟩, ⟨isOpen, fun _ => none⟩)

/-- The kernel has of every open descriptor its bits, and a closed one has none. -/
def Exact (s : Polled) : Prop :=
  (∀ fd, s.2.isOpen fd = true → s.2.interest fd = interestOf (s.1.evt fd)) ∧ ∀ fd, s.2.isOpen fd = false →
    s.1.evt fd = 0

/-- So it is after a flush. -/
def ExactFlush (_ : Polled) (e : PollStep) (s' : Polled) : Prop := e = .flush → Exact s'

/-! ## The invariant -/

/-- Between flushes the kernel has what the poller was told, and a closed descriptor has no bits and was told of
nothing. -/
structure Synced (s : Polled) : Prop where
  tracked : s.1.Tracked
  wf : s.2.Wf
  interest : ∀ fd, s.2.isOpen fd = true → s.2.interest fd = interestOf (s.1.told fd)
  closed : ∀ fd, s.2.isOpen fd = false → s.1.evt fd = 0 ∧ s.1.told fd = 0

namespace Poller

variable {p : Poller} {k : Kernel}

/-- A change whose entry says what the kernel has brings the kernel to the bits. -/
theorem flushOne_told {c : FdChg} (ho : k.isOpen c.fd = true) (hi : k.interest c.fd = interestOf c.prev) :
    (p.flushOne k c).interest c.fd = interestOf (p.evt c.fd) := by
  unfold flushOne
  dsimp only
  by_cases hsame : c.prev = p.evt c.fd
  · rw [if_pos hsame, hi, hsame]
  · rw [if_neg hsame]
    by_cases hprev : c.prev = 0
    · -- nothing was told, so there are bits now
      have hm : p.evt c.fd ≠ 0 := fun h => hsame (by rw [hprev, h])
      have hnone : k.interest c.fd = none := by rw [hi, hprev, interestOf, if_pos rfl]
      rw [if_neg (not_not.mpr hprev), interestOf, if_neg hm]
      simp [Kernel.epollCtl, ho, hnone]
    · have hsome : k.interest c.fd = some (dmsk2event c.prev) := by rw [hi, interestOf, if_neg hprev]
      rw [if_pos hprev, interestOf]
      split <;> simp [Kernel.epollCtl, hsome]

/-- A change the kernel has already been told of changes nothing: its call fails, or says the same again. -/
theorem flushOne_again {c : FdChg} (hi : k.interest c.fd = interestOf (p.evt c.fd)) :
    (p.flushOne k c).interest c.fd = interestOf (p.evt c.fd) := by
  unfold flushOne
  dsimp only
  by_cases hsame : c.prev = p.evt c.fd
  · rw [if_pos hsame, hi]
  · rw [if_neg hsame]
    by_cases hm : p.evt c.fd = 0
    · have hprev : c.prev ≠ 0 := fun h => hsame (by rw [h, hm])
      have hnone : k.interest c.fd = none := by rw [hi, interestOf, if_pos hm]
      rw [if_pos hprev, if_pos hm, interestOf, if_pos hm]
      simp [Kernel.epollCtl, hnone]
    · have hsome : k.interest c.fd = some (dmsk2event (p.evt c.fd)) := by rw [hi, interestOf, if_neg hm]
      rw [if_neg hm, interestOf, if_neg hm]
      split <;> simp [Kernel.epollCtl, hsome]

theorem flush_again {fd : Fd} (cs : List FdChg) {k : Kernel} (hi : k.interest fd = interestOf (p.evt fd)) :
    (cs.foldl p.flushOne k).interest fd = interestOf (p.evt fd) := by
  induction cs generalizing k with
  | nil => exact hi
  | cons c cs ih =>
    refine ih ?_
    by_cases hc : c.fd = fd
    · subst hc
      exact flushOne_again hi
    · rw [flushOne_interest_of_ne (Ne.symm hc), hi]

/-- The first of the entries of a descriptor brings the kernel to its bits, and the others change nothing. -/
theorem flush_first {fd : Fd} (cs : List FdChg) {k : Kernel} {t : BitVec 32} (hcs : ∀ c ∈ cs, c.fd = fd → c.prev = t)
    (hmem : ∃ c ∈ cs, c.fd = fd) (ho : k.isOpen fd = true) (hi : k.interest fd = interestOf t) :
    (cs.foldl p.flushOne k).interest fd = interestOf (p.evt fd) := by
  induction cs generalizing k with
  | nil =>
    obtain ⟨_, hc, -⟩ := hmem
    nomatch hc
  | cons c cs ih =>
    rw [List.foldl_cons]
    by_cases hc : c.fd = fd
    · have hprev := hcs c List.mem_cons_self hc
      subst hc
      exact flush_again cs (flushOne_told ho (by rw [hi, hprev]))
    · refine ih (fun d hd => hcs d (List.mem_cons_of_mem _ hd)) ?_ (by rwa [flushOne_isOpen]) ?_
      · obtain ⟨d, hd, hdfd⟩ := hmem
        rcases List.mem_cons.mp hd with rfl | hd
        · exact absurd hdfd hc
        · exact ⟨d, hd, hdfd⟩
      · rw [flushOne_interest_of_ne (Ne.symm hc), hi]

theorem flush_none {fd : Fd} (cs : List FdChg) (hno : ∀ c ∈ cs, c.fd ≠ fd) (k : Kernel) :
    (cs.foldl p.flushOne k).interest fd = k.interest fd := by
  induction cs generalizing k with
  | nil => rfl
  | cons c cs ih =>
    rw [List.foldl_cons, ih fun d hd => hno d (List.mem_cons_of_mem _ hd)]
    exact flushOne_interest_of_ne (Ne.symm (hno c List.mem_cons_self))

/-- A flush brings the kernel from what the poller was told to the bits. -/
theorem Tracked.flush_synced (h : Tracked p) {fd : Fd} (ho : k.isOpen fd = true)
    (hi : k.interest fd = interestOf (p.told fd)) :
    (p.fdFlushChanges k).2.interest fd = interestOf (p.evt fd) := by
  by_cases hmem : ∃ c ∈ p.chgList, c.fd = fd
  · exact flush_first p.chgList (fun c hc hcfd => hcfd ▸ h.prev_eq hc) hmem ho hi
  · have hno : ∀ c ∈ p.chgList, c.fd ≠ fd := fun c hc hcfd => hmem ⟨c, hc, hcfd⟩
    have hptr : p.chgPtr fd = none := by
      rw [Option.eq_none_iff_forall_ne_some]
      intro i hp
      obtain ⟨c, hc, hcfd⟩ := h.ptr hp
      exact hno c (List.mem_of_getElem? hc) hcfd
    rw [fdFlushChanges, flush_none p.chgList hno, hi, told_of_none hptr]

end Poller

/-! ## Runs -/

theorem synced_start (isOpen : Fd → Bool) : Synced (polledStart isOpen) := by
  have hevt : ∀ fd, (polledStart isOpen).1.evt fd = 0 := by
    intro fd
    simp [polledStart, Poller.evt, TwoBit.field]
  have htold : ∀ fd, (polledStart isOpen).1.told fd = 0 := fun fd => hevt fd
  refine ⟨.empty _, ?_, ?_, fun fd _ => ⟨hevt fd, htold fd⟩⟩
  · intro fd hi
    exact absurd rfl hi
  · intro fd _
    rw [htold]
    rfl

namespace Synced

variable {s : Polled}

/-- A change of the bits of an open descriptor. -/
theorem touched (h : Synced s) {fd : Fd} (ho : s.2.isOpen fd = true) {q : Poller} (hq : Poller.Touched s.1 fd q)
    (hevt : ∀ x, x ≠ fd → q.evt x = s.1.evt x) : Synced (q, s.2) := by
  have htold := h.tracked.told_touched hq
  refine ⟨h.tracked.touched hq, h.wf, ?_, ?_⟩
  · intro x hx
    rw [htold]
    exact h.interest x hx
  · intro x hx
    have hne : x ≠ fd := by
      rintro rfl
      rw [ho] at hx
      nomatch hx
    rw [htold, hevt x hne]
    exact h.closed x hx

theorem opened (h : Synced s) {fd : Fd} (hc : s.2.isOpen fd = false) : Synced (s.1, s.2.opened fd) := by
  refine ⟨h.tracked, h.wf.opened fd, ?_, ?_⟩
  · intro x hx
    by_cases hxfd : x = fd
    · -- the kernel has nothing of a number it hands out, and the poller was told of nothing
      subst hxfd
      have hnone : s.2.interest x = none := by
        by_contra hi
        rw [h.wf x hi] at hc
        nomatch hc
      rw [(h.closed x hc).2]
      exact hnone
    · simp only [Kernel.opened, Function.update_of_ne hxfd] at hx
      exact h.interest x hx
  · intro x hx
    by_cases hxfd : x = fd
    · simp [Kernel.opened, hxfd] at hx
    · simp only [Kernel.opened, Function.update_of_ne hxfd] at hx
      exact h.closed x hx

theorem deleted (h : Synced s) (fd : Fd) : Synced (s.1.fdClo fd, s.2.closed fd) := by
  refine ⟨h.tracked.fdClo fd, h.wf.closed fd, ?_, ?_⟩
  · intro x hx
    by_cases hxfd : x = fd
    · simp [Kernel.closed, hxfd] at hx
    · simp only [Kernel.closed, Function.update_of_ne hxfd] at hx
      simp only [Kernel.closed, Function.update_of_ne hxfd, h.tracked.told_fdClo, if_neg hxfd]
      exact h.interest x hx
  · intro x hx
    rw [Poller.evt_fdClo, h.tracked.told_fdClo]
    by_cases hxfd : x = fd
    · rw [if_pos hxfd, if_pos hxfd]
      exact ⟨rfl, rfl⟩
    · simp only [Kernel.closed, Function.update_of_ne hxfd] at hx
      rw [if_neg hxfd, if_neg hxfd]
      exact h.closed x hx

theorem flushed_exact (h : Synced s) : Exact (s.1.fdFlushChanges s.2) := by
  have hopen : ∀ fd, (s.1.fdFlushChanges s.2).2.isOpen fd = s.2.isOpen fd :=
    fun fd => congrFun (Poller.flush_isOpen ..) fd
  refine ⟨?_, ?_⟩
  · intro fd ho
    rw [hopen] at ho
    exact h.tracked.flush_synced ho (h.interest fd ho)
  · intro fd hc
    rw [hopen] at hc
    exact (h.closed fd hc).1

theorem flushed (h : Synced s) : Synced (s.1.fdFlushChanges s.2) := by
  obtain ⟨hexact, hclosed⟩ := h.flushed_exact
  refine ⟨h.tracked.flush s.2, Poller.flush_wf h.wf _, ?_, ?_⟩
  · intro fd ho
    rw [h.tracked.told_flush]
    exact hexact fd ho
  · intro fd hc
    rw [h.tracked.told_flush]
    exact ⟨hclosed fd hc, hclosed fd hc⟩

theorem step (h : Synced s) {s' : Polled} {e : PollStep} (hs : pollStep s e = some s') : Synced s' := by
  cases e with
  | opened fd =>
    obtain ⟨hc, hr⟩ := Option.ite_none_left_eq_some.mp hs
    obtain rfl := Option.some.inj hr
    exact h.opened (by simpa using hc)
  | set fd dir =>
    obtain ⟨ho, hr⟩ := Option.ite_none_right_eq_some.mp hs
    obtain rfl := Option.some.inj hr
    exact h.touched ho (Poller.touched_fdSet fd dir) fun x hx => by rw [Poller.evt_fdSet, if_neg hx]
  | clr fd dir =>
    obtain ⟨ho, hr⟩ := Option.ite_none_right_eq_some.mp hs
    obtain rfl := Option.some.inj hr
    exact h.touched ho (Poller.touched_fdClr fd dir) fun x hx => by rw [Poller.evt_fdClr, if_neg hx]
  | rem fd =>
    obtain ⟨ho, hr⟩ := Option.ite_none_right_eq_some.mp hs
    obtain rfl := Option.some.inj hr
    exact h.touched ho (Poller.touched_fdRem fd) fun x hx => by rw [Poller.evt_fdRem, if_neg hx]
  | delete fd =>
    obtain ⟨-, hr⟩ := Option.ite_none_right_eq_some.mp hs
    obtain rfl := Option.some.inj hr
    exact h.deleted fd
  | flush =>
    obtain rfl := Option.some.inj hs
    exact h.flushed

end Synced

/-! ## Immediate updates -/

/-- What a step does to the bits of the descriptors. -/
def immediate (m : Fd → BitVec 32) : PollStep → Fd → BitVec 32
  | .set fd dir => Function.update m fd (m fd ||| dir.mask)
  | .clr fd dir => Function.update m fd (m fd &&& ~~~dir.mask)
  | .rem fd | .delete fd => Function.update m fd 0
  | .opened _ | .flush => m

theorem evt_step {s s' : Polled} {e : PollStep} (hs : pollStep s e = some s') : s'.1.evt = immediate s.1.evt e := by
  funext x
  cases e with
  | opened fd =>
    obtain rfl := Option.some.inj (Option.ite_none_left_eq_some.mp hs).2
    rfl
  | flush =>
    obtain rfl := Option.some.inj hs
    rfl
  | set fd dir =>
    obtain rfl := Option.some.inj (Option.ite_none_right_eq_some.mp hs).2
    rw [Poller.evt_fdSet, immediate, Function.update_apply]
    split
    · next hx => rw [hx]
    · rfl
  | clr fd dir =>
    obtain rfl := Option.some.inj (Option.ite_none_right_eq_some.mp hs).2
    rw [Poller.evt_fdClr, immediate, Function.update_apply]
    split
    · next hx => rw [hx]
    · rfl
  | rem fd =>
    obtain rfl := Option.some.inj (Option.ite_none_right_eq_some.mp hs).2
    rw [Poller.evt_fdRem, immediate, Function.update_apply]
  | delete fd =>
    obtain rfl := Option.some.inj (Option.ite_none_right_eq_some.mp hs).2
    rw [Poller.evt_fdClo, immediate, Function.update_apply]

/-- The bits are those of updates made at once. -/
theorem evt_run {s s' : Polled} {es : List PollStep} (hr : exec pollStep s es = some s') :
    s'.1.evt = es.foldl immediate s.1.evt := by
  induction es generalizing s with
  | nil =>
    obtain rfl := Option.some.inj hr
    rfl
  | cons e es ih =>
    rw [exec_cons, Option.bind_eq_some_iff] at hr
    obtain ⟨s₁, hs, hr⟩ := hr
    rw [ih hr, evt_step hs, List.foldl_cons]

/-- Updates put off until a flush leave the kernel with what updates made at once would have. -/
theorem deferred_immediate {isOpen : Fd → Bool} {es : List PollStep} {s : Polled}
    (hr : exec pollStep (polledStart isOpen) es = some s) {fd : Fd} (ho : s.2.isOpen fd = true) :
    (s.1.fdFlushChanges s.2).2.interest fd = interestOf (es.foldl immediate (fun _ => 0) fd) := by
  have hsynced := (AllStates.of_step (I := Synced) (synced_start isOpen) (fun s e s' h hs => h.step hs) es).last hr
  have hstart : (polledStart isOpen).1.evt = fun _ => 0 := by
    funext x
    simp [polledStart, Poller.evt, TwoBit.field]
  rw [hsynced.tracked.flush_synced ho (hsynced.interest fd ho), evt_run hr, hstart]

/-- After every flush of every run the kernel has of each open descriptor exactly its bits, and closed ones have
none; and these are the bits that updates made at once would have left. -/
theorem flush_refines (isOpen : Fd → Bool) (es : List PollStep) : AllSteps pollStep ExactFlush (polledStart isOpen) es ∧
    ∀ s, exec pollStep (polledStart isOpen) es = some s → ∀ fd, s.2.isOpen fd = true →
      (s.1.fdFlushChanges s.2).2.interest fd = interestOf (es.foldl immediate (fun _ => 0) fd) := by
  have hsynced : AllStates pollStep Synced (polledStart isOpen) es :=
    .of_step (synced_start isOpen) (fun s e s' h hs => h.step hs) es
  refine ⟨.of_allStates (fun s e s' h hs _ => ?_) hsynced, fun s hr fd ho => deferred_immediate hr ho⟩
  rintro rfl
  obtain rfl := Option.some.inj hs
  exact h.flushed_exact

end ZeroServ
