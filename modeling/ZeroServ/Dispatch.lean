import ZeroServ.EventLoop

/-!
# One batch of events

`poll_do` over a batch, for any callbacks: the read and write callbacks of a descriptor may change its interest, may
close it with `fd_delete` (then they return another value than `ZB_CLOSE`), and return any flags. `recheck_state`
runs after the read callback and again after the write callback, or where there is none on the flags that the read
callback returned.

`pollDo_safe` says of every batch of distinct descriptors what is called and what it leaves of the interest.
`serve_eq_pollOne`: the turns of the event loop are those of the batch, for the callbacks of its handlers that keep
to their own descriptor.
-/

namespace ZeroServ

/-! ## Interest -/

/-- `EV_FD_SET` or `EV_FD_CLR` on a descriptor. -/
inductive Change where
  | set (dir : Dir)
  | clr (dir : Dir)
  deriving DecidableEq, Repr

namespace Change

def op (fd : Fd) : Change → PollOp
  | .set dir => .set fd dir
  | .clr dir => .clr fd dir

/-- What it makes of the two bits of interest. -/
def on (m : BitVec 32) : Change → BitVec 32
  | .set dir => m ||| dir.mask
  | .clr dir => m &&& ~~~dir.mask

end Change

/-- The changes that flags other than `ZB_CLOSE` ask for. -/
def flagChanges (flag : Flags) : List Change :=
  (if flag &&& Zb.closeRd ≠ 0 then [.clr .rd] else []) ++ (if flag &&& Zb.closeWr ≠ 0 then [.clr .wr] else []) ++
    (if flag &&& Zb.setRd ≠ 0 then [.set .rd] else []) ++ (if flag &&& Zb.setWr ≠ 0 then [.set .wr] else [])

/-- The interest that flags make of an interest. -/
def applyFlags (m : BitVec 32) (flag : Flags) : BitVec 32 := (flagChanges flag).foldl Change.on m

/-! ## Callbacks -/

/-- What a read or write callback does to its own descriptor, and what it returns. -/
structure Outcome where
  changes : List Change
  closes : Bool
  ret : Flags
  ret_ne_close : closes = true → ret ≠ Zb.close
  deriving DecidableEq, Repr

namespace Outcome

variable (out : Outcome)

/-- The calls it makes on the poller, and what it returns. -/
def path (fd : Fd) : Path := (out.changes.map (Change.op fd) ++ (if out.closes then [.delete fd] else []), out.ret)

/-- The descriptor is open after the callback and its `recheck_state`. -/
def leavesOpen : Bool := !out.closes && out.ret ≠ Zb.close

/-- The interest of a descriptor after the callback, with the flags it returned applied once. -/
def mask (m : BitVec 32) : BitVec 32 := applyFlags (out.changes.foldl Change.on m) out.ret

end Outcome

/-- `fdtab[fd].cb`, over what the callbacks keep. -/
structure Callbacks (σ : Type*) where
  /-- `cb[DIR_RD]` and `cb[DIR_WR]` -/
  io : Dir → Fd → σ → Outcome × σ
  /-- `cb[DIR_CLO]` -/
  clo : Fd → σ → σ

/-- A call of a callback: whether `fdtab` had another state than `FD_STCLOSE` when it was called, and what it did. -/
inductive CbCall where
  | io (dir : Dir) (fd : Fd) (live : Bool) (out : Outcome)
  | clo (fd : Fd)
  deriving DecidableEq, Repr

def CbCall.fd : CbCall → Fd
  | .io _ fd _ _ | .clo fd => fd

/-- What a call of one callback did. -/
def CbCall.outcome? (dir : Dir) (fd : Fd) : CbCall → Option Outcome
  | .io d x _ out => if d = dir ∧ x = fd then some out else none
  | .clo _ => none

/-- The call of `cb[DIR_CLO]` that `recheck_state` makes for a callback. -/
def Outcome.cloCall (fd : Fd) (out : Outcome) : List CbCall := if out.ret = Zb.close then [.clo fd] else []

/-- What the calls of a descriptor's read callback did, and then those of its write callback. -/
def outcomes (fd : Fd) (calls : List CbCall) : List Outcome :=
  calls.filterMap (CbCall.outcome? .rd fd) ++ calls.filterMap (CbCall.outcome? .wr fd)

/-! ## `poll_do` -/

def epollErr : BitVec 32 := 8
def epollHup : BitVec 32 := 0x10

/-- `struct epoll_event` -/
structure EpollEvent where
  events : BitVec 32
  fd : Fd
  deriving DecidableEq, Repr

/-- The loop, what the callbacks keep, and the calls that were made of them. -/
structure Dispatch (σ : Type*) where
  loop : Loop
  app : σ
  calls : List CbCall

namespace Dispatch

variable {σ : Type*} (cb : Callbacks σ)

/-- `fdtab[fd].cb[dir].f(fd)` -/
def invoke (dir : Dir) (fd : Fd) (d : Dispatch σ) : Dispatch σ × Flags :=
  let (out, app) := cb.io dir fd d.app
  ({ loop := d.loop.runOps (out.path fd).1, app := app
     calls := d.calls ++ [.io dir fd (d.loop.live fd) out] }, out.ret)

/-- `recheck_state`, with the call of `cb[DIR_CLO]` -/
def recheckState (fd : Fd) (flag : Flags) (d : Dispatch σ) : Dispatch σ where
  loop := d.loop.recheckState fd flag
  app := if flag = Zb.close then cb.clo fd d.app else d.app
  calls := if flag = Zb.close then d.calls ++ [.clo fd] else d.calls

/-- The second half of a turn of `poll_do`: the write callback, and the flags of the read callback again where there
is none. -/
def pollWrite (d : Dispatch σ) (ev : EpollEvent) (zbRet : Flags) : Dispatch σ :=
  if d.loop.live ev.fd then
    let (d, zbRet) := if ev.events &&& (epollOut ||| epollErr ||| epollHup) ≠ 0 then
      d.invoke cb .wr ev.fd else (d, zbRet)
    d.recheckState cb ev.fd zbRet
  else d

/-- A turn of `poll_do`. -/
def pollOne (d : Dispatch σ) (ev : EpollEvent) : Dispatch σ :=
  if d.loop.live ev.fd then
    let (d, zbRet) := if ev.events &&& (epollIn ||| epollErr ||| epollHup) ≠ 0 then
      d.invoke cb .rd ev.fd else (d, Zb.nop)
    (d.recheckState cb ev.fd zbRet).pollWrite cb ev zbRet
  else d

/-- `poll_do`: the changes are flushed, and `epoll_wait` returns the batch. -/
def pollDo (l : Loop) (app : σ) (batch : List EpollEvent) : Dispatch σ :=
  batch.foldl (pollOne cb) { loop := l.flush, app := app, calls := [] }

end Dispatch

/-! ## Flags -/

/-- Flags are changes of interest, made by the calls that `recheck_state` makes. -/
theorem recheckOps_eq_map {flag : Flags} (h : flag ≠ Zb.close) (fd : Fd) :
    Loop.recheckOps fd flag = (flagChanges flag).map (Change.op fd) := by
  unfold Loop.recheckOps flagChanges
  simp only [if_neg h, List.map_append]
  congr 1
  · congr 1
    · congr 1 <;> split <;> rfl
    · split <;> rfl
  · split <;> rfl

/-- The interest has two bits, and so it has after a change. -/
theorem Change.on_and_three {m : BitVec 32} (hm : m &&& 3 = m) (c : Change) : c.on m &&& 3 = c.on m := by
  rcases TwoBit.four_masks hm with rfl | rfl | rfl | rfl <;> rcases c with dir | dir <;> cases dir <;> decide

theorem foldl_on_and_three {m : BitVec 32} (hm : m &&& 3 = m) (cs : List Change) :
    cs.foldl Change.on m &&& 3 = cs.foldl Change.on m := by
  induction cs generalizing m with
  | nil => exact hm
  | cons c cs ih => exact ih (c.on_and_three hm)

/-- Flags applied twice are flags applied once: what they clear and do not set stays cleared. -/
theorem applyFlags_applyFlags {m : BitVec 32} (hm : m &&& 3 = m) (flag : Flags) :
    applyFlags (applyFlags m flag) flag = applyFlags m flag := by
  unfold applyFlags flagChanges
  rcases TwoBit.four_masks hm with rfl | rfl | rfl | rfl <;> split <;> split <;> split <;> split <;> decide

@[simp] theorem applyFlags_nop (m : BitVec 32) : applyFlags m Zb.nop = m := rfl

namespace Loop

variable {l : Loop}

/-- Changes of a descriptor's interest close nothing, and touch no other interest. -/
theorem runOps_changes (l : Loop) (fd : Fd) (cs : List Change) :
    (l.runOps (cs.map (Change.op fd))).live = l.live ∧
      ∀ x, (l.runOps (cs.map (Change.op fd))).poller.evt x =
        if x = fd then cs.foldl Change.on (l.poller.evt x) else l.poller.evt x := by
  induction cs generalizing l with
  | nil => simp [runOps]
  | cons c cs ih =>
    obtain ⟨hlive, hevt⟩ := ih (l.runOp (c.op fd))
    have hop : (l.runOp (c.op fd)).live = l.live := by cases c <;> rfl
    have hone : ∀ x, (l.runOp (c.op fd)).poller.evt x = if x = fd then c.on (l.poller.evt x) else l.poller.evt x := by
      intro x
      cases c with
      | set dir => exact Poller.evt_fdSet fd dir x
      | clr dir => exact Poller.evt_fdClr fd dir x
    refine ⟨hlive.trans hop, fun x => (hevt x).trans ?_⟩
    rw [hone x]
    by_cases hx : x = fd
    · rw [if_pos hx, if_pos hx, if_pos hx, List.foldl_cons]
    · rw [if_neg hx, if_neg hx, if_neg hx]

/-- `recheck_state` on flags other than `ZB_CLOSE` -/
theorem recheckState_changes {flag : Flags} (h : flag ≠ Zb.close) (l : Loop) (fd : Fd) :
    (l.recheckState fd flag).live = l.live ∧
      ∀ x, (l.recheckState fd flag).poller.evt x =
      if x = fd then applyFlags (l.poller.evt x) flag else l.poller.evt x := by
  rw [recheckState_eq, recheckOps_eq_map h]
  exact runOps_changes l fd (flagChanges flag)

/-- `recheck_state` on `ZB_CLOSE` -/
theorem recheckState_close (l : Loop) (fd : Fd) : l.recheckState fd Zb.close = l.fdDelete fd := rfl

theorem evt_fdDelete (l : Loop) (fd x : Fd) : (l.fdDelete fd).poller.evt x = if x = fd then 0 else l.poller.evt x :=
  Poller.evt_fdClo fd x

@[simp] theorem live_fdDelete_self (l : Loop) (fd : Fd) : (l.fdDelete fd).live fd = false := Function.update_self ..

theorem live_fdDelete_of_ne (l : Loop) {fd x : Fd} (h : x ≠ fd) : (l.fdDelete fd).live x = l.live x :=
  Function.update_of_ne h ..

/-- `recheck_state` touches its own descriptor only. -/
theorem recheckState_of_ne (l : Loop) (flag : Flags) {fd x : Fd} (h : x ≠ fd) :
    (l.recheckState fd flag).live x = l.live x ∧ (l.recheckState fd flag).poller.evt x = l.poller.evt x := by
  by_cases hc : flag = Zb.close
  · rw [hc, recheckState_close, evt_fdDelete, if_neg h]
    exact ⟨live_fdDelete_of_ne l h, rfl⟩
  · obtain ⟨hlive, hevt⟩ := recheckState_changes hc l fd
    exact ⟨congrFun hlive x, (hevt x).trans (if_neg h)⟩

/-- So does a callback that keeps to it. -/
theorem runOps_path_of_ne (l : Loop) (out : Outcome) {fd x : Fd} (h : x ≠ fd) :
    (l.runOps (out.path fd).1).live x = l.live x ∧ (l.runOps (out.path fd).1).poller.evt x = l.poller.evt x := by
  obtain ⟨hlive, hevt⟩ := runOps_changes l fd out.changes
  have hx := (hevt x).trans (if_neg h)
  rw [Outcome.path, runOps, List.foldl_append]
  split
  · exact ⟨(live_fdDelete_of_ne _ h).trans (congrFun hlive x), ((evt_fdDelete _ fd x).trans (if_neg h)).trans hx⟩
  · exact ⟨congrFun hlive x, hx⟩

/-- A descriptor that is open after a callback and its `recheck_state`: it was not closed, and has the changes and
the flags. -/
theorem recheckState_path {l : Loop} {out : Outcome} {fd : Fd}
    (h : ((l.runOps (out.path fd).1).recheckState fd out.ret).live fd = true) :
    out.ret ≠ Zb.close ∧ ((l.runOps (out.path fd).1).recheckState fd out.ret).poller.evt fd =
      out.mask (l.poller.evt fd) := by
  have hret : out.ret ≠ Zb.close := by
    intro hc
    rw [hc, recheckState_close, live_fdDelete_self] at h
    cases h
  obtain ⟨hlive, hevt⟩ := recheckState_changes hret (l.runOps (out.path fd).1) fd
  rw [hlive] at h
  rw [hevt fd, if_pos rfl]
  refine ⟨hret, ?_⟩
  have hpath : (out.path fd).1 = out.changes.map (Change.op fd) ++ if out.closes then [.delete fd] else [] := rfl
  rw [hpath] at h ⊢
  by_cases hc : out.closes = true
  · rw [if_pos hc, runOps, List.foldl_append] at h
    exact absurd h (by simp [runOp])
  · rw [if_neg hc, List.append_nil, (runOps_changes l fd out.changes).2 fd, if_pos rfl, Outcome.mask]

theorem live_recheckState_path (l : Loop) (out : Outcome) (fd : Fd) :
    ((l.runOps (out.path fd).1).recheckState fd out.ret).live fd = (l.live fd && out.leavesOpen) := by
  have hpath : (out.path fd).1 = out.changes.map (Change.op fd) ++ if out.closes then [.delete fd] else [] := rfl
  by_cases hret : out.ret = Zb.close
  · rw [hret, recheckState_close, live_fdDelete_self]
    simp [Outcome.leavesOpen, hret]
  · rw [(recheckState_changes hret _ fd).1, hpath, runOps, List.foldl_append]
    cases hc : out.closes with
    | true => simp [Outcome.leavesOpen, hc, runOp]
    | false =>
      have hlive : (List.foldl runOp l (out.changes.map (Change.op fd))).live fd = l.live fd :=
        congrFun (runOps_changes l fd out.changes).1 fd
      simpa [Outcome.leavesOpen, hc, hret] using hlive

end Loop

/-! ## What a turn leaves -/

/-- Calls that are none of a descriptor's, and that leave it as it is. -/
structure Untouched (fd : Fd) (l l' : Loop) (calls : List CbCall) : Prop where
  calls : ∀ c ∈ calls, c.fd ≠ fd
  live : l'.live fd = l.live fd
  evt : l'.poller.evt fd = l.poller.evt fd

/-- What the calls of a descriptor's callbacks come to: each of the two at most once, `cb[DIR_CLO]` once where one of
them returned `ZB_CLOSE`, and while the descriptor is open its interest has every change once. -/
structure Handled (fd : Fd) (l l' : Loop) (calls : List CbCall) : Prop where
  single : ∀ dir, (calls.filterMap (CbCall.outcome? dir fd)).length ≤ 1
  once : calls.count (.clo fd) = if Zb.close ∈ (outcomes fd calls).map Outcome.ret then 1 else 0
  mask : l'.live fd = true → l'.poller.evt fd = (outcomes fd calls).foldl (fun m out => out.mask m) (l.poller.evt fd)

/-- The callbacks that an event of a descriptor calls, by its bits: where it is open, the read callback on `EPOLLIN`,
`EPOLLERR` and `EPOLLHUP`, and the write callback on `EPOLLOUT`, `EPOLLERR` and `EPOLLHUP`, unless the read callback
closed it. -/
structure Called (l : Loop) (ev : EpollEvent) (calls : List CbCall) : Prop where
  read : calls.filterMap (CbCall.outcome? .rd ev.fd) ≠ [] ↔
    l.live ev.fd = true ∧ ev.events &&& (epollIn ||| epollErr ||| epollHup) ≠ 0
  write : calls.filterMap (CbCall.outcome? .wr ev.fd) ≠ [] ↔
    l.live ev.fd = true ∧ ev.events &&& (epollOut ||| epollErr ||| epollHup) ≠ 0 ∧
    ∀ out ∈ calls.filterMap (CbCall.outcome? .rd ev.fd), out.leavesOpen = true

/-- A read or write callback is called on an open descriptor. -/
def CbCall.OnOpen : CbCall → Prop
  | .io _ _ live _ => live = true
  | .clo _ => True

section calls

variable {fd : Fd} {dir : Dir} {calls : List CbCall} {l l₁ l₂ : Loop}

theorem outcome?_eq_none {c : CbCall} (h : c.fd ≠ fd) : c.outcome? dir fd = none := by
  cases c with
  | io d x live out => exact if_neg fun hc => h hc.2
  | clo x => rfl

@[simp] theorem filterMap_cloCall (out : Outcome) (x : Fd) :
    (out.cloCall x).filterMap (CbCall.outcome? dir fd) = [] := by
  unfold Outcome.cloCall
  split <;> rfl

@[simp] theorem count_cloCall (out : Outcome) :
    (out.cloCall fd).count (.clo fd) = if Zb.close = out.ret then 1 else 0 := by
  unfold Outcome.cloCall
  by_cases h : out.ret = Zb.close
  · simp [h]
  · simp [h, Ne.symm h]

theorem cloCall_of_ne {out : Outcome} (h : out.ret ≠ Zb.close) : out.cloCall fd = [] := if_neg h

theorem mem_cloCall {out : Outcome} {c : CbCall} (h : c ∈ out.cloCall fd) : c = .clo fd := by
  unfold Outcome.cloCall at h
  split at h
  · exact List.mem_singleton.mp h
  · simp at h

theorem filterMap_outcome_eq_nil (h : ∀ c ∈ calls, c.fd ≠ fd) : calls.filterMap (CbCall.outcome? dir fd) = [] := by
  rw [List.filterMap_eq_nil_iff]
  exact fun c hc => outcome?_eq_none (h c hc)

theorem count_clo_eq_zero (h : ∀ c ∈ calls, c.fd ≠ fd) : calls.count (.clo fd) = 0 :=
  List.count_eq_zero.mpr fun hc => h _ hc rfl

theorem Untouched.refl (fd : Fd) (l : Loop) : Untouched fd l l [] := ⟨by simp, rfl, rfl⟩

theorem Untouched.handled (h : Untouched fd l l₁ calls) : Handled fd l l₁ calls where
  single dir := by simp [filterMap_outcome_eq_nil h.calls]
  once := by simp [outcomes, filterMap_outcome_eq_nil h.calls, count_clo_eq_zero h.calls]
  mask _ := by simpa [outcomes, filterMap_outcome_eq_nil h.calls] using h.evt

variable {new : List CbCall}

theorem Untouched.trans (h : Untouched fd l l₁ calls) (h' : Untouched fd l₁ l₂ new) :
    Untouched fd l l₂ (calls ++ new) where
  calls c hc := (List.mem_append.mp hc).elim (h.calls c) (h'.calls c)
  live := h'.live.trans h.live
  evt := h'.evt.trans h.evt

section among

variable {before after : List CbCall} {l₃ : Loop}

theorem filterMap_outcome_among (hb : ∀ c ∈ before, c.fd ≠ fd) (ha : ∀ c ∈ after, c.fd ≠ fd) :
    (before ++ calls ++ after).filterMap (CbCall.outcome? dir fd) = calls.filterMap (CbCall.outcome? dir fd) := by
  rw [List.filterMap_append, List.filterMap_append, filterMap_outcome_eq_nil hb, filterMap_outcome_eq_nil ha,
    List.nil_append, List.append_nil]

/-- The calls of a descriptor among those of others. -/
theorem Handled.among (h : Handled fd l₁ l₂ calls) (hb : Untouched fd l l₁ before) (ha : Untouched fd l₂ l₃ after) :
    Handled fd l l₃ (before ++ calls ++ after) := by
  have hsame : ∀ dir, (before ++ calls ++ after).filterMap (CbCall.outcome? dir fd) =
      calls.filterMap (CbCall.outcome? dir fd) := fun _ => filterMap_outcome_among hb.calls ha.calls
  have hout : outcomes fd (before ++ calls ++ after) = outcomes fd calls := by
    rw [outcomes, hsame, hsame, outcomes]
  refine ⟨fun dir => (hsame dir).symm ▸ h.single dir, ?_, fun hlive => ?_⟩
  · rw [hout, List.count_append, List.count_append, count_clo_eq_zero hb.calls, count_clo_eq_zero ha.calls,
      Nat.zero_add, Nat.add_zero, h.once]
  · rw [hout, ha.evt, h.mask (ha.live ▸ hlive), hb.evt]

end among

theorem Handled.trans_untouched (h : Handled fd l l₁ calls) (h' : Untouched fd l₁ l₂ new) :
    Handled fd l l₂ (calls ++ new) := h.among (.refl fd l) h'

theorem Untouched.trans_handled (h : Untouched fd l l₁ calls) (h' : Handled fd l₁ l₂ new) :
    Handled fd l l₂ (calls ++ new) := by
  have hamong := h'.among h (.refl fd l₂)
  rwa [List.append_nil] at hamong

section called

variable {ev : EpollEvent} {live live' : Bool} {out out' : Outcome}

theorem called_none (h : l.live ev.fd = true → ev.events &&& (epollIn ||| epollErr ||| epollHup) = 0 ∧
    ev.events &&& (epollOut ||| epollErr ||| epollHup) = 0) : Called l ev [] :=
  ⟨iff_of_false (· rfl) fun ⟨hlive, hin⟩ => hin (h hlive).1, iff_of_false (· rfl) fun ⟨hlive, hw, _⟩ => hw (h hlive).2⟩

theorem called_read (hlive : l.live ev.fd = true) (hin : ev.events &&& (epollIn ||| epollErr ||| epollHup) ≠ 0)
    (hw : ev.events &&& (epollOut ||| epollErr ||| epollHup) ≠ 0 → out.leavesOpen = false) :
    Called l ev (.io .rd ev.fd live out :: out.cloCall ev.fd) := by
  refine ⟨iff_of_true (by simp [CbCall.outcome?]) ⟨hlive, hin⟩,
    iff_of_false (by simp [CbCall.outcome?]) fun ⟨_, hw', hopen⟩ => ?_⟩
  have hout := hopen out (by simp [CbCall.outcome?])
  rw [hw hw'] at hout
  cases hout

theorem called_write (hlive : l.live ev.fd = true) (hin : ¬ev.events &&& (epollIn ||| epollErr ||| epollHup) ≠ 0)
    (hw : ev.events &&& (epollOut ||| epollErr ||| epollHup) ≠ 0) :
    Called l ev (.io .wr ev.fd live out :: out.cloCall ev.fd) :=
  ⟨iff_of_false (by simp [CbCall.outcome?]) fun h => hin h.2,
    iff_of_true (by simp [CbCall.outcome?]) ⟨hlive, hw, by simp [CbCall.outcome?]⟩⟩

theorem called_both (hlive : l.live ev.fd = true) (hin : ev.events &&& (epollIn ||| epollErr ||| epollHup) ≠ 0)
    (hw : ev.events &&& (epollOut ||| epollErr ||| epollHup) ≠ 0) (hopen : out.leavesOpen = true) :
    Called l ev (.io .rd ev.fd live out :: .io .wr ev.fd live' out' :: out'.cloCall ev.fd) :=
  ⟨iff_of_true (by simp [CbCall.outcome?]) ⟨hlive, hin⟩,
    iff_of_true (by simp [CbCall.outcome?]) ⟨hlive, hw, by simpa [CbCall.outcome?] using hopen⟩⟩

end called

/-- The calls of other descriptors do not count. -/
theorem Called.of_untouched {ev : EpollEvent} {before after : List CbCall} (h : Untouched ev.fd l l₁ before)
    (hc : Called l₁ ev calls) (hafter : ∀ c ∈ after, c.fd ≠ ev.fd) : Called l ev (before ++ calls ++ after) := by
  have hsame : ∀ dir, (before ++ calls ++ after).filterMap (CbCall.outcome? dir ev.fd) =
      calls.filterMap (CbCall.outcome? dir ev.fd) := fun _ => filterMap_outcome_among h.calls hafter
  exact ⟨by rw [hsame, ← h.live]; exact hc.read, by rw [hsame, hsame, ← h.live]; exact hc.write⟩

end calls

namespace Dispatch

variable {σ : Type*} {cb : Callbacks σ}

/-- A callback and the `recheck_state` on what it returned. -/
structure Phase (dir : Dir) (fd : Fd) (out : Outcome) (d d' : Dispatch σ) : Prop where
  calls : d'.calls = d.calls ++ .io dir fd (d.loop.live fd) out :: out.cloCall fd
  mask : d'.loop.live fd = true → out.ret ≠ Zb.close ∧ d'.loop.poller.evt fd = out.mask (d.loop.poller.evt fd)
  live : d'.loop.live fd = (d.loop.live fd && out.leavesOpen)
  others : ∀ x, x ≠ fd → d'.loop.live x = d.loop.live x ∧ d'.loop.poller.evt x = d.loop.poller.evt x

theorem phase (cb : Callbacks σ) (dir : Dir) (fd : Fd) (d : Dispatch σ) :
    ∃ out, (d.invoke cb dir fd).2 = out.ret ∧
      Phase dir fd out d ((d.invoke cb dir fd).1.recheckState cb fd out.ret) := by
  refine ⟨(cb.io dir fd d.app).1, rfl, ?_, Loop.recheckState_path, Loop.live_recheckState_path _ _ _, fun x hx => ?_⟩
  · simp only [recheckState, invoke, Outcome.cloCall]
    split <;> simp
  · obtain ⟨hlive, hevt⟩ := Loop.runOps_path_of_ne d.loop (cb.io dir fd d.app).1 hx
    obtain ⟨hlive', hevt'⟩ :=
      Loop.recheckState_of_ne (d.loop.runOps ((cb.io dir fd d.app).1.path fd).1) (cb.io dir fd d.app).1.ret hx
    exact ⟨hlive'.trans hlive, hevt'.trans hevt⟩

section phases

variable {dir : Dir} {fd x : Fd} {out out' : Outcome} {d d₁ d₂ : Dispatch σ}

/-- The calls a phase adds are its descriptor's, and leave the others untouched. -/
theorem Phase.untouched (h : Phase dir fd out d d₁) (hx : x ≠ fd) :
    Untouched x d.loop d₁.loop (.io dir fd (d.loop.live fd) out :: out.cloCall fd) := by
  refine ⟨fun c hc => ?_, (h.others x hx).1, (h.others x hx).2⟩
  rcases List.mem_cons.mp hc with rfl | hc
  · exact hx.symm
  · rw [mem_cloCall hc]
    exact hx.symm

theorem Phase.onOpen (hopen : d.loop.live fd = true) :
    ∀ c ∈ CbCall.io dir fd (d.loop.live fd) out :: out.cloCall fd, c.OnOpen ∧ c.fd = fd := by
  intro c hc
  rcases List.mem_cons.mp hc with rfl | hc
  · exact ⟨hopen, rfl⟩
  · rw [mem_cloCall hc]
    exact ⟨trivial, rfl⟩

/-- A callback, and no other of its descriptor. -/
theorem Phase.handled (h : Phase dir fd out d d₁) :
    Handled fd d.loop d₁.loop (.io dir fd (d.loop.live fd) out :: out.cloCall fd) := by
  have hout : outcomes fd (.io dir fd (d.loop.live fd) out :: out.cloCall fd) = [out] := by
    cases dir <;> simp [outcomes, CbCall.outcome?]
  refine ⟨fun dir' => ?_, ?_, fun hopen => ?_⟩
  · cases dir <;> cases dir' <;> simp [CbCall.outcome?]
  · simp [hout]
  · rw [hout]
    exact (h.mask hopen).2

/-- A read callback that leaves the descriptor open, and then its write callback. -/
theorem Phase.handled_trans (h : Phase .rd fd out d d₁) (hopen : d₁.loop.live fd = true)
    (h' : Phase .wr fd out' d₁ d₂) :
    Handled fd d.loop d₂.loop (.io .rd fd (d.loop.live fd) out :: .io .wr fd
      (d₁.loop.live fd) out' :: out'.cloCall fd) := by
  obtain ⟨hret, hmask⟩ := h.mask hopen
  have hout : outcomes fd (.io .rd fd (d.loop.live fd) out :: .io .wr fd (d₁.loop.live fd) out' :: out'.cloCall fd) =
      [out, out'] := by
    simp [outcomes, CbCall.outcome?]
  refine ⟨fun dir => ?_, ?_, fun hopen' => ?_⟩
  · cases dir <;> simp [CbCall.outcome?]
  · simp [hout, hret.symm]
  · rw [hout, (h'.mask hopen').2, hmask]
    rfl

/-- The second half of a turn, on flags whose changes the descriptor has already: without a write event nothing is
called or changed. -/
theorem pollWrite_spec (cb : Callbacks σ) (ev : EpollEvent) {ret : Flags} (hopen : d.loop.live ev.fd = true)
    (hret : ret ≠ Zb.close) (hmask : applyFlags (d.loop.poller.evt ev.fd) ret = d.loop.poller.evt ev.fd) :
    (¬ev.events &&& (epollOut ||| epollErr ||| epollHup) ≠ 0 ∧ (d.pollWrite cb ev ret).calls = d.calls ∧
        ∀ x, Untouched x d.loop (d.pollWrite cb ev ret).loop []) ∨
      ev.events &&& (epollOut ||| epollErr ||| epollHup) ≠ 0 ∧
      ∃ out, Phase .wr ev.fd out d (d.pollWrite cb ev ret) := by
  rw [pollWrite, if_pos hopen]
  by_cases hw : ev.events &&& (epollOut ||| epollErr ||| epollHup) ≠ 0
  · obtain ⟨out, hout, hphase⟩ := phase cb .wr ev.fd d
    simp only [if_pos hw, hout]
    exact .inr ⟨hw, out, hphase⟩
  · obtain ⟨hlive, hevt⟩ := Loop.recheckState_changes hret d.loop ev.fd
    simp only [if_neg hw]
    refine .inl ⟨hw, if_neg hret, fun x => ⟨by simp, congrFun hlive x, (hevt x).trans ?_⟩⟩
    split
    · next hx => rw [hx, hmask]
    · rfl

/-- A turn: the calls it makes, all on open descriptors and its own descriptor's. -/
theorem pollOne_spec (cb : Callbacks σ) (d : Dispatch σ) (ev : EpollEvent) :
    ∃ new, (d.pollOne cb ev).calls = d.calls ++ new ∧ (∀ c ∈ new, c.OnOpen ∧ c.fd = ev.fd) ∧ Called d.loop ev new ∧
      Handled ev.fd d.loop (d.pollOne cb ev).loop new ∧ ∀ x, x ≠ ev.fd →
      Untouched x d.loop (d.pollOne cb ev).loop new := by
  unfold pollOne
  by_cases hlive : d.loop.live ev.fd = true
  · rw [if_pos hlive]
    by_cases hin : ev.events &&& (epollIn ||| epollErr ||| epollHup) ≠ 0
    · obtain ⟨out, hret, hread⟩ := phase cb .rd ev.fd d
      simp only [if_pos hin, hret]
      generalize (d.invoke cb .rd ev.fd).1.recheckState cb ev.fd out.ret = d₁ at hread ⊢
      have hleft : d₁.loop.live ev.fd = out.leavesOpen := by rw [hread.live, hlive, Bool.true_and]
      by_cases hopen : d₁.loop.live ev.fd = true
      · obtain ⟨hne, hmask⟩ := hread.mask hopen
        have htwice : applyFlags (d₁.loop.poller.evt ev.fd) out.ret = d₁.loop.poller.evt ev.fd := by
          rw [hmask]
          exact applyFlags_applyFlags (foldl_on_and_three (Poller.evt_and_three ev.fd) _) _
        have hcalls := hread.calls
        have hon : ∀ c ∈ CbCall.io .rd ev.fd (d.loop.live ev.fd) out :: out.cloCall ev.fd, c.OnOpen ∧ c.fd = ev.fd :=
          Phase.onOpen hlive
        have hothers := fun (x : Fd) (hx : x ≠ ev.fd) => hread.untouched hx
        rcases pollWrite_spec cb ev hopen hne htwice with ⟨hw, hsame, hrest⟩ | ⟨hw, out', hwrite⟩
        · refine ⟨_, hsame.trans hcalls, hon, called_read hlive hin fun h => absurd h hw, ?_, fun x hx => ?_⟩
          · simpa using hread.handled.trans_untouched (hrest ev.fd)
          · simpa using (hothers x hx).trans (hrest x)
        · rw [cloCall_of_ne hne] at hcalls hon hothers
          refine ⟨_, ?_, ?_, called_both hlive hin hw (hleft ▸ hopen), hread.handled_trans hopen hwrite,
            fun x hx => (hothers x hx).trans (hwrite.untouched hx)⟩
          · rw [hwrite.calls, hcalls, List.append_assoc]
            rfl
          · rw [← List.singleton_append, List.forall_mem_append]
            exact ⟨hon, Phase.onOpen hopen⟩
      · have hskip : d₁.pollWrite cb ev out.ret = d₁ := if_neg hopen
        rw [hskip]
        have hclosed : out.leavesOpen = false := hleft ▸ Bool.eq_false_iff.mpr hopen
        exact ⟨_, hread.calls, Phase.onOpen hlive, called_read hlive hin fun _ => hclosed, hread.handled,
          fun x hx => hread.untouched hx⟩
    · have hidle : d.recheckState cb ev.fd Zb.nop = d := rfl
      simp only [if_neg hin, hidle]
      rcases pollWrite_spec cb ev hlive (by decide) (applyFlags_nop _) with ⟨hw, hsame, hrest⟩ | ⟨hw, out, hwrite⟩
      · exact ⟨[], hsame.trans (List.append_nil _).symm,
          by simp, called_none fun _ => ⟨not_not.mp hin, not_not.mp hw⟩, (hrest ev.fd).handled, fun x _ => hrest x⟩
      · exact ⟨_, hwrite.calls, Phase.onOpen hlive, called_write hlive hin hw, hwrite.handled,
          fun x hx => hwrite.untouched hx⟩
  · rw [if_neg hlive]
    exact ⟨[], (List.append_nil _).symm, by simp, called_none fun h => absurd h hlive,
      (Untouched.refl ev.fd d.loop).handled, fun x _ => .refl x d.loop⟩

end phases

/-- The turns of a batch: a descriptor's calls are those of its turn. -/
theorem foldl_pollOne_spec (cb : Callbacks σ) {batch : List EpollEvent} (h : (batch.map EpollEvent.fd).Nodup)
    (d : Dispatch σ) :
    ∃ new, (batch.foldl (pollOne cb) d).calls = d.calls ++ new ∧
      (∀ c ∈ new, c.OnOpen ∧ c.fd ∈ batch.map EpollEvent.fd) ∧
      (∀ ev ∈ batch, Called d.loop ev new) ∧ (∀ fd, Handled fd d.loop (batch.foldl (pollOne cb) d).loop new) ∧
        ∀ x ∉ batch.map EpollEvent.fd, Untouched x d.loop (batch.foldl (pollOne cb) d).loop new := by
  induction batch generalizing d with
  | nil => exact ⟨[], (List.append_nil _).symm,
    by simp, by simp, fun fd => (Untouched.refl fd d.loop).handled, fun x _ => .refl x d.loop⟩
  | cons ev batch ih =>
    rw [List.map_cons, List.nodup_cons] at h
    obtain ⟨new, hcalls, hon, hcalled, hturn, hothers⟩ := pollOne_spec cb d ev
    obtain ⟨rest, hcalls', hon', hcalled', hhandled, huntouched⟩ := ih h.2 (d.pollOne cb ev)
    rw [List.foldl_cons]
    refine ⟨new ++ rest, ?_, List.forall_mem_append.mpr ⟨fun c hc => ?_, fun c hc => ?_⟩,
      List.forall_mem_cons.mpr ⟨?_, fun ev' hev' => ?_⟩, fun fd => ?_, fun x hx => ?_⟩
    · rw [hcalls', hcalls, List.append_assoc]
    · rw [List.map_cons, (hon c hc).2]
      exact ⟨(hon c hc).1, List.mem_cons_self⟩
    · rw [List.map_cons]
      exact ⟨(hon' c hc).1, List.mem_cons_of_mem _ (hon' c hc).2⟩
    · exact hcalled.of_untouched (.refl ev.fd d.loop) (huntouched _ h.1).calls
    · have hne : ev'.fd ≠ ev.fd := fun heq => h.1 (heq ▸ List.mem_map_of_mem hev')
      have hlater := (hcalled' ev' hev').of_untouched (hothers ev'.fd hne)
        (List.forall_mem_nil fun c : CbCall => c.fd ≠ ev'.fd)
      rwa [List.append_nil] at hlater
    · by_cases hfd : fd = ev.fd
      · subst hfd
        exact hturn.trans_untouched (huntouched _ h.1)
      · exact (hothers fd hfd).trans_handled (hhandled fd)
    · rw [List.map_cons, List.mem_cons, not_or] at hx
      exact (hothers x hx.1).trans (huntouched x hx.2)

/-- For all callbacks, and every batch of distinct descriptors: read and write callbacks are called on open
descriptors only, and are those that the bits of its event say; of each descriptor at most once, `cb[DIR_CLO]`
exactly once where one of the two returned `ZB_CLOSE` and never else; and a descriptor that is left open has the
interest that they make of the one it had, the read callback first, with the flags of each applied once. -/
theorem pollDo_safe (cb : Callbacks σ) (l : Loop) (app : σ) (batch : List EpollEvent)
    (h : (batch.map EpollEvent.fd).Nodup) :
    (∀ c ∈ (pollDo cb l app batch).calls, c.OnOpen ∧ c.fd ∈ batch.map EpollEvent.fd) ∧
      (∀ ev ∈ batch, Called l ev (pollDo cb l app batch).calls) ∧
        ∀ fd, Handled fd l (pollDo cb l app batch).loop (pollDo cb l app batch).calls := by
  obtain ⟨new, hcalls, hon, hcalled, hhandled, -⟩ :=
    foldl_pollOne_spec cb h { loop := l.flush, app := app, calls := [] }
  have hnew : (pollDo cb l app batch).calls = new := hcalls
  rw [hnew]
  exact ⟨hon, fun ev hev => ⟨(hcalled ev hev).read, (hcalled ev hev).write⟩,
    fun fd => ⟨(hhandled fd).single, (hhandled fd).once, (hhandled fd).mask⟩⟩

/-- Callbacks of three descriptors: 3 and 5 are read, of which 5 closes itself, and 4 returns `ZB_CLOSE` from its
write callback. -/
def threeCallbacks : Callbacks Nat where
  io dir fd n :=
    (if dir = .wr ∧ fd = 4 then ⟨[], false, Zb.close, by decide⟩
      else if fd = 5 then ⟨[], true, Zb.fail, by decide⟩
      else ⟨[], false, Zb.setWr, by decide⟩, n + 1)
  clo _ n := n + 1

/-- The three descriptors, of which 4 has both events and 5 an error. -/
def threeEvents : Dispatch Nat :=
  pollDo threeCallbacks (.start [(3, .udp), (4, .udp), (5, .udp)]) 0 [⟨1, 3⟩, ⟨5, 4⟩, ⟨25, 5⟩]

theorem pollDo_safe_three : (∀ c ∈ threeEvents.calls, c.OnOpen) ∧
    (∀ fd, Handled fd (.start [(3, .udp), (4, .udp), (5, .udp)]) threeEvents.loop threeEvents.calls) ∧
      threeEvents.calls = [.io .rd 3 true ⟨[], false, Zb.setWr, by decide⟩,
        .io .rd 4 true ⟨[], false, Zb.setWr, by decide⟩,
        .io .wr 4 true ⟨[], false, Zb.close, by decide⟩, .clo 4, .io .rd 5 true ⟨[], true, Zb.fail, by decide⟩] := by
  obtain ⟨hon, -, hhandled⟩ :=
    pollDo_safe threeCallbacks (.start [(3, .udp), (4, .udp), (5, .udp)]) 0 [⟨1, 3⟩, ⟨5, 4⟩, ⟨25, 5⟩] (by decide)
  exact ⟨fun c hc => (hon c hc).1, hhandled, by decide +kernel⟩

end Dispatch

/-! ## The turns of the event loop -/

/-- What a member of the batch says to the loop. -/
def EpollEvent.ready (ev : EpollEvent) : Ready where
  fd := ev.fd
  input := ev.events &&& epollIn ≠ 0
  output := ev.events &&& epollOut ≠ 0
  error := ev.events &&& (epollErr ||| epollHup) ≠ 0

/-- The connections and sockets whose callbacks keep to their own descriptor; a publish enables writing on those it
answers. -/
def Role.own : Role → Bool
  | .conn .echo | .conn .http | .conn .memcached | .udp => true
  | .conn .pubsub | .conn .httpPubsub | .listener _ => false

/-- Callbacks that do this, of whichever descriptor. -/
def Outcome.callbacks (read write : Outcome) : Callbacks Unit where
  io dir _ _ := (match dir with | .rd => read | .wr => write, ())
  clo _ _ := ()

namespace Loop

open Dispatch

variable {fd : Fd}

theorem mcTurn_path (fd : Fd) (t : McTurn) : ∃ cs : List Change, mcTurn fd t = cs.map (Change.op fd) := by
  cases t with
  | reply => exact ⟨[.clr .rd, .set .wr], rfl⟩
  | await => exact ⟨[.set .rd], rfl⟩
  | complete => exact ⟨[.clr .rd, .set .wr, .clr .rd], rfl⟩

theorem mcTurns_path (fd : Fd) (ts : List McTurn) : ∃ cs :
    List Change, ts.flatMap (mcTurn fd) = cs.map (Change.op fd) := by
  induction ts with
  | nil => exact ⟨[], rfl⟩
  | cons t ts ih =>
    obtain ⟨cs, hcs⟩ := mcTurn_path fd t
    obtain ⟨cs', hcs'⟩ := ih
    exact ⟨cs ++ cs', by rw [List.flatMap_cons, hcs, hcs', List.map_append]⟩

theorem path_stays (cs : List Change) (ret : Flags) : ∃ out : Outcome, (cs.map (Change.op fd), ret) = out.path fd :=
  ⟨⟨cs, false, ret, by simp⟩, by simp [Outcome.path]⟩

theorem path_closes (cs : List Change) {ret : Flags} (h : ret ≠ Zb.close) :
    ∃ out : Outcome, (cs.map (Change.op fd) ++ [.delete fd], ret) = out.path fd :=
  ⟨⟨cs, true, ret, fun _ => h⟩, by simp [Outcome.path]⟩

theorem readPath_eq {role : Role} {r : Received} {p : Path} (ho : role.own = true) (h : readPath fd role r = some p) :
    ∃ out : Outcome, p = out.path fd := by
  cases role with
  | listener hd => cases ho
  | udp =>
    cases r <;> simp only [readPath, udpRead, Option.some.injEq, reduceCtorEq] at h <;> subst h
    · exact path_closes [] (by decide)
    · exact path_stays [] 0
  | conn hd =>
    cases hd with
    | echo =>
      cases r <;> simp only [readPath, echoRead, Option.some.injEq, reduceCtorEq] at h <;> subst h
      · exact path_stays [] Zb.close
      · exact path_stays [] Zb.setWr
    | http =>
      cases r <;> simp only [readPath, httpRead, Option.some.injEq, reduceCtorEq] at h <;> subst h
      · exact path_stays [.clr .rd] 0
      · exact path_stays [] 0
      · exact path_stays [.set .wr, .clr .rd] 0
    | memcached =>
      cases r <;> simp only [readPath, mcRead, Option.some.injEq, reduceCtorEq] at h
      next ts closing =>
        subst h
        obtain ⟨cs, hcs⟩ := mcTurns_path fd ts
        rw [hcs]
        cases closing with
        | true => exact path_closes cs (by decide)
        | false =>
          rw [if_neg (by simp), List.append_nil]
          exact path_stays cs 0
    | pubsub => cases ho
    | httpPubsub => cases ho

theorem writePath_eq {role : Role} {s : Sent} {p : Path} (ho : role.own = true) (h : writePath fd role s = some p) :
    ∃ out : Outcome, p = out.path fd := by
  cases role with
  | listener hd => cases ho
  | udp =>
    obtain rfl := Option.some.inj h
    exact path_stays [] 0
  | conn hd =>
    cases hd with
    | echo =>
      obtain rfl := Option.some.inj h
      cases s
      · exact path_stays [] Zb.closeWr
      · exact path_stays [] Zb.nop
      · exact path_stays [] Zb.close
    | http =>
      obtain rfl := Option.some.inj h
      cases s
      · exact path_closes [] (by decide)
      · exact path_stays [] 0
      · exact path_closes [] (by decide)
    | memcached =>
      obtain rfl := Option.some.inj h
      cases s
      · exact path_stays [.clr .wr, .set .rd] 0
      · exact path_stays [] 0
      · exact path_closes [] (by decide)
    | pubsub => cases ho
    | httpPubsub => cases ho

@[simp] theorem role_runOps (l : Loop) (ops : List PollOp) : (l.runOps ops).role = l.role := by
  induction ops generalizing l with
  | nil => rfl
  | cons op ops ih => exact (ih (l.runOp op)).trans (by cases op <;> rfl)

theorem role_recheckState (l : Loop) (fd : Fd) (flag : Flags) : (l.recheckState fd flag).role = l.role := by
  rw [recheckState_eq, role_runOps]

/-- A mask that is put together of two is met where one of them is. -/
theorem and_or_ne_zero (x a b : BitVec 32) : x &&& (a ||| b) ≠ 0 ↔ x &&& a ≠ 0 ∨ x &&& b ≠ 0 := by
  rw [BitVec.and_or_distrib_left, ← not_and_or]
  exact not_congr BitVec.or_eq_zero_iff

theorem reads_iff (ev : EpollEvent) :
    (ev.ready.input || ev.ready.error) = true ↔ ev.events &&& (epollIn ||| epollErr ||| epollHup) ≠ 0 := by
  rw [BitVec.or_assoc, and_or_ne_zero]
  simp [EpollEvent.ready]

theorem writes_iff (ev : EpollEvent) :
    (ev.ready.output || ev.ready.error) = true ↔ ev.events &&& (epollOut ||| epollErr ||| epollHup) ≠ 0 := by
  rw [BitVec.or_assoc, and_or_ne_zero]
  simp [EpollEvent.ready]

theorem serveWrite_eq {l l' : Loop} {ev : EpollEvent} {s : Sent} {ret : Flags} (ho : (l.role ev.fd).own = true)
    (hs : l.serveWrite ev.ready s ret = some l') :
    ∃ out' : Outcome, ∀ (out : Outcome) calls, (pollWrite (out.callbacks out') ⟨l, (), calls⟩ ev ret).loop = l' := by
  unfold serveWrite at hs
  unfold pollWrite
  by_cases hlive : l.live ev.fd = true
  · have hready : l.live ev.ready.fd = true := hlive
    rw [if_pos hready] at hs
    simp only [if_pos hlive]
    by_cases hw : ev.events &&& (epollOut ||| epollErr ||| epollHup) ≠ 0
    · rw [if_pos ((writes_iff ev).mpr hw)] at hs
      obtain ⟨p, hp, rfl⟩ := Option.map_eq_some_iff.mp hs
      obtain ⟨q, hq, rfl⟩ := Option.map_eq_some_iff.mp hp
      obtain ⟨out', rfl⟩ := writePath_eq ho hq
      exact ⟨out', fun out calls => by simp only [if_pos hw]; rfl⟩
    · rw [if_neg ((writes_iff ev).not.mpr hw)] at hs
      obtain rfl := Option.some.inj hs
      exact ⟨⟨[], false, 0, by simp⟩, fun out calls => by simp only [if_neg hw]; rfl⟩
  · have hready : ¬l.live ev.ready.fd = true := hlive
    rw [if_neg hready] at hs
    obtain rfl := Option.some.inj hs
    exact ⟨⟨[], false, 0, by simp⟩, fun out calls => by simp only [if_neg hlive]⟩

/-- A turn of the loop is a turn of the batch, for callbacks that do what those of the handler did. -/
theorem serve_eq_pollOne {l l' : Loop} {ev : EpollEvent} {r : Received} {s : Sent} (ho : (l.role ev.fd).own = true)
    (hs : l.serve ev.ready r s = some l') :
    ∃ out out' : Outcome, ∀ calls, (pollOne (out.callbacks out') ⟨l, (), calls⟩ ev).loop = l' := by
  unfold serve at hs
  unfold pollOne
  by_cases hlive : l.live ev.fd = true
  · have hready : l.live ev.ready.fd = true := hlive
    rw [if_pos hready] at hs
    simp only [if_pos hlive]
    by_cases hin : ev.events &&& (epollIn ||| epollErr ||| epollHup) ≠ 0
    · rw [if_pos ((reads_iff ev).mpr hin)] at hs
      obtain ⟨p, hp, hs⟩ := Option.bind_eq_some_iff.mp hs
      obtain ⟨out, rfl⟩ : ∃ out : Outcome, p = (l.runOps (out.path ev.fd).1, (out.path ev.fd).2) := by
        unfold readCb at hp
        split at hp
        · next hrole =>
          rw [show l.role ev.fd = _ from hrole] at ho
          cases ho
        · obtain ⟨q, hq, rfl⟩ := Option.map_eq_some_iff.mp hp
          obtain ⟨out, rfl⟩ := readPath_eq ho hq
          exact ⟨out, rfl⟩
      obtain ⟨out', hwrite⟩ := serveWrite_eq (by rw [role_recheckState, role_runOps]; exact ho) hs
      exact ⟨out, out', fun calls => by simp only [if_pos hin]; exact hwrite out _⟩
    · rw [if_neg ((reads_iff ev).not.mpr hin)] at hs
      obtain ⟨out', hwrite⟩ := serveWrite_eq (by rw [role_recheckState]; exact ho) hs
      exact ⟨⟨[], false, 0, by simp⟩, out', fun calls => by simp only [if_neg hin]; exact hwrite _ calls⟩
  · have hready : ¬l.live ev.ready.fd = true := hlive
    rw [if_neg hready] at hs
    obtain rfl := Option.some.inj hs
    exact ⟨⟨[], false, 0, by simp⟩, ⟨[], false, 0, by simp⟩, fun calls => by simp only [if_neg hlive]⟩

end Loop

end ZeroServ
