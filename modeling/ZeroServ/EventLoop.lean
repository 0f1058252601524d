import ZeroServ.Lib.Run
import ZeroServ.Poller

/-!
# The event loop

`poll_do` flushes the changes, waits, and serves what is ready one descriptor after the other: its read callback,
`recheck_state` on what it returned, its write callback, `recheck_state` again. Of a callback the model has what it
does to the poller: the calls of `EV_FD_SET`, `EV_FD_CLR` and `fd_delete` it makes, in their order, and the flags it
returns. What a callback meets (bytes or an error of `recv`, all or part of the buffer or an error of `send`, the
descriptors a publish answers) is what the event says.

`accepted_polled_iff` says of every run which accepted connections the kernel reports after the flush that follows:
those whose number the poller was told nothing of when `accept` returned it.
-/

namespace ZeroServ

open Run

/-! ## Callbacks -/

/-- Whose callbacks `fdtab` has for a descriptor: a TCP listener's, a connection's, or a UDP socket's. -/
inductive Role where
  | listener (h : Handler)
  | conn (h : Handler)
  | udp
  deriving DecidableEq, Repr

/-- A call a callback makes on the poller. -/
inductive PollOp where
  | set (fd : Fd) (dir : Dir)
  | clr (fd : Fd) (dir : Dir)
  | delete (fd : Fd)
  deriving DecidableEq, Repr

/-- What `accept` gives `event_accept`. A failure ends it in a `return` without a value, so the flags can be any.
Past its limit a handler refuses the connection, which is closed. -/
inductive Accepting where
  | failed (ret : Flags)
  | refused (nfd : Fd)
  | taken (nfd : Fd)
  deriving DecidableEq, Repr

/-- What `model_process` returns. -/
inductive ModelRet where
  | nop | setWr | close
  deriving DecidableEq, Repr

def ModelRet.flags : ModelRet → Flags
  | .nop => Zb.nop
  | .setWr => Zb.setWr
  | .close => Zb.close

/-- A turn of the loop of `mc_read` that calls the poller: a reply, an update whose data is awaited, and its
completion. -/
inductive McTurn where
  | reply | await | complete
  deriving DecidableEq, Repr

/-- What a read callback meets. -/
inductive Received where
  /-- a listener's `accept` -/
  | accept (a : Accepting)
  /-- `recv` returned 0 or an error -/
  | failed
  /-- bytes, which complete no request -/
  | bytes
  /-- bytes that `http_parse` takes -/
  | request
  /-- pub/sub commands: the descriptors they answer, and what the last one returned -/
  | commands (called : List Fd) (ret : ModelRet)
  /-- HTTP messages, and whether all that was received parsed -/
  | messages (ms : List (List Fd × ModelRet)) (parsed : Bool)
  /-- the turns of `mc_read`, and whether it ended in `conn_closing` -/
  | turns (ts : List McTurn) (closing : Bool)
  deriving DecidableEq, Repr

/-- What a write callback's `send` takes of the buffer. -/
inductive Sent where
  | all | part | failed
  deriving DecidableEq, Repr

/-- The calls a callback makes and what it returns. -/
abbrev Path := List PollOp × Flags

namespace Loop

section callbacks

variable (fd : Fd)

def echoRead : Received → Option Path
  | .bytes => some ([], Zb.setWr)
  | .failed => some ([], Zb.close)
  | _ => none

def echoWrite : Sent → Path
  | .all => ([], Zb.closeWr)
  | .part => ([], Zb.nop)
  | .failed => ([], Zb.close)

def httpRead : Received → Option Path
  | .request => some ([.set fd .wr, .clr fd .rd], 0)
  | .bytes => some ([], 0)
  | .failed => some ([.clr fd .rd], 0)
  | _ => none

/-- `http_write` closes the descriptor itself; after a failed `send` it returns -1. -/
def httpWrite : Sent → Path
  | .all => ([.delete fd], 0)
  | .part => ([], 0)
  | .failed => ([.delete fd], -1)

/-- `set_wr` -/
def mcSetWr : List PollOp := [.clr fd .rd, .set fd .wr]

def mcTurn : McTurn → List PollOp
  | .reply => mcSetWr fd
  | .await => [.set fd .rd]
  | .complete => mcSetWr fd ++ [.clr fd .rd]

/-- `conn_close`, at the end of `mc_read` and `mc_write`, deletes the descriptor. -/
def mcRead : Received → Option Path
  | .turns ts closing => some (ts.flatMap (mcTurn fd) ++ (if closing then [.delete fd] else []), 0)
  | _ => none

def mcWrite : Sent → Path
  | .all => ([.clr fd .wr, .set fd .rd], 0)
  | .part => ([], 0)
  | .failed => ([.delete fd], 0)

/-- `psub_on_response` and `http_psub_on_response` enable writing on the descriptor they answer, whoever has it now. -/
def onResponse (called : List Fd) : List PollOp := called.map fun x => .set x .wr

def psubRead : Received → Option Path
  | .commands called ret => some (onResponse called, ret.flags)
  | .failed => some ([], Zb.close)
  | _ => none

def psubWrite : Sent → Path
  | .all => ([], Zb.closeWr)
  | .part => ([], Zb.setWr)
  | .failed => ([], Zb.close)

/-- `http_on_msg_complete` -/
def httpOnMsgComplete (m : List Fd × ModelRet) : List PollOp :=
  onResponse m.1 ++ (if m.2.flags &&& Zb.setWr ≠ 0 then [.set fd .wr] else []) ++
    (if m.2.flags &&& Zb.setRd ≠ 0 then [.set fd .rd] else [])

def httpPsubRead : Received → Option Path
  | .messages ms parsed => some (ms.flatMap (httpOnMsgComplete fd), if parsed then Zb.nop else Zb.close)
  | .failed => some ([], Zb.close)
  | _ => none

def httpPsubWrite : Sent → Path
  | .all => ([], Zb.closeWr)
  | .part => ([], Zb.setWr)
  | .failed => ([], Zb.close)

/-- `echo_udp_read` and `routing_read` -/
def udpRead : Received → Option Path
  | .bytes => some ([], 0)
  | .failed => some ([.delete fd], 0)
  | _ => none

/-- The read callback of a descriptor that is no listener. -/
def readPath : Role → Received → Option Path
  | .conn .echo, r => echoRead r
  | .conn .http, r => httpRead fd r
  | .conn .memcached, r => mcRead fd r
  | .conn .pubsub, r => psubRead r
  | .conn .httpPubsub, r => httpPsubRead fd r
  | .udp, r => udpRead fd r
  | .listener _, _ => none

/-- The write callback; a listener has none. -/
def writePath : Role → Sent → Option Path
  | .conn .echo, s => some (echoWrite s)
  | .conn .http, s => some (httpWrite fd s)
  | .conn .memcached, s => some (mcWrite fd s)
  | .conn .pubsub, s => some (psubWrite s)
  | .conn .httpPubsub, s => some (httpPsubWrite s)
  | .udp, _ => some ([], 0)
  | .listener _, _ => none

end callbacks

end Loop

/-! ## The loop -/

/-- A member of the batch that `epoll_wait` returns. -/
structure Ready where
  fd : Fd
  input : Bool
  output : Bool
  error : Bool
  deriving DecidableEq, Repr

/-- The poller and the kernel, what `fdtab` has of each descriptor (its callbacks, and whether its state is another than
`FD_STCLOSE`), and what is left of the batch. -/
structure Loop where
  poller : Poller
  kernel : Kernel
  live : Fd → Bool
  role : Fd → Role
  pending : List Ready

/-- The handlers that have a limit of connections. -/
def Handler.limited : Handler → Bool
  | .echo | .pubsub | .httpPubsub => true
  | .http | .memcached => false

namespace Loop

variable (l : Loop)

/-- `fd_delete` -/
def fdDelete (fd : Fd) : Loop :=
  { l with poller := l.poller.fdClo fd, kernel := l.kernel.closed fd, live := Function.update l.live fd false }

def runOp : PollOp → Loop
  | .set fd dir => { l with poller := l.poller.fdSet fd dir }
  | .clr fd dir => { l with poller := l.poller.fdClr fd dir }
  | .delete fd => l.fdDelete fd

def runOps (ops : List PollOp) : Loop := ops.foldl runOp l

/-- `recheck_state` -/
def recheckState (fd : Fd) (flag : Flags) : Loop :=
  let l :=
    if flag = Zb.close then l.fdDelete fd
    else
      let l := if flag &&& Zb.closeRd ≠ 0 then l.runOp (.clr fd .rd) else l
      if flag &&& Zb.closeWr ≠ 0 then l.runOp (.clr fd .wr) else l
  let l := if flag &&& Zb.setRd ≠ 0 then l.runOp (.set fd .rd) else l
  if flag &&& Zb.setWr ≠ 0 then l.runOp (.set fd .wr) else l

/-- The part of `event_accept` for a connection that the handler takes. -/
def insert (h : Handler) (nfd : Fd) : Loop :=
  { l with
    poller := l.poller.fdSet nfd .rd
    kernel := l.kernel.opened nfd
    live := Function.update l.live nfd true
    role := Function.update l.role nfd (.conn h) }

/-- `event_accept`; the kernel gives it a descriptor that is not open. -/
def eventAccept (h : Handler) : Accepting → Option (Loop × Flags)
  | .failed ret => some (l, ret)
  | .refused nfd =>
    if !l.kernel.isOpen nfd && h.limited then some ({ l with kernel := (l.kernel.opened nfd).closed nfd }, Zb.nop)
    else none
  | .taken nfd => if l.kernel.isOpen nfd then none else some (l.insert h nfd, Zb.nop)

def readCb (fd : Fd) (r : Received) : Option (Loop × Flags) :=
  match l.role fd, r with
  | .listener h, .accept a => l.eventAccept h a
  | role, r => (readPath fd role r).map fun p => (l.runOps p.1, p.2)

def writeCb (fd : Fd) (s : Sent) : Option (Loop × Flags) :=
  (writePath fd (l.role fd) s).map fun p => (l.runOps p.1, p.2)

/-- The second half of a turn of `poll_do`: the write callback, and the flags of the read callback again where there
is none. -/
def serveWrite (ev : Ready) (s : Sent) (ret : Flags) : Option Loop :=
  if l.live ev.fd then
    if ev.output || ev.error then (l.writeCb ev.fd s).map fun p => p.1.recheckState ev.fd p.2
    else some (l.recheckState ev.fd ret)
  else some l

/-- A turn of `poll_do`. -/
def serve (ev : Ready) (r : Received) (s : Sent) : Option Loop :=
  if l.live ev.fd then
    (if ev.input || ev.error then l.readCb ev.fd r else some (l, Zb.nop)).bind fun p =>
      (p.1.recheckState ev.fd p.2).serveWrite ev s p.2
  else some l

/-- Whether the kernel reports input on a descriptor. -/
def polled (fd : Fd) : Bool :=
  match l.kernel.interest fd with
  | some events => events &&& epollIn ≠ 0
  | none => false

/-- What `epoll_wait` may return: each member of the interest set at most once, for events it has or an error. -/
def mayReport (ready : List Ready) : Bool :=
  decide (ready.map Ready.fd).Nodup && ready.all fun ev =>
    match l.kernel.interest ev.fd with
    | some events => (!ev.input || events &&& epollIn ≠ 0) && (!ev.output || events &&& epollOut ≠ 0)
    | none => false

/-- `fd_flush_changes`, which `poll_do` calls before it waits. -/
def flush : Loop :=
  { l with poller := (l.poller.fdFlushChanges l.kernel).1, kernel := (l.poller.fdFlushChanges l.kernel).2 }

/-- An event of the loop: a wait, or the turn of the first of the batch. -/
inductive Event where
  | wait (ready : List Ready)
  | turn (r : Received) (s : Sent)
  deriving DecidableEq, Repr

def Event.isWait : Event → Bool
  | .wait _ => true
  | .turn _ _ => false

/-- A step of the loop. It waits when the batch is served. -/
def step : Event → Option Loop
  | .wait ready =>
    match l.pending with
    | [] => if l.flush.mayReport ready then some { l.flush with pending := ready } else none
    | _ :: _ => none
  | .turn r s =>
    match l.pending with
    | [] => none
    | ev :: rest => { l with pending := rest }.serve ev r s

/-- The descriptor that a step accepts. -/
def accepting : Event → Option Fd
  | .turn (.accept (.taken nfd)) _ =>
    match l.pending with
    | ev :: _ =>
      match l.role ev.fd with
      | .listener _ => if l.live ev.fd && (ev.input || ev.error) then some nfd else none
      | _ => none
    | [] => none
  | _ => none

end Loop

/-- The loop when the listeners are enabled (`tcp_enable`, `udp_enable`). -/
def Loop.start (listeners : List (Fd × Role)) : Loop :=
  listeners.foldl
    (fun l p =>
      { l with
        poller := l.poller.fdSet p.1 .rd
        kernel := l.kernel.opened p.1
        live := Function.update l.live p.1 true
        role := Function.update l.role p.1 p.2 })
    { poller := { fdEvts := fun _ => 0, chgList := [], chgPtr := fun _ => none }
      kernel := { isOpen := fun _ => false, interest := fun _ => none }
      live := fun _ => false
      role := fun _ => .udp
      pending := [] }

namespace Loop

/-! ## What a turn leaves of the other descriptors -/

/-- What the poller and the kernel have agrees with the list of changes and with what is open. -/
structure Sound (l : Loop) : Prop where
  tracked : l.poller.Tracked
  wf : l.kernel.Wf

/-- A descriptor that stays open, stays enabled for reading, and of which neither the kernel nor what the poller was
told changes. -/
structure Undisturbed (x : Fd) (l l' : Loop) : Prop where
  isOpen : l.kernel.isOpen x = true → l'.kernel.isOpen x = true
  reads : l.poller.fdIsSet x .rd = true → l'.poller.fdIsSet x .rd = true
  told : l'.poller.told x = l.poller.told x
  interest : l'.kernel.interest x = l.kernel.interest x

/-- The poller was told nothing of the numbers that are not in use. -/
def Untold (l : Loop) : Prop := ∀ x, l.kernel.isOpen x = false → l.poller.told x = 0

/-- What the callbacks of a descriptor do: of the others they leave those that are open undisturbed. -/
structure Owned (fd : Fd) (l l' : Loop) : Prop where
  sound : l'.Sound
  pending : l'.pending = l.pending
  untold : l.Untold → l'.Untold
  others : ∀ x, x ≠ fd → l.kernel.isOpen x = true → Undisturbed x l l'

variable {l l₁ l₂ : Loop} {fd : Fd}

theorem Undisturbed.refl (x : Fd) (l : Loop) : Undisturbed x l l := ⟨id, id, rfl, rfl⟩

theorem Undisturbed.trans {x : Fd} (h : Undisturbed x l l₁) (h' : Undisturbed x l₁ l₂) : Undisturbed x l l₂ where
  isOpen ho := h'.isOpen (h.isOpen ho)
  reads hr := h'.reads (h.reads hr)
  told := h'.told.trans h.told
  interest := h'.interest.trans h.interest

theorem Sound.withPending (h : l.Sound) (pending : List Ready) : { l with pending := pending }.Sound :=
  ⟨h.tracked, h.wf⟩

theorem Owned.refl (h : l.Sound) : Owned fd l l := ⟨h, rfl, id, fun x _ _ => .refl x l⟩

theorem Owned.trans (h : Owned fd l l₁) (h' : Owned fd l₁ l₂) : Owned fd l l₂ where
  sound := h'.sound
  pending := h'.pending.trans h.pending
  untold hu := h'.untold (h.untold hu)
  others x hx ho := (h.others x hx ho).trans (h'.others x hx ((h.others x hx ho).isOpen ho))

/-- The calls a descriptor's callbacks make: they enable any descriptor, and disable or delete no other one. -/
def OwnOp (fd : Fd) : PollOp → Prop
  | .set _ _ => True
  | .clr x _ | .delete x => x = fd

theorem fdIsSet_congr {p q : Poller} {x : Fd} {dir : Dir} (h : q.evt x = p.evt x) :
    q.fdIsSet x dir = p.fdIsSet x dir := by
  rw [Poller.fdIsSet, Poller.fdIsSet, h]

/-- Setting a bit clears none. -/
theorem fdIsSet_fdSet {p : Poller} {x : Fd} {dir : Dir} (fd : Fd) (dir' : Dir) (h : p.fdIsSet x dir = true) :
    (p.fdSet fd dir').fdIsSet x dir = true := by
  have hm := p.evt_and_three x
  rw [Poller.fdIsSet, Poller.evt_fdSet]
  split
  · rw [Poller.fdIsSet] at h
    revert h
    rcases TwoBit.four_masks hm with hm | hm | hm | hm <;> rw [hm] <;> cases dir <;> cases dir' <;> decide
  · exact h

theorem fdIsSet_fdSet_self (p : Poller) (fd : Fd) (dir : Dir) : (p.fdSet fd dir).fdIsSet fd dir = true := by
  have hm := p.evt_and_three fd
  rw [Poller.fdIsSet, Poller.evt_fdSet, if_pos rfl]
  rcases TwoBit.four_masks hm with hm | hm | hm | hm <;> rw [hm] <;> cases dir <;> decide

theorem Owned.runOp (h : l.Sound) {op : PollOp} (ho : OwnOp fd op) : Owned fd l (l.runOp op) := by
  cases op with
  | set y dir =>
    have ht := Poller.touched_fdSet (p := l.poller) y dir
    refine ⟨⟨h.tracked.touched ht, h.wf⟩, rfl, fun hu x hc => (h.tracked.told_touched ht x).trans (hu x hc),
      fun x hx hopen => ?_⟩
    exact ⟨id, fdIsSet_fdSet y dir, h.tracked.told_touched ht x, rfl⟩
  | clr y dir =>
    obtain rfl : y = fd := ho
    have ht := Poller.touched_fdClr (p := l.poller) y dir
    refine ⟨⟨h.tracked.touched ht, h.wf⟩, rfl, fun hu x hc => (h.tracked.told_touched ht x).trans (hu x hc),
      fun x hx hopen => ?_⟩
    have hevt : (l.poller.fdClr y dir).evt x = l.poller.evt x := by rw [Poller.evt_fdClr, if_neg hx]
    exact ⟨id, fun hr => (fdIsSet_congr hevt).trans hr, h.tracked.told_touched ht x, rfl⟩
  | delete y =>
    obtain rfl : y = fd := ho
    refine ⟨⟨h.tracked.fdClo y, h.wf.closed y⟩, rfl, fun hu x hc => ?_,
      fun x hx hopen => ⟨fun ho => ?_, fun hr => ?_, ?_, ?_⟩⟩
    · refine (h.tracked.told_fdClo y x).trans ?_
      split
      · rfl
      · next hx => exact hu x ((Function.update_of_ne hx ..).symm.trans hc)
    · exact (Function.update_of_ne hx ..).trans ho
    · have hevt : (l.poller.fdClo y).evt x = l.poller.evt x := by rw [Poller.evt_fdClo, if_neg hx]
      exact (fdIsSet_congr hevt).trans hr
    · exact (h.tracked.told_fdClo y x).trans (if_neg hx)
    · exact Function.update_of_ne hx ..

theorem Owned.runOps (h : l.Sound) {ops : List PollOp} (ho : ∀ op ∈ ops, OwnOp fd op) : Owned fd l (l.runOps ops) := by
  induction ops generalizing l with
  | nil => exact .refl h
  | cons op ops ih =>
    have hop := Owned.runOp h (ho op List.mem_cons_self)
    exact hop.trans (ih hop.sound fun op' hop' => ho op' (List.mem_cons_of_mem _ hop'))

/-- The calls `recheck_state` makes for the flags. -/
def recheckOps (fd : Fd) (flag : Flags) : List PollOp :=
  (if flag = Zb.close then [.delete fd]
    else (if flag &&& Zb.closeRd ≠ 0 then [.clr fd .rd] else []) ++
      (if flag &&& Zb.closeWr ≠ 0 then [.clr fd .wr] else [])) ++
    (if flag &&& Zb.setRd ≠ 0 then [.set fd .rd] else []) ++ (if flag &&& Zb.setWr ≠ 0 then [.set fd .wr] else [])

theorem recheckState_eq (l : Loop) (fd : Fd) (flag : Flags) :
    l.recheckState fd flag = l.runOps (recheckOps fd flag) := by
  unfold Loop.recheckState recheckOps
  by_cases hc : flag = Zb.close
  · simp only [if_pos hc, Loop.runOps, List.foldl_append]
    split <;> split <;> rfl
  · simp only [if_neg hc, Loop.runOps, List.foldl_append]
    split <;> split <;> split <;> split <;> rfl

theorem recheckOps_own (fd : Fd) (flag : Flags) : ∀ op ∈ recheckOps fd flag, OwnOp fd op := by
  intro op hop
  simp only [recheckOps, List.mem_append] at hop
  rcases hop with (hop | hop) | hop
  · split at hop
    · rw [List.mem_singleton.mp hop]
      exact rfl
    · rcases List.mem_append.mp hop with hop | hop <;> split at hop
        <;> simp only [List.mem_singleton, List.not_mem_nil] at hop <;>
        rw [hop] <;> exact rfl
  all_goals
    split at hop <;> simp only [List.mem_singleton, List.not_mem_nil] at hop
    rw [hop]
    trivial

theorem Owned.recheckState (h : l.Sound) (flag : Flags) : Owned fd l (l.recheckState fd flag) := by
  rw [recheckState_eq]
  exact .runOps h (recheckOps_own fd flag)

theorem onResponse_own (called : List Fd) : ∀ op ∈ onResponse called, OwnOp fd op := by
  intro op hop
  obtain ⟨x, -, rfl⟩ := List.mem_map.mp hop
  trivial

theorem mcTurn_own (t : McTurn) : ∀ op ∈ mcTurn fd t, OwnOp fd op := by
  cases t <;> simp [mcTurn, mcSetWr, OwnOp]

theorem httpOnMsgComplete_own (m : List Fd × ModelRet) : ∀ op ∈ httpOnMsgComplete fd m, OwnOp fd op := by
  intro op hop
  simp only [httpOnMsgComplete, List.mem_append] at hop
  rcases hop with (hop | hop) | hop
  · exact onResponse_own m.1 op hop
  all_goals
    split at hop <;> simp only [List.mem_singleton, List.not_mem_nil] at hop
    rw [hop]
    trivial

/-- A read callback disables and deletes its own descriptor only. -/
theorem readPath_own {role : Role} {r : Received} {p : Path} (h : readPath fd role r = some p) :
    ∀ op ∈ p.1, OwnOp fd op := by
  cases role with
  | listener hd => nomatch h
  | udp => cases r <;> simp only [readPath, udpRead, Option.some.injEq, reduceCtorEq] at h <;> subst h <;> simp [OwnOp]
  | conn hd =>
    cases hd with
    | echo => cases r <;> simp only [readPath, echoRead, Option.some.injEq, reduceCtorEq] at h <;> subst h <;> simp
    | http => cases r <;> simp only [readPath, httpRead, Option.some.injEq, reduceCtorEq] at h <;> subst h
      <;> simp [OwnOp]
    | memcached =>
      cases r <;> simp only [readPath, mcRead, Option.some.injEq, reduceCtorEq] at h
      subst h
      intro op hop
      rcases List.mem_append.mp hop with hop | hop
      · obtain ⟨t, -, hop⟩ := List.mem_flatMap.mp hop
        exact mcTurn_own t op hop
      · split at hop <;> simp only [List.mem_singleton, List.not_mem_nil] at hop
        rw [hop]
        exact rfl
    | pubsub =>
      cases r <;> simp only [readPath, psubRead, Option.some.injEq, reduceCtorEq] at h <;> subst h
      · simp
      · exact onResponse_own _
    | httpPubsub =>
      cases r <;> simp only [readPath, httpPsubRead, Option.some.injEq, reduceCtorEq] at h <;> subst h
      · simp
      · intro op hop
        obtain ⟨m, -, hop⟩ := List.mem_flatMap.mp hop
        exact httpOnMsgComplete_own m op hop

theorem writePath_own {role : Role} {s : Sent} {p : Path} (h : writePath fd role s = some p) :
    ∀ op ∈ p.1, OwnOp fd op := by
  cases role with
  | listener hd => nomatch h
  | udp =>
    obtain rfl := Option.some.inj h
    simp
  | conn hd =>
    cases hd <;> obtain rfl := Option.some.inj h <;> cases s <;>
      simp [echoWrite, httpWrite, mcWrite, psubWrite, httpPsubWrite, OwnOp]

/-- `event_accept` disturbs no open descriptor. -/
theorem Owned.eventAccept (h : l.Sound) {hd : Handler} {a : Accepting} {p : Loop × Flags}
    (ha : l.eventAccept hd a = some p) :
    Owned fd l p.1 := by
  cases a with
  | failed ret =>
    obtain rfl := Option.some.inj ha
    exact .refl h
  | refused nfd =>
    obtain ⟨hc, hr⟩ := Option.ite_none_right_eq_some.mp ha
    obtain rfl := Option.some.inj hr
    simp only [Bool.and_eq_true, Bool.not_eq_true'] at hc
    refine ⟨⟨h.tracked, (h.wf.opened nfd).closed nfd⟩, rfl, fun hu x hx => hu x ?_, fun x hx hopen => ?_⟩
    · by_cases he : x = nfd
      · rw [he, hc.1]
      · simpa [Kernel.opened, Kernel.closed, Function.update_of_ne he] using hx
    have hne : x ≠ nfd := fun he => by simp [he, hc.1] at hopen
    refine ⟨fun ho => ?_, id, rfl, ?_⟩
    · simpa [Kernel.opened, Kernel.closed, Function.update_of_ne hne] using ho
    · simp [Kernel.opened, Kernel.closed, Function.update_of_ne hne]
  | taken nfd =>
    obtain ⟨hc, hr⟩ := Option.ite_none_left_eq_some.mp ha
    obtain rfl := Option.some.inj hr
    have ht := Poller.touched_fdSet (p := l.poller) nfd .rd
    refine ⟨⟨h.tracked.touched ht, h.wf.opened nfd⟩, rfl, fun hu x hx => ?_, fun x hx hopen => ?_⟩
    · have he : x ≠ nfd := by
        rintro rfl
        simp [Loop.insert, Kernel.opened] at hx
      exact (h.tracked.told_touched ht x).trans (hu x ((Function.update_of_ne he ..).symm.trans hx))
    have hne : x ≠ nfd := fun he => hc (he ▸ hopen)
    exact ⟨fun ho => (Function.update_of_ne hne ..).trans ho, fdIsSet_fdSet nfd .rd, h.tracked.told_touched ht x, rfl⟩

theorem Owned.readCb (h : l.Sound) {r : Received} {p : Loop × Flags} (hr : l.readCb fd r = some p) :
    Owned fd l p.1 := by
  unfold Loop.readCb at hr
  split at hr
  · exact .eventAccept h hr
  · obtain ⟨q, hq, rfl⟩ := Option.map_eq_some_iff.mp hr
    exact .runOps h (readPath_own hq)

theorem Owned.writeCb (h : l.Sound) {s : Sent} {p : Loop × Flags} (hw : l.writeCb fd s = some p) : Owned fd l p.1 := by
  obtain ⟨q, hq, rfl⟩ := Option.map_eq_some_iff.mp hw
  exact .runOps h (writePath_own hq)

theorem Owned.serveWrite (h : l.Sound) {ev : Ready} {s : Sent} {ret : Flags} (hs : l.serveWrite ev s ret = some l₁) :
    Owned ev.fd l l₁ := by
  unfold Loop.serveWrite at hs
  split at hs
  · split at hs
    · obtain ⟨p, hp, rfl⟩ := Option.map_eq_some_iff.mp hs
      have hcb := Owned.writeCb h hp
      exact hcb.trans (.recheckState hcb.sound p.2)
    · obtain rfl := Option.some.inj hs
      exact .recheckState h ret
  · obtain rfl := Option.some.inj hs
    exact .refl h

/-- A turn is its descriptor's own. -/
theorem Owned.serve (h : l.Sound) {ev : Ready} {r : Received} {s : Sent} (hs : l.serve ev r s = some l₁) :
    Owned ev.fd l l₁ := by
  unfold Loop.serve at hs
  split at hs
  · obtain ⟨p, hp, hs⟩ := Option.bind_eq_some_iff.mp hs
    have hread : Owned ev.fd l p.1 := by
      split at hp
      · exact .readCb h hp
      · obtain rfl := Option.some.inj hp
        exact .refl h
    have hrecheck : Owned ev.fd p.1 _ := .recheckState hread.sound p.2
    exact (hread.trans hrecheck).trans (.serveWrite hrecheck.sound hs)
  · obtain rfl := Option.some.inj hs
    exact .refl h

/-! ## Runs -/

/-- The batch has open descriptors, each once. -/
structure Inv (l : Loop) : Prop where
  sound : l.Sound
  nodup : (l.pending.map Ready.fd).Nodup
  isOpen : ∀ fd ∈ l.pending.map Ready.fd, l.kernel.isOpen fd = true

/-- A connection that was accepted since the last flush, and what the poller was told of its number. -/
structure Waiting (nfd : Fd) (t : BitVec 32) (l : Loop) : Prop where
  isOpen : l.kernel.isOpen nfd = true
  reads : l.poller.fdIsSet nfd .rd = true
  told : l.poller.told nfd = t
  interest : l.kernel.interest nfd = none
  notPending : nfd ∉ l.pending.map Ready.fd

/-- A step is a wait after the last turn of a batch, or the next turn. -/
inductive Stepped (l : Loop) : Event → Loop → Prop where
  | wait {ready : List Ready} (hdone : l.pending = []) (hready : l.flush.mayReport ready = true) :
      Stepped l (.wait ready) { l.flush with pending := ready }
  | turn {r : Received} {s : Sent} {ev : Ready} {rest : List Ready} {l' : Loop} (hnext : l.pending = ev :: rest)
      (hserve : { l with pending := rest }.serve ev r s = some l') : Stepped l (.turn r s) l'

theorem step_cases {e : Event} {l' : Loop} (h : l.step e = some l') : Stepped l e l' := by
  cases e with
  | wait ready =>
    simp only [step] at h
    split at h
    · next hdone =>
      obtain ⟨hready, hr⟩ := Option.ite_none_right_eq_some.mp h
      obtain rfl := Option.some.inj hr
      exact .wait hdone hready
    · nomatch h
  | turn r s =>
    simp only [step] at h
    split at h
    · nomatch h
    · next hnext => exact .turn hnext h

theorem mayReport_iff {ready : List Ready} (h : l.mayReport ready = true) :
    (ready.map Ready.fd).Nodup ∧ ∀ ev ∈ ready, l.kernel.interest ev.fd ≠ none := by
  simp only [mayReport, Bool.and_eq_true, decide_eq_true_eq, List.all_eq_true] at h
  refine ⟨h.1, fun ev hev hno => ?_⟩
  have hin := h.2 ev hev
  rw [hno] at hin
  nomatch hin

theorem Sound.flush (h : l.Sound) : l.flush.Sound :=
  ⟨h.tracked.flush l.kernel, Poller.flush_wf h.wf l.poller.chgList⟩

/-- What holds before a listener is enabled and is kept by that holds at the start. -/
theorem start_induction {P : Loop → Prop} (h₀ : P (start []))
    (hstep : ∀ (l : Loop) (p : Fd × Role), P l →
      P { l with
        poller := l.poller.fdSet p.1 .rd
        kernel := l.kernel.opened p.1
        live := Function.update l.live p.1 true
        role := Function.update l.role p.1 p.2 })
    (listeners : List (Fd × Role)) : P (start listeners) :=
  List.foldlRecOn listeners _ h₀ fun l hl p _ => hstep l p hl

theorem sound_start_nil : (start []).Sound := ⟨.empty _, fun _ h => absurd rfl h⟩

theorem inv_start (listeners : List (Fd × Role)) : (start listeners).Inv := by
  have hall : (start listeners).Inv ∧ (start listeners).pending = [] := by
    refine start_induction (P := fun l => l.Inv ∧ l.pending = [])
      ⟨⟨sound_start_nil, List.nodup_nil, by simp [start]⟩, rfl⟩ ?_ listeners
    rintro l p ⟨h, hp⟩
    exact ⟨⟨⟨h.sound.tracked.touched (Poller.touched_fdSet p.1 .rd), h.sound.wf.opened p.1⟩, h.nodup, by simp [hp]⟩, hp⟩
  exact hall.1

theorem inv_step {e : Event} {l' : Loop} (h : l.Inv) (hs : l.step e = some l') : l'.Inv := by
  cases step_cases hs with
  | wait hdone hready =>
    obtain ⟨hnodup, hin⟩ := mayReport_iff hready
    refine ⟨h.sound.flush.withPending _, hnodup, fun fd hfd => ?_⟩
    obtain ⟨ev, hev, rfl⟩ := List.mem_map.mp hfd
    exact h.sound.flush.wf ev.fd (hin ev hev)
  | @turn r s ev rest l' hnext hserve =>
    have hnodup := h.nodup
    have hopen := h.isOpen
    rw [hnext, List.map_cons] at hnodup hopen
    obtain ⟨hev, hrest⟩ := List.nodup_cons.mp hnodup
    have hown := Owned.serve (h.sound.withPending rest) hserve
    refine ⟨hown.sound, by rwa [hown.pending], fun fd hfd => ?_⟩
    rw [hown.pending] at hfd
    have hne : fd ≠ ev.fd := fun he => hev (he ▸ hfd)
    exact (hown.others fd hne (hopen fd (List.mem_cons_of_mem _ hfd))).isOpen (hopen fd (List.mem_cons_of_mem _ hfd))

theorem inv_run {es : List Event} {l' : Loop} (h : l.Inv) (hr : exec step l es = some l') : l'.Inv := by
  induction es generalizing l with
  | nil =>
    obtain rfl := Option.some.inj hr
    exact h
  | cons e es ih =>
    rw [exec_cons, Option.bind_eq_some_iff] at hr
    obtain ⟨l₁, hs, hr⟩ := hr
    exact ih (inv_step h hs) hr

variable {nfd : Fd} {t : BitVec 32}

/-- What the other descriptors' turns leave of a connection that waits to be polled. -/
theorem Waiting.undisturbed {l' : Loop} (h : Waiting nfd t l) (hu : Undisturbed nfd l l')
    (hp : nfd ∉ l'.pending.map Ready.fd) : Waiting nfd t l' where
  isOpen := hu.isOpen h.isOpen
  reads := hu.reads h.reads
  told := hu.told.trans h.told
  interest := hu.interest.trans h.interest
  notPending := hp

theorem Waiting.turn {r : Received} {s : Sent} {l' : Loop} (h : Waiting nfd t l) (hi : l.Inv)
    (hs : l.step (.turn r s) = some l') :
    Waiting nfd t l' := by
  cases step_cases hs with
  | @turn _ _ ev rest _ hnext hserve =>
    have hnot := h.notPending
    rw [hnext, List.map_cons, List.mem_cons, not_or] at hnot
    have hown := Owned.serve (hi.sound.withPending rest) hserve
    have hu := hown.others nfd hnot.1 h.isOpen
    exact h.undisturbed ⟨hu.isOpen, hu.reads, hu.told, hu.interest⟩ (by rw [hown.pending]; exact hnot.2)

theorem Waiting.run {es : List Event} {l' : Loop} (h : Waiting nfd t l) (hi : l.Inv) (hno : ∀ e ∈ es, e.isWait = false)
    (hr : exec step l es = some l') : Waiting nfd t l' := by
  induction es generalizing l with
  | nil =>
    obtain rfl := Option.some.inj hr
    exact h
  | cons e es ih =>
    rw [exec_cons, Option.bind_eq_some_iff] at hr
    obtain ⟨l₁, hs, hr⟩ := hr
    have he := hno e List.mem_cons_self
    cases e with
    | wait ready => nomatch he
    | turn r s => exact ih (h.turn hi hs) (inv_step hi hs) (fun e' he' => hno e' (List.mem_cons_of_mem _ he')) hr

/-- What `accepting` says of a step: it is the turn of a listener whose `accept` returned the descriptor. -/
theorem accepting_eq_some {e : Event} (h : l.accepting e = some nfd) :
    ∃ s ev rest hd, e = .turn (.accept (.taken nfd)) s ∧ l.pending = ev :: rest ∧ l.role ev.fd = .listener hd ∧
      l.live ev.fd = true ∧ (ev.input || ev.error) = true := by
  unfold accepting at h
  split at h
  · split at h
    · next ev rest hnext =>
      split at h
      · next hd hrole =>
        obtain ⟨hc, hr⟩ := Option.ite_none_right_eq_some.mp h
        obtain rfl := Option.some.inj hr
        rw [Bool.and_eq_true] at hc
        exact ⟨_, ev, rest, hd, rfl, hnext, hrole, hc⟩
      · nomatch h
    · nomatch h
  · nomatch h

/-- The number was not in use. After the turn that accepts it, the connection waits to be polled. -/
theorem accepting_waiting {e : Event} {l' : Loop} (hi : l.Inv) (ha : l.accepting e = some nfd)
    (hs : l.step e = some l') :
    l.kernel.isOpen nfd = false ∧ Waiting nfd (l.poller.told nfd) l' := by
  obtain ⟨s, ev, rest, hd, rfl, hnext, hrole, hlive, hread⟩ := accepting_eq_some ha
  have hturn : { l with pending := rest }.serve ev (.accept (.taken nfd)) s = some l' := by
    simpa only [step, hnext] using hs
  have hown := Owned.serve (hi.sound.withPending rest) hturn
  simp only [serve, hlive, hread, if_true, readCb, hrole, eventAccept] at hturn
  obtain ⟨p, hp, hturn⟩ := Option.bind_eq_some_iff.mp hturn
  obtain ⟨hclosed, hp⟩ := Option.ite_none_left_eq_some.mp hp
  obtain rfl := Option.some.inj hp
  have hopen := hi.isOpen
  rw [hnext, List.map_cons] at hopen
  have hne : nfd ≠ ev.fd := fun he => hclosed (he ▸ hopen ev.fd List.mem_cons_self)
  have hnot : nfd ∉ rest.map Ready.fd := fun hm => hclosed (hopen nfd (List.mem_cons_of_mem _ hm))
  -- what `event_accept` makes of the number, and what the rest of the listener's turn leaves of it
  have hfresh : l.kernel.interest nfd = none := by
    by_contra hin
    exact hclosed (hi.sound.wf nfd hin)
  have ht := Poller.touched_fdSet (p := l.poller) nfd .rd
  have hacc : Waiting nfd (l.poller.told nfd) ({ l with pending := rest }.insert hd nfd) :=
    ⟨Function.update_self .., fdIsSet_fdSet_self l.poller nfd .rd, hi.sound.tracked.told_touched ht nfd, hfresh, hnot⟩
  have hsound : ({ l with pending := rest }.insert hd nfd).Sound :=
    ⟨hi.sound.tracked.touched ht, hi.sound.wf.opened nfd⟩
  have hrecheck : Owned ev.fd _ _ := .recheckState hsound Zb.nop
  have hrest := hrecheck.trans (.serveWrite hrecheck.sound hturn)
  refine ⟨Bool.eq_false_iff.mpr hclosed, ?_⟩
  exact hacc.undisturbed (hrest.others nfd hne hacc.isOpen) (by rw [hown.pending]; exact hnot)

/-- The flush polls it exactly when the poller was told of nothing. -/
theorem Waiting.wait {ready : List Ready} {l' : Loop} (h : Waiting nfd t l) (hi : l.Inv)
    (hs : l.step (.wait ready) = some l') :
    l'.polled nfd = true ↔ t = 0 := by
  cases step_cases hs with
  | wait hdone hready =>
    have hr := h.reads
    have hmask := l.poller.evt_and_three nfd
    rw [Poller.fdIsSet, decide_eq_true_eq] at hr
    have hm : l.poller.evt nfd ≠ 0 := fun h0 => hr (by rw [h0]; rfl)
    have hin : dmsk2event (l.poller.evt nfd) &&& epollIn ≠ 0 := by
      revert hr
      rcases TwoBit.four_masks hmask with he | he | he | he <;> rw [he] <;> decide
    have hflush := hi.sound.tracked.flush_interest h.isOpen h.interest hm
    rw [h.told] at hflush
    unfold polled flush
    simp only [hflush]
    by_cases ht : t = 0
    · simp only [if_pos ht]
      exact ⟨fun _ => ht, fun _ => decide_eq_true hin⟩
    · simp only [if_neg ht]
      exact ⟨nofun, fun h0 => absurd h0 ht⟩

/-- Of a run: a step accepts a descriptor, turns follow, and a wait. The wait flushes the changes, and the kernel
then reports the descriptor's input exactly when the poller was told nothing of the number that `accept` returned. -/
theorem accepted_polled_iff {listeners : List (Fd × Role)} {es₁ es₂ : List Event} {e : Event} {ready : List Ready}
    {l l₁ l₂ l₃ : Loop} (h₁ : exec step (start listeners) es₁ = some l) (ha : l.accepting e = some nfd)
    (he : l.step e = some l₁) (hno : ∀ e ∈ es₂, e.isWait = false) (h₂ : exec step l₁ es₂ = some l₂)
    (hw : l₂.step (.wait ready) = some l₃) : l₃.polled nfd = true ↔ l.poller.told nfd = 0 := by
  have hi := inv_run (inv_start listeners) h₁
  have hi₁ := inv_step hi he
  have hwait := (accepting_waiting hi ha he).2.run hi₁ hno h₂
  exact hwait.wait (inv_run hi₁ h₂) hw

/-- At a flush no closed descriptor has bits in `fd_evts`. -/
def CleanFlush (l : Loop) (e : Event) (_ : Loop) : Prop :=
  e.isWait = true → ∀ x, l.kernel.isOpen x = false → l.poller.evt x = 0

theorem untold_start (listeners : List (Fd × Role)) : (start listeners).Untold := by
  have hempty : (start []).Untold := by
    intro x _
    simp [start, Poller.told, Poller.evt, TwoBit.field]
  have hall : (start listeners).Sound ∧ (start listeners).Untold := by
    refine start_induction (P := fun l => l.Sound ∧ l.Untold) ⟨sound_start_nil, hempty⟩ ?_ listeners
    rintro l p ⟨h, hu⟩
    have ht := Poller.touched_fdSet (p := l.poller) p.1 .rd
    refine ⟨⟨h.tracked.touched ht, h.wf.opened p.1⟩, fun x hx => ?_⟩
    have he : x ≠ p.1 := by
      rintro rfl
      simp [Kernel.opened] at hx
    exact (h.tracked.told_touched ht x).trans (hu x ((Function.update_of_ne he ..).symm.trans hx))
  exact hall.2

theorem untold_step {e : Event} {l' : Loop} (hi : l.Inv) (hu : l.Untold) (hs : l.step e = some l')
    (hc : CleanFlush l e l') :
    l'.Untold := by
  cases step_cases hs with
  | wait hdone hready =>
    intro x hx
    have hopen : l.kernel.isOpen x = false := by
      rw [← hx]
      exact (congrFun (Poller.flush_isOpen l.poller.chgList l.kernel) x).symm
    exact (hi.sound.tracked.told_flush l.kernel x).trans (hc rfl x hopen)
  | @turn _ _ ev rest _ hnext hserve => exact (Owned.serve (hi.sound.withPending rest) hserve).untold hu

/-- In a run where no flush finds bits of a closed descriptor, every accepted connection is polled after the next
flush. -/
theorem accepted_polled_of_clean {listeners : List (Fd × Role)} {es₁ es₂ : List Event} {e : Event} {ready : List Ready}
    {l l₁ l₂ l₃ : Loop} (hclean : AllSteps step CleanFlush (start listeners) es₁)
    (h₁ : exec step (start listeners) es₁ = some l) (ha : l.accepting e = some nfd)
    (he : l.step e = some l₁) (hno : ∀ e ∈ es₂, e.isWait = false) (h₂ : exec step l₁ es₂ = some l₂)
    (hw : l₂.step (.wait ready) = some l₃) : l₃.polled nfd = true := by
  have hi := inv_start listeners
  have hall := AllStates.of_invariant (I := fun l : Loop => l.Inv ∧ l.Untold) ⟨hi, untold_start listeners⟩
    (fun l e l' h hs hc => ⟨inv_step h.1 hs, untold_step h.1 h.2 hs hc⟩) hclean
  obtain ⟨hil, hu⟩ := hall.last h₁
  obtain ⟨hclosed, hwait⟩ := accepting_waiting hil ha he
  have hwait := hwait.run (inv_step hil he) hno h₂
  exact (hwait.wait (inv_run (inv_step hil he) h₂) hw).mpr (hu nfd hclosed)

/-! ## A number that is used again -/

/-- The state a run of the loop ends in. -/
def after (listeners : List (Fd × Role)) (es : List Event) : Loop :=
  (exec step (start listeners) es).getD (start listeners)

theorem exec_after {listeners : List (Fd × Role)} {es : List Event}
    (h : (exec step (start listeners) es).isSome = true) :
    exec step (start listeners) es = some (after listeners es) := by
  obtain ⟨l, hl⟩ := Option.isSome_iff_exists.mp h
  rw [after, hl, Option.getD_some]

theorem step_after {listeners : List (Fd × Role)} {es : List Event} {e : Event}
    (h : (exec step (start listeners) (es ++ [e])).isSome = true) :
    (after listeners es).step e = some (after listeners (es ++ [e])) := by
  have hrun := exec_after h
  rw [exec_append, Option.bind_eq_some_iff] at hrun
  obtain ⟨l, hl, hs⟩ := hrun
  rw [exec_cons, Option.bind_eq_some_iff] at hs
  obtain ⟨l₁, hs, hl₁⟩ := hs
  rw [after, hl, Option.getD_some, hs, Option.some.inj hl₁]

/-- A descriptor is ready for reading, or for writing. -/
def readable (fd : Fd) : Ready := { fd := fd, input := true, output := false, error := false }
def writable (fd : Fd) : Ready := { fd := fd, input := false, output := true, error := false }

/-- An HTTP connection on descriptor 5 sends a request and is answered; then the listener, descriptor 3, has another
connection. -/
def httpExchange (sent : Sent) : List Event :=
  [.wait [readable 3], .turn (.accept (.taken 5)) .all, .wait [readable 5], .turn .request .all, .wait [writable 5],
    .turn .bytes sent, .wait [readable 3]]

/-- Where the response was sent, the next connection on the number is polled. -/
theorem polled_after_response :
    (after [(3, .listener .http)] (httpExchange .all ++ [.turn (.accept (.taken 5)) .all] ++ [.wait []])).polled
      5 = true := by
  have haccept : (after [(3, .listener .http)] (httpExchange .all)).accepting (.turn (.accept (.taken 5)) .all) =
      some 5 := by
    decide +kernel
  refine (accepted_polled_iff (exec_after (by decide +kernel)) haccept (step_after (by decide +kernel)) (by simp)
    (exec_nil _) (step_after (by decide +kernel))).mpr ?_
  decide +kernel

/-- Where the `send` failed, `http_write` closed the descriptor and returned -1, for which `recheck_state` sets the
bits of the number again. The poller then takes it to be in the kernel's set, and the next connection on it is not
polled. -/
theorem unpolled_after_failed_send :
    ∃ l l₁ l₃ : Loop, exec step (start [(3, .listener .http)]) (httpExchange .failed) = some l ∧
      l.accepting (.turn (.accept (.taken 5)) .all) = some 5 ∧ l.step (.turn (.accept (.taken 5)) .all) = some l₁ ∧
      l₁.step (.wait []) = some l₃ ∧ l₃.polled 5 = false :=
  ⟨_, _, _, exec_after (by decide +kernel),
    by decide +kernel, step_after (by decide +kernel), step_after (by decide +kernel), by decide +kernel⟩

end Loop

end ZeroServ
