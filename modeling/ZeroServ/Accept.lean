import ZeroServ.Dispatch
import ZeroServ.Lib.CInt

/-!
# Accepting a connection

`event_accept` of `client.c` is the read callback of a listening descriptor, which has no write callback. When
`accept` fails it ends in a `return` without a value, and `poll_do` takes whatever it finds for flags:
`listening_serve_iff` says which flags the listener survives.

The number that `accept` returns is an index of the tables that `fd_init` and `poll_init` allocated for
`global.maxconn` descriptors, and nobody compares the two: `eventAccept_indicesSafe_iff`.
-/

namespace ZeroServ

open CInt

namespace Loop

/-! ## The listener -/

/-- A listening descriptor: open, in state `FD_STLISTEN`, with exactly read interest. -/
structure Listening (l : Loop) (fd : Fd) : Prop where
  role : ∃ h, l.role fd = .listener h
  live : l.live fd = true
  isOpen : l.kernel.isOpen fd = true
  evt : l.poller.evt fd = Dir.rd.mask

/-- The flags that leave read interest as it is: they do not enable writing, and do not disable reading without
enabling it again. -/
def KeepsReading (flag : Flags) : Prop := flag &&& Zb.setWr = 0 ∧ (flag &&& Zb.closeRd = 0 ∨ flag &&& Zb.setRd ≠ 0)

instance (flag : Flags) : Decidable (KeepsReading flag) := inferInstanceAs (Decidable (_ ∧ _))

theorem applyFlags_eq_rd_iff (flag : Flags) : applyFlags Dir.rd.mask flag = Dir.rd.mask ↔ KeepsReading flag := by
  unfold applyFlags flagChanges KeepsReading
  by_cases hrd : flag &&& Zb.closeRd = 0 <;> by_cases hwr : flag &&& Zb.closeWr = 0
    <;> by_cases hsrd : flag &&& Zb.setRd = 0 <;>
    by_cases hswr : flag &&& Zb.setWr = 0 <;> simp only [ne_eq, hrd, hwr, hsrd, hswr, not_true_eq_false,
      not_false_eq_true] <;> decide

theorem keepsReading_nop : KeepsReading Zb.nop := by decide

variable {l : Loop} {fd : Fd}

theorem kernel_recheckState {flag : Flags} (h : flag ≠ Zb.close) (l : Loop) (fd : Fd) :
    (l.recheckState fd flag).kernel = l.kernel := by
  have hops : ∀ (cs : List Change) (l : Loop), (l.runOps (cs.map (Change.op fd))).kernel = l.kernel := by
    intro cs
    induction cs with
    | nil => exact fun l => rfl
    | cons c cs ih => exact fun l => (ih (l.runOp (c.op fd))).trans (by cases c <;> rfl)
  rw [recheckState_eq, recheckOps_eq_map h, hops]

/-- What `recheck_state` leaves of a listening descriptor. -/
theorem listening_recheckState_iff (h : l.Listening fd) (flag : Flags) :
    (l.recheckState fd flag).Listening fd ↔ KeepsReading flag := by
  by_cases hc : flag = Zb.close
  · subst hc
    refine iff_of_false (fun h' => ?_) (by decide)
    have hlive := h'.live
    rw [recheckState_close, live_fdDelete_self] at hlive
    cases hlive
  · obtain ⟨hlive, hevt⟩ := recheckState_changes hc l fd
    have hfd := hevt fd
    rw [if_pos rfl, h.evt] at hfd
    rw [← applyFlags_eq_rd_iff, ← hfd]
    refine ⟨fun h' => h'.evt, fun he => ⟨?_, ?_, ?_, he⟩⟩
    · rw [role_recheckState]
      exact h.role
    · rw [hlive]
      exact h.live
    · rw [kernel_recheckState hc]
      exact h.isOpen

/-- What `event_accept` returns. -/
def acceptRet : Accepting → Flags
  | .failed ret => ret
  | .refused _ | .taken _ => Zb.nop

/-- `event_accept` itself leaves every listener as it is: the number that `accept` returns was not in use. -/
theorem Listening.eventAccept (h : l.Listening fd) {hd : Handler} {a : Accepting} {p : Loop × Flags}
    (ha : l.eventAccept hd a = some p) :
    p.1.Listening fd ∧ p.2 = acceptRet a := by
  have hopen := h.isOpen
  cases a with
  | failed ret =>
    obtain rfl := Option.some.inj ha
    exact ⟨h, rfl⟩
  | refused nfd =>
    obtain ⟨hc, hr⟩ := Option.ite_none_right_eq_some.mp ha
    obtain rfl := Option.some.inj hr
    rw [Bool.and_eq_true, Bool.not_eq_true'] at hc
    have hne : fd ≠ nfd := fun he => by simp [← he, hopen] at hc
    exact ⟨⟨h.role, h.live, by simp [Kernel.opened, Kernel.closed, Function.update_of_ne hne, hopen], h.evt⟩, rfl⟩
  | taken nfd =>
    obtain ⟨hc, hr⟩ := Option.ite_none_left_eq_some.mp ha
    obtain rfl := Option.some.inj hr
    have hne : fd ≠ nfd := fun he => hc (he ▸ hopen)
    refine ⟨⟨?_, ?_, ?_, ?_⟩, rfl⟩
    · simpa [Loop.insert, Function.update_of_ne hne] using h.role
    · simpa [Loop.insert, Function.update_of_ne hne] using h.live
    · simpa [Loop.insert, Kernel.opened, Function.update_of_ne hne] using hopen
    · exact (Poller.evt_fdSet nfd .rd fd).trans ((if_neg hne).trans h.evt)

/-- The second half of a listener's turn: it has no write callback to call, and the flags are applied again. -/
theorem listening_serveWrite_iff {ev : Ready} (h : l.Listening ev.fd) {s : Sent} {ret : Flags}
    (hret : KeepsReading ret) :
    (∃ l', l.serveWrite ev s ret = some l' ∧ l'.Listening ev.fd) ↔ (ev.output || ev.error) = false := by
  obtain ⟨hd, hrole⟩ := h.role
  rw [serveWrite, if_pos h.live]
  by_cases hw : (ev.output || ev.error) = true
  · rw [if_pos hw, writeCb, hrole]
    simp [writePath, hw]
  · rw [if_neg hw]
    exact iff_of_true ⟨_, rfl, (listening_recheckState_iff h ret).mpr hret⟩ (Bool.not_eq_true _ ▸ hw)

/-- Flags that the listener did not survive the first time leave nothing to survive the second. -/
theorem not_listening_serveWrite {l₁ : Loop} {ev : Ready} (h : l.Listening ev.fd) {s : Sent} {ret : Flags}
    (hret : ¬KeepsReading ret)
    (hs : (l.recheckState ev.fd ret).serveWrite ev s ret = some l₁) : ¬l₁.Listening ev.fd := by
  intro h₁
  obtain ⟨hd, hrole⟩ := h.role
  have hrole' : (l.recheckState ev.fd ret).role ev.fd = .listener hd := by rw [role_recheckState, hrole]
  unfold serveWrite at hs
  split at hs
  · next hlive =>
    have hc : ret ≠ Zb.close := by
      rintro rfl
      rw [recheckState_close, live_fdDelete_self] at hlive
      cases hlive
    split at hs
    · rw [writeCb, hrole'] at hs
      simp [writePath] at hs
    · obtain rfl := Option.some.inj hs
      -- applied twice the flags are the flags applied once
      have hevt := h₁.evt
      rw [(recheckState_changes hc _ ev.fd).2, if_pos rfl, (recheckState_changes hc l ev.fd).2, if_pos rfl, h.evt,
        applyFlags_applyFlags (by decide), applyFlags_eq_rd_iff] at hevt
      exact hret hevt
  · obtain rfl := Option.some.inj hs
    exact hret ((listening_recheckState_iff h ret).mp h₁)

/-- For every listening descriptor, every event on it and whatever comes of `accept`: the turn leaves it listening
exactly where the event asks for no write callback, which a listener has not, and where the flags that a failed
`accept` leaves keep read interest. -/
theorem listening_serve_iff {hd : Handler} {ev : Ready} {a : Accepting} {p : Loop × Flags} (h : l.Listening ev.fd)
    (hrole : l.role ev.fd = .listener hd) (ha : l.eventAccept hd a = some p) (s : Sent) :
    (∃ l', l.serve ev (.accept a) s = some l' ∧ l'.Listening ev.fd) ↔
      (ev.output || ev.error) = false ∧ ∀ ret, a = .failed ret → ev.input = true → KeepsReading ret := by
  obtain ⟨hp, hret⟩ := h.eventAccept ha
  rw [serve, if_pos h.live]
  by_cases hin : (ev.input || ev.error) = true
  · have hread : l.readCb ev.fd (.accept a) = some p := by
      unfold readCb
      rw [hrole]
      exact ha
    rw [if_pos hin, hread, Option.bind_some]
    by_cases hkeep : KeepsReading p.2
    · rw [listening_serveWrite_iff ((listening_recheckState_iff hp p.2).mpr hkeep) hkeep]
      refine ⟨fun hw => ⟨hw, ?_⟩, fun hw => hw.1⟩
      rintro ret rfl -
      rwa [hret] at hkeep
    · refine iff_of_false ?_ ?_
      · rintro ⟨l', hs, hl'⟩
        exact not_listening_serveWrite hp hkeep hs hl'
      · rintro ⟨hw, hfail⟩
        cases a with
        | failed ret => exact hkeep (hret ▸ hfail ret rfl (by simpa [(Bool.or_eq_false_iff.mp hw).2] using hin))
        | refused nfd => exact hkeep (hret ▸ keepsReading_nop)
        | taken nfd => exact hkeep (hret ▸ keepsReading_nop)
  · have hidle : l.recheckState ev.fd Zb.nop = l := rfl
    rw [if_neg hin, Option.bind_some, hidle, listening_serveWrite_iff h keepsReading_nop]
    have hno : ev.input = false := by
      cases hi : ev.input with
      | false => rfl
      | true => exact absurd (by rw [hi, Bool.true_or]) hin
    simp [hno]

/-- An `accept` that a signal interrupts leaves the value of `EINTR`, which sets read interest. -/
theorem listening_serve_iff_interrupted :
    ∃ l', (start [(3, .listener .echo)]).serve (readable 3) (.accept (.failed 4)) .all = some l' ∧ l'.Listening 3 := by
  refine (listening_serve_iff ⟨⟨.echo, rfl⟩, rfl, rfl, by decide⟩ rfl rfl .all).mpr ⟨rfl, fun ret hret _ => ?_⟩
  cases hret
  decide

/-- A `return` that leaves the value of `EAGAIN` for flags: reading is disabled and writing is enabled. -/
theorem listener_not_read :
    ¬∃ l', (start [(3, .listener .echo)]).serve (readable 3) (.accept (.failed 11)) .all = some l' ∧
      l'.Listening 3 := by
  rintro ⟨l', hs, h⟩
  have hevt : ((start [(3, .listener .echo)]).serve (readable 3) (.accept (.failed 11)) .all).map
      (fun l => l.poller.evt 3) = some Dir.wr.mask := by decide
  rw [hs, Option.map_some, h.evt] at hevt
  exact absurd hevt (by decide)

end Loop

/-! ## The tables -/

/-- What a step touches: an entry of `fdtab` or of `chg_ptr`, a word of `fd_evts`; and a descriptor it closes. -/
inductive Use where
  | fdtab (fd : Fd)
  | chgPtr (fd : Fd)
  | fdEvts (word : Nat)
  | close (fd : Fd)
  deriving DecidableEq, Repr

/-- `FD2OFS` -/
def fd2ofs (fd : Fd) : Nat := fd / 16

/-- The bytes of `fd_evts`: `4 * (global.maxconn + 15) / 16` in `int`. Where that is negative `calloc` has nothing to
give. -/
def fdSetBytes (maxconn : Int) : Nat := (Int.tdiv (int32 (4 * int32 (maxconn + 15))) 16).toNat

/-- Whether an index is below the allocated length; `fd_evts` has words of four bytes. -/
def Use.InRange (maxconn : Int) : Use → Prop
  | .fdtab fd | .chgPtr fd => fd < maxconn
  | .fdEvts word => 4 * word + 4 ≤ fdSetBytes maxconn
  | .close _ => True

/-- `__fd_set`, with `alloc_chg_list` -/
def fdSetUses (p : Poller) (fd : Fd) (dir : Dir) : List Use :=
  .fdEvts (fd2ofs fd) ::
    if p.evt fd &&& dir.mask ≠ 0 then []
    else (match p.chgPtr fd with | some _ => [.chgPtr fd] | none => [.chgPtr fd, .chgPtr fd]) ++ [.fdEvts (fd2ofs fd)]

/-- The accept callbacks of the handlers, of which three have a limit of connections: what they touch, and what they
return. -/
def handlerAccept (h : Handler) (full : Bool) (nfd : Fd) : List Use × Flags :=
  match h with
  | .echo => ([.fdtab nfd, .fdtab nfd], if full then Zb.fail else Zb.nop)
  | .pubsub => ([.fdtab nfd, .fdtab nfd], if full then Zb.fail else Zb.nop)
  | .httpPubsub => if full then ([], Zb.fail) else ([.fdtab nfd, .fdtab nfd, .fdtab nfd], Zb.nop)
  | .http => ([.fdtab nfd, .fdtab nfd], 0)
  | .memcached => ([.fdtab nfd, .fdtab nfd, .fdtab nfd, .fdtab nfd, .fdtab nfd], 0)

/-- `event_accept` on a listener, with what `accept` returned. -/
def eventAcceptUses (p : Poller) (h : Handler) (full : Bool) (fd : Fd) (nfd : Option Fd) : List Use :=
  .fdtab fd ::
    match nfd with
    | none => []
    | some nfd =>
      let (uses, ret) := handlerAccept h full nfd
      uses ++ if ret = Zb.nop then
        [.fdtab nfd, .fdtab nfd, .fdtab nfd, .fdtab nfd, .fdtab nfd, .fdtab fd, .fdtab nfd] ++ fdSetUses p nfd .rd
      else [.close nfd]

/-- `fd_init`: the entries of `fdtab`, none where `malloc` is asked for a negative number of them and the program
exits. -/
def fdInit (maxsock : Int) : Option Nat := if maxsock < 0 then none else some maxsock.toNat

/-- What is to hold of an `event_accept`: every index is below the allocated length, a descriptor from `maxconn` on
is closed and not used, and every descriptor below has its word in `fd_evts`. -/
structure IndicesSafe (maxconn : Int) (nfd : Option Fd) (uses : List Use) : Prop where
  inRange : ∀ u ∈ uses, u.InRange maxconn
  refused : ∀ n ∈ nfd, maxconn ≤ n → .close n ∈ uses ∧ ∀ u ∈ uses, u ≠ .fdtab n ∧ u ≠ .chgPtr n ∧ u ≠ .fdEvts (fd2ofs n)
  words : ∀ fd : Fd, (fd : Int) < maxconn → (Use.fdEvts (fd2ofs fd)).InRange maxconn

section tables

variable {maxconn : Int} {p : Poller} {h : Handler} {full : Bool} {fd nfd : Fd}

theorem fdSetBytes_lt (maxconn : Int) : fdSetBytes maxconn < 2 ^ 27 := by
  have hlt := int32_lt (4 * int32 (maxconn + 15))
  have hsign : Int.sign 16 = 1 := rfl
  rw [fdSetBytes, Int.tdiv_eq_ediv, hsign]
  split <;> omega

theorem fdSetBytes_of_lt (hpos : 0 ≤ maxconn) (hlt : maxconn + 15 < 2 ^ 29) :
    fdSetBytes maxconn = (maxconn.toNat + 15) / 4 := by
  have hsum : int32 (maxconn + 15) = maxconn + 15 := int32_of_range (by omega) (by omega)
  rw [fdSetBytes, hsum, int32_of_range (by omega) (by omega), Int.tdiv_eq_ediv_of_nonneg (by omega)]
  omega

/-- The word of every descriptor below `maxconn` is allocated, as long as the size fits an `int`. -/
theorem words_inRange_iff (hpos : 0 < maxconn) :
    (∀ fd : Fd, (fd : Int) < maxconn → (Use.fdEvts (fd2ofs fd)).InRange maxconn) ↔ maxconn + 15 < 2 ^ 29 := by
  constructor
  · intro hall
    have hbytes := fdSetBytes_lt maxconn
    have hlast := hall (maxconn.toNat - 1) (by omega)
    simp only [Use.InRange, fd2ofs] at hlast
    omega
  · intro hlt fd hfd
    simp only [Use.InRange, fd2ofs]
    rw [fdSetBytes_of_lt (by omega) hlt]
    omega

/-- The accept callbacks touch the entry of the connection, before they refuse it or not. -/
theorem handlerAccept_uses (h : Handler) (full : Bool) (nfd : Fd) :
    (∀ u ∈ (handlerAccept h full nfd).1, u = .fdtab nfd) ∧
      (.fdtab nfd ∈ (handlerAccept h full nfd).1 ↔ ¬(h = .httpPubsub ∧ full = true)) := by
  cases h <;> cases full <;> simp [handlerAccept]

theorem fdSetUses_inRange (hfd : (fd : Int) < maxconn) (hword : (Use.fdEvts (fd2ofs fd)).InRange maxconn) {dir : Dir} :
    ∀ u ∈ fdSetUses p fd dir, u.InRange maxconn := by
  have hptr : (Use.chgPtr fd).InRange maxconn := hfd
  unfold fdSetUses
  split
  · simpa using hword
  · cases p.chgPtr fd <;> simp [hword, hptr]

/-- Where the listener and the connection have their entries, and the connection its word, nothing else is touched. -/
theorem eventAcceptUses_inRange (hfd : (fd : Int) < maxconn) (hn : (nfd : Int) < maxconn)
    (hword : (Use.fdEvts (fd2ofs nfd)).InRange maxconn) :
    ∀ u ∈ eventAcceptUses p h full fd (some nfd), u.InRange maxconn := by
  have hown : (Use.fdtab nfd).InRange maxconn := hn
  have hlisten : (Use.fdtab fd).InRange maxconn := hfd
  simp only [eventAcceptUses, List.forall_mem_cons, List.forall_mem_append]
  refine ⟨hlisten, fun u hu => (handlerAccept_uses h full nfd).1 u hu ▸ hown, ?_⟩
  split
  · rw [List.forall_mem_append]
    exact ⟨by simp [hown, hlisten], fdSetUses_inRange hn hword⟩
  · simp [Use.InRange]

/-- `event_accept` keeps to its tables exactly where they could be allocated in full, the listener is below
`maxconn`, and so is what `accept` returned: only one of the handlers refuses a connection before it uses it, and for
its own limit. -/
theorem eventAccept_indicesSafe_iff (maxconn : Int) (p : Poller) (h : Handler) (full : Bool) (fd : Fd)
    (nfd : Option Fd) :
    (∀ n, fdInit maxconn = some n → IndicesSafe maxconn nfd (eventAcceptUses p h full fd nfd)) ↔
      maxconn < 0 ∨ (fd < maxconn ∧ maxconn + 15 < 2 ^ 29 ∧
        ∀ n ∈ nfd, (n : Int) < maxconn ∨ (h = .httpPubsub ∧ full = true)) := by
  unfold fdInit
  by_cases hneg : maxconn < 0
  · simp [hneg]
  · have hstart : ∀ P : Prop, (∀ n, some maxconn.toNat = some n → P) ↔ P :=
      fun P => ⟨fun hP => hP _ rfl, fun hP _ _ => hP⟩
    rw [if_neg hneg, hstart, or_iff_right hneg]
    constructor
    · intro hsafe
      have hfd : (fd : Int) < maxconn := hsafe.inRange _ List.mem_cons_self
      refine ⟨hfd, (words_inRange_iff (by omega)).mp hsafe.words, fun n hn => ?_⟩
      obtain rfl := Option.mem_def.mp hn
      by_contra hno
      rw [not_or] at hno
      have hused := (handlerAccept_uses h full n).2.mpr hno.2
      exact hno.1 (hsafe.inRange _ (List.mem_cons_of_mem _ (List.mem_append_left _ hused)))
    · rintro ⟨hfd, hbytes, hnfd⟩
      have hwords := (words_inRange_iff (by omega)).mpr hbytes
      cases nfd with
      | none => exact ⟨by simpa [eventAcceptUses, Use.InRange] using hfd, by simp, hwords⟩
      | some n =>
        rcases hnfd n rfl with hn | ⟨rfl, rfl⟩
        · refine ⟨eventAcceptUses_inRange hfd hn (hwords n hn), fun m hm hle => ?_, hwords⟩
          obtain rfl := Option.mem_some_iff.mp hm
          omega
        · have huses : eventAcceptUses p .httpPubsub true fd (some n) = [.fdtab fd, .close n] := rfl
          have hpair : ∀ P : Use → Prop, (∀ u ∈ [Use.fdtab fd, Use.close n], P u) ↔
            P (.fdtab fd) ∧ P (.close n) := by simp
          rw [huses]
          refine ⟨(hpair _).mpr ⟨hfd, trivial⟩, fun m hm hle => ?_, hwords⟩
          obtain rfl := Option.mem_some_iff.mp hm
          have hne : fd ≠ n := by
            rintro rfl
            omega
          exact ⟨by simp, (hpair _).mpr ⟨by simp [hne], by simp⟩⟩

/-- The first descriptor above a table of 1024: `psub_accept` writes to the entry behind it. -/
theorem accept_beyond_table :
    ¬∀ n, fdInit 1024 = some n →
      IndicesSafe 1024 (some 1024) (eventAcceptUses ⟨fun _ => 0, [], fun _ => none⟩ .pubsub false 3 (some 1024)) := by
  intro hsafe
  have hused : (1024 : Int) < 1024 := (hsafe 1024 rfl).inRange (.fdtab 1024) (by decide)
  omega

end tables

end ZeroServ
