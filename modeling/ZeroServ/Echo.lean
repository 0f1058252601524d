import ZeroServ.Buffer
import ZeroServ.Fd

/-!
# The echo service

`echo_read` and `echo_write` share one buffer, which `echo_write` rewinds once all of it is sent. What was sent and
what is pending are always what was received (`EchoConn.stream`). But `echo_read` asks `recv` for all the room that
is left and puts a terminator behind what it got, so a read that fills the buffer stores past its end, and the next
one, of no bytes, looks like the end of the connection. `echo_sound_iff` says which runs meet neither, nor a write
with nothing to send; `echo_udp_read` fails in the first way only.
-/

namespace ZeroServ

open CInt Run

/-- `HTTP_BUFFER_SIZE` of `echo.c`, and `UECHO_BUFFER_SIZE`. -/
def ECHO_BUFFER_SIZE : Nat := 4096

/-- What `recv` or `recvfrom` returns: bytes, an end of the stream, or an error. -/
inductive Recvd where
  | bytes (bytes : List UInt8)
  | closed
  | failed
  deriving DecidableEq, Repr

/-- What `send` returns: a number of bytes taken, or an error. -/
inductive SendResult where
  | taken (n : Nat)
  | failed
  deriving DecidableEq, Repr

namespace Buffer

variable (b : Buffer)

/-- `echo_read`: the buffer it leaves, what it returns and the bytes it stores at `r`. -/
def echoRead (got : Recvd) : Buffer × Flags × List UInt8 :=
  match got with
  | .bytes bytes =>
    if bytes.length > 0 then
      ({ b with mem := store b.mem b.r (bytes ++ [0]), r := b.r + bytes.length }, Zb.nop ||| Zb.setWr, bytes ++ [0])
    else (b, Zb.close, [])
  | .closed | .failed => (b, Zb.close, [])

/-- `echo_write` -/
def echoWrite (res : SendResult) : Buffer × Flags :=
  match res with
  | .taken n =>
    if n > 0 then
      let b := { b with curr := b.curr + n }
      if b.empty then (b.reset, Zb.closeWr) else (b, Zb.nop)
    else (b, Zb.close)
  | .failed => (b, Zb.close)

/-- `echo_udp_read` of a datagram, of which `recvfrom` drops what is more than it is asked for: the buffer it leaves,
none where it closes the socket, and the bytes it stores at `r`. -/
def echoUdpRead (got : Recvd) : Option Buffer × List UInt8 :=
  match got with
  | .bytes datagram =>
    let bytes := datagram.take (sizeT b.remainWrite)
    if bytes.length > 0 then
      (some { b with mem := store b.mem b.r (bytes ++ [0]), r := b.r + bytes.length }.reset, bytes ++ [0])
    else (none, [])
  | .closed | .failed => (none, [])

end Buffer

/-- `recv` of as many bytes as asked for delivers no more, and none only if it was asked for none. -/
def Recvd.possible (asked : Nat) : Recvd → Bool
  | .bytes got => got.length ≤ asked && (got ≠ [] || asked = 0)
  | .closed | .failed => true

/-- `send` takes no more than it is given. -/
def SendResult.possible (given : Nat) : SendResult → Bool
  | .taken n => n ≤ given
  | .failed => true

/-! ## A connection -/

/-- A connection: its buffer, and what was received and sent on it. `ret` is what its last callback returned; after
`ZB_CLOSE` the poller closes it. -/
structure EchoConn where
  ib : Buffer
  received : List UInt8
  sent : List UInt8
  ret : Flags

/-- A callback, with what its socket call returns. -/
inductive EchoEvent where
  | read (got : Recvd)
  | write (res : SendResult)
  deriving DecidableEq, Repr

/-- The socket call says that the peer closed the connection, or fails. -/
def EchoEvent.ends : EchoEvent → Bool
  | .read (.bytes _) | .write (.taken _) => false
  | .read .closed | .read .failed | .write .failed => true

namespace EchoConn

/-- What `echo_accept` leaves. -/
def accept (mem : Nat → UInt8) : EchoConn where
  ib := .init mem ECHO_BUFFER_SIZE
  received := []
  sent := []
  ret := Zb.nop

/-- The bytes that a callback receives. -/
def got : EchoEvent → List UInt8
  | .read (.bytes bytes) => bytes
  | _ => []

/-- The bytes that it sends. -/
def put (b : Buffer) : EchoEvent → List UInt8
  | .write (.taken n) => b.pending.take n
  | _ => []

/-- The socket call can return this: no more bytes than it was asked for. -/
def possible (b : Buffer) : EchoEvent → Bool
  | .read got => got.possible (sizeT b.remainWrite)
  | .write res => res.possible (sizeT b.remainRead)

/-- The buffer a callback leaves, what it returns, and the bytes it stores at `r`. -/
def callback (b : Buffer) : EchoEvent → Buffer × Flags × List UInt8
  | .read got => b.echoRead got
  | .write res => ((b.echoWrite res).1, (b.echoWrite res).2, [])

/-- One callback, while the connection is open. -/
def step (c : EchoConn) (e : EchoEvent) : Option EchoConn :=
  if c.ret ≠ Zb.close && possible c.ib e then
    some
      { ib := (callback c.ib e).1, received := c.received ++ got e
        sent := c.sent ++ put c.ib e, ret := (callback c.ib e).2.1 }
  else none

/-- What was sent and what is pending are what was received. -/
def Stream (c : EchoConn) : Prop := c.sent ++ c.ib.pending = c.received

/-- The callback stores inside the buffer, and closes the connection only if the peer did or its socket call failed. -/
def Sound (c : EchoConn) (e : EchoEvent) (c' : EchoConn) : Prop :=
  ((callback c.ib e).2.2 ≠ [] → c.ib.r + (callback c.ib e).2.2.length ≤ c.ib.total) ∧
    (c'.ret = Zb.close → e.ends = true)

/-- A read gets fewer bytes than there is room for, and a write has something to send of which some is taken. -/
def Roomy (c : EchoConn) (e : EchoEvent) (_ : EchoConn) : Prop :=
  match e with
  | .read (.bytes bytes) => bytes.length < c.ib.total - c.ib.r
  | .write (.taken n) => 0 < n
  | _ => True

/-- The buffer of a connection: what is pending lies inside it. -/
structure Inv (c : EchoConn) : Prop where
  total : c.ib.total = ECHO_BUFFER_SIZE
  curr_le : c.ib.curr ≤ c.ib.r
  r_le : c.ib.r ≤ c.ib.total
  stream : c.Stream

variable {c c' : EchoConn} {e : EchoEvent}

theorem step_eq (hs : step c e = some c') :
    possible c.ib e = true ∧
      c' =
        { ib := (callback c.ib e).1, received := c.received ++ got e
          sent := c.sent ++ put c.ib e, ret := (callback c.ib e).2.1 } := by
  obtain ⟨hc, hc'⟩ := Option.ite_none_right_eq_some.mp hs
  exact ⟨(Bool.and_eq_true_iff.mp hc).2, (Option.some.inj hc').symm⟩

/-- A read is asked for the room that is left. -/
theorem Inv.asked (hi : c.Inv) : sizeT c.ib.remainWrite = c.ib.total - c.ib.r := by
  have ht := hi.total
  have hr := hi.r_le
  unfold ECHO_BUFFER_SIZE at ht
  rw [Buffer.remainWrite_eq (by omega) hr, sizeT_of_nonneg (by omega) (by omega)]
  omega

/-- A write is given what is pending. -/
theorem Inv.given (hi : c.Inv) : sizeT c.ib.remainRead = c.ib.r - c.ib.curr := by
  have ht := hi.total
  have hr := hi.r_le
  have hc := hi.curr_le
  unfold ECHO_BUFFER_SIZE at ht
  rw [Buffer.remainRead_eq (by omega) hc hr, sizeT_of_nonneg (by omega) (by omega)]
  omega

theorem inv_accept (mem : Nat → UInt8) : (accept mem).Inv := ⟨rfl, Nat.le_refl 0, Nat.zero_le _, rfl⟩

theorem inv_read {bytes : List UInt8} (hi : c.Inv) (hs : step c (.read (.bytes bytes)) = some c') : c'.Inv := by
  obtain ⟨hp, rfl⟩ := step_eq hs
  have hle : bytes.length ≤ c.ib.total - c.ib.r := by
    have hle := (Bool.and_eq_true_iff.mp hp).1
    rwa [hi.asked, decide_eq_true_eq] at hle
  have hr := hi.r_le
  by_cases h0 : bytes.length > 0
  · simp only [callback, Buffer.echoRead, if_pos h0]
    refine ⟨hi.total, hi.curr_le.trans (Nat.le_add_right ..), by dsimp only; omega, ?_⟩
    show (c.sent ++ []) ++ _ = c.received ++ bytes
    rw [Buffer.pending_store c.ib bytes [0] hi.curr_le, List.append_nil, ← List.append_assoc, hi.stream]
  · obtain rfl := List.eq_nil_of_length_eq_zero (Nat.eq_zero_of_not_pos h0)
    simp only [callback, Buffer.echoRead, got, put, List.append_nil]
    exact ⟨hi.total, hi.curr_le, hi.r_le, hi.stream⟩

theorem inv_write {n : Nat} (hi : c.Inv) (hs : step c (.write (.taken n)) = some c') : c'.Inv := by
  obtain ⟨hp, rfl⟩ := step_eq hs
  have hle : n ≤ c.ib.r - c.ib.curr := by
    have hle : n ≤ sizeT c.ib.remainRead := of_decide_eq_true hp
    rwa [hi.given] at hle
  have hc := hi.curr_le
  have hsent : c.sent ++ c.ib.pending.take n ++ Buffer.pending { c.ib with curr := c.ib.curr + n } = c.received := by
    rw [List.append_assoc, Buffer.pending_consume c.ib hle, hi.stream]
  by_cases h0 : n > 0
  · simp only [callback, Buffer.echoWrite, if_pos h0, put, got, List.append_nil]
    split
    · next hempty =>
      -- all is sent, so rewinding leaves nothing pending as before
      have hnone : Buffer.pending { c.ib with curr := c.ib.curr + n } = [] := by
        have hend : c.ib.r = c.ib.curr + n := of_decide_eq_true hempty
        simp [Buffer.pending, hend]
      refine ⟨hi.total, Nat.le_refl 0, Nat.zero_le _, ?_⟩
      rw [hnone] at hsent
      exact hsent
    · exact ⟨hi.total, by dsimp only; omega, hi.r_le, hsent⟩
  · obtain rfl := Nat.eq_zero_of_not_pos h0
    simp only [callback, Buffer.echoWrite, put, got, List.append_nil, List.take_zero]
    exact ⟨hi.total, hi.curr_le, hi.r_le, hi.stream⟩

/-- A callback whose call fails, or finds the peer gone, leaves the buffer. -/
theorem inv_ends (hi : c.Inv) (he : e.ends = true) (hs : step c e = some c') : c'.Inv := by
  obtain ⟨-, rfl⟩ := step_eq hs
  have hsame : (callback c.ib e).1 = c.ib ∧ got e = [] ∧ put c.ib e = [] := by
    rcases e with (bytes | _ | _) | (n | _)
    · nomatch he
    · exact ⟨rfl, rfl, rfl⟩
    · exact ⟨rfl, rfl, rfl⟩
    · nomatch he
    · exact ⟨rfl, rfl, rfl⟩
  obtain ⟨hib, hgot, hput⟩ := hsame
  rw [hib, hgot, hput, List.append_nil, List.append_nil]
  exact ⟨hi.total, hi.curr_le, hi.r_le, hi.stream⟩

theorem inv_step (hi : c.Inv) (hs : step c e = some c') : c'.Inv := by
  rcases e with (bytes | _ | _) | (n | _)
  · exact inv_read hi hs
  · exact inv_ends hi rfl hs
  · exact inv_ends hi rfl hs
  · exact inv_write hi hs
  · exact inv_ends hi rfl hs

/-- A callback is sound exactly where it has room, or something to send. -/
theorem sound_iff (hi : c.Inv) (hs : step c e = some c') : Sound c e c' ↔ Roomy c e c' := by
  obtain ⟨hp, rfl⟩ := step_eq hs
  have hr := hi.r_le
  rcases e with (bytes | _ | _) | (n | _)
  · have hnil : bytes = [] → c.ib.total - c.ib.r = 0 := by
      have hnil := (Bool.and_eq_true_iff.mp hp).2
      rw [hi.asked] at hnil
      simpa [or_iff_not_imp_left] using hnil
    by_cases h0 : bytes.length > 0
    · simp only [Sound, Roomy, callback, Buffer.echoRead, if_pos h0, List.length_append, List.length_singleton]
      constructor
      · intro h
        have hroom := h.1 (by simp)
        omega
      · intro h
        exact ⟨fun _ => by omega, fun hret => absurd hret (by decide)⟩
    · -- a read of no bytes, because there was no room
      obtain rfl := List.eq_nil_of_length_eq_zero (Nat.eq_zero_of_not_pos h0)
      refine iff_of_false (fun h => Bool.false_ne_true (h.2 rfl)) ?_
      rw [Roomy, hnil rfl]
      exact Nat.lt_irrefl 0
  · exact iff_of_true ⟨nofun, fun _ => rfl⟩ trivial
  · exact iff_of_true ⟨nofun, fun _ => rfl⟩ trivial
  · by_cases h0 : n > 0
    · refine iff_of_true ⟨nofun, fun hret => ?_⟩ h0
      simp only [callback, Buffer.echoWrite, if_pos h0] at hret
      split at hret
      · exact absurd (show Zb.closeWr = Zb.close from hret) (by decide)
      · exact absurd (show Zb.nop = Zb.close from hret) (by decide)
    · refine iff_of_false (fun h => Bool.false_ne_true (h.2 ?_)) h0
      simp only [callback, Buffer.echoWrite, if_neg h0]
  · exact iff_of_true ⟨nofun, fun _ => rfl⟩ trivial

/-- The stream is kept by every run, and every callback is sound just where it has room, or something to send. -/
theorem runs_iff (mem : Nat → UInt8) (es : List EchoEvent) :
    (AllStates step Stream (accept mem) es ∧ AllSteps step Sound (accept mem) es) ↔
      AllSteps step Roomy (accept mem) es := by
  have hinv : AllStates step Inv (accept mem) es := .of_step (inv_accept mem) (fun c e c' hi hs => inv_step hi hs) es
  have hiff : AllSteps step (fun c e c' => Sound c e c' ↔ Roomy c e c') (accept mem) es :=
    .of_allStates (fun c e c' hi hs _ => sound_iff hi hs) hinv
  constructor
  · rintro ⟨-, hsound⟩
    exact (hsound.and hiff).mono fun c e c' h => h.2.mp h.1
  · intro hroomy
    exact ⟨hinv.mono fun c hi => hi.stream, (hroomy.and hiff).mono fun c e c' h => h.2.mpr h.1⟩

end EchoConn

/-! ## The UDP socket -/

namespace EchoUdp

/-- What `echo_udp_init` leaves. -/
def init (mem : Nat → UInt8) : Option Buffer := some (.init mem ECHO_BUFFER_SIZE)

/-- One `echo_udp_read`, until the socket is closed. -/
def step (s : Option Buffer) (got : Recvd) : Option (Option Buffer) := s.map fun b => (b.echoUdpRead got).1

/-- Nothing is stored past the end of the buffer. -/
def Inside (s : Option Buffer) (got : Recvd) (_ : Option Buffer) : Prop :=
  ∀ b ∈ s, (b.echoUdpRead got).2 ≠ [] → b.r + (b.echoUdpRead got).2.length ≤ b.total

/-- The datagram is shorter than the buffer. -/
def Short (_ : Option Buffer) (got : Recvd) (_ : Option Buffer) : Prop :=
  match got with
  | .bytes datagram => datagram.length < ECHO_BUFFER_SIZE
  | _ => True

/-- Between two datagrams the buffer is rewound. -/
def Rewound (s : Option Buffer) : Prop := ∀ b ∈ s, b.total = ECHO_BUFFER_SIZE ∧ b.r = 0

theorem rewound_step {s s' : Option Buffer} {got : Recvd} (hi : Rewound s) (hs : step s got = some s') :
    Rewound s' := by
  obtain ⟨b, hb, rfl⟩ := Option.map_eq_some_iff.mp hs
  obtain ⟨ht, hr⟩ := hi b hb
  intro b' hb'
  cases got with
  | closed | failed => nomatch hb'
  | bytes datagram =>
    simp only [Buffer.echoUdpRead] at hb'
    split at hb'
    · obtain rfl := Option.mem_some_iff.mp hb'
      exact ⟨ht, rfl⟩
    · nomatch hb'

theorem inside_iff {s s' : Option Buffer} {got : Recvd} (hi : Rewound s) (hs : step s got = some s') :
    Inside s got s' ↔ Short s got s' := by
  obtain ⟨b, rfl, -⟩ := Option.map_eq_some_iff.mp hs
  obtain ⟨ht, hr⟩ := hi b rfl
  have hasked : sizeT b.remainWrite = ECHO_BUFFER_SIZE := by
    unfold ECHO_BUFFER_SIZE at ht ⊢
    rw [Buffer.remainWrite_eq (by omega) (by omega), sizeT_of_nonneg (by omega) (by omega)]
    omega
  have hpos : 0 < ECHO_BUFFER_SIZE := by decide
  cases got with
  | closed | failed => exact iff_of_true nofun trivial
  | bytes datagram =>
    simp only [Inside, Option.mem_some_iff, forall_eq', Buffer.echoUdpRead, hasked, Short, ht, hr]
    by_cases h0 : (datagram.take ECHO_BUFFER_SIZE).length > 0
    · rw [if_pos h0, List.length_append, List.length_take, List.length_singleton]
      constructor
      · intro h
        have hroom := h (by simp)
        omega
      · intro h _
        omega
    · rw [if_neg h0]
      rw [List.length_take] at h0
      exact iff_of_true (fun h => absurd rfl h) (by omega)

theorem runs_iff (mem : Nat → UInt8) (gots : List Recvd) :
    AllSteps step Inside (init mem) gots ↔ AllSteps step Short (init mem) gots := by
  have hinit : Rewound (init mem) := by
    intro b hb
    obtain rfl := Option.mem_some_iff.mp hb
    exact ⟨rfl, rfl⟩
  have hinv : AllStates step Rewound (init mem) gots := .of_step hinit (fun s got s' hi hs => rewound_step hi hs) gots
  have hiff : AllSteps step (fun s got s' => Inside s got s' ↔ Short s got s') (init mem) gots :=
    .of_allStates (fun s got s' hi hs _ => inside_iff hi hs) hinv
  constructor
  · intro h
    exact (h.and hiff).mono fun s got s' h => h.2.mp h.1
  · intro h
    exact (h.and hiff).mono fun s got s' h => h.2.mpr h.1

end EchoUdp

/-- What the service promises of the callbacks of a connection, and of the datagrams a UDP socket receives. -/
def EchoSound (mem : Nat → UInt8) (es : List EchoEvent) (gots : List Recvd) : Prop :=
  (AllStates EchoConn.step EchoConn.Stream (.accept mem) es ∧ AllSteps EchoConn.step EchoConn.Sound (.accept mem) es) ∧
    AllSteps EchoUdp.step EchoUdp.Inside (EchoUdp.init mem) gots

/-- The echo service returns the stream it receives, keeps to its buffers, and closes a connection for no reason of
its own exactly where no read fills the buffer, or finds it full, where no write is called with nothing to send, and
where every datagram is shorter than the buffer. -/
theorem echo_sound_iff (mem : Nat → UInt8) (es : List EchoEvent) (gots : List Recvd) :
    EchoSound mem es gots ↔
      AllSteps EchoConn.step EchoConn.Roomy (.accept mem) es ∧
      AllSteps EchoUdp.step EchoUdp.Short (EchoUdp.init mem) gots :=
  and_congr (EchoConn.runs_iff mem es) (EchoUdp.runs_iff mem gots)

/-- A read that fills the buffer to its last byte puts its terminator behind the end. -/
theorem echo_terminator_outside : ¬∀ (mem : Nat → UInt8) (es : List EchoEvent)
    (gots : List Recvd), EchoSound mem es gots := by
  intro h
  have hsound := (h (fun _ => 0) [.read (.bytes (List.replicate 4096 97))] []).1.2
  have hlen : (List.replicate 4096 (97 : UInt8)).length = 4096 := List.length_replicate
  generalize List.replicate 4096 (97 : UInt8) = bytes at hsound hlen
  have hnil : bytes ≠ [] := List.ne_nil_of_length_pos (by omega)
  have hasked : sizeT (EchoConn.accept fun _ => 0).ib.remainWrite = 4096 := by decide +kernel
  have hpossible : ((EchoConn.accept fun _ => 0).ret ≠ Zb.close &&
      EchoConn.possible (EchoConn.accept fun _ => 0).ib (.read (.bytes bytes))) = true := by
    have hret : (EchoConn.accept fun _ => 0).ret ≠ Zb.close := by decide
    simp [EchoConn.possible, Recvd.possible, hasked, hlen, hnil, hret]
  have hstored : (EchoConn.callback (EchoConn.accept fun _ => 0).ib (.read (.bytes bytes))).2.2 = bytes ++ [0] := by
    simp [EchoConn.callback, Buffer.echoRead, hlen]
  have hinside := (hsound _ (if_pos hpossible)).1.1
  rw [hstored, List.length_append, hlen] at hinside
  exact absurd (hinside (by simp)) (by decide)

end ZeroServ
