import ZeroServ.Memcached.Turns

/-!
# The loop of `mc_read`

`View.mcRead` runs turn after turn. With bytes in the item's way the loop always gets on, and it leaves a connection
that is being closed; in `conn_read` it gets on with what `recv` brings, and with nothing more to bring it turns
without end.
-/

namespace ZeroServ.Mc

open CString

section reading

variable (hash : List UInt8 → UInt32)

/-- The first turns of the loop of `mc_read`, the `k`th of which meets `envs k`. -/
def View.mcRead : Nat → (Nat → Env) → View → Except End (View × Next)
  | 0, _, v => .ok (v, .go)
  | n + 1, envs, v => do
    match ← v.turn hash (envs 0) with
    | (v, .go) => mcRead n (fun k => envs (k + 1)) v
    | (v, .stop) => pure (v, .stop)
    | (v, .closed) => pure (v, .closed)

/-- After some turns the loop does not go on. The end of the process counts as returning: in `conn_nread` the loop may
come to it in `read_bytes` or in `complete_nread`. -/
def View.Returns (envs : Nat → Env) (v : View) : Prop := ∃ n, ∀ v', v.mcRead hash n envs ≠ .ok (v', .go)

end reading

/-- `recv` says that the stream has ended, or has failed in a way that is not waited out. -/
def Recv.ends : Recv → Bool
  | .bytes bs => bs.isEmpty
  | .eof => true
  | .failed e => e ≠ .again

/-- What the loop needs to end: in `conn_read` the end of a line or of the stream, or as many bytes as fill the
buffer. -/
def Conn.Ending (c : Conn) : Prop :=
  match c.state with
  | .read =>
    10 ∈ c.ib.bytes ++ stream c.sock ∨ (∃ r ∈ c.sock, r.ends) ∨ MC_BUFFER_SIZE ≤ c.ib.r + (stream c.sock).length
  | .nread | .closing => True
  | .listening | .write | .swallow | .mwrite => False

variable {hash : List UInt8 → UInt32} {envs : Nat → Env} {env : Env} {v v' : View}

/-! ## The loop turn by turn -/

theorem returns_of_turn (h : ∀ v', v.turn hash (envs 0) = .ok (v', .go) → v'.Returns hash fun k => envs (k + 1)) :
    v.Returns hash envs := by
  cases hturn : v.turn hash (envs 0) with
  | error e =>
    refine ⟨1, fun v' hrun => ?_⟩
    rw [View.mcRead, hturn] at hrun
    nomatch hrun
  | ok r =>
    obtain ⟨v₁, next⟩ := r
    cases next with
    | go =>
      obtain ⟨n, hn⟩ := h v₁ hturn
      refine ⟨n + 1, fun v' hrun => ?_⟩
      rw [View.mcRead, hturn] at hrun
      exact hn v' hrun
    | stop | closed =>
      refine ⟨1, fun v' hrun => ?_⟩
      rw [View.mcRead, hturn] at hrun
      nomatch hrun

theorem returns_go_iff (hturn : v.turn hash (envs 0) = .ok (v', .go)) :
    v.Returns hash envs ↔ v'.Returns hash fun k => envs (k + 1) := by
  constructor
  · rintro ⟨n, hn⟩
    cases n with
    | zero => exact absurd rfl (hn v)
    | succ n =>
      refine ⟨n, fun v₁ hrun => hn v₁ ?_⟩
      rw [View.mcRead, hturn]
      exact hrun
  · intro h
    refine returns_of_turn fun v₁ h₁ => ?_
    rw [hturn, Except.ok.injEq, Prod.mk.injEq] at h₁
    exact h₁.1 ▸ h

/-! ## Data and the end -/

theorem closing_returns (hstate : v.c.state = .closing) : v.Returns hash envs := by
  refine returns_of_turn fun v' h => ?_
  cases turn_cases h with
  | await h' => rw [hstate] at h'; nomatch h'
  | network h' => rw [hstate] at h'; nomatch h'
  | copy h' => rw [hstate] at h'; nomatch h'
  | recvd h' => rw [hstate] at h'; nomatch h'
  | failed h' => rw [hstate] at h'; nomatch h'
  | spin h' => exact absurd hstate h'.2.2

/-- While data are missing each turn brings some, or closes the connection. -/
theorem nread_returns {m : Nat} (hstate : v.c.state = .nread) (hm : v.c.rlbytes = m) : v.Returns hash envs := by
  induction m using Nat.strong_induction_on generalizing v envs with
  | _ m ih =>
    refine returns_of_turn fun v' h => ?_
    cases turn_cases h with
    | await h' => rw [hstate] at h'; nomatch h'
    | network h' => rw [hstate] at h'; nomatch h'
    | copy h' hrl hne hit hx hdata =>
      have hlen : 0 < (v.c.ib.bytes.take v.c.rlbytes).length := by
        rw [List.length_take]
        have := List.length_pos_iff.mpr hne
        omega
      exact ih (v.c.rlbytes - (v.c.ib.bytes.take v.c.rlbytes).length) (by omega) hstate rfl
    | @recvd _ got _ h' hrl hemp hne hlen hs hroom hstore hc =>
      have hpos := List.length_pos_iff.mpr hne
      refine ih (v.c.rlbytes - got.length) (by omega) ?_ ?_
      · rw [hc]
        exact hstate
      · rw [hc]
    | failed h' hrl hemp hs hstore hc =>
      refine closing_returns ?_
      rw [hc]
    | spin h' => exact absurd hstate h'.2.1

/-! ## Lines -/

theorem readBytes_room (hroom : v.c.ib.r < MC_BUFFER_SIZE) :
    v.readBytes v.c.ib.remainWrite = .ok (v.recv (MC_BUFFER_SIZE - v.c.ib.r)) := by
  have hn : v.c.ib.remainWrite.toNat = MC_BUFFER_SIZE - v.c.ib.r := by
    rw [Buf.remainWrite]
    omega
  rw [View.readBytes, if_neg, hn]
  rw [Buf.remainWrite]
  omega

/-- `read_bytes` ends the process when the buffer is full. -/
theorem readBytes_full (hfull : MC_BUFFER_SIZE ≤ v.c.ib.r) : v.readBytes v.c.ib.remainWrite = .error .exited := by
  rw [View.readBytes, if_pos]
  rw [Buf.remainWrite]
  omega

/-- `try_read_network` after its first `recv`. -/
theorem tryReadNetwork_of_recv {v₁ : View} {res : Int} (hroom : v.c.ib.r < MC_BUFFER_SIZE)
    (hrecv : v.recv (MC_BUFFER_SIZE - v.c.ib.r) = (v₁, res)) :
    v.tryReadNetwork =
      if res > 0 then
        if res = v.c.ib.remainWrite then do
          let _ ← (v₁.countRead res).readBytes (v₁.countRead res).c.ib.remainWrite
          pure (v₁.countRead res)
        else .ok (v₁.countRead res)
      else if res = -1 && v₁.errno = .again then .ok v₁ else .ok (v₁.setState .closing) := by
  rw [View.tryReadNetwork]
  dsimp only
  rw [readBytes_room hroom, hrecv]
  rfl

theorem recv_bytes {bs : List UInt8} {rest : List Recv} (hs : v.c.sock = .bytes bs :: rest) {n : Nat}
    (hle : bs.length ≤ n) :
    v.recv n = ({ v with c := { v.c with sock := rest, ib := v.c.ib.put bs } }, (bs.length : Int)) := by
  rw [View.recv, hs]
  dsimp only
  rw [if_pos hle, List.take_of_length_le hle]

/-- Nothing comes, and `try_read_network` says that something has. -/
theorem tryReadNetwork_nil (hroom : v.c.ib.r < MC_BUFFER_SIZE) (hs : v.c.sock = []) :
    v.tryReadNetwork = .ok { v with errno := .again } := by
  have hrecv : v.recv (MC_BUFFER_SIZE - v.c.ib.r) = ({ v with errno := .again }, -1) := by rw [View.recv, hs]
  rw [tryReadNetwork_of_recv hroom hrecv, if_neg (by decide), if_pos (by simp)]

theorem tryReadNetwork_again {rest : List Recv} (hroom : v.c.ib.r < MC_BUFFER_SIZE)
    (hs : v.c.sock = .failed .again :: rest) :
    v.tryReadNetwork = .ok { v with errno := .again, c := { v.c with sock := rest } } := by
  have hrecv : v.recv (MC_BUFFER_SIZE - v.c.ib.r) =
      ({ v with errno := .again, c := { v.c with sock := rest } }, -1) := by
    rw [View.recv, hs]
  rw [tryReadNetwork_of_recv hroom hrecv, if_neg (by decide), if_pos (by simp)]

theorem tryReadNetwork_full (hfull : MC_BUFFER_SIZE ≤ v.c.ib.r) : v.tryReadNetwork = .error .exited := by
  rw [View.tryReadNetwork]
  dsimp only
  rw [readBytes_full hfull]
  rfl

/-- The connection is to be closed. -/
theorem tryReadNetwork_ends {r : Recv} {rest : List Recv} (hroom : v.c.ib.r < MC_BUFFER_SIZE)
    (hs : v.c.sock = r :: rest)
    (hends : r.ends = true) : ∃ v', v.tryReadNetwork = .ok v' ∧ v'.c.state = .closing := by
  cases r with
  | bytes bs =>
    obtain rfl := List.isEmpty_iff.mp hends
    rw [tryReadNetwork_of_recv hroom (recv_bytes hs (Nat.zero_le _)), if_neg (by simp), if_neg (by simp)]
    exact ⟨_, rfl, rfl⟩
  | eof =>
    have hrecv : v.recv (MC_BUFFER_SIZE - v.c.ib.r) = ({ v with c := { v.c with sock := rest } }, 0) := by
      rw [View.recv, hs]
    rw [tryReadNetwork_of_recv hroom hrecv, if_neg (by decide), if_neg (by simp)]
    exact ⟨_, rfl, rfl⟩
  | failed e =>
    have he : e ≠ .again := of_decide_eq_true hends
    have hrecv : v.recv (MC_BUFFER_SIZE - v.c.ib.r) = ({ v with errno := e, c := { v.c with sock := rest } }, -1) := by
      rw [View.recv, hs]
    rw [tryReadNetwork_of_recv hroom hrecv, if_neg (by decide), if_neg (by simp [he])]
    exact ⟨_, rfl, rfl⟩

/-- What comes leaves room for more. -/
theorem tryReadNetwork_bytes {bs : List UInt8} {rest : List Recv} (hne : bs ≠ [])
    (hroom : v.c.ib.r + bs.length < MC_BUFFER_SIZE) (hs : v.c.sock = .bytes bs :: rest) :
    ∃ v', v.tryReadNetwork = .ok v' ∧ v'.c = { v.c with sock := rest, ib := v.c.ib.put bs } ∧ v'.store = v.store ∧
      v'.errno = v.errno := by
  have hpos : 0 < bs.length := List.length_pos_iff.mpr hne
  rw [tryReadNetwork_of_recv (by omega) (recv_bytes hs (by omega)), if_pos (by omega),
    if_neg (by rw [Buf.remainWrite]; omega)]
  exact ⟨_, rfl, rfl, rfl, rfl⟩

/-- What comes fills the buffer. -/
theorem tryReadNetwork_bytes_full {bs : List UInt8} {rest : List Recv} (hfull : MC_BUFFER_SIZE ≤ v.c.ib.r + bs.length)
    (hs : v.c.sock = .bytes bs :: rest) : v.tryReadNetwork = .error .exited := by
  by_cases hroom : v.c.ib.r < MC_BUFFER_SIZE
  · have hlen : (bs.take (MC_BUFFER_SIZE - v.c.ib.r)).length = MC_BUFFER_SIZE - v.c.ib.r := by
      rw [List.length_take]
      omega
    obtain ⟨v₁, hrecv, hr⟩ : ∃ v₁ : View,
        v.recv (MC_BUFFER_SIZE - v.c.ib.r) = (v₁, ((MC_BUFFER_SIZE - v.c.ib.r : Nat) : Int)) ∧
        v₁.c.ib.r = MC_BUFFER_SIZE := by
      rw [View.recv, hs]
      dsimp only
      rw [hlen]
      refine ⟨_, rfl, ?_⟩
      simp only [Buf.put, hlen]
      omega
    rw [tryReadNetwork_of_recv hroom hrecv, if_pos (by omega), if_pos (by rw [Buf.remainWrite]; omega),
      readBytes_full (by rw [View.countRead, hr])]
    rfl
  · exact tryReadNetwork_full (Nat.not_lt.mp hroom)

/-- The turn of `conn_read` where no line is complete. -/
theorem turn_read (hstate : v.c.state = .read) (hline : 10 ∉ v.c.ib.bytes) :
    v.turn hash env = (do pure (← v.tryReadNetwork, .go)) := by
  rw [View.turn, hstate]
  dsimp only
  rw [View.tryReadCommand, if_neg hline]
  rfl

/-- The turn of `conn_read` where a line is complete. -/
theorem turn_line (hstate : v.c.state = .read) (hline : 10 ∈ v.c.ib.bytes) :
    v.turn hash env = (v.processCommand hash (commandOf (nextLine v.c.ib.bytes)) env >>= fun v₁ =>
      .ok ({ v₁ with c := { v₁.c with ib := v₁.c.ib.advance ((nextLine v.c.ib.bytes).length + 1) } },
        if v₁.c.wr then .stop else .go)) := by
  rw [View.turn, hstate]
  dsimp only
  rw [View.tryReadCommand, if_pos hline]
  dsimp only
  change ((v.processCommand hash (commandOf (nextLine v.c.ib.bytes)) env >>= _) >>= _) = _
  rw [bind_assoc]
  rfl

/-- A complete line ends the loop, after the data where it is an update. -/
theorem line_returns (hstate : v.c.state = .read) (hline : 10 ∈ v.c.ib.bytes) : v.Returns hash envs := by
  refine returns_of_turn fun v' h => ?_
  cases turn_cases h with
  | await _ _ _ hacc _ =>
    obtain ⟨it, -, -, -, hc⟩ := hacc.alloc
    refine nread_returns ?_ rfl
    dsimp only
    rw [hc]
  | network _ hno => exact absurd hline hno
  | copy h' => rw [hstate] at h'; nomatch h'
  | recvd h' => rw [hstate] at h'; nomatch h'
  | failed h' => rw [hstate] at h'; nomatch h'
  | spin h' => exact absurd hstate h'.1

/-- With nothing to read the loop turns without end. -/
theorem idle_spins (hstate : v.c.state = .read) (hline : 10 ∉ v.c.ib.bytes) (hroom : v.c.ib.r < MC_BUFFER_SIZE)
    (hs : v.c.sock = []) : ¬ v.Returns hash envs := by
  rintro ⟨n, hn⟩
  have hall : ∀ (n : Nat) (envs : Nat → Env) (v : View), v.c.state = .read → 10 ∉ v.c.ib.bytes →
      v.c.ib.r < MC_BUFFER_SIZE →
      v.c.sock = [] → ∃ v', v.mcRead hash n envs = .ok (v', .go) := by
    intro n
    induction n with
    | zero => exact fun _ v _ _ _ _ => ⟨v, rfl⟩
    | succ n ih =>
      intro envs v hstate hline hroom hs
      obtain ⟨v', hv'⟩ := ih (fun k => envs (k + 1)) { v with errno := .again } hstate hline hroom hs
      refine ⟨v', ?_⟩
      rw [View.mcRead, turn_read hstate hline, tryReadNetwork_nil hroom hs]
      exact hv'
  obtain ⟨v', hv'⟩ := hall n envs v hstate hline hroom hs
  exact hn v' hv'

/-- With no line complete the rest is up to `try_read_network`. -/
theorem returns_network (hstate : v.c.state = .read) (hline : 10 ∉ v.c.ib.bytes) (hnet : v.tryReadNetwork = .ok v') :
    v.Returns hash envs ↔ v'.Returns hash fun k => envs (k + 1) := by
  refine returns_go_iff ?_
  rw [turn_read hstate hline, hnet]
  rfl

theorem exited_returns (hstate : v.c.state = .read) (hline : 10 ∉ v.c.ib.bytes)
    (hnet : v.tryReadNetwork = .error .exited) :
    v.Returns hash envs := by
  refine returns_of_turn fun v' h => ?_
  rw [turn_read hstate hline, hnet] at h
  nomatch h

/-- In `conn_read` the loop ends exactly when what it needs comes: by induction on the results of `recv`. -/
theorem read_returns_iff (hstate : v.c.state = .read) :
    v.Returns hash envs ↔
      10 ∈ v.c.ib.bytes ++ stream v.c.sock ∨ (∃ r ∈ v.c.sock, r.ends) ∨
      MC_BUFFER_SIZE ≤ v.c.ib.r + (stream v.c.sock).length := by
  generalize hs : v.c.sock = sock
  induction sock generalizing v envs with
  | nil =>
    by_cases hline : 10 ∈ v.c.ib.bytes
    · exact iff_of_true (line_returns hstate hline) (.inl (List.mem_append_left _ hline))
    · by_cases hroom : v.c.ib.r < MC_BUFFER_SIZE
      · refine iff_of_false (idle_spins hstate hline hroom hs) ?_
        simp [hline, hroom]
      · have hfull := Nat.not_lt.mp hroom
        exact iff_of_true (exited_returns hstate hline (tryReadNetwork_full hfull)) (.inr (.inr hfull))
  | cons r rest ih =>
    by_cases hline : 10 ∈ v.c.ib.bytes
    · exact iff_of_true (line_returns hstate hline) (.inl (List.mem_append_left _ hline))
    · by_cases hroom : v.c.ib.r < MC_BUFFER_SIZE
      · by_cases hends : r.ends = true
        · obtain ⟨v', hnet, hclosing⟩ := tryReadNetwork_ends hroom hs hends
          refine iff_of_true ((returns_network hstate hline hnet).mpr (closing_returns hclosing)) ?_
          exact .inr (.inl ⟨r, List.mem_cons_self, hends⟩)
        · cases r with
          | bytes bs =>
            have hne : bs ≠ [] := by
              rintro rfl
              exact hends rfl
            by_cases hfit : v.c.ib.r + bs.length < MC_BUFFER_SIZE
            · obtain ⟨v', hnet, hc, -⟩ := tryReadNetwork_bytes hne hfit hs
              have hrest : v'.Returns hash (fun k => envs (k + 1)) ↔ _ := ih (by rw [hc]; exact hstate) (by rw [hc])
              rw [returns_network hstate hline hnet, hrest, hc]
              simp only [Buf.put, stream_bytes, List.append_assoc, List.length_append, List.mem_cons,
                exists_eq_or_imp, hends, false_or, Nat.add_assoc, Bool.false_eq_true]
            · refine iff_of_true (exited_returns hstate hline (tryReadNetwork_bytes_full (Nat.not_lt.mp hfit) hs))
                (.inr (.inr ?_))
              rw [stream_bytes, List.length_append]
              omega
          | eof => exact absurd rfl hends
          | failed e =>
            obtain rfl : e = .again := by simpa [Recv.ends] using hends
            have hrest : View.Returns hash (fun k => envs (k + 1))
                { v with errno := .again, c := { v.c with sock := rest } } ↔ _ := ih hstate rfl
            rw [returns_network hstate hline (tryReadNetwork_again hroom hs), hrest]
            simp [hends]
      · have hfull := Nat.not_lt.mp hroom
        refine iff_of_true (exited_returns hstate hline (tryReadNetwork_full hfull)) (.inr (.inr ?_))
        omega

/-- In a state the loop has no case for it turns without end. -/
theorem spin_spins (hstate : v.c.state ≠ .read ∧ v.c.state ≠ .nread ∧ v.c.state ≠ .closing) :
    ¬ v.Returns hash envs := by
  rintro ⟨n, hn⟩
  have hturn : ∀ env, v.turn hash env = .ok (v, .go) := by
    intro env
    rw [View.turn]
    cases hv : v.c.state with
    | read => exact absurd hv hstate.1
    | nread => exact absurd hv hstate.2.1
    | closing => exact absurd hv hstate.2.2
    | listening | write | swallow | mwrite => rfl
  have hall : ∀ (n : Nat) (envs : Nat → Env), v.mcRead hash n envs = .ok (v, .go) := by
    intro n
    induction n with
    | zero => exact fun _ => rfl
    | succ n ih =>
      intro envs
      rw [View.mcRead, hturn]
      exact ih _
  exact hn v (hall n envs)

/-- `mc_read` returns, whatever state the connection is in and whatever `recv` brings, exactly when the state is one
of those it knows and, in `conn_read`, the end of a line or of the stream comes or the buffer is filled. -/
theorem mcRead_returns_iff (hash : List UInt8 → UInt32) (envs : Nat → Env) (v : View) :
    v.Returns hash envs ↔ v.c.Ending := by
  rw [Conn.Ending]
  cases hstate : v.c.state with
  | read => exact read_returns_iff hstate
  | nread => exact iff_of_true (nread_returns hstate rfl) trivial
  | closing => exact iff_of_true (closing_returns hstate) trivial
  | listening | write | swallow | mwrite => exact iff_of_false (spin_spins (by simp [hstate])) id

/-- An accepted client sends `get a` without the line feed and waits. -/
theorem incomplete_line_spins :
    ¬ ((World.init 1).view (.init [.bytes (lit "get a"), .failed .again])).Returns (fun _ => 0)
      fun _ => ⟨0, false, none, fun _ => 0⟩ := by
  rw [read_returns_iff rfl]
  decide

end ZeroServ.Mc
