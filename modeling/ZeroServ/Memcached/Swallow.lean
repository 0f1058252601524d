import ZeroServ.Memcached.Pipeline
import ZeroServ.Memcached.Verdict

/-!
# The data of a refused update

Where `item_alloc` fails, `process_update_command` notes `conn_swallow` and the length of the data block in
`write_and_go` and `sbytes`, which nothing reads: the connection goes on in `conn_read`. What becomes of the block is
left to `mc_write`, which drops what is unread as it resets the input buffer. `swallows_iff_dropped` says of every
run of the connections when that is the block.
-/

namespace ZeroServ.Mc

open Run CString

/-- What is owed to a client after a refused update: what it sends behind the line, the length of the block at the
start of that, and how many bytes have been dropped since. -/
structure Owed where
  behind : List UInt8
  block : Nat
  dropped : Nat

/-- The world, and what is owed to the client of a connection. -/
structure Watched where
  world : World
  owed : Option Owed

/-- The length of the data block of an update that `item_alloc` fails for. -/
def refusedBlock (tokens : List (List UInt8)) (errno : Errno) (mem : Option Ptr) : Option Nat :=
  if (updateOf tokens).isSome ∧ ¬LongKey tokens ∧ (Numbers.read tokens errno).bad = false ∧
      (mem = none ∨ 2 ^ 31 ≤ (Numbers.read tokens errno).vlen.toNat + 2) then
    some ((Numbers.read tokens errno).vlen.toNat + 2)
  else none

namespace World

variable (w : World)

/-- The connection for which a call processes a command. -/
def commanding (fd : Fd) : Call → Option Conn
  | .turn _ => (if w.running = some fd then w.conn fd else none).filter fun c => c.state = .read ∧ 10 ∈ c.ib.bytes
  | .accept _ _ | .read _ | .write _ _ => none

/-- The unread bytes that `mc_write` drops with the last of what it sends. -/
def dropping (fd : Fd) : Call → Nat
  | .write fd' n =>
    if fd' = fd ∧ 0 < n then ((w.conn fd).map fun c => if c.ob.bytes.length = n then c.ib.bytes.length else 0).getD 0
    else 0
  | .accept _ _ | .read _ | .turn _ => 0

/-- What is owed after a command of the connection. -/
def owes (c : Conn) : Call → Option Owed
  | .turn env =>
    (refusedBlock (tokenizeCommand (commandOf (nextLine c.ib.bytes)) MAX_TOKENS).1 w.errno env.mem).map fun block =>
      { behind := c.ib.bytes.drop ((nextLine c.ib.bytes).length + 1) ++ stream c.sock, block, dropped := 0 }
  | .accept _ _ | .read _ | .write _ _ => none

/-- The call accepts a client on the descriptor. -/
def accepts (fd : Fd) : Call → Bool
  | .accept fd' _ => fd' = fd
  | .read _ | .turn _ | .write _ _ => false

end World

namespace Watched

variable (hash : List UInt8 → UInt32) (fd : Fd) (s : Watched)

/-- What is owed after a call. -/
def next (e : Call) : Option Owed :=
  match s.world.commanding fd e with
  | some c => s.world.owes c e
  | none =>
    if World.accepts fd e then none else s.owed.map fun o => { o with dropped := o.dropped + s.world.dropping fd e }

def step (e : Call) : Option Watched := (s.world.step hash e).map fun w' => { world := w', owed := s.next fd e }

/-- A command that is processed after a refused update is what the client sent behind the block. -/
def Swallows (e : Call) (_ : Watched) : Prop :=
  ∀ c ∈ s.world.commanding fd e, ∀ o ∈ s.owed, c.ib.bytes ++ stream c.sock = o.behind.drop o.block

/-- Between a refused update and the next command, as many bytes were dropped as the block has. -/
def DropsBlock (e : Call) (_ : Watched) : Prop :=
  ∀ _c ∈ s.world.commanding fd e, ∀ o ∈ s.owed, o.dropped = o.block

/-- While something is owed, what the client's connection has unread and is to receive is all that was sent but what
was dropped, and it does not wait for data. -/
def Debt : Prop :=
  s.world.ended = none → ∀ c o, s.world.conn fd = some c → s.owed = some o →
    c.ib.bytes ++ stream c.sock = o.behind.drop o.dropped ∧ c.state ≠ .nread

instance (e : Call) (s' : Watched) : Decidable (s.Swallows fd e s') :=
  inferInstanceAs (Decidable (∀ c ∈ s.world.commanding fd e, ∀ o ∈ s.owed,
    c.ib.bytes ++ stream c.sock = o.behind.drop o.block))

end Watched

variable {hash : List UInt8 → UInt32} {w w' : World} {fd fd' : Fd} {c c₀ : Conn} {env : Env} {v v' : View}
    {s s' : Watched} {e : Call}

/-! ## Commands -/

theorem commanding_eq_some : w.commanding fd e = some c ↔
    ∃ env, e = .turn env ∧ w.running = some fd ∧ w.conn fd = some c ∧ c.state = .read ∧ 10 ∈ c.ib.bytes := by
  cases e with
  | turn env => simp [World.commanding, Option.filter_eq_some_iff, and_assoc]
  | accept | read | write => simp [World.commanding]

/-- An update that `item_alloc` fails for is not taken. -/
theorem refusedBlock_not_accepted {tokens : List (List UInt8)} {comm : Comm} {block : Nat}
    (h : refusedBlock tokens v.errno env.mem = some block) : ¬Accepted v tokens comm env v' := by
  intro hacc
  obtain ⟨it, hmem, hlen, -, -⟩ := hacc.alloc
  rw [refusedBlock, Option.ite_none_right_eq_some] at h
  obtain ⟨⟨-, -, -, hno | hlarge⟩, -⟩ := h
  · rw [hmem] at hno
    nomatch hno
  · omega

/-- After a refused update the connection is where it was, behind the line. -/
theorem refused_turn {next : Next} {block : Nat} (hstate : v.c.state = .read) (hline : 10 ∈ v.c.ib.bytes)
    (hblock : refusedBlock (tokenizeCommand (commandOf (nextLine v.c.ib.bytes)) MAX_TOKENS).1 v.errno
      env.mem = some block)
    (h : v.turn hash env = .ok (v', next)) :
    v'.c.ib.bytes = v.c.ib.bytes.drop ((nextLine v.c.ib.bytes).length + 1) ∧ v'.c.sock = v.c.sock ∧
      v'.c.state = .read := by
  cases turn_cases h with
  | reply _ _ hrun hans =>
    refine ⟨?_, ?_, hans.state_eq.trans hstate⟩
    · rw [hans.conn]
      rfl
    · rw [hans.conn]
  | await _ _ hrun hacc => exact absurd hacc (refusedBlock_not_accepted hblock)
  | network _ hno => exact absurd hline hno
  | complete hst | copy hst | recvd hst | failed hst | closed hst => nomatch hst.symm.trans hstate
  | spin hst => exact absurd hstate hst.1

/-- A turn without a command leaves what is unread and to be received. -/
theorem idle_turn_stream {next : Next} (hno : ¬(v.c.state = .read ∧ 10 ∈ v.c.ib.bytes)) (hstate : v.c.state ≠ .nread)
    (h : v.turn hash env = .ok (v', next)) (hnext : next ≠ .closed) :
    v'.c.ib.bytes ++ stream v'.c.sock = v.c.ib.bytes ++ stream v.c.sock ∧ v'.c.state ≠ .nread := by
  cases turn_cases h with
  | reply hst hline | await hst hline => exact absurd ⟨hst, hline⟩ hno
  | network hst hline hstore hnet =>
    refine ⟨?_, hnet.not_waiting hstate⟩
    generalize v'.c = c' at hnet
    cases hnet with
    | got bs sock' _ _ hs =>
      dsimp only [Buf.put]
      rw [List.append_assoc, hs]
    | blocked sock' hs | closing sock' hs => exact congrArg _ hs
  | complete hst | copy hst | recvd hst | failed hst => exact absurd hst hstate
  | closed => exact absurd rfl hnext
  | spin => exact ⟨rfl, hstate⟩

/-- `mc_write` drops the unread bytes with the last of the output, and leaves them otherwise. -/
theorem mcWrite_stream {n : Nat} {next : Next} (hn : n ≤ v.c.ob.bytes.length) (h : v.mcWrite n = .ok (v', next))
    (hnext : next ≠ .closed) :
    v'.c.ib.bytes ++ stream v'.c.sock = (v.c.ib.bytes ++ stream v.c.sock).drop
      (if 0 < n ∧ v.c.ob.bytes.length = n then v.c.ib.bytes.length else 0) := by
  cases mcWrite_cases h with
  | drained counters hpos hall =>
    have hlen : v.c.ob.bytes.length = n := by
      have hle := List.drop_eq_nil_iff.mp hall
      omega
    rw [if_pos ⟨hpos, hlen⟩, List.drop_left]
    rfl
  | sent counters hpos hleft =>
    have hlen : v.c.ob.bytes.length ≠ n := by
      intro hlen
      exact hleft (List.drop_eq_nil_iff.mpr hlen.le)
    rw [if_neg fun h => hlen h.2]
    rfl
  | closed => exact absurd rfl hnext

/-! ## Runs -/

/-- What a callback of the connection leaves of it, where the process goes on. -/
theorem back_own {r : Except End (View × Next)} (hended : (w.back fd r).ended = none)
    (h : (w.back fd r).conn fd = some c) :
    ∃ v' next, r = .ok (v', next) ∧ next ≠ .closed ∧ c = v'.c := by
  rcases back_conn h with ⟨v', next, hr, hnext, -, hc⟩ | ⟨-, ⟨e, rfl⟩ | hne⟩
  · exact ⟨v', next, hr, hnext, hc⟩
  · nomatch hended
  · exact absurd rfl hne

/-- What is owed after a step that is no command of the connection, and accepts none on it. -/
theorem next_eq_some {o : Owed} (hno : s.world.commanding fd e = none) (h : s.next fd e = some o) :
    World.accepts fd e = false ∧ ∃ o₀, s.owed = some o₀ ∧
      o = { o₀ with dropped := o₀.dropped + s.world.dropping fd e } := by
  rw [Watched.next, hno] at h
  dsimp only at h
  rw [Option.ite_none_left_eq_some] at h
  obtain ⟨hacc, h⟩ := h
  obtain ⟨o₀, ho, rfl⟩ := Option.map_eq_some_iff.mp h
  exact ⟨Bool.eq_false_iff.mpr hacc, o₀, ho, rfl⟩

/-- A step that leaves the connection as it is, and drops nothing, leaves what is owed. -/
theorem Watched.Debt.same (h : s.Debt fd) (hended : s.world.ended = none) {c₁ : Conn} {o : Owed}
    (hconn : s.world.conn fd = some c₁)
    (hno : s.world.commanding fd e = none) (hdrop : s.world.dropping fd e = 0) (ho : s.next fd e = some o) :
    c₁.ib.bytes ++ stream c₁.sock = o.behind.drop o.dropped ∧ c₁.state ≠ .nread := by
  obtain ⟨-, o₀, ho₀, rfl⟩ := next_eq_some hno ho
  rw [hdrop]
  exact h hended c₁ o₀ hconn ho₀

theorem commanding_elsewhere (hrun : w.running ≠ some fd) : w.commanding fd e = none := by
  rw [Option.eq_none_iff_forall_ne_some]
  intro c hc
  obtain ⟨-, -, hr, -⟩ := commanding_eq_some.mp hc
  exact hrun hr

/-- What is owed is kept by every step. -/
theorem debt_step (h : s.Debt fd) (hs : s.step hash fd e = some s') : s'.Debt fd := by
  obtain ⟨w', hw, rfl⟩ := Option.map_eq_some_iff.mp hs
  obtain ⟨hended, hw⟩ := step_stepped hw
  intro hended' c₁ o hc₁ ho
  dsimp only at hended' hc₁ ho
  cases hw with
  | @accept fd' sock hrun hfd =>
    have hno : s.world.commanding fd (.accept fd' sock) = none := rfl
    by_cases he : fd' = fd
    · obtain ⟨hacc, -⟩ := next_eq_some hno ho
      exact absurd hacc (by simp [World.accepts, he])
    · dsimp only at hc₁
      rw [Function.update_of_ne (Ne.symm he)] at hc₁
      exact h.same hended hc₁ hno rfl ho
  | read hrun hc => exact h.same hended hc₁ rfl rfl ho
  | @turn fd' c env hrun hc hmem =>
    by_cases he : fd' = fd
    · subst he
      obtain ⟨v', next, hturn, hnext, rfl⟩ := back_own hended' hc₁
      by_cases hcmd : c.state = .read ∧ 10 ∈ c.ib.bytes
      · have hcom : s.world.commanding fd' (.turn env) = some c := commanding_eq_some.mpr ⟨env, rfl, hrun, hc, hcmd⟩
        rw [Watched.next, hcom] at ho
        obtain ⟨block, hblock, rfl⟩ := Option.map_eq_some_iff.mp ho
        obtain ⟨hib, hsock, hstate⟩ := refused_turn (v := s.world.view c) hcmd.1 hcmd.2 hblock hturn
        rw [hib, hsock, hstate]
        exact ⟨rfl, nofun⟩
      · have hno : s.world.commanding fd' (.turn env) = none := by
          rw [Option.eq_none_iff_forall_ne_some]
          intro c₂ hc₂
          obtain ⟨-, -, -, hc', hcmd'⟩ := commanding_eq_some.mp hc₂
          rw [hc] at hc'
          exact hcmd (Option.some.inj hc' ▸ hcmd')
        obtain ⟨hstream, hstate⟩ := h.same hended hc hno rfl ho
        obtain ⟨hstream', hstate'⟩ := idle_turn_stream (v := s.world.view c) hcmd hstate hturn hnext
        exact ⟨hstream'.trans hstream, hstate'⟩
    · have hno : s.world.commanding fd (.turn env) = none :=
        commanding_elsewhere (by rw [hrun]; exact fun h => he (Option.some.inj h))
      rcases back_conn hc₁ with ⟨_, _, _, _, hfd, _⟩ | ⟨hc₁, -⟩
      · exact absurd hfd.symm he
      · exact h.same hended hc₁ hno rfl ho
  | @write fd' c n hrun hc hn =>
    have hno : s.world.commanding fd (.write fd' n) = none := rfl
    by_cases he : fd' = fd
    · subst he
      obtain ⟨v', next, hwrite, hnext, rfl⟩ := back_own hended' hc₁
      obtain ⟨-, o₀, ho₀, rfl⟩ := next_eq_some hno ho
      obtain ⟨hstream, hstate⟩ := h hended c o₀ hc ho₀
      have hdrop : s.world.dropping fd' (.write fd' n) = if 0 < n ∧
          c.ob.bytes.length = n then c.ib.bytes.length else 0 := by
        rw [World.dropping, hc]
        by_cases hpos : 0 < n <;> simp [hpos]
      rw [hdrop, mcWrite_stream (v := s.world.view c) hn hwrite hnext]
      refine ⟨?_, ?_⟩
      · change (c.ib.bytes ++ stream c.sock).drop _ = _
        rw [hstream, List.drop_drop]
        rfl
      · intro hst
        obtain ⟨hsame, -⟩ := mcWrite_waiting hwrite hnext hst
        rw [hsame] at hst
        exact hstate hst
    · have hdrop : s.world.dropping fd (.write fd' n) = 0 := by simp [World.dropping, he]
      rcases back_conn hc₁ with ⟨_, _, _, _, hfd, _⟩ | ⟨hc₁, -⟩
      · exact absurd hfd.symm he
      · exact h.same hended hc₁ hno hdrop ho

/-- In every run of the connections, from any world: the data of the updates that are refused is swallowed, and no
more, exactly if `mc_write` drops just that between the refusal and the next command. -/
theorem swallows_iff_dropped (hash : List UInt8 → UInt32) (fd : Fd) (w : World) (es : List Call) :
    AllSteps (Watched.step hash fd) (Watched.Swallows fd) ⟨w, none⟩ es ↔
      AllSteps (Watched.step hash fd) (Watched.DropsBlock fd) ⟨w, none⟩ es := by
  have h₀ : Watched.Debt fd ⟨w, none⟩ := fun _ _ _ _ ho => nomatch ho
  refine AllSteps.congr (P := Watched.Debt fd) (.of_step h₀ (fun _ _ _ h hs => debt_step h hs) es) ?_
  intro s e s' h hs
  obtain ⟨w', hw, rfl⟩ := Option.map_eq_some_iff.mp hs
  refine forall₂_congr fun c hcom => forall₂_congr fun o ho => ?_
  obtain ⟨-, -, -, hc, -, hline⟩ := commanding_eq_some.mp hcom
  obtain ⟨hstream, -⟩ := h (step_stepped hw).1 c o hc ho
  rw [hstream]
  constructor
  · intro heq
    have hlen := congrArg List.length heq
    have hpos : 0 < (o.behind.drop o.dropped).length := by
      rw [← hstream]
      exact List.length_pos_of_mem (List.mem_append_left _ hline)
    rw [List.length_drop] at hlen hpos
    rw [List.length_drop] at hlen
    omega
  · intro heq
    rw [heq]

/-- There is no memory for an item. -/
def Env.noMemory : Env := { now := 0, granted := true, mem := .none, found := fun _ => 0 }

/-- The data of an update for which there is no memory comes when the client has its answer, and is processed as a
command. -/
theorem block_is_processed :
    ¬AllSteps (Watched.step (fun _ => 0) 5) (Watched.Swallows 5)
      ⟨World.oneClient 5 [.bytes (lit "set k 0 0 5\r\n"), .bytes (lit "get x\r\n")], none⟩
      [.read 5, .turn .noMemory, .turn .noMemory, .write 5 43, .read 5, .turn .noMemory, .turn .noMemory] := by
  decide +kernel

end ZeroServ.Mc
