import ZeroServ.Memcached.DataBlock
import ZeroServ.Memcached.Holding

/-!
# Pipelined commands

A conversation of one client, among other connections: `Seen` follows what the client's commands have done and been
answered, and what has been sent of that. `pipelined_answered`: where no draining `mc_write` finds unread bytes, and
each update finds its block in the buffer, `errno` clean and memory, every command has acted once, in order, and its
answer was sent when the client has nothing more to say.
-/

namespace ZeroServ.Mc

open Run CString

/-! ## Conversations -/

/-- A client's command, without the line feed: a single line, or an update with its data. -/
inductive Cmd where
  | single (line : List UInt8)
  | update (line data : List UInt8)

/-- The update that the words of a command are. -/
def updateOf (tokens : List (List UInt8)) : Option Comm :=
  if tokens.length + 1 = 6 || tokens.length + 1 = 7 then commOf (tokens.headD []) else none

/-- What a command does to the store: it is processed, or its data is stored. -/
inductive Act where
  | command (text : List UInt8)
  | update (comm : Comm) (key : List UInt8) (v : Value)

namespace Cmd

def line : Cmd → List UInt8
  | single line | update line _ => line

/-- What follows the line feed. -/
def block : Cmd → List UInt8
  | single _ => []
  | update _ data => data ++ crlf

def wire (x : Cmd) : List UInt8 := x.line ++ 10 :: x.block

/-- What the command is to do. -/
def act : Cmd → Act
  | single line => .command (commandOf line)
  | update line data =>
    let tokens := (tokenizeCommand (commandOf line) MAX_TOKENS).1
    .update ((updateOf tokens).getD .set) (tokens.getD 1 [])
      (itemSuffix (Numbers.read tokens .again).flags (data.length + 2), data ++ crlf)

/-- A single line is no update; an update announces its data, which the input buffer could hold. -/
def Wf : Cmd → Prop
  | single line => 10 ∉ line ∧ updateOf (tokenizeCommand (commandOf line) MAX_TOKENS).1 = none
  | update line data => UpdateLine line .again data.length ∧ data.length < MC_BUFFER_SIZE

end Cmd

/-- What a client sends. -/
def wires (cmds : List Cmd) : List UInt8 := cmds.flatMap Cmd.wire

namespace World

variable (w : World)

/-- What a turn of the connection answers to. -/
def act (c : Conn) : Act :=
  match c.state, c.item.bind w.store.heap.get with
  | .nread, some x => .update c.itemComm x.key (x.suffix, x.data)
  | _, _ => .command (commandOf (nextLine c.ib.bytes))

/-- What a call does for the connection and answers, where it appends an answer. -/
def acted (fd : Fd) (w' : World) : Call → List (Act × List UInt8)
  | .turn _ =>
    match if w.running = some fd then w.conn fd else none, w'.conn fd with
    | some c, some c' => if c'.ob.r = c.ob.r then [] else [(w.act c, c'.ob.bytes.drop c.ob.bytes.length)]
    | _, _ => []
  | .accept _ _ | .read _ | .write _ _ => []

/-- What a call sends to the connection's client. -/
def sends (fd : Fd) : Call → List UInt8
  | .write fd' n => if fd' = fd then ((w.conn fd).map fun c => c.ob.bytes.take n).getD [] else []
  | .accept _ _ | .read _ | .turn _ => []

/-- A turn takes no update but one whose block is in the buffer, with the numbers in order and memory for its item. -/
def takesWhole (c : Conn) (env : Env) : Bool :=
  let tokens := (tokenizeCommand (commandOf (nextLine c.ib.bytes)) MAX_TOKENS).1
  let n := Numbers.read tokens w.errno
  !(c.state = .read && c.ib.bytes.contains 10 && (updateOf tokens).isSome) ||
    !n.bad && env.mem.isSome && (nextLine c.ib.bytes).length + 1 + (n.vlen.toNat + 2) ≤ c.ib.bytes.length

/-- The conversation of the connection goes well: updates are taken whole, `mc_read` is called where reading is
enabled, and the answer that is sent to its end leaves no unread bytes; the descriptor is not given to another
client. -/
def smooth (fd : Fd) : Call → Bool
  | .accept fd' _ => fd' ≠ fd
  | .read fd' => fd' ≠ fd || (w.conn fd).all fun c => c.rd
  | .turn env => w.running ≠ some fd || (w.conn fd).all fun c => w.takesWhole c env
  | .write fd' n => fd' ≠ fd || (w.conn fd).all fun c => n ≠ c.ob.bytes.length || c.ib.bytes.isEmpty

end World

/-- A world, with what has been done for a connection, what that was answered, and what was sent of the answers. -/
structure Seen where
  world : World
  acts : List (Act × List UInt8)
  sent : List UInt8

/-- The conversation of a connection. -/
def Seen.step (hash : List UInt8 → UInt32) (fd : Fd) (s : Seen) (e : Call) : Option Seen :=
  (s.world.step hash e).map fun w' =>
    { world := w', acts := s.acts ++ s.world.acted fd w' e, sent := s.sent ++ s.world.sends fd e }

/-- When the connection is back in `conn_read`, with everything sent and received, each command has acted once and
was answered, in order. -/
def Seen.Complete (fd : Fd) (cmds : List Cmd) (s : Seen) : Prop :=
  ∀ c, s.world.conn fd = some c → s.world.running ≠ some fd → c.state = .read → c.ob.bytes = [] → stream c.sock = [] →
    s.acts.map Prod.fst = cmds.map Cmd.act ∧ s.sent = (s.acts.map Prod.snd).flatten

variable {hash : List UInt8 → UInt32} {w w' : World} {fd : Fd} {c c' : Conn} {env : Env} {cmds rest : List Cmd}
    {v v' : View}

/-! ## Lines -/

theorem wires_cons (x : Cmd) (rest : List Cmd) : wires (x :: rest) = x.line ++ 10 :: (x.block ++ wires rest) := by
  simp [wires, Cmd.wire]

/-- Where a line is complete, it is that of the next command. -/
theorem next_command {ib s : List UInt8} (h : ib ++ s = wires cmds) (hwf : ∀ x ∈ cmds, x.Wf) (hline : 10 ∈ ib) :
    ∃ x rest d, cmds = x :: rest ∧ nextLine ib = x.line ∧ ib = x.line ++ 10 :: d ∧ d ++ s = x.block ++ wires rest := by
  cases cmds with
  | nil =>
    have hnil : ib = [] := (List.append_eq_nil_iff.mp h).1
    rw [hnil] at hline
    nomatch hline
  | cons x rest =>
    have hno : 10 ∉ x.line := by
      have hx := hwf x List.mem_cons_self
      cases x with
      | single line => exact hx.1
      | update line data => exact hx.1.no_feed
    rw [wires_cons] at h
    obtain ⟨d, hib, hd⟩ := buffered h hno hline
    exact ⟨x, rest, d, rfl, by rw [hib, nextLine_append hno], hib, hd⟩

/-- A single line is answered, and leaves the store as it is or gets an item of it. -/
theorem processCommand_single {command : List UInt8} (hno : updateOf (tokenizeCommand command MAX_TOKENS).1 = none)
    (h : v.processCommand hash command env = .ok v') :
    (∃ reply, Answered v.c reply v'.c) ∧
      (v'.store = v.store ∨
        ∃ it, processGetCommand hash v.store ((tokenizeCommand command MAX_TOKENS).1.getD 1 []) env.now =
        .ok (v'.store, it)) := by
  have hsaid : ∀ {text : List UInt8}, v.outString text = .ok v' →
      (∃ reply, Answered v.c reply v'.c) ∧ v'.store = v.store := by
    intro text hout
    have hans := outString_answered hout
    obtain ⟨-, rfl⟩ := addOutString_eq_ok hout
    exact ⟨⟨_, hans⟩, rfl⟩
  rw [View.processCommand] at h
  rw [updateOf] at hno
  split at h
  · obtain ⟨⟨s, it⟩, hget, h⟩ := bind_eq_ok h
    obtain ⟨hle, rfl⟩ := foldlM_addOutString (getReply_ne_nil it).1 h
    exact ⟨⟨_, rfl, (getReply_ne_nil it).2, hle⟩, .inr ⟨it, orEnd_eq_ok hget⟩⟩
  · rw [hno] at h
    dsimp only at h
    split at h
    · exact ⟨(hsaid h).1, .inl (hsaid h).2⟩
    · split at h
      · exact ⟨(hsaid h).1, .inl (hsaid h).2⟩
      · exact ⟨(hsaid h).1, .inl (hsaid h).2⟩

/-- A line that is an update is processed as one. -/
theorem processCommand_updateOf {command : List UInt8} {comm : Comm}
    (h : updateOf (tokenizeCommand command MAX_TOKENS).1 = some comm) :
    v.processCommand hash command env = v.processUpdateCommand hash
      (tokenizeCommand command MAX_TOKENS).1 comm env := by
  rw [updateOf] at h
  have hcomm : commOf ((tokenizeCommand command MAX_TOKENS).1.headD []) = some comm := by
    split at h
    · exact h
    · nomatch h
  rw [View.processCommand, if_neg (not_get_of_comm hcomm), h]

/-! ## The phases of a conversation -/

/-- Where a conversation stands, with the commands that are left to be done. -/
inductive Phase (w : World) (fd : Fd) (c : Conn) (rest : List Cmd) : Prop where
  /-- everything was answered, and the answers were sent -/
  | idle (hstate : c.state = .read) (hob : c.ob.bytes = []) (hwr : c.wr = false)
      (hstream : c.ib.bytes ++ stream c.sock = wires rest) (hempty : w.running ≠ some fd → c.ib.bytes = [])
  /-- an answer is pending -/
  | replying (hpend : c.ob.bytes ≠ []) (hrd : c.rd = false) (hrun : w.running ≠ some fd)
      (hstream : c.ib.bytes ++ stream c.sock = wires rest)
  /-- an update was taken, and its block is in the buffer -/
  | awaiting {line data more : List UInt8} {rest' : List Cmd} {it : Ptr} {x : Item} (hrun : w.running = some fd)
      (hrest : rest = .update line data :: rest') (hstate : c.state = .nread) (hob : c.ob.bytes = [])
      (hwr : c.wr = false)
      (hit : c.item = some it) (hx : w.store.heap.get it = some x) (hlen : x.data.length = data.length + 2)
      (hact : Act.update c.itemComm x.key (x.suffix, data ++ crlf) = (Cmd.update line data).act) (hritem : c.ritem = 0)
      (hrl : c.rlbytes = data.length + 2) (hib : c.ib.bytes = data ++ crlf ++ more)
      (hstream : more ++ stream c.sock = wires rest')
  /-- the block was copied -/
  | filled {line data : List UInt8} {rest' : List Cmd} {it : Ptr} {x : Item} (hrun : w.running = some fd)
      (hrest : rest = .update line data :: rest') (hstate : c.state = .nread) (hob : c.ob.bytes = [])
      (hit : c.item = some it)
      (hx : w.store.heap.get it = some x)
    (hact : Act.update c.itemComm x.key (x.suffix, x.data) = (Cmd.update line data).act)
      (hrl : c.rlbytes = 0) (hstream : c.ib.bytes ++ stream c.sock = wires rest')
  /-- the connection is to be closed -/
  | closing (hrun : w.running = some fd) (hstate : c.state = .closing)

/-- The invariant of a conversation. -/
def Seen.Talk (fd : Fd) (cmds : List Cmd) (s : Seen) : Prop :=
  ∀ c, s.world.conn fd = some c → ∃ done rest, cmds = done ++ rest ∧ s.acts.map Prod.fst = done.map Cmd.act ∧
    s.sent ++ c.ob.bytes = (s.acts.map Prod.snd).flatten ∧ Phase s.world fd c rest

/-- What a turn of the conversation does: nothing that is seen, or the next command, with its answer. -/
def Progress (w w' : World) (fd : Fd) (c c' : Conn) (rest : List Cmd) : Prop :=
  c'.ob = c.ob ∧ Phase w' fd c' rest ∨
    ∃ x rest' reply, rest = x :: rest' ∧ w.act c = x.act ∧ c'.ob = c.ob.put reply ∧ reply ≠ [] ∧ Phase w' fd c' rest'

theorem updateOf_isSome {line : List UInt8} {errno : Errno} {n : Nat} (h : UpdateLine line errno n) :
    (updateOf (tokenizeCommand (commandOf line) MAX_TOKENS).1).isSome := by
  have hw := h.word
  rw [updateOf, if_pos]
  · exact hw
  · rcases h.tokens with ht | ht <;> simp [ht]

/-- The update at the head of the buffer is taken. -/
theorem taken_update {line data d : List UInt8} (hsm : w.takesWhole c env = true) (hstate : c.state = .read)
    (hline : 10 ∈ c.ib.bytes) (hnext : nextLine c.ib.bytes = line) (hib : c.ib.bytes = line ++ 10 :: d)
    (hwf : (Cmd.update line data).Wf) (hrun : (w.view c).processCommand hash (commandOf line) env = .ok v') :
    data.length + 2 ≤ d.length ∧ ∃ p x, v'.store.heap.get p = some x ∧ x.data.length = data.length + 2 ∧
      v'.c = { c with
        item := some p, ritem := 0, rlbytes := data.length + 2, itemComm := v'.c.itemComm
        state := .nread, rd := true } ∧
      Act.update v'.c.itemComm x.key (x.suffix, data ++ crlf) = (Cmd.update line data).act := by
  obtain ⟨hupd, hlt⟩ := hwf
  rw [MC_BUFFER_SIZE] at hlt
  rw [World.takesWhole, hnext, hstate, List.contains_iff_mem.mpr hline, updateOf_isSome hupd] at hsm
  simp only [decide_true, Bool.and_self, Bool.not_true, Bool.false_or, Bool.and_eq_true, Bool.not_eq_true',
    decide_eq_true_eq] at hsm
  obtain ⟨⟨hgood, hmem⟩, hle⟩ := hsm
  obtain ⟨p, hp⟩ := Option.isSome_iff_exists.mp hmem
  have hvlen : (Numbers.read (tokenizeCommand (commandOf line) MAX_TOKENS).1 w.errno).vlen.toNat = data.length := by
    have hv : (Numbers.read (tokenizeCommand (commandOf line) MAX_TOKENS).1 w.errno).vlen = data.length := hupd.vlen
    rw [hv, Int.toNat_natCast]
  rw [hvlen, hib, List.length_append, List.length_cons] at hle
  have hupd' : UpdateLine line w.errno data.length :=
    ⟨hupd.no_feed, hupd.tokens, hupd.word, hupd.key, hgood, hupd.vlen⟩
  obtain ⟨v₁, comm, hrun₁, hcomm, hstore, hc⟩ := processCommand_update hash (v := w.view c) hupd' hp (by omega)
  obtain rfl : v₁ = v' := Except.ok.inj (hrun₁.symm.trans hrun)
  have hupdateOf : updateOf (tokenizeCommand (commandOf line) MAX_TOKENS).1 = some comm := by
    rw [updateOf, if_pos, hcomm]
    rcases hupd.tokens with ht | ht <;> simp [ht]
  refine ⟨by omega, p, _, by rw [hstore]; exact Heap.get_alloc_self .., newItem_nbytes, ?_, ?_⟩
  · rw [hc]
    rfl
  · rw [hc, Cmd.act, hupdateOf]
    rfl

/-! ## Turns -/

variable {next : Next}

/-- An answer that was appended to an empty buffer is pending. -/
theorem Answered.pending {reply : List UInt8} (h : Answered c reply c') : c'.ob.bytes ≠ [] := by
  rw [h.conn]
  intro hnil
  exact h.ne_nil (List.append_eq_nil_iff.mp hnil).2

theorem advance_line {ib : Buf} {line d : List UInt8} (h : ib.bytes = line ++ 10 :: d) :
    (ib.advance (line.length + 1)).bytes = d := by
  rw [Buf.advance]
  dsimp only
  rw [h, List.drop_append, List.drop_eq_nil_of_le (Nat.le_succ _)]
  simp

/-- A line that is answered is a single line. -/
theorem reply_progress {reply : List UInt8} {v₁ : View} (hstate : c.state = .read) (hline : 10 ∈ c.ib.bytes)
    (hstream : c.ib.bytes ++ stream c.sock = wires rest) (hwf : ∀ x ∈ rest, x.Wf) (hsm : w.takesWhole c env = true)
    (hproc : (w.view c).processCommand hash (commandOf (nextLine c.ib.bytes)) env = .ok v₁)
    (hans : Answered c reply v₁.c) :
    ∃ x rest', rest = x :: rest' ∧ w.act c = x.act ∧
      (v₁.c.ib.advance ((nextLine c.ib.bytes).length + 1)).bytes ++ stream v₁.c.sock = wires rest' := by
  obtain ⟨x, rest', d, rfl, hx, hib, hd⟩ := next_command hstream hwf hline
  have hwfx := hwf x List.mem_cons_self
  rw [hx] at hproc ⊢
  cases x with
  | update line data =>
    obtain ⟨-, p, x, -, -, hc, -⟩ := taken_update hsm hstate hline hx hib hwfx hproc
    nomatch (hans.state_eq.trans hstate).symm.trans (congrArg Conn.state hc)
  | single line =>
    refine ⟨_, rest', rfl, ?_, ?_⟩
    · rw [World.act, hstate, hx]
      rfl
    · rw [hans.conn, advance_line hib]
      exact hd

/-- What is in the buffer after the line of an update, where the whole block is there. -/
theorem block_prefix {d s block tail : List UInt8} (h : d ++ s = block ++ tail) (hle : block.length ≤ d.length) :
    ∃ more, d = block ++ more ∧ more ++ s = tail := by
  rcases List.append_eq_append_iff.mp h with ⟨a, ha, hs⟩ | ⟨a, ha, hs⟩
  · have hlen := congrArg List.length ha
    rw [List.length_append] at hlen
    obtain rfl : a = [] := List.length_eq_zero_iff.mp (by omega)
    exact ⟨[], by rw [ha, List.append_nil, List.append_nil], hs⟩
  · exact ⟨a, ha, hs.symm⟩

/-- A line that is not answered is that of an update. -/
theorem await_progress {v₁ : View} {comm : Comm} (hstate : c.state = .read) (hob : c.ob.bytes = []) (hwr : c.wr = false)
    (hline : 10 ∈ c.ib.bytes) (hstream : c.ib.bytes ++ stream c.sock = wires rest) (hwf : ∀ x ∈ rest, x.Wf)
    (hsm : w.takesWhole c env = true)
    (hproc : (w.view c).processCommand hash (commandOf (nextLine c.ib.bytes)) env = .ok v₁)
    (hacc : Accepted (w.view c) (tokenizeCommand (commandOf (nextLine c.ib.bytes)) MAX_TOKENS).1 comm env v₁)
    (hrun : w'.running = some fd) (hstore : w'.store = v₁.store) :
    v₁.c.ob = c.ob ∧ Phase w' fd { v₁.c with ib := v₁.c.ib.advance ((nextLine c.ib.bytes).length + 1) } rest := by
  obtain ⟨x, rest', d, rfl, hx, hib, hd⟩ := next_command hstream hwf hline
  have hwfx := hwf x List.mem_cons_self
  rw [hx] at hproc ⊢
  cases x with
  | single line =>
    obtain ⟨⟨reply, hans⟩, -⟩ := processCommand_single hwfx.2 hproc
    obtain ⟨it, -, -, -, hc⟩ := hacc.alloc
    nomatch (hans.state_eq.trans hstate).symm.trans (congrArg Conn.state hc)
  | update line data =>
    obtain ⟨hle, p, x, hget, hlen, hc, hact⟩ := taken_update hsm hstate hline hx hib hwfx hproc
    obtain ⟨more, rfl, hmore⟩ := block_prefix hd (by rw [Cmd.block, List.length_append]; exact hle)
    have hadv : (v₁.c.ib.advance (line.length + 1)).bytes = data ++ crlf ++ more := by
      rw [congrArg Conn.ib hc]
      exact advance_line hib
    have hout : v₁.c.ob = c.ob := by rw [hc]
    have hsock : v₁.c.sock = c.sock := by rw [hc]
    refine ⟨hout, @Phase.awaiting _ _ _ _ line data more rest' p x hrun rfl
      (congrArg Conn.state hc) ?_ ?_ (congrArg Conn.item hc) ?_ hlen hact
      (congrArg Conn.ritem hc) (congrArg Conn.rlbytes hc) hadv ?_⟩
    · exact (congrArg Buf.bytes hout).trans hob
    · exact (congrArg Conn.wr hc).trans hwr
    · rw [hstore]
      exact hget
    · rw [← hmore]
      exact congrArg (fun s => more ++ stream s) hsock

/-- Where no line is complete, bytes are received or the connection is to be closed. -/
theorem network_phase (hstate : c.state = .read) (hob : c.ob.bytes = []) (hwr : c.wr = false)
    (hstream : c.ib.bytes ++ stream c.sock = wires rest) (hnet : Networked c c') (hrun : w'.running = some fd) :
    c'.ob = c.ob ∧ Phase w' fd c' rest := by
  cases hnet with
  | got bs sock' hne hroom hs =>
    refine ⟨rfl, .idle hstate hob hwr ?_ fun hno => absurd hrun hno⟩
    rw [← hstream, ← hs, ← List.append_assoc]
    rfl
  | blocked sock' hs =>
    refine ⟨rfl, .idle hstate hob hwr ?_ fun hno => absurd hrun hno⟩
    rw [← hstream, ← hs]
  | closing sock' hs => exact ⟨rfl, .closing hrun rfl⟩

/-- The turn of a connection with nothing to send: the next line is answered, or its update waits for the block. -/
theorem idle_turn (hstate : c.state = .read) (hob : c.ob.bytes = []) (hwr : c.wr = false)
    (hstream : c.ib.bytes ++ stream c.sock = wires rest) (hwf : ∀ x ∈ rest, x.Wf) (hsm : w.takesWhole c env = true)
    (ht : Turned hash (w.view c) env v' next) : Progress w (w.back fd (.ok (v', next))) fd c v'.c rest := by
  cases ht with
  | @reply reply v₁ _ hline hproc hans =>
    obtain ⟨x, rest', rfl, hact, hrest⟩ := reply_progress hstate hline hstream hwf hsm hproc hans
    exact .inr ⟨x, rest', reply, rfl, hact, congrArg Conn.ob hans.conn, hans.ne_nil,
      .replying hans.pending (congrArg Conn.rd hans.conn) nofun hrest⟩
  | @await comm v₁ _ _ hline hproc hacc hnext =>
    obtain rfl : next = .go := by
      rw [hnext, show (w.view c).c.wr = false from hwr]
      rfl
    exact .inl (await_progress hstate hob hwr hline hstream hwf hsm hproc hacc rfl rfl)
  | network _ hline hstore hnet => exact .inl (network_phase hstate hob hwr hstream hnet rfl)
  | complete h' => nomatch hstate.symm.trans h'
  | copy h' => nomatch hstate.symm.trans h'
  | recvd h' => nomatch hstate.symm.trans h'
  | failed h' => nomatch hstate.symm.trans h'
  | closed h' => nomatch hstate.symm.trans h'
  | spin h' => exact absurd hstate h'.1

/-- The turn that copies the block. -/
theorem awaiting_turn {line data more : List UInt8} {rest' : List Cmd} {it : Ptr} {x : Item}
    (hrest : rest = .update line data :: rest') (hstate : c.state = .nread) (hob : c.ob.bytes = [])
    (hit : c.item = some it) (hx : w.store.heap.get it = some x) (hlen : x.data.length = data.length + 2)
    (hact : Act.update c.itemComm x.key (x.suffix, data ++ crlf) = (Cmd.update line data).act) (hritem : c.ritem = 0)
    (hrl : c.rlbytes = data.length + 2) (hib : c.ib.bytes = data ++ crlf ++ more)
    (hstream : more ++ stream c.sock = wires rest')
    (ht : Turned hash (w.view c) env v' next) : Progress w (w.back fd (.ok (v', next))) fd c v'.c rest := by
  have hblock : (data ++ crlf).length = data.length + 2 := List.length_append
  have hne : c.ib.bytes ≠ [] := by
    rw [hib]
    intro hnil
    have hcount := congrArg List.length hnil
    rw [List.length_append, hblock, List.length_nil] at hcount
    omega
  cases ht with
  | @copy it' x' data' _ _ _ hit' hx' hdata =>
    obtain rfl : it = it' := Option.some.inj (hit.symm.trans hit')
    obtain rfl : x = x' := Option.some.inj (hx.symm.trans hx')
    have htake : (w.view c).c.ib.bytes.take (w.view c).c.rlbytes = data ++ crlf := by
      rw [show (w.view c).c = c from rfl, hib, hrl, ← hblock, List.take_left]
    have hfull : data' = data ++ crlf := by
      rw [htake, show (w.view c).c.ritem = 0 from hritem, memcpyData, if_pos (by rw [hblock, hlen]; omega)] at hdata
      obtain rfl := Except.ok.inj hdata
      rw [List.take_zero, List.nil_append, List.drop_eq_nil_of_le (by rw [hblock, hlen]; omega), List.append_nil]
    refine .inl ⟨rfl, @Phase.filled _ _ _ _ line data rest' it
      { x with data := data ++ crlf } rfl hrest hstate hob hit ?_ hact ?_ ?_⟩
    · rw [hfull]
      exact (Heap.get_modify_self it _).trans (by rw [hx', Option.map_some])
    · dsimp only
      rw [htake, hblock]
      exact Nat.sub_eq_zero_of_le (Nat.le_of_eq hrl)
    · dsimp only
      rw [htake, hblock, ← hstream, Buf.advance, show (w.view c).c.ib.bytes = _ from hib]
      dsimp only
      rw [List.drop_left' hblock]
      rfl
  | reply h' => cases hstate.symm.trans h'
  | await h' => cases hstate.symm.trans h'
  | network h' => cases hstate.symm.trans h'
  | complete _ h' => exact absurd (hrl.symm.trans h') (Nat.succ_ne_zero _)
  | recvd _ _ h' => exact absurd h' hne
  | failed _ _ h' => exact absurd h' hne
  | closed h' => cases hstate.symm.trans h'
  | spin h' => exact absurd hstate h'.2.1

/-- The turn that stores the data. -/
theorem filled_turn {line data : List UInt8} {rest' : List Cmd} {it : Ptr} {x : Item}
    (hrest : rest = .update line data :: rest') (hstate : c.state = .nread) (hit : c.item = some it)
    (hx : w.store.heap.get it = some x)
    (hact : Act.update c.itemComm x.key (x.suffix, x.data) = (Cmd.update line data).act)
    (hrl : c.rlbytes = 0) (hstream : c.ib.bytes ++ stream c.sock = wires rest')
    (ht : Turned hash (w.view c) env v' next) : Progress w (w.back fd (.ok (v', next))) fd c v'.c rest := by
  cases ht with
  | @complete it' reply v₁ _ _ hit' hrun hans =>
    refine .inr ⟨_, rest', _, hrest, ?_, congrArg Conn.ob hans.conn, hans.ne_nil, .replying hans.pending rfl nofun ?_⟩
    · rw [World.act, hstate, hit, Option.bind_some, hx]
      exact hact
    · rw [hans.conn]
      exact hstream
  | reply h' => nomatch hstate.symm.trans h'
  | await h' => nomatch hstate.symm.trans h'
  | network h' => nomatch hstate.symm.trans h'
  | copy _ h' => exact absurd hrl h'
  | recvd _ h' => exact absurd hrl h'
  | failed _ h' => exact absurd hrl h'
  | closed h' => nomatch hstate.symm.trans h'
  | spin h' => exact absurd hstate h'.2.1

/-- A turn of the conversation goes on with it. -/
theorem own_turn (h : Phase w fd c rest) (hrun : w.running = some fd) (hwf : ∀ x ∈ rest, x.Wf)
    (hsm : w.takesWhole c env = true) (ht : Turned hash (w.view c) env v' next) (hnext : next ≠ .closed) :
    Progress w (w.back fd (.ok (v', next))) fd c v'.c rest := by
  cases h with
  | idle hstate hob hwr hstream => exact idle_turn hstate hob hwr hstream hwf hsm ht
  | replying _ _ hno => exact absurd hrun hno
  | awaiting _ hrest hstate hob _ hit hx hlen hact hritem hrl hib hstream =>
    exact awaiting_turn hrest hstate hob hit hx hlen hact hritem hrl hib hstream ht
  | filled _ hrest hstate _ hit hx hact hrl hstream => exact filled_turn hrest hstate hit hx hact hrl hstream ht
  | closing _ hstate =>
    cases ht with
    | closed => exact absurd rfl hnext
    | reply h' => nomatch hstate.symm.trans h'
    | await h' => nomatch hstate.symm.trans h'
    | network h' => nomatch hstate.symm.trans h'
    | complete h' => nomatch hstate.symm.trans h'
    | copy h' => nomatch hstate.symm.trans h'
    | recvd h' => nomatch hstate.symm.trans h'
    | failed h' => nomatch hstate.symm.trans h'
    | spin h' => exact absurd hstate h'.2.2

/-! ## Steps -/

/-- Where its `mc_read` does not run, a connection has no part in what happens. -/
theorem Phase.elsewhere (h : Phase w fd c rest) (hrun : w.running ≠ some fd) (hrun' : w'.running ≠ some fd) :
    Phase w' fd c rest := by
  cases h with
  | idle hstate hob hwr hstream hempty => exact .idle hstate hob hwr hstream fun _ => hempty hrun
  | replying hpend hrd _ hstream => exact .replying hpend hrd hrun' hstream
  | awaiting h' => exact absurd h' hrun
  | filled h' => exact absurd h' hrun
  | closing h' => exact absurd h' hrun

/-- The end of the process leaves the conversation where it was. -/
theorem Phase.ended (h : Phase w fd c rest) (o : Option End) : Phase { w with ended := o } fd c rest := by
  cases h with
  | idle hstate hob hwr hstream hempty => exact .idle hstate hob hwr hstream hempty
  | replying hpend hrd hrun hstream => exact .replying hpend hrd hrun hstream
  | awaiting hrun hrest hstate hob hwr hit hx hlen hact hritem hrl hib hstream =>
    exact .awaiting hrun hrest hstate hob hwr hit hx hlen hact hritem hrl hib hstream
  | filled hrun hrest hstate hob hit hx hact hrl hstream => exact .filled hrun hrest hstate hob hit hx hact hrl hstream
  | closing hrun hstate => exact .closing hrun hstate

/-- The call of `mc_read`, where reading is enabled. -/
theorem Phase.read (h : Phase w fd c rest) (hrun : w.running = none) (hrd : c.rd = true) :
    Phase { w with running := some fd } fd c rest := by
  cases h with
  | idle hstate hob hwr hstream => exact .idle hstate hob hwr hstream fun hno => absurd rfl hno
  | replying _ hoff => nomatch hrd.symm.trans hoff
  | awaiting h' => nomatch hrun.symm.trans h'
  | filled h' => nomatch hrun.symm.trans h'
  | closing h' => nomatch hrun.symm.trans h'

/-- `mc_write` sends what is pending, or a part of it. -/
theorem Phase.write {n : Nat} (h : Phase w fd c rest) (hrun : w.running = none) (hn : n ≤ c.ob.bytes.length)
    (hsm : n ≠ c.ob.bytes.length ∨ c.ib.bytes = []) (hw : (w.view c).mcWrite n = .ok (v', next))
    (hnext : next ≠ .closed) :
    c.ob.bytes.take n ++ v'.c.ob.bytes = c.ob.bytes ∧ Phase (w.back fd (.ok (v', next))) fd v'.c rest := by
  have hreplying : 0 < n → c.rd = false ∧ c.ib.bytes ++ stream c.sock = wires rest := by
    intro hpos
    have hpend : c.ob.bytes ≠ [] := by
      intro hnil
      rw [hnil] at hn
      exact absurd hn (Nat.not_le.mpr hpos)
    cases h with
    | idle _ hob => exact absurd hob hpend
    | replying _ hrd _ hstream => exact ⟨hrd, hstream⟩
    | awaiting h' => nomatch hrun.symm.trans h'
    | filled h' => nomatch hrun.symm.trans h'
    | closing h' => nomatch hrun.symm.trans h'
  cases mcWrite_cases hw with
  | drained _ hpos hdrained =>
    obtain ⟨-, hstream⟩ := hreplying hpos
    have hall : c.ob.bytes.length ≤ n := List.drop_eq_nil_iff.mp hdrained
    have hib : c.ib.bytes = [] := hsm.resolve_left fun hne => hne (Nat.le_antisymm hn hall)
    refine ⟨(List.append_nil _).trans (List.take_of_length_le hall), .idle rfl rfl rfl ?_ fun _ => rfl⟩
    rw [hib] at hstream
    exact hstream
  | sent _ hpos hleft =>
    obtain ⟨hrd, hstream⟩ := hreplying hpos
    exact ⟨List.take_append_drop n _, .replying hleft hrd nofun hstream⟩
  | closed => exact absurd rfl hnext

/-- A step in which the connection does and sends nothing. -/
theorem talk_quiet {s s' : Seen} (h : s.Talk fd cmds) (hacts : s'.acts = s.acts) (hsent : s'.sent = s.sent)
    (hconn : ∀ c', s'.world.conn fd = some c' → ∃ c, s.world.conn fd = some c ∧ c'.ob = c.ob ∧
      ∀ rest, Phase s.world fd c rest → Phase s'.world fd c' rest) : s'.Talk fd cmds := by
  intro c' hc'
  obtain ⟨c, hc, hob, hphase⟩ := hconn c' hc'
  obtain ⟨done, rest, hcmds, hdone, hout, hph⟩ := h c hc
  refine ⟨done, rest, hcmds, by rw [hacts]; exact hdone, ?_, hphase rest hph⟩
  rw [hacts, hsent, hob]
  exact hout

/-- A turn of the connection. -/
theorem talk_turn {s : Seen} {r : Except End (View × Next)} (h : s.Talk fd cmds) (hwf : ∀ x ∈ cmds, x.Wf)
    (hrun : s.world.running = some fd) (hc : s.world.conn fd = some c) (hsm : s.world.takesWhole c env = true)
    (hr : (s.world.view c).turn hash env = r) :
    Seen.Talk fd cmds
      { world := s.world.back fd r, acts := s.acts ++ s.world.acted fd (s.world.back fd r) (.turn env),
        sent := s.sent ++ s.world.sends fd (.turn env) } := by
  intro c' hc'
  obtain ⟨done, rest, rfl, hdone, hout, hph⟩ := h c hc
  have hsends : s.world.sends fd (.turn env) = [] := rfl
  have hacted : s.world.acted fd (s.world.back fd r) (.turn env) =
      if c'.ob.r = c.ob.r then [] else [(s.world.act c, c'.ob.bytes.drop c.ob.bytes.length)] := by
    rw [World.acted, if_pos hrun, hc, hc']
  rw [hacted, hsends, List.append_nil]
  rcases back_conn hc' with ⟨v', next, rfl, hnext, -, rfl⟩ | ⟨hsame, ⟨e, rfl⟩ | hne⟩
  · have hwf' : ∀ x ∈ rest, x.Wf := fun x hx => hwf x (List.mem_append_right _ hx)
    rcases own_turn hph hrun hwf' hsm (turn_cases hr) hnext with ⟨hob, hph'⟩
    | ⟨x, rest', reply, rfl, hact, hob, hne, hph'⟩
    · rw [if_pos (congrArg Buf.r hob), List.append_nil, hob]
      exact ⟨done, rest, rfl, hdone, hout, hph'⟩
    · have hr : v'.c.ob.r ≠ c.ob.r := by
        have hpos := List.length_pos_iff.mpr hne
        rw [hob, Buf.put]
        dsimp only
        omega
      have hdrop : v'.c.ob.bytes.drop c.ob.bytes.length = reply := by
        rw [hob, Buf.put]
        exact List.drop_left
      rw [if_neg hr, hdrop, hact]
      refine ⟨done ++ [x], rest', by simp, by simp [hdone], ?_, hph'⟩
      rw [List.map_append, List.flatten_append, ← hout, hob, Buf.put]
      simp
  · obtain rfl : c = c' := Option.some.inj (hc.symm.trans hsame)
    rw [if_pos rfl, List.append_nil]
    exact ⟨done, rest, rfl, hdone, hout, hph.ended _⟩
  · exact absurd rfl hne

theorem mcWrite_fails {n : Nat} {e : End} (h : v.mcWrite n = .error e) : n = 0 := by
  rw [View.mcWrite] at h
  split at h
  · dsimp only at h
    split at h
    · cases h
    · cases h
  · next hpos => exact Nat.eq_zero_of_not_pos hpos

/-- A `mc_write` of the connection. -/
theorem talk_write {s : Seen} {n : Nat} {r : Except End (View × Next)} (h : s.Talk fd cmds)
    (hrun : s.world.running = none)
    (hc : s.world.conn fd = some c) (hn : n ≤ c.ob.bytes.length) (hsm : n ≠ c.ob.bytes.length ∨ c.ib.bytes = [])
    (hr : (s.world.view c).mcWrite n = r) :
    Seen.Talk fd cmds
      { world := s.world.back fd r, acts := s.acts ++ s.world.acted fd (s.world.back fd r) (.write fd n),
        sent := s.sent ++ s.world.sends fd (.write fd n) } := by
  intro c' hc'
  obtain ⟨done, rest, rfl, hdone, hout, hph⟩ := h c hc
  have hsends : s.world.sends fd (.write fd n) = c.ob.bytes.take n := by
    rw [World.sends, if_pos rfl, hc]
    rfl
  have hacted : s.world.acted fd (s.world.back fd r) (.write fd n) = [] := rfl
  rw [hsends, hacted, List.append_nil]
  rcases back_conn hc' with ⟨v', next, rfl, hnext, -, rfl⟩ | ⟨hsame, ⟨e, rfl⟩ | hne⟩
  · obtain ⟨hob, hph'⟩ := hph.write hrun hn hsm hr hnext
    refine ⟨done, rest, rfl, hdone, ?_, hph'⟩
    rw [List.append_assoc, hob]
    exact hout
  · obtain rfl : c = c' := Option.some.inj (hc.symm.trans hsame)
    obtain rfl : n = 0 := mcWrite_fails hr
    refine ⟨done, rest, rfl, hdone, ?_, hph.ended _⟩
    rw [List.take_zero, List.append_nil]
    exact hout
  · exact absurd rfl hne

theorem back_elsewhere {r : Except End (View × Next)} {fd' : Fd} (he : fd ≠ fd') (h : (w.back fd' r).conn fd = some c) :
    w.conn fd = some c := by
  rcases back_conn h with ⟨-, -, -, -, hfd, -⟩ | ⟨hw, -⟩
  · exact absurd hfd he
  · exact hw

/-- A step goes on with the conversation. -/
theorem talk_step {s s' : Seen} {e : Call} (h : s.Talk fd cmds) (hwf : ∀ x ∈ cmds, x.Wf)
    (hs : s.step hash fd e = some s') (hsm : s.world.smooth fd e = true) : s'.Talk fd cmds := by
  obtain ⟨w', hw, rfl⟩ := Option.map_eq_some_iff.mp hs
  obtain ⟨-, hw⟩ := step_stepped hw
  cases hw with
  | @accept fd' sock hrun hfd =>
    have hne : fd ≠ fd' := fun he => absurd he.symm (of_decide_eq_true hsm)
    refine talk_quiet h (List.append_nil _) (List.append_nil _) fun c' hc' => ?_
    dsimp only at hc'
    rw [Function.update_of_ne hne] at hc'
    exact ⟨c', hc', rfl, fun rest hph => hph.elsewhere (by rw [hrun]; nofun) (by rw [hrun]; nofun)⟩
  | @read fd' c hrun hc =>
    refine talk_quiet h (List.append_nil _) (List.append_nil _) fun c' hc' => ⟨c', hc', rfl, fun rest hph => ?_⟩
    by_cases he : fd' = fd
    · subst he
      have hrd : c'.rd = true := by
        rw [World.smooth, show s.world.conn fd' = some c' from hc'] at hsm
        simpa using hsm
      exact hph.read hrun hrd
    · exact hph.elsewhere (by rw [hrun]; nofun) fun hr => he (Option.some.inj hr)
  | @turn fd' c env hrun hc hmem =>
    by_cases he : fd' = fd
    · subst he
      have hwhole : s.world.takesWhole c env = true := by
        rw [World.smooth, hc] at hsm
        simpa [hrun] using hsm
      exact talk_turn h hwf hrun hc hwhole rfl
    · have hidle : s.world.running ≠ some fd := fun hr => he (Option.some.inj (hrun.symm.trans hr))
      have hacted : s.world.acted fd (s.world.back fd' ((s.world.view c).turn hash env)) (.turn env) = [] := by
        rw [World.acted, if_neg hidle]
      refine talk_quiet h ?_ (List.append_nil _) fun c' hc' =>
        ⟨c', back_elsewhere (Ne.symm he) hc', rfl, fun rest hph => ?_⟩
      · rw [hacted, List.append_nil]
      · exact hph.elsewhere hidle fun hr => (back_running hr).elim hidle (Ne.symm he)
  | @write fd' c n hrun hc hn =>
    by_cases he : fd' = fd
    · subst he
      have hdrain : n ≠ c.ob.bytes.length ∨ c.ib.bytes = [] := by
        rw [World.smooth, hc] at hsm
        simpa using hsm
      exact talk_write h hrun hc hn hdrain rfl
    · have hidle : s.world.running ≠ some fd := by rw [hrun]; nofun
      have hsends : s.world.sends fd (.write fd' n) = [] := by rw [World.sends, if_neg he]
      refine talk_quiet h (List.append_nil _) ?_ fun c' hc' =>
        ⟨c', back_elsewhere (Ne.symm he) hc', rfl, fun rest hph => ?_⟩
      · rw [hsends, List.append_nil]
      · exact hph.elsewhere hidle fun hr => (back_running hr).elim hidle (Ne.symm he)

/-- Where a conversation has come to rest, it is complete. -/
theorem Seen.Talk.complete {s : Seen} (h : s.Talk fd cmds) : s.Complete fd cmds := by
  intro c hc hrun hstate hob hsock
  obtain ⟨done, rest, rfl, hdone, hout, hph⟩ := h c hc
  have hrest : rest = [] := by
    cases hph with
    | idle _ _ _ hstream hempty =>
      rw [hempty hrun, hsock] at hstream
      cases rest with
      | nil => rfl
      | cons x rest =>
        rw [wires_cons] at hstream
        nomatch (List.append_eq_nil_iff.mp hstream.symm).2
    | replying hpend => exact absurd hob hpend
    | awaiting h' => exact absurd h' hrun
    | filled h' => exact absurd h' hrun
    | closing h' => exact absurd h' hrun
  rw [hrest, List.append_nil]
  rw [hob, List.append_nil] at hout
  exact ⟨hdone, hout⟩

/-- Where each update finds its block, and no answer is sent to its end while bytes are unread, a conversation that
has come to rest is complete: every command has acted once and was answered, in order. -/
theorem pipelined_answered (hash : List UInt8 → UInt32) (fd : Fd) (w : World) (sock : List Recv) (cmds : List Cmd)
    (es : List Call)
    (hconn : w.conn fd = some (.init sock)) (hsock : stream sock = wires cmds) (hwf : ∀ x ∈ cmds, x.Wf)
    (hsm : AllSteps (Seen.step hash fd) (fun s e _ => s.world.smooth fd e = true) ⟨w, [], []⟩ es) :
    AllStates (Seen.step hash fd) (Seen.Complete fd cmds) ⟨w, [], []⟩ es := by
  have h₀ : Seen.Talk fd cmds ⟨w, [], []⟩ := by
    intro c hc
    obtain rfl : Conn.init sock = c := Option.some.inj (hconn.symm.trans hc)
    exact ⟨[], cmds, rfl, rfl, rfl, .idle rfl rfl rfl hsock fun _ => rfl⟩
  exact (AllStates.of_invariant h₀ (fun s e s' h hs hc => talk_step h hwf hs hc) hsm).mono fun s h => h.complete

/-- A world in which one client was accepted. -/
def World.oneClient (fd : Fd) (sock : List Recv) : World :=
  { World.init 1 with conn := Function.update (World.init 1).conn fd (some (.init sock)) }

/-- An update and then a `get`, which comes in two pieces and is answered in two. -/
theorem pipelined_two_commands :
    AllStates (Seen.step (fun _ => 0) 5)
      (Seen.Complete 5 [.update (lit "set a 0 0 1\r") (lit "x"), .single (lit "get a\r")])
      ⟨World.oneClient 5 [.bytes (lit "set a 0 0 1\r\nx\r\n"), .bytes (lit "get"), .bytes (lit " a\r\n")], [], []⟩
      [.read 5, .turn (.at 100), .turn (.at 100), .turn (.at 200), .turn (.at 200), .write 5 8, .read 5,
        .turn (.at 200), .turn (.at 200), .turn (.at 200), .write 5 20, .write 5 1] := by
  refine pipelined_answered _ _ _ [.bytes (lit "set a 0 0 1\r\nx\r\n"), .bytes (lit "get"),
    .bytes (lit " a\r\n")] _ _ rfl (by decide) ?_ (by decide +kernel)
  intro x hx
  rcases List.mem_pair.mp hx with rfl | rfl
  · exact ⟨⟨by decide, by decide, by decide, by decide, by decide, by decide⟩, by decide⟩
  · exact ⟨by decide, by decide⟩

/-- Two commands in one result of `recv`: the second one is never answered. -/
theorem second_command_lost :
    ¬AllStates (Seen.step (fun _ => 0) 5) (Seen.Complete 5 [.single (lit "version\r"), .single (lit "version\r")])
      ⟨World.oneClient 5 [.bytes (lit "version\r\nversion\r\n")], [], []⟩
      [.read 5, .turn (.at 100), .turn (.at 100), .write 5 15] := by
  intro h
  have hlast := h.last (rfl : exec (Seen.step (fun _ => 0) 5)
    ⟨World.oneClient 5 [.bytes (lit "version\r\nversion\r\n")], [], []⟩
    [.read 5, .turn (.at 100), .turn (.at 100), .write 5 15] = some _)
  have hacts := (hlast _ rfl nofun rfl rfl rfl).1
  nomatch congrArg List.length hacts

end ZeroServ.Mc
