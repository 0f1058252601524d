import ZeroServ.Memcached.Callbacks

/-!
# What a turn of `mc_read` does

`process_command` either answers (`Answered`) or takes an update and waits for its data (`Accepted`); `turn_cases`
says of a turn what it does to its connection, one case for each path of the loop that does not end the process.
-/

namespace ZeroServ.Mc

open CString

variable {hash : List UInt8 → UInt32} {v v' v₁ : View} {env : Env} {tokens : List (List UInt8)} {comm : Comm}

/-- From a result of two steps to the result of the first one. -/
theorem bind_eq_ok {ε α β : Type} {x : Except ε α} {f : α → Except ε β} {b : β} (h : (x >>= f) = .ok b) :
    ∃ a, x = .ok a ∧ f a = .ok b := by
  cases x with
  | error e => nomatch h
  | ok a => exact ⟨a, rfl, h⟩

theorem orEnd_eq_ok {α : Type} {x : Except Fault α} {a : α} (h : orEnd x = .ok a) : x = .ok a := by
  cases x with
  | error e => nomatch h
  | ok b => exact congrArg _ (Except.ok.inj h)

/-- A reply was appended to the output buffer and writing enabled; nothing else of the connection has changed. -/
structure Answered (c : Conn) (reply : List UInt8) (c' : Conn) : Prop where
  conn : c' = { c with ob := c.ob.put reply, rd := false, wr := true }
  ne_nil : reply ≠ []
  fits : c.ob.r + reply.length ≤ MC_BUFFER_SIZE

theorem Answered.state_eq {c c' : Conn} {reply : List UInt8} (h : Answered c reply c') :
    c'.state = c.state := by rw [h.conn]

theorem Answered.item_eq {c c' : Conn} {reply : List UInt8} (h : Answered c reply c') :
    c'.item = c.item := by rw [h.conn]

/-- The connection was given an item and waits for its data. -/
structure Accepted (v : View) (tokens : List (List UInt8)) (comm : Comm) (env : Env) (v' : View) : Prop where
  key : (tokens.getD 1 []).length ≤ KEY_MAX_LENGTH
  good : (Numbers.read tokens v.errno).bad = false
  alloc : ∃ it, env.mem = some it ∧ (Numbers.read tokens v.errno).vlen.toNat + 2 < 2 ^ 31 ∧
    v'.store = { v.store with
      heap := v.store.heap.alloc it
        (newItem (tokens.getD 1 []) (Numbers.read tokens v.errno).flags 0
        ((Numbers.read tokens v.errno).vlen.toNat + 2) env.found) } ∧
    v'.c = { v.c with
      item := some it, ritem := 0, rlbytes := (Numbers.read tokens v.errno).vlen.toNat + 2
      itemComm := comm, state := .nread, rd := true }

/-! ## Replies -/

theorem Buf.put_put (b : Buf) (a c : List UInt8) : (b.put a).put c = b.put (a ++ c) := by
  simp only [Buf.put, List.append_assoc, List.length_append, Nat.add_assoc]

theorem Buf.put_nil (b : Buf) : b.put [] = b := by
  simp only [Buf.put, List.append_nil, List.length_nil, Nat.add_zero]

/-- Two answers that leave one buffer are one. -/
theorem Buf.put_inj {b : Buf} {x y : List UInt8} (h : b.put x = b.put y) : x = y :=
  List.append_cancel_left (congrArg Buf.bytes h)

theorem Answered.ob_iff {c c' : Conn} {reply text : List UInt8} (h : Answered c reply c') :
    c'.ob = c.ob.put text ↔ reply = text := by
  rw [h.conn]
  exact ⟨Buf.put_inj, congrArg c.ob.put⟩

theorem addOutString_eq_ok {data : List UInt8} (h : v.addOutString data = .ok v') :
    v.c.ob.r + data.length ≤ MC_BUFFER_SIZE ∧ v' = { v with c := { v.c with ob := v.c.ob.put data } }.setWr := by
  rw [View.addOutString] at h
  split at h
  · next hle => exact ⟨hle, (Except.ok.inj h).symm⟩
  · nomatch h

theorem outString_answered {data : List UInt8} (h : v.outString data = .ok v') : Answered v.c (data ++ crlf) v'.c := by
  obtain ⟨hle, rfl⟩ := addOutString_eq_ok h
  refine ⟨rfl, ?_, hle⟩
  simp [crlf]

/-- Some pieces added one after the other. -/
theorem foldlM_addOutString {pieces : List (List UInt8)} (hne : pieces ≠ [])
    (h : pieces.foldlM View.addOutString v = .ok v') :
    v.c.ob.r + pieces.flatten.length ≤ MC_BUFFER_SIZE ∧
      v' = { v with c := { v.c with ob := v.c.ob.put pieces.flatten } }.setWr := by
  induction pieces generalizing v with
  | nil => exact absurd rfl hne
  | cons p ps ih =>
    rw [List.foldlM_cons] at h
    obtain ⟨v₁, hp, h⟩ := bind_eq_ok h
    obtain ⟨hle, rfl⟩ := addOutString_eq_ok hp
    rcases List.eq_nil_or_concat ps with rfl | hps
    · rw [List.foldlM_nil] at h
      obtain rfl := Except.ok.inj h
      rw [List.flatten_cons, List.flatten_nil, List.append_nil]
      exact ⟨hle, rfl⟩
    · have hps : ps ≠ [] := by
        rintro rfl
        obtain ⟨_, _, hnil⟩ := hps
        simp at hnil
      obtain ⟨hle', rfl⟩ := ih hps h
      have hput : (v.c.ob.put p).put ps.flatten = v.c.ob.put (p :: ps).flatten := by
        rw [Buf.put_put, List.flatten_cons]
      rw [List.flatten_cons, List.length_append]
      refine ⟨?_, ?_⟩
      · have hr : (v.c.ob.put p).r = v.c.ob.r + p.length := rfl
        change (v.c.ob.put p).r + _ ≤ _ at hle'
        omega
      · rw [← List.flatten_cons, ← hput]
        rfl

theorem getReply_ne_nil (it : Option (List UInt8 × Value)) : getReply it ≠ [] ∧ (getReply it).flatten ≠ [] := by
  cases it with
  | none => exact ⟨List.cons_ne_nil _ _, by decide⟩
  | some x =>
    obtain ⟨key, suffix, data⟩ := x
    exact ⟨List.cons_ne_nil _ _, by simp [getReply, lit]⟩

/-- What a command does that was processed: it answers and leaves the store as it is, or answers with an item, or
finds no memory for an update and answers that, or waits for the data of the update. -/
inductive Processed (hash : List UInt8 → UInt32) (v : View) (tokens : List (List UInt8)) (env : Env) : View → Prop where
  | said {reply : List UInt8} {v' : View} (hans : Answered v.c reply v'.c) (hstore : v'.store = v.store) :
      Processed hash v tokens env v'
  | got {it : Option (List UInt8 × Value)} {v' : View}
      (hget : processGetCommand hash v.store (tokens.getD 1 []) env.now = .ok (v'.store, it))
      (hans : Answered v.c (getReply it).flatten v'.c) : Processed hash v tokens env v'
  | refused {comm : Comm} {v' : View} (hans : Answered v.c (Texts.outOfMemory ++ crlf) v'.c)
      (hfail : failedAlloc hash v.store (tokens.getD 1 []) comm env.now = .ok v'.store) : Processed hash v tokens env v'
  | await {comm : Comm} {v' : View} (hacc : Accepted v tokens comm env v') : Processed hash v tokens env v'

theorem outString_processed {data : List UInt8} (h : v.outString data = .ok v') : Processed hash v tokens env v' := by
  have hans := outString_answered h
  obtain ⟨-, rfl⟩ := addOutString_eq_ok h
  exact .said hans rfl

/-- `process_get_command` answers with the item that it finds. -/
theorem processGetCommand_processed (h : v.processGetCommand hash tokens env = .ok v') :
    Processed hash v tokens env v' := by
  rw [View.processGetCommand] at h
  obtain ⟨⟨s, it⟩, hget, h⟩ := bind_eq_ok h
  obtain ⟨hle, rfl⟩ := foldlM_addOutString (getReply_ne_nil it).1 h
  exact .got (orEnd_eq_ok hget) ⟨rfl, (getReply_ne_nil it).2, hle⟩

/-- An update that is well formed is answered that there is no memory for it, or waits for its data. -/
theorem processUpdateCommand_good (hkey : ¬KEY_MAX_LENGTH < (tokens.getD 1 []).length)
    (hbad : ¬(Numbers.read tokens v.errno).bad = true) (h : v.processUpdateCommand hash tokens comm env = .ok v') :
    ((env.mem = none ∨ 2 ^ 31 ≤ (Numbers.read tokens v.errno).vlen.toNat + 2) ∧
      Answered v.c (Texts.outOfMemory ++ crlf) v'.c ∧
        failedAlloc hash v.store (tokens.getD 1 []) comm env.now = .ok v'.store) ∨
      Accepted v tokens comm env v' := by
  rw [View.processUpdateCommand, if_neg hkey] at h
  dsimp only at h
  rw [if_neg hbad] at h
  by_cases hlen : (Numbers.read tokens v.errno).vlen.toNat + 2 < 2 ^ 31 ∧ env.mem ≠ none
  · obtain ⟨q, hq⟩ := Option.ne_none_iff_exists'.mp hlen.2
    rw [hq, doItemAlloc_some hlen.1] at h
    obtain rfl := Except.ok.inj h
    exact .inr ⟨Nat.not_lt.mp hkey, Bool.eq_false_iff.mpr hbad, q, hq, hlen.1, rfl, rfl⟩
  · have hno : env.mem = none ∨ 2 ^ 31 ≤ (Numbers.read tokens v.errno).vlen.toNat + 2 := by
      rcases not_and_or.mp hlen with hlarge | hnone
      · exact .inr (Nat.not_lt.mp hlarge)
      · exact .inl (not_not.mp hnone)
    rw [doItemAlloc_none hno] at h
    obtain ⟨v₁, hout, h⟩ := bind_eq_ok h
    obtain ⟨s, hs, h⟩ := bind_eq_ok h
    obtain rfl := Except.ok.inj h
    have hans := outString_answered hout
    have hstore : v₁.store = v.store := by
      obtain ⟨-, rfl⟩ := addOutString_eq_ok hout
      rfl
    rw [hstore] at hs
    exact .inl ⟨hno, ⟨hans.conn, hans.ne_nil, hans.fits⟩, orEnd_eq_ok hs⟩

/-- `process_update_command` answers that the line is malformed, or that there is no memory, or waits for the data. -/
theorem processUpdateCommand_cases (h : v.processUpdateCommand hash tokens comm env = .ok v') :
    (Answered v.c (Texts.badFormat ++ crlf) v'.c ∧ v'.store = v.store) ∨
      (Answered v.c (Texts.outOfMemory ++ crlf) v'.c ∧
        failedAlloc hash v.store (tokens.getD 1 []) comm env.now = .ok v'.store) ∨
      Accepted v tokens comm env v' := by
  by_cases hkey : KEY_MAX_LENGTH < (tokens.getD 1 []).length
  · rw [View.processUpdateCommand, if_pos hkey] at h
    have hans := outString_answered h
    obtain ⟨-, rfl⟩ := addOutString_eq_ok h
    exact .inl ⟨hans, rfl⟩
  · by_cases hbad : (Numbers.read tokens v.errno).bad = true
    · rw [View.processUpdateCommand, if_neg hkey] at h
      dsimp only at h
      rw [if_pos hbad] at h
      have hans := outString_answered h
      obtain ⟨-, rfl⟩ := addOutString_eq_ok h
      exact .inl ⟨hans, rfl⟩
    · rcases processUpdateCommand_good hkey hbad h with ⟨-, hans, hfail⟩ | hacc
      · exact .inr (.inl ⟨hans, hfail⟩)
      · exact .inr (.inr hacc)

theorem processUpdateCommand_processed (h : v.processUpdateCommand hash tokens comm env = .ok v') :
    Processed hash v tokens env v' := by
  rcases processUpdateCommand_cases h with ⟨hans, hstore⟩ | ⟨hans, hfail⟩ | hacc
  · exact .said hans hstore
  · exact .refused hans hfail
  · exact .await hacc

/-- An update is no `get`. -/
theorem not_get_of_comm (h : commOf (tokens.headD []) = some comm) :
    ¬(tokens.length + 1 ≥ 3 && (tokens.headD [] = lit "get" || tokens.headD [] = lit "bget")) = true := by
  intro hg
  have hw : tokens.headD [] = lit "get" ∨ tokens.headD [] = lit "bget" := by simpa using (Bool.and_eq_true_iff.mp hg).2
  have hno : commOf (lit "get") = none ∧ commOf (lit "bget") = none := by decide
  rcases hw with hw | hw
  · rw [hw, hno.1] at h
    nomatch h
  · rw [hw, hno.2] at h
    nomatch h

/-- The cases of `process_command`. -/
theorem processCommand_processed {command : List UInt8} (h : v.processCommand hash command env = .ok v') :
    Processed hash v (tokenizeCommand command MAX_TOKENS).1 env v' := by
  rw [View.processCommand] at h
  split at h
  · exact processGetCommand_processed h
  · split at h
    · exact processUpdateCommand_processed h
    · split at h
      · exact outString_processed h
      · split at h
        · exact outString_processed h
        · exact outString_processed h

/-- A processed command has answered, or waits for data. -/
theorem Processed.answered (h : Processed hash v tokens env v') :
    (∃ reply, Answered v.c reply v'.c) ∨ ∃ comm, Accepted v tokens comm env v' := by
  cases h with
  | said hans => exact .inl ⟨_, hans⟩
  | got _ hans => exact .inl ⟨_, hans⟩
  | refused hans => exact .inl ⟨_, hans⟩
  | await hacc => exact .inr ⟨_, hacc⟩

/-! ## Receiving -/

/-- The bytes that the `recv` calls of a connection bring. -/
def stream (sock : List Recv) : List UInt8 :=
  sock.flatMap fun r =>
    match r with
    | .bytes bs => bs
    | .eof | .failed _ => []

@[simp] theorem stream_nil : stream [] = [] := rfl

@[simp] theorem stream_bytes (bs : List UInt8) (rest : List Recv) :
    stream (.bytes bs :: rest) = bs ++ stream rest := rfl

@[simp] theorem stream_failed (e : Errno) (rest : List Recv) : stream (.failed e :: rest) = stream rest := rfl

/-- `recv` stores the next bytes of the stream, or returns 0 or -1. -/
theorem recv_cases (v : View) {n : Nat} (hn : 0 < n) :
    (∃ got sock', got ≠ [] ∧ got.length ≤ n ∧ got ++ stream sock' = stream v.c.sock ∧
      (v.recv n).1 = { v with c := { v.c with sock := sock', ib := v.c.ib.put got } } ∧ (v.recv n).2 = got.length) ∨
    ∃ sock' e, stream sock' = stream v.c.sock ∧ (v.recv n).1 = { v with errno := e, c := { v.c with sock := sock' } } ∧
      (v.recv n).2 ≤ 0 := by
  rw [View.recv]
  split
  · next hs => exact .inr ⟨[], .again, by rw [hs], by rw [← hs], by simp⟩
  · next bs rest hs =>
    by_cases hbs : bs = []
    · subst hbs
      refine .inr ⟨rest, v.errno, by rw [hs]; rfl, ?_, ?_⟩
      · simp [Buf.put_nil]
      · simp
    · refine .inl ⟨bs.take n, if bs.length ≤ n then rest else .bytes (bs.drop n) :: rest, ?_, List.length_take_le ..,
        ?_, rfl, rfl⟩
      · rw [ne_eq, List.take_eq_nil_iff]
        rintro (h0 | hnil)
        · omega
        · exact hbs hnil
      · rw [hs]
        split
        · next hle => rw [List.take_of_length_le hle, stream_bytes]
        · rw [stream_bytes, stream_bytes, ← List.append_assoc, List.take_append_drop]
  · next rest hs => exact .inr ⟨rest, v.errno, by rw [hs]; rfl, rfl, by simp⟩
  · next e rest hs => exact .inr ⟨rest, e, by rw [hs]; rfl, rfl, by simp⟩

theorem readBytes_eq_ok {bytes res : Int} (h : v.readBytes bytes = .ok (v', res)) :
    0 < bytes ∧ bytes ≤ v.c.ib.remainWrite ∧ v.recv bytes.toNat = (v', res) := by
  rw [View.readBytes] at h
  split at h
  · nomatch h
  · next hno =>
    obtain ⟨h₁, h₂⟩ := not_or.mp hno
    exact ⟨Int.not_le.mp h₁, Int.not_lt.mp h₂, Except.ok.inj h⟩

/-- What the connection is after `try_read_network`: it has got bytes, which leave room in the buffer, or its `recv`
would block, or it is being closed. -/
inductive Networked (c : Conn) : Conn → Prop where
  | got (bs : List UInt8) (sock' : List Recv) (hne : bs ≠ []) (hroom : c.ib.r + bs.length < MC_BUFFER_SIZE)
      (hs : bs ++ stream sock' = stream c.sock) : Networked c { c with sock := sock', ib := c.ib.put bs }
  | blocked (sock' : List Recv) (hs : stream sock' = stream c.sock) : Networked c { c with sock := sock' }
  | closing (sock' : List Recv) (hs : stream sock' = stream c.sock) : Networked c
    { c with sock := sock', state := .closing }

theorem Networked.item_eq {c c' : Conn} (h : Networked c c') : c'.item = c.item := by cases h <;> rfl

/-- A connection that waits for data has not begun to by reading from the network. -/
theorem Networked.not_waiting {c c' : Conn} (h : Networked c c') (hstate : c.state ≠ .nread) : c'.state ≠ .nread := by
  cases h with
  | got | blocked => exact hstate
  | closing => nofun

theorem tryReadNetwork_networked (h : v.tryReadNetwork = .ok v') : v'.store = v.store ∧ Networked v.c v'.c := by
  rw [View.tryReadNetwork] at h
  obtain ⟨⟨v₁, res⟩, hread, h⟩ := bind_eq_ok h
  obtain ⟨hpos, hle, hrecv⟩ := readBytes_eq_ok hread
  rcases recv_cases v (Int.pos_iff_toNat_pos.mp hpos) with ⟨got, sock', hne, hlen, hs, h₁, h₂⟩ | ⟨sock', e, hs, h₁, h₂⟩
  · rw [hrecv] at h₁ h₂
    obtain rfl : v₁ = _ := h₁
    obtain rfl : res = _ := h₂
    have hgot : (0 : Int) < got.length := Int.natCast_pos.mpr (List.length_pos_iff.mpr hne)
    dsimp only at h
    rw [if_pos hgot] at h
    split at h
    · next hfull =>
      -- the buffer is full, so that the next turn reads no bytes
      obtain ⟨⟨v₂, res₂⟩, hread₂, -⟩ := bind_eq_ok h
      obtain ⟨hpos₂, -, -⟩ := readBytes_eq_ok hread₂
      simp only [View.countRead, Buf.put, Buf.remainWrite] at hpos₂ hfull
      omega
    · next hroom =>
      obtain rfl := Except.ok.inj h
      refine ⟨rfl, .got got sock' hne ?_ hs⟩
      rw [Buf.remainWrite] at hroom hlen hle
      omega
  · rw [hrecv] at h₁ h₂
    obtain rfl : v₁ = _ := h₁
    dsimp only at h h₂
    rw [if_neg (Int.not_lt.mpr h₂)] at h
    split at h
    · obtain rfl := Except.ok.inj h
      exact ⟨rfl, .blocked sock' hs⟩
    · obtain rfl := Except.ok.inj h
      exact ⟨rfl, .closing sock' hs⟩

/-! ## Turns -/

/-- The line in front of the first line feed, and the command that it is. -/
def nextLine (bytes : List UInt8) : List UInt8 := bytes.takeWhile (· != 10)

def commandOf (line : List UInt8) : List UInt8 :=
  if line.length > 1 && line.getLast? = some 13 then line.dropLast else line

/-- What a turn does that does not end the process. -/
inductive Turned (hash : List UInt8 → UInt32) (v : View) (env : Env) : View → Next → Prop where
  /-- a command is answered -/
  | reply {reply : List UInt8} {v₁ : View} (hstate : v.c.state = .read) (hline : 10 ∈ v.c.ib.bytes)
      (hrun : v.processCommand hash (commandOf (nextLine v.c.ib.bytes)) env = .ok v₁) (hans : Answered v.c reply v₁.c) :
      Turned hash v env { v₁ with c := { v₁.c with ib := v₁.c.ib.advance ((nextLine v.c.ib.bytes).length + 1) } } .stop
  /-- an update is taken -/
  | await {comm : Comm} {v₁ : View} {next : Next} (hstate : v.c.state = .read) (hline : 10 ∈ v.c.ib.bytes)
      (hrun : v.processCommand hash (commandOf (nextLine v.c.ib.bytes)) env = .ok v₁)
      (hacc : Accepted v (tokenizeCommand (commandOf (nextLine v.c.ib.bytes)) MAX_TOKENS).1 comm env v₁)
      (hnext : next = if v.c.wr then .stop else .go) :
      Turned hash v env { v₁ with c := { v₁.c with ib := v₁.c.ib.advance ((nextLine v.c.ib.bytes).length + 1) } } next
  /-- no line is complete -/
  | network {v₁ : View} (hstate : v.c.state = .read) (hline : 10 ∉ v.c.ib.bytes) (hstore : v₁.store = v.store)
      (hnet : Networked v.c v₁.c) : Turned hash v env v₁ .go
  /-- an update is completed -/
  | complete {it : Ptr} {reply : Reply} {v₁ : View} (hstate : v.c.state = .nread) (hrl : v.c.rlbytes = 0)
      (hit : v.c.item = some it) (hrun : completeNread hash v.store it v.c.itemComm env = .ok (v₁.store, reply))
      (hans : Answered v.c (View.replyText reply ++ crlf) v₁.c) :
      Turned hash v env { v₁ with c := { v₁.c with item := none, rd := false } } .stop
  /-- bytes are copied to the item -/
  | copy {it : Ptr} {x : Item} {data : List UInt8} (hstate : v.c.state = .nread) (hrl : v.c.rlbytes ≠ 0)
      (hne : v.c.ib.bytes ≠ []) (hit : v.c.item = some it) (hx : v.store.heap.get it = some x)
      (hdata : memcpyData x.data v.c.ritem (v.c.ib.bytes.take v.c.rlbytes) = .ok data) :
      Turned hash v env
        { v with
          store := v.store.modify it fun y => { y with data }
          c :=
            { v.c with
              ritem := v.c.ritem + (v.c.ib.bytes.take v.c.rlbytes).length
              rlbytes := v.c.rlbytes - (v.c.ib.bytes.take v.c.rlbytes).length
              ib := v.c.ib.advance (v.c.ib.bytes.take v.c.rlbytes).length } } .go
  /-- the rest of the data is received in part -/
  | recvd {v₁ : View} {got : List UInt8} {sock' : List Recv} (hstate : v.c.state = .nread) (hrl : v.c.rlbytes ≠ 0)
      (hemp : v.c.ib.bytes = []) (hne : got ≠ []) (hlen : got.length ≤ v.c.rlbytes)
      (hs : got ++ stream sock' = stream v.c.sock)
      (hroom : v.c.ib.r + v.c.rlbytes ≤ MC_BUFFER_SIZE) (hstore : v₁.store = v.store)
      (hc : v₁.c = { v.c with
        sock := sock', ib := v.c.ib.put got, ritem := v.c.ritem + got.length, rlbytes := v.c.rlbytes - got.length }) :
      Turned hash v env v₁ .go
  /-- the rest of the data does not come -/
  | failed {v₁ : View} {sock' : List Recv} (hstate : v.c.state = .nread) (hrl : v.c.rlbytes ≠ 0)
      (hemp : v.c.ib.bytes = [])
      (hs : stream sock' = stream v.c.sock) (hstore : v₁.store = v.store)
      (hc : v₁.c = { v.c with sock := sock', state := .closing }) :
      Turned hash v env v₁ .go
  /-- the connection is closed -/
  | closed {v₁ : View} (hstate : v.c.state = .closing) (hrun : release v.store v.c.item = .ok v₁.store)
      (hc : v₁.c = { v.c with item := none }) : Turned hash v env v₁ .closed
  /-- the loop has no case for the state -/
  | spin (hstate : v.c.state ≠ .read ∧ v.c.state ≠ .nread ∧ v.c.state ≠ .closing) : Turned hash v env v .go

/-- Bytes are copied to an item, the data of which have room for them. -/
theorem copyData_ok {it : Ptr} {x : Item} {data : List UInt8} (hit : v.c.item = some it)
    (hx : v.store.heap.get it = some x)
    (hdata : memcpyData x.data v.c.ritem (v.c.ib.bytes.take v.c.rlbytes) = .ok data) :
    v.copyData = .ok
      { v with
        store := v.store.modify it fun y => { y with data }
        c :=
          { v.c with
            ritem := v.c.ritem + (v.c.ib.bytes.take v.c.rlbytes).length
            rlbytes := v.c.rlbytes - (v.c.ib.bytes.take v.c.rlbytes).length
            ib := v.c.ib.advance (v.c.ib.bytes.take v.c.rlbytes).length } } := by
  rw [View.copyData, hit]
  dsimp only
  rw [Store.deref_ok hx, orEnd, ok_bind, hdata, orEnd, ok_bind, Store.write_ok (by simp [hx])]
  rfl

/-- The turn of `conn_nread` where there are unread bytes. -/
theorem turn_copy {it : Ptr} {x : Item} {data : List UInt8} (hstate : v.c.state = .nread) (hrl : v.c.rlbytes ≠ 0)
    (hne : v.c.ib.bytes ≠ []) (hit : v.c.item = some it) (hx : v.store.heap.get it = some x)
    (hdata : memcpyData x.data v.c.ritem (v.c.ib.bytes.take v.c.rlbytes) = .ok data) :
    v.turn hash env = .ok
      ({ v with
        store := v.store.modify it fun y => { y with data }
        c :=
          { v.c with
            ritem := v.c.ritem + (v.c.ib.bytes.take v.c.rlbytes).length
            rlbytes := v.c.rlbytes - (v.c.ib.bytes.take v.c.rlbytes).length
            ib := v.c.ib.advance (v.c.ib.bytes.take v.c.rlbytes).length } }, .go) := by
  rw [View.turn, hstate]
  dsimp only
  rw [if_neg hrl, if_pos hne, copyData_ok hit hx hdata]
  rfl

theorem Answered.wr {c c' : Conn} {reply : List UInt8} (h : Answered c reply c') : c'.wr = true := by
  rw [h.conn]

theorem connClose_eq_ok (h : v.connClose = .ok v') :
    release v.store v.c.item = .ok v'.store ∧ v'.c = { v.c with item := none } := by
  rw [View.connClose, View.connCleanup] at h
  obtain ⟨v₁, h₁, h⟩ := bind_eq_ok h
  obtain ⟨s, hs, h₁⟩ := bind_eq_ok h₁
  obtain rfl := Except.ok.inj h₁
  obtain rfl := Except.ok.inj h
  exact ⟨orEnd_eq_ok hs, rfl⟩

theorem readTurn_cases {next : Next} (hstate : v.c.state = .read) (h : v.turn hash env = .ok (v', next)) :
    Turned hash v env v' next := by
  rw [View.turn, hstate] at h
  obtain ⟨o, htry, h⟩ := bind_eq_ok h
  rw [View.tryReadCommand] at htry
  split at htry
  · next hline =>
    obtain ⟨v₁, hrun, htry⟩ := bind_eq_ok htry
    obtain rfl := Except.ok.inj htry
    obtain ⟨rfl, rfl⟩ := Prod.mk.inj (Except.ok.inj h)
    rcases (processCommand_processed hrun).answered with ⟨reply, hans⟩ | ⟨comm, hacc⟩
    · dsimp only
      rw [if_pos hans.wr]
      exact .reply hstate hline hrun hans
    · obtain ⟨it, -, -, -, hc⟩ := hacc.alloc
      have hwr : v₁.c.wr = v.c.wr := by rw [hc]
      exact .await hstate hline hrun hacc (by rw [hwr])
  · next hline =>
    obtain rfl := Except.ok.inj htry
    obtain ⟨v₁, hnet, h⟩ := bind_eq_ok h
    obtain ⟨rfl, rfl⟩ := Prod.mk.inj (Except.ok.inj h)
    obtain ⟨hstore, hnet⟩ := tryReadNetwork_networked hnet
    exact .network hstate hline hstore hnet

theorem completeNread_answered (h : v.completeNread hash env = .ok v') :
    ∃ it reply, ∃ v₁ : View, v.c.item = some it ∧
      completeNread hash v.store it v.c.itemComm env = .ok (v₁.store, reply) ∧
      Answered v.c (View.replyText reply ++ crlf) v₁.c ∧
      v' = { v₁ with c := { v₁.c with item := none, rd := false } } := by
  rw [View.completeNread] at h
  split at h
  · nomatch h
  · next it hit =>
    obtain ⟨⟨s, reply⟩, hrun, h⟩ := bind_eq_ok h
    obtain ⟨v₁, hout, h⟩ := bind_eq_ok h
    have hans := outString_answered hout
    have hstore : v₁.store = s := by
      obtain ⟨-, rfl⟩ := addOutString_eq_ok hout
      rfl
    exact ⟨it, reply, v₁, hit, hstore ▸ orEnd_eq_ok hrun, hans, (Except.ok.inj h).symm⟩

theorem nreadTurn_cases {next : Next} (hstate : v.c.state = .nread) (h : v.turn hash env = .ok (v', next)) :
    Turned hash v env v' next := by
  rw [View.turn, hstate] at h
  dsimp only at h
  split at h
  · next hrl =>
    obtain ⟨v₁, hrun, h⟩ := bind_eq_ok h
    obtain ⟨rfl, rfl⟩ := Prod.mk.inj (Except.ok.inj h)
    obtain ⟨it, reply, v₁, hit, hdone, hans, rfl⟩ := completeNread_answered hrun
    dsimp only
    rw [if_pos hans.wr]
    exact .complete hstate hrl hit hdone hans
  · next hrl =>
    split at h
    · next hne =>
      obtain ⟨v₁, hrun, h⟩ := bind_eq_ok h
      obtain ⟨rfl, rfl⟩ := Prod.mk.inj (Except.ok.inj h)
      rw [View.copyData] at hrun
      split at hrun
      · cases hrun
      · next it hit =>
        obtain ⟨x, hx, hrun⟩ := bind_eq_ok hrun
        obtain ⟨data, hdata, hrun⟩ := bind_eq_ok hrun
        obtain ⟨s, hs, hrun⟩ := bind_eq_ok hrun
        obtain rfl := Except.ok.inj hrun
        have hxg : v.store.heap.get it = some x := by
          have hderef := orEnd_eq_ok hx
          rw [Store.deref] at hderef
          split at hderef
          · next y hy => rw [hy, Except.ok.inj hderef]
          · cases hderef
        have hws : v.store.write it _ = .ok s := orEnd_eq_ok hs
        rw [Store.write_ok (by simp [hxg])] at hws
        obtain rfl := Except.ok.inj hws
        exact .copy hstate hrl hne hit hxg (orEnd_eq_ok hdata)
    · next hemp =>
      have hemp := not_not.mp hemp
      obtain ⟨v₁, hrun, h⟩ := bind_eq_ok h
      obtain ⟨rfl, rfl⟩ := Prod.mk.inj (Except.ok.inj h)
      rw [View.recvData] at hrun
      obtain ⟨⟨v₂, res⟩, hread, hrun⟩ := bind_eq_ok hrun
      obtain ⟨hpos, hle, hrecv⟩ := readBytes_eq_ok hread
      rcases recv_cases v (Int.pos_iff_toNat_pos.mp hpos) with ⟨got, sock', hne, hlen, hs, h₁, h₂⟩
      | ⟨sock', e, hs, h₁, h₂⟩
      · rw [hrecv] at h₁ h₂
        obtain rfl : v₂ = _ := h₁
        obtain rfl : res = _ := h₂
        have hgot : (0 : Int) < got.length := Int.natCast_pos.mpr (List.length_pos_iff.mpr hne)
        dsimp only at hrun
        rw [if_pos hgot] at hrun
        obtain rfl := Except.ok.inj hrun
        refine .recvd hstate hrl hemp hne (by omega) hs ?_ rfl rfl
        rw [Buf.remainWrite] at hle
        omega
      · rw [hrecv] at h₁ h₂
        obtain rfl : v₂ = _ := h₁
        dsimp only at hrun h₂
        rw [if_neg (Int.not_lt.mpr h₂)] at hrun
        obtain rfl := Except.ok.inj hrun
        exact .failed hstate hrl hemp hs rfl rfl

/-- The cases of a turn that does not end the process. -/
theorem turn_cases {next : Next} (h : v.turn hash env = .ok (v', next)) : Turned hash v env v' next := by
  cases hstate : v.c.state with
  | read => exact readTurn_cases hstate h
  | nread => exact nreadTurn_cases hstate h
  | closing =>
    rw [View.turn, hstate] at h
    obtain ⟨v₁, hrun, h⟩ := bind_eq_ok h
    obtain ⟨rfl, rfl⟩ := Prod.mk.inj (Except.ok.inj h)
    obtain ⟨hs, hc⟩ := connClose_eq_ok hrun
    exact .closed hstate hs hc
  | listening =>
    rw [View.turn, hstate] at h
    obtain ⟨rfl, rfl⟩ := Prod.mk.inj (Except.ok.inj h)
    exact .spin (by simp [hstate])
  | write =>
    rw [View.turn, hstate] at h
    obtain ⟨rfl, rfl⟩ := Prod.mk.inj (Except.ok.inj h)
    exact .spin (by simp [hstate])
  | swallow =>
    rw [View.turn, hstate] at h
    obtain ⟨rfl, rfl⟩ := Prod.mk.inj (Except.ok.inj h)
    exact .spin (by simp [hstate])
  | mwrite =>
    rw [View.turn, hstate] at h
    obtain ⟨rfl, rfl⟩ := Prod.mk.inj (Except.ok.inj h)
    exact .spin (by simp [hstate])

/-! ## Writing -/

/-- What `mc_write` does: all that is pending is sent, or a part of it, or the connection is closed. -/
inductive Wrote (v : View) (n : Nat) : View → Next → Prop where
  | drained (counters : Counters) (hpos : 0 < n) (hall : (v.c.ob.advance n).bytes = []) :
      Wrote v n { v with counters, c := { v.c with ib := .reset, ob := .reset, state := .read } }.setRd .stop
  | sent (counters : Counters) (hpos : 0 < n) (hleft : (v.c.ob.advance n).bytes ≠ []) :
      Wrote v n { v with counters, c := { v.c with ob := v.c.ob.advance n } } .stop
  | closed {v₁ : View} (hrun : release v.store v.c.item = .ok v₁.store) (hc : v₁.c = { v.c with item := none }) :
      Wrote v n v₁ .closed

theorem mcWrite_cases {n : Nat} {next : Next} (h : v.mcWrite n = .ok (v', next)) : Wrote v n v' next := by
  rw [View.mcWrite] at h
  split at h
  · next hpos =>
    dsimp only at h
    split at h
    · next hall =>
      obtain ⟨rfl, rfl⟩ := Prod.mk.inj (Except.ok.inj h)
      exact .drained _ hpos hall
    · next hleft =>
      obtain ⟨rfl, rfl⟩ := Prod.mk.inj (Except.ok.inj h)
      exact .sent _ hpos hleft
  · obtain ⟨v₁, hclose, h⟩ := bind_eq_ok h
    obtain ⟨rfl, rfl⟩ := Prod.mk.inj (Except.ok.inj h)
    obtain ⟨hs, hc⟩ := connClose_eq_ok hclose
    exact .closed hs hc

end ZeroServ.Mc
