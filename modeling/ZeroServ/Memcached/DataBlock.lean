import ZeroServ.Memcached.Reading

/-!
# The data block of an update

In `conn_nread` bytes come to an item in two ways: from the input buffer, or from a `recv` that leaves them in the
input buffer and moves the data pointer on. Only the first one copies them. `delivered_iff_whole`: whatever the new
item's memory holds, its data is the block that was sent when `complete_nread` runs exactly when the `recv` that
brings the end of the command line brings the whole block.
-/

namespace ZeroServ.Mc

open CString

section statement

variable (hash : List UInt8 → UInt32)

/-- The line is an update command with `n` bytes of data, which `process_update_command` takes. -/
structure UpdateLine (line : List UInt8) (errno : Errno) (n : Nat) : Prop where
  no_feed : 10 ∉ line
  tokens : (tokenizeCommand (commandOf line) MAX_TOKENS).1.length = 5 ∨
    (tokenizeCommand (commandOf line) MAX_TOKENS).1.length = 6
  word : (commOf ((tokenizeCommand (commandOf line) MAX_TOKENS).1.headD [])).isSome
  key : ((tokenizeCommand (commandOf line) MAX_TOKENS).1.getD 1 []).length ≤ KEY_MAX_LENGTH
  good : (Numbers.read (tokenizeCommand (commandOf line) MAX_TOKENS).1 errno).bad = false
  vlen : (Numbers.read (tokenizeCommand (commandOf line) MAX_TOKENS).1 errno).vlen = n

/-- A client's line and block are on their way to a connection that reads commands: unread in its buffer or to be
received, in any pieces, with room for all; the client stays connected. -/
structure Sending (v : View) (line block rest : List UInt8) : Prop where
  state : v.c.state = .read
  quiet : v.c.wr = false
  bytes : v.c.ib.bytes ++ stream v.c.sock = line ++ 10 :: block ++ rest
  inside : v.c.ib.bytes.length ≤ v.c.ib.r
  room : v.c.ib.r + (stream v.c.sock).length < MC_BUFFER_SIZE
  connected : ∀ r ∈ v.c.sock, r.ends = false

/-- Each turn finds memory. -/
def Granted (v : View) (envs : Nat → Env) : Prop := ∀ k, ∃ p, (envs k).mem = some p ∧ v.store.heap.get p = none

/-- `complete_nread` runs with the block as the item's data, and the connection is never to be closed. -/
def Delivered (v : View) (envs : Nat → Env) (block : List UInt8) : Prop :=
  (∃ n v₁ it x, v.mcRead hash n envs = .ok (v₁, .go) ∧ v₁.c.state = .nread ∧ v₁.c.rlbytes = 0 ∧ v₁.c.item = some it ∧
    v₁.store.heap.get it = some x ∧ x.data = block) ∧
  ∀ n v₁, v.mcRead hash n envs = .ok (v₁, .go) → v₁.c.state ≠ .closing

/-- The results of `recv` that bring the end of the line bring the whole block. -/
def Whole (c : Conn) (line block : List UInt8) : Prop :=
  ∀ pre post, c.sock = pre ++ post → 10 ∈ c.ib.bytes ++ stream pre →
    line.length + 1 + block.length ≤ (c.ib.bytes ++ stream pre).length

end statement

variable {hash : List UInt8 → UInt32} {envs : Nat → Env} {env : Env} {v v' : View} {line block rest : List UInt8}
    {p it : Ptr} {n k : Nat}

/-! ## The command line -/

/-- What `try_read_network` leaves in `errno` makes no numbers malformed. -/
theorem Numbers.bad_again {tokens : List (List UInt8)} {errno : Errno} (h : (Numbers.read tokens errno).bad = false) :
    (Numbers.read tokens .again).bad = false := by
  have hneg : (Numbers.read tokens errno).vlen = (Numbers.read tokens .again).vlen := rfl
  simp only [Numbers.bad, Bool.or_eq_false_iff, decide_eq_false_iff_not] at h
  obtain ⟨⟨hrange, -⟩, hvlen⟩ := h
  have herrno : (Numbers.read tokens .again).errno = .again := by
    rw [Numbers.read] at hrange ⊢
    dsimp only at hrange ⊢
    split at hrange
    · exact absurd rfl hrange
    · next hno => rw [if_neg hno]
  rw [hneg] at hvlen
  simp [Numbers.bad, herrno, hvlen]

theorem UpdateLine.again {errno : Errno} (h : UpdateLine line errno n) : UpdateLine line .again n :=
  ⟨h.no_feed, h.tokens, h.word, h.key, Numbers.bad_again h.good, h.vlen⟩

/-- An update is taken: the connection waits for its data. -/
theorem processCommand_update (hash : List UInt8 → UInt32) (h : UpdateLine line v.errno n) (hp : env.mem = some p)
    (hn : n + 2 < 2 ^ 31) :
    ∃ v' comm, v.processCommand hash (commandOf line) env = .ok v' ∧
      commOf ((tokenizeCommand (commandOf line) MAX_TOKENS).1.headD []) = some comm ∧
      v'.store = { v.store with
        heap := v.store.heap.alloc p
          (newItem ((tokenizeCommand (commandOf line) MAX_TOKENS).1.getD 1 [])
            (Numbers.read (tokenizeCommand (commandOf line) MAX_TOKENS).1 v.errno).flags 0 (n + 2) env.found) } ∧
      v'.c =
        { v.c with
          item := some p, ritem := 0, rlbytes := n + 2, itemComm := comm, state := .nread, rd := true } := by
  obtain ⟨-, htok, hword, hkey, hgood, hvlen⟩ := h
  rw [View.processCommand]
  generalize (tokenizeCommand (commandOf line) MAX_TOKENS).1 = tokens at htok hword hkey hgood hvlen ⊢
  obtain ⟨comm, hcomm⟩ := Option.isSome_iff_exists.mp hword
  have hkind : (if tokens.length + 1 = 6 || tokens.length + 1 = 7 then commOf (tokens.headD []) else none) =
      some comm := by
    rw [if_pos, hcomm]
    rcases htok with ht | ht <;> simp [ht]
  have hlen : (Numbers.read tokens v.errno).vlen.toNat = n := by rw [hvlen, Int.toNat_natCast]
  rw [if_neg (not_get_of_comm hcomm), hkind]
  dsimp only
  rw [View.processUpdateCommand, if_neg (Nat.not_lt.mpr hkey)]
  dsimp only
  rw [hgood, if_neg Bool.false_ne_true, hlen, hp, doItemAlloc_some hn]
  exact ⟨_, comm, rfl, hcomm, rfl, rfl⟩

/-! ## Lost bytes -/

/-- The connection is to be closed, or a byte of its item that the data pointer has passed is not that of the block. -/
def Lost (v : View) (block : List UInt8) : Prop :=
  v.c.state = .closing ∨
    v.c.state = .nread ∧ ∃ it x k, v.c.item = some it ∧ v.store.heap.get it = some x ∧ k < v.c.ritem ∧
    x.data[k]? ≠ block[k]?

/-- What is copied to an offset leaves what is in front of it. -/
theorem memcpyData_front {data data' bs : List UInt8} {ofs : Nat} (h : memcpyData data ofs bs = .ok data')
    (hk : k < ofs) :
    data'[k]? = data[k]? := by
  rw [memcpyData] at h
  split at h
  · next hle =>
    obtain rfl := Except.ok.inj h
    rw [List.append_assoc, List.getElem?_append_left (by rw [List.length_take]; omega), List.getElem?_take_of_lt hk]
  · cases h

/-- A turn makes nothing good. -/
theorem Lost.turn (h : Lost v block) (ht : Turned hash v env v' .go) : Lost v' block := by
  rcases h with hclosing | ⟨hstate, it, x, k, hit, hx, hk, hne⟩
  · cases ht with
    | await h' => rw [hclosing] at h'; nomatch h'
    | network h' => rw [hclosing] at h'; nomatch h'
    | copy h' => rw [hclosing] at h'; nomatch h'
    | recvd h' => rw [hclosing] at h'; nomatch h'
    | failed h' => rw [hclosing] at h'; nomatch h'
    | spin h' => exact absurd hclosing h'.2.2
  · cases ht with
    | await h' => rw [hstate] at h'; nomatch h'
    | network h' => rw [hstate] at h'; nomatch h'
    | @copy it' x' data h' hrl hnb hit' hx' hdata =>
      obtain rfl : it = it' := Option.some.inj (hit.symm.trans hit')
      obtain rfl : x = x' := Option.some.inj (hx.symm.trans hx')
      refine .inr ⟨hstate, it, { x with data }, k, hit, ?_, Nat.lt_add_right _ hk, ?_⟩
      · rw [Store.get_modify, hx, Option.map_some, if_pos rfl]
      · dsimp only
        rw [memcpyData_front hdata hk]
        exact hne
    | recvd h' hrl hemp hgot hlen hs hroom hstore hc =>
      refine .inr ⟨by rw [hc]; exact hstate, it, x, k, by rw [hc]; exact hit, by rw [hstore]; exact hx, ?_, hne⟩
      rw [hc]
      exact Nat.lt_add_right _ hk
    | failed h' hrl hemp hs hstore hc => exact .inl (by rw [hc])
    | spin h' => exact absurd hstate h'.2.1

theorem Lost.run (h : Lost v block) {v₁ : View} (hrun : v.mcRead hash n envs = .ok (v₁, .go)) : Lost v₁ block := by
  induction n generalizing v envs with
  | zero =>
    obtain ⟨rfl, -⟩ := Prod.mk.inj (Except.ok.inj hrun)
    exact h
  | succ n ih =>
    rw [View.mcRead] at hrun
    cases hturn : v.turn hash (envs 0) with
    | error e =>
      rw [hturn] at hrun
      cases hrun
    | ok r =>
      obtain ⟨v', next⟩ := r
      rw [hturn] at hrun
      cases next with
      | go => exact ih (h.turn (turn_cases hturn)) hrun
      | stop | closed => cases hrun

theorem Lost.not_delivered (h : Lost v block) : ¬Delivered hash v envs block := by
  rintro ⟨⟨n, v₁, it, x, hrun, hstate, -, hit, hx, hdata⟩, -⟩
  rcases h.run hrun with hclosing | ⟨-, it', x', k, hit', hx', -, hne⟩
  · nomatch hclosing.symm.trans hstate
  · obtain rfl : it = it' := Option.some.inj (hit.symm.trans hit')
    obtain rfl : x = x' := Option.some.inj (hx.symm.trans hx')
    exact hne (by rw [hdata])

/-! ## Turn by turn -/

/-- A turn with which the loop goes on. -/
theorem delivered_go_iff (hturn : v.turn hash (envs 0) = .ok (v', .go)) (hstate : v.c.state ≠ .closing)
    (hwait : v.c.state = .nread → v.c.rlbytes ≠ 0) :
    Delivered hash v envs block ↔ Delivered hash v' (fun k => envs (k + 1)) block := by
  have hrun : ∀ n, v.mcRead hash (n + 1) envs = v'.mcRead hash n fun k => envs (k + 1) := by
    intro n
    rw [View.mcRead, hturn]
    rfl
  constructor
  · rintro ⟨⟨n, v₁, it, x, hn, hst, hrl, hx⟩, hopen⟩
    refine ⟨?_, fun n v₁ hn => hopen (n + 1) v₁ ((hrun n).trans hn)⟩
    cases n with
    | zero =>
      obtain ⟨rfl, -⟩ := Prod.mk.inj (Except.ok.inj hn)
      exact absurd hrl (hwait hst)
    | succ n => exact ⟨n, v₁, it, x, (hrun n).symm.trans hn, hst, hrl, hx⟩
  · rintro ⟨⟨n, v₁, it, x, hn, hx⟩, hopen⟩
    refine ⟨⟨n + 1, v₁, it, x, (hrun n).trans hn, hx⟩, fun n v₁ hn => ?_⟩
    cases n with
    | zero =>
      obtain ⟨rfl, -⟩ := Prod.mk.inj (Except.ok.inj hn)
      exact hstate
    | succ n => exact hopen n v₁ ((hrun n).symm.trans hn)

theorem not_delivered_of_turn (hwait : v.c.state = .nread → v.c.rlbytes ≠ 0)
    (h : ∀ v', v.turn hash (envs 0) = .ok (v', .go) → ¬Delivered hash v' (fun k => envs (k + 1)) block) :
    ¬Delivered hash v envs block := by
  intro hdel
  obtain ⟨⟨n, v₁, it, x, hrun, hst, hrl, -⟩, hopen⟩ := id hdel
  have hstate : v.c.state ≠ .closing := hopen 0 v rfl
  cases n with
  | zero =>
    obtain ⟨rfl, -⟩ := Prod.mk.inj (Except.ok.inj hrun)
    exact hwait hst hrl
  | succ n =>
    rw [View.mcRead] at hrun
    cases hturn : v.turn hash (envs 0) with
    | error e =>
      rw [hturn] at hrun
      cases hrun
    | ok r =>
      obtain ⟨v', next⟩ := r
      rw [hturn] at hrun
      cases next with
      | go => exact h v' hturn ((delivered_go_iff hturn hstate hwait).mp hdel)
      | stop | closed => cases hrun

/-- `complete_nread` runs next. -/
theorem delivered_done {x : Item} (hstate : v.c.state = .nread) (hrl : v.c.rlbytes = 0) (hit : v.c.item = some it)
    (hx : v.store.heap.get it = some x) (hdata : x.data = block) : Delivered hash v envs block := by
  refine ⟨⟨0, v, it, x, rfl, hstate, hrl, hit, hx, hdata⟩, fun n v₁ hrun => ?_⟩
  cases n with
  | zero =>
    obtain ⟨rfl, -⟩ := Prod.mk.inj (Except.ok.inj hrun)
    simp [hstate]
  | succ n =>
    rw [View.mcRead] at hrun
    cases hturn : v.turn hash (envs 0) with
    | error e =>
      rw [hturn] at hrun
      cases hrun
    | ok r =>
      obtain ⟨v', next⟩ := r
      rw [hturn] at hrun
      cases turn_cases hturn with
      | reply | complete => cases hrun
      | await h' => rw [hstate] at h'; cases h'
      | network h' => rw [hstate] at h'; cases h'
      | copy _ hrl' => exact absurd hrl hrl'
      | recvd _ hrl' => exact absurd hrl hrl'
      | failed _ hrl' => exact absurd hrl hrl'
      | closed h' => rw [hstate] at h'; cases h'
      | spin h' => exact absurd hstate h'.2.1

/-! ## The line and the block -/

theorem nextLine_append (h : 10 ∉ line) (data : List UInt8) : nextLine (line ++ 10 :: data) = line := by
  rw [nextLine, List.takeWhile_append_of_pos]
  · simp
  · intro b hb
    rw [bne_iff_ne]
    rintro rfl
    exact h hb

/-- What is buffered where a line is complete. -/
theorem buffered {ib s line tail : List UInt8} (h : ib ++ s = line ++ 10 :: tail) (hno : 10 ∉ line) (hline : 10 ∈ ib) :
    ∃ data, ib = line ++ 10 :: data ∧ data ++ s = tail := by
  rcases List.append_eq_append_iff.mp h with ⟨a, hla, -⟩ | ⟨a, hia, hs⟩
  · exact absurd (hla ▸ List.mem_append_left a hline) hno
  · cases a with
    | nil =>
      rw [List.append_nil] at hia
      exact absurd (hia ▸ hline) hno
    | cons b data =>
      obtain ⟨rfl, htail⟩ := List.cons.inj hs
      exact ⟨data, hia, htail.symm⟩

/-- The line is taken; what is unread of the block is in the buffer or on its way. -/
theorem Sending.taken (hash : List UInt8 → UInt32) (h : Sending v line block rest) (hupd : UpdateLine line v.errno n)
    (hn : n + 2 < 2 ^ 31) (hline : 10 ∈ v.c.ib.bytes) (hp : env.mem = some p) :
    ∃ v' data x, v.turn hash env = .ok (v', .go) ∧ v.c.ib.bytes = line ++ 10 :: data ∧
      data ++ stream v.c.sock = block ++ rest ∧
      v'.c.state = .nread ∧ v'.c.ritem = 0 ∧ v'.c.rlbytes = n + 2 ∧ v'.c.item = some p ∧ v'.c.ib.bytes = data ∧
      v'.store.heap.get p = some x ∧ x.data = (List.range (n + 2)).map env.found := by
  obtain ⟨data, hib, hs⟩ : ∃ data, v.c.ib.bytes = line ++ 10 :: data ∧ data ++ stream v.c.sock = block ++ rest :=
    buffered (by rw [h.bytes, List.append_assoc, List.cons_append]) hupd.no_feed hline
  obtain ⟨v', comm, hrun, -, hstore, hc⟩ := processCommand_update hash hupd hp hn
  have hnext : nextLine v.c.ib.bytes = line := by rw [hib, nextLine_append hupd.no_feed]
  have hwr : v'.c.wr = false := by rw [hc]; exact h.quiet
  have hturn : v.turn hash env = .ok ({ v' with c := { v'.c with ib := v'.c.ib.advance (line.length + 1) } }, .go) := by
    rw [turn_line h.state hline, hnext, hrun, ok_bind, hwr]
    rfl
  refine ⟨_, data, newItem ((tokenizeCommand (commandOf line) MAX_TOKENS).1.getD 1 [])
      (Numbers.read (tokenizeCommand (commandOf line) MAX_TOKENS).1 v.errno).flags 0 (n + 2) env.found,
    hturn, hib, hs, by rw [hc], by rw [hc], by rw [hc], by rw [hc], ?_, ?_, rfl⟩
  · rw [hc, Buf.advance, hib]
    dsimp only
    rw [List.drop_append, List.drop_eq_nil_of_le (Nat.le_succ _)]
    simp
  · dsimp only
    rw [hstore]
    exact Heap.get_alloc_self ..

/-- No line is complete, and the next result of `recv` leaves the rest on its way. -/
theorem Sending.network (hash : List UInt8 → UInt32) (env : Env) (h : Sending v line block rest)
    (hline : 10 ∉ v.c.ib.bytes) :
    ∃ v', v.turn hash env = .ok (v', .go) ∧ Sending v' line block rest ∧ v'.store = v.store ∧
      (v'.errno = v.errno ∨ v'.errno = .again) ∧ v'.c.sock.length < v.c.sock.length ∧
      (Whole v.c line block ↔ Whole v'.c line block) := by
  have hfeed : 10 ∈ v.c.ib.bytes ++ stream v.c.sock := by rw [h.bytes]; simp
  cases hs : v.c.sock with
  | nil =>
    rw [hs, stream_nil, List.append_nil] at hfeed
    exact absurd hfeed hline
  | cons r more =>
    have hends : r.ends = false := h.connected r (by rw [hs]; exact List.mem_cons_self)
    have hconn : ∀ r ∈ more, r.ends = false := fun r hr => h.connected r (by rw [hs]; exact List.mem_cons_of_mem _ hr)
    have hroom : v.c.ib.r < MC_BUFFER_SIZE := Nat.lt_of_le_of_lt (Nat.le_add_right _ _) h.room
    -- whether the chunks bring the whole block does not depend on the first one, with which no line is complete
    have hwhole : ∀ {v' : View}, v'.c.sock = more →
        (∀ pre, v'.c.ib.bytes ++ stream pre = v.c.ib.bytes ++ stream (r :: pre)) →
        (Whole v.c line block ↔ Whole v'.c line block) := by
      intro v' hmore hib
      constructor
      · intro hw pre post hpp hfeed
        rw [hib] at hfeed ⊢
        exact hw (r :: pre) post (by rw [hs, ← hmore, hpp, List.cons_append]) hfeed
      · intro hw pre post hpp hfeed
        cases pre with
        | nil =>
          rw [stream_nil, List.append_nil] at hfeed
          exact absurd hfeed hline
        | cons r' pre =>
          rw [hs, List.cons_append] at hpp
          obtain ⟨rfl, hmp⟩ := List.cons.inj hpp
          rw [← hib] at hfeed ⊢
          exact hw pre post (hmore.trans hmp) hfeed
    cases r with
    | bytes bs =>
      have hne : bs ≠ [] := by
        rintro rfl
        cases hends
      have hsum := h.room
      rw [hs, stream_bytes, List.length_append] at hsum
      obtain ⟨v', hnet, hc, hstore, herr⟩ := tryReadNetwork_bytes hne (by omega) hs
      have hib : v'.c.ib.bytes = v.c.ib.bytes ++ bs := by rw [hc, Buf.put]
      have hr : v'.c.ib.r = v.c.ib.r + bs.length := by rw [hc, Buf.put]
      have hmore : v'.c.sock = more := by rw [hc]
      refine ⟨v', by rw [turn_read h.state hline, hnet]; rfl,
        ⟨by rw [hc]; exact h.state, by rw [hc]; exact h.quiet, ?_, ?_, ?_, ?_⟩,
        hstore, .inl herr, by rw [hmore]; exact Nat.lt_succ_self _, hwhole hmore fun pre => ?_⟩
      · rw [hib, hmore, List.append_assoc, ← stream_bytes, ← hs, h.bytes]
      · rw [hib, hr, List.length_append]
        exact Nat.add_le_add_right h.inside _
      · rw [hr, hmore]
        omega
      · rw [hmore]
        exact hconn
      · rw [hib, stream_bytes, List.append_assoc]
    | eof => cases hends
    | failed e =>
      obtain rfl : e = .again := by simpa [Recv.ends] using hends
      have hb := h.bytes
      have hsum := h.room
      rw [hs, stream_failed] at hb hsum
      have hturn : v.turn hash env = .ok ({ v with errno := .again, c := { v.c with sock := more } }, .go) := by
        rw [turn_read h.state hline, tryReadNetwork_again hroom hs]
        rfl
      exact ⟨_, hturn, ⟨h.state, h.quiet, hb, h.inside, hsum, hconn⟩, rfl, .inr rfl, Nat.lt_succ_self _,
        hwhole rfl fun pre => rfl⟩

/-- The whole block is copied. -/
theorem delivered_of_whole (hn : n + 2 < 2 ^ 31) (hlen : block.length = n + 2) (h : Sending v line block rest)
    (hupd : UpdateLine line v.errno n) (hg : Granted v envs) (hw : Whole v.c line block) :
    Delivered hash v envs block := by
  generalize hm : v.c.sock.length = m
  induction m using Nat.strong_induction_on generalizing v envs with
  | _ m ih =>
    have hopen : v.c.state ≠ .closing := by simp [h.state]
    have hwait : v.c.state = .nread → v.c.rlbytes ≠ 0 := by simp [h.state]
    by_cases hline : 10 ∈ v.c.ib.bytes
    · obtain ⟨p, hp, -⟩ := hg 0
      obtain ⟨v₁, data, x, hturn, hib, hs, hst, hrit, hrl, hit, hib₁, hx, hxd⟩ := h.taken hash hupd hn hline hp
      -- the block is in front of the unread bytes
      have hle := hw [] v.c.sock rfl (by rw [stream_nil, List.append_nil]; exact hline)
      rw [stream_nil, List.append_nil, hib, List.length_append, List.length_cons] at hle
      have htake : data.take (n + 2) = block := by
        have htake := congrArg (List.take (n + 2)) hs
        rwa [List.take_append_of_le_length (by omega), List.take_append_of_le_length hlen.ge,
          List.take_of_length_le hlen.le] at htake
      have hne : data ≠ [] := by
        rintro rfl
        rw [List.length_nil] at hle
        omega
      have hcopy : memcpyData x.data v₁.c.ritem (v₁.c.ib.bytes.take v₁.c.rlbytes) = .ok block := by
        have hxl : x.data.length = n + 2 := by rw [hxd, List.length_map, List.length_range]
        rw [hrit, hib₁, hrl, htake, memcpyData, if_pos (by omega), List.take_zero, List.nil_append, Nat.zero_add,
          List.drop_eq_nil_of_le (by omega), List.append_nil]
      rw [delivered_go_iff hturn hopen hwait]
      have hturn₁ : v₁.turn hash (envs 1) = _ := turn_copy hst (by omega) (by rw [hib₁]; exact hne) hit hx hcopy
      refine (@delivered_go_iff hash (fun k => envs (k + 1)) v₁ _ block hturn₁ (by simp [hst]) fun _ => by omega).mpr ?_
      refine delivered_done hst ?_ hit (x := { x with data := block }) ?_ rfl
      · dsimp only
        rw [hib₁, hrl, htake]
        omega
      · rw [Store.get_modify, hx, Option.map_some, if_pos rfl]
    · obtain ⟨v₁, hturn, h₁, hstore, herr, hless, hw₁⟩ := h.network hash (envs 0) hline
      rw [delivered_go_iff hturn hopen hwait]
      refine ih _ (hm ▸ hless) h₁ ?_ (fun k => ?_) (hw₁.mp hw) rfl
      · rcases herr with herr | herr
        · rw [herr]
          exact hupd
        · rw [herr]
          exact hupd.again
      · rw [hstore]
        exact hg (k + 1)

/-- Data are missing, the buffer has none, and the item's byte at the data pointer is not that of the block: it will
not be written. -/
theorem starved_not_delivered {x : Item} (hstate : v.c.state = .nread) (hrl : v.c.rlbytes ≠ 0)
    (hemp : v.c.ib.bytes = [])
    (hit : v.c.item = some it) (hx : v.store.heap.get it = some x) (hne : x.data[v.c.ritem]? ≠ block[v.c.ritem]?) :
    ¬Delivered hash v envs block := by
  refine not_delivered_of_turn (fun _ => hrl) fun v' hturn => Lost.not_delivered ?_
  cases turn_cases hturn with
  | await h' => rw [hstate] at h'; nomatch h'
  | network h' => rw [hstate] at h'; nomatch h'
  | copy _ _ hne' => exact absurd hemp hne'
  | @recvd _ got sock' _ _ _ hgot hlen hs hroom hstore hc =>
    have hpos := List.length_pos_iff.mpr hgot
    refine .inr ⟨by rw [hc]; exact hstate, it, x, v.c.ritem, by rw [hc]; exact hit, by rw [hstore]; exact hx, ?_, hne⟩
    rw [hc]
    exact Nat.lt_add_of_pos_right hpos
  | failed _ _ _ _ _ hc => exact .inl (by rw [hc])
  | spin h' => exact absurd hstate h'.2.1

/-- What is not in the buffer when the line is taken does not come to the item: its memory may hold something else. -/
theorem not_delivered_of_parts (hn : n + 2 < 2 ^ 31) (hlen : block.length = n + 2) (h : Sending v line block rest)
    (hupd : UpdateLine line v.errno n) (hp : env.mem = some p)
    (hfound : ∀ k < block.length, some (env.found k) ≠ block[k]?)
    (hw : ¬Whole v.c line block) : ¬Delivered hash v (fun _ => env) block := by
  generalize hm : v.c.sock.length = m
  induction m using Nat.strong_induction_on generalizing v with
  | _ m ih =>
    have hwait : v.c.state = .nread → v.c.rlbytes ≠ 0 := fun hst => absurd (h.state.symm.trans hst) nofun
    by_cases hline : 10 ∈ v.c.ib.bytes
    · obtain ⟨v₁, data, x, hturn, hib, hs, hst, hrit, hrl, hit, hib₁, hx, hxd⟩ := h.taken hash hupd hn hline hp
      -- a part of the block is missing
      have hless : data.length < block.length := by
        rw [Whole] at hw
        push Not at hw
        obtain ⟨pre, post, -, -, hlt⟩ := hw
        rw [hib, List.length_append, List.length_append, List.length_cons] at hlt
        omega
      have hxk : x.data[data.length]? = some (env.found data.length) := by
        rw [hxd, List.getElem?_map, List.getElem?_range (by omega), Option.map_some]
      refine not_delivered_of_turn hwait fun v₂ hturn₂ => ?_
      obtain rfl : v₁ = v₂ := (Prod.mk.inj (Except.ok.inj (hturn.symm.trans hturn₂))).1
      by_cases hne : data = []
      · rw [hne] at hxk hib₁
        refine starved_not_delivered hst (by omega) hib₁ hit hx ?_
        rw [hrit]
        exact hxk ▸ hfound 0 (by omega)
      · have htake : v₁.c.ib.bytes.take v₁.c.rlbytes = data := by
          rw [hib₁, hrl, List.take_of_length_le (by omega)]
        have hcopy : memcpyData x.data v₁.c.ritem (v₁.c.ib.bytes.take v₁.c.rlbytes) =
            .ok (data ++ x.data.drop data.length) := by
          have hxl : x.data.length = n + 2 := by rw [hxd, List.length_map, List.length_range]
          rw [hrit, htake, memcpyData, if_pos (by omega), List.take_zero, List.nil_append, Nat.zero_add]
        have hturn₁ : v₁.turn hash env = _ := turn_copy hst (by omega) (by rw [hib₁]; exact hne) hit hx hcopy
        refine not_delivered_of_turn (fun _ => by omega) fun v₂ hturn₂ => ?_
        obtain rfl := (Prod.mk.inj (Except.ok.inj (hturn₁.symm.trans hturn₂))).1
        refine starved_not_delivered (x := { x with data := data ++ x.data.drop data.length }) hst ?_ ?_ hit ?_ ?_
        · dsimp only
          rw [htake]
          omega
        · dsimp only [Buf.advance]
          rw [htake, hib₁, List.drop_length]
        · rw [Store.get_modify, hx, Option.map_some, if_pos rfl]
        · dsimp only
          rw [hrit, htake, Nat.zero_add, List.getElem?_append_right (Nat.le_refl _), Nat.sub_self, List.getElem?_drop,
            Nat.add_zero, hxk]
          exact hfound data.length hless
    · obtain ⟨v₁, hturn, h₁, hstore, herr, hlt, hw₁⟩ := h.network hash env hline
      refine not_delivered_of_turn hwait fun v₂ hturn₂ => ?_
      obtain rfl : v₁ = v₂ := (Prod.mk.inj (Except.ok.inj (hturn.symm.trans hturn₂))).1
      refine ih _ (hm ▸ hlt) h₁ ?_ (fun hw' => hw (hw₁.mpr hw')) rfl
      rcases herr with herr | herr
      · rw [herr]
        exact hupd
      · rw [herr]
        exact hupd.again

/-- Some address has no cell. -/
theorem exists_free {α : Type} (h : Heap α) : ∃ p, h.get p = none := by
  obtain ⟨p, hp⟩ := Infinite.exists_notMem_finset (h.cells.map Prod.fst).toFinset
  refine ⟨p, List.lookup_eq_none_iff.mpr fun c hc => ?_⟩
  rw [bne_iff_ne]
  rintro rfl
  exact hp (List.mem_toFinset.mpr (List.mem_map_of_mem hc))

theorem Sending.length_lt (h : Sending v line block rest) : block.length < MC_BUFFER_SIZE := by
  have hlen := congrArg List.length h.bytes
  simp only [List.length_append, List.length_cons] at hlen
  have hin := h.inside
  have hroom := h.room
  omega

/-- Where the block comes in whatever the item's memory holds, it is whole when its line is taken. -/
theorem whole_of_delivered (hlen : block.length = n + 2) (h : Sending v line block rest)
    (hupd : UpdateLine line v.errno n)
    (hdel : ∀ envs, Granted v envs → Delivered hash v envs block) : Whole v.c line block := by
  by_contra hw
  obtain ⟨p, hp⟩ := exists_free v.store.heap
  have hlt := h.length_lt
  rw [MC_BUFFER_SIZE] at hlt
  -- the item's memory holds other bytes than the block
  have hfound : ∀ k < block.length, some (block.getD k 0 + 1) ≠ block[k]? := by
    intro k hk
    rw [List.getD_eq_getElem?_getD, List.getElem?_eq_getElem hk, Option.getD_some, ne_eq, Option.some.injEq]
    intro he
    have hone : (1 : UInt8) = 0 := by
      rw [← UInt8.add_right_inj block[k], he, UInt8.add_zero]
    nomatch hone
  have hno : ¬Delivered hash v (fun _ => ⟨0, false, some p, fun k => block.getD k 0 + 1⟩) block :=
    not_delivered_of_parts (by omega) hlen h hupd rfl hfound hw
  exact hno (hdel _ fun _ => ⟨p, rfl, hp⟩)

/-- What the client sent is what the item holds when `complete_nread` runs, and the connection is not closed before,
exactly when the result of `recv` that brings the end of the line has brought the whole block. -/
theorem delivered_iff_whole (hash : List UInt8 → UInt32) (v : View) (line data rest : List UInt8)
    (h : Sending v line (data ++ crlf) rest) (hupd : UpdateLine line v.errno data.length) :
    (∀ envs, Granted v envs → Delivered hash v envs (data ++ crlf)) ↔ Whole v.c line (data ++ crlf) := by
  have hlen : (data ++ crlf).length = data.length + 2 := List.length_append
  have hlt := h.length_lt
  rw [MC_BUFFER_SIZE] at hlt
  constructor
  · intro hdel
    exact whole_of_delivered hlen h hupd hdel
  · intro hw envs hg
    exact delivered_of_whole (by omega) hlen h hupd hg hw

/-- A line and its block in one result of `recv`. -/
theorem delivered_in_one :
    (∀ envs, Granted ((World.init 1).view (.init [.bytes (lit "set a 0 0 1\r\nx\r\n")])) envs →
        Delivered (fun _ => 0) ((World.init 1).view (.init [.bytes (lit "set a 0 0 1\r\nx\r\n")])) envs
        (lit "x" ++ crlf)) ↔
      Whole (.init [.bytes (lit "set a 0 0 1\r\nx\r\n")]) (lit "set a 0 0 1\r") (lit "x" ++ crlf) :=
  delivered_iff_whole _ _ _ _ [] ⟨rfl, rfl, by decide, by decide, by decide, by decide⟩
    ⟨by decide, by decide, by decide, by decide, by decide, by decide⟩

/-- The block comes after the line, in another result of `recv`. -/
theorem block_after_line :
    ¬∀ envs, Granted ((World.init 1).view (.init [.bytes (lit "set a 0 0 1\r\n"), .bytes (lit "x\r\n")])) envs →
      Delivered (fun _ => 0) ((World.init 1).view (.init [.bytes (lit "set a 0 0 1\r\n"), .bytes (lit "x\r\n")])) envs
        (lit "x" ++ crlf) := by
  intro hdel
  have hsend : Sending ((World.init 1).view (.init [.bytes (lit "set a 0 0 1\r\n"), .bytes (lit "x\r\n")]))
      (lit "set a 0 0 1\r") (lit "x" ++ crlf) [] := ⟨rfl, rfl, by decide, by decide, by decide, by decide⟩
  have hupd : UpdateLine (lit "set a 0 0 1\r") .other 1 :=
    ⟨by decide, by decide, by decide, by decide, by decide, by decide⟩
  have hw := whole_of_delivered (by decide) hsend hupd hdel
  exact absurd (hw [.bytes (lit "set a 0 0 1\r\n")] [.bytes (lit "x\r\n")] rfl (by decide)) (by decide)

end ZeroServ.Mc
