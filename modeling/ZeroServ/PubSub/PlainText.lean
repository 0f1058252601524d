import ZeroServ.PubSub.Server

/-!
# Commands from a plain connection

`psub_read` receives into the input buffer of a connection and `process_plain_text` takes the commands out of it: it
overwrites every CR and LF received, takes what precedes the next NUL for a command, skips the NUL and one byte more,
and has always used up the buffer in the end. A command that does not end in what was received runs on into whatever
lies behind it.

`segmentation_iff`: the commands are those of the stream exactly when every `recv` ends with a command.
-/

namespace ZeroServ

open CString

namespace Model

/-! ## What `model_process` writes into its content -/

/-- The word that `model_process` looks for. -/
def word : Action → List UInt8
  | .ack => lit "ack"
  | .create => lit "create"
  | .delete => lit "delete"
  | .listTopic => lit "list"
  | .listUser => lit "list_user"
  | .sub => lit "sub"
  | .unsub => lit "unsub"
  | .pub => lit "pub"
  | .login => lit "login"
  | .logup => lit "logup"
  | .repSub => []
  | .dbgCookie => lit "cookie"

/-- `*pos = 0`: the memory of a parameter after it was cut at the delimiter. -/
def clear (param : Mem) (delim : UInt8) : Mem :=
  match cut param delim with
  | some (s, rest) => s ++ 0 :: rest
  | none => param

/-- The memory from `content` on after `model_process`. -/
def scribble (content : Mem) (delim : UInt8) : Mem :=
  match command content with
  | some .pub => content.take 4 ++ clear (content.drop 4) delim
  | some .login | some .logup => content.take 6 ++ clear (content.drop 6) delim
  | _ => content

theorem compare_prefix {w : String} (hw : (0 : UInt8) ∉ lit w) {mem : Mem} (h : compare mem w = true) :
    lit w <+: cstr mem := by
  rw [compare, strncmp, cstr_eq_self hw, List.take_length, beq_iff_eq] at h
  exact h ▸ List.take_prefix _ _

/-- One test of a chain. -/
theorem some_of_ite {b : Bool} {a a' : Action} {o : Option Action} (h : (if b then some a' else o) = some a) :
    (b = true ∧ a' = a) ∨ o = some a := by
  cases b with
  | true => exact .inl ⟨rfl, Option.some.inj h⟩
  | false => exact .inr h

/-- A command opens with its word. -/
theorem word_prefix {content : Mem} {a : Action} (h : command content = some a) : word a <+: cstr content := by
  unfold command at h
  iterate 11
    rcases some_of_ite h with ⟨hc, rfl⟩ | h
    · exact compare_prefix (by decide) hc
  nomatch h

/-- A cut leaves what lies behind the end of the parameter. -/
theorem clear_append {p : List UInt8} (h0 : (0 : UInt8) ∉ p) (q : Mem) (delim : UInt8) (hd : delim ≠ 0) :
    ∃ p' : List UInt8, clear (p ++ 0 :: q) delim = p' ++ 0 :: q ∧ p'.length = p.length := by
  unfold clear cut
  cases hc : strchr p delim with
  | none =>
    rw [strchr_append_of_none h0 hc]
    refine ⟨p, ?_, rfl⟩
    simp [strchr, Ne.symm hd]
  | some pos =>
    rw [strchr_append_of_some hc]
    obtain ⟨a, b, rfl, rfl, -, -⟩ := strchr_eq_some hc
    refine ⟨a ++ 0 :: b, ?_, by simp⟩
    simp

theorem drop_behind (a : List UInt8) (t : Mem) : (a ++ 0 :: 0 :: t).drop (a.length + 2) = t := by
  rw [List.drop_length_add_append]
  rfl

/-- What a command leaves behind the two NULs that end it. -/
theorem scribble_drop {c : List UInt8} (h0 : (0 : UInt8) ∉ c) (t : Mem) {delim : UInt8} (hd : delim ≠ 0) :
    (scribble (c ++ 0 :: 0 :: t) delim).drop (c.length + 2) = t := by
  have hclear : ∀ k : Nat, k ≤ c.length + 1 →
      (((c ++ 0 :: 0 :: t).take k) ++ clear ((c ++ 0 :: 0 :: t).drop k) delim).drop (c.length + 2) = t := by
    intro k hk
    rcases Nat.lt_or_ge c.length k with hlt | hle
    · -- the word is the whole command, so the parameter is empty
      obtain rfl : k = c.length + 1 := by omega
      have hdrop : (c ++ 0 :: 0 :: t).drop (c.length + 1) = 0 :: t := by simp
      obtain ⟨p', hp', hlen⟩ := clear_append (p := []) (by simp) t delim hd
      obtain rfl := List.eq_nil_of_length_eq_zero hlen
      have htake : (c ++ 0 :: 0 :: t).take (c.length + 1) = c ++ [0] := by simp [List.take_append]
      rw [hdrop, show clear (0 :: t) delim = 0 :: t from hp', htake, List.append_assoc]
      exact drop_behind c t
    · obtain ⟨p', hp', hlen⟩ := clear_append (p := c.drop k) (fun h => h0 (List.drop_subset k c h)) (0 :: t) delim hd
      rw [List.drop_append_of_le_length hle, hp', List.take_append_of_le_length hle, ← List.append_assoc]
      have htotal : (c.take k ++ p').length = c.length := by
        rw [List.length_append, hlen, List.length_take, List.length_drop]
        omega
      rw [← htotal]
      exact drop_behind _ t
  have hword : ∀ a, command (c ++ 0 :: 0 :: t) = some a → (word a).length ≤ c.length := by
    intro a ha
    have hp := word_prefix ha
    rw [cstr_append_nul h0] at hp
    exact hp.length_le
  unfold scribble
  split
  · next hpub => exact hclear 4 (Nat.succ_le_succ (hword .pub hpub))
  · next hlogin => exact hclear 6 (Nat.succ_le_succ (hword .login hlogin))
  · next hlogup => exact hclear 6 (Nat.succ_le_succ (hword .logup hlogup))
  · simp

theorem clear_length (param : Mem) (delim : UInt8) : (clear param delim).length = param.length := by
  unfold clear cut
  cases hc : strchr param delim with
  | none => rfl
  | some pos =>
    obtain ⟨a, b, rfl, rfl, -, -⟩ := strchr_eq_some hc
    simp

theorem scribble_length (content : Mem) (delim : UInt8) : (scribble content delim).length = content.length := by
  have hk : ∀ k : Nat, (content.take k ++ clear (content.drop k) delim).length = content.length := by
    intro k
    rw [List.length_append, clear_length, ← List.length_append, List.take_append_drop]
  unfold scribble
  split
  · exact hk 4
  · exact hk 6
  · exact hk 6
  · rfl

end Model

open Model (scribble)

/-! ## `pubsub.c` -/

/-- What `format_msg` makes of a byte. -/
def closeLine (b : UInt8) : UInt8 := if b = 10 ∨ b = 13 then 0 else b

/-- `format_msg` -/
def formatMsg (msg : Mem) (size : Nat) : Mem := (msg.take size).map closeLine ++ msg.drop size

/-- The loop of `process_plain_text` over the memory from `buff` on: the memory that each `model_process` is called
with, and the memory and the `curr` it leaves. Each turn counts one byte at least, so as many turns as there are
bytes suffice. -/
def plainLoop (len : Nat) : Nat → Mem → Nat → Nat → List Mem × Mem × Nat
  | 0, mem, curr, _ => ([], mem, curr)
  | k + 1, mem, curr, count =>
    if count < len then
      let content := mem.drop curr
      let reqLen := strlen content
      let inc := if count + reqLen + 2 ≤ len then reqLen + 2 else len - count
      let (calls, left) := plainLoop len k (mem.take curr ++ scribble content 32) (curr + inc) (count + inc)
      (content :: calls, left)
    else ([], mem, curr)

/-- The input buffer of a connection: its bytes, and `curr` and `r` as offsets. -/
structure InputBuffer where
  buff : List UInt8
  curr : Nat
  r : Nat

/-- What a `recv` returns, and what the heap holds behind the buffer then. -/
structure Recv where
  bytes : List UInt8
  behind : Mem

namespace InputBuffer

/-- `buffer_init`, over what `malloc` returned. -/
def init (buff : List UInt8) : InputBuffer := { buff, curr := 0, r := 0 }

/-- `process_plain_text`: the memory that each `model_process` is called with, and the buffer it leaves. -/
def processPlainText (ib : InputBuffer) (behind : Mem) : List Mem × InputBuffer :=
  let len := ib.r - ib.curr
  let mem := ib.buff ++ behind
  let (calls, mem, curr) := plainLoop len len (mem.take ib.curr ++ formatMsg (mem.drop ib.curr) len) ib.curr 0
  let buff := mem.take ib.buff.length
  (calls, if ib.r = curr then { buff, curr := 0, r := 0 } else { buff, curr, r := ib.r })

/-- `psub_read`, whose `recv` fits the buffer. -/
def psubRead (ib : InputBuffer) (recv : Recv) : List Mem × InputBuffer :=
  processPlainText
    { ib with
      buff := ib.buff.take ib.r ++ recv.bytes ++ ib.buff.drop (ib.r + recv.bytes.length)
      r := ib.r + recv.bytes.length }
    recv.behind

/-- The memory that `model_process` is called with, over all reads of a connection. -/
def calls (ib : InputBuffer) : List Recv → List Mem
  | [] => []
  | recv :: recvs => (ib.psubRead recv).1 ++ calls (ib.psubRead recv).2 recvs

/-- The command strings of a connection. -/
def strings (ib : InputBuffer) (recvs : List Recv) : List (List UInt8) := (ib.calls recvs).map cstr

/-- Nothing is left to be read. -/
structure Drained (ib : InputBuffer) : Prop where
  size : ib.buff.length = HTTP_BUFFER_SIZE
  curr : ib.curr = 0
  r : ib.r = 0

theorem drained_init {buff : List UInt8} (h : buff.length = HTTP_BUFFER_SIZE) : (init buff).Drained := ⟨h, rfl, rfl⟩

end InputBuffer

/-! ## The loop -/

/-- How far one turn of the loop goes, with `left` bytes left. -/
def inc (mem : Mem) (left : Nat) : Nat := if strlen mem + 2 ≤ left then strlen mem + 2 else left

/-- The loop on the memory from `curr` on, with `left` bytes left. -/
def requests : Nat → Mem → Nat → List Mem
  | 0, _, _ => []
  | k + 1, mem, left =>
    if left = 0 then [] else mem :: requests k ((scribble mem 32).drop (inc mem left)) (left - inc mem left)

theorem inc_le (mem : Mem) (left : Nat) : inc mem left ≤ left := by
  unfold inc
  split
  · assumption
  · exact Nat.le_refl _

theorem inc_pos (mem : Mem) {left : Nat} (h : left ≠ 0) : 0 < inc mem left := by
  unfold inc
  split <;> omega

theorem inc_le_strlen (mem : Mem) (left : Nat) : inc mem left ≤ strlen mem + 2 := by
  unfold inc
  split <;> omega

theorem requests_zero (k : Nat) (mem : Mem) : requests k mem 0 = [] := by
  cases k <;> rfl

theorem requests_succ (k : Nat) (mem : Mem) {left : Nat} (h : left ≠ 0) :
    requests (k + 1) mem left = mem :: requests k ((scribble mem 32).drop (inc mem left)) (left - inc mem left) :=
  if_neg h

/-- What the loop calls, where it ends, and that it moves nothing in memory. -/
theorem plainLoop_eq {len : Nat} (k : Nat) {mem : Mem} {curr count : Nat} (hroom : curr + (len - count) ≤ mem.length)
    (hcount : count ≤ len) (hk : len - count ≤ k) :
    (plainLoop len k mem curr count).1 = requests k (mem.drop curr) (len - count) ∧
      (plainLoop len k mem curr count).2.1.length = mem.length ∧
      (plainLoop len k mem curr count).2.2 = curr + (len - count) := by
  induction k generalizing mem curr count with
  | zero =>
    obtain rfl : count = len := by omega
    exact ⟨rfl, rfl, by simp [plainLoop]⟩
  | succ k ih =>
    rcases Nat.lt_or_ge count len with hlt | hge
    · have hinc : (if count + strlen (mem.drop curr) + 2 ≤ len then strlen (mem.drop curr) + 2 else len - count) =
          inc (mem.drop curr) (len - count) := by
        unfold inc
        split_ifs <;> omega
      have hle := inc_le (mem.drop curr) (len - count)
      have hpos : 0 < inc (mem.drop curr) (len - count) := inc_pos _ (by omega)
      have hsize : (mem.take curr ++ scribble (mem.drop curr) 32).length = mem.length := by
        rw [List.length_append, Model.scribble_length, ← List.length_append, List.take_append_drop]
      have hdrop : (mem.take curr ++ scribble (mem.drop curr) 32).drop (curr + inc (mem.drop curr) (len - count)) =
          (scribble (mem.drop curr) 32).drop (inc (mem.drop curr) (len - count)) := by
        rw [← List.drop_drop, List.drop_left' (List.length_take_of_le (by omega))]
      have hroom' : curr + inc (mem.drop curr) (len - count) + (len - (count + inc (mem.drop curr) (len - count))) ≤
          (mem.take curr ++ scribble (mem.drop curr) 32).length := by
        omega
      obtain ⟨hcalls, hmem, hend⟩ := ih hroom' (by omega) (by omega)
      unfold plainLoop
      rw [if_pos hlt, requests_succ k _ (by omega)]
      dsimp only
      rw [hinc]
      refine ⟨?_, hmem.trans hsize, by rw [hend]; omega⟩
      rw [hcalls, hdrop, Nat.sub_add_eq]
    · obtain rfl : count = len := by omega
      unfold plainLoop
      rw [if_neg (Nat.lt_irrefl count), Nat.sub_self]
      exact ⟨(requests_zero _ _).symm, rfl, rfl⟩

/-- What lies behind the bytes received: the rest of the buffer and the heap behind it. -/
def InputBuffer.rest (ib : InputBuffer) (recv : Recv) : Mem := ib.buff.drop recv.bytes.length ++ recv.behind

/-- A read into a buffer of which nothing is left to be read takes its commands from what was received, and leaves
nothing either. -/
theorem psubRead_drained {ib : InputBuffer} (h : ib.Drained) {recv : Recv}
    (hfit : recv.bytes.length ≤ HTTP_BUFFER_SIZE) :
    (ib.psubRead recv).1 = requests recv.bytes.length (recv.bytes.map closeLine ++ ib.rest recv) recv.bytes.length ∧
      (ib.psubRead recv).2.Drained := by
  obtain ⟨buff, curr, r⟩ := ib
  obtain ⟨bytes, behind⟩ := recv
  obtain ⟨hsize, rfl, rfl⟩ := h
  dsimp only at hsize hfit
  have hformat : formatMsg ((bytes ++ buff.drop bytes.length ++ behind).drop 0) bytes.length =
      bytes.map closeLine ++ (buff.drop bytes.length ++ behind) := by
    rw [List.drop_zero, formatMsg, List.append_assoc, List.take_left, List.drop_left]
  have hlen : (bytes ++ buff.drop bytes.length).length = HTTP_BUFFER_SIZE := by
    rw [List.length_append, List.length_drop, hsize]
    omega
  have hroom : 0 + (bytes.length - 0) ≤ (bytes.map closeLine ++ (buff.drop bytes.length ++ behind)).length := by simp
  obtain ⟨hcalls, hmem, hend⟩ := plainLoop_eq bytes.length hroom (Nat.zero_le _) (by omega)
  unfold InputBuffer.psubRead InputBuffer.processPlainText
  simp only [List.take_zero, List.nil_append, Nat.zero_add, Nat.sub_zero, hformat]
  rw [Nat.zero_add, Nat.sub_zero] at hend
  rw [if_pos hend.symm]
  refine ⟨hcalls, ⟨?_, rfl, rfl⟩⟩
  dsimp only
  rw [List.length_take, hmem, hlen]
  refine Nat.min_eq_left ?_
  simp only [List.length_append, List.length_map, List.length_drop, hsize]
  omega

/-- The strings that the loop takes, with two bytes more each, make up for all bytes that were left. -/
theorem requests_sum (k : Nat) (mem : Mem) {left : Nat} (h : left ≤ k) :
    left ≤ ((requests k mem left).map fun c => (cstr c).length + 2).sum := by
  induction k generalizing mem left with
  | zero => exact h.trans (Nat.zero_le _)
  | succ k ih =>
    rcases Nat.eq_zero_or_pos left with rfl | hpos
    · exact Nat.zero_le _
    · have hne : left ≠ 0 := by omega
      have hinc := inc_pos mem hne
      have hstr := inc_le_strlen mem left
      have hrest : left - inc mem left ≤ k := by omega
      have hrest := ih ((scribble mem 32).drop (inc mem left)) hrest
      rw [requests_succ k mem hne, List.map_cons, List.sum_cons]
      rw [strlen] at hstr
      omega

/-! ## Commands on the wire -/

/-- A command: shorter than the buffer, and without NUL, LF and CR. -/
structure IsCommand (c : List UInt8) : Prop where
  fits : c.length < HTTP_BUFFER_SIZE
  plain : ∀ b ∈ c, b ≠ 0 ∧ b ≠ 10 ∧ b ≠ 13

/-- Commands as they are sent, with CR and LF behind each. -/
def wire (cs : List (List UInt8)) : List UInt8 := (cs.map (· ++ [13, 10])).flatten

@[simp] theorem wire_cons (c : List UInt8) (cs : List (List UInt8)) : wire (c :: cs) = c ++ 13 :: 10 :: wire cs := by
  simp [wire]

@[simp] theorem wire_append (cs ds : List (List UInt8)) : wire (cs ++ ds) = wire cs ++ wire ds := by
  simp [wire]

theorem wire_length (cs : List (List UInt8)) : (wire cs).length = (cs.map fun c => c.length + 2).sum := by
  induction cs with
  | nil => rfl
  | cons c cs ih =>
    simp only [wire_cons, List.length_append, List.length_cons, ih, List.map_cons, List.sum_cons]
    omega

/-- Bytes that end no line stay as they are. -/
theorem map_closeLine {c : List UInt8} (h : ∀ b ∈ c, b ≠ 0 ∧ b ≠ 10 ∧ b ≠ 13) : c.map closeLine = c := by
  refine (List.map_congr_left fun b hb => ?_).trans (List.map_id c)
  obtain ⟨-, h10, h13⟩ := h b hb
  rw [ZeroServ.closeLine, if_neg (not_or.mpr ⟨h10, h13⟩), id]

theorem IsCommand.closeLine {c : List UInt8} (h : IsCommand c) : c.map closeLine = c := map_closeLine h.plain

theorem IsCommand.nul {c : List UInt8} (h : IsCommand c) : (0 : UInt8) ∉ c := fun h0 => (h.plain 0 h0).1 rfl

/-- Commands that were received whole are taken as they are, whatever lies behind them. -/
theorem requests_wire {cs : List (List UInt8)} (hcs : ∀ c ∈ cs, IsCommand c) {k : Nat} (hk : (wire cs).length ≤ k)
    (rest : Mem) :
    (requests k ((wire cs).map closeLine ++ rest) (wire cs).length).map cstr = cs := by
  induction cs generalizing k with
  | nil => simp [wire, requests_zero]
  | cons c cs ih =>
    have hc := hcs c List.mem_cons_self
    have hlen : (wire (c :: cs)).length = (wire cs).length + (c.length + 2) := by
      simp only [wire_cons, List.length_append, List.length_cons]
      omega
    obtain ⟨k, rfl⟩ : ∃ k', k = k' + 1 := ⟨k - 1, by omega⟩
    have hmem : (wire (c :: cs)).map closeLine ++ rest = c ++ 0 :: 0 :: ((wire cs).map closeLine ++ rest) := by
      rw [wire_cons, List.map_append, hc.closeLine, List.append_assoc]
      rfl
    have hinc : inc (c ++ 0 :: 0 :: ((wire cs).map closeLine ++ rest)) (wire (c :: cs)).length = c.length + 2 := by
      rw [inc, strlen, cstr_append_nul hc.nul, if_pos (by omega)]
    rw [hmem, requests_succ k _ (by omega), hinc, Model.scribble_drop hc.nul _ (by decide), List.map_cons,
      cstr_append_nul hc.nul, hlen,
      Nat.add_sub_cancel, ih (fun d hd => hcs d (List.mem_cons_of_mem _ hd)) (by omega)]

/-! ## Segmentation -/

/-- What the reads of a connection receive is a way of cutting the stream of these commands. -/
structure CutOf (cs : List (List UInt8)) (recvs : List Recv) : Prop where
  stream : (recvs.map Recv.bytes).flatten = wire cs
  nonempty : ∀ recv ∈ recvs, recv.bytes ≠ []
  fits : ∀ recv ∈ recvs, recv.bytes.length ≤ HTTP_BUFFER_SIZE

/-- Every read receives whole commands. -/
def KeepsWhole (cs : List (List UInt8)) (recvs : List Recv) : Prop :=
  ∃ groups : List (List (List UInt8)), groups.flatten = cs ∧ recvs.map Recv.bytes = groups.map wire

section Reads

variable {ib : InputBuffer} {cs : List (List UInt8)} {recvs : List Recv}

theorem strings_cons (ib : InputBuffer) (recv : Recv) (recvs : List Recv) :
    ib.strings (recv :: recvs) = (ib.psubRead recv).1.map cstr ++ (ib.psubRead recv).2.strings recvs := by
  rw [InputBuffer.strings, InputBuffer.calls, List.map_append]
  rfl

/-- The strings of one read make up for what it received. -/
theorem psubRead_sum (h : ib.Drained) {recv : Recv} (hfit : recv.bytes.length ≤ HTTP_BUFFER_SIZE) :
    recv.bytes.length ≤ (wire ((ib.psubRead recv).1.map cstr)).length := by
  rw [(psubRead_drained h hfit).1, wire_length, List.map_map]
  exact requests_sum _ _ (Nat.le_refl _)

/-- The strings of all reads make up for what they received. -/
theorem strings_sum (h : ib.Drained) (hfits : ∀ recv ∈ recvs, recv.bytes.length ≤ HTTP_BUFFER_SIZE) :
    (recvs.map Recv.bytes).flatten.length ≤ (wire (ib.strings recvs)).length := by
  induction recvs generalizing ib with
  | nil => exact Nat.zero_le _
  | cons recv recvs ih =>
    have hfit := hfits recv List.mem_cons_self
    have hfirst := psubRead_sum h hfit
    have hrest := ih (psubRead_drained h hfit).2 fun r hr => hfits r (List.mem_cons_of_mem _ hr)
    rw [strings_cons, wire_append, List.map_cons, List.flatten_cons, List.length_append, List.length_append]
    exact Nat.add_le_add hfirst hrest

/-- Reads that receive whole commands take them. -/
theorem strings_of_keepsWhole (hcs : ∀ c ∈ cs, IsCommand c) (h : ib.Drained)
    (hfits : ∀ recv ∈ recvs, recv.bytes.length ≤ HTTP_BUFFER_SIZE) (hwhole : KeepsWhole cs recvs) :
    ib.strings recvs = cs := by
  obtain ⟨groups, rfl, hgroups⟩ := hwhole
  induction recvs generalizing ib groups with
  | nil =>
    obtain rfl := List.map_eq_nil_iff.mp hgroups.symm
    rfl
  | cons recv recvs ih =>
    obtain ⟨group, groups, rfl, hgroup, hrest⟩ := List.map_eq_cons_iff.mp hgroups.symm
    have hfit := hfits recv List.mem_cons_self
    obtain ⟨hcalls, hdrained⟩ := psubRead_drained h hfit
    have htail := ih hdrained (fun r hr => hfits r (List.mem_cons_of_mem _ hr)) groups hrest.symm
      fun c hc => hcs c (List.mem_append_right _ hc)
    rw [strings_cons, hcalls, ← hgroup, requests_wire (fun c hc => hcs c (List.mem_append_left _ hc))
      (Nat.le_refl _), htail]
    rfl

/-- Reads that take the commands of the stream have received them whole: each turn of the loop claims its string and
two bytes, so none can have claimed more than was received. -/
theorem keepsWhole_of_strings (h : ib.Drained) (hfits : ∀ recv ∈ recvs, recv.bytes.length ≤ HTTP_BUFFER_SIZE)
    (hstream : (recvs.map Recv.bytes).flatten = wire cs) (hstrings : ib.strings recvs = cs) : KeepsWhole cs recvs := by
  induction recvs generalizing ib cs with
  | nil =>
    obtain rfl : [] = cs := hstrings
    exact ⟨[], rfl, rfl⟩
  | cons recv recvs ih =>
    have hfit := hfits recv List.mem_cons_self
    have hdrained := (psubRead_drained h hfit).2
    have hfits' : ∀ r ∈ recvs, r.bytes.length ≤ HTTP_BUFFER_SIZE := fun r hr => hfits r (List.mem_cons_of_mem _ hr)
    have hfirst := psubRead_sum h hfit
    have hrest := strings_sum hdrained hfits'
    rw [strings_cons] at hstrings
    subst hstrings
    rw [List.map_cons, List.flatten_cons, wire_append] at hstream
    have htotal := congrArg List.length hstream
    rw [List.length_append, List.length_append] at htotal
    obtain ⟨hbytes, hstream'⟩ := List.append_inj hstream (by omega)
    obtain ⟨groups, hgroups, hmap⟩ := ih hdrained hfits' hstream' rfl
    refine ⟨(ib.psubRead recv).1.map cstr :: groups, ?_, ?_⟩
    · rw [List.flatten_cons, hgroups]
    · rw [List.map_cons, List.map_cons, hbytes, hmap]

end Reads

/-- The command strings of a connection are the commands of the stream exactly when every read receives whole
commands: so for any two ways of cutting the stream, over whatever memory; and a way of cutting gives the same
strings as one that keeps the commands whole just when it keeps them whole. -/
theorem segmentation_iff {cs : List (List UInt8)} (hcs : ∀ c ∈ cs, IsCommand c) {cut₁ cut₂ : List Recv}
    (h₁ : CutOf cs cut₁) (h₂ : CutOf cs cut₂) {buff₁ buff₂ : List UInt8} (hb₁ : buff₁.length = HTTP_BUFFER_SIZE)
    (hb₂ : buff₂.length = HTTP_BUFFER_SIZE) :
    ((InputBuffer.init buff₁).strings cut₁ = cs ∧ (InputBuffer.init buff₂).strings cut₂ = cs ↔
        KeepsWhole cs cut₁ ∧ KeepsWhole cs cut₂) ∧
      (KeepsWhole cs cut₁ →
        ((InputBuffer.init buff₁).strings cut₁ = (InputBuffer.init buff₂).strings cut₂ ↔ KeepsWhole cs cut₂)) := by
  have hexact : ∀ {cut : List Recv} {buff : List UInt8}, CutOf cs cut → buff.length = HTTP_BUFFER_SIZE →
      ((InputBuffer.init buff).strings cut = cs ↔ KeepsWhole cs cut) := by
    intro cut buff hcut hbuff
    have hdrained := InputBuffer.drained_init hbuff
    exact ⟨keepsWhole_of_strings hdrained hcut.fits hcut.stream, strings_of_keepsWhole hcs hdrained hcut.fits⟩
  refine ⟨and_congr (hexact h₁ hb₁) (hexact h₂ hb₂), ?_⟩
  intro hwhole
  rw [(hexact h₁ hb₁).mpr hwhole, eq_comm]
  exact hexact h₂ hb₂

instance (c : List UInt8) : Decidable (IsCommand c) :=
  have : Decidable (∀ b ∈ c, b ≠ 0 ∧ b ≠ 10 ∧ b ≠ 13) := List.decidableBAll _ c
  decidable_of_iff (c.length < HTTP_BUFFER_SIZE ∧ ∀ b ∈ c, b ≠ 0 ∧ b ≠ 10 ∧ b ≠ 13)
    ⟨fun h => ⟨h.1, h.2⟩, fun h => ⟨h.1, h.2⟩⟩

instance (cs : List (List UInt8)) (recvs : List Recv) : Decidable (CutOf cs recvs) :=
  decidable_of_iff ((recvs.map Recv.bytes).flatten = wire cs ∧ (∀ recv ∈ recvs, recv.bytes ≠ []) ∧
      ∀ recv ∈ recvs, recv.bytes.length ≤ HTTP_BUFFER_SIZE)
    ⟨fun h => ⟨h.1, h.2.1, h.2.2⟩, fun h => ⟨h.1, h.2, h.3⟩⟩

/-- Two commands in one read, or in a read each. -/
theorem segmentation_two_commands :
    (InputBuffer.init (List.replicate 1024 120)).strings [⟨lit "sub t\r\nack\r\n", [0]⟩] =
      (InputBuffer.init (List.replicate 1024 0)).strings [⟨lit "sub t\r\n", []⟩, ⟨lit "ack\r\n", []⟩] :=
  ((segmentation_iff (by decide +kernel) (by decide +kernel) (by decide +kernel) (by decide +kernel)
    (by decide +kernel)).2 ⟨[[lit "sub t", lit "ack"]], rfl, by decide +kernel⟩).mpr
    ⟨[[lit "sub t"], [lit "ack"]], rfl, by decide +kernel⟩

/-- A command that comes in two reads is taken for two. -/
theorem segmentation_cut_command :
    CutOf [lit "sub t"] [⟨lit "sub t\r\n", []⟩] ∧ CutOf [lit "sub t"] [⟨lit "sub", []⟩, ⟨lit " t\r\n", []⟩] ∧
      (InputBuffer.init (List.replicate 1024 0)).strings [⟨lit "sub t\r\n", []⟩] ≠
        (InputBuffer.init (List.replicate 1024 0)).strings [⟨lit "sub", []⟩, ⟨lit " t\r\n", []⟩] := by
  decide +kernel

end ZeroServ
