import ZeroServ.Memcached.Connections

/-!
# The commands of the memcached protocol

`process_command` of `memcached.c` and what it calls, on a connection with its two buffers. Of a buffer the model has
the bytes between `curr` and `r` and the offset of `r`; what is written to an output buffer must end within its
`MC_BUFFER_SIZE` bytes, which the code does not look at: past them the run ends with `End.overflow`.
-/

namespace ZeroServ.Mc

open CString Decimal

def MC_BUFFER_SIZE : Nat := 4096
def KEY_MAX_LENGTH : Nat := 250
def MAX_TOKENS : Nat := 8

/-- `enum conn_states` -/
inductive ConnState where
  | listening | read | write | nread | swallow | closing | mwrite
  deriving DecidableEq, Repr

/-- `struct buffer`: the bytes from `curr` to `r`, and `r - buff`. -/
structure Buf where
  bytes : List UInt8
  r : Nat
  deriving DecidableEq, Repr

namespace Buf

/-- `buffer_init` and `buffer_reset` -/
def reset : Buf := { bytes := [], r := 0 }

/-- `buffer_remain_write` -/
def remainWrite (b : Buf) : Int := MC_BUFFER_SIZE - b.r

/-- Bytes stored at `r`. -/
def put (b : Buf) (bs : List UInt8) : Buf := { bytes := b.bytes ++ bs, r := b.r + bs.length }

/-- `b->curr += n` -/
def advance (b : Buf) (n : Nat) : Buf := { b with bytes := b.bytes.drop n }

end Buf

/-- The values of `errno` that are told apart: `ERANGE`, `EINVAL`, `EAGAIN` (or `EWOULDBLOCK`), any other. -/
inductive Errno where
  | range | inval | again | other
  deriving DecidableEq, Repr

/-- What `recv` meets; bytes beyond those asked for stay for the next call. -/
inductive Recv where
  | bytes (bs : List UInt8)
  | eof
  | failed (e : Errno)
  deriving DecidableEq, Repr

/-- `struct conn`, with the buffers and the interest of its descriptor and what its `recv` calls will meet; after
that they would block. `ritem` is the offset in the item's data. -/
structure Conn where
  state : ConnState
  item : Option Ptr
  ritem : Nat
  rlbytes : Nat
  itemComm : Comm
  ib : Buf
  ob : Buf
  rd : Bool
  wr : Bool
  sock : List Recv
  deriving DecidableEq

/-- What `struct stats` counts besides the items. -/
structure Counters where
  currConns : UInt32
  totalConns : UInt32
  getCmds : UInt64
  setCmds : UInt64
  getHits : UInt64
  getMisses : UInt64
  evictions : UInt64
  bytesRead : UInt64
  bytesWritten : UInt64

/-- How the process ends: at `exit(1)` in `log_fatal`, at a fault of the store, or with bytes written past an output
buffer. -/
inductive End where
  | exited
  | fault (f : Fault)
  | overflow
  deriving DecidableEq, Repr

/-- What a callback sees: the globals and its connection. -/
structure View where
  store : Store
  errno : Errno
  counters : Counters
  pid : UInt32
  c : Conn

/-- The store's operations end the process as they fail. -/
def orEnd {α : Type} : Except Fault α → Except End α
  | .ok a => .ok a
  | .error f => .error (.fault f)

/-! ## Tokens -/

/-- The loop of `tokenize_command` from `e` on, with the word that has been begun and the number of tokens that may
still be made: the tokens, and the memory that is left (`NULL` at the end of the string). -/
def tokenLoop : List UInt8 → List UInt8 → Nat → List (List UInt8) × Option (List UInt8)
  | e, _, 0 => ([], if e = [] then none else some e)
  | [], word, _ + 1 => (if word = [] then [] else [word], none)
  | b :: e, word, n + 1 =>
    if b = 32 then
      if word = [] then tokenLoop e [] (n + 1)
      else
        let r := tokenLoop e [] n
        (word :: r.1, r.2)
    else tokenLoop e (word ++ [b]) (n + 1)

/-- `tokenize_command`: the tokens but the last one, which is that of the memory that is left. -/
def tokenizeCommand (command : List UInt8) (maxTokens : Nat) : List (List UInt8) × Option (List UInt8) :=
  tokenLoop (cstr command) [] (maxTokens - 1)

/-! ## Replies -/

namespace Texts

def badFormat : List UInt8 := lit "CLIENT_ERROR bad command line format"
def outOfMemory : List UInt8 := lit "SERVER_ERROR out of memory storing object"
def badDataChunk : List UInt8 := lit "CLIENT_ERROR bad data chunk"
def stored : List UInt8 := lit "STORED"
def notStored : List UInt8 := lit "NOT_STORED"
def version : List UInt8 := lit "VERSION /-_-\\"
def error : List UInt8 := lit "ERROR"

end Texts

/-- `%ld` of a `uint64_t` -/
def longText (x : UInt64) : List UInt8 := intText (Int.bmod x.toNat (2 ^ 64))

/-- A line of the reply to `stats`. -/
def statLine (name value : List UInt8) : List UInt8 := lit "STAT " ++ name ++ 32 :: value ++ crlf

namespace View

variable (v : View)

def setRd : View := { v with c := { v.c with rd := true, wr := false } }

def setWr : View := { v with c := { v.c with rd := false, wr := true } }

/-- `add_out_string` -/
def addOutString (data : List UInt8) : Except End View :=
  if v.c.ob.r + data.length ≤ MC_BUFFER_SIZE then .ok { v with c := { v.c with ob := v.c.ob.put data } }.setWr
  else .error .overflow

/-- `out_string` -/
def outString (data : List UInt8) : Except End View := v.addOutString (data ++ crlf)

/-- The text of the reply to `stats`. -/
def statsText : List UInt8 :=
  statLine (lit "pid") (natText v.pid.toNat) ++
  statLine (lit "pointer_size") (natText 64) ++
  statLine (lit "curr_items") (natText v.store.stats.currItems.toNat) ++
  statLine (lit "total_items") (natText v.store.stats.totalItems.toNat) ++
  statLine (lit "bytes") (longText v.store.stats.currBytes) ++
  statLine (lit "curr_connections") (natText (v.counters.currConns - 1).toNat) ++
  statLine (lit "total_connections") (natText v.counters.totalConns.toNat) ++
  statLine (lit "cmd_get") (longText v.counters.getCmds) ++
  statLine (lit "cmd_set") (longText v.counters.setCmds) ++
  statLine (lit "get_hits") (longText v.counters.getHits) ++
  statLine (lit "get_misses") (longText v.counters.getMisses) ++
  statLine (lit "evictions") (longText v.counters.evictions) ++
  statLine (lit "bytes_read") (longText v.counters.bytesRead) ++
  statLine (lit "bytes_written") (longText v.counters.bytesWritten) ++
  lit "END"

end View

/-! ## `process_command` -/

section commands

variable (hash : List UInt8 → UInt32)

/-- What `process_get_command` sends for an item and at the end. -/
def getReply (it : Option (List UInt8 × Value)) : List (List UInt8) :=
  match it with
  | some (key, suffix, data) => [lit "VALUE ", key, suffix ++ data, lit "END\r\n"]
  | none => [lit "END\r\n"]

/-- `process_get_command` -/
def View.processGetCommand (v : View) (tokens : List (List UInt8)) (env : Env) : Except End View := do
  let (s, it) ← orEnd (Mc.processGetCommand hash v.store (tokens.getD 1 []) env.now)
  let counters := { v.counters with getCmds := v.counters.getCmds + 1 }
  let counters :=
    if it.isSome then { counters with getHits := counters.getHits + 1 }
    else { counters with getMisses := counters.getMisses + 1 }
  (getReply it).foldlM View.addOutString { v with store := s, counters }

/-- The numbers of an update command: the flags, the expiry time and the length, and `errno` after they were read. -/
structure Numbers where
  flags : Int
  exptime : Int
  vlen : Int
  errno : Errno

def Numbers.read (tokens : List (List UInt8)) (errno : Errno) : Numbers where
  flags := CInt.int32 (strtoul (tokens.getD 2 []))
  exptime := strtol (tokens.getD 3 [])
  vlen := CInt.int32 (strtol (tokens.getD 4 []))
  errno :=
    if strtoulRange (tokens.getD 2 []) || strtolRange (tokens.getD 3 []) || strtolRange (tokens.getD 4 []) then .range
    else errno

/-- Whether `process_update_command` takes the numbers for malformed. -/
def Numbers.bad (n : Numbers) : Bool :=
  n.errno = .range || ((n.flags = 0 || n.exptime = 0) && n.errno = .inval) || n.vlen < 0

/-- `process_update_command`. Where there is no memory it also sets `write_and_go` and `sbytes`, which nothing reads. -/
def View.processUpdateCommand (v : View) (tokens : List (List UInt8)) (comm : Comm) (env : Env) : Except End View := do
  let v := { v with counters := { v.counters with setCmds := v.counters.setCmds + 1 } }
  let key := tokens.getD 1 []
  if key.length > KEY_MAX_LENGTH then v.outString Texts.badFormat
  else
    let n := Numbers.read tokens v.errno
    let v := { v with errno := n.errno }
    if n.bad then v.outString Texts.badFormat
    else
      match doItemAlloc v.store key n.flags 0 (n.vlen.toNat + 2) env.mem env.found with
      | (s, none) =>
        let v ← { v with store := s }.outString Texts.outOfMemory
        let s ← orEnd (failedAlloc hash v.store key comm env.now)
        pure { v with store := s }
      | (s, some it) =>
        pure
          { v with
            store := s
            c :=
              { v.c with
                item := some it, ritem := 0, rlbytes := n.vlen.toNat + 2, itemComm := comm, state := .nread
                rd := true } }

/-- The update command a word names. -/
def commOf (word : List UInt8) : Option Comm :=
  if word = lit "add" then some .add
  else if word = lit "set" then some .set
  else if word = lit "replace" then some .replace
  else if word = lit "prepend" then some .prepend
  else if word = lit "append" then some .append
  else none

/-- `process_command` -/
def View.processCommand (v : View) (command : List UInt8) (env : Env) : Except End View :=
  let tokens := (tokenizeCommand command MAX_TOKENS).1
  let ntokens := tokens.length + 1
  let word := tokens.headD []
  if ntokens ≥ 3 && (word = lit "get" || word = lit "bget") then v.processGetCommand hash tokens env
  else
    match if ntokens = 6 || ntokens = 7 then commOf word else none with
    | some comm => v.processUpdateCommand hash tokens comm env
    | none =>
      if ntokens = 2 && word = lit "version" then v.outString Texts.version
      else if ntokens = 2 && word = lit "stats" then v.outString v.statsText
      else v.outString Texts.error

end commands

end ZeroServ.Mc
