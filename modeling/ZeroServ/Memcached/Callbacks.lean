import ZeroServ.Memcached.Commands

/-!
# The callbacks of the memcached handler

`mc_read` is a loop: `View.turn` is one turn of it. `mc_write` sends what is pending. `World` has the connections, of
which `poll_do` calls one callback after the other: between the call of `mc_read` and the turn that ends it no other
callback runs.
-/

namespace ZeroServ.Mc

open Run

/-- How a turn of `mc_read` ends: the loop goes on, it stops, or it stops with the connection closed. -/
inductive Next where
  | go | stop | closed
  deriving DecidableEq, Repr

section callbacks

variable (hash : List UInt8 → UInt32)

namespace View

/-- `try_read_command`; `none` where no line is complete. -/
def tryReadCommand (v : View) (env : Env) : Except End (Option View) :=
  if 10 ∈ v.c.ib.bytes then do
    let line := v.c.ib.bytes.takeWhile (· != 10)
    let command := if line.length > 1 && line.getLast? = some 13 then line.dropLast else line
    let v ← v.processCommand hash command env
    pure (some { v with c := { v.c with ib := v.c.ib.advance (line.length + 1) } })
  else .ok none

/-- `recv(fd, ib->r, n, 0)`: what it returns, the bytes it stores in front of what it left for later. -/
def recv (v : View) (n : Nat) : View × Int :=
  match v.c.sock with
  | [] => ({ v with errno := .again }, -1)
  | .bytes bs :: rest =>
    let sock := if bs.length ≤ n then rest else .bytes (bs.drop n) :: rest
    ({ v with c := { v.c with sock, ib := v.c.ib.put (bs.take n) } }, (bs.take n).length)
  | .eof :: rest => ({ v with c := { v.c with sock := rest } }, 0)
  | .failed e :: rest => ({ v with errno := e, c := { v.c with sock := rest } }, -1)

/-- `read_bytes` -/
def readBytes (v : View) (bytes : Int) : Except End (View × Int) :=
  if bytes ≤ 0 ∨ v.c.ib.remainWrite < bytes then .error .exited else .ok (v.recv bytes.toNat)

def setState (v : View) (state : ConnState) : View := { v with c := { v.c with state } }

def countRead (v : View) (res : Int) : View :=
  { v with counters := { v.counters with bytesRead := v.counters.bytesRead + UInt64.ofNat res.toNat } }

/-- `try_read_network`. It goes on when `recv` fills the buffer, and `read_bytes` has no room in the next turn. -/
def tryReadNetwork (v : View) : Except End View := do
  let avail := v.c.ib.remainWrite
  let (v, res) ← v.readBytes avail
  if res > 0 then
    let v := v.countRead res
    if res = avail then
      let _ ← v.readBytes v.c.ib.remainWrite
      pure v
    else pure v
  else if res = -1 && v.errno = .again then pure v
  else pure (v.setState .closing)

/-- What `complete_nread` answers. -/
def replyText : Reply → List UInt8
  | .badDataChunk => Texts.badDataChunk
  | .stored => Texts.stored
  | .notStored => Texts.notStored

/-- `complete_nread` -/
def completeNread (v : View) (env : Env) : Except End View :=
  match v.c.item with
  | none => .error (.fault .corrupt)
  | some it => do
    let (s, reply) ← orEnd (Mc.completeNread hash v.store it v.c.itemComm env)
    let v ← { v with store := s }.outString (replyText reply)
    pure { v with c := { v.c with item := none, rd := false } }

/-- The bytes that are in the input buffer are copied to the item, up to its length. -/
def copyData (v : View) : Except End View :=
  match v.c.item with
  | none => .error (.fault .corrupt)
  | some it => do
    let bs := v.c.ib.bytes.take v.c.rlbytes
    let x ← orEnd (v.store.deref it)
    let data ← orEnd (memcpyData x.data v.c.ritem bs)
    let s ← orEnd (v.store.write it fun y => { y with data })
    pure
      { v with
        store := s
        c :=
          { v.c with
            ritem := v.c.ritem + bs.length, rlbytes := v.c.rlbytes - bs.length, ib := v.c.ib.advance bs.length } }

/-- The rest of an item's data is received; `ritem` moves on. -/
def recvData (v : View) : Except End View := do
  let (v, res) ← v.readBytes v.c.rlbytes
  if res > 0 then
    let v := v.countRead res
    pure { v with c := { v.c with ritem := v.c.ritem + res.toNat, rlbytes := v.c.rlbytes - res.toNat } }
  else pure (v.setState .closing)

/-- `conn_cleanup` -/
def connCleanup (v : View) : Except End View := do
  let s ← orEnd (release v.store v.c.item)
  pure { v with store := s, c := { v.c with item := none } }

/-- `conn_close`, but for the descriptor. -/
def connClose (v : View) : Except End View := do
  let v ← v.connCleanup
  pure { v with counters := { v.counters with currConns := v.counters.currConns - 1 } }

/-- A turn of the loop of `mc_read`. -/
def turn (v : View) (env : Env) : Except End (View × Next) :=
  match v.c.state with
  | .read => do
    match ← v.tryReadCommand hash env with
    | some v => pure (v, if v.c.wr then .stop else .go)
    | none => pure (← v.tryReadNetwork, .go)
  | .nread =>
    if v.c.rlbytes = 0 then do
      let v ← v.completeNread hash env
      pure (v, if v.c.wr then .stop else .go)
    else if v.c.ib.bytes ≠ [] then do pure (← v.copyData, .go)
    else do pure (← v.recvData, .go)
  | .closing => do pure (← v.connClose, .closed)
  | .listening | .write | .swallow | .mwrite => .ok (v, .go)

/-- `mc_write`, where `send` takes `n` bytes; it fails or takes none when `n` is 0. -/
def mcWrite (v : View) (n : Nat) : Except End (View × Next) :=
  if 0 < n then
    let ob := v.c.ob.advance n
    let v := { v with counters := { v.counters with bytesWritten := v.counters.bytesWritten + UInt64.ofNat n } }
    if ob.bytes = [] then
      .ok ({ v with c := { v.c with ib := .reset, ob := .reset, state := .read } }.setRd, .stop)
    else .ok ({ v with c := { v.c with ob } }, .stop)
  else do pure (← v.connClose, .closed)

end View

/-! ## The connections -/

/-- The globals, the connections, and the one whose `mc_read` runs; `ended` says how the process ended. -/
structure World where
  store : Store
  errno : Errno
  counters : Counters
  pid : UInt32
  conn : Fd → Option Conn
  running : Option Fd
  ended : Option End

/-- A connection after `mc_accept`, of which the event loop has enabled reading. -/
def Conn.init (sock : List Recv) : Conn where
  state := .read
  item := none
  ritem := 0
  rlbytes := 0
  itemComm := .add
  ib := .reset
  ob := .reset
  rd := true
  wr := false
  sock := sock

/-- What the event loop does: it accepts a connection, calls `mc_read` of one, runs a turn of the `mc_read` it
called, or calls `mc_write`, whose `send` takes `n` bytes. -/
inductive Call where
  | accept (fd : Fd) (sock : List Recv)
  | read (fd : Fd)
  | turn (env : Env)
  | write (fd : Fd) (n : Nat)

namespace World

/-- The world when the handler registers itself (`stats_init`). -/
def init (pid : UInt32) : World where
  store := .init
  errno := .other
  counters :=
    { currConns := 0, totalConns := 0, getCmds := 0, setCmds := 0, getHits := 0, getMisses := 0, evictions := 0,
      bytesRead := 0,
      bytesWritten := 0 }
  pid := pid
  conn := fun _ => none
  running := none
  ended := none

variable (w : World)

/-- What a callback of the connection sees. -/
def view (c : Conn) : View where
  store := w.store
  errno := w.errno
  counters := w.counters
  pid := w.pid
  c := c

/-- What a callback leaves. -/
def back (fd : Fd) : Except End (View × Next) → World
  | .error e => { w with ended := some e }
  | .ok (v, next) =>
    { w with
      store := v.store
      errno := v.errno
      counters := v.counters
      conn := Function.update w.conn fd (if next = .closed then none else some v.c)
      running := if next = .go then some fd else none }

/-- The memory `zmalloc` returns is not in use. -/
def isFree (mem : Option Ptr) : Bool := mem.all fun p => (w.store.heap.get p).isNone

def step (w : World) (e : Call) : Option World :=
  if w.ended = none then
    match e, w.running with
    | .accept fd sock, none =>
      if w.conn fd = none then
        some
          { w with
            conn := Function.update w.conn fd (some (.init sock))
            counters :=
              { w.counters with
                currConns := w.counters.currConns + 1, totalConns := w.counters.totalConns + 1 } }
      else none
    | .read fd, none => (w.conn fd).map fun _ => { w with running := some fd }
    | .write fd n, none =>
      (w.conn fd).bind fun c => if n ≤ c.ob.bytes.length then some (w.back fd ((w.view c).mcWrite n)) else none
    | .turn env, some fd => (w.conn fd).bind fun c =>
        if w.isFree env.mem then some (w.back fd ((w.view c).turn hash env)) else none
    | _, _ => none
  else none

end World

end callbacks

end ZeroServ.Mc
