import ZeroServ.Common.StrUtil
import ZeroServ.Common.UtHash
import ZeroServ.PubSub.Model

/-!
# The pub/sub server: connections, front ends and the kernel

The two front ends `pubsub.c` and `http_pubsub.c` around the model, on the descriptors of the process. A descriptor
the kernel has closed is handed out again by a later `accept`, to any of the five TCP handlers, over whatever the
last connection left in `fdtab`. An event is one callback of the poller, or one command or parser callback inside of
it; the server leaves `Obs` behind, from which a `History` (the newest first) tells what a connection has done since
it was accepted.

`_stat` is the one object that the definitions in `echo.c`, `pubsub.c` and `http_pubsub.c` link to.
-/

namespace ZeroServ

open CString

/-- The size of the buffers of both front ends. -/
def HTTP_BUFFER_SIZE : Nat := 1024

/-- `struct session` of `http_pubsub.h` -/
structure Session where
  url : Option Mem
  cookie : Option (List UInt8)
  deriving DecidableEq, Repr

/-- What the server keeps for a descriptor. `isOpen` is the kernel's, the rest is in `fdtab`: the handler of `owner`,
whether `cb[DIR_WR].b` is not `NULL`, and the session in `context`. -/
structure FdEntry where
  isOpen : Bool
  owner : Option Handler
  wrBuf : Bool
  session : Option Session
  deriving DecidableEq, Repr

/-- `struct pubsub_stat` -/
structure Stat where
  conn : Int
  maxConn : Int
  deriving DecidableEq, Repr

/-- The server's state. `cookieList` is what was added to the hash of `cookie.h`, the newest entry first; nothing
removes an entry. -/
structure Server where
  model : Model
  cookieList : List (List UInt8 × Nat)
  fdtab : Fd → FdEntry
  stat : Stat
  exited : Bool

/-- What the server does that later says what a connection is entitled to. -/
inductive Obs where
  | accepted (fd : Fd)
  | loggedIn (fd : Fd) (acc : Nat)
  | cookieFor (fd : Fd) (acc : Nat)
  | subscribed (fd : Fd) (topic : List UInt8)
  | unsubscribed (fd : Fd) (topic : List UInt8) (ok : Bool)
  | delivered (fd : Fd) (topic : List UInt8)
  deriving DecidableEq, Repr

/-- What has been observed, the newest first. -/
abbrev History := List Obs

/-- The connection now on the descriptor has, since it was accepted, logged in as the account or presented a cookie
of it. -/
def Entitled : History → Fd → Nat → Prop
  | [], _, _ => False
  | o :: h, fd, acc =>
    match o with
    | .accepted fd' => fd' ≠ fd ∧ Entitled h fd acc
    | .loggedIn fd' acc' => (fd' = fd ∧ acc' = acc) ∨ Entitled h fd acc
    | .cookieFor fd' acc' => (fd' = fd ∧ acc' = acc) ∨ Entitled h fd acc
    | _ => Entitled h fd acc

/-- The connection now on the descriptor has, since it was accepted, subscribed to the topic (by `sub` or `create`)
and not executed an `unsub` of it since. `refused` says whether an `unsub` that the model refused counts as one. -/
def Subscribed (refused : Bool) : History → Fd → List UInt8 → Prop
  | [], _, _ => False
  | o :: h, fd, topic =>
    match o with
    | .accepted fd' => fd' ≠ fd ∧ Subscribed refused h fd topic
    | .subscribed fd' topic' => (fd' = fd ∧ topic' = topic) ∨ Subscribed refused h fd topic
    | .unsubscribed fd' topic' ok =>
      ¬(fd' = fd ∧ topic' = topic ∧ (ok || refused) = true) ∧ Subscribed refused h fd topic
    | _ => Subscribed refused h fd topic

/-- One event. -/
inductive Event where
  /-- `event_accept` on a listener of the handler gets the descriptor from the kernel. -/
  | accept (h : Handler) (fd : Fd)
  /-- `process_plain_text` hands the memory of a command to `model_process`. -/
  | command (fd : Fd) (content : Mem) (s : Supply)
  /-- The parser calls `http_on_url` with these bytes. -/
  | url (fd : Fd) (bytes : List UInt8)
  /-- The parser calls `http_on_header_field` with a pointer to this memory. -/
  | headerField (fd : Fd) (mem : Mem)
  /-- The parser calls `http_on_msg_complete`; `behind` is the heap after the URL and after its copy, `rands` what
  `rand` returns. -/
  | msgComplete (fd : Fd) (s : Supply) (rands : List Nat) (behind : Mem)
  /-- The poller closes the descriptor and calls the handler's `disconnect`. -/
  | close (fd : Fd)
  deriving DecidableEq, Repr

/-- A handler with `user_data`, so one whose connections the model may call back. -/
def Handler.hasUserData : Handler → Bool
  | .pubsub | .httpPubsub => true
  | _ => false

namespace Server

variable (s : Server)

/-- What the model sees of `fdtab`. -/
def view : FdView where
  wrBuf := fun fd => (s.fdtab fd).wrBuf
  userData := fun fd => (s.fdtab fd).owner.any Handler.hasUserData

def setFd (fd : Fd) (f : FdEntry → FdEntry) : Server :=
  { s with fdtab := fun fd' => if fd' = fd then f (s.fdtab fd') else s.fdtab fd' }

/-- The connection on a descriptor is open and belongs to the handler. -/
def serves (h : Handler) (fd : Fd) : Bool := (s.fdtab fd).isOpen && (s.fdtab fd).owner = some h

/-! ## `cookie.h` -/

/-- `zen_cookie`: ten letters, `rand() % span + 'a'` each. -/
def zenCookie (rands : List Nat) : List UInt8 := (rands.take 10).map fun r => UInt8.ofNat (r % 25 + 97)

/-- The table of `cookie_list`. -/
def cookieTable : UtHash.Table (List UInt8) Nat := .made UtHash.hashJen s.cookieList

/-- `cookie_get_content` -/
def cookieGetContent (name : List UInt8) : Option Nat := (s.cookieTable.find UtHash.hashJen name).map (·.2)

/-- `cookie_put_content` -/
def cookiePutContent (acc : Nat) (rands : List Nat) : Server :=
  { s with cookieList := (zenCookie rands, acc) :: s.cookieList }

/-! ## Accepting and closing -/

/-- The connection limit of `_stat` is reached. -/
def full : Bool := s.stat.maxConn ≤ s.stat.conn

/-- The handler's `accept`: what it leaves in `fdtab` and `_stat`, and whether it returns `ZB_NOP`. The echo and
plain handlers set the buffers before they look at the limit. -/
def handlerAccept (h : Handler) (fd : Fd) : Server × Bool :=
  match h with
  | .echo | .pubsub =>
    let s := s.setFd fd fun e => { e with wrBuf := true }
    if s.full then (s, false) else ({ s with stat.conn := s.stat.conn + 1 }, true)
  | .httpPubsub =>
    if s.full then (s, false)
    else
      ({ s with stat.conn := s.stat.conn + 1 }.setFd fd fun e =>
        { e with wrBuf := true, session := some ⟨none, none⟩ }, true)
  | .http => (s.setFd fd fun e => { e with wrBuf := true }, true)
  | .memcached => (s.setFd fd fun e => { e with wrBuf := true, session := none }, true)

/-- `event_accept` once the kernel has returned a descriptor: refused by the handler, it is closed again. -/
def eventAccept (h : Handler) (fd : Fd) : Server × List Obs :=
  let (s, ok) := s.handlerAccept h fd
  if ok then (s.setFd fd fun e => { e with isOpen := true, owner := some h }, [.accepted fd]) else (s, [])

/-- The handler's `disconnect`. The plain handler leaves `cb[DIR_WR].b` as it is; `http` and `memcached` free it and
leave the pointer. -/
def handlerDisconnect (h : Handler) (fd : Fd) : Server :=
  match h with
  | .echo => { s with stat.conn := s.stat.conn - 1 }.setFd fd fun e => { e with wrBuf := false }
  | .pubsub => { s with stat.conn := s.stat.conn - 1, model := s.model.modelAccOffline fd }
  | .httpPubsub =>
    { s with stat.conn := s.stat.conn - 1, model := s.model.modelAccOffline fd }.setFd fd
      fun e => { e with wrBuf := false, session := none }
  | .http => s
  | .memcached => s.setFd fd fun e => { e with session := none }

/-- `recheck_state` on `ZB_CLOSE`: `fd_delete`, then the handler's `disconnect`. -/
def close (h : Handler) (fd : Fd) : Server :=
  (s.setFd fd fun e => { e with isOpen := false }).handlerDisconnect h fd

/-! ## Requests -/

/-- What the front end of a called connection does that reaches beyond its output buffer: the HTTP front end hands
out a cookie for the current account in reply to a `login`. -/
def onResponse (rands : List Nat) (r : Response) : Server :=
  if (s.fdtab r.fd).owner = some .httpPubsub ∧ r.action = some .login then
    match s.model.accountGetByFd r.fd with
    | some acc => s.cookiePutContent acc.id rands
    | none => s
  else s

/-- What a command, run on the model `m`, lets observe. -/
def observe (m : Model) (fd : Fd) (content : Mem) (delim : UInt8) (p : Model.Processed) : List Obs :=
  match p.action with
  | some .login =>
    match Model.cut (content.drop 6) delim with
    | some (user, _) => if p.ret = .success then (m.accountGet user).toList.map fun acc => .loggedIn fd acc.id else []
    | none => []
  | some .create => if p.ret = .success then [.subscribed fd (cstr (content.drop 7))] else []
  | some .sub => if p.ret = .success then [.subscribed fd (cstr (content.drop 4))] else []
  | some .unsub => [.unsubscribed fd (cstr (content.drop 6)) (p.ret = .success)]
  | some .pub =>
    match Model.cut (content.drop 4) delim with
    | some (topic, _) => (p.sent.filter fun r => r.action = some .repSub).map fun r => .delivered r.fd topic
    | none => []
  | _ => []

/-- A command of a connection: `model_process`, with the callbacks it makes. -/
def process (fd : Fd) (content : Mem) (delim : UInt8) (sup : Supply) (rands : List Nat) : Server × List Obs :=
  let p := s.model.modelProcess s.view fd content delim sup
  (p.sent.foldl (fun s r => s.onResponse rands r) { s with model := p.model, exited := p.exited },
    observe s.model fd content delim p)

/-- `http_on_url`: the decoded URL in a buffer of `length + 1` bytes, zero where nothing was written. -/
def httpOnUrl (sess : Session) (bytes : List UInt8) : Session :=
  let out := (uriDecode (cstr bytes)).1
  { sess with url := some (out ++ List.replicate (bytes.length + 1 - out.length) 0) }

/-- `http_on_header_field`: the text from `zchat=` to the next carriage return, wherever the search finds them. The
length the parser passes is not read. -/
def httpOnHeaderField (sess : Session) (mem : Mem) : Session :=
  if Model.compare mem "Cookie" then
    match strstr mem (lit "zchat=") with
    | some name => { sess with cookie := (strchr name 13).map fun pos => strndup name (name.length - pos.length) }
    | none => sess
  else sess

/-- The account the session cookie resolves to. -/
def cookieAccount (sess : Session) : Option Nat :=
  sess.cookie.bind fun cookie => (strchr cookie 61).bind fun val => s.cookieGetContent val.tail

/-- `http_on_msg_complete`, the session: the account of the session cookie is given the descriptor. -/
def attachCookie (fd : Fd) (sess : Session) (sup : Supply) : Server × List Obs :=
  match s.cookieAccount sess with
  | some acc =>
    ({ s with model := s.model.setAccount acc fun a => { a with fds := vectorInsert a.fds fd sup.slot } },
      [.cookieFor fd acc])
  | none => (s, [])

/-- The copy of the URL without its first byte, and the memory behind it. Of an empty URL, which ends its memory, the
copy is of what follows there. -/
def paramOf (url behind : Mem) : Mem := cstr (url.drop 1 ++ behind) ++ 0 :: behind

/-- `http_on_msg_complete`. The address of a URL that was never stored is `NULL + 1`, which ends the process. -/
def httpOnMsgComplete (fd : Fd) (sess : Session) (sup : Supply) (rands : List Nat) (behind : Mem) : Server × List Obs :=
  let (s, seen) := s.attachCookie fd sess sup
  match sess.url with
  | none => ({ s with exited := true }, seen)
  | some url =>
    let (s, seen') := s.process fd (paramOf url behind) 47 sup rands
    (s, seen' ++ seen)

/-- One event, if it is possible: the kernel hands out only closed descriptors, the front ends serve only open
connections of their own, and an exited process does nothing. -/
def step : Event → Option (Server × List Obs)
  | .accept h fd => if !s.exited && !(s.fdtab fd).isOpen then some (s.eventAccept h fd) else none
  | .command fd content sup =>
    if !s.exited && s.serves .pubsub fd then some (s.process fd content 32 sup []) else none
  | .url fd bytes =>
    if !s.exited && s.serves .httpPubsub fd then
      some (s.setFd fd fun e => { e with session := e.session.map (httpOnUrl · bytes) }, [])
    else none
  | .headerField fd mem =>
    if !s.exited && s.serves .httpPubsub fd then
      some (s.setFd fd fun e => { e with session := e.session.map (httpOnHeaderField · mem) }, [])
    else none
  | .msgComplete fd sup rands behind =>
    if !s.exited && s.serves .httpPubsub fd then
      (s.fdtab fd).session.map fun sess => s.httpOnMsgComplete fd sess sup rands behind
    else none
  | .close fd =>
    if !s.exited && (s.fdtab fd).isOpen then (s.fdtab fd).owner.map fun h => (s.close h fd, []) else none

end Server

/-- The server before the first event, over whatever `malloc` left in `fdtab`: no descriptor is open. -/
def Server.init (fdtab : Fd → FdEntry) (maxConn : Int) : Server where
  model := {}
  cookieList := []
  fdtab := fun fd => { fdtab fd with isOpen := false }
  stat := ⟨0, maxConn⟩
  exited := false

/-- The server and what has been observed of it. -/
abbrev Observed := Server × History

/-- One event of a run, with what it lets observe. -/
def observedStep (t : Observed) (e : Event) : Option Observed :=
  (t.1.step e).map fun (s, seen) => (s, seen ++ t.2)

theorem observed_step {t t' : Observed} {e : Event} (hs : observedStep t e = some t') :
    ∃ seen, t.1.step e = some (t'.1, seen) ∧ t'.2 = seen ++ t.2 := by
  obtain ⟨⟨s', seen⟩, hstep, rfl⟩ := Option.map_eq_some_iff.mp hs
  exact ⟨seen, hstep, rfl⟩

/-- A server all of whose descriptors are fresh. -/
def freshServer : Server := Server.init (fun _ => ⟨false, none, false, none⟩) 100

/-- A command of a plain connection, with the NUL that ends it, and the address that `malloc` has ready. -/
def plainCommand (fd : Fd) (text : String) (addr : Nat) : Event := .command fd (lit text ++ [0]) ⟨addr, 0⟩

end ZeroServ
