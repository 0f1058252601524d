import ZeroServ.Lib.CInt
import ZeroServ.Lib.CString
import ZeroServ.Common.Vector
import ZeroServ.Fd

/-!
# The pub/sub model: accounts, topics and the command interpreter

`handler/pubsub/account.c`, `topic.c` and `model.c`. An account is never freed, so its address is its place in the
order of creation, which is also its id (`id_zen("account")` counts from one). A topic's address is what `malloc`
returned for it. `created_time`, `last_active`, `count` and the topic's `id` are left out: nothing here reads them.

The model calls back the front end through `on_response`; a call is a `Response`, and what the front ends do with it
is theirs. Of `fdtab` the model reads whether a descriptor's write buffer is set and whether its listener's handler
has `user_data` (`FdView`); where the `ASSERT` on the latter fails the process exits.
-/

namespace ZeroServ

open CString CInt

/-- `enum ACTION` -/
inductive Action where
  | ack | create | delete | listTopic | listUser | sub | unsub | pub | login | logup | repSub | dbgCookie
  deriving DecidableEq, Repr

/-- `enum ECODE` -/
inductive Ecode where
  | success | fail
  deriving DecidableEq, Repr

/-- `struct account` -/
structure Account where
  id : Nat
  name : List UInt8
  auth : List UInt8
  subLists : List Nat
  fds : List Fd
  deriving DecidableEq, Repr

/-- `struct topic` -/
structure Topic where
  addr : Nat
  name : List UInt8
  members : List Nat
  fds : List Fd
  deriving DecidableEq, Repr

/-- The lists `accounts` and `topics`, in the order of `list_for_each_entry`, and the counter of `id_zen("account")`. -/
structure Model where
  accounts : List Account := []
  topics : List Topic := []
  accountIds : Nat := 0
  deriving DecidableEq, Repr

/-- What a callback passes as `content`: a text, or the vector of topics or of members of a list action. -/
inductive Content where
  | text (bytes : List UInt8)
  | topics (l : List Topic)
  | members (l : List Account)
  deriving DecidableEq, Repr

/-- A call `on_response(fd, action, content, length)`. The length of a text is what the caller passes; for a list
action the front ends do not read it. -/
structure Response where
  fd : Fd
  action : Option Action
  content : Content
  length : Nat
  deriving DecidableEq, Repr

/-- What the model reads of `fdtab`: `cb[DIR_WR].b` is not `NULL`; `owner->handler->user_data` is not `NULL`. -/
structure FdView where
  wrBuf : Fd → Bool
  userData : Fd → Bool

/-- What the C library supplies while one command runs: the address `malloc` returns for a topic, and what the vector
slot holds that an insertion of `NULL` counts in. -/
structure Supply where
  addr : Nat
  slot : Nat
  deriving DecidableEq, Repr

namespace Model

/-! ## `account.c` -/

def accountGet (m : Model) (name : Mem) : Option Account := m.accounts.find? fun acc => strcmp acc.name name

def accountGetByFd (m : Model) (fd : Fd) : Option Account := m.accounts.find? fun acc => vectorIsExist acc.fds fd

/-- Write to the account at an address. -/
def setAccount (m : Model) (id : Nat) (f : Account → Account) : Model :=
  { m with accounts := m.accounts.map fun acc => if acc.id = id then f acc else acc }

/-- `account_create`: a new account goes to the end of the list. The `long` id is returned as an `int`. -/
def accountCreate (m : Model) (name auth : Mem) : Int × Model :=
  match m.accountGet name with
  | some _ => (-1, m)
  | none =>
    let id := m.accountIds + 1
    (int32 id,
      { m with
        accountIds := id
        accounts := m.accounts ++ [{ id, name := cstr name, auth := cstr auth, subLists := [], fds := [] }] })

/-! ## `topic.c` -/

def topicGet (m : Model) (name : Mem) : Option Topic := m.topics.find? fun top => strcmp top.name name

/-- Write to the topic at an address. -/
def setTopic (m : Model) (addr : Nat) (f : Topic → Topic) : Model :=
  { m with topics := m.topics.map fun top => if top.addr = addr then f top else top }

/-- `topic_create`: the topic of that name, a new one at the end of the list if there is none. -/
def topicCreate (m : Model) (name : Mem) (addr : Nat) : Topic × Model :=
  match m.topicGet name with
  | some top => (top, m)
  | none =>
    let top : Topic := { addr, name := cstr name, members := [], fds := [] }
    (top, { m with topics := m.topics ++ [top] })

/-- `topic_join`: the account becomes a member, unless it is one. -/
def topicJoin (m : Model) (top : Topic) (acc : Account) : Model :=
  if vectorIsExist top.members acc.id then m
  else
    (m.setTopic top.addr fun t => { t with members := vectorInsert t.members acc.id 0 }).setAccount acc.id
      fun a => { a with subLists := vectorInsert a.subLists top.addr 0 }

/-- `topic_sub`: the descriptor is added, unless it is there. -/
def topicSub (m : Model) (top : Topic) (fd : Fd) (slot : Nat) : Model :=
  if vectorIsExist top.fds fd then m
  else m.setTopic top.addr fun t => { t with fds := vectorInsert t.fds fd slot }

def topicUnsub (m : Model) (top : Topic) (fd : Fd) : Model :=
  m.setTopic top.addr fun t => { t with fds := vectorRemove t.fds fd }

def topicLeft (m : Model) (topAddr accId : Nat) : Model :=
  (m.setTopic topAddr fun t => { t with members := vectorRemove t.members accId }).setAccount accId
    fun a => { a with subLists := vectorRemove a.subLists topAddr }

/-- The loop of `topic_delete`: `i` counts up while the members it leaves shrink, so every second member is skipped. -/
def topicDeleteLoop (topAddr : Nat) : Nat → Nat → List Nat → Model → Model
  | 0, _, _, m => m
  | k + 1, i, members, m =>
    if h : i < members.length then
      topicDeleteLoop topAddr k (i + 1) (vectorRemove members members[i]) (m.topicLeft topAddr members[i])
    else m

/-- `topic_delete`: the loop runs once for each index below the shrinking size, so as many turns as there are members
suffice. -/
def topicDelete (m : Model) (name : Mem) : Int × Model :=
  match m.topicGet name with
  | none => (-1, m)
  | some top =>
    let m := topicDeleteLoop top.addr top.members.length 0 top.members m
    (0, { m with topics := m.topics.filter fun t => t.addr ≠ top.addr })

/-- `topic_list` -/
def topicList (m : Model) : List Topic := m.topics

/-- `topic_list_user`: the members of the topic, none if there is no such topic. -/
def topicListUser (m : Model) (name : Mem) : List Account :=
  match m.topicGet name with
  | none => []
  | some top => top.members.filterMap fun id => m.accounts.find? fun a => a.id = id

/-! ## `model.c` -/

def modelAccCreate (m : Model) (user auth : Mem) : Ecode × Model :=
  let (r, m) := m.accountCreate user auth
  (if r < 0 then .fail else .success, m)

/-- `model_acc_auth`: the password is compared on the length of the stored one. -/
def modelAccAuth (m : Model) (fd : Fd) (user auth : Mem) (slot : Nat) : Ecode × Model :=
  match m.accountGet user with
  | none => (.fail, m)
  | some acc =>
    if strncmp acc.auth auth (strlen acc.auth) then
      (.success, m.setAccount acc.id fun a => { a with fds := vectorInsert a.fds fd slot })
    else (.fail, m)

/-- `model_acc_offline`: one entry of the descriptor goes, from the first account that has it. -/
def modelAccOffline (m : Model) (fd : Fd) : Model :=
  match m.accountGetByFd fd with
  | none => m
  | some acc => m.setAccount acc.id fun a => { a with fds := vectorRemove a.fds fd }

def modelSub (m : Model) (fd : Fd) (topic : Mem) (slot : Nat) : Ecode × Model :=
  match m.topicGet topic, m.accountGetByFd fd with
  | some top, some acc => (.success, (m.topicJoin top acc).topicSub top fd slot)
  | _, _ => (.fail, m)

def modelUnsub (m : Model) (fd : Fd) (topic : Mem) : Ecode × Model :=
  match m.topicGet topic, m.accountGetByFd fd with
  | some top, some acc => (.success, (m.topicLeft top.addr acc.id).topicUnsub top fd)
  | _, _ => (.fail, m)

/-- The loop of `model_pub`, downwards over the indices below `i`: an entry whose write buffer is `NULL` is dropped,
any other is handed the text. Gives the entries left, the calls made, and whether the process exited in an
`ASSERT`. -/
def pubLoop (v : FdView) (text : List UInt8) (length : Nat) : Nat → List Fd → List Fd × List Response × Bool
  | 0, fds => (fds, [], false)
  | i + 1, fds =>
    let cfd := fds.getD i 0
    if !v.wrBuf cfd then pubLoop v text length i (vectorRemove fds cfd)
    else if !v.userData cfd then (fds, [], true)
    else
      let (fds, sent, exited) := pubLoop v text length i fds
      (fds, { fd := cfd, action := some .repSub, content := .text text, length } :: sent, exited)

/-- The bytes `"name: msg"` that `snprintf` leaves in `bdc_msg[4096]`, and the length it returns. -/
def bdcMsg (acc : Account) (msg : Mem) : List UInt8 × Nat :=
  let full := acc.name ++ lit ": " ++ cstr msg
  (full.take 4095, full.length)

/-- `model_pub` -/
def modelPub (m : Model) (v : FdView) (fd : Fd) (topic msg : Mem) : Ecode × Model × List Response × Bool :=
  match m.topicGet topic, m.accountGetByFd fd with
  | some top, some acc =>
    let (text, length) := bdcMsg acc msg
    let (fds, sent, exited) := pubLoop v text length top.fds.length top.fds
    (.success, m.setTopic top.addr fun t => { t with fds }, sent, exited)
  | _, _ => (.fail, m, [], false)

/-- `model_topic_create`: the creator is subscribed, logged in or not. -/
def modelTopicCreate (m : Model) (fd : Fd) (topic : Mem) (s : Supply) : Ecode × Model :=
  let (top, m) := m.topicCreate topic s.addr
  (.success, m.topicSub top fd s.slot)

def modelTopicDelete (m : Model) (topic : Mem) : Ecode × Model :=
  let (r, m) := m.topicDelete topic
  (if r = 0 then .success else .fail, m)

/-- `COMPARE(data, str)` -/
def compare (data : Mem) (str : String) : Bool := strncmp data (lit str) (lit str).length

/-- The command at the head of a request. No command word is a prefix of another, `list` and `list_user` apart (which
the source tests in this order), so the tests of `model_process` are one chain. -/
def command (content : Mem) : Option Action :=
  if compare content "ack" then some .ack
  else if compare content "create" then some .create
  else if compare content "delete" then some .delete
  else if compare content "list_user" then some .listUser
  else if compare content "list" then some .listTopic
  else if compare content "sub" then some .sub
  else if compare content "unsub" then some .unsub
  else if compare content "pub" then some .pub
  else if compare content "login" then some .login
  else if compare content "logup" then some .logup
  else if compare content "cookie" then some .dbgCookie
  else none

/-- `pos = strchr(param, delim); *pos = 0; pos++`: the string before the delimiter and the memory after it. -/
def cut (param : Mem) (delim : UInt8) : Option (List UInt8 × Mem) :=
  (strchr param delim).map fun pos => (param.take (param.length - pos.length), pos.tail)

/-- What one run of `model_process` leaves and returns: `*action` (none is zero), the code of the operation, the
flags returned, the calls of `on_response` in their order, and whether the process exited in an `ASSERT`. -/
structure Processed where
  model : Model
  action : Option Action
  ret : Ecode
  state : Flags
  sent : List Response
  exited : Bool
  deriving Repr

/-- The operation of a command, before the reply. -/
def perform (m : Model) (v : FdView) (fd : Fd) (content : Mem) (delim : UInt8) (s : Supply) : Processed :=
  let action := command content
  let done (ret : Ecode) (m : Model) : Processed :=
    { model := m, action, ret, state := Zb.setWr, sent := [], exited := false }
  match action with
  | some .create => let (ret, m) := m.modelTopicCreate fd (content.drop 7) s; done ret m
  | some .delete => let (ret, m) := m.modelTopicDelete (content.drop 7); done ret m
  | some .sub => let (ret, m) := m.modelSub fd (content.drop 4) s.slot; { done ret m with state := Zb.nop }
  | some .unsub => let (ret, m) := m.modelUnsub fd (content.drop 6); done ret m
  | some .pub =>
    match cut (content.drop 4) delim with
    | some (topic, msg) =>
      let (ret, m, sent, exited) := m.modelPub v fd topic msg
      { done ret m with sent, exited }
    | none => done .success m
  | some .login =>
    match cut (content.drop 6) delim with
    | some (user, auth) => let (ret, m) := m.modelAccAuth fd user auth s.slot; done ret m
    | none => { done .success m with state := Zb.close }
  | some .logup =>
    match cut (content.drop 6) delim with
    | some (user, auth) => let (ret, m) := m.modelAccCreate user auth; done ret m
    | none => { done .success m with state := Zb.close }
  | _ => done .success m

/-- The content of the reply to a request: the lists are those of the model the operation left. -/
def reply (p : Processed) (content : Mem) : Content :=
  match p.action with
  | some .listTopic => .topics p.model.topicList
  | some .listUser => .members (p.model.topicListUser (content.drop 10))
  | none => .text (lit "incorrect param: " ++ cstr content ++ lit "\n")
  | some _ => .text (if p.ret = .success then lit "success" else lit "error")

/-- The length passed with a content: `strlen` of a text. -/
def Content.textLength : Content → Nat
  | .text b => b.length
  | _ => 0

/-- `model_process`: perform the command, then reply to the descriptor it came from, except after a successful `sub`. -/
def modelProcess (m : Model) (v : FdView) (fd : Fd) (content : Mem) (delim : UInt8) (s : Supply) : Processed :=
  let p := m.perform v fd content delim s
  if p.exited || (p.action = some .sub && p.ret = .success) then p
  else if !v.userData fd then { p with exited := true }
  else
    let c := reply p content
    { p with sent := p.sent ++ [{ fd, action := p.action, content := c, length := Content.textLength c }] }

end Model

end ZeroServ
