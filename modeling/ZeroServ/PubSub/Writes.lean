import ZeroServ.PubSub.Model

/-!
# What a command writes

The descriptors the accounts hold (`holders`) and those the topics list (`listed`) are all that a publish, a
subscription or a disconnect looks at; every operation of the model is described by what it does to these two.
`perform_cases` says everything one command can do, once.
-/

namespace ZeroServ

open CString CInt

/-- An account as the descriptors it holds. -/
structure Holder where
  id : Nat
  fds : List Fd
  deriving DecidableEq, Repr

/-- A topic as the descriptors it lists. -/
structure Listing where
  addr : Nat
  name : List UInt8
  fds : List Fd
  deriving DecidableEq, Repr

namespace Model

variable (m : Model)

def holders : List Holder := m.accounts.map fun acc => ⟨acc.id, acc.fds⟩

def listed : List Listing := m.topics.map fun top => ⟨top.addr, top.name, top.fds⟩

/-! ## Writes to one account or one topic -/

@[simp] theorem holders_setTopic (addr : Nat) (f : Topic → Topic) : (m.setTopic addr f).holders = m.holders := rfl

@[simp] theorem listed_setAccount (id : Nat) (f : Account → Account) : (m.setAccount id f).listed = m.listed := rfl

/-- What is looked at of a list of which the elements of one key were written. -/
theorem map_write {α β : Type} (key : α → Nat) (view : α → β) {f : α → α} {g : β → β}
    (hf : ∀ a, view (f a) = g (view a))
    (k : Nat) (l : List α) : (l.map fun a => if key a = k then f a else a).map view = l.map fun a =>
    if key a = k then g (view a) else view a := by
  rw [List.map_map]
  refine List.map_congr_left fun a _ => ?_
  rw [Function.comp_apply, apply_ite view, hf]

/-- A write to an account's descriptors. -/
theorem holders_setAccount (g : List Fd → List Fd) (id : Nat) :
    (m.setAccount id fun a => { a with fds := g a.fds }).holders =
      m.holders.map fun p => if p.id = id then { p with fds := g p.fds } else p := by
  rw [holders, holders, List.map_map]
  exact map_write Account.id (fun acc => (⟨acc.id, acc.fds⟩ : Holder)) (f := fun acc => { acc with fds := g acc.fds })
    (g := fun p => { p with fds := g p.fds }) (fun _ => rfl) id m.accounts

/-- A write to what an account keeps besides its descriptors. -/
theorem holders_setAccount_subLists (g : List Nat → List Nat) (id : Nat) :
    (m.setAccount id fun a => { a with subLists := g a.subLists }).holders = m.holders :=
  (map_write Account.id (fun acc => (⟨acc.id, acc.fds⟩ : Holder))
    (f := fun acc => { acc with subLists := g acc.subLists })
    (g := fun p => p) (fun _ => rfl) id m.accounts).trans (by simp only [ite_self]; rfl)

/-- A write to a topic's descriptors. -/
theorem listed_setTopic (g : List Fd → List Fd) (addr : Nat) :
    (m.setTopic addr fun t => { t with fds := g t.fds }).listed =
      m.listed.map fun p => if p.addr = addr then { p with fds := g p.fds } else p := by
  rw [listed, listed, List.map_map]
  exact map_write Topic.addr (fun top => (⟨top.addr, top.name, top.fds⟩ : Listing))
    (f := fun top => { top with fds := g top.fds })
    (g := fun p => { p with fds := g p.fds }) (fun _ => rfl) addr m.topics

/-- A write to what a topic keeps besides its descriptors. -/
theorem listed_setTopic_members (g : List Nat → List Nat) (addr : Nat) :
    (m.setTopic addr fun t => { t with members := g t.members }).listed = m.listed :=
  (map_write Topic.addr (fun top => (⟨top.addr, top.name, top.fds⟩ : Listing))
    (f := fun top => { top with members := g top.members })
    (g := fun p => p) (fun _ => rfl) addr m.topics).trans (by simp only [ite_self]; rfl)

/-! ## Membership -/

@[simp] theorem holders_topicJoin (top : Topic) (acc : Account) : (m.topicJoin top acc).holders = m.holders := by
  unfold topicJoin
  split
  · rfl
  · rw [holders_setAccount_subLists _ (vectorInsert · top.addr 0), holders_setTopic]

@[simp] theorem listed_topicJoin (top : Topic) (acc : Account) : (m.topicJoin top acc).listed = m.listed := by
  unfold topicJoin
  split
  · rfl
  · rw [listed_setAccount, listed_setTopic_members _ (vectorInsert · acc.id 0)]

@[simp] theorem holders_topicLeft (topAddr accId : Nat) : (m.topicLeft topAddr accId).holders = m.holders := by
  unfold topicLeft
  rw [holders_setAccount_subLists _ (vectorRemove · topAddr), holders_setTopic]

@[simp] theorem listed_topicLeft (topAddr accId : Nat) : (m.topicLeft topAddr accId).listed = m.listed := by
  unfold topicLeft
  rw [listed_setAccount, listed_setTopic_members _ (vectorRemove · accId)]

/-- Taking the members off a topic leaves the descriptors of accounts and topics alone. -/
theorem topicDeleteLoop_frame (topAddr k i : Nat) (members : List Nat) :
    (topicDeleteLoop topAddr k i members m).holders = m.holders ∧
      (topicDeleteLoop topAddr k i members m).listed = m.listed := by
  induction k generalizing i members m with
  | zero => exact ⟨rfl, rfl⟩
  | succ k ih =>
    unfold topicDeleteLoop
    split
    · obtain ⟨hh, hl⟩ := ih (m.topicLeft topAddr members[i]) (i + 1) (vectorRemove members members[i])
      exact ⟨by rw [hh, holders_topicLeft], by rw [hl, listed_topicLeft]⟩
    · exact ⟨rfl, rfl⟩

/-! ## Operations on topics -/

/-- The topic of a name is in the list, and the name is the string at the pointer. -/
theorem topicGet_some {m : Model} {name : Mem} {top : Topic} (h : m.topicGet name = some top) :
    top ∈ m.topics ∧ cstr top.name = cstr name := by
  refine ⟨List.mem_of_find?_eq_some h, ?_⟩
  have := List.find?_some h
  simpa [strcmp] using this

theorem topicGet_none {m : Model} {name : Mem} (h : m.topicGet name = none) :
    ∀ top ∈ m.topics, cstr top.name ≠ cstr name := by
  intro top htop
  have := List.find?_eq_none.mp h top htop
  simpa [strcmp] using this

theorem holders_topicSub (top : Topic) (fd : Fd) (slot : Nat) : (m.topicSub top fd slot).holders = m.holders := by
  unfold topicSub
  split <;> rfl

/-- A subscription puts the descriptor on the topic, unless it is there. -/
theorem listed_topicSub (top : Topic) (fd : Fd) (slot : Nat) :
    (m.topicSub top fd slot).listed =
      if fd ∈ top.fds then m.listed
      else m.listed.map fun p => if p.addr = top.addr then { p with fds := vectorInsert p.fds fd slot } else p := by
  unfold topicSub
  by_cases h : fd ∈ top.fds
  · rw [if_pos ((vectorIsExist_iff _ _).mpr h), if_pos h]
  · rw [if_neg (mt (vectorIsExist_iff _ _).mp h), if_neg h]
    exact m.listed_setTopic (vectorInsert · fd slot) top.addr

theorem listed_topicUnsub (top : Topic) (fd : Fd) :
    (m.topicUnsub top fd).listed =
      m.listed.map fun p => if p.addr = top.addr then { p with fds := vectorRemove p.fds fd } else p :=
  m.listed_setTopic (vectorRemove · fd) top.addr

theorem holders_topicCreate (name : Mem) (addr : Nat) : (m.topicCreate name addr).2.holders = m.holders := by
  unfold topicCreate
  split <;> rfl

/-- Creating a topic gives the one of that name, at the end of the list if there was none. -/
theorem topicCreate_cases (name : Mem) (addr : Nat) :
    (∃ top, m.topicGet name = some top ∧ m.topicCreate name addr = (top, m)) ∨
    (m.topicGet name = none ∧ (m.topicCreate name addr).1 = ⟨addr, cstr name, [], []⟩ ∧
      (m.topicCreate name addr).2.listed = m.listed ++ [⟨addr, cstr name, []⟩]) := by
  unfold topicCreate
  cases h : m.topicGet name with
  | some top => exact .inl ⟨top, rfl, rfl⟩
  | none => exact .inr ⟨rfl, rfl, by simp [listed]⟩

/-- Deleting a topic takes it off the list and leaves the others. -/
theorem topicDelete_frame (name : Mem) :
    (m.topicDelete name).2.holders = m.holders ∧
      ∃ keep : Listing → Bool, (m.topicDelete name).2.listed = m.listed.filter keep := by
  unfold topicDelete
  cases h : m.topicGet name with
  | none => exact ⟨rfl, fun _ => true, by simp⟩
  | some top =>
    obtain ⟨hh, hl⟩ := m.topicDeleteLoop_frame top.addr top.members.length 0 top.members
    refine ⟨hh, fun p => p.addr ≠ top.addr, ?_⟩
    rw [← hl, listed, listed, List.filter_map]
    rfl

/-! ## Operations of `model.c` -/

theorem holders_modelSub (fd : Fd) (topic : Mem) (slot : Nat) : (m.modelSub fd topic slot).2.holders = m.holders := by
  unfold modelSub
  split
  · rw [holders_topicSub, holders_topicJoin]
  · rfl

theorem holders_modelUnsub (fd : Fd) (topic : Mem) : (m.modelUnsub fd topic).2.holders = m.holders := by
  unfold modelUnsub
  split
  · exact m.holders_topicLeft _ _
  · rfl

theorem holders_modelTopicCreate (fd : Fd) (topic : Mem) (s : Supply) :
    (m.modelTopicCreate fd topic s).2.holders = m.holders := by
  unfold modelTopicCreate
  rw [holders_topicSub, holders_topicCreate]

theorem holders_modelTopicDelete (topic : Mem) : (m.modelTopicDelete topic).2.holders = m.holders :=
  (m.topicDelete_frame topic).1

theorem holders_modelPub (v : FdView) (fd : Fd) (topic msg : Mem) :
    (m.modelPub v fd topic msg).2.1.holders = m.holders := by
  unfold modelPub
  split <;> rfl

theorem listed_modelAccCreate (user auth : Mem) : (m.modelAccCreate user auth).2.listed = m.listed := by
  unfold modelAccCreate accountCreate
  cases m.accountGet user <;> rfl

/-- A `logup` that creates an account creates it without a descriptor. -/
theorem holders_modelAccCreate (user auth : Mem) :
    (m.modelAccCreate user auth).2.holders = m.holders ∨
      ∃ id, (m.modelAccCreate user auth).2.holders = m.holders ++ [⟨id, []⟩] := by
  unfold modelAccCreate accountCreate
  cases m.accountGet user with
  | some acc => exact .inl rfl
  | none => exact .inr ⟨m.accountIds + 1, by simp [holders]⟩

theorem listed_modelAccAuth (fd : Fd) (user auth : Mem) (slot : Nat) :
    (m.modelAccAuth fd user auth slot).2.listed = m.listed := by
  unfold modelAccAuth
  split
  · rfl
  · split <;> rfl

/-- A `login` that succeeds gives the descriptor to the account of the name. -/
theorem holders_modelAccAuth (fd : Fd) (user auth : Mem) (slot : Nat) :
    (m.modelAccAuth fd user auth slot).2.holders = m.holders ∨
      ∃ acc, m.accountGet user = some acc ∧ (m.modelAccAuth fd user auth slot).1 = .success ∧
        (m.modelAccAuth fd user auth slot).2.holders =
          m.holders.map fun p => if p.id = acc.id then { p with fds := vectorInsert p.fds fd slot } else p := by
  unfold modelAccAuth
  cases h : m.accountGet user with
  | none => exact .inl rfl
  | some acc =>
    by_cases hp : strncmp acc.auth auth (strlen acc.auth) = true
    · simp only [hp, if_true]
      exact .inr ⟨acc, rfl, trivial, m.holders_setAccount (vectorInsert · fd slot) acc.id⟩
    · simp only [hp]
      exact .inl rfl

theorem listed_modelAccOffline (fd : Fd) : (m.modelAccOffline fd).listed = m.listed := by
  unfold modelAccOffline
  split <;> rfl

/-- Going offline takes the descriptor once from the first account that holds it. -/
theorem holders_modelAccOffline (fd : Fd) :
    (m.modelAccOffline fd).holders =
      match m.accountGetByFd fd with
      | none => m.holders
      | some acc => m.holders.map fun p => if p.id = acc.id then { p with fds := vectorRemove p.fds fd } else p := by
  unfold modelAccOffline
  cases m.accountGetByFd fd with
  | none => rfl
  | some acc => exact m.holders_setAccount (vectorRemove · fd) acc.id

/-- The account of a descriptor holds it. -/
theorem accountGetByFd_some {m : Model} {fd : Fd} {acc : Account} (h : m.accountGetByFd fd = some acc) :
    ⟨acc.id, acc.fds⟩ ∈ m.holders ∧ fd ∈ acc.fds := by
  refine ⟨List.mem_map_of_mem (List.mem_of_find?_eq_some h), ?_⟩
  have := List.find?_some h
  simpa using this

theorem accountGetByFd_none {m : Model} {fd : Fd} (h : m.accountGetByFd fd = none) : ∀ p ∈ m.holders, fd ∉ p.fds := by
  intro p hp
  obtain ⟨acc, hacc, rfl⟩ := List.mem_map.mp hp
  have := List.find?_eq_none.mp h acc hacc
  simpa using this

/-! ## One command -/

/-- A command whose operation called nobody back. -/
def Processed.done (action : Action) (r : Ecode × Model) (state : Flags) : Processed :=
  { model := r.2, action, ret := r.1, state, sent := [], exited := false }

/-- Everything a command can do before its reply. -/
inductive Performed (v : FdView) (fd : Fd) (content : Mem) (delim : UInt8) (s : Supply) : Processed → Prop
  | create (h : command content = some .create) :
    Performed v fd content delim s (.done .create (m.modelTopicCreate fd (content.drop 7) s) Zb.setWr)
  | delete (h : command content = some .delete) :
    Performed v fd content delim s (.done .delete (m.modelTopicDelete (content.drop 7)) Zb.setWr)
  | sub (h : command content = some .sub) :
    Performed v fd content delim s (.done .sub (m.modelSub fd (content.drop 4) s.slot) Zb.nop)
  | unsub (h : command content = some .unsub) :
    Performed v fd content delim s (.done .unsub (m.modelUnsub fd (content.drop 6)) Zb.setWr)
  | pub {topic : List UInt8} {msg : Mem} (h : command content = some .pub)
      (hcut : cut (content.drop 4) delim = some (topic, msg)) :
    Performed v fd content delim s
      { model := (m.modelPub v fd topic msg).2.1, action := some .pub, ret := (m.modelPub v fd topic msg).1,
        state := Zb.setWr, sent := (m.modelPub v fd topic msg).2.2.1, exited := (m.modelPub v fd topic msg).2.2.2 }
  | login {user : List UInt8} {auth : Mem} (h : command content = some .login)
    (hcut : cut (content.drop 6) delim = some (user, auth)) :
    Performed v fd content delim s (.done .login (m.modelAccAuth fd user auth s.slot) Zb.setWr)
  | logup {user : List UInt8} {auth : Mem} (h : command content = some .logup)
    (hcut : cut (content.drop 6) delim = some (user, auth)) :
    Performed v fd content delim s (.done .logup (m.modelAccCreate user auth) Zb.setWr)
  /-- No operation: a word that has none, or one whose parameter lacks the delimiter. -/
  | quiet (state : Flags) (hact : command content ∉ [some .create, some .delete, some .sub, some .unsub])
    (hpub : command content = some .pub → cut (content.drop 4) delim = none)
    (hlogin : command content = some .login → cut (content.drop 6) delim = none) :
    Performed v fd content delim s
      { model := m, action := command content, ret := .success, state, sent := [], exited := false }

theorem perform_cases (v : FdView) (fd : Fd) (content : Mem) (delim : UInt8) (s : Supply) :
    Performed m v fd content delim s (m.perform v fd content delim s) := by
  have quiet (state : Flags) := @Performed.quiet m v fd content delim s state
  unfold perform
  cases h : command content with
  | none => simpa [h] using quiet Zb.setWr
  | some act =>
    cases act with
    | create => exact .create h
    | delete => exact .delete h
    | sub => exact .sub h
    | unsub => exact .unsub h
    | pub =>
      cases hcut : cut (content.drop 4) delim with
      | some p => exact .pub h hcut
      | none => simpa [h, hcut] using quiet Zb.setWr
    | login =>
      cases hcut : cut (content.drop 6) delim with
      | some p => exact .login h hcut
      | none => simpa [h, hcut] using quiet Zb.close
    | logup =>
      cases hcut : cut (content.drop 6) delim with
      | some p => exact .logup h hcut
      | none => simpa [h, hcut] using quiet Zb.close
    | ack => simpa [h] using quiet Zb.setWr
    | listTopic => simpa [h] using quiet Zb.setWr
    | listUser => simpa [h] using quiet Zb.setWr
    | repSub => simpa [h] using quiet Zb.setWr
    | dbgCookie => simpa [h] using quiet Zb.setWr

/-- The action is the command's. -/
theorem Performed.action {m : Model} {v : FdView} {fd : Fd} {content : Mem} {delim : UInt8} {s : Supply} {p : Processed}
    (h : Performed m v fd content delim s p) : p.action = command content := by
  cases h with
  | quiet => rfl
  | create h | delete h | sub h | unsub h | login h | logup h | pub h => exact h.symm

/-- Everybody whom a publication reaches is handed its text and its length. -/
theorem pubLoop_sent (v : FdView) (text : List UInt8) (length i : Nat) (fds : List Fd) :
    ∀ r ∈ (pubLoop v text length i fds).2.1, r.action = some .repSub ∧ r.content = .text text ∧ r.length = length := by
  induction i generalizing fds with
  | zero => nofun
  | succ i ih =>
    intro r hr
    rw [pubLoop] at hr
    dsimp only at hr
    split at hr
    · exact ih _ r hr
    · split at hr
      · nomatch hr
      · rcases List.mem_cons.mp hr with rfl | hr
        · exact ⟨rfl, rfl, rfl⟩
        · exact ih _ r hr

/-- Whom a publication reaches, and with what. -/
theorem modelPub_sent {m : Model} {v : FdView} {fd : Fd} {topic msg : Mem} {acc : Account}
    (hacc : m.accountGetByFd fd = some acc) :
    ∀ r ∈ (m.modelPub v fd topic msg).2.2.1,
      r.action = some .repSub ∧ r.content = .text (bdcMsg acc msg).1 ∧ r.length = (bdcMsg acc msg).2 := by
  rw [modelPub, hacc]
  cases m.topicGet topic with
  | none => nofun
  | some top => exact pubLoop_sent v _ _ _ _

/-- Before its reply a command calls the subscribers of a publication, and nobody else. -/
theorem Performed.sent {m : Model} {v : FdView} {fd : Fd} {content : Mem} {delim : UInt8} {s : Supply} {p : Processed}
    (h : Performed m v fd content delim s p) : ∀ r ∈ p.sent, r.action = some .repSub := by
  cases h with
  | create | delete | sub | unsub | login | logup | quiet => nofun
  | @pub topic msg =>
    cases hacc : m.accountGetByFd fd with
    | none =>
      rw [modelPub, hacc]
      cases m.topicGet topic <;> nofun
    | some acc => exact fun r hr => (modelPub_sent hacc r hr).1

/-- The reply leaves the model, the action and the code of the operation as they are, and calls back the command's own
connection only. -/
theorem modelProcess_of_perform (v : FdView) (fd : Fd) (content : Mem) (delim : UInt8) (s : Supply) :
    ∃ (replies : List Response) (exited : Bool),
      m.modelProcess v fd content delim s =
        { m.perform v fd content delim s with
          sent := (m.perform v fd content delim s).sent ++ replies
          exited } ∧
      (∀ r ∈ replies, r.fd = fd ∧ r.action = command content) ∧
      (exited = true → (m.perform v fd content delim s).exited = true ∨ v.userData fd = false) := by
  have hact := (m.perform_cases v fd content delim s).action
  unfold modelProcess
  set p := m.perform v fd content delim s with hp
  by_cases h : (p.exited || (p.action = some .sub && p.ret = .success)) = true
  · exact ⟨[], p.exited, by simp [h], by simp, fun h => .inl h⟩
  · by_cases hu : v.userData fd = true
    · refine ⟨[_], p.exited, by simp only [h, hu]; rfl, ?_, fun h => .inl h⟩
      simp [hact]
    · exact ⟨[], true, by simp [h, hu], by simp, fun _ => .inr (by simpa using hu)⟩

/-- Everybody a command calls back: its own connection, and the subscribers of a publication. -/
theorem modelProcess_sent (m : Model) (v : FdView) (fd : Fd) (content : Mem) (delim : UInt8) (sup : Supply) :
    ∀ r ∈ (m.modelProcess v fd content delim sup).sent, r.fd = fd ∨ r.action = some .repSub := by
  obtain ⟨replies, exited, heq, hreplies, -⟩ := m.modelProcess_of_perform v fd content delim sup
  rw [heq]
  intro r hr
  rcases List.mem_append.mp hr with hr | hr
  · exact .inr ((m.perform_cases v fd content delim sup).sent r hr)
  · exact .inl (hreplies r hr).1

end Model

end ZeroServ
