import ZeroServ.Lib.Run
import ZeroServ.PubSub.Frame
import ZeroServ.PubSub.Writes

/-!
# Who acts on a connection

A connection acts as the account that `account_get_by_fd` finds: the first one in the order of creation that holds
the descriptor, whichever logged in last. `last_login_acts`: where no account that logs in finds its descriptor with
one that was created before it, and no cookie of such a one comes later, every connection acts as the account it
logged in to last.
-/

namespace ZeroServ

open CString Run

/-! ## Logins -/

/-- The account that the connection now on the descriptor, since it was accepted, logged in to last. -/
def lastLogin : History → Fd → Option Nat
  | [], _ => none
  | o :: h, fd =>
    match o with
    | .accepted fd' => if fd' = fd then none else lastLogin h fd
    | .loggedIn fd' acc => if fd' = fd then some acc else lastLogin h fd
    | _ => lastLogin h fd

namespace Model

/-- The account that a command logs in to. -/
def loginOf (m : Model) (content : Mem) (delim : UInt8) : Option Account :=
  if command content = some .login then
    (cut (content.drop 6) delim).bind fun (user, auth) => (m.accountGet user).filter fun acc =>
      strncmp acc.auth auth (strlen acc.auth)
  else none

/-- What is done on the descriptor is done as the account. -/
def ActsAs (m : Model) (fd : Fd) (acc : Account) : Prop :=
  m.accountGetByFd fd = some acc ∧
    ∀ topic top, m.topicGet topic = some top →
      (∀ slot, m.modelSub fd topic slot = (.success, (m.topicJoin top acc).topicSub top fd slot)) ∧
      m.modelUnsub fd topic = (.success, (m.topicLeft top.addr acc.id).topicUnsub top fd) ∧
      ∀ v msg, ∀ r ∈ (m.modelPub v fd topic msg).2.2.1, r.content = .text (bdcMsg acc msg).1

/-- No account that was created before this one holds the descriptor. -/
def NoneBefore (m : Model) (fd : Fd) (acc : Account) : Prop := ∀ a ∈ m.accounts, fd ∈ a.fds → acc.id ≤ a.id

instance (m : Model) (fd : Fd) (acc : Account) : Decidable (m.NoneBefore fd acc) :=
  inferInstanceAs (Decidable (∀ a ∈ m.accounts, fd ∈ a.fds → acc.id ≤ a.id))

end Model

/-- Every open connection acts as the account it logged in to last. -/
def LastLoginActs (t : Observed) : Prop :=
  ∀ fd u, (t.1.fdtab fd).isOpen = true → lastLogin t.2 fd = some u → ∃ acc, acc.id = u ∧ t.1.model.ActsAs fd acc

/-- A command logs in to no account while one that was created before it holds the descriptor. -/
def Server.LoginFirst (s : Server) (fd : Fd) (content : Mem) (delim : UInt8) : Prop :=
  ∀ acc ∈ s.model.loginOf content delim, s.model.NoneBefore fd acc

instance (s : Server) (fd : Fd) (content : Mem) (delim : UInt8) : Decidable (s.LoginFirst fd content delim) :=
  inferInstanceAs (Decidable (∀ acc ∈ s.model.loginOf content delim, s.model.NoneBefore fd acc))

/-- Logins find no account that was created before the one they name, a cookie is not of an account that was created
before the one the connection logged in to, and what a vector is given it stores. -/
def LoginsFirst (t : Observed) (e : Event) (_ : Observed) : Prop :=
  match e with
  | .command fd content sup => Stores fd sup ∧ t.1.LoginFirst fd content 32
  | .msgComplete fd sup _ behind =>
    Stores fd sup ∧ ∀ sess ∈ (t.1.fdtab fd).session,
      (∀ c ∈ t.1.cookieAccount sess, ∀ u ∈ lastLogin t.2 fd, u ≤ c) ∧
      ∀ url ∈ sess.url, (t.1.attachCookie fd sess sup).1.LoginFirst fd (Server.paramOf url behind) 47
  | _ => True

instance (t : Observed) (e : Event) (t' : Observed) : Decidable (LoginsFirst t e t') :=
  match e with
  | .accept .. | .command .. | .url .. | .headerField .. | .msgComplete .. | .close .. =>
      by dsimp only [LoginsFirst]; infer_instance

/-! ## What a command does to the accounts -/

namespace Model

variable {m m' : Model} {fd : Fd} {content : Mem} {delim : UInt8}

theorem accountIds_topicDeleteLoop (topAddr k i : Nat) (members : List Nat) (m : Model) :
    (topicDeleteLoop topAddr k i members m).accountIds = m.accountIds := by
  induction k generalizing i members m with
  | zero => rfl
  | succ k ih =>
    unfold topicDeleteLoop
    split
    · rw [ih]
      rfl
    · rfl

theorem accountIds_topicJoin (m : Model) (top : Topic) (acc : Account) :
    (m.topicJoin top acc).accountIds = m.accountIds := by
  unfold topicJoin
  split <;> rfl

theorem accountIds_topicSub (m : Model) (top : Topic) (fd : Fd) (slot : Nat) :
    (m.topicSub top fd slot).accountIds = m.accountIds := by
  unfold topicSub
  split <;> rfl

theorem accountIds_modelTopicCreate (m : Model) (fd : Fd) (topic : Mem) (s : Supply) :
    (m.modelTopicCreate fd topic s).2.accountIds = m.accountIds := by
  unfold modelTopicCreate
  rw [accountIds_topicSub]
  unfold topicCreate
  split <;> rfl

theorem accountIds_modelTopicDelete (m : Model) (topic : Mem) :
    (m.modelTopicDelete topic).2.accountIds = m.accountIds := by
  unfold modelTopicDelete topicDelete
  cases m.topicGet topic with
  | none => rfl
  | some top => exact accountIds_topicDeleteLoop ..

theorem accountIds_modelSub (m : Model) (fd : Fd) (topic : Mem) (slot : Nat) :
    (m.modelSub fd topic slot).2.accountIds = m.accountIds := by
  unfold modelSub
  split
  · rw [accountIds_topicSub, accountIds_topicJoin]
  · rfl

theorem accountIds_modelUnsub (m : Model) (fd : Fd) (topic : Mem) :
    (m.modelUnsub fd topic).2.accountIds = m.accountIds := by
  unfold modelUnsub
  split <;> rfl

theorem accountIds_modelPub (m : Model) (v : FdView) (fd : Fd) (topic msg : Mem) :
    (m.modelPub v fd topic msg).2.1.accountIds = m.accountIds := by
  unfold modelPub
  split <;> rfl

/-- What a command does to the accounts: nothing, or it creates one, or the account it logs in to is given the
descriptor. -/
inductive Kept (m : Model) (fd : Fd) (slot : Nat) (login : Option Account) : Model → Prop
  | same {m' : Model} (hlogin : login = none) (hholders : m'.holders = m.holders)
      (hids : m'.accountIds = m.accountIds) :
    Kept m fd slot login m'
  | created {m' : Model} (hlogin : login = none) (hholders : m'.holders = m.holders ++ [⟨m.accountIds + 1, []⟩])
    (hids : m'.accountIds = m.accountIds + 1) : Kept m fd slot login m'
  | given {m' : Model} {acc : Account} (hlogin : login = some acc) (hmem : acc ∈ m.accounts)
    (hholders : m'.holders = m.holders.map fun p =>
    if p.id = acc.id then { p with fds := vectorInsert p.fds fd slot } else p)
    (hids : m'.accountIds = m.accountIds) : Kept m fd slot login m'

theorem loginOf_none (h : command content ≠ some .login) : m.loginOf content delim = none := if_neg h

theorem loginOf_cut {user : List UInt8} {auth : Mem} (h : command content = some .login)
    (hcut : cut (content.drop 6) delim = some (user, auth)) :
    m.loginOf content delim = (m.accountGet user).filter fun acc => strncmp acc.auth auth (strlen acc.auth) := by
  rw [loginOf, if_pos h, hcut]
  rfl

/-- A `login`, as the account it logs in to. -/
theorem modelAccAuth_kept (m : Model) (fd : Fd) (user auth : Mem) (slot : Nat) :
    Kept m fd slot ((m.accountGet user).filter fun acc => strncmp acc.auth auth (strlen acc.auth))
      (m.modelAccAuth fd user auth slot).2 := by
  unfold modelAccAuth
  cases h : m.accountGet user with
  | none => exact .same rfl rfl rfl
  | some acc =>
    by_cases hauth : strncmp acc.auth auth (strlen acc.auth) = true
    · rw [Option.filter_some, if_pos hauth]
      simp only [hauth, if_true]
      exact .given rfl (List.mem_of_find?_eq_some h) (m.holders_setAccount (vectorInsert · fd slot) acc.id) rfl
    · rw [Option.filter_some, if_neg hauth]
      simp only [hauth]
      exact .same rfl rfl rfl

theorem modelAccCreate_kept (m : Model) (fd : Fd) (user auth : Mem) (slot : Nat) :
    Kept m fd slot none (m.modelAccCreate user auth).2 := by
  unfold modelAccCreate accountCreate
  cases m.accountGet user with
  | some acc => exact .same rfl rfl rfl
  | none => exact .created rfl (by simp [holders]) rfl

theorem perform_kept (m : Model) (v : FdView) (fd : Fd) (content : Mem) (delim : UInt8) (s : Supply) :
    Kept m fd s.slot (m.loginOf content delim) (m.perform v fd content delim s).model := by
  have hother : ∀ {act : Action}, command content = some act → act ≠ .login → m.loginOf content delim = none :=
    fun h hne => loginOf_none (h ▸ fun he => hne (Option.some.inj he))
  have hcase := m.perform_cases v fd content delim s
  generalize m.perform v fd content delim s = p at hcase ⊢
  cases hcase with
  | create h => exact .same (hother h nofun) (m.holders_modelTopicCreate _ _ _) (m.accountIds_modelTopicCreate _ _ _)
  | delete h => exact .same (hother h nofun) (m.holders_modelTopicDelete _) (m.accountIds_modelTopicDelete _)
  | sub h => exact .same (hother h nofun) (m.holders_modelSub _ _ _) (m.accountIds_modelSub _ _ _)
  | unsub h => exact .same (hother h nofun) (m.holders_modelUnsub _ _) (m.accountIds_modelUnsub _ _)
  | pub h hcut => exact .same (hother h nofun) (m.holders_modelPub _ _ _ _) (m.accountIds_modelPub _ _ _ _)
  | login h hcut =>
    rw [loginOf_cut h hcut]
    exact m.modelAccAuth_kept fd _ _ _
  | logup h hcut =>
    rw [hother h nofun]
    exact m.modelAccCreate_kept fd _ _ _
  | quiet state hact hpub hlogin =>
    refine .same ?_ rfl rfl
    by_cases h : command content = some .login
    · rw [loginOf, if_pos h, hlogin h]
      rfl
    · exact loginOf_none h

/-! ## The first account that holds a descriptor -/

/-- The accounts stand in the order of their ids, which the counter has passed. -/
structure Ranked (m : Model) : Prop where
  sorted : (m.holders.map (·.id)).Pairwise (· < ·)
  counted : ∀ p ∈ m.holders, p.id ≤ m.accountIds

/-- The account holds the descriptor, and none that was created before it does. -/
structure Leads (m : Model) (fd : Fd) (u : Nat) : Prop where
  holds : ∃ p ∈ m.holders, p.id = u ∧ fd ∈ p.fds
  least : ∀ p ∈ m.holders, fd ∈ p.fds → u ≤ p.id

/-- `account_get_by_fd` finds the first account that holds the descriptor. -/
theorem Leads.accountGetByFd {u : Nat} (hr : m.Ranked) (h : m.Leads fd u) :
    ∃ acc, m.accountGetByFd fd = some acc ∧ acc.id = u := by
  obtain ⟨p, hp, hid, hfd⟩ := h.holds
  cases hget : m.accountGetByFd fd with
  | none => exact absurd hfd (accountGetByFd_none hget p hp)
  | some acc =>
    obtain ⟨hmem, hheld⟩ := accountGetByFd_some hget
    refine ⟨acc, rfl, Nat.le_antisymm ?_ (h.least _ hmem hheld)⟩
    obtain ⟨-, front, back, hsplit, hfront⟩ := List.find?_eq_some_iff_append.mp hget
    obtain ⟨a, ha, rfl⟩ := List.mem_map.mp hp
    rw [hsplit, List.mem_append, List.mem_cons] at ha
    have hsorted := hr.sorted
    rw [holders, hsplit, List.map_append, List.map_append, List.map_cons, List.map_cons] at hsorted
    rcases ha with ha | rfl | ha
    · have hno := hfront a ha
      rw [Bool.not_eq_true', ← Bool.not_eq_true, vectorIsExist_iff] at hno
      exact absurd hfd hno
    · exact Nat.le_of_eq hid
    · have hlt := List.rel_of_pairwise_cons (List.pairwise_append.mp hsorted).2.1
        (List.mem_map_of_mem (f := fun p : Holder => p.id)
        (List.mem_map_of_mem (f := fun a : Account => (⟨a.id, a.fds⟩ : Holder)) ha))
      exact Nat.le_of_lt (hid ▸ hlt)

/-- Writes to the descriptors of one account keep the order. -/
theorem Ranked.write (hr : m.Ranked) {g : List Fd → List Fd} {id : Nat}
    (hh : m'.holders = m.holders.map fun p => if p.id = id then { p with fds := g p.fds } else p)
    (hids : m'.accountIds = m.accountIds) :
    m'.Ranked := by
  have hmap : m'.holders.map (·.id) = m.holders.map (·.id) := by
    rw [hh, List.map_map]
    refine List.map_congr_left fun p _ => ?_
    dsimp only [Function.comp_apply]
    split <;> rfl
  refine ⟨hmap ▸ hr.sorted, ?_⟩
  intro p hp
  obtain ⟨q, hq, hid⟩ := List.mem_map.mp (hmap ▸ List.mem_map_of_mem (f := fun p : Holder => p.id) hp)
  rw [hids, ← hid]
  exact hr.counted q hq

theorem Ranked.append (hr : m.Ranked) (hh : m'.holders = m.holders ++ [⟨m.accountIds + 1, []⟩])
    (hids : m'.accountIds = m.accountIds + 1) : m'.Ranked := by
  refine ⟨?_, ?_⟩
  · rw [hh, List.map_append, List.pairwise_append]
    refine ⟨hr.sorted, List.pairwise_singleton .., ?_⟩
    intro a ha b hb
    obtain ⟨p, hp, rfl⟩ := List.mem_map.mp ha
    obtain rfl := List.mem_singleton.mp hb
    exact Nat.lt_succ_of_le (hr.counted p hp)
  · intro p hp
    rw [hh, List.mem_append, List.mem_singleton] at hp
    rw [hids]
    rcases hp with hp | rfl
    · exact Nat.le_succ_of_le (hr.counted p hp)
    · exact Nat.le_refl _

theorem Leads.congr {u : Nat} (h : m.Leads fd u) (hh : m'.holders = m.holders) : m'.Leads fd u :=
  ⟨hh ▸ h.holds, hh ▸ h.least⟩

/-- An account that holds nothing leads nowhere. -/
theorem Leads.append {u id : Nat} (h : m.Leads fd u) (hh : m'.holders = m.holders ++ [⟨id, []⟩]) : m'.Leads fd u := by
  constructor
  · obtain ⟨p, hp, hrest⟩ := h.holds
    exact ⟨p, hh ▸ List.mem_append_left _ hp, hrest⟩
  · intro p hp hfd
    rw [hh, List.mem_append, List.mem_singleton] at hp
    rcases hp with hp | rfl
    · exact h.least p hp hfd
    · nomatch hfd

/-- A write that leaves the descriptor with the account keeps it at the lead, unless it gives the descriptor to one
before it. -/
theorem Leads.write {u id : Nat} {g : List Fd → List Fd} (h : m.Leads fd u)
    (hh : m'.holders = m.holders.map fun p => if p.id = id then { p with fds := g p.fds } else p)
    (hkeep : ∀ fds, fd ∈ fds → fd ∈ g fds) (hnew : ∀ fds, fd ∈ g fds → fd ∈ fds ∨ u ≤ id) : m'.Leads fd u := by
  constructor
  · obtain ⟨p, hp, hid, hfd⟩ := h.holds
    refine ⟨_, hh ▸ List.mem_map_of_mem hp, ?_⟩
    split
    · exact ⟨hid, hkeep _ hfd⟩
    · exact ⟨hid, hfd⟩
  · intro p hp hfd
    obtain ⟨q, hq, rfl⟩ := List.mem_map.mp (hh ▸ hp)
    split at hfd
    · next he =>
      rw [if_pos he]
      rcases hnew _ hfd with hfd | hle
      · exact h.least q hq hfd
      · exact he ▸ hle
    · next hne =>
      rw [if_neg hne]
      exact h.least q hq hfd

/-- The account that logs in leads, if none before it holds the descriptor. -/
theorem leads_of_login {acc : Account} {slot : Nat} (hmem : acc ∈ m.accounts) (hfirst : m.NoneBefore fd acc)
    (hstores : ∀ v, vectorInsert v fd slot = v ++ [fd])
    (hh : m'.holders = m.holders.map fun p =>
      if p.id = acc.id then { p with fds := vectorInsert p.fds fd slot } else p) :
    m'.Leads fd acc.id := by
  constructor
  · refine ⟨_, hh ▸ List.mem_map_of_mem (List.mem_map_of_mem hmem), ?_⟩
    dsimp only
    rw [if_pos rfl, hstores]
    exact ⟨rfl, List.mem_append_right _ List.mem_cons_self⟩
  · intro p hp hfd
    obtain ⟨q, hq, rfl⟩ := List.mem_map.mp (hh ▸ hp)
    split at hfd
    · next he =>
      rw [if_pos he]
      exact Nat.le_of_eq he.symm
    · next hne =>
      rw [if_neg hne]
      obtain ⟨a, ha, rfl⟩ := List.mem_map.mp hq
      exact hfirst a ha hfd

/-- A connection that goes offline takes no other one's account. -/
theorem Leads.offline {u : Nat} {x : Fd} (h : m.Leads x u) (hne : x ≠ fd) : (m.modelAccOffline fd).Leads x u := by
  cases hget : m.accountGetByFd fd with
  | none =>
    refine h.congr ?_
    rw [holders_modelAccOffline, hget]
  | some acc =>
    refine @Leads.write m (m.modelAccOffline fd) x u acc.id
      (vectorRemove · fd) h ?_ (fun fds hx => (mem_vectorRemove_of_ne hne).mpr hx)
      fun fds hx => .inl (mem_of_mem_vectorRemove hx)
    rw [holders_modelAccOffline, hget]

theorem Ranked.offline (hr : m.Ranked) (fd : Fd) : (m.modelAccOffline fd).Ranked := by
  have hids : (m.modelAccOffline fd).accountIds = m.accountIds := by
    unfold modelAccOffline
    split <;> rfl
  cases hget : m.accountGetByFd fd with
  | none =>
    have hh : (m.modelAccOffline fd).holders = m.holders := by rw [holders_modelAccOffline, hget]
    exact ⟨hh ▸ hr.sorted, by rw [hh, hids]; exact hr.counted⟩
  | some acc =>
    refine @Ranked.write m (m.modelAccOffline fd) hr (vectorRemove · fd) acc.id ?_ hids
    rw [holders_modelAccOffline, hget]

/-- Who acts is who `account_get_by_fd` finds. -/
theorem actsAs_of_get {acc : Account} (h : m.accountGetByFd fd = some acc) : m.ActsAs fd acc := by
  refine ⟨h, fun topic top htop => ⟨fun slot => ?_, ?_, fun v msg => ?_⟩⟩
  · rw [modelSub, htop, h]
  · rw [modelUnsub, htop, h]
  · rw [modelPub, htop, h]
    exact fun r hr => (pubLoop_sent v _ _ _ _ r hr).2.1

end Model

/-! ## Runs -/

/-- A command that is no `login` is observed as none. -/
theorem lastLogin_observe_other {m : Model} {fd : Fd} {content : Mem} {delim : UInt8} {p : Model.Processed}
    (hact : p.action ≠ some .login) (h : History) (x : Fd) :
    lastLogin (Server.observe m fd content delim p ++ h) x = lastLogin h x := by
  have hdelivered : ∀ (rs : List Response) (topic : List UInt8),
      lastLogin ((rs.map fun r => Obs.delivered r.fd topic) ++ h) x = lastLogin h x := by
    intro rs topic
    induction rs with
    | nil => rfl
    | cons r rs ih => exact ih
  unfold Server.observe
  split
  · next hp => exact absurd hp hact
  · split <;> rfl
  · split <;> rfl
  · rfl
  · split
    · exact hdelivered _ _
    · rfl
  · rfl

/-- A command is observed as the login that it is. -/
theorem lastLogin_process (s : Server) (fd : Fd) (content : Mem) (delim : UInt8) (sup : Supply) (rands : List Nat)
    (h : History) (x : Fd) :
    lastLogin ((s.process fd content delim sup rands).2 ++ h) x =
      match s.model.loginOf content delim with
      | some acc => if fd = x then some acc.id else lastLogin h x
      | none => lastLogin h x := by
  obtain ⟨c, hproc⟩ := s.process_eq fd content delim sup rands
  obtain ⟨replies, exited, hmp, -, -⟩ := s.model.modelProcess_of_perform s.view fd content delim sup
  have hcase := s.model.perform_cases s.view fd content delim sup
  rw [hproc, hmp]
  generalize s.model.perform s.view fd content delim sup = p at hcase ⊢
  have hact := hcase.action
  by_cases hlogin : Model.command content = some .login
  · cases hcase with
    | @login user auth _ hcut =>
      rw [Model.loginOf_cut hlogin hcut]
      simp only [Server.observe, Model.Processed.done, hcut]
      cases hget : s.model.accountGet user with
      | none => simp [Model.modelAccAuth, hget]
      | some acc =>
        by_cases hauth : strncmp acc.auth auth (strlen acc.auth) = true
        · rw [Option.filter_some, if_pos hauth]
          simp [Model.modelAccAuth, hget, hauth, lastLogin]
        · rw [Option.filter_some, if_neg hauth]
          simp [Model.modelAccAuth, hget, hauth]
    | quiet state _ _ hno =>
      rw [Model.loginOf, if_pos hlogin, hno hlogin]
      simp only [Server.observe, hlogin, hno hlogin]
      rfl
    | create h' | delete h' | sub h' | unsub h' | pub h' | logup h' => nomatch hlogin.symm.trans h'
  · rw [Model.loginOf_none hlogin]
    exact lastLogin_observe_other (by dsimp only; rw [hact]; exact hlogin) h x

/-- A connection that an `accept` opened is observed as accepted. -/
theorem eventAccept_observed {s : Server} {hd : Handler} {fd : Fd} (hclosed : (s.fdtab fd).isOpen = false)
    (ho : ((s.eventAccept hd fd).1.fdtab fd).isOpen = true) : (s.eventAccept hd fd).2 = [.accepted fd] := by
  have hkept : ((s.handlerAccept hd fd).1.fdtab fd).isOpen = false := by
    unfold Server.handlerAccept
    cases hd with
    | echo | pubsub =>
      dsimp only
      split <;> simp [Server.setFd, hclosed]
    | httpPubsub =>
      dsimp only
      split <;> simp [Server.setFd, hclosed]
    | http | memcached => simp [Server.setFd, hclosed]
  unfold Server.eventAccept at ho ⊢
  dsimp only at ho ⊢
  split at ho
  · next hok => rw [if_pos hok]
  · rw [hkept] at ho
    cases ho

/-- Each open connection's last login leads. -/
structure LoginInv (s : Server) (h : History) : Prop where
  ranked : s.model.Ranked
  leads : ∀ fd u, (s.fdtab fd).isOpen = true → lastLogin h fd = some u → s.model.Leads fd u

namespace LoginInv

variable {s : Server} {h : History}

/-- A write that keeps the model, and of each descriptor whether it is open, keeps the invariant. -/
theorem frame (hi : LoginInv s h) {s' : Server} (hm : s'.model = s.model)
    (hfd : ∀ fd, (s'.fdtab fd).isOpen = (s.fdtab fd).isOpen) : LoginInv s' h :=
  ⟨hm ▸ hi.ranked, fun fd u ho hl => hm ▸ hi.leads fd u (hfd fd ▸ ho) hl⟩

theorem process (hi : LoginInv s h) {fd : Fd} {sup : Supply} (hst : Stores fd sup) {content : Mem} {delim : UInt8}
    (hfirst : s.LoginFirst fd content delim) (rands : List Nat) :
    LoginInv (s.process fd content delim sup rands).1 ((s.process fd content delim sup rands).2 ++ h) := by
  have hlast := lastLogin_process s fd content delim sup rands h
  have hkept : s.model.Kept fd sup.slot (s.model.loginOf content delim)
      (s.process fd content delim sup rands).1.model := by
    obtain ⟨c, hproc⟩ := s.process_eq fd content delim sup rands
    obtain ⟨replies, exited, hmp, -, -⟩ := s.model.modelProcess_of_perform s.view fd content delim sup
    rw [hproc, hmp]
    exact s.model.perform_kept s.view fd content delim sup
  have hfd : (s.process fd content delim sup rands).1.fdtab = s.fdtab := by
    obtain ⟨c, hproc⟩ := s.process_eq fd content delim sup rands
    rw [hproc]
  rw [Server.LoginFirst] at hfirst
  generalize s.model.loginOf content delim = login at hlast hkept hfirst
  cases hkept with
  | same hlogin hholders hids =>
    subst hlogin
    refine ⟨⟨hholders ▸ hi.ranked.sorted, by rw [hholders, hids]; exact hi.ranked.counted⟩, fun x u ho hl => ?_⟩
    exact (hi.leads x u (hfd ▸ ho) ((hlast x).symm.trans hl)).congr hholders
  | created hlogin hholders hids =>
    subst hlogin
    refine ⟨hi.ranked.append hholders hids, fun x u ho hl => ?_⟩
    exact (hi.leads x u (hfd ▸ ho) ((hlast x).symm.trans hl)).append hholders
  | @given acc hlogin hmem hholders hids =>
    subst hlogin
    have hinsert := vectorInsert_of_stores hst
    refine ⟨hi.ranked.write (g := (vectorInsert · fd sup.slot)) hholders hids, fun x u ho hl => ?_⟩
    rw [hlast x] at hl
    dsimp only at hl
    split at hl
    · next he =>
      obtain rfl := Option.some.inj hl
      obtain rfl : fd = x := he
      exact Model.leads_of_login hmem (hfirst acc rfl) hinsert hholders
    · next hne =>
      refine (hi.leads x u (hfd ▸ ho) hl).write (g := (vectorInsert · fd sup.slot)) hholders ?_ ?_
      · intro fds hx
        rw [hinsert]
        exact List.mem_append_left _ hx
      · intro fds hx
        rw [hinsert, List.mem_append, List.mem_singleton] at hx
        exact .inl (hx.resolve_right fun he => hne he.symm)

/-- A cookie of an account that was not created before the one that leads leaves it in the lead. -/
theorem attachCookie (hi : LoginInv s h) {fd : Fd} {sup : Supply} (hst : Stores fd sup) {sess : Session}
    (hcookie : ∀ c ∈ s.cookieAccount sess, ∀ u ∈ lastLogin h fd, u ≤ c) :
    LoginInv (s.attachCookie fd sess sup).1 ((s.attachCookie fd sess sup).2 ++ h) := by
  unfold Server.attachCookie
  cases hc : s.cookieAccount sess with
  | none => exact hi
  | some c =>
    have hinsert := vectorInsert_of_stores hst
    have hholders := s.model.holders_setAccount (vectorInsert · fd sup.slot) c
    refine ⟨hi.ranked.write (g := (vectorInsert · fd sup.slot)) hholders rfl, fun x u ho hl => ?_⟩
    refine (hi.leads x u ho hl).write (g := (vectorInsert · fd sup.slot)) hholders ?_ ?_
    · intro fds hx
      rw [hinsert]
      exact List.mem_append_left _ hx
    · intro fds hx
      rw [hinsert, List.mem_append, List.mem_singleton] at hx
      rcases hx with hx | rfl
      · exact .inl hx
      · exact .inr (hcookie c hc u hl)

theorem msgComplete (hi : LoginInv s h) {fd : Fd} {sup : Supply} (hst : Stores fd sup) {sess : Session} {behind : Mem}
    (hcookie : ∀ c ∈ s.cookieAccount sess, ∀ u ∈ lastLogin h fd, u ≤ c)
    (hfirst : ∀ url ∈ sess.url, (s.attachCookie fd sess sup).1.LoginFirst fd (Server.paramOf url behind) 47)
    (rands : List Nat) :
    LoginInv (s.httpOnMsgComplete fd sess sup rands behind).1
      ((s.httpOnMsgComplete fd sess sup rands behind).2 ++ h) := by
  have hattached := hi.attachCookie hst hcookie
  unfold Server.httpOnMsgComplete
  cases hurl : sess.url with
  | none => exact hattached.frame rfl fun _ => rfl
  | some url =>
    simp only [List.append_assoc]
    exact hattached.process hst (hfirst url hurl) rands

/-- An `accept` makes a connection that has not logged in. -/
theorem eventAccept (hi : LoginInv s h) {fd : Fd} (hclosed : (s.fdtab fd).isOpen = false) (hd : Handler) :
    LoginInv (s.eventAccept hd fd).1 ((s.eventAccept hd fd).2 ++ h) := by
  obtain ⟨hm, hfd, hseen⟩ := s.eventAccept_frame hd fd
  refine ⟨hm ▸ hi.ranked, fun x u ho hl => ?_⟩
  by_cases hx : x = fd
  · subst hx
    rw [eventAccept_observed hclosed ho] at hl
    simp [lastLogin] at hl
  · rw [hm]
    rw [hfd x hx] at ho
    refine hi.leads x u ho ?_
    rcases hseen with hseen | hseen
    · rw [hseen] at hl
      exact hl
    · rw [hseen, List.cons_append, lastLogin, if_neg (Ne.symm hx)] at hl
      exact hl

theorem close (hi : LoginInv s h) (fd : Fd) (hd : Handler) : LoginInv (s.close hd fd) h := by
  obtain ⟨hm, hfd⟩ := s.close_frame hd fd
  refine ⟨?_, fun x u ho hl => ?_⟩
  · rw [hm]
    split
    · exact hi.ranked.offline fd
    · exact hi.ranked
  · have hne : x ≠ fd := by
      rintro rfl
      rw [s.close_isOpen hd x] at ho
      nomatch ho
    have hlead := hi.leads x u (hfd x hne ▸ ho) hl
    rw [hm]
    split
    · exact hlead.offline hne
    · exact hlead

end LoginInv

theorem loginInv_init (fdtab : Fd → FdEntry) (maxConn : Int) : LoginInv (Server.init fdtab maxConn) [] :=
  ⟨⟨.nil, nofun⟩, nofun⟩

/-- One event keeps the invariant. -/
theorem loginInv_step {t t' : Observed} {e : Event} (hi : LoginInv t.1 t.2) (hs : observedStep t e = some t')
    (hc : LoginsFirst t e t') : LoginInv t'.1 t'.2 := by
  obtain ⟨⟨s', seen⟩, hstep, rfl⟩ := Option.map_eq_some_iff.mp hs
  have hcase := Server.step_cases hstep
  generalize hr : (s', seen) = r at hcase
  cases hcase with
  | accept hclosed =>
    obtain ⟨rfl, rfl⟩ := Prod.mk.inj hr
    exact hi.eventAccept hclosed _
  | command hserves =>
    obtain ⟨rfl, rfl⟩ := Prod.mk.inj hr
    exact hi.process hc.1 hc.2 _
  | url hserves =>
    obtain ⟨rfl, rfl⟩ := Prod.mk.inj hr
    refine hi.frame rfl fun x => ?_
    simp only [Server.setFd]
    split <;> rfl
  | headerField hserves =>
    obtain ⟨rfl, rfl⟩ := Prod.mk.inj hr
    refine hi.frame rfl fun x => ?_
    simp only [Server.setFd]
    split <;> rfl
  | msgComplete hserves hsess =>
    obtain ⟨rfl, rfl⟩ := Prod.mk.inj hr
    obtain ⟨hst, hsessions⟩ := hc
    obtain ⟨hcookie, hurl⟩ := hsessions _ hsess
    exact hi.msgComplete hst hcookie hurl _
  | close hopen howner =>
    obtain ⟨rfl, rfl⟩ := Prod.mk.inj hr
    exact hi.close _ _

theorem LoginInv.acts {t : Observed} (hi : LoginInv t.1 t.2) : LastLoginActs t := by
  intro fd u ho hl
  obtain ⟨acc, hget, hid⟩ := (hi.leads fd u ho hl).accountGetByFd hi.ranked
  exact ⟨acc, hid, Model.actsAs_of_get hget⟩

/-- In a run whose logins and cookies find no account before theirs, every connection acts as the account it logged
in to last. -/
theorem last_login_acts (fdtab : Fd → FdEntry) (maxConn : Int) (es : List Event)
    (h : AllSteps observedStep LoginsFirst (Server.init fdtab maxConn, []) es) :
    AllStates observedStep LastLoginActs (Server.init fdtab maxConn, []) es := by
  have hinv := AllStates.of_invariant (I := fun t : Observed => LoginInv t.1 t.2) (loginInv_init fdtab maxConn)
    (fun t e t' hi hs hc => loginInv_step hi hs hc) h
  exact hinv.mono fun t hi => hi.acts

/-- A connection that logs in to bob and then to ann, who registered before him. -/
theorem last_login_earlier_account :
    AllStates observedStep LastLoginActs (freshServer, [])
      [.accept .pubsub 5, plainCommand 5 "logup ann a" 0, plainCommand 5 "logup bob b" 0,
        plainCommand 5 "login bob b" 0, plainCommand 5 "login ann a" 0] :=
  last_login_acts _ _ _ (by decide +kernel)

/-- The other way round: logged in to bob, the connection is still ann's. -/
theorem last_login_later_account :
    ¬AllStates observedStep LastLoginActs (freshServer, [])
      [.accept .pubsub 5, plainCommand 5 "logup ann a" 0, plainCommand 5 "logup bob b" 0,
        plainCommand 5 "login ann a" 0, plainCommand 5 "login bob b" 0] := by
  intro h
  obtain ⟨acc, hid, hget, -⟩ := h.last rfl 5 2 rfl rfl
  have hann := congrArg (Option.map Account.id) hget
  rw [Option.map_some, hid] at hann
  nomatch hann

end ZeroServ
