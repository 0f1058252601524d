import ZeroServ.Lib.Run
import ZeroServ.PubSub.Frame
import ZeroServ.PubSub.Writes

/-!
# Authentication ends with the connection

`model_acc_auth` and `http_on_msg_complete` add a descriptor to an account's vector as often as they are asked to;
`model_acc_offline` takes it once from one account. A run in which no connection closes while it is held more than
once keeps what the two owe each other: a descriptor that an account holds is that of an open connection which is
entitled to the account.
-/

namespace ZeroServ

open CString Run

/-! ## Entitlement along a history -/

/-- Whether something observed says that a descriptor was accepted. -/
def Obs.isAccepted : Obs → Bool
  | .accepted _ => true
  | _ => false

/-- What is observed after a connection was entitled, short of another `accept`, leaves it entitled. -/
theorem Entitled.append {h seen : History} {fd : Fd} {acc : Nat} (he : Entitled h fd acc)
    (hseen : ∀ o ∈ seen, o.isAccepted = false) : Entitled (seen ++ h) fd acc := by
  induction seen with
  | nil => exact he
  | cons o seen ih =>
    have hrest := ih fun o' ho' => hseen o' (List.mem_cons_of_mem _ ho')
    have ho := hseen o List.mem_cons_self
    cases o with
    | accepted fd' => nomatch ho
    | loggedIn | cookieFor => exact .inr hrest
    | subscribed | unsubscribed | delivered => exact hrest

/-- A login entitles, whatever else was observed with it. -/
theorem entitled_of_loggedIn {h seen : History} {fd : Fd} {acc : Nat} (hin : .loggedIn fd acc ∈ seen)
    (hseen : ∀ o ∈ seen, o.isAccepted = false) : Entitled (seen ++ h) fd acc := by
  obtain ⟨before, after, rfl⟩ := List.append_of_mem hin
  rw [List.append_assoc]
  refine Entitled.append ?_ fun o ho => hseen o (List.mem_append_left _ ho)
  exact .inl ⟨rfl, rfl⟩

/-- A command lets nothing be observed that says a descriptor was accepted. -/
theorem observe_not_accepted (m : Model) (fd : Fd) (content : Mem) (delim : UInt8) (p : Model.Processed) :
    ∀ o ∈ Server.observe m fd content delim p, o.isAccepted = false := by
  intro o ho
  unfold Server.observe at ho
  split at ho
  · split at ho
    · split at ho
      · obtain ⟨acc, -, rfl⟩ := List.mem_map.mp ho
        rfl
      · nomatch ho
    · nomatch ho
  · split at ho
    · rw [List.mem_singleton.mp ho]; rfl
    · nomatch ho
  · split at ho
    · rw [List.mem_singleton.mp ho]; rfl
    · nomatch ho
  · rw [List.mem_singleton.mp ho]; rfl
  · split at ho
    · obtain ⟨r, -, rfl⟩ := List.mem_map.mp ho
      rfl
    · nomatch ho
  · nomatch ho

/-! ## Descriptors the accounts hold -/

/-- Whoever holds a descriptor after one account was given `fd` held it before, or is that account and the descriptor
is `fd`. -/
theorem mem_of_given {hs : List Holder} {id : Nat} {fd : Fd} {sup : Supply} (hst : Stores fd sup) {p : Holder}
    (hp : p ∈ hs.map fun p => if p.id = id then { p with fds := vectorInsert p.fds fd sup.slot } else p) {x : Fd}
    (hx : x ∈ p.fds) : (∃ q ∈ hs, q.id = p.id ∧ x ∈ q.fds) ∨ (p.id = id ∧ x = fd) := by
  obtain ⟨q, hq, rfl⟩ := List.mem_map.mp hp
  by_cases hid : q.id = id
  · simp only [hid, if_true, vectorInsert_of_stores hst, List.mem_append, List.mem_singleton] at hx ⊢
    rcases hx with hx | hx
    · exact .inl ⟨q, hq, hid, hx⟩
    · exact .inr ⟨trivial, hx⟩
  · simp only [hid, if_false] at hx ⊢
    exact .inl ⟨q, hq, rfl, hx⟩

/-- Whoever holds a descriptor after a command held it before, or the command was its `login`. -/
theorem holders_process {s : Server} {fd : Fd} {content : Mem} {delim : UInt8} {sup : Supply} {rands : List Nat}
    (hst : Stores fd sup) {p : Holder} (hp : p ∈ (s.process fd content delim sup rands).1.model.holders) {x : Fd}
    (hx : x ∈ p.fds) :
    (∃ q ∈ s.model.holders, q.id = p.id ∧ x ∈ q.fds) ∨
      (x = fd ∧ .loggedIn fd p.id ∈ (s.process fd content delim sup rands).2) := by
  obtain ⟨c, hproc⟩ := s.process_eq fd content delim sup rands
  obtain ⟨replies, exited, hmp, -, -⟩ := s.model.modelProcess_of_perform s.view fd content delim sup
  rw [hproc, hmp] at hp ⊢
  have same : p ∈ s.model.holders → ∃ q ∈ s.model.holders, q.id = p.id ∧ x ∈ q.fds := fun hp => ⟨p, hp, rfl, hx⟩
  have hcase := s.model.perform_cases s.view fd content delim sup
  generalize s.model.perform s.view fd content delim sup = pr at hp hcase ⊢
  cases hcase with
  | create h => exact .inl (same (s.model.holders_modelTopicCreate _ _ _ ▸ hp))
  | delete h => exact .inl (same (s.model.holders_modelTopicDelete _ ▸ hp))
  | sub h => exact .inl (same (s.model.holders_modelSub _ _ _ ▸ hp))
  | unsub h => exact .inl (same (s.model.holders_modelUnsub _ _ ▸ hp))
  | pub h hcut => exact .inl (same (s.model.holders_modelPub _ _ _ _ ▸ hp))
  | quiet => exact .inl (same hp)
  | @logup user auth h hcut =>
    simp only [Model.Processed.done] at hp
    rcases s.model.holders_modelAccCreate user auth with hh | ⟨id, hh⟩
    · exact .inl (same (hh ▸ hp))
    · rw [hh, List.mem_append, List.mem_singleton] at hp
      rcases hp with hp | rfl
      · exact .inl (same hp)
      · nomatch hx
  | @login user auth h hcut =>
    simp only [Model.Processed.done] at hp ⊢
    rcases s.model.holders_modelAccAuth fd user auth sup.slot with hh | ⟨acc, hacc, hret, hh⟩
    · exact .inl (same (hh ▸ hp))
    · rw [hh] at hp
      rcases mem_of_given hst hp hx with hq | ⟨hid, hx⟩
      · exact .inl hq
      · refine .inr ⟨hx, ?_⟩
        simp only [Server.observe, hcut, hret, if_true, hacc, Option.toList_some, List.map_cons, List.map_nil,
          List.mem_singleton, hid]

/-! ## Going offline -/

/-- How often the accounts hold a descriptor, all of them together. -/
def Model.held (m : Model) (fd : Fd) : Nat := (m.accounts.flatMap (·.fds)).count fd

/-- One account holds the descriptor no more often than all of them. -/
theorem count_le_held {m : Model} {acc : Account} (h : acc ∈ m.accounts) (fd : Fd) : acc.fds.count fd ≤ m.held fd := by
  have hsub : acc.fds.Sublist (m.accounts.flatMap (·.fds)) := List.sublist_flatten_of_mem (List.mem_map_of_mem h)
  exact hsub.count_le fd

/-- Two accounts that hold the descriptor hold it twice. -/
theorem two_le_held {m : Model} {acc acc' : Account} (h : acc ∈ m.accounts) (h' : acc' ∈ m.accounts) (hne : acc' ≠ acc)
    {fd : Fd} (hfd : fd ∈ acc.fds) (hfd' : fd ∈ acc'.fds) : 2 ≤ m.held fd := by
  have hperm := (List.perm_cons_erase h).flatMap_right (·.fds)
  have hmem : fd ∈ (m.accounts.erase acc).flatMap (·.fds) :=
    List.mem_flatMap.mpr ⟨acc', (List.mem_erase_of_ne hne).mpr h', hfd'⟩
  have h₁ := List.count_pos_iff.mpr hfd
  have h₂ := List.count_pos_iff.mpr hmem
  rw [Model.held, hperm.count_eq, List.flatMap_cons, List.count_append]
  omega

/-- A descriptor that is held at most once is held no more after it has gone offline. -/
theorem not_held_of_offline {m : Model} {fd : Fd} (h : m.held fd ≤ 1) :
    ∀ p ∈ (m.modelAccOffline fd).holders, fd ∉ p.fds := by
  intro p hp hfd
  rw [Model.holders_modelAccOffline] at hp
  cases hacc : m.accountGetByFd fd with
  | none =>
    rw [hacc] at hp
    exact Model.accountGetByFd_none hacc p hp hfd
  | some acc =>
    rw [hacc] at hp
    have hmem : acc ∈ m.accounts := List.mem_of_find?_eq_some hacc
    have hheld : fd ∈ acc.fds := (Model.accountGetByFd_some hacc).2
    obtain ⟨q, hq, rfl⟩ := List.mem_map.mp hp
    obtain ⟨acc', hacc', rfl⟩ := List.mem_map.mp hq
    by_cases hid : acc'.id = acc.id
    · simp only [hid, if_true] at hfd
      have hcount := List.count_pos_iff.mpr hfd
      rw [count_vectorRemove_self] at hcount
      have := count_le_held hacc' fd
      omega
    · simp only [hid, if_false] at hfd
      have := two_le_held hmem hacc' (fun h => hid (h ▸ rfl)) hheld hfd
      omega

/-- Going offline gives no account a descriptor. -/
theorem mem_of_offline {m : Model} {fd : Fd} {p : Holder} (hp : p ∈ (m.modelAccOffline fd).holders) {x : Fd}
    (hx : x ∈ p.fds) :
    ∃ q ∈ m.holders, q.id = p.id ∧ x ∈ q.fds := by
  rw [Model.holders_modelAccOffline] at hp
  cases hacc : m.accountGetByFd fd with
  | none =>
    rw [hacc] at hp
    exact ⟨p, hp, rfl, hx⟩
  | some acc =>
    rw [hacc] at hp
    obtain ⟨q, hq, rfl⟩ := List.mem_map.mp hp
    by_cases hid : q.id = acc.id
    · simp only [hid, if_true] at hx ⊢
      exact ⟨q, hq, hid, mem_of_mem_vectorRemove hx⟩
    · simp only [hid, if_false] at hx ⊢
      exact ⟨q, hq, rfl, hx⟩

/-! ## The invariant -/

/-- A descriptor that an account holds is that of an open pub/sub connection, which is entitled to the account. -/
def SessionInv (s : Server) (h : History) : Prop :=
  ∀ p ∈ s.model.holders, ∀ fd ∈ p.fds, (s.fdtab fd).isOpen = true ∧ s.view.userData fd = true ∧ Entitled h fd p.id

namespace SessionInv

variable {s : Server} {h : History}

/-- A write that keeps the model, and of each descriptor whether it is open and whose it is, keeps the invariant. -/
theorem frame (hi : SessionInv s h) {s' : Server} (hm : s'.model = s.model)
    (hfd : ∀ fd, (s'.fdtab fd).isOpen = (s.fdtab fd).isOpen ∧ (s'.fdtab fd).owner = (s.fdtab fd).owner) :
    SessionInv s' h := by
  intro p hp fd hmem
  rw [hm] at hp
  obtain ⟨ho, hu, he⟩ := hi p hp fd hmem
  refine ⟨by rw [(hfd fd).1, ho], ?_, he⟩
  simpa only [Server.view, (hfd fd).2] using hu

theorem process (hi : SessionInv s h) {fd : Fd} (ho : (s.fdtab fd).isOpen = true) (hu : s.view.userData fd = true)
    {sup : Supply} (hst : Stores fd sup) (content : Mem) (delim : UInt8) (rands : List Nat) :
    SessionInv (s.process fd content delim sup rands).1 ((s.process fd content delim sup rands).2 ++ h) := by
  intro p hp x hx
  have hmem := holders_process hst hp hx
  obtain ⟨c, hproc⟩ := s.process_eq fd content delim sup rands
  have hseen : ∀ o ∈ (s.process fd content delim sup rands).2, o.isAccepted = false := by
    rw [hproc]
    exact observe_not_accepted _ _ _ _ _
  have hfd : (s.process fd content delim sup rands).1.fdtab = s.fdtab := by rw [hproc]
  have hview : (s.process fd content delim sup rands).1.view = s.view := by rw [Server.view, hfd, Server.view]
  rw [hfd, hview]
  rcases hmem with ⟨q, hq, hid, hxq⟩ | ⟨rfl, hin⟩
  · obtain ⟨hox, hux, he⟩ := hi q hq x hxq
    exact ⟨hox, hux, (hid ▸ he).append hseen⟩
  · exact ⟨ho, hu, entitled_of_loggedIn hin hseen⟩

/-- The cookie of a request adds the connection to the account it resolves to. -/
theorem attachCookie (hi : SessionInv s h) {fd : Fd} (ho : (s.fdtab fd).isOpen = true) (hu : s.view.userData fd = true)
    {sup : Supply} (hst : Stores fd sup) (sess : Session) :
    SessionInv (s.attachCookie fd sess sup).1 ((s.attachCookie fd sess sup).2 ++ h) := by
  unfold Server.attachCookie
  cases s.cookieAccount sess with
  | none => exact hi
  | some acc =>
    intro p hp x hx
    simp only [s.model.holders_setAccount (vectorInsert · fd sup.slot)] at hp
    rcases mem_of_given hst hp hx with ⟨q, hq, hid, hxq⟩ | ⟨hid, rfl⟩
    · obtain ⟨hox, hux, he⟩ := hi q hq x hxq
      exact ⟨hox, hux, .inr (hid ▸ he)⟩
    · exact ⟨ho, hu, .inl ⟨rfl, hid.symm⟩⟩

theorem msgComplete (hi : SessionInv s h) {fd : Fd} (ho : (s.fdtab fd).isOpen = true) (hu : s.view.userData fd = true)
    {sup : Supply} (hst : Stores fd sup) (sess : Session) (rands : List Nat) (behind : Mem) :
    SessionInv (s.httpOnMsgComplete fd sess sup rands behind).1
      ((s.httpOnMsgComplete fd sess sup rands behind).2 ++ h) := by
  have hcookie := hi.attachCookie ho hu hst sess
  have hfd := s.attachCookie_fdtab fd sess sup
  unfold Server.httpOnMsgComplete
  cases sess.url with
  | none => exact hcookie.frame rfl fun _ => ⟨rfl, rfl⟩
  | some url =>
    simp only [List.append_assoc]
    refine hcookie.process ?_ ?_ hst _ _ _
    · rw [hfd, ho]
    · simpa only [Server.view, hfd] using hu

/-- A descriptor that was closed is held by no account, so an `accept` that is given it disturbs none. -/
theorem eventAccept (hi : SessionInv s h) {fd : Fd} (hclosed : (s.fdtab fd).isOpen = false) (hd : Handler) :
    SessionInv (s.eventAccept hd fd).1 ((s.eventAccept hd fd).2 ++ h) := by
  obtain ⟨hm, hfd, hseen⟩ := s.eventAccept_frame hd fd
  intro p hp x hx
  rw [hm] at hp
  obtain ⟨ho, hu, he⟩ := hi p hp x hx
  have hne : x ≠ fd := by
    rintro rfl
    rw [hclosed] at ho
    nomatch ho
  refine ⟨by rw [hfd x hne, ho], by simpa only [Server.view, hfd x hne] using hu, ?_⟩
  rcases hseen with hseen | hseen
  · rw [hseen]
    exact he
  · rw [hseen]
    exact ⟨hne.symm, he⟩

/-- A connection that is held at most once leaves no account behind that holds it. -/
theorem close (hi : SessionInv s h) {fd : Fd} {hd : Handler} (howner : (s.fdtab fd).owner = some hd)
    (hheld : s.model.held fd ≤ 1) : SessionInv (s.close hd fd) h := by
  obtain ⟨hm, hfd⟩ := s.close_frame hd fd
  have hgone : ∀ p ∈ (s.close hd fd).model.holders, fd ∉ p.fds := by
    intro p hp
    rw [hm] at hp
    cases hd with
    | pubsub | httpPubsub => exact not_held_of_offline hheld p hp
    | echo | http | memcached =>
      intro hmem
      have hu := (hi p hp fd hmem).2.1
      simp [Server.view, howner, Handler.hasUserData] at hu
  have hback : ∀ p ∈ (s.close hd fd).model.holders, ∀ x ∈ p.fds, ∃ q ∈ s.model.holders, q.id = p.id ∧ x ∈ q.fds := by
    intro p hp x hx
    rw [hm] at hp
    split at hp
    · exact mem_of_offline hp hx
    · exact ⟨p, hp, rfl, hx⟩
  intro p hp x hx
  have hne : x ≠ fd := fun h => hgone p hp (h ▸ hx)
  obtain ⟨q, hq, hid, hxq⟩ := hback p hp x hx
  obtain ⟨ho, hu, he⟩ := hi q hq x hxq
  exact ⟨by rw [(hfd x hne), ho], by simpa only [Server.view, hfd x hne] using hu, hid ▸ he⟩

end SessionInv

/-! ## Runs -/

/-- Every open connection is entitled to the account that `account_get_by_fd` gives for it. -/
def AuthCurrent (t : Observed) : Prop :=
  ∀ fd, (t.1.fdtab fd).isOpen = true → ∀ acc, t.1.model.accountGetByFd fd = some acc → Entitled t.2 fd acc.id

/-- A pub/sub connection that closes leaves no account that holds its descriptor. -/
def OfflineClean (t : Observed) (e : Event) (t' : Observed) : Prop :=
  ∀ fd, e = .close fd → t.1.view.userData fd = true → ∀ acc ∈ t'.1.model.accounts, fd ∉ acc.fds

/-- A connection closes while the accounts hold it at most once, and what a vector is given it stores. -/
def HeldOnce (t : Observed) (e : Event) (_ : Observed) : Prop :=
  match e with
  | .close fd => t.1.model.held fd ≤ 1
  | .command fd _ sup | .msgComplete fd sup _ _ => Stores fd sup
  | _ => True

instance (t : Observed) (e : Event) (t' : Observed) : Decidable (HeldOnce t e t') :=
  match e with
  | .accept .. | .command .. | .url .. | .headerField .. | .msgComplete .. | .close .. =>
      by dsimp only [HeldOnce]; infer_instance

theorem sessionInv_init (fdtab : Fd → FdEntry) (maxConn : Int) : SessionInv (Server.init fdtab maxConn) [] := by
  intro p hp
  nomatch hp

/-- One event keeps the invariant. -/
theorem sessionInv_step {t t' : Observed} {e : Event} (hi : SessionInv t.1 t.2) (hs : observedStep t e = some t')
    (hc : HeldOnce t e t') : SessionInv t'.1 t'.2 := by
  obtain ⟨⟨s', seen⟩, hstep, rfl⟩ := Option.map_eq_some_iff.mp hs
  have hcase := Server.step_cases hstep
  generalize hr : (s', seen) = r at hcase
  cases hcase with
  | accept hclosed =>
    obtain ⟨rfl, rfl⟩ := Prod.mk.inj hr
    exact hi.eventAccept hclosed _
  | command hserves =>
    obtain ⟨rfl, rfl⟩ := Prod.mk.inj hr
    obtain ⟨ho, hu⟩ := Server.serves_view hserves rfl
    exact hi.process ho hu hc _ _ _
  | url hserves =>
    obtain ⟨rfl, rfl⟩ := Prod.mk.inj hr
    refine hi.frame rfl fun x => ?_
    simp only [Server.setFd]
    split <;> exact ⟨rfl, rfl⟩
  | headerField hserves =>
    obtain ⟨rfl, rfl⟩ := Prod.mk.inj hr
    refine hi.frame rfl fun x => ?_
    simp only [Server.setFd]
    split <;> exact ⟨rfl, rfl⟩
  | msgComplete hserves hsess =>
    obtain ⟨rfl, rfl⟩ := Prod.mk.inj hr
    obtain ⟨ho, hu⟩ := Server.serves_view hserves rfl
    exact hi.msgComplete ho hu hc _ _ _
  | close hopen howner =>
    obtain ⟨rfl, rfl⟩ := Prod.mk.inj hr
    exact hi.close howner hc

/-- The invariant says what `account_get_by_fd` may give. -/
theorem SessionInv.authCurrent {t : Observed} (hi : SessionInv t.1 t.2) : AuthCurrent t := by
  intro fd _ acc hacc
  obtain ⟨hp, hfd⟩ := Model.accountGetByFd_some hacc
  exact (hi _ hp fd hfd).2.2

/-- A closed descriptor is held by no account. -/
theorem SessionInv.not_held {s : Server} {h : History} (hi : SessionInv s h) {fd : Fd}
    (hclosed : (s.fdtab fd).isOpen = false) : ∀ acc ∈ s.model.accounts, fd ∉ acc.fds := by
  intro acc hacc hfd
  have hopen := (hi _ (List.mem_map_of_mem hacc) fd hfd).1
  rw [hclosed] at hopen
  nomatch hopen

/-- Authentication does not survive a connection in a run of the server where every connection closes while the
accounts hold its descriptor at most once. -/
theorem auth_ends_with_connection (fdtab : Fd → FdEntry) (maxConn : Int) (es : List Event)
    (h : AllSteps observedStep HeldOnce (Server.init fdtab maxConn, []) es) :
    AllStates observedStep AuthCurrent (Server.init fdtab maxConn, []) es ∧
      AllSteps observedStep OfflineClean (Server.init fdtab maxConn, []) es := by
  have hinit := sessionInv_init fdtab maxConn
  constructor
  · have hinv := AllStates.of_invariant (I := fun t : Observed => SessionInv t.1 t.2) hinit
      (fun t e t' hi hs hc => sessionInv_step hi hs hc) h
    exact hinv.mono fun t hi => hi.authCurrent
  · refine AllSteps.of_invariant (I := fun t : Observed => SessionInv t.1 t.2) hinit
      (fun t e t' hi hs hc => sessionInv_step hi hs hc) ?_ h
    rintro t e t' hi hs hc fd rfl -
    have hi' := sessionInv_step hi hs hc
    obtain ⟨⟨s', seen⟩, hstep, rfl⟩ := Option.map_eq_some_iff.mp hs
    have hcase := Server.step_cases hstep
    generalize hr : (s', seen) = r at hcase
    cases hcase with
    | close hopen howner =>
      obtain ⟨rfl, rfl⟩ := Prod.mk.inj hr
      exact hi'.not_held (Server.close_isOpen _ _ _)

/-- A connection that logs in once, closes and is followed by another one on its descriptor. -/
theorem auth_ends_single_login :
    AllStates observedStep AuthCurrent (freshServer, [])
        [.accept .pubsub 5, plainCommand 5 "logup bob a" 0, plainCommand 5 "login bob a" 0, .close 5,
          .accept .pubsub 5] ∧
      AllSteps observedStep OfflineClean (freshServer, [])
        [.accept .pubsub 5, plainCommand 5 "logup bob a" 0, plainCommand 5 "login bob a" 0, .close 5,
          .accept .pubsub 5] :=
  auth_ends_with_connection _ _ _ (by decide +kernel)

/-- A connection that logs in twice leaves its descriptor to the account: the next connection on it, of any client,
is bob's. -/
theorem auth_survives_second_login :
    ¬AllStates observedStep AuthCurrent (freshServer, [])
      [.accept .pubsub 5, plainCommand 5 "logup bob a" 0, plainCommand 5 "login bob a" 0,
        plainCommand 5 "login bob a" 0, .close 5, .accept .pubsub 5] := by
  intro h
  exact (h.last rfl 5 rfl _ rfl).1 rfl

end ZeroServ
