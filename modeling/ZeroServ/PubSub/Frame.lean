import ZeroServ.PubSub.Server

/-!
# What an event leaves alone

Each event of the server by the part of the state it reaches: a command changes the model and the cookies, an
`accept` and a close change the entry of their descriptor, and of the model only what the handler's `disconnect`
takes offline. `step_cases` says when an event is possible and what it then does.
-/

namespace ZeroServ

open CString

namespace Server

variable (s : Server)

/-- Everything one event can do, and when it can. -/
inductive Stepped : Event → Server × List Obs → Prop
  | accept {h : Handler} {fd : Fd} (hclosed : (s.fdtab fd).isOpen = false) : Stepped (.accept h fd) (s.eventAccept h fd)
  | command {fd : Fd} {content : Mem} {sup : Supply} (hserves : s.serves .pubsub fd = true) :
    Stepped (.command fd content sup) (s.process fd content 32 sup [])
  | url {fd : Fd} {bytes : List UInt8} (hserves : s.serves .httpPubsub fd = true) :
    Stepped (.url fd bytes) (s.setFd fd fun e => { e with session := e.session.map (httpOnUrl · bytes) }, [])
  | headerField {fd : Fd} {mem : Mem} (hserves : s.serves .httpPubsub fd = true) :
    Stepped (.headerField fd mem) (s.setFd fd fun e =>
      { e with session := e.session.map (httpOnHeaderField · mem) }, [])
  | msgComplete {fd : Fd} {sup : Supply} {rands : List Nat} {behind : Mem} {sess : Session}
    (hserves : s.serves .httpPubsub fd = true) (hsess : (s.fdtab fd).session = some sess) :
    Stepped (.msgComplete fd sup rands behind) (s.httpOnMsgComplete fd sess sup rands behind)
  | close {fd : Fd} {h : Handler} (hopen : (s.fdtab fd).isOpen = true) (howner : (s.fdtab fd).owner = some h) :
    Stepped (.close fd) (s.close h fd, [])

theorem step_cases {s : Server} {e : Event} {r : Server × List Obs} (h : s.step e = some r) : Stepped s e r := by
  unfold step at h
  split at h
  · obtain ⟨hc, hr⟩ := Option.ite_none_right_eq_some.mp h
    obtain rfl := Option.some.inj hr
    exact .accept (by simpa using (Bool.and_eq_true_iff.mp hc).2)
  · obtain ⟨hc, hr⟩ := Option.ite_none_right_eq_some.mp h
    obtain rfl := Option.some.inj hr
    exact .command (Bool.and_eq_true_iff.mp hc).2
  · obtain ⟨hc, hr⟩ := Option.ite_none_right_eq_some.mp h
    obtain rfl := Option.some.inj hr
    exact .url (Bool.and_eq_true_iff.mp hc).2
  · obtain ⟨hc, hr⟩ := Option.ite_none_right_eq_some.mp h
    obtain rfl := Option.some.inj hr
    exact .headerField (Bool.and_eq_true_iff.mp hc).2
  · split at h
    · rename_i hc
      obtain ⟨sess, hsess, rfl⟩ := Option.map_eq_some_iff.mp h
      exact .msgComplete (Bool.and_eq_true_iff.mp hc).2 hsess
    · nomatch h
  · split at h
    · rename_i hc
      obtain ⟨hd, hown, rfl⟩ := Option.map_eq_some_iff.mp h
      exact .close (Bool.and_eq_true_iff.mp hc).2 hown
    · nomatch h

/-! ## What the front ends leave of a command -/

/-- An exited process does nothing. -/
theorem step_running {s : Server} {e : Event} {r : Server × List Obs} (h : s.step e = some r) : s.exited = false := by
  by_contra hex
  unfold step at h
  cases e <;> simp [hex] at h

/-- What the front ends do on a call reaches the cookies only. -/
theorem foldl_onResponse (rands : List Nat) (sent : List Response) :
    ∃ cookieList, sent.foldl (fun s r => s.onResponse rands r) s = { s with cookieList } := by
  induction sent generalizing s with
  | nil => exact ⟨s.cookieList, rfl⟩
  | cons r sent ih =>
    have h : ∃ cookieList, s.onResponse rands r = { s with cookieList } := by
      unfold onResponse
      split
      · split
        · exact ⟨_, rfl⟩
        · exact ⟨s.cookieList, rfl⟩
      · exact ⟨s.cookieList, rfl⟩
    obtain ⟨c, hc⟩ := h
    obtain ⟨c', hc'⟩ := ih (s.onResponse rands r)
    exact ⟨c', by rw [List.foldl_cons, hc', hc]⟩

/-- A command changes the model as `model_process` does, and of `fdtab` nothing. -/
theorem process_eq (fd : Fd) (content : Mem) (delim : UInt8) (sup : Supply) (rands : List Nat) :
    ∃ cookieList,
      s.process fd content delim sup rands =
        ({ s with
            model := (s.model.modelProcess s.view fd content delim sup).model
            exited := (s.model.modelProcess s.view fd content delim sup).exited
            cookieList },
          observe s.model fd content delim (s.model.modelProcess s.view fd content delim sup)) := by
  unfold process
  obtain ⟨c, hc⟩ := foldl_onResponse
    { s with
      model := (s.model.modelProcess s.view fd content delim sup).model
      exited := (s.model.modelProcess s.view fd content delim sup).exited }
    rands (s.model.modelProcess s.view fd content delim sup).sent
  exact ⟨c, Prod.ext hc rfl⟩

@[simp] theorem attachCookie_fdtab (fd : Fd) (sess : Session) (sup : Supply) :
    (s.attachCookie fd sess sup).1.fdtab = s.fdtab := by
  unfold attachCookie
  split <;> rfl

theorem setFd_fdtab_ne (f : FdEntry → FdEntry) {fd x : Fd} (h : x ≠ fd) : (s.setFd fd f).fdtab x = s.fdtab x :=
  if_neg h

/-- An `accept` touches its descriptor only, and is observed if the handler took it. -/
theorem eventAccept_frame (h : Handler) (fd : Fd) :
    (s.eventAccept h fd).1.model = s.model ∧ (∀ x, x ≠ fd → (s.eventAccept h fd).1.fdtab x = s.fdtab x) ∧
      ((s.eventAccept h fd).2 = [] ∨ (s.eventAccept h fd).2 = [.accepted fd]) := by
  have hframe : (s.handlerAccept h fd).1.model = s.model ∧
      ∀ x, x ≠ fd → (s.handlerAccept h fd).1.fdtab x = s.fdtab x := by
    unfold handlerAccept
    cases h with
    | http | memcached => exact ⟨rfl, fun x hx => by simp only [setFd, if_neg hx]⟩
    | echo | pubsub =>
      simp only
      split <;> exact ⟨rfl, fun x hx => by simp only [setFd, if_neg hx]⟩
    | httpPubsub =>
      simp only
      split
      · exact ⟨rfl, fun _ _ => rfl⟩
      · exact ⟨rfl, fun x hx => by simp only [setFd, if_neg hx]⟩
  unfold eventAccept
  split
  · rename_i s' ok heq
    rw [heq] at hframe
    split
    · refine ⟨hframe.1, fun x hx => ?_, .inr rfl⟩
      rw [setFd_fdtab_ne _ _ hx]
      exact hframe.2 x hx
    · exact ⟨hframe.1, hframe.2, .inl rfl⟩

/-- A connection that was accepted has a write buffer. -/
theorem eventAccept_wrBuf (h : Handler) {fd : Fd} (hclosed : (s.fdtab fd).isOpen = false) :
    (((s.eventAccept h fd).1.fdtab fd).isOpen = true → ((s.eventAccept h fd).1.fdtab fd).wrBuf = true) ∧
      (s.eventAccept h fd).1.exited = s.exited := by
  unfold eventAccept handlerAccept
  cases h with
  | http | memcached => simp [setFd]
  | echo | pubsub =>
    by_cases hf : (s.setFd fd fun e => { e with wrBuf := true }).full = true
    · simp only [hf, if_true]
      simp [setFd, hclosed]
    · simp only [hf]
      simp [setFd]
  | httpPubsub =>
    by_cases hf : s.full = true
    · simp [hf, hclosed]
    · simp [hf, setFd]

/-- A connection that closes touches its descriptor only, and goes offline if it is one of the pub/sub front ends. -/
theorem close_frame (h : Handler) (fd : Fd) :
    (s.close h fd).model = (if h.hasUserData then s.model.modelAccOffline fd else s.model) ∧
      ∀ x, x ≠ fd → (s.close h fd).fdtab x = s.fdtab x := by
  have hfd : ∀ x, x ≠ fd → (s.setFd fd fun e => { e with isOpen := false }).fdtab x = s.fdtab x :=
    fun x hx => setFd_fdtab_ne _ _ hx
  unfold close handlerDisconnect
  cases h with
  | pubsub | http => exact ⟨rfl, hfd⟩
  | echo | httpPubsub | memcached => exact ⟨rfl, fun x hx => (setFd_fdtab_ne _ _ hx).trans (hfd x hx)⟩

theorem close_exited (h : Handler) (fd : Fd) : (s.close h fd).exited = s.exited := by
  unfold close handlerDisconnect
  cases h <;> rfl

theorem close_isOpen (h : Handler) (fd : Fd) : ((s.close h fd).fdtab fd).isOpen = false := by
  unfold close handlerDisconnect
  cases h <;> simp [setFd]

/-- A served pub/sub connection is open, and the model may call it back. -/
theorem serves_view {s : Server} {hd : Handler} {fd : Fd} (h : s.serves hd fd = true) (hd' : hd.hasUserData = true) :
    (s.fdtab fd).isOpen = true ∧ s.view.userData fd = true := by
  simp only [serves, Bool.and_eq_true, decide_eq_true_eq] at h
  exact ⟨h.1, by simp [view, h.2, hd']⟩

end Server

/-! ## Insertions of descriptors -/

/-- A vector insertion of the descriptor stores the descriptor: it is not `NULL`, or the slot it is counted in holds
zero. -/
def Stores (fd : Fd) (s : Supply) : Prop := fd ≠ 0 ∨ s.slot = 0

instance (fd : Fd) (s : Supply) : Decidable (Stores fd s) := inferInstanceAs (Decidable (_ ∨ _))

theorem vectorInsert_of_stores {fd : Fd} {s : Supply} (h : Stores fd s) (v : List Nat) :
    vectorInsert v fd s.slot = v ++ [fd] := by
  unfold vectorInsert
  rcases h with h | h
  · rw [if_pos h]
  · by_cases h0 : fd = 0
    · rw [if_neg (not_not.mpr h0), h, h0]
    · rw [if_pos h0]

end ZeroServ
