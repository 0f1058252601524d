import Mathlib.Data.Set.Card
import ZeroServ.Lib.Run
import ZeroServ.PubSub.Frame

/-!
# The connection limits

`echo.c`, `pubsub.c` and `http_pubsub.c` each count their connections in a `_stat` of their own, but the three
definitions are one object: it counts the connections of all three, and its limit is the one loaded last.
`limits_kept_iff` says of every run exactly when each handler is held to its own limit, and to nothing less.
-/

namespace ZeroServ

open Run CString

/-- A handler that counts its connections in `_stat`. -/
def Handler.counted : Handler → Bool
  | .echo | .pubsub | .httpPubsub => true
  | .http | .memcached => false

namespace Server

variable (s : Server)

/-! ## Loading the limits -/

/-- `config_setting_lookup_int64(cfg, "max_conn", &_stat.max_conn)`, and `log_fatal` where there is no such setting. -/
def lookupMaxConn (maxConn : Option Int) : Server :=
  match maxConn with
  | some m => { s with stat.maxConn := m }
  | none => { s with exited := true }

def echoLoadConfig (maxConn : Option Int) : Server := s.lookupMaxConn maxConn
def psubLoadConfig (maxConn : Option Int) : Server := s.lookupMaxConn maxConn
def httpPsubLoadConfig (maxConn : Option Int) : Server := s.lookupMaxConn maxConn

/-- The `load_config` of a handler. -/
def loadConfig (h : Handler) (maxConn : Option Int) : Server :=
  match h with
  | .echo => s.echoLoadConfig maxConn
  | .pubsub => s.psubLoadConfig maxConn
  | .httpPubsub => s.httpPsubLoadConfig maxConn
  | .http | .memcached => s

/-- `config_load`: the handlers are loaded in the order the configuration names them, each with its own limit. -/
def configLoad (limits : Handler → Int) (order : List Handler) : Server :=
  order.foldl (fun s h => s.loadConfig h (some (limits h))) s

/-! ## The connections of a handler -/

/-- The descriptors of the connections of a handler. -/
def openOn (h : Handler) : Set Fd := {fd | s.serves h fd = true}

/-- How many connections of a handler are open. -/
noncomputable def openCount (h : Handler) : Nat := (s.openOn h).ncard

/-- How many connections that count in `_stat` are open. -/
noncomputable def countedOpen : Nat := s.openCount .echo + s.openCount .pubsub + s.openCount .httpPubsub

/-- Everything an event can do to the connections and to `_stat`. -/
inductive Changed (r : Server) : Event → Prop
  | kept {e : Event} (he : ∀ h fd, e = .accept h fd →
    h.counted = true ∧ s.full = true ∧ fd ∉ s.openOn h) (hopen : ∀ h, r.openOn h = s.openOn h)
    (hstat : r.stat = s.stat) : Changed r e
  | taken {h : Handler} {fd : Fd} (hnew : ∀ h', fd ∉ s.openOn h') (hfull : h.counted = true → s.full = false)
    (hopen : ∀ h', r.openOn h' = if h' = h then insert fd (s.openOn h) else s.openOn h')
    (hstat : r.stat = { s.stat with conn := s.stat.conn + if h.counted then 1 else 0 }) : Changed r (.accept h fd)
  | closed {h : Handler} {fd : Fd} (hold : fd ∈ s.openOn h)
    (hopen : ∀ h', r.openOn h' = if h' = h then s.openOn h \ {fd} else s.openOn h')
    (hstat : r.stat = { s.stat with conn := s.stat.conn - if h.counted then 1 else 0 }) : Changed r (.close fd)

theorem serves_setFd (f : FdEntry → FdEntry) (h : Handler) (fd x : Fd) :
    (s.setFd fd f).serves h x =
      if x = fd then (f (s.fdtab fd)).isOpen && (f (s.fdtab fd)).owner = some h else s.serves h x := by
  by_cases hx : x = fd
  · subst hx
    simp [serves, setFd]
  · simp [serves, setFd, hx]

/-- A write to an entry of `fdtab` that leaves whose connection it is. -/
def SameOwner (f : FdEntry → FdEntry) : Prop := ∀ e, (f e).isOpen = e.isOpen ∧ (f e).owner = e.owner

theorem serves_setFd_same {f : FdEntry → FdEntry} (hf : SameOwner f) (h : Handler) (fd x : Fd) :
    (s.setFd fd f).serves h x = s.serves h x := by
  rw [serves_setFd, (hf _).1, (hf _).2]
  split
  · next hx =>
    subst hx
    rfl
  · rfl

theorem openOn_setFd {f : FdEntry → FdEntry} (hf : SameOwner f) (h : Handler) (fd : Fd) :
    (s.setFd fd f).openOn h = s.openOn h := by
  ext x
  simp only [openOn, Set.mem_ofPred_eq, serves_setFd_same s hf]

/-- Past the limit a handler that counts refuses the connection. -/
theorem handlerAccept_refused {h : Handler} (hc : h.counted = true) (hf : s.full = true) (fd : Fd) :
    ∃ f, SameOwner f ∧ s.handlerAccept h fd = (s.setFd fd f, false) := by
  cases h with
  | http | memcached => nomatch hc
  | echo | pubsub => exact ⟨fun e => { e with wrBuf := true }, fun _ => ⟨rfl, rfl⟩, if_pos hf⟩
  | httpPubsub =>
    refine ⟨id, fun _ => ⟨rfl, rfl⟩, (if_pos hf).trans ?_⟩
    simp [setFd]

/-- In all other cases the connection is taken, and counted. -/
theorem handlerAccept_taken {h : Handler} (hf : h.counted = true → s.full = false) (fd : Fd) :
    ∃ f, SameOwner f ∧
      s.handlerAccept h fd = ({ s with stat.conn := s.stat.conn + if h.counted then 1 else 0 }.setFd fd f, true) := by
  cases h with
  | http =>
    refine ⟨fun e => { e with wrBuf := true }, fun _ => ⟨rfl, rfl⟩, ?_⟩
    simp only [Handler.counted, Bool.false_eq_true, if_false, Int.add_zero]
    rfl
  | memcached =>
    refine ⟨fun e => { e with wrBuf := true, session := none }, fun _ => ⟨rfl, rfl⟩, ?_⟩
    simp only [Handler.counted, Bool.false_eq_true, if_false, Int.add_zero]
    rfl
  | echo | pubsub => exact ⟨fun e => { e with wrBuf := true }, fun _ => ⟨rfl, rfl⟩,
    if_neg (ne_true_of_eq_false (hf rfl))⟩
  | httpPubsub =>
    exact ⟨fun e => { e with wrBuf := true, session := some ⟨none, none⟩ }, fun _ => ⟨rfl, rfl⟩,
      if_neg (ne_true_of_eq_false (hf rfl))⟩

theorem eventAccept_refused {h : Handler} (hc : h.counted = true) (hf : s.full = true) (fd : Fd) :
    (∀ h', (s.eventAccept h fd).1.openOn h' = s.openOn h') ∧ (s.eventAccept h fd).1.stat = s.stat := by
  obtain ⟨f, hsame, heq⟩ := s.handlerAccept_refused hc hf fd
  rw [eventAccept, heq]
  exact ⟨fun h' => s.openOn_setFd hsame h' fd, rfl⟩

theorem eventAccept_taken {h : Handler} (hf : h.counted = true → s.full = false) (fd : Fd) :
    (∀ h' x, (s.eventAccept h fd).1.serves h' x = if x = fd then decide (h' = h) else s.serves h' x) ∧
      (s.eventAccept h fd).1.stat = { s.stat with conn := s.stat.conn + if h.counted then 1 else 0 } := by
  obtain ⟨f, hsame, heq⟩ := s.handlerAccept_taken hf fd
  rw [eventAccept, heq]
  refine ⟨?_, rfl⟩
  intro h' x
  simp only [if_true, serves_setFd]
  split
  · simp [eq_comm]
  · rfl

theorem handlerDisconnect_connections (h : Handler) (fd : Fd) :
    (∀ h' x, (s.handlerDisconnect h fd).serves h' x = s.serves h' x) ∧
      (s.handlerDisconnect h fd).stat = { s.stat with conn := s.stat.conn - if h.counted then 1 else 0 } := by
  cases h with
  | echo => exact ⟨fun h' x =>
    serves_setFd_same _ (f := fun e => { e with wrBuf := false }) (fun _ => ⟨rfl, rfl⟩) h' fd x, rfl⟩
  | pubsub => exact ⟨fun _ _ => rfl, rfl⟩
  | httpPubsub =>
    exact ⟨fun h' x => serves_setFd_same _ (f := fun e => { e with wrBuf := false, session := none })
      (fun _ => ⟨rfl, rfl⟩) h' fd x, rfl⟩
  | http => exact ⟨fun _ _ => rfl, by simp [handlerDisconnect, Handler.counted]⟩
  | memcached =>
    exact ⟨fun h' x => serves_setFd_same _ (f := fun e => { e with session := none }) (fun _ => ⟨rfl, rfl⟩) h' fd x,
      by simp [handlerDisconnect, Handler.counted, setFd]⟩

theorem close_connections (h : Handler) (fd : Fd) :
    (∀ h' x, (s.close h fd).serves h' x = if x = fd then false else s.serves h' x) ∧
      (s.close h fd).stat = { s.stat with conn := s.stat.conn - if h.counted then 1 else 0 } := by
  obtain ⟨hserves, hstat⟩ := (s.setFd fd fun e => { e with isOpen := false }).handlerDisconnect_connections h fd
  refine ⟨?_, hstat⟩
  intro h' x
  rw [close, hserves, serves_setFd, Bool.false_and]

theorem process_connections (fd : Fd) (content : Mem) (delim : UInt8) (sup : Supply) (rands : List Nat) :
    (∀ h, (s.process fd content delim sup rands).1.openOn h = s.openOn h) ∧
      (s.process fd content delim sup rands).1.stat = s.stat := by
  obtain ⟨cookieList, h⟩ := s.process_eq fd content delim sup rands
  rw [h]
  exact ⟨fun _ => rfl, rfl⟩

theorem step_changed {e : Event} {r : Server × List Obs} (hs : s.step e = some r) : s.Changed r.1 e := by
  cases step_cases hs with
  | @accept h fd hclosed =>
    by_cases hf : h.counted = true ∧ s.full = true
    · obtain ⟨hopen, hstat⟩ := s.eventAccept_refused hf.1 hf.2 fd
      refine .kept (fun h' fd' he => ?_) hopen hstat
      cases he
      exact ⟨hf.1, hf.2, by simp [openOn, serves, hclosed]⟩
    · have hf' : h.counted = true → s.full = false := by
        intro hc
        simpa [hc] using hf
      obtain ⟨hopen, hstat⟩ := s.eventAccept_taken hf' fd
      refine .taken (fun h' hm => ?_) hf' (fun h' => ?_) hstat
      · simp [openOn, serves, hclosed] at hm
      · ext x
        simp only [openOn, Set.mem_ofPred_eq, hopen]
        by_cases hh : h' = h <;> by_cases hx : x = fd <;> simp [hh, hx, serves, hclosed]
  | command =>
    obtain ⟨hopen, hstat⟩ := s.process_connections _ _ _ _ _
    exact .kept (by simp) hopen hstat
  | @url fd bytes =>
    exact .kept (by simp)
      (fun h => s.openOn_setFd (f := fun e => { e with session := e.session.map (httpOnUrl · bytes) })
      (fun _ => ⟨rfl, rfl⟩) h fd) rfl
  | @headerField fd mem =>
    exact .kept (by simp)
      (fun h => s.openOn_setFd (f := fun e => { e with session := e.session.map (httpOnHeaderField · mem) })
      (fun _ => ⟨rfl, rfl⟩) h fd) rfl
  | @msgComplete fd sup rands behind sess =>
    have hattach : (∀ h, (s.attachCookie fd sess sup).1.openOn h = s.openOn h) ∧
        (s.attachCookie fd sess sup).1.stat = s.stat := by
      unfold attachCookie
      split <;> exact ⟨fun _ => rfl, rfl⟩
    unfold httpOnMsgComplete
    dsimp only
    split
    · exact .kept (by simp) hattach.1 hattach.2
    · obtain ⟨hopen, hstat⟩ := (s.attachCookie fd sess sup).1.process_connections fd _ 47 sup rands
      exact .kept (by simp) (fun h => (hopen h).trans (hattach.1 h)) (hstat.trans hattach.2)
  | @close fd h hopened howner =>
    obtain ⟨hopen, hstat⟩ := s.close_connections h fd
    refine .closed (by simp [openOn, serves, hopened, howner]) (fun h' => ?_) hstat
    ext x
    simp only [openOn, Set.mem_ofPred_eq, hopen]
    by_cases hh : h' = h
    · by_cases hx : x = fd <;> simp [hh, hx]
    · by_cases hx : x = fd
      · simp [hh, hx, serves, howner, Ne.symm hh]
      · simp [hh, hx]

/-! ## What `_stat` counts -/

/-- `_stat` counts the connections of the three handlers, and has the limit loaded last. -/
structure Counts (loaded : Int) : Prop where
  finite : ∀ h, (s.openOn h).Finite
  conn : s.stat.conn = s.countedOpen
  maxConn : s.stat.maxConn = loaded

variable {s} {r : Server} {loaded : Int}

theorem Counts.full_iff (hi : s.Counts loaded) : s.full = true ↔ loaded ≤ s.countedOpen := by
  rw [full, decide_eq_true_eq, hi.conn, hi.maxConn]

theorem Counts.lt_of_not_full (hi : s.Counts loaded) (hf : s.full = false) : (s.countedOpen : Int) < loaded := by
  have hnot : ¬loaded ≤ s.countedOpen := by
    rw [← hi.full_iff, hf]
    exact Bool.false_ne_true
  omega

/-- One connection more of a handler. -/
theorem Counts.openCount_insert (hi : s.Counts loaded) {h : Handler} {fd : Fd} (hnew : fd ∉ s.openOn h)
    (hopen : ∀ h', r.openOn h' = if h' = h then insert fd (s.openOn h) else s.openOn h') (h' : Handler) :
    r.openCount h' = s.openCount h' + if h' = h then 1 else 0 := by
  rw [openCount, hopen]
  by_cases hh : h' = h
  · subst hh
    rw [if_pos rfl, if_pos rfl, Set.ncard_insert_of_notMem hnew (hi.finite h')]
    rfl
  · rw [if_neg hh, if_neg hh]
    rfl

/-- One connection less. -/
theorem Counts.openCount_diff (hi : s.Counts loaded) {h : Handler} {fd : Fd} (hold : fd ∈ s.openOn h)
    (hopen : ∀ h', r.openOn h' = if h' = h then s.openOn h \ {fd} else s.openOn h') (h' : Handler) :
    s.openCount h' = r.openCount h' + if h' = h then 1 else 0 := by
  rw [openCount, openCount, hopen]
  by_cases hh : h' = h
  · subst hh
    rw [if_pos rfl, if_pos rfl, Set.ncard_sdiff_singleton_add_one hold (hi.finite h')]
  · rw [if_neg hh, if_neg hh, Nat.add_zero]

theorem Counts.step {e : Event} (hi : s.Counts loaded) (hc : s.Changed r e) : r.Counts loaded := by
  cases hc with
  | kept he hopen hstat =>
    refine ⟨?_, ?_, ?_⟩
    · intro h
      rw [hopen]
      exact hi.finite h
    · rw [hstat, hi.conn]
      simp only [countedOpen, openCount, hopen]
    · rw [hstat, hi.maxConn]
  | @taken h fd hnew hfull hopen hstat =>
    have hcount := hi.openCount_insert (hnew h) hopen
    refine ⟨?_, ?_, ?_⟩
    · intro h'
      rw [hopen]
      split
      · exact (hi.finite h).insert fd
      · exact hi.finite h'
    · rw [hstat, hi.conn]
      simp only [countedOpen, hcount]
      cases h <;> simp [Handler.counted] <;> omega
    · rw [hstat, hi.maxConn]
  | @closed h fd hold hopen hstat =>
    have hcount := hi.openCount_diff hold hopen
    refine ⟨?_, ?_, ?_⟩
    · intro h'
      rw [hopen]
      split
      · exact (hi.finite h).sdiff
      · exact hi.finite h'
    · rw [hstat, hi.conn]
      simp only [countedOpen, hcount]
      cases h <;> simp [Handler.counted] <;> omega
    · rw [hstat, hi.maxConn]

/-- A handler that counts takes a connection just when the limit loaded last leaves room for it. -/
theorem Counts.accept_iff {h : Handler} {fd : Fd} (hi : s.Counts loaded) (hc : s.Changed r (.accept h fd))
    (hcounted : h.counted = true) :
    fd ∈ r.openOn h ↔ (s.countedOpen : Int) < loaded := by
  cases hc with
  | kept he hopen hstat =>
    obtain ⟨-, hfull, hnot⟩ := he h fd rfl
    have hle := hi.full_iff.mp hfull
    rw [hopen]
    exact iff_of_false hnot (by omega)
  | taken hnew hfull hopen hstat =>
    rw [hopen, if_pos rfl]
    exact iff_of_true (Set.mem_insert ..) (hi.lt_of_not_full (hfull hcounted))

/-- And then it has one more. -/
theorem Counts.accept_count {h : Handler} {fd : Fd} (hi : s.Counts loaded) (hc : s.Changed r (.accept h fd))
    (hroom : (s.countedOpen : Int) < loaded) : r.openCount h = s.openCount h + 1 := by
  cases hc with
  | kept he hopen hstat =>
    have hle := hi.full_iff.mp (he h fd rfl).2.1
    omega
  | taken hnew hfull hopen hstat => simpa using hi.openCount_insert (hnew h) hopen h

end Server

/-! ## Runs -/

/-- A configuration: the limit of every handler, and the order in which the three handlers are loaded. -/
structure Limits where
  limit : Handler → Int
  others : List Handler
  last : Handler
  all : (others ++ [last]).Perm [.echo, .pubsub, .httpPubsub]

namespace Limits

variable (l : Limits)

/-- The server once the configuration is loaded, before its first event. -/
def start (fdtab : Fd → FdEntry) : Observed := ((Server.init fdtab 0).configLoad l.limit (l.others ++ [l.last]), [])

/-- No handler has more connections open than its limit. -/
def Within (t : Observed) : Prop := ∀ h : Handler, h.counted = true → (t.1.openCount h : Int) ≤ l.limit h

/-- A connection to a handler that has fewer open than its limit is taken. -/
def AcceptsBelow (t : Observed) : Event → Observed → Prop
  | .accept h fd, t' => h.counted = true → (t.1.openCount h : Int) < l.limit h → fd ∈ t'.1.openOn h
  | _, _ => True

/-- Every handler is held to its own limit, in every state, and is refused nothing below it. -/
def Kept (t : Observed) (es : List Event) : Prop :=
  AllStates observedStep l.Within t es ∧ AllSteps observedStep l.AcceptsBelow t es

/-- When a connection arrives, the limit loaded last leaves room for it beside the connections of all three handlers
just when the handler's own limit leaves room for it beside the handler's own. -/
def Agree (t : Observed) : Event → Observed → Prop
  | .accept h _, _ => h.counted = true →
      ((t.1.countedOpen : Int) < l.limit l.last ↔ (t.1.openCount h : Int) < l.limit h)
  | _, _ => True

variable {l} {t t' : Observed} {e : Event}

theorem counted_of_mem (l : Limits) {h : Handler} (hh : h ∈ l.others ++ [l.last]) : h.counted = true := by
  have hmem := l.all.subset hh
  simp only [List.mem_cons, List.not_mem_nil, or_false] at hmem
  rcases hmem with rfl | rfl | rfl <;> rfl

theorem loadConfig_eq (s : Server) {h : Handler} (hh : h.counted = true) (m : Int) :
    s.loadConfig h (some m) = { s with stat.maxConn := m } := by
  cases h with
  | http | memcached => nomatch hh
  | echo | pubsub | httpPubsub => rfl

/-- The limit loaded last is that of all. -/
theorem start_eq (l : Limits) (fdtab : Fd → FdEntry) :
    (l.start fdtab).1 = { Server.init fdtab 0 with stat.maxConn := l.limit l.last } := by
  have hothers (s : Server) (order : List Handler) (ho : ∀ h ∈ order, h.counted = true) :
      ∃ m, s.configLoad l.limit order = { s with stat.maxConn := m } := by
    induction order generalizing s with
    | nil => exact ⟨s.stat.maxConn, rfl⟩
    | cons h order ih =>
      obtain ⟨hh, ho⟩ := List.forall_mem_cons.mp ho
      obtain ⟨m, hm⟩ := ih (s.loadConfig h (some (l.limit h))) ho
      refine ⟨m, hm.trans ?_⟩
      rw [loadConfig_eq s hh]
  obtain ⟨m, hm⟩ := hothers (Server.init fdtab 0) l.others fun h hh => l.counted_of_mem (List.mem_append_left _ hh)
  rw [Server.configLoad] at hm
  rw [start, Server.configLoad, List.foldl_append, hm, List.foldl_cons, List.foldl_nil]
  exact loadConfig_eq _ (l.counted_of_mem (by simp)) _

theorem openCount_start (l : Limits) (fdtab : Fd → FdEntry) (h : Handler) :
    (l.start fdtab).1.openOn h = ∅ ∧ (l.start fdtab).1.openCount h = 0 := by
  have hnone : (l.start fdtab).1.openOn h = ∅ := by
    ext x
    simp [start_eq, Server.openOn, Server.serves, Server.init]
  refine ⟨hnone, ?_⟩
  rw [Server.openCount, hnone, Set.ncard_empty]

theorem counts_start (l : Limits) (fdtab : Fd → FdEntry) : (l.start fdtab).1.Counts (l.limit l.last) := by
  refine ⟨?_, ?_, ?_⟩
  · intro h
    rw [(openCount_start l fdtab h).1]
    exact Set.finite_empty
  · have hcount : (l.start fdtab).1.countedOpen = 0 := by
      simp [Server.countedOpen, openCount_start]
    rw [hcount, start_eq]
    rfl
  · rw [start_eq]

theorem observed_changed (hs : observedStep t e = some t') : t.1.Changed t'.1 e := by
  obtain ⟨seen, hstep, -⟩ := observed_step hs
  have hch := t.1.step_changed hstep
  exact hch

theorem counts_step (hi : t.1.Counts (l.limit l.last)) (hs : observedStep t e = some t') :
    t'.1.Counts (l.limit l.last) :=
  hi.step (observed_changed hs)

/-- What an event adds to the connections of a handler, it adds below the limit loaded last. -/
theorem openCount_step (hi : t.1.Counts (l.limit l.last)) (hs : observedStep t e = some t') {h : Handler}
    (hc : h.counted = true) :
    t'.1.openCount h ≤ t.1.openCount h ∨
      t'.1.openCount h = t.1.openCount h + 1 ∧ (t.1.countedOpen : Int) < l.limit l.last ∧ ∃ fd, e = .accept h fd := by
  cases observed_changed hs with
  | kept he hopen hstat =>
    refine .inl ?_
    simp only [Server.openCount, hopen, le_refl]
  | @taken h' fd hnew hfull hopen hstat =>
    have hcount := hi.openCount_insert (hnew h') hopen h
    by_cases hh : h = h'
    · subst hh
      exact .inr ⟨by simpa using hcount, hi.lt_of_not_full (hfull hc), fd, rfl⟩
    · rw [if_neg hh] at hcount
      exact .inl hcount.le
  | closed hold hopen hstat =>
    have hcount := hi.openCount_diff hold hopen h
    exact .inl (by rw [hcount]; exact Nat.le_add_right ..)

/-- A step that is in agreement keeps the handlers within their limits. -/
theorem within_step (hi : t.1.Counts (l.limit l.last)) (hw : l.Within t) (hs : observedStep t e = some t')
    (ha : l.Agree t e t') :
    l.Within t' := by
  intro h hc
  have hle := hw h hc
  rcases openCount_step hi hs hc with hcount | ⟨hcount, hroom, fd, rfl⟩
  · omega
  · have hlt := (ha hc).mp hroom
    omega

theorem acceptsBelow_of_agree (hi : t.1.Counts (l.limit l.last)) (hs : observedStep t e = some t')
    (ha : l.Agree t e t') :
    l.AcceptsBelow t e t' := by
  cases e with
  | accept h fd => exact fun hc hlt => (hi.accept_iff (observed_changed hs) hc).mpr ((ha hc).mpr hlt)
  | command | url | headerField | msgComplete | close => trivial

/-- A step that accepts below the limit and leads to a state within the limits is in agreement. -/
theorem agree_of_kept (hi : t.1.Counts (l.limit l.last)) (hs : observedStep t e = some t') (hw : l.Within t')
    (ha : l.AcceptsBelow t e t') : l.Agree t e t' := by
  cases e with
  | accept h fd =>
    intro hc
    have hiff := hi.accept_iff (observed_changed hs) hc
    constructor
    · intro hroom
      have hle := hw h hc
      have hcount := hi.accept_count (observed_changed hs) hroom
      omega
    · intro hlt
      exact hiff.mp (ha hc hlt)
  | command | url | headerField | msgComplete | close => trivial

/-- Each handler is held to its own limit, and to nothing less, exactly where no limit is negative and, whenever a
connection arrives, the limit loaded last leaves room for it just when the handler's own does. -/
theorem limits_kept_iff (l : Limits) (fdtab : Fd → FdEntry) (es : List Event) :
    l.Kept (l.start fdtab) es ↔
      (∀ h : Handler, h.counted = true → 0 ≤ l.limit h) ∧ AllSteps observedStep l.Agree (l.start fdtab) es := by
  have hcounts : AllStates observedStep (fun t => t.1.Counts (l.limit l.last)) (l.start fdtab) es :=
    .of_step (I := fun t => t.1.Counts (l.limit l.last)) (counts_start l fdtab)
      (fun t e t' hi hs => counts_step hi hs) es
  constructor
  · rintro ⟨hwithin, haccepts⟩
    refine ⟨fun h hc => ?_, ?_⟩
    · have hw := hwithin.head h hc
      rwa [(openCount_start l fdtab h).2] at hw
    · -- a connection taken is within the handler's limit
      have hroom : AllSteps observedStep (fun t e t' => t.1.Counts (l.limit l.last) ∧ observedStep t e = some t' ∧
          l.Within t') (l.start fdtab) es :=
        .of_allStates (fun t e t' hi hs hi' => ⟨hi.1, hs, hi'.2⟩) (hcounts.and hwithin)
      refine (hroom.and haccepts).mono ?_
      rintro t e t' ⟨⟨hi, hs, hw⟩, ha⟩
      exact agree_of_kept hi hs hw ha
  · rintro ⟨hpos, hagree⟩
    have hstart : l.Within (l.start fdtab) := by
      intro h hc
      rw [(openCount_start l fdtab h).2]
      exact hpos h hc
    have hkeep : ∀ t e t', t.1.Counts (l.limit l.last) ∧ l.Within t → observedStep t e = some t' → l.Agree t e t' →
        t'.1.Counts (l.limit l.last) ∧ l.Within t' :=
      fun t e t' hi hs ha => ⟨counts_step hi.1 hs, within_step hi.1 hi.2 hs ha⟩
    have hinv := AllStates.of_invariant ⟨counts_start l fdtab, hstart⟩ hkeep hagree
    exact ⟨hinv.mono fun t hi => hi.2,
      .of_invariant ⟨counts_start l fdtab, hstart⟩ hkeep
      (fun t e t' hi hs ha => acceptsBelow_of_agree hi.1 hs ha) hagree⟩

/-- Three limits of which the last one loaded is the smallest: one connection for the HTTP front end, two for each
other handler. -/
def uneven : Limits where
  limit := fun h => if h = .httpPubsub then 1 else 2
  others := [.echo, .pubsub]
  last := .httpPubsub
  all := .refl _

/-- With one echo connection open, the plain front end refuses its first one. -/
theorem limit_shared : ¬∀ (l : Limits) (fdtab : Fd → FdEntry) (es : List Event), l.Kept (l.start fdtab) es := by
  intro h
  set t : Observed := uneven.start fun _ => ⟨false, none, false, none⟩ with ht
  have hsecond := (((h uneven (fun _ => ⟨false, none, false, none⟩) [.accept .echo 5, .accept .pubsub 6]).2 _ rfl).2
    _ rfl).1 rfl
  have hcount : (t.1.eventAccept .echo 5).1.openCount .pubsub = 0 := by
    have hnone : (t.1.eventAccept .echo 5).1.openOn .pubsub = ∅ := by
      ext x
      have hstart : t.1.serves .pubsub x = false := rfl
      simp only [Server.openOn, Set.mem_ofPred_eq, (t.1.eventAccept_taken (h := .echo) (fun _ => rfl) 5).1, hstart]
      split <;> simp
    rw [Server.openCount, hnone, Set.ncard_empty]
  have hin := hsecond (lt_of_eq_of_lt (congrArg Int.ofNat hcount) (by decide))
  simp only [Server.openOn, Set.mem_ofPred_eq] at hin
  revert hin
  decide +kernel

end Limits

end ZeroServ
