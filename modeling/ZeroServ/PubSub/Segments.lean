import ZeroServ.PubSub.PlainText
import ZeroServ.PubSub.Requests

/-!
# How an HTTP request arrives

The bytes of a request come in as many `recv` results as the network makes of them, and the parser reports of each
the parts of the URL and of the header names that it holds. `http_on_url` stores the part it is given in place of the
one before; `http_on_header_field` looks for the session cookie in what was received with the part of the name, and
in whatever memory holds behind that.

`http_segmentation_iff`: two ways of cutting a request lead to the same URL text and the same session cookie,
whatever is in memory, exactly when the last parts they report do.
-/

namespace ZeroServ

open CString Run

/-! ## Requests and their parts -/

/-- What the parser reports of a part of a request, to the callbacks that are set. -/
inductive Report where
  | none | url | field
  deriving DecidableEq, Repr

structure Piece where
  report : Report
  bytes : List UInt8
  deriving DecidableEq, Repr

/-- Text that is not reported. -/
def Piece.text (bytes : List UInt8) : Piece := ⟨.none, bytes⟩

/-- A request: the method, the URL, the header names, each with the text in front of it, and the text behind the last
of them, the body in it. -/
structure HttpRequest where
  method : List UInt8
  url : List UInt8
  headers : List (List UInt8 × List UInt8)
  last : List UInt8

namespace HttpRequest

def pieces (req : HttpRequest) : List Piece :=
  .text req.method :: ⟨.url, req.url⟩ :: (req.headers.flatMap fun h => [.text h.1, ⟨.field, h.2⟩]) ++ [.text req.last]

def bytes (req : HttpRequest) : List UInt8 := req.pieces.flatMap Piece.bytes

end HttpRequest

/-- A way of cutting the bytes of a request into `recv` results. -/
structure Cut (req : HttpRequest) where
  chunks : List (List UInt8)
  whole : chunks.flatten = req.bytes
  nonempty : ∀ bytes ∈ chunks, bytes ≠ []
  fits : ∀ bytes ∈ chunks, bytes.length ≤ 1024

/-! ## The parser -/

def Piece.call (p : Piece) (ofs len : Nat) : List Callback :=
  match p.report with
  | .none => []
  | .url => [.url ofs len]
  | .field => [.headerField ofs len]

/-- The callbacks for `n` bytes at `ofs` that the pieces begin with, and the pieces still to come, the first of them
without what was received of it. `edges` says whether an empty part is reported of a URL or a header name that ended
with the `recv` result before, as the parser under `handler/http` does. -/
def feed (edges : Bool) : List Piece → Nat → Nat → List Callback × List Piece
  | [], _, _ => ([.msgComplete], [])
  | p :: ps, n, ofs =>
    if n = 0 then ([], p :: ps)
    else if n < p.bytes.length ∨ (n = p.bytes.length ∧ edges = true ∧ p.report ≠ .none) then
      (p.call ofs n, { p with bytes := p.bytes.drop n } :: ps)
    else
      let (calls, left) := feed edges ps (n - p.bytes.length) (ofs + p.bytes.length)
      (p.call ofs p.bytes.length ++ calls, left)

theorem call_inside (p : Piece) (ofs len : Nat) {c : Callback} (h : c ∈ p.call ofs len) : c.inside (ofs + len) := by
  unfold Piece.call at h
  split at h
  · nomatch h
  · rw [List.mem_singleton.mp h]
    exact Nat.le_refl _
  · rw [List.mem_singleton.mp h]
    exact Nat.le_refl _

theorem Callback.inside.mono {c : Callback} {m n : Nat} (h : c.inside m) (hmn : m ≤ n) : c.inside n := by
  cases c with
  | url | headerField => exact Nat.le_trans h hmn
  | msgComplete => trivial

/-- What is reported lies in what was received. -/
theorem feed_inside (edges : Bool) (ps : List Piece) (n ofs : Nat) :
    ∀ c ∈ (feed edges ps n ofs).1, c.inside (ofs + n) := by
  induction ps generalizing n ofs with
  | nil =>
    intro c hc
    rw [List.mem_singleton.mp hc]
    trivial
  | cons p ps ih =>
    intro c hc
    unfold feed at hc
    split_ifs at hc with hn hlt
    · nomatch hc
    · exact call_inside p ofs n hc
    · have hle : p.bytes.length ≤ n := by
        rw [not_or, Nat.not_lt] at hlt
        exact hlt.1
      rcases List.mem_append.mp hc with hc | hc
      · exact (call_inside p ofs _ hc).mono (by omega)
      · exact (ih _ _ c hc).mono (by omega)

/-- The parser, whose state is the pieces still to come. -/
def segmentParser (edges : Bool) : HttpParser (List Piece) where
  execute := fun ps bytes => ⟨(feed edges ps bytes.length 0).1, bytes.length, false, (feed edges ps bytes.length 0).2⟩
  inside := by
    intro ps bytes c hc
    have hin := feed_inside edges ps bytes.length 0 c hc
    rwa [Nat.zero_add] at hin

/-! ## The session of a request -/

/-- One callback on the session of its connection. -/
def Session.callback (recv : Recv) (sess : Session) : Callback → Session
  | .url ofs len => Server.httpOnUrl sess ((recv.bytes.drop ofs).take len)
  | .headerField ofs _ => Server.httpOnHeaderField sess ((recv.bytes ++ recv.behind).drop ofs)
  | .msgComplete => sess

/-- The session of a request when all of it was received, which is when `http_on_msg_complete` runs. -/
def sessionAt (edges : Bool) : List Piece → Session → List Recv → Session
  | _, sess, [] => sess
  | ps, sess, recv :: recvs =>
    let parsed := (segmentParser edges).execute ps recv.bytes
    sessionAt edges parsed.parser (parsed.callbacks.foldl (Session.callback recv) sess) recvs

/-- What `http_on_msg_complete` uses of a session: the text of the URL, and the cookie. -/
def Session.used (sess : Session) : Option (List UInt8) × Option (List UInt8) := (sess.url.map cstr, sess.cookie)

/-- The callbacks of a read in front of the end of a request, on the server: the session of the connection goes as it
does here. -/
theorem exec_callbacks {fd : Fd} {recv : Recv} {t t' : Observed} {cs : List (Callback × CallEnv)} {sess : Session}
    (h : exec (callStep fd recv.bytes recv.behind) t cs = some t') (hsess : (t.1.fdtab fd).session = some sess)
    (hcs : ∀ c ∈ cs, c.1 ≠ .msgComplete) :
    (t'.1.fdtab fd).session = some ((cs.map Prod.fst).foldl (Session.callback recv) sess) := by
  induction cs generalizing t sess with
  | nil =>
    cases h
    exact hsess
  | cons c cs ih =>
    rw [exec_cons, Option.bind_eq_some_iff] at h
    obtain ⟨t₁, hs, h⟩ := h
    refine ih h ?_ (fun c' hc' => hcs c' (List.mem_cons_of_mem _ hc'))
    obtain ⟨⟨s₁, seen⟩, hstep, rfl⟩ := Option.map_eq_some_iff.mp hs
    obtain ⟨c, env⟩ := c
    have hfd : ∀ f : FdEntry → FdEntry, (t.1.setFd fd f).fdtab fd = f (t.1.fdtab fd) := fun f => if_pos rfl
    cases c with
    | msgComplete => exact absurd rfl (hcs _ List.mem_cons_self)
    | url ofs len =>
      cases Server.step_cases hstep
      dsimp only
      rw [hfd, hsess]
      rfl
    | headerField ofs len =>
      cases Server.step_cases hstep
      dsimp only
      rw [hfd, hsess]
      rfl

/-! ## What decides -/

/-- What was received from a part of a header name on decides on the cookie: it breaks off inside the word `Cookie`;
or it opens with that, and holds a `zchat=` in front of the first NUL, or no NUL. -/
def Decides (s : Mem) : Prop :=
  (s <+: lit "Cookie" ∧ s ≠ lit "Cookie") ∨ (lit "Cookie" <+: s ∧ ((0 : UInt8) ∉ s ∨ lit "zchat=" <:+: cstr s))

instance (s : Mem) : Decidable (Decides s) := by
  unfold Decides
  infer_instance

/-- The bytes hold a `zchat=`, and behind the first one the carriage return that ends the cookie, or, in front of
any, a NUL, and there is no cookie. -/
def Conveys (s : List UInt8) (cookie : Option (List UInt8)) : Prop :=
  ∃ before value stop rest, s = before ++ (value ++ stop :: rest) ∧ lit "zchat=" <+: value ∧ ¬lit "zchat=" <:+: before ∧
    (0 : UInt8) ∉ before ∧
    (0 : UInt8) ∉ value ∧ (13 : UInt8) ∉ value ∧ (stop = 13 ∧ cookie = some value ∨ stop = 0 ∧ cookie = none)

/-- The text that a part of the URL decodes to. -/
def uriText (part : List UInt8) : List UInt8 := cstr (uriDecode (cstr part)).1

/-- The last reports of a request: the part of the URL, and what was received from the part of a header name on that
decides. -/
structure Reported where
  url : Option (List UInt8)
  cookie : Option Mem
  deriving DecidableEq

/-- The last reports after one more callback, which points into these bytes. -/
def Reported.callback (bytes : List UInt8) (last : Reported) : Callback → Reported
  | .url ofs len => { last with url := some ((bytes.drop ofs).take len) }
  | .headerField ofs _ => if Decides (bytes.drop ofs) then { last with cookie := some (bytes.drop ofs) } else last
  | .msgComplete => last

/-- The last reports of a request that is cut in these pieces. -/
def reportedAt (edges : Bool) : List Piece → Reported → List (List UInt8) → Reported
  | _, last, [] => last
  | ps, last, bytes :: chunks =>
    let parsed := (segmentParser edges).execute ps bytes
    reportedAt edges parsed.parser (parsed.callbacks.foldl (Reported.callback bytes) last) chunks

theorem prefix_cstr_iff {w s : List UInt8} (hw : (0 : UInt8) ∉ w) : w <+: cstr s ↔ w <+: s := by
  constructor
  · exact fun h => h.trans (List.takeWhile_prefix _)
  · rintro ⟨t, rfl⟩
    rw [cstr_append hw]
    exact List.prefix_append w _

/-- What decides leaves open what `http_on_header_field` does, or has a `zchat=` that is found. -/
theorem decides_iff {s : Mem} : Decides s ↔
    ¬FieldClosed s ∨ (lit "Cookie" <+: s ∧ (strstr s (lit "zchat=")).isSome = true) := by
  have hcut : s <+: lit "Cookie" ∧ s ≠ lit "Cookie" ↔
    ¬(s <+: lit "Cookie" → s = lit "Cookie") := by rw [Classical.not_imp]
  rw [Decides, hcut, FieldClosed, ← strstr_isSome_iff (by decide)]
  by_cases hword : s <+: lit "Cookie" → s = lit "Cookie"
  · rw [or_iff_right (not_not.mpr hword)]
    by_cases hopens : lit "Cookie" <+: s
    · cases strstr s (lit "zchat=") with
      | none => simp [hopens, eq_true hword]
      | some name => simp [hopens]
    · simp [hopens, eq_true hword]
  · exact iff_of_true (.inl hword) (.inl fun h => hword h.1)

/-- A word in front of a byte that it does not hold. -/
theorem prefix_of_not_mem {w a b : List UInt8} {c : UInt8} (hc : c ∉ w) (h : w <+: a ++ c :: b) : w <+: a := by
  rcases Nat.lt_or_ge a.length w.length with hlt | hge
  · have hsplit : a ++ [c] <+: w := by
      refine List.prefix_of_prefix_length_le ⟨b, by simp⟩ h ?_
      rw [List.length_append]
      exact hlt
    exact absurd (hsplit.subset (by simp)) hc
  · exact List.prefix_of_prefix_length_le h (List.prefix_append a _) hge

/-- What does not decide leaves the session as it is. -/
theorem httpOnHeaderField_undecided {s : Mem} (h : ¬Decides s) (sess : Session) (t : Mem) :
    Server.httpOnHeaderField sess (s ++ t) = sess := by
  rw [decides_iff, not_or, not_not, not_and] at h
  obtain ⟨hclosed, hfind⟩ := h
  rw [httpOnHeaderField_closed hclosed]
  unfold Server.httpOnHeaderField
  split
  · next hword =>
    have hnone := hfind ((prefix_cstr_iff (by decide)).mp ((compare_iff s).mp hword))
    rw [Option.not_isSome_iff_eq_none] at hnone
    rw [hnone]
  · rfl

/-- What `http_on_header_field` stores where a `zchat=` is found. -/
def cookieAt (s : Mem) : Option (List UInt8) :=
  (strstr s (lit "zchat=")).bind fun name => (strchr name 13).map fun pos => strndup name (name.length - pos.length)

/-- What decides and is closed stores its cookie. -/
theorem httpOnHeaderField_decided {s : Mem} (h : Decides s) (hclosed : FieldClosed s) (sess : Session) (t : Mem) :
    Server.httpOnHeaderField sess (s ++ t) = { sess with cookie := cookieAt s } := by
  obtain ⟨hword, hfind⟩ := (decides_iff.mp h).resolve_left (not_not.mpr hclosed)
  obtain ⟨name, hname⟩ := Option.isSome_iff_exists.mp hfind
  rw [httpOnHeaderField_closed hclosed]
  unfold Server.httpOnHeaderField
  rw [if_pos ((compare_iff s).mpr ((prefix_cstr_iff (by decide)).mpr hword)), hname, cookieAt, hname]
  rfl

/-- A cookie that was received with its end is the one that is stored. -/
theorem Conveys.stored {s : Mem} {cookie : Option (List UInt8)} (h : Conveys s cookie) :
    FieldClosed s ∧ cookieAt s = cookie := by
  obtain ⟨before, value, stop, rest, rfl, ⟨v, rfl⟩, hbefore, h0, hv0, hv13, hstop⟩ := h
  have hfind : strstr (before ++ (lit "zchat=" ++ v ++ stop :: rest)) (lit "zchat=") =
      some (lit "zchat=" ++ v ++ stop :: rest) := by
    rw [List.append_assoc]
    exact strstr_append_self (by decide) h0 (strstr_eq_none hbefore) _
  refine ⟨⟨fun hp => ?_, fun _ => ?_⟩, ?_⟩
  · have hin : lit "zchat=" <:+: before ++ (lit "zchat=" ++ v ++ stop :: rest) :=
      ⟨before, v ++ stop :: rest, by simp only [List.append_assoc]⟩
    exact absurd (hin.trans hp.isInfix) (by decide)
  · rcases hstop with ⟨rfl, -⟩ | ⟨rfl, -⟩
    · exact .inr ⟨_, hfind, by simp⟩
    · exact .inl (by simp)
  · rw [cookieAt, hfind, Option.bind_some]
    rcases hstop with ⟨rfl, rfl⟩ | ⟨rfl, rfl⟩
    · rw [strchr_append_cons hv13 hv0, Option.map_some, List.length_append, Nat.add_sub_cancel, strndup,
        cstr_append hv0, List.take_left]
    · rw [strchr_eq_none_of_cstr (by decide) (by rwa [cstr_append_nul hv0]), Option.map_none]

/-- There is one such cookie at most. -/
theorem Conveys.unique {s : Mem} {cookie cookie' : Option (List UInt8)} (h : Conveys s cookie)
    (h' : Conveys s cookie') :
    cookie = cookie' := h.stored.2.symm.trans h'.stored.2

/-- The cookie stays the same with more bytes behind it. -/
theorem Conveys.append {s : Mem} {cookie : Option (List UInt8)} (h : Conveys s cookie) (t : Mem) :
    Conveys (s ++ t) cookie := by
  obtain ⟨before, value, stop, rest, rfl, hrest⟩ := h
  exact ⟨before, value, stop, rest ++ t, by simp, hrest⟩

/-- What decides and is closed has a cookie, or a NUL in its place. -/
theorem conveys_of_closed {s : Mem} (h : Decides s) (hclosed : FieldClosed s) : Conveys s (cookieAt s) := by
  suffices hex : ∃ cookie, Conveys s cookie by
    obtain ⟨cookie, hreceived⟩ := hex
    rwa [hreceived.stored.2]
  obtain ⟨hword, hfind⟩ := (decides_iff.mp h).resolve_left (not_not.mpr hclosed)
  obtain ⟨name, hname⟩ := Option.isSome_iff_exists.mp hfind
  obtain ⟨before, rfl, h0, hzchat, hfirst⟩ := strstr_first (by decide) hname
  have hend : (0 : UInt8) ∈ name ∨ (13 : UInt8) ∈ name := by
    rcases hclosed.2 hword with h0' | ⟨name', hname', h13⟩
    · exact .inl ((List.mem_append.mp h0').resolve_left h0)
    · obtain rfl := Option.some.inj (hname.symm.trans hname')
      exact .inr h13
  cases hchr : strchr name 13 with
  | some pos =>
    obtain ⟨value, rest, rfl, rfl, h13, hv0⟩ := strchr_eq_some hchr
    exact ⟨some value, before, value, 13, rest, rfl, prefix_of_not_mem (by decide) hzchat, hfirst, h0, hv0, h13,
      .inl ⟨rfl, rfl⟩⟩
  | none =>
    obtain ⟨value, rest, rfl, hv0⟩ := List.eq_append_cons_of_mem (nul_mem_of_strchr_none hchr hend)
    refine ⟨none, before, value, 0, rest, rfl, prefix_of_not_mem (by decide) hzchat, hfirst, h0, hv0, fun h13 => ?_,
      .inr ⟨rfl, rfl⟩⟩
    obtain ⟨a, b, rfl, ha⟩ := List.eq_append_cons_of_mem h13
    rw [List.append_assoc, List.cons_append, strchr_append_cons ha fun h => hv0 (List.mem_append_left _ h)] at hchr
    cases hchr

theorem url_httpOnUrl (sess : Session) (part : List UInt8) :
    (Server.httpOnUrl sess part).url.map cstr = some (uriText part) := by
  have hzeros : ∀ n, cstr (List.replicate n 0) = [] := fun n => by cases n <;> rfl
  rw [Server.httpOnUrl, Option.map_some, uriText]
  by_cases h0 : (0 : UInt8) ∈ (uriDecode (cstr part)).1
  · rw [cstr_append_of_mem h0]
  · rw [cstr_append h0, hzeros, List.append_nil, cstr_eq_self h0]

theorem httpOnHeaderField_url (sess : Session) (mem : Mem) : (Server.httpOnHeaderField sess mem).url = sess.url := by
  unfold Server.httpOnHeaderField
  split
  · split <;> rfl
  · rfl

/-- What a session owes to the last reports of its request, where `behinds` holds what memory held behind the bytes
received. -/
structure Tracks (behinds : List Mem) (sess₀ sess : Session) (last : Reported) : Prop where
  url : sess.url.map cstr = last.url.elim (sess₀.url.map cstr) fun part => some (uriText part)
  kept : last.cookie = none → sess.cookie = sess₀.cookie
  stored : ∀ s ∈ last.cookie, Decides s ∧
    ∃ sess' : Session, ∃ behind ∈ behinds, sess.cookie = (Server.httpOnHeaderField sess' (s ++ behind)).cookie

/-- A callback keeps what a session owes to the last reports. -/
theorem Tracks.callback {behinds : List Mem} {sess₀ sess : Session} {last : Reported}
    (h : Tracks behinds sess₀ sess last) {recv : Recv}
    (hbehind : recv.behind ∈ behinds) {c : Callback} (hin : c.inside recv.bytes.length) :
    Tracks behinds sess₀ (sess.callback recv c) (last.callback recv.bytes c) := by
  cases c with
  | msgComplete => exact h
  | url ofs len => exact ⟨url_httpOnUrl sess _, h.kept, h.stored⟩
  | headerField ofs len =>
    have hmem : (recv.bytes ++ recv.behind).drop ofs = recv.bytes.drop ofs ++ recv.behind :=
      drop_append_inside hin recv.behind
    unfold Session.callback Reported.callback
    dsimp only
    rw [hmem]
    split
    · next hdecides =>
      refine ⟨?_, ?_, ?_⟩
      · rw [httpOnHeaderField_url]
        exact h.url
      · intro hnone
        nomatch hnone
      · intro s hs
        obtain rfl := Option.some.inj hs
        exact ⟨hdecides, sess, recv.behind, hbehind, rfl⟩
    · next hnot =>
      rw [httpOnHeaderField_undecided hnot]
      exact h

/-- The callbacks of one read keep it. -/
theorem Tracks.foldl {behinds : List Mem} {sess₀ sess : Session} {last : Reported} (h : Tracks behinds sess₀ sess last)
    {recv : Recv}
    (hbehind : recv.behind ∈ behinds) {cs : List Callback} (hin : ∀ c ∈ cs, c.inside recv.bytes.length) :
    Tracks behinds sess₀ (cs.foldl (Session.callback recv) sess) (cs.foldl (Reported.callback recv.bytes) last) := by
  induction cs generalizing sess last with
  | nil => exact h
  | cons c cs ih =>
    exact ih (h.callback hbehind (hin c List.mem_cons_self)) fun c' hc' => hin c' (List.mem_cons_of_mem _ hc')

/-- The session of a request when all of it was received owes to the last reports of the way it was cut. -/
theorem Tracks.sessionAt (edges : Bool) (ps : List Piece) {behinds : List Mem} {sess₀ sess : Session} {last : Reported}
    (h : Tracks behinds sess₀ sess last) {recvs : List Recv} (hbehind : ∀ recv ∈ recvs, recv.behind ∈ behinds) :
    Tracks behinds sess₀ (ZeroServ.sessionAt edges ps sess recvs)
      (reportedAt edges ps last (recvs.map Recv.bytes)) := by
  induction recvs generalizing ps sess last with
  | nil => exact h
  | cons recv recvs ih =>
    have hread := h.foldl (hbehind recv List.mem_cons_self) ((segmentParser edges).inside ps recv.bytes)
    exact ih _ hread fun r hr => hbehind r (List.mem_cons_of_mem _ hr)

/-! ## Two ways of cutting a request -/

/-- The `recv` results of a way of cutting, over memory in which strings end. -/
def Arrives {req : HttpRequest} (cut : Cut req) (recvs : List Recv) : Prop :=
  recvs.map Recv.bytes = cut.chunks ∧ ∀ recv ∈ recvs, (0 : UInt8) ∈ recv.behind

/-- The last reports of a way of cutting. -/
def Cut.reported {req : HttpRequest} (edges : Bool) (cut : Cut req) : Reported :=
  reportedAt edges req.pieces ⟨none, none⟩ cut.chunks

/-- With two parts of a header name the same cookie was received. -/
def SameCookie (s₁ s₂ : List UInt8) : Prop := ∃ cookie, Conveys s₁ cookie ∧ Conveys s₂ cookie

/-- The last parts of the URL decode to the same text; of the header names, no part decides on the cookie, or with
the last ones that do the same cookie was received. -/
structure Agree (last₁ last₂ : Reported) : Prop where
  url : last₁.url.map uriText = last₂.url.map uriText
  cookie : Option.Rel SameCookie last₁.cookie last₂.cookie

/-- All of memory behind what was received holds the same bytes. -/
theorem exists_arrives {req : HttpRequest} (cut : Cut req) (behind : Mem) (h : (0 : UInt8) ∈ behind) :
    ∃ recvs, Arrives cut recvs ∧ ∀ recv ∈ recvs, recv.behind ∈ [behind] := by
  refine ⟨cut.chunks.map fun bytes => ⟨bytes, behind⟩, ⟨?_, ?_⟩, ?_⟩
  · rw [List.map_map]
    exact List.map_id _
  · intro recv hrecv
    obtain ⟨bytes, -, rfl⟩ := List.mem_map.mp hrecv
    exact h
  · intro recv hrecv
    obtain ⟨bytes, -, rfl⟩ := List.mem_map.mp hrecv
    exact List.mem_singleton_self behind

section cuts

variable {edges : Bool} {req : HttpRequest} {cut : Cut req} {recvs : List Recv}

/-- A request owes what is used of its session to the last reports. -/
theorem tracks_arrives (edges : Bool) (h : Arrives cut recvs) {behinds : List Mem}
    (hbehind : ∀ recv ∈ recvs, recv.behind ∈ behinds)
    (sess : Session) : Tracks behinds sess (sessionAt edges req.pieces sess recvs) (cut.reported edges) := by
  have htracks : Tracks behinds sess sess ⟨none, none⟩ := ⟨rfl, fun _ => rfl, fun s hs => nomatch hs⟩
  have hlast := htracks.sessionAt edges req.pieces hbehind
  rwa [h.1] at hlast

/-- The last report of a header name decides. -/
theorem reported_decides (edges : Bool) (cut : Cut req) : ∀ s ∈ (cut.reported edges).cookie, Decides s := by
  obtain ⟨recvs, h, hbehind⟩ := exists_arrives cut [0] (by simp)
  exact fun s hs => ((tracks_arrives edges h hbehind ⟨none, none⟩).stored s hs).1

/-- What is used of the session, if what decides on the cookie is closed. -/
theorem used_closed (h : Arrives cut recvs) (hclosed : ∀ s ∈ (cut.reported edges).cookie, FieldClosed s)
    (sess : Session) :
    (sessionAt edges req.pieces sess recvs).used =
      ((cut.reported edges).url.elim (sess.url.map cstr) fun part => some (uriText part),
        (cut.reported edges).cookie.elim sess.cookie cookieAt) := by
  have hbehind : ∀ recv ∈ recvs, recv.behind ∈ recvs.map Recv.behind := fun recv hr => List.mem_map_of_mem hr
  have htracks := tracks_arrives edges h hbehind sess
  refine Prod.ext htracks.url ?_
  change (sessionAt edges req.pieces sess recvs).cookie = _
  cases hc : (cut.reported edges).cookie with
  | none => exact htracks.kept hc
  | some s =>
    obtain ⟨hdecides, sess', behind, -, hstored⟩ := htracks.stored s hc
    rw [hstored, httpOnHeaderField_decided hdecides (hclosed s hc)]
    rfl

/-- What decides on the cookie and is open stores what memory holds. -/
theorem used_open (cut : Cut req) {s : Mem} (hs : (cut.reported edges).cookie = some s) (hopen : ¬FieldClosed s)
    (sess : Session) :
    ∃ recvs₁ recvs₂, Arrives cut recvs₁ ∧ Arrives cut recvs₂ ∧
      (sessionAt edges req.pieces sess recvs₁).used ≠ (sessionAt edges req.pieces sess recvs₂).used := by
  obtain ⟨pre, nm, -, hread⟩ := httpOnHeaderField_open hopen
  have hcookie : ∀ v : List UInt8, (13 : UInt8) ∉ v → (0 : UInt8) ∉ v →
      ∃ recvs, Arrives cut recvs ∧ (sessionAt edges req.pieces sess recvs).cookie = some (nm ++ v) := by
    intro v h13 h0
    obtain ⟨recvs, harrives, hbehind⟩ := exists_arrives cut (pre ++ v ++ 13 :: [0]) (by simp)
    obtain ⟨-, sess', behind, hmem, hstored⟩ := (tracks_arrives edges harrives hbehind sess).stored s hs
    rw [List.mem_singleton.mp hmem, hread v [0] sess' h13 h0] at hstored
    exact ⟨recvs, harrives, hstored⟩
  obtain ⟨recvs₁, h₁, hcookie₁⟩ := hcookie [] (by decide) (by decide)
  obtain ⟨recvs₂, h₂, hcookie₂⟩ := hcookie [97] (by decide) (by decide)
  refine ⟨recvs₁, recvs₂, h₁, h₂, ?_⟩
  intro heq
  have hsame := (Prod.mk.inj heq).2
  rw [hcookie₁, hcookie₂] at hsame
  simp at hsame

end cuts

/-- What is the same whatever it started from was stored in both runs, or in neither. -/
theorem rel_of_elim {α β : Type} {o₁ o₂ : Option α} {f : α → Option (List β)} (h : o₁.elim none f = o₂.elim none f)
    (h' : o₁.elim (some []) f = o₂.elim (some []) f) : Option.Rel (fun a b => f a = f b) o₁ o₂ := by
  rcases o₁ with _ | a <;> rcases o₂ with _ | b
  · exact .none
  · cases h.trans h'.symm
  · cases h.symm.trans h'
  · exact .some h

/-- Reports that lead to the same from any session agree. -/
theorem agree_of_elim {last₁ last₂ : Reported} (h₁ : ∀ s ∈ last₁.cookie, Decides s ∧ FieldClosed s)
    (h₂ : ∀ s ∈ last₂.cookie, Decides s ∧ FieldClosed s)
    (h : ∀ sess : Session, last₁.url.elim (sess.url.map cstr) (fun part => some (uriText part)) =
        last₂.url.elim (sess.url.map cstr) (fun part => some (uriText part)) ∧
      last₁.cookie.elim sess.cookie cookieAt = last₂.cookie.elim sess.cookie cookieAt) : Agree last₁ last₂ := by
  obtain ⟨hurl, hcookie⟩ := h ⟨none, none⟩
  obtain ⟨hurl', hcookie'⟩ := h ⟨some [], some []⟩
  obtain ⟨url₁, cookie₁⟩ := last₁
  obtain ⟨url₂, cookie₂⟩ := last₂
  refine ⟨?_, ?_⟩
  · cases rel_of_elim hurl hurl' with
    | none => rfl
    | some heq => exact heq
  · cases rel_of_elim hcookie hcookie' with
    | none => exact .none
    | @some s₁ s₂ heq =>
      obtain ⟨hdecides₁, hclosed₁⟩ := h₁ s₁ rfl
      obtain ⟨hdecides₂, hclosed₂⟩ := h₂ s₂ rfl
      exact .some ⟨cookieAt s₁, conveys_of_closed hdecides₁ hclosed₁, heq ▸ conveys_of_closed hdecides₂ hclosed₂⟩

/-- What decides on the cookie is closed in reports that agree, and they lead to the same. -/
theorem Agree.elim {last₁ last₂ : Reported} (h : Agree last₁ last₂) :
    (∀ s ∈ last₁.cookie, FieldClosed s) ∧ (∀ s ∈ last₂.cookie, FieldClosed s) ∧
      (∀ url, last₁.url.elim url (fun part => some (uriText part)) = last₂.url.elim url fun part =>
        some (uriText part)) ∧
        ∀ cookie, last₁.cookie.elim cookie cookieAt = last₂.cookie.elim cookie cookieAt := by
  obtain ⟨url₁, cookie₁⟩ := last₁
  obtain ⟨url₂, cookie₂⟩ := last₂
  obtain ⟨hurl, hcookie⟩ := h
  have htext : ∀ url, url₁.elim url (fun part => some (uriText part)) = url₂.elim url fun part =>
      some (uriText part) := by
    intro url
    have hmap : ∀ part : Option (List UInt8), part.elim url (fun part => some (uriText part)) =
        (part.map uriText).elim url some := by
      rintro (_ | part) <;> rfl
    rw [hmap, hmap]
    exact congrArg (·.elim url some) hurl
  cases hcookie with
  | none => exact ⟨nofun, nofun, htext, fun _ => rfl⟩
  | some hsame =>
    obtain ⟨cookie, hreceived₁, hreceived₂⟩ := hsame
    refine ⟨fun s hs => ?_, fun s hs => ?_, htext, fun _ => hreceived₁.stored.2.trans hreceived₂.stored.2.symm⟩
    · exact Option.some.inj hs ▸ hreceived₁.stored.1
    · exact Option.some.inj hs ▸ hreceived₂.stored.1

/-- Two ways of cutting a request lead to the same text of the URL and the same cookie, over any memory and from any
session, exactly when their last reports agree. -/
theorem http_segmentation_iff (edges : Bool) {req : HttpRequest} (cut₁ cut₂ : Cut req) :
    (∀ (sess : Session) (recvs₁ recvs₂ : List Recv), Arrives cut₁ recvs₁ → Arrives cut₂ recvs₂ →
      (sessionAt edges req.pieces sess recvs₁).used = (sessionAt edges req.pieces sess recvs₂).used) ↔
    Agree (cut₁.reported edges) (cut₂.reported edges) := by
  constructor
  · intro h
    obtain ⟨recvs₁, h₁, -⟩ := exists_arrives cut₁ [0] (by simp)
    obtain ⟨recvs₂, h₂, -⟩ := exists_arrives cut₂ [0] (by simp)
    have hclosed₁ : ∀ s ∈ (cut₁.reported edges).cookie, FieldClosed s := by
      intro s hs
      by_contra hopen
      obtain ⟨r, r', hr, hr', hne⟩ := used_open cut₁ hs hopen ⟨none, none⟩
      exact hne ((h _ r recvs₂ hr h₂).trans (h _ r' recvs₂ hr' h₂).symm)
    have hclosed₂ : ∀ s ∈ (cut₂.reported edges).cookie, FieldClosed s := by
      intro s hs
      by_contra hopen
      obtain ⟨r, r', hr, hr', hne⟩ := used_open cut₂ hs hopen ⟨none, none⟩
      exact hne ((h _ recvs₁ r h₁ hr).symm.trans (h _ recvs₁ r' h₁ hr'))
    refine agree_of_elim (fun s hs => ⟨reported_decides edges cut₁ s hs, hclosed₁ s hs⟩)
      (fun s hs => ⟨reported_decides edges cut₂ s hs, hclosed₂ s hs⟩) fun sess => ?_
    have hboth := h sess recvs₁ recvs₂ h₁ h₂
    rw [used_closed h₁ hclosed₁, used_closed h₂ hclosed₂] at hboth
    exact Prod.mk.inj hboth
  · intro h sess recvs₁ recvs₂ h₁ h₂
    obtain ⟨hclosed₁, hclosed₂, hurl, hcookie⟩ := h.elim
    rw [used_closed h₁ hclosed₁, used_closed h₂ hclosed₂, hurl, hcookie]

/-! ## Lines kept whole -/

/-- Every `recv` result consists of whole parts of the request and ends behind text that is not reported. -/
def KeepsLines {req : HttpRequest} (cut : Cut req) : Prop :=
  ∃ groups : List (List Piece), groups.flatten = req.pieces ∧ cut.chunks = groups.map (fun g => g.flatMap Piece.bytes) ∧
    ∀ g ∈ groups, ∃ g' t, g = g' ++ [.text t]

/-- What a header name and the text behind it leave open does not depend on what follows. -/
def LinesClosed : List Piece → Prop
  | p :: q :: ps => (p.report = .field → FieldClosed (p.bytes ++ q.bytes)) ∧ LinesClosed (q :: ps)
  | _ => True

/-- What is closed decides the same with more bytes behind it. -/
theorem decides_append {s : Mem} (h : FieldClosed s) (t : Mem) : Decides (s ++ t) ↔ Decides s := by
  have hword := prefix_append_iff h.1 t
  have hcut : ¬(s ++ t <+: lit "Cookie" ∧ s ++ t ≠ lit "Cookie") := by
    rintro ⟨hp, -⟩
    obtain rfl := h.1 ((List.prefix_append s t).trans hp)
    exact absurd (h.2 (List.prefix_refl _)) (by decide)
  have hcut' : ¬(s <+: lit "Cookie" ∧ s ≠ lit "Cookie") := fun hp => hp.2 (h.1 hp.1)
  rw [Decides, Decides, or_iff_right hcut, or_iff_right hcut', hword]
  refine and_congr_right fun hopens => ?_
  rw [← strstr_isSome_iff (by decide), ← strstr_isSome_iff (by decide)]
  rcases h.2 hopens with h0 | ⟨name, hname, -⟩
  · rw [or_iff_right (not_not.mpr (List.mem_append_left t h0)), or_iff_right (not_not.mpr h0)]
    cases hfind : strstr s (lit "zchat=") with
    | some name => rw [strstr_append_of_some hfind (by decide) t]; exact Iff.rfl
    | none => rw [strstr_append_of_nul h0 (by decide) hfind t]
  · rw [hname, strstr_append_of_some hname (by decide) t]
    exact iff_of_true (.inr rfl) (.inr rfl)

/-- The last reports after parts that were received whole, and together. -/
def reportPieces : List Piece → Reported → Reported
  | [], last => last
  | p :: ps, last =>
    reportPieces ps <|
      match p.report with
      | .none => last
      | .url => { last with url := some p.bytes }
      | .field =>
        let s := p.bytes ++ ps.flatMap Piece.bytes
        if Decides s then { last with cookie := some s } else last

/-- The last reports after parts, as if each header name had been received with the text behind it only. -/
def reportLines : List Piece → Reported → Reported
  | p :: q :: ps, last =>
    reportLines (q :: ps) <|
      match p.report with
      | .none => last
      | .url => { last with url := some p.bytes }
      | .field =>
        let s := p.bytes ++ q.bytes
        if Decides s then { last with cookie := some s } else last
  | _, last => last

/-- The parser on a part that was received whole, and does not end with what was received. -/
theorem feed_whole (edges : Bool) {p : Piece} {n : Nat} (ps : List Piece) (ofs : Nat) (hn : n ≠ 0)
    (hle : p.bytes.length ≤ n) (hend : n = p.bytes.length → p.report = .none) :
    feed edges (p :: ps) n ofs =
      (p.call ofs p.bytes.length ++ (feed edges ps (n - p.bytes.length) (ofs + p.bytes.length)).1,
        (feed edges ps (n - p.bytes.length) (ofs + p.bytes.length)).2) := by
  have hmore : ¬(n < p.bytes.length ∨ (n = p.bytes.length ∧ edges = true ∧ p.report ≠ .none)) := by
    rintro (hlt | ⟨heq, -, hreport⟩)
    · omega
    · exact hreport (hend heq)
  rw [feed, if_neg hn, if_neg hmore]

/-- The parser on parts that end with text. -/
theorem feed_group (edges : Bool) (g : List Piece) {t : List UInt8} (ht : t ≠ []) (pre : List UInt8) (ps : List Piece)
    (last : Reported) :
    (feed edges (g ++ Piece.text t :: ps) ((g ++ [Piece.text t]).flatMap Piece.bytes).length pre.length).2 = ps ∧
      (feed edges (g ++ Piece.text t :: ps) ((g ++ [Piece.text t]).flatMap Piece.bytes).length pre.length).1.foldl
        (Reported.callback (pre ++ (g ++ [Piece.text t]).flatMap Piece.bytes)) last =
        reportPieces (g ++ [Piece.text t]) last := by
  have hpos : 0 < (Piece.text t).bytes.length := List.length_pos_iff.mpr ht
  induction g generalizing pre last with
  | nil =>
    have hlen : (([] ++ [Piece.text t]).flatMap Piece.bytes).length = (Piece.text t).bytes.length := by simp
    rw [hlen, List.nil_append, List.nil_append,
      feed_whole edges ps _ (Nat.ne_of_gt hpos) (Nat.le_refl _) (fun _ => rfl), Nat.sub_self]
    cases ps with
    | nil => exact ⟨rfl, rfl⟩
    | cons q ps =>
      rw [feed, if_pos rfl]
      exact ⟨rfl, rfl⟩
  | cons p g ih =>
    have hlen : ((p :: g ++ [Piece.text t]).flatMap Piece.bytes).length =
        p.bytes.length + ((g ++ [Piece.text t]).flatMap Piece.bytes).length := by
      simp
    have hlast : (Piece.text t).bytes.length ≤ ((g ++ [Piece.text t]).flatMap Piece.bytes).length := by
      simp
    have hbytes : pre ++ (p :: g ++ [Piece.text t]).flatMap Piece.bytes =
        pre ++ p.bytes ++ (g ++ [Piece.text t]).flatMap Piece.bytes := by
      simp
    have hfirst : (p.call pre.length p.bytes.length).foldl
        (Reported.callback (pre ++ p.bytes ++ (g ++ [Piece.text t]).flatMap Piece.bytes)) last =
        match p.report with
        | .none => last
        | .url => { last with url := some p.bytes }
        | .field =>
          let s := p.bytes ++ (g ++ [Piece.text t]).flatMap Piece.bytes
          if Decides s then { last with cookie := some s } else last := by
      unfold Piece.call
      cases p.report with
      | none => rfl
      | url => simp [Reported.callback]
      | field => simp [Reported.callback]
    obtain ⟨hleft, hcalls⟩ := ih (pre ++ p.bytes) ((p.call pre.length p.bytes.length).foldl
      (Reported.callback (pre ++ p.bytes ++ (g ++ [Piece.text t]).flatMap Piece.bytes)) last)
    rw [List.length_append] at hleft hcalls
    rw [hlen, hbytes, List.cons_append, feed_whole edges _ _ (by omega) (by omega) (by omega), Nat.add_sub_cancel_left]
    refine ⟨hleft, ?_⟩
    rw [List.foldl_append, hcalls, List.cons_append, reportPieces, hfirst]

/-- The last reports of a way of cutting that keeps lines whole. -/
theorem reportedAt_groups (edges : Bool) {groups : List (List Piece)}
    (h : ∀ g ∈ groups, ∃ g' t, g = g' ++ [Piece.text t] ∧ t ≠ []) (last : Reported) :
    reportedAt edges groups.flatten last (groups.map fun g => g.flatMap Piece.bytes) =
      groups.foldl (fun last g => reportPieces g last) last := by
  induction groups generalizing last with
  | nil => rfl
  | cons g groups ih =>
    obtain ⟨g', t, rfl, ht⟩ := h g List.mem_cons_self
    obtain ⟨hleft, hcalls⟩ := feed_group edges g' ht [] groups.flatten last
    rw [List.nil_append] at hcalls
    rw [List.map_cons, List.flatten_cons, List.append_assoc, List.singleton_append, List.foldl_cons, ← hcalls,
      ← ih (fun g hg => h g (List.mem_cons_of_mem _ hg))]
    dsimp only [reportedAt, segmentParser]
    rw [show (0 : Nat) = ([] : List UInt8).length from rfl, hleft]

theorem Agree.symm {last₁ last₂ : Reported} (h : Agree last₁ last₂) : Agree last₂ last₁ := by
  obtain ⟨url₁, cookie₁⟩ := last₁
  obtain ⟨url₂, cookie₂⟩ := last₂
  refine ⟨h.url.symm, ?_⟩
  cases h.cookie with
  | none => exact .none
  | some hsame =>
    obtain ⟨cookie, h₁, h₂⟩ := hsame
    exact .some ⟨cookie, h₂, h₁⟩

theorem Agree.trans {last₁ last₂ last₃ : Reported} (h : Agree last₁ last₂) (h' : Agree last₂ last₃) :
    Agree last₁ last₃ := by
  obtain ⟨url₁, cookie₁⟩ := last₁
  obtain ⟨url₂, cookie₂⟩ := last₂
  obtain ⟨url₃, cookie₃⟩ := last₃
  refine ⟨h.url.trans h'.url, ?_⟩
  cases h.cookie with
  | none => exact h'.cookie
  | some hsame =>
    cases h'.cookie with
    | some hsame' =>
      obtain ⟨cookie, h₁, h₂⟩ := hsame
      obtain ⟨cookie', h₂', h₃⟩ := hsame'
      obtain rfl := h₂.unique h₂'
      exact .some ⟨cookie, h₁, h₃⟩

/-- The last reports of parts received together agree with those of each header name received with the text behind
it. -/
theorem reportPieces_agree (g : List Piece) (t : List UInt8) (ps : List Piece) {last₁ last₂ : Reported}
    (h : Agree last₁ last₂) (hlines : LinesClosed (g ++ Piece.text t :: ps)) :
    ∃ last₂', reportLines (g ++ Piece.text t :: ps) last₂ = reportLines ps last₂' ∧
      Agree (reportPieces (g ++ [Piece.text t]) last₁) last₂' := by
  induction g generalizing last₁ last₂ with
  | nil =>
    refine ⟨last₂, ?_, h⟩
    cases ps <;> rfl
  | cons p g ih =>
    obtain ⟨q, qs, hq⟩ : ∃ q qs, g ++ Piece.text t :: ps = q :: qs := by
      cases g with
      | nil => exact ⟨_, _, rfl⟩
      | cons q g => exact ⟨q, _, rfl⟩
    obtain ⟨more, hmore⟩ : ∃ more, (g ++ [Piece.text t]).flatMap Piece.bytes = q.bytes ++ more := by
      cases g with
      | nil =>
        obtain ⟨rfl, rfl⟩ := List.cons.inj hq
        exact ⟨[], by simp⟩
      | cons q' g =>
        obtain ⟨rfl, rfl⟩ := List.cons.inj hq
        exact ⟨_, by rw [List.cons_append, List.flatMap_cons]⟩
    rw [List.cons_append, hq] at hlines
    rw [List.cons_append, hq, reportLines, ← hq, List.cons_append, reportPieces]
    refine ih ?_ (hq ▸ hlines.2)
    cases hreport : p.report with
    | none => exact h
    | url => exact ⟨rfl, h.cookie⟩
    | field =>
      have hdecides := decides_append (hlines.1 hreport) more
      dsimp only
      rw [hmore, ← List.append_assoc]
      by_cases hd : Decides (p.bytes ++ q.bytes)
      · rw [if_pos (hdecides.mpr hd), if_pos hd]
        have hreceived := conveys_of_closed hd (hlines.1 hreport)
        exact ⟨h.url, .some ⟨_, hreceived.append more, hreceived⟩⟩
      · rw [if_neg (fun hd' => hd (hdecides.mp hd')), if_neg hd]
        exact h

theorem linesClosed_append (ps : List Piece) {qs : List Piece} (h : LinesClosed (ps ++ qs)) : LinesClosed qs := by
  induction ps with
  | nil => exact h
  | cons p ps ih =>
    refine ih ?_
    cases hps : ps ++ qs with
    | nil => trivial
    | cons q rest =>
      rw [List.cons_append, hps] at h
      exact h.2

theorem groups_agree {groups : List (List Piece)} (h : ∀ g ∈ groups, ∃ g' t, g = g' ++ [Piece.text t] ∧ t ≠ [])
    {last₁ last₂ : Reported} (hlast : Agree last₁ last₂) (hlines : LinesClosed groups.flatten) :
    Agree (groups.foldl (fun last g => reportPieces g last) last₁) (reportLines groups.flatten last₂) := by
  induction groups generalizing last₁ last₂ with
  | nil => exact hlast
  | cons g groups ih =>
    obtain ⟨g', t, rfl, -⟩ := h g List.mem_cons_self
    rw [List.flatten_cons, List.append_assoc, List.singleton_append] at hlines
    obtain ⟨last₂', heq, hagree⟩ := reportPieces_agree g' t groups.flatten hlast hlines
    rw [List.flatten_cons, List.append_assoc, List.singleton_append, heq, List.foldl_cons]
    exact ih (fun g hg => h g (List.mem_cons_of_mem _ hg)) hagree
      (linesClosed_append (g' ++ [Piece.text t]) (by simpa using hlines))

/-- Two ways of cutting a request between its lines agree, if each of its header lines is closed. -/
theorem whole_lines_agree (edges : Bool) {req : HttpRequest} (hne : ∀ p ∈ req.pieces, p.bytes ≠ [])
    (hlines : LinesClosed req.pieces)
    {cut₁ cut₂ : Cut req} (h₁ : KeepsLines cut₁) (h₂ : KeepsLines cut₂) :
    Agree (cut₁.reported edges) (cut₂.reported edges) := by
  have hline : ∀ {cut : Cut req}, KeepsLines cut →
      Agree (cut.reported edges) (reportLines req.pieces ⟨none, none⟩) := by
    intro cut h
    obtain ⟨groups, hpieces, hchunks, hgroups⟩ := h
    have hgroups' : ∀ g ∈ groups, ∃ g' t, g = g' ++ [Piece.text t] ∧ t ≠ [] := by
      intro g hg
      obtain ⟨g', t, rfl⟩ := hgroups g hg
      have hmem : Piece.text t ∈ req.pieces := hpieces ▸ List.mem_flatten.mpr ⟨_, hg, by simp⟩
      exact ⟨g', t, rfl, hne _ hmem⟩
    have hstart : Agree ⟨none, none⟩ ⟨none, none⟩ := ⟨rfl, .none⟩
    rw [Cut.reported, hchunks, ← hpieces, reportedAt_groups edges hgroups']
    exact groups_agree hgroups' hstart (hpieces ▸ hlines)
  exact (hline h₁).trans (hline h₂).symm

/-- A request to join a topic. -/
def joinRequest : HttpRequest where
  method := lit "GET "
  url := lit "/sub/news"
  headers := [(lit " HTTP/1.1\r\n", lit "Host"), (lit ": a\r\n", lit "Cookie")]
  last := lit ": zchat=abcdefghij\r\n\r\n"

/-- The request in one `recv` result. -/
def joinWhole : Cut joinRequest where
  chunks := [lit "GET /sub/news HTTP/1.1\r\nHost: a\r\nCookie: zchat=abcdefghij\r\n\r\n"]
  whole := by decide +kernel
  nonempty := by decide
  fits := by decide +kernel

/-- The request in two, of which the first ends between the headers. -/
def joinLines : Cut joinRequest where
  chunks := [lit "GET /sub/news HTTP/1.1\r\nHost: a\r\n", lit "Cookie: zchat=abcdefghij\r\n\r\n"]
  whole := by decide +kernel
  nonempty := by decide
  fits := by decide +kernel

/-- The request in two, of which the first ends in the URL. -/
def joinCut : Cut joinRequest where
  chunks := [lit "GET /sub/", lit "news HTTP/1.1\r\nHost: a\r\nCookie: zchat=abcdefghij\r\n\r\n"]
  whole := by decide +kernel
  nonempty := by decide
  fits := by decide +kernel

example (edges : Bool) : Agree (joinWhole.reported edges) (joinLines.reported edges) := by
  have hlines : LinesClosed joinRequest.pieces :=
    ⟨nofun, nofun, nofun, fun _ => by decide +kernel, nofun, fun _ => by decide +kernel, trivial⟩
  have hwhole : KeepsLines joinWhole :=
    ⟨[joinRequest.pieces], rfl, by decide +kernel,
      fun g hg => List.mem_singleton.mp hg ▸ ⟨joinRequest.pieces.dropLast, joinRequest.last, rfl⟩⟩
  refine whole_lines_agree edges (by decide +kernel) hlines hwhole
    ⟨[joinRequest.pieces.take 5, joinRequest.pieces.drop 5], rfl, by decide +kernel, ?_⟩
  rw [List.forall_mem_cons, List.forall_mem_singleton]
  exact ⟨⟨joinRequest.pieces.take 4, lit ": a\r\n", rfl⟩, ⟨[_], joinRequest.last, rfl⟩⟩

/-- A URL that comes in two parts: the second replaces the first. -/
theorem http_url_cut :
    ∃ recvs₁ recvs₂, Arrives joinWhole recvs₁ ∧ Arrives joinCut recvs₂ ∧
      (sessionAt false joinRequest.pieces ⟨none, none⟩ recvs₁).used =
      (some (lit "/sub/news"), some (lit "zchat=abcdefghij")) ∧
      (sessionAt false joinRequest.pieces ⟨none, none⟩ recvs₂).used =
      (some (lit "news"), some (lit "zchat=abcdefghij")) :=
  ⟨joinWhole.chunks.map fun bytes => ⟨bytes, [0]⟩, joinCut.chunks.map fun bytes => ⟨bytes, [0]⟩,
    by unfold Arrives; decide +kernel, by unfold Arrives; decide +kernel, by decide +kernel, by decide +kernel⟩

end ZeroServ
