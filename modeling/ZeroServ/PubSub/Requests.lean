import ZeroServ.Lib.Run
import ZeroServ.PubSub.Frame

/-!
# Whose session a request is

`http_psub_read` receives into one static buffer that all connections share, and hands the parser what it received;
the callbacks get pointers into the buffer. `http_on_header_field` searches from its pointer on, past the length it
is given, so it can read what earlier requests have left behind the bytes received. A header field is closed when the
search ends inside what was received (`FieldClosed`); `request_attribution` says that this is what the session of a
request depends on.

The parser is a parameter: what it makes of bytes is its own, but its callbacks point into the bytes it was given.
-/

namespace ZeroServ

open CString Run

/-! ## The parser -/

/-- A callback of the parser, with the offset and the length of what it points at. -/
inductive Callback where
  | url (ofs len : Nat)
  | headerField (ofs len : Nat)
  | msgComplete
  deriving DecidableEq, Repr

/-- What a callback points at lies in the first `n` bytes. -/
def Callback.inside (n : Nat) : Callback → Prop
  | .url ofs len | .headerField ofs len => ofs + len ≤ n
  | .msgComplete => True

/-- What one `http_parser_execute` gives: the callbacks it makes, the bytes it parsed, `upgrade`, and the parser it
leaves. -/
structure Parsed (σ : Type) where
  callbacks : List Callback
  nparsed : Nat
  upgrade : Bool
  parser : σ

/-- A parser for the callbacks of `settings`. -/
structure HttpParser (σ : Type) where
  execute : σ → List UInt8 → Parsed σ
  inside : ∀ st bytes, ∀ c ∈ (execute st bytes).callbacks, c.inside bytes.length

/-- What else one callback meets: the supply of the C library, what `rand` returns and the heap behind the copy of
the URL. -/
structure CallEnv where
  supply : Supply
  rands : List Nat
  behind : Mem
  deriving DecidableEq, Repr

/-- The event a callback is, for `received` bytes in front of the rest of memory. -/
def Callback.event (fd : Fd) (received rest : Mem) (env : CallEnv) : Callback → Event
  | .url ofs len => .url fd ((received.drop ofs).take len)
  | .headerField ofs _ => .headerField fd ((received ++ rest).drop ofs)
  | .msgComplete => .msgComplete fd env.supply env.rands env.behind

/-- One callback of a connection, on the server and what has been observed of it. -/
def callStep (fd : Fd) (received rest : Mem) (t : Observed) (c : Callback × CallEnv) : Option Observed :=
  observedStep t (c.1.event fd received rest c.2)

section Read

variable {σ : Type} (p : HttpParser σ) (st : σ) (received : List UInt8) (env : Nat → CallEnv)

/-- The callbacks of one read; without bytes the parser is not called. -/
def calls : List (Callback × CallEnv) :=
  if received = [] then [] else (p.execute st received).callbacks.zipIdx.map fun (c, i) => (c, env i)

/-- `http_psub_read`, with the memory behind the bytes received: the states its callbacks go through, and the flags
it returns. -/
def httpPsubRead (fd : Fd) (rest : Mem) (t : Observed) : List Observed × Flags :=
  let parsed := p.execute st received
  (trace (callStep fd received rest) t (calls p st received env),
    if received = [] then Zb.close
    else if parsed.upgrade then Zb.nop
    else if parsed.nparsed ≠ received.length then Zb.close
    else Zb.nop)

/-- What a read does is the same for any two contents of the 1024 bytes of the buffer beyond those received. -/
def Attributed (fd : Fd) (beyond : Mem) (t : Observed) : Prop :=
  ∀ left₁ left₂ : Mem, received.length + left₁.length = 1024 → received.length + left₂.length = 1024 →
    httpPsubRead p st received env fd (left₁ ++ beyond) t = httpPsubRead p st received env fd (left₂ ++ beyond) t

end Read

/-! ## One header field -/

/-- From a header field on, the bytes received decide what `http_on_header_field` does: they are not the beginning of
the word `Cookie`, cut off; and if they open with that word, they hold a NUL, or `zchat=` and a carriage return after
it. -/
def FieldClosed (s : Mem) : Prop :=
  (s <+: lit "Cookie" → s = lit "Cookie") ∧
    (lit "Cookie" <+: s → (0 : UInt8) ∈ s ∨ ∃ name ∈ strstr s (lit "zchat="), (13 : UInt8) ∈ name)

theorem compare_iff (mem : Mem) : Model.compare mem "Cookie" = true ↔ lit "Cookie" <+: cstr mem := by
  have hc : cstr (lit "Cookie") = lit "Cookie" := by decide
  rw [Model.compare, strncmp, hc, List.take_length, beq_iff_eq, List.prefix_iff_eq_take]
  exact eq_comm

/-- Memory that opens with a word and goes on, where the word is not cut off. -/
theorem prefix_append_iff {w s : List UInt8} (h : s <+: w → s = w) (t : List UInt8) : w <+: s ++ t ↔ w <+: s := by
  refine ⟨fun hp => ?_, fun hp => hp.trans (List.prefix_append s t)⟩
  rcases Nat.le_total w.length s.length with hle | hle
  · exact List.prefix_of_prefix_length_le hp (List.prefix_append s t) hle
  · have hsw : s <+: w := List.prefix_of_prefix_length_le (List.prefix_append s t) hp hle
    rw [h hsw]

/-- A search that finds nothing in memory that holds the byte or a NUL has met a NUL. -/
theorem nul_mem_of_strchr_none {s : Mem} {c : UInt8} (h : strchr s c = none) (hs : (0 : UInt8) ∈ s ∨ c ∈ s) :
    (0 : UInt8) ∈ s := by
  by_contra h0
  rcases hs with hs | hs
  · exact h0 hs
  · obtain ⟨a, b, rfl, hc⟩ := List.eq_append_cons_of_mem hs
    have h0a : (0 : UInt8) ∉ a := fun h => h0 (List.mem_append_left _ h)
    rw [strchr_append_cons hc h0a] at h
    nomatch h

/-- What is stored of a cookie whose end, or a NUL, lies in the memory known. -/
theorem strndup_append {name : Mem} (hend : (0 : UInt8) ∈ name ∨ (13 : UInt8) ∈ name) (t : Mem) :
    (strchr (name ++ t) 13).map (fun pos => strndup (name ++ t) ((name ++ t).length - pos.length)) =
      (strchr name 13).map fun pos => strndup name (name.length - pos.length) := by
  cases hc : strchr name 13 with
  | none => rw [strchr_append_of_nul (nul_mem_of_strchr_none hc hend) hc, Option.map_none, Option.map_none]
  | some pos =>
    rw [strchr_append_of_some hc, Option.map_some, Option.map_some]
    obtain ⟨a, q, rfl, -, -, h0⟩ := strchr_eq_some hc
    have hlen : (a ++ pos ++ t).length - (pos ++ t).length = a.length := by
      rw [List.append_assoc, List.length_append, Nat.add_sub_cancel]
    have hlen' : (a ++ pos).length - pos.length = a.length := by rw [List.length_append, Nat.add_sub_cancel]
    rw [hlen, hlen', List.append_assoc, strndup, strndup, cstr_append h0, cstr_append h0, List.take_left,
      List.take_left]

/-- A closed header field does the same whatever lies behind the bytes received. -/
theorem httpOnHeaderField_closed {s : Mem} (h : FieldClosed s) (sess : Session) (t : Mem) :
    Server.httpOnHeaderField sess (s ++ t) = Server.httpOnHeaderField sess s := by
  have hword : lit "Cookie" <+: cstr (s ++ t) ↔ lit "Cookie" <+: cstr s := by
    by_cases h0 : (0 : UInt8) ∈ s
    · rw [cstr_append_of_mem h0]
    · rw [cstr_append h0, cstr_eq_self h0]
      exact prefix_append_iff h.1 _
  unfold Server.httpOnHeaderField
  by_cases hw : lit "Cookie" <+: cstr s
  · rw [if_pos ((compare_iff _).mpr (hword.mpr hw)), if_pos ((compare_iff _).mpr hw)]
    have hend := h.2 (hw.trans (List.takeWhile_prefix _))
    cases hz : strstr s (lit "zchat=") with
    | none =>
      have h0 : (0 : UInt8) ∈ s := by
        rcases hend with h0 | ⟨name, hname, -⟩
        · exact h0
        · rw [hz] at hname
          nomatch hname
      rw [strstr_append_of_nul h0 (by decide) hz]
    | some name =>
      have hname : (0 : UInt8) ∈ name ∨ (13 : UInt8) ∈ name := by
        rcases hend with h0 | ⟨name', hname', h13⟩
        · obtain ⟨⟨a, rfl, ha⟩, -⟩ := strstr_eq_some hz
          exact .inl ((List.mem_append.mp h0).resolve_left ha)
        · rw [hz, Option.mem_some_iff] at hname'
          exact .inr (hname' ▸ h13)
      rw [strstr_append_of_some hz (by decide)]
      simp only [strndup_append hname t]
  · rw [if_neg (fun hc => hw (hword.mp ((compare_iff _).mp hc))), if_neg (fun hc => hw ((compare_iff _).mp hc))]

/-- A cookie that ends with a carriage return, found in a `Cookie` header. -/
theorem httpOnHeaderField_found {mem nm : Mem} (rest : Mem) (hw : lit "Cookie" <+: cstr mem)
    (hz : strstr mem (lit "zchat=") = some (nm ++ 13 :: rest)) (h13 : (13 : UInt8) ∉ nm) (h0 : (0 : UInt8) ∉ nm)
    (sess : Session) : Server.httpOnHeaderField sess mem = { sess with cookie := some nm } := by
  unfold Server.httpOnHeaderField
  rw [if_pos ((compare_iff _).mpr hw), hz]
  simp only
  rw [strchr_append_cons h13 h0, Option.map_some, List.length_append, Nat.add_sub_cancel, strndup, cstr_append h0,
    List.take_left]

/-- A `Cookie` header without `zchat=`, followed in memory by one. -/
theorem httpOnHeaderField_behind {s v : Mem} (hw : lit "Cookie" <+: s) (h0 : (0 : UInt8) ∉ s)
    (hz : strstr s (lit "zchat=") = none) (hv13 : (13 : UInt8) ∉ v) (hv0 : (0 : UInt8) ∉ v) (rest : Mem)
    (sess : Session) :
    Server.httpOnHeaderField sess (s ++ (lit "zchat=" ++ v ++ 13 :: rest)) =
      { sess with cookie := some (lit "zchat=" ++ v) } := by
  have hfind : strstr (s ++ (lit "zchat=" ++ (v ++ 13 :: rest))) (lit "zchat=") =
      some (lit "zchat=" ++ (v ++ 13 :: rest)) :=
    strstr_append_self (n := lit "chat=") (by decide) h0 hz _
  refine httpOnHeaderField_found rest ?_ ?_ ?_ ?_ sess
  · rw [cstr_append h0]
    exact hw.trans (List.prefix_append _ _)
  · rw [List.append_assoc, hfind]
  · rw [List.mem_append, not_or]
    exact ⟨by decide, hv13⟩
  · rw [List.mem_append, not_or]
    exact ⟨by decide, hv0⟩

/-- A header field that is not closed takes what lies behind the bytes received for a part of the cookie. -/
theorem httpOnHeaderField_open {s : Mem} (h : ¬FieldClosed s) :
    ∃ pre nm : Mem, pre.length ≤ 12 ∧ ∀ v rest sess, (13 : UInt8) ∉ v → (0 : UInt8) ∉ v →
      Server.httpOnHeaderField sess (s ++ (pre ++ v ++ 13 :: rest)) = { sess with cookie := some (nm ++ v) } := by
  by_cases hcut : s <+: lit "Cookie" → s = lit "Cookie"
  · -- the word is there, and neither a NUL nor the end of a cookie
    obtain ⟨hw, hopen⟩ : lit "Cookie" <+: s ∧
        ¬((0 : UInt8) ∈ s ∨ ∃ name ∈ strstr s (lit "zchat="), (13 : UInt8) ∈ name) := by
      rw [FieldClosed, not_and] at h
      exact Classical.not_imp.mp (h hcut)
    rw [not_or] at hopen
    obtain ⟨h0, hname⟩ := hopen
    cases hz : strstr s (lit "zchat=") with
    | none =>
      exact ⟨lit "zchat=", lit "zchat=", by decide, fun v rest sess h13 hv0 =>
        httpOnHeaderField_behind hw h0 hz h13 hv0 rest sess⟩
    | some name =>
      obtain ⟨⟨a, rfl, -⟩, -⟩ := strstr_eq_some hz
      have h13name : (13 : UInt8) ∉ name := fun h13 => hname ⟨name, hz, h13⟩
      have h0name : (0 : UInt8) ∉ name := fun h => h0 (List.mem_append_right _ h)
      refine ⟨[], name, Nat.zero_le _, fun v rest sess h13 hv0 => ?_⟩
      refine httpOnHeaderField_found rest ?_ ?_ ?_ ?_ sess
      · rw [cstr_append h0]
        exact hw.trans (List.prefix_append _ _)
      · rw [strstr_append_of_some hz (by decide), List.nil_append, List.append_assoc]
      · rw [List.mem_append, not_or]
        exact ⟨h13name, h13⟩
      · rw [List.mem_append, not_or]
        exact ⟨h0name, hv0⟩
  · -- the word itself is cut off, and memory completes it
    obtain ⟨⟨w, hw⟩, -⟩ := Classical.not_imp.mp hcut
    refine ⟨w ++ lit "zchat=", lit "zchat=", ?_, fun v rest sess h13 hv0 => ?_⟩
    · have hlen := congrArg List.length hw
      rw [List.length_append] at hlen
      rw [List.length_append]
      have h6 : (lit "Cookie").length = 6 := rfl
      have h6' : (lit "zchat=").length = 6 := rfl
      omega
    · have hmem : s ++ (w ++ lit "zchat=" ++ v ++ 13 :: rest) = lit "Cookie" ++ (lit "zchat=" ++ v ++ 13 :: rest) := by
        rw [← hw]
        simp only [List.append_assoc]
      rw [hmem]
      exact httpOnHeaderField_behind (List.prefix_refl _) (by decide) (by decide) h13 hv0 rest sess

/-! ## One read -/

/-- A header field callback that finds a session finds its field closed. -/
def FieldsClosed (fd : Fd) (received : Mem) (t : Observed) (c : Callback × CallEnv) (_ : Observed) : Prop :=
  match c.1 with
  | .headerField ofs _ => (t.1.fdtab fd).session ≠ none → FieldClosed (received.drop ofs)
  | _ => True

section

variable {fd : Fd} {received : Mem}

theorem drop_append_inside {ofs len : Nat} (h : ofs + len ≤ received.length) (rest : Mem) :
    (received ++ rest).drop ofs = received.drop ofs ++ rest :=
  List.drop_append_of_le_length (by omega)

/-- A header field callback, if it is possible, writes the session of its connection. -/
theorem callStep_headerField {rest : Mem} {t t' : Observed} {ofs len : Nat} {env : CallEnv}
    (h : callStep fd received rest t (.headerField ofs len, env) = some t') (rest' : Mem) :
    callStep fd received rest' t (.headerField ofs len, env) =
      some (t.1.setFd fd fun e =>
        { e with session := e.session.map (Server.httpOnHeaderField · ((received ++ rest').drop ofs)) }, t.2) := by
  have hguard : (!t.1.exited && t.1.serves .httpPubsub fd) = true := by
    by_contra hno
    simp [callStep, Callback.event, observedStep, Server.step, hno] at h
  simp only [callStep, Callback.event, observedStep, Server.step, if_pos hguard, Option.map_some, List.nil_append]

/-- A callback of a closed field does the same whatever lies behind the bytes received; the other callbacks do not
look there. -/
theorem callStep_closed {t : Observed} {c : Callback × CallEnv} (hin : c.1.inside received.length)
    (hc : FieldsClosed fd received t c t) (rest₁ rest₂ : Mem) :
    callStep fd received rest₁ t c = callStep fd received rest₂ t c := by
  obtain ⟨c, env⟩ := c
  cases c with
  | url | msgComplete => rfl
  | headerField ofs len =>
    have hsame : ∀ rest, (t.1.fdtab fd).session.map (Server.httpOnHeaderField · ((received ++ rest).drop ofs)) =
        (t.1.fdtab fd).session.map (Server.httpOnHeaderField · (received.drop ofs)) := by
      intro rest
      cases hs : (t.1.fdtab fd).session with
      | none => rfl
      | some sess =>
        have hclosed : FieldClosed (received.drop ofs) := hc (by rw [hs]; exact Option.some_ne_none sess)
        rw [Option.map_some, Option.map_some, drop_append_inside hin, httpOnHeaderField_closed hclosed]
    have hset : ∀ rest, (t.1.setFd fd fun e =>
        { e with session := e.session.map (Server.httpOnHeaderField · ((received ++ rest).drop ofs)) }) =
        t.1.setFd fd fun e => { e with session := e.session.map (Server.httpOnHeaderField · (received.drop ofs)) } := by
      intro rest
      simp only [Server.setFd, Server.mk.injEq, true_and, and_true]
      funext x
      by_cases hx : x = fd
      · subst hx
        simp only [if_true, hsame rest]
      · simp only [if_neg hx]
    simp only [callStep, Callback.event, observedStep, Server.step, hset]

/-- Callbacks of closed fields go through the same states whatever lies behind the bytes received. -/
theorem trace_closed {rest₁ : Mem} (rest₂ : Mem) {t : Observed} {cs : List (Callback × CallEnv)}
    (hin : ∀ c ∈ cs, c.1.inside received.length)
    (h : AllSteps (callStep fd received rest₁) (FieldsClosed fd received) t cs) :
    trace (callStep fd received rest₁) t cs = trace (callStep fd received rest₂) t cs := by
  induction cs generalizing t with
  | nil => rfl
  | cons c cs ih =>
    cases hs : callStep fd received rest₁ t c with
    | none =>
      have hs₂ : callStep fd received rest₂ t c = none := by
        obtain ⟨c, env⟩ := c
        cases c with
        | url | msgComplete => exact hs
        | headerField ofs len =>
          rw [Option.eq_none_iff_forall_ne_some]
          intro t' ht'
          rw [callStep_headerField ht' rest₁] at hs
          nomatch hs
      rw [trace_cons_none hs, trace_cons_none hs₂]
    | some t' =>
      obtain ⟨hc, hrest⟩ := h t' hs
      have hs₂ := (callStep_closed (hin c List.mem_cons_self) hc rest₁ rest₂).symm.trans hs
      rw [trace_cons_some hs, trace_cons_some hs₂, ih (fun c' hc' => hin c' (List.mem_cons_of_mem _ hc')) hrest]

/-- A field that is not closed tells two contents of the buffer apart. -/
theorem headerField_open (beyond : Mem) {t : Observed} {ofs len : Nat} {env : CallEnv} {rest : Mem} {t' : Observed}
    (hroom : received.length + 14 ≤ 1024) (hin : ofs + len ≤ received.length)
    (hs : callStep fd received rest t (.headerField ofs len, env) = some t') (hsess : (t.1.fdtab fd).session ≠ none)
    (hopen : ¬FieldClosed (received.drop ofs)) :
    ∃ left₁ left₂ : Mem, received.length + left₁.length = 1024 ∧ received.length + left₂.length = 1024 ∧
      callStep fd received (left₁ ++ beyond) t (.headerField ofs len, env) ≠
        callStep fd received (left₂ ++ beyond) t (.headerField ofs len, env) := by
  obtain ⟨sess, hsess⟩ := Option.ne_none_iff_exists'.mp hsess
  obtain ⟨pre, nm, hpre, hread⟩ := httpOnHeaderField_open hopen
  have hcookie : ∀ v pad : Mem, (13 : UInt8) ∉ v → (0 : UInt8) ∉ v →
      ∀ t', callStep fd received (pre ++ v ++ 13 :: pad ++ beyond) t (.headerField ofs len, env) = some t' →
        (t'.1.fdtab fd).session = some { sess with cookie := some (nm ++ v) } := by
    intro v pad h13 h0 t' ht'
    rw [callStep_headerField hs, Option.some.injEq] at ht'
    rw [← ht', drop_append_inside hin, List.append_assoc _ (13 :: pad), List.cons_append]
    simp only [Server.setFd, if_true, hsess, Option.map_some, hread v (pad ++ beyond) sess h13 h0]
  let pad₁ : Mem := List.replicate (1024 - received.length - pre.length - 1) 0
  let pad₂ : Mem := List.replicate (1024 - received.length - pre.length - 2) 0
  refine ⟨pre ++ [] ++ 13 :: pad₁, pre ++ [97] ++ 13 :: pad₂, ?_, ?_, fun heq => ?_⟩
  · simp only [pad₁, List.length_append, List.length_nil, List.length_cons, List.length_replicate]
    omega
  · simp only [pad₂, List.length_append, List.length_nil, List.length_cons, List.length_replicate]
    omega
  · have hstep := callStep_headerField hs (pre ++ [] ++ 13 :: pad₁ ++ beyond)
    have h₁ := hcookie [] pad₁ (by decide) (by decide) _ hstep
    have h₂ := hcookie [97] pad₂ (by decide) (by decide) _ (heq.symm.trans hstep)
    rw [h₁] at h₂
    simp at h₂

/-- Callbacks that go through the same states for any two contents of the buffer are callbacks of closed fields. -/
theorem closed_of_trace {beyond : Mem} (hroom : received.length + 14 ≤ 1024) {t : Observed}
    {cs : List (Callback × CallEnv)} (hin : ∀ c ∈ cs, c.1.inside received.length)
    (h : ∀ left₁ left₂ : Mem, received.length + left₁.length = 1024 → received.length + left₂.length = 1024 →
      trace (callStep fd received (left₁ ++ beyond)) t cs = trace (callStep fd received (left₂ ++ beyond)) t cs)
    (left : Mem) : AllSteps (callStep fd received (left ++ beyond)) (FieldsClosed fd received) t cs := by
  induction cs generalizing t with
  | nil => trivial
  | cons c cs ih =>
    intro t' hs
    have hc : FieldsClosed fd received t c t := by
      obtain ⟨c, env⟩ := c
      cases c with
      | url | msgComplete => trivial
      | headerField ofs len =>
        intro hsess
        by_contra hopen
        obtain ⟨left₁, left₂, h₁, h₂, hne⟩ :=
          headerField_open beyond hroom (hin _ List.mem_cons_self) hs hsess hopen
        have htrace := h left₁ left₂ h₁ h₂
        rw [trace_cons_some (callStep_headerField hs _), trace_cons_some (callStep_headerField hs _)] at htrace
        refine hne ?_
        rw [callStep_headerField hs, callStep_headerField hs, (List.cons.inj htrace).1]
    refine ⟨hc, ih (fun c' hc' => hin c' (List.mem_cons_of_mem _ hc')) fun left₁ left₂ h₁ h₂ => ?_⟩
    have hstep : ∀ l : Mem, callStep fd received (l ++ beyond) t c = some t' := fun l =>
      (callStep_closed (hin c List.mem_cons_self) hc _ _).trans hs
    have htrace := h left₁ left₂ h₁ h₂
    rw [trace_cons_some (hstep left₁), trace_cons_some (hstep left₂)] at htrace
    exact (List.cons.inj htrace).2

end

theorem calls_inside {σ : Type} (p : HttpParser σ) (st : σ) (received : List UInt8) (env : Nat → CallEnv) :
    ∀ c ∈ calls p st received env, c.1.inside received.length := by
  intro c hc
  unfold calls at hc
  split at hc
  · nomatch hc
  · obtain ⟨⟨cb, i⟩, hmem, rfl⟩ := List.mem_map.mp hc
    exact p.inside st received cb (List.fst_mem_of_mem_zipIdx hmem)

/-- What a read does is the same for any two contents of the buffer behind the bytes received if every header field
that a callback reaches in it is closed; and only then, where the buffer has room for a cookie behind the bytes
received. -/
theorem request_attribution {σ : Type} (p : HttpParser σ) (st : σ) (received left beyond : Mem)
    (env : Nat → CallEnv) (fd : Fd) (t : Observed) :
    (AllSteps (callStep fd received (left ++ beyond)) (FieldsClosed fd received) t (calls p st received env) →
      Attributed p st received env fd beyond t) ∧
    (received.length + 14 ≤ 1024 → Attributed p st received env fd beyond t →
      AllSteps (callStep fd received (left ++ beyond)) (FieldsClosed fd received) t (calls p st received env)) := by
  have hin := calls_inside p st received env
  constructor
  · intro h left₁ left₂ _ _
    refine Prod.ext ?_ rfl
    exact (trace_closed (left₁ ++ beyond) hin h).symm.trans (trace_closed (left₂ ++ beyond) hin h)
  · intro hroom h
    refine closed_of_trace hroom hin (fun left₁ left₂ h₁ h₂ => ?_) left
    exact congrArg Prod.fst (h left₁ left₂ h₁ h₂)

instance (s : Mem) : Decidable (FieldClosed s) := by
  unfold FieldClosed
  infer_instance

instance (fd : Fd) (received : Mem) (t : Observed) (c : Callback × CallEnv) (t' : Observed) :
    Decidable (FieldsClosed fd received t c t') := by
  unfold FieldsClosed
  split <;> infer_instance

instance (n : Nat) (c : Callback) : Decidable (c.inside n) := by
  unfold Callback.inside
  split <;> infer_instance

/-- A parser on one text, of which it makes these callbacks, and which it parses to its end; it refuses any other. -/
def parserOf (text : List UInt8) (callbacks : List Callback) (h : ∀ c ∈ callbacks, c.inside text.length) :
    HttpParser Unit where
  execute := fun _ bytes =>
    if bytes = text then ⟨callbacks, text.length, false, ()⟩ else ⟨[], 0, false, ()⟩
  inside := by
    intro _ bytes c hc
    split at hc
    · rename_i heq
      rw [heq]
      exact h c hc
    · nomatch hc

/-- A server with one HTTP connection. -/
def oneHttpConnection : Observed := ((freshServer.eventAccept .httpPubsub 5).1, [.accepted 5])

/-- A request that arrives whole. -/
def wholeRequest : List UInt8 := lit "GET /ack HTTP/1.1\r\nCookie: zchat=abcdefghij\r\n\r\n"

/-- The first part of one, cut off in front of the colon of its cookie. -/
def cutRequest : List UInt8 := lit "GET /ack HTTP/1.1\r\nCookie"

/-- What a whole request does is its own. -/
theorem request_attribution_whole :
    Attributed (parserOf wholeRequest [.url 4 4, .headerField 19 6, .msgComplete] (by decide)) () wholeRequest
      (fun _ => ⟨⟨1, 0⟩, [], []⟩) 5 [] oneHttpConnection :=
  (request_attribution _ () wholeRequest [] [] _ 5 oneHttpConnection).1 (by decide +kernel)

/-- A request cut off behind the name of its cookie header takes the cookie of the request that was in the buffer
before. -/
theorem request_takes_other_cookie :
    ¬Attributed (parserOf cutRequest [.url 4 4, .headerField 19 6] (by decide)) () cutRequest
      (fun _ => ⟨⟨1, 0⟩, [], []⟩) 5 [] oneHttpConnection := by
  intro h
  have heq := h (lit ": zchat=abcdefghij\r" ++ List.replicate 980 0) (List.replicate 999 0) (by decide +kernel)
    (by decide +kernel)
  have hsess := congrArg (fun r => r.1.map fun t => (t.1.fdtab 5).session) heq
  exact absurd hsess (by decide +kernel)

end ZeroServ
