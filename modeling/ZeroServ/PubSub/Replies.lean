import ZeroServ.PubSub.Leftover

/-!
# What a reply says

`model_process` starts from `C_SUCCESS` and keeps it where a parameter lacks its delimiter, and takes whatever
follows a command word for its parameter. So `success` may be the reply to a request that did nothing, or did what
nobody asked for. `replies_true_iff`: in a run every reply is true exactly if every request is well formed or the
model refuses it.
-/

namespace ZeroServ

open CString Run

namespace Model

/-! ## Requests -/

/-- The commands that are answered `success` or `error` for what they do. -/
def operations : List Action := [.create, .delete, .unsub, .pub, .login, .logup]

/-- A well-formed request: a command word, and behind a delimiter each its arguments, none of them empty. Only the
last one may hold the delimiter. -/
inductive IsRequest (delim : UInt8) : Action → List (List UInt8) → List UInt8 → Prop
  | one {a : Action} {x : List UInt8} (ha : a = .create ∨ a = .delete ∨ a = .unsub) (hx : x ≠ []) :
    IsRequest delim a [x] (word a ++ delim :: x)
  | two {a : Action} {x y : List UInt8} (ha : a = .pub ∨ a = .login ∨ a = .logup) (hx : x ≠ []) (hy : y ≠ [])
      (hd : delim ∉ x) :
    IsRequest delim a [x, y] (word a ++ delim :: (x ++ delim :: y))

def WellFormed (delim : UInt8) (a : Action) (s : List UInt8) : Prop := ∃ args, IsRequest delim a args s

/-- The operation of the model for a command, on its arguments: the code it returns and the model it leaves. -/
def operate (m : Model) (v : FdView) (fd : Fd) (sup : Supply) : Action → List (List UInt8) → Option (Ecode × Model)
  | .create, [topic] => some (m.modelTopicCreate fd topic sup)
  | .delete, [topic] => some (m.modelTopicDelete topic)
  | .unsub, [topic] => some (m.modelUnsub fd topic)
  | .pub, [topic, msg] => some ((m.modelPub v fd topic msg).1, (m.modelPub v fd topic msg).2.1)
  | .login, [user, auth] => some (m.modelAccAuth fd user auth sup.slot)
  | .logup, [user, auth] => some (m.modelAccCreate user auth)
  | _, _ => none

/-- The model refuses what `model_process` makes of a request: there is no topic of the name, no account of the
connection, of the name or with the password, or already one of the name. -/
def Refused (m : Model) (fd : Fd) (content : Mem) (delim : UInt8) : Action → Prop
  | .delete => m.topicGet (content.drop 7) = none
  | .unsub => m.topicGet (content.drop 6) = none ∨ m.accountGetByFd fd = none
  | .pub => ∃ x ∈ cut (content.drop 4) delim, m.topicGet x.1 = none ∨ m.accountGetByFd fd = none
  | .login => ∃ x ∈ cut (content.drop 6) delim, ∀ acc ∈ m.accountGet x.1, strncmp acc.auth x.2 (strlen acc.auth) = false
  | .logup => ∃ x ∈ cut (content.drop 6) delim, m.accountGet x.1 ≠ none
  | _ => False

/-- A reply of `model_process`. -/
def answer (fd : Fd) (a : Action) (text : String) : Response :=
  { fd, action := some a, content := .text (lit text), length := (lit text).length }

/-- The reply to a request is true: `success` means that the operation was executed on the arguments and returned
`C_SUCCESS`, and a request that is not well formed is answered `error` and leaves the model as it was. -/
structure ReplyTrue (m : Model) (v : FdView) (fd : Fd) (content : Mem) (delim : UInt8) (sup : Supply)
    (a : Action) : Prop where
  success : answer fd a "success" ∈ (m.modelProcess v fd content delim sup).sent →
    ∃ args, IsRequest delim a args (cstr content) ∧
    m.operate v fd sup a args = some (.success, (m.modelProcess v fd content delim sup).model)
  error : ¬WellFormed delim a (cstr content) → answer fd a "error" ∈ (m.modelProcess v fd content delim sup).sent ∧
    (m.modelProcess v fd content delim sup).model = m

/-- The string at an offset inside a string is the rest of it. -/
theorem cstr_drop {s : Mem} {k : Nat} (h : k ≤ (cstr s).length) : cstr (s.drop k) = (cstr s).drop k := by
  have hsplit : s = (cstr s).take k ++ s.drop k := by
    have htake : s.take k = (cstr s).take k := by
      obtain ⟨t, ht⟩ : cstr s <+: s := List.takeWhile_prefix _
      conv_lhs => rw [← ht]
      rw [List.take_append_of_le_length h]
    rw [← htake, List.take_append_drop]
  have h0 : (0 : UInt8) ∉ (cstr s).take k := fun hm => nul_not_mem_cstr s (List.mem_of_mem_take hm)
  conv_rhs => rw [hsplit, cstr_append h0, List.drop_left' (List.length_take_of_le h)]

/-- A parameter is cut at the first delimiter. -/
theorem cut_append {x : List UInt8} {delim : UInt8} (hd : delim ∉ x) (h0 : (0 : UInt8) ∉ x) (y : Mem) :
    cut (x ++ delim :: y) delim = some (x, y) := by
  rw [cut, strchr_append_cons hd h0, Option.map_some, List.length_append, Nat.add_sub_cancel, List.take_left,
    List.tail_cons]

section process

variable {m : Model} {v : FdView} {fd : Fd} {content : Mem} {delim : UInt8} {sup : Supply} {a : Action}

/-- What a well-formed request performs is its operation. -/
theorem perform_request {args : List (List UInt8)} (h : IsRequest delim a args (cstr content))
    (hc : command content = some a) (hd : delim ≠ 0) :
    m.operate v fd sup a args = some ((m.perform v fd content delim sup).ret,
      (m.perform v fd content delim sup).model) := by
  have hnul := nul_not_mem_cstr content
  generalize hs : cstr content = s at h hnul
  -- the parameter is the string behind the word and one delimiter
  have hparam : ∀ {w r : List UInt8}, s = w ++ delim :: r → cstr (content.drop (w.length + 1)) = cstr r := by
    intro w r hw
    have hr : (0 : UInt8) ∉ r := fun h0 => hnul (hw ▸ List.mem_append_right w (List.mem_cons_of_mem _ h0))
    rw [cstr_drop (by rw [hs, hw, List.length_append, List.length_cons]; omega), hs, hw, List.drop_length_add_append,
      cstr_eq_self hr]
    rfl
  cases h with
  | @one x ha hne =>
    have hx := hparam rfl
    rcases ha with rfl | rfl | rfl <;> unfold perform <;> rw [hc]
    · exact congrArg some (modelTopicCreate_congr m hx fd sup).symm
    · exact congrArg some (modelTopicDelete_congr m hx).symm
    · exact congrArg some (modelUnsub_congr m hx fd).symm
  | @two x y ha hx hy hdx =>
    have h0 : (0 : UInt8) ∉ x := fun h0 => hnul (by simp [h0])
    have hcut := cut_append hdx h0 y
    rcases cut_cases (hparam rfl) hd with ⟨-, hnone⟩ | ⟨x', r, y', hp, hq, hr⟩
    · rw [hcut] at hnone
      nomatch hnone
    · obtain ⟨rfl, rfl⟩ := Prod.mk.inj (Option.some.inj (hcut.symm.trans hq))
      rcases ha with rfl | rfl | rfl <;> unfold perform <;> rw [hc] <;> dsimp only [word] at hp ⊢
      · rw [show 4 = (lit "pub").length + 1 from rfl, hp, operate, modelPub_congr m hr.symm]
      · rw [show 6 = (lit "login").length + 1 from rfl, hp, operate, modelAccAuth_congr m hr.symm]
      · rw [show 6 = (lit "logup").length + 1 from rfl, hp, operate, modelAccCreate_congr m hr.symm]

/-- A command that fails and leaves the model as it was is one that the model refuses. -/
theorem refused_iff (ha : a ∈ operations) (hc : command content = some a) :
    ((m.perform v fd content delim sup).exited = false ∧ (m.perform v fd content delim sup).ret = .fail ∧
      (m.perform v fd content delim sup).model = m) ↔ m.Refused fd content delim a := by
  simp only [operations, List.mem_cons, List.not_mem_nil, or_false] at ha
  unfold perform Refused
  rw [hc]
  rcases ha with rfl | rfl | rfl | rfl | rfl | rfl <;> dsimp only
  · simp [modelTopicCreate]
  · unfold modelTopicDelete topicDelete
    cases m.topicGet (content.drop 7) <;> simp
  · unfold modelUnsub
    cases m.topicGet (content.drop 6) <;> cases m.accountGetByFd fd <;> simp
  · cases cut (content.drop 4) delim with
    | none => simp
    | some x =>
      obtain ⟨topic, msg⟩ := x
      simp only [modelPub, Option.mem_some_iff, exists_eq_left']
      cases m.topicGet topic <;> cases m.accountGetByFd fd <;> simp
  · cases cut (content.drop 6) delim with
    | none => simp
    | some x =>
      obtain ⟨user, auth⟩ := x
      simp only [modelAccAuth, Option.mem_some_iff, exists_eq_left']
      cases m.accountGet user with
      | none => simp
      | some acc => cases hp : strncmp acc.auth auth (strlen acc.auth) <;> simp [hp]
  · cases cut (content.drop 6) delim with
    | none => simp
    | some x =>
      obtain ⟨user, auth⟩ := x
      simp only [modelAccCreate, Option.mem_some_iff, exists_eq_left']
      rcases hacc : m.accountGet user with - | acc
      · -- a new account is in the model, whatever its id is as an `int`
        have hnew : (m.accountCreate user auth).2 ≠ m := by
          rw [accountCreate, hacc]
          intro h
          simpa using congrArg (fun m => m.accounts.length) h
        simp [hnew]
      · have hold : m.accountCreate user auth = (-1, m) := by rw [accountCreate, hacc]
        simp [hold]

/-- The reply is that to the code of the operation. -/
theorem answer_iff (ha : a ∈ operations) (hc : command content = some a) (hu : v.userData fd = true) :
    (m.modelProcess v fd content delim sup).model = (m.perform v fd content delim sup).model ∧
      (answer fd a "success" ∈ (m.modelProcess v fd content delim sup).sent ↔
        (m.perform v fd content delim sup).exited = false ∧ (m.perform v fd content delim sup).ret = .success) ∧
      (answer fd a "error" ∈ (m.modelProcess v fd content delim sup).sent ↔
        (m.perform v fd content delim sup).exited = false ∧ (m.perform v fd content delim sup).ret = .fail) := by
  have hcase := m.perform_cases v fd content delim sup
  have hact := hcase.action
  have hsent := hcase.sent
  rw [hc] at hact
  have hnot : ∀ text, answer fd a text ∉ (m.perform v fd content delim sup).sent := by
    intro text h
    have hrep : some a = some .repSub := hsent _ h
    obtain rfl := Option.some.inj hrep
    exact absurd ha (by decide)
  have hsub : a ≠ .sub := by
    rintro rfl
    exact absurd ha (by decide)
  have hlist : a ≠ .listTopic ∧ a ≠ .listUser := by
    constructor <;> rintro rfl <;> exact absurd ha (by decide)
  have hdiff : lit "success" ≠ lit "error" := by decide
  unfold modelProcess
  generalize m.perform v fd content delim sup = p at hact hnot ⊢
  cases hex : p.exited with
  | true => simp [hex, hnot]
  | false =>
    have hreply : reply p content = .text (if p.ret = .success then lit "success" else lit "error") := by
      unfold reply
      rw [hact]
      cases a <;> first | rfl | exact absurd rfl hlist.1 | exact absurd rfl hlist.2
    simp only [hex, hact, Option.some.injEq, hsub, hu, hreply]
    have hsucc := hnot "success"
    have herr := hnot "error"
    simp only [answer] at hsucc herr ⊢
    cases p.ret <;> simp [hsucc, herr, Content.textLength, hdiff, hdiff.symm]

theorem replyTrue_iff (ha : a ∈ operations) (hc : command content = some a) (hu : v.userData fd = true)
    (hd : delim ≠ 0) :
    ReplyTrue m v fd content delim sup a ↔ WellFormed delim a (cstr content) ∨ m.Refused fd content delim a := by
  obtain ⟨hmodel, hsuccess, herror⟩ := @answer_iff m v fd content delim sup a ha hc hu
  have hrefused := @refused_iff m v fd content delim sup a ha hc
  constructor
  · intro h
    by_cases hwf : WellFormed delim a (cstr content)
    · exact .inl hwf
    · obtain ⟨hanswer, hsame⟩ := h.error hwf
      obtain ⟨hexit, hfail⟩ := herror.mp hanswer
      exact .inr (hrefused.mp ⟨hexit, hfail, hmodel ▸ hsame⟩)
  · rintro (⟨args, hargs⟩ | href)
    · refine ⟨fun h => ⟨args, hargs, ?_⟩, fun h => absurd ⟨args, hargs⟩ h⟩
      rw [hmodel, ← (hsuccess.mp h).2]
      exact perform_request hargs hc hd
    · obtain ⟨hexit, hfail, hsame⟩ := hrefused.mpr href
      refine ⟨fun h => ?_, fun _ => ⟨herror.mpr ⟨hexit, hfail⟩, hmodel.trans hsame⟩⟩
      rw [hfail] at hsuccess
      nomatch (hsuccess.mp h).2

end process

end Model

/-! ## Runs -/

/-- A call of `model_process`: the server it finds and its arguments. -/
structure Call where
  server : Server
  fd : Fd
  content : Mem
  delim : UInt8
  sup : Supply

/-- The call that an event leads to, if it does. -/
def Server.call (s : Server) : Event → Option Call
  | .command fd content sup => some ⟨s, fd, content, 32, sup⟩
  | .msgComplete fd sup _ behind => do
    let sess ← (s.fdtab fd).session
    let url ← sess.url
    return ⟨(s.attachCookie fd sess sup).1, fd, Server.paramOf url behind, 47, sup⟩
  | _ => none

/-- The reply of a call, if it is for one of the operations, is true. -/
def Call.ReplyTrue (c : Call) : Prop := ∀ a ∈ Model.operations, Model.command c.content = some a →
  Model.ReplyTrue c.server.model c.server.view c.fd c.content c.delim c.sup a

/-- The request of a call is well formed or the model refuses it. -/
def Call.Sound (c : Call) : Prop := ∀ a ∈ Model.operations, Model.command c.content = some a →
  Model.WellFormed c.delim a (cstr c.content) ∨ c.server.model.Refused c.fd c.content c.delim a

/-- The call of an event of a run comes from a connection that the model may call back. -/
theorem call_cases {s : Server} {e : Event} {r : Server × List Obs} (hs : s.step e = some r) {c : Call}
    (hc : s.call e = some c) :
    c.server.view.userData c.fd = true ∧ c.delim ≠ 0 := by
  cases Server.step_cases hs with
  | command hserves =>
    obtain rfl := Option.some.inj hc
    exact ⟨(Server.serves_view hserves rfl).2, fun h => absurd h (by decide : (32 : UInt8) ≠ 0)⟩
  | @msgComplete fd sup rands behind sess hserves hsess =>
    simp only [Server.call, hsess, Option.bind_eq_bind, Option.bind_some, Option.bind_eq_some_iff] at hc
    obtain ⟨url, -, hc⟩ := hc
    obtain rfl := Option.some.inj hc
    have hview : (s.attachCookie fd sess sup).1.view = s.view := by simp [Server.view]
    refine ⟨?_, fun h => absurd h (by decide : (47 : UInt8) ≠ 0)⟩
    rw [hview]
    exact (Server.serves_view hserves rfl).2
  | accept | url | headerField | close => cases hc

theorem call_reply_iff {s : Server} {e : Event} {r : Server × List Obs} (hs : s.step e = some r) :
    (∀ c ∈ s.call e, c.ReplyTrue) ↔ ∀ c ∈ s.call e, c.Sound := by
  refine forall₂_congr fun c hc => ?_
  obtain ⟨hu, hd⟩ := call_cases hs hc
  exact forall₃_congr fun a ha hcom => Model.replyTrue_iff ha hcom hu hd

/-- In a run every reply is true exactly if every request is well formed or refused. -/
theorem replies_true_iff (fdtab : Fd → FdEntry) (maxConn : Int) (es : List Event) :
    AllSteps observedStep (fun t e _ => ∀ c ∈ t.1.call e, c.ReplyTrue) (Server.init fdtab maxConn, []) es ↔
      AllSteps observedStep (fun t e _ => ∀ c ∈ t.1.call e, c.Sound) (Server.init fdtab maxConn, []) es := by
  refine AllSteps.congr (AllStates.of_step (I := fun _ => True) trivial (fun _ _ _ _ _ => trivial) es)
    fun t e t' _ hstep => ?_
  obtain ⟨seen, hs, -⟩ := observed_step hstep
  exact call_reply_iff hs

/-- A publication without a message is answered `success`. -/
theorem pub_without_message_succeeds : ¬AllSteps observedStep (fun t e _ => ∀ c ∈ t.1.call e, c.ReplyTrue)
    (freshServer, []) [.accept .pubsub 5, plainCommand 5 "pub foo" 0] := by
  intro h
  have hcall := @AllSteps.last _ _ _ _ _ _ _ [Event.accept .pubsub 5] _ h rfl rfl
  have htrue := hcall _ rfl .pub (by decide) (by decide +kernel)
  have herror := (htrue.error ?_).1
  · exact absurd herror (by decide +kernel)
  · -- nothing delimits a message from the topic
    rintro ⟨args, hargs⟩
    generalize hs : cstr _ = s at hargs
    cases hargs with
    | one ha => exact absurd ha (by decide)
    | @two x y =>
      have hmem : (32 : UInt8) ∈ (lit "foo") := by
        rw [show lit "foo" = x ++ 32 :: y from congrArg (List.drop 4) hs]
        exact List.mem_append_right x (List.mem_cons_self ..)
      exact absurd hmem (by decide)

end ZeroServ
