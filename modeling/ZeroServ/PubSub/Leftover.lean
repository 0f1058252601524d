import ZeroServ.Lib.Run
import ZeroServ.PubSub.Frame
import ZeroServ.PubSub.PlainText
import ZeroServ.PubSub.Writes

/-!
# What a plain request reads

`model_process` reads of its content the command string and, past the command word and one byte more, the parameter;
a bare command word has its parameter behind the NUL that ends it. `modelProcess_reads` says that nothing else is
read. A request ends inside what was received (`Inside`) when both strings do; `leftover_iff` says that no byte
behind what was received then influences a request, and that it can otherwise.
-/

namespace ZeroServ

open CString

namespace Model

/-! ## Strings -/

section strings

variable (m : Model) {p q : Mem} (h : cstr p = cstr q)

include h

theorem topicGet_congr : m.topicGet p = m.topicGet q := by
  simp only [topicGet, strcmp, h]

theorem modelTopicCreate_congr (fd : Fd) (s : Supply) : m.modelTopicCreate fd p s = m.modelTopicCreate fd q s := by
  simp only [modelTopicCreate, topicCreate, topicGet_congr m h, h]

theorem modelTopicDelete_congr : m.modelTopicDelete p = m.modelTopicDelete q := by
  have hdelete : m.topicDelete p = m.topicDelete q := by
    rw [topicDelete, topicDelete, topicGet_congr m h]
  rw [modelTopicDelete, modelTopicDelete, hdelete]

theorem modelSub_congr (fd : Fd) (slot : Nat) : m.modelSub fd p slot = m.modelSub fd q slot := by
  simp only [modelSub, topicGet_congr m h]

theorem modelUnsub_congr (fd : Fd) : m.modelUnsub fd p = m.modelUnsub fd q := by
  simp only [modelUnsub, topicGet_congr m h]

theorem topicListUser_congr : m.topicListUser p = m.topicListUser q := by
  simp only [topicListUser, topicGet_congr m h]

theorem modelPub_congr (v : FdView) (fd : Fd) (topic : Mem) : m.modelPub v fd topic p = m.modelPub v fd topic q := by
  simp only [modelPub, bdcMsg, h]

theorem modelAccAuth_congr (fd : Fd) (user : Mem) (slot : Nat) :
    m.modelAccAuth fd user p slot = m.modelAccAuth fd user q slot := by
  have hauth : ∀ a n, strncmp a p n = strncmp a q n := by
    intro a n
    rw [strncmp, strncmp, h]
  unfold modelAccAuth
  split
  · rfl
  · rw [hauth]

theorem modelAccCreate_congr (user : Mem) : m.modelAccCreate user p = m.modelAccCreate user q := by
  have hcreate : m.accountCreate user p = m.accountCreate user q := by
    rw [accountCreate, accountCreate, h]
  rw [modelAccCreate, modelAccCreate, hcreate]

theorem command_congr : command p = command q := by
  have hcompare : compare p = compare q := by
    funext w
    rw [compare, compare, strncmp, strncmp, h]
  rw [command, command, hcompare]

end strings

/-- Where the parameter of a command is. -/
def paramOfs : Action → Option Nat
  | .create | .delete => some 7
  | .listUser => some 10
  | .sub | .pub => some 4
  | .unsub | .login | .logup => some 6
  | _ => none

/-- A parameter that is cut gives the same strings, if it is the same string. -/
theorem cut_congr {p q : Mem} (h : cstr p = cstr q) {delim : UInt8} (hd : delim ≠ 0) :
    (cut p delim).map (fun x => (x.1, cstr x.2)) = (cut q delim).map fun x => (x.1, cstr x.2) := by
  have hstring : ∀ p : Mem, (cut p delim).map (fun x => (x.1, cstr x.2)) = cut (cstr p) delim := by
    intro p
    by_cases h0 : (0 : UInt8) ∈ p
    · obtain ⟨a, b, rfl, ha⟩ := List.eq_append_cons_of_mem h0
      rw [cstr_append_nul ha]
      unfold cut
      cases hc : strchr a delim with
      | none =>
        rw [strchr_append_of_none ha hc]
        simp [strchr, Ne.symm hd]
      | some pos =>
        rw [strchr_append_of_some hc]
        obtain ⟨s, r, rfl, rfl, -, -⟩ := strchr_eq_some hc
        have hr : (0 : UInt8) ∉ r := fun h0 => ha (by simp [h0])
        simp [cstr_append_nul hr]
    · rw [cstr_eq_self h0]
      unfold cut
      cases hc : strchr p delim with
      | none => rfl
      | some pos =>
        obtain ⟨s, r, rfl, rfl, -, -⟩ := strchr_eq_some hc
        have hr : (0 : UInt8) ∉ r := fun h => h0 (by simp [h])
        simp [cstr_eq_self hr]
  rw [hstring, hstring, h]

/-- Two cuts that give the same strings. -/
theorem cut_cases {p q : Mem} (h : cstr p = cstr q) {delim : UInt8} (hd : delim ≠ 0) :
    (cut p delim = none ∧ cut q delim = none) ∨
      ∃ s r r', cut p delim = some (s, r) ∧ cut q delim = some (s, r') ∧ cstr r = cstr r' := by
  have hcut := cut_congr h hd
  rcases hp : cut p delim with _ | ⟨s, r⟩ <;> rcases hq : cut q delim with _ | ⟨s', r'⟩ <;> rw [hp, hq] at hcut
  · exact .inl ⟨rfl, rfl⟩
  · nomatch hcut
  · nomatch hcut
  · obtain ⟨rfl, hr⟩ := Prod.mk.inj (Option.some.inj hcut)
    exact .inr ⟨s, r, r', rfl, rfl, hr⟩

section reads

variable {c₁ c₂ : Mem} (hs : cstr c₁ = cstr c₂)
  (hp : ∀ a k, command c₁ = some a → paramOfs a = some k → cstr (c₁.drop k) = cstr (c₂.drop k))

include hs hp

theorem perform_reads (m : Model) (v : FdView) (fd : Fd) {delim : UInt8} (hd : delim ≠ 0) (s : Supply) :
    m.perform v fd c₁ delim s = m.perform v fd c₂ delim s := by
  unfold perform
  rw [← command_congr hs]
  rcases hc : command c₁ with _ | a
  · rfl
  cases a with
  | create => simp only [modelTopicCreate_congr m (hp _ _ hc rfl)]
  | delete => simp only [modelTopicDelete_congr m (hp _ _ hc rfl)]
  | sub => simp only [modelSub_congr m (hp _ _ hc rfl)]
  | unsub => simp only [modelUnsub_congr m (hp _ _ hc rfl)]
  | pub =>
    rcases cut_cases (hp _ _ hc rfl) hd with ⟨h₁, h₂⟩ | ⟨topic, r, r', h₁, h₂, hr⟩
    · simp only [h₁, h₂]
    · simp only [h₁, h₂, modelPub_congr m hr]
  | login =>
    rcases cut_cases (hp _ _ hc rfl) hd with ⟨h₁, h₂⟩ | ⟨topic, r, r', h₁, h₂, hr⟩
    · simp only [h₁, h₂]
    · simp only [h₁, h₂, modelAccAuth_congr m hr]
  | logup =>
    rcases cut_cases (hp _ _ hc rfl) hd with ⟨h₁, h₂⟩ | ⟨topic, r, r', h₁, h₂, hr⟩
    · simp only [h₁, h₂]
    · simp only [h₁, h₂, modelAccCreate_congr m hr]
  | ack | listTopic | listUser | repSub | dbgCookie => rfl

/-- `model_process` reads the command string and the parameter string only. -/
theorem modelProcess_reads (m : Model) (v : FdView) (fd : Fd) {delim : UInt8} (hd : delim ≠ 0) (s : Supply) :
    m.modelProcess v fd c₁ delim s = m.modelProcess v fd c₂ delim s := by
  have hperform := perform_reads hs hp m v fd hd s
  have hreply : reply (m.perform v fd c₂ delim s) c₁ = reply (m.perform v fd c₂ delim s) c₂ := by
    have haction : (m.perform v fd c₂ delim s).action = command c₁ := by
      rw [command_congr hs]
      exact (perform_cases m v fd c₂ delim s).action
    unfold reply
    rcases hc : command c₁ with _ | a <;> rw [haction, hc]
    · simp only [hs]
    · cases a with
      | listUser => simp only [topicListUser_congr _ (hp _ _ hc rfl)]
      | _ => rfl
  simp only [modelProcess, hperform, hreply]

end reads

theorem paramOfs_word {a : Action} {k : Nat} (h : paramOfs a = some k) : k = (word a).length + 1 := by
  cases a <;> cases h <;> rfl

/-- The words of commands that have a parameter. -/
def bareWords : List (List UInt8) := [Action.create, .delete, .listUser, .sub, .unsub, .pub, .login, .logup].map word

theorem mem_bareWords {s : List UInt8} : s ∈ bareWords ↔ ∃ a k, paramOfs a = some k ∧ word a = s := by
  rw [bareWords, List.mem_map]
  constructor
  · rintro ⟨a, ha, rfl⟩
    have hparam : ∀ a ∈ [Action.create, .delete, .listUser, .sub, .unsub, .pub, .login, .logup],
      (paramOfs a).isSome := by decide
    obtain ⟨k, hk⟩ := Option.isSome_iff_exists.mp (hparam a ha)
    exact ⟨a, k, hk, rfl⟩
  · rintro ⟨a, k, hk, rfl⟩
    refine ⟨a, ?_, rfl⟩
    cases a <;> first | decide | cases hk

/-! ## A request that ends in what was received -/

/-- The parameter of a command that ends in what was received: a bare command word takes what follows for its
parameter. -/
theorem param_closed {s t : List UInt8} (h0 : (0 : UInt8) ∉ s) (hbare : s ∈ bareWords → (0 : UInt8) ∈ t)
    {a : Action} {k : Nat} (hc : command (s ++ 0 :: t) = some a) (hk : paramOfs a = some k) :
    k ≤ (s ++ 0 :: t).length ∧ (0 : UInt8) ∈ (s ++ 0 :: t).drop k := by
  have hword := word_prefix hc
  rw [cstr_append_nul h0] at hword
  obtain rfl := paramOfs_word hk
  have hle := hword.length_le
  refine ⟨by rw [List.length_append, List.length_cons]; omega, ?_⟩
  rcases hle.lt_or_eq with hlt | heq
  · rw [List.drop_append_of_le_length hlt]
    exact List.mem_append_right _ List.mem_cons_self
  · have hs : word a = s := hword.eq_of_length heq
    rw [heq, List.drop_length_add_append]
    exact hbare (mem_bareWords.mpr ⟨a, _, hk, hs⟩)

theorem clear_append_of_mem {p : Mem} (h0 : (0 : UInt8) ∈ p) (rest : Mem) (delim : UInt8) :
    clear (p ++ rest) delim = clear p delim ++ rest := by
  unfold clear cut
  cases hc : strchr p delim with
  | none =>
    rw [strchr_append_of_nul h0 hc]
    rfl
  | some pos =>
    rw [strchr_append_of_some hc]
    obtain ⟨a, b, rfl, rfl, -, -⟩ := strchr_eq_some hc
    simp

section closed

variable {s t : List UInt8} (h0 : (0 : UInt8) ∉ s) (hbare : s ∈ bareWords → (0 : UInt8) ∈ t) (rest : Mem)

include h0

theorem cstr_closed : cstr (s ++ 0 :: t ++ rest) = s := by
  rw [List.append_assoc, List.cons_append, cstr_append_nul h0]

theorem command_closed : command (s ++ 0 :: t ++ rest) = command (s ++ 0 :: t) := by
  refine command_congr ?_
  rw [cstr_closed h0, cstr_append_nul h0]

include hbare

/-- What such a request writes lies in what was received. -/
theorem scribble_closed : scribble (s ++ 0 :: t ++ rest) 32 = scribble (s ++ 0 :: t) 32 ++ rest := by
  have hclear : ∀ {a : Action} {k : Nat}, command (s ++ 0 :: t) = some a → paramOfs a = some k →
      (s ++ 0 :: t ++ rest).take k ++ clear ((s ++ 0 :: t ++ rest).drop k) 32 =
        (s ++ 0 :: t).take k ++ clear ((s ++ 0 :: t).drop k) 32 ++ rest := by
    intro a k hc hk
    obtain ⟨hle, hmem⟩ := param_closed h0 hbare hc hk
    rw [List.take_append_of_le_length hle, List.drop_append_of_le_length hle, clear_append_of_mem hmem,
      List.append_assoc]
  unfold scribble
  rw [command_closed h0]
  split
  · next hc => exact hclear hc rfl
  · next hc => exact hclear hc rfl
  · next hc => exact hclear hc rfl
  · rfl

/-- Such a request is the same whatever lies behind what was received. -/
theorem modelProcess_closed (m : Model) (v : FdView) (fd : Fd) (sup : Supply) :
    m.modelProcess v fd (s ++ 0 :: t ++ rest) 32 sup = m.modelProcess v fd (s ++ 0 :: t) 32 sup := by
  refine modelProcess_reads ?_ ?_ m v fd (by decide) sup
  · rw [cstr_closed h0, cstr_append_nul h0]
  · intro a k hc hk
    rw [command_closed h0] at hc
    obtain ⟨hle, hmem⟩ := param_closed h0 hbare hc hk
    rw [List.drop_append_of_le_length hle, cstr_append_of_mem hmem]

end closed

/-! ## What tells the strings behind a bare command word apart -/

/-- A bare command word has its parameter behind the NUL that ends it. -/
theorem command_bare {a : Action} {k : Nat} (hk : paramOfs a = some k) (p : Mem) :
    command (word a ++ 0 :: p) = some a ∧ (word a ++ 0 :: p).drop k = p := by
  have h0 : (0 : UInt8) ∉ word a ∧ command (word a) = some a := by
    cases a <;> first | decide | cases hk
  constructor
  · rw [← h0.2]
    refine command_congr ?_
    rw [cstr_append_nul h0.1, cstr_eq_self h0.1]
  · rw [paramOfs_word hk, List.drop_length_add_append]
    rfl

/-- One account and one topic, each with the other and with one connection. -/
def oneTopic (topic name auth : List UInt8) : Model where
  accounts := [⟨1, name, auth, [1], [5]⟩]
  topics := [⟨1, topic, [1], [5]⟩]
  accountIds := 1

/-- Every descriptor can be called back. -/
def allViews : FdView := ⟨fun _ => true, fun _ => true⟩


theorem topicGet_oneTopic {t p : List UInt8} (h0 : (0 : UInt8) ∉ t) (hp : (0 : UInt8) ∉ p) (name auth : List UInt8) :
    (oneTopic t name auth).topicGet p = if t = p then some ⟨1, t, [1], [5]⟩ else none := by
  unfold topicGet oneTopic strcmp
  rw [List.find?_singleton]
  dsimp only
  rw [cstr_eq_self h0, cstr_eq_self hp]
  simp

theorem create_tells {t : List UInt8} (h0 : (0 : UInt8) ∉ t) :
    (({} : Model).perform allViews 5 (word .create ++ 0 :: t) 32 ⟨1, 0⟩).model.topics.map (·.name) = [t] := by
  obtain ⟨hc, hd⟩ := command_bare (a := .create) rfl t
  unfold perform
  rw [hc]
  dsimp only
  rw [hd]
  simp [modelTopicCreate, topicCreate, topicGet, topicSub, setTopic, vectorIsExist, cstr_eq_self h0]

/-- A topic is found by its name. -/
theorem found_tells {a : Action} (ha : a = .delete ∨ a = .sub ∨ a = .unsub) {t p : List UInt8} (h0 : (0 : UInt8) ∉ t)
    (hp : (0 : UInt8) ∉ p) :
    ((oneTopic t [] []).perform allViews 5 (word a ++ 0 :: p) 32 ⟨1, 0⟩).ret = .success ↔ t = p := by
  have hget := topicGet_oneTopic h0 hp [] []
  have hacc : (oneTopic t [] []).accountGetByFd 5 = some ⟨1, [], [], [1], [5]⟩ := rfl
  obtain ⟨hc, hd⟩ : command (word a ++ 0 :: p) = some a ∧ (word a ++ 0 :: p).drop ((word a).length + 1) = p := by
    rcases ha with rfl | rfl | rfl <;> exact command_bare rfl p
  unfold perform
  rw [hc]
  rcases ha with rfl | rfl | rfl <;> dsimp only [word] at hd ⊢
  · rw [show 7 = (lit "delete").length + 1 from rfl, hd, modelTopicDelete, topicDelete, hget]
    split_ifs with h <;> simp [h]
  · rw [show 4 = (lit "sub").length + 1 from rfl, hd, modelSub, hget, hacc]
    split_ifs with h <;> simp [h]
  · rw [show 6 = (lit "unsub").length + 1 from rfl, hd, modelUnsub, hget, hacc]
    split_ifs with h <;> simp [h]

theorem listUser_tells {t p : List UInt8} (h0 : (0 : UInt8) ∉ t) (hp : (0 : UInt8) ∉ p) :
    ((oneTopic t [] []).modelProcess allViews 5 (word .listUser ++ 0 :: p) 32 ⟨1, 0⟩).sent.map (·.content) =
      [.members (if t = p then [⟨1, [], [], [1], [5]⟩] else [])] := by
  obtain ⟨hc, hd⟩ := command_bare (a := .listUser) rfl p
  have hlist : (oneTopic t [] []).topicListUser p = if t = p then [⟨1, [], [], [1], [5]⟩] else [] := by
    rw [topicListUser, topicGet_oneTopic h0 hp]
    split_ifs with h <;> simp [h, oneTopic]
  unfold modelProcess perform
  rw [hc]
  simp [reply, hd, hlist, allViews]

theorem cut_tells {a : Action} (ha : a = .login ∨ a = .logup) (p : Mem) :
    (({} : Model).perform allViews 5 (word a ++ 0 :: p) 32 ⟨1, 0⟩).state =
      if (cut p 32).isSome then Zb.setWr else Zb.close := by
  obtain ⟨hc, hd⟩ : command (word a ++ 0 :: p) = some a ∧ (word a ++ 0 :: p).drop 6 = p := by
    rcases ha with rfl | rfl <;> exact command_bare rfl p
  unfold perform
  rw [hc]
  rcases ha with rfl | rfl <;> dsimp only <;> rw [hd] <;> rcases cut p 32 with _ | ⟨user, auth⟩ <;> rfl

theorem pub_tells (p : Mem) :
    (({} : Model).perform allViews 5 (word .pub ++ 0 :: p) 32 ⟨1, 0⟩).ret =
      if (cut p 32).isSome then .fail else .success := by
  obtain ⟨hc, hd⟩ := command_bare (a := .pub) rfl p
  unfold perform
  rw [hc]
  dsimp only
  rw [hd]
  rcases cut p 32 with _ | ⟨topic, msg⟩ <;> rfl

/-- The password is compared on its length. -/
theorem login_tells {p user auth auth' : List UInt8} (hcut : cut p 32 = some (user, auth')) (h0 : (0 : UInt8) ∉ auth)
    (h0' : (0 : UInt8) ∉ auth') :
    ((oneTopic [] user auth).perform allViews 5 (word .login ++ 0 :: p) 32 ⟨1, 0⟩).ret = .success ↔ auth <+: auth' := by
  obtain ⟨hc, hd⟩ := command_bare (a := .login) rfl p
  have hget : (oneTopic [] user auth).accountGet user = some ⟨1, user, auth, [1], [5]⟩ := by
    simp [accountGet, oneTopic, strcmp]
  have hauth : strncmp auth auth' (strlen auth) = true ↔ auth <+: auth' := by
    rw [strncmp_strlen_iff, cstr_eq_self h0, cstr_eq_self h0']
  unfold perform
  rw [hc]
  dsimp only
  rw [hd, hcut]
  dsimp only
  rw [modelAccAuth, hget]
  dsimp only
  rw [← hauth]
  split <;> simp [*]

theorem logup_tells {p user auth : List UInt8} (hcut : cut p 32 = some (user, auth)) (h0 : (0 : UInt8) ∉ auth) :
    (({} : Model).perform allViews 5 (word .logup ++ 0 :: p) 32 ⟨1, 0⟩).model.accounts.map (·.auth) = [auth] := by
  obtain ⟨hc, hd⟩ := command_bare (a := .logup) rfl p
  unfold perform
  rw [hc]
  dsimp only
  rw [hd, hcut]
  simp [modelAccCreate, accountCreate, accountGet, cstr_eq_self h0]

theorem deliver_tells {p topic msg : List UInt8} (hcut : cut p 32 = some (topic, msg)) (ht : (0 : UInt8) ∉ topic)
    (h0 : (0 : UInt8) ∉ msg) :
    ((oneTopic topic [] []).perform allViews 5 (word .pub ++ 0 :: p) 32 ⟨1, 0⟩).sent.map (·.length) =
      [msg.length + 2] := by
  obtain ⟨hc, hd⟩ := command_bare (a := .pub) rfl p
  have hacc : (oneTopic topic [] []).accountGetByFd 5 = some ⟨1, [], [], [1], [5]⟩ := rfl
  unfold perform
  rw [hc]
  dsimp only
  rw [hd, hcut]
  dsimp only
  rw [modelPub, topicGet_oneTopic ht ht, if_pos rfl, hacc]
  simp [bdcMsg, pubLoop, allViews, cstr_eq_self h0]
  exact Nat.add_comm _ _

theorem perform_of_modelProcess {m : Model} {v : FdView} {fd : Fd} {c₁ c₂ : Mem} {delim : UInt8} {s : Supply}
    (h : m.modelProcess v fd c₁ delim s = m.modelProcess v fd c₂ delim s) :
    (m.perform v fd c₁ delim s).model = (m.perform v fd c₂ delim s).model ∧
      (m.perform v fd c₁ delim s).ret = (m.perform v fd c₂ delim s).ret ∧
      (m.perform v fd c₁ delim s).state = (m.perform v fd c₂ delim s).state := by
  obtain ⟨_, _, h₁, -⟩ := m.modelProcess_of_perform v fd c₁ delim s
  obtain ⟨_, _, h₂, -⟩ := m.modelProcess_of_perform v fd c₂ delim s
  rw [h₁, h₂] at h
  simp only [Processed.mk.injEq] at h
  exact ⟨h.1, h.2.2.1, h.2.2.2.1⟩

/-- The string behind a bare command word lacks a blank, which may follow, or it is cut at one, and more of the
second string may follow. -/
theorem cut_open {t : List UInt8} (h0 : (0 : UInt8) ∉ t) :
    (cut (t ++ []) 32 = none ∧ (cut (t ++ [32]) 32).isSome = true) ∨
      ∃ u b : List UInt8, (0 : UInt8) ∉ u ∧
        ∀ x, cut (t ++ x) 32 = some (u, b ++ x) ∧ ((0 : UInt8) ∉ t ++ x → (0 : UInt8) ∉ b ++ x) := by
  unfold cut
  cases hc : strchr t 32 with
  | none =>
    left
    rw [List.append_nil, hc, strchr_append_of_none h0 hc]
    exact ⟨rfl, rfl⟩
  | some pos =>
    right
    obtain ⟨u, b, rfl, rfl, -, hu⟩ := strchr_eq_some hc
    refine ⟨u, b, hu, fun x => ⟨?_, ?_⟩⟩
    · rw [strchr_append_of_some hc]
      simp
    · simp only [List.mem_append, List.mem_cons, not_or]
      rintro ⟨⟨-, -, hb⟩, hx⟩
      exact ⟨hb, hx⟩

/-- The string behind a bare command word is told apart from another that begins with the same bytes: by a model
without topics, or with one. -/
theorem bare_tells {a : Action} {k : Nat} (hk : paramOfs a = some k) {t : List UInt8} (h0 : (0 : UInt8) ∉ t) :
    ∃ (m : Model) (x₁ x₂ : List UInt8), (0 : UInt8) ∉ t ++ x₁ ∧ (0 : UInt8) ∉ t ++ x₂ ∧
      m.modelProcess allViews 5 (word a ++ 0 :: (t ++ x₁)) 32 ⟨1, 0⟩ ≠
        m.modelProcess allViews 5 (word a ++ 0 :: (t ++ x₂)) 32 ⟨1, 0⟩ := by
  have h1 : (0 : UInt8) ∉ t ++ [97] := by simp [h0]
  have h2 : (0 : UInt8) ∉ t ++ [32] := by simp [h0]
  have hnil : (0 : UInt8) ∉ t ++ [] := by simpa using h0
  have hne : ¬t = t ++ [97] := by simp
  have hfound : ∀ a, a = .delete ∨ a = .sub ∨ a = .unsub →
      (oneTopic t [] []).modelProcess allViews 5 (word a ++ 0 :: (t ++ [])) 32 ⟨1, 0⟩ ≠
        (oneTopic t [] []).modelProcess allViews 5 (word a ++ 0 :: (t ++ [97])) 32 ⟨1, 0⟩ := by
    intro a ha h
    have hret := (perform_of_modelProcess h).2.1
    have hsuccess := (found_tells ha h0 hnil).mpr (List.append_nil t).symm
    exact hne ((found_tells ha h0 h1).mp (hret ▸ hsuccess))
  have hclose : ∀ a, a = .login ∨ a = .logup → cut (t ++ []) 32 = none → (cut (t ++ [32]) 32).isSome = true →
      ({} : Model).modelProcess allViews 5 (word a ++ 0 :: (t ++ [])) 32 ⟨1, 0⟩ ≠
        ({} : Model).modelProcess allViews 5 (word a ++ 0 :: (t ++ [32])) 32 ⟨1, 0⟩ := by
    intro a ha hnone hsome h
    have hstate := (perform_of_modelProcess h).2.2
    rw [cut_tells ha, cut_tells ha, hnone, hsome] at hstate
    exact absurd hstate (by decide)
  have hcut := cut_open h0
  cases a with
  | ack | listTopic | repSub | dbgCookie => nomatch hk
  | delete => exact ⟨_, _, _, hnil, h1, hfound .delete (.inl rfl)⟩
  | sub => exact ⟨_, _, _, hnil, h1, hfound .sub (.inr (.inl rfl))⟩
  | unsub => exact ⟨_, _, _, hnil, h1, hfound .unsub (.inr (.inr rfl))⟩
  | create =>
    refine ⟨{}, [], [97], hnil, h1, ?_⟩
    intro h
    have hnames := congrArg (fun m => m.topics.map (·.name)) (perform_of_modelProcess h).1
    rw [create_tells hnil, create_tells h1] at hnames
    simp at hnames
  | listUser =>
    refine ⟨oneTopic t [] [], [], [97], hnil, h1, ?_⟩
    intro h
    have hmembers := congrArg (fun p => p.sent.map (·.content)) h
    rw [listUser_tells h0 hnil, listUser_tells h0 h1] at hmembers
    simp at hmembers
  | pub =>
    rcases hcut with ⟨hnone, hsome⟩ | ⟨u, b, hu, hcut⟩
    · refine ⟨{}, [], [32], hnil, h2, ?_⟩
      intro h
      have hret := (perform_of_modelProcess h).2.1
      rw [pub_tells, pub_tells, hnone, hsome] at hret
      nomatch hret
    · refine ⟨oneTopic u [] [], [], [97], hnil, h1, ?_⟩
      intro h
      obtain ⟨_, _, h₁, -⟩ := (oneTopic u [] []).modelProcess_of_perform allViews 5
        (word .pub ++ 0 :: (t ++ [])) 32 ⟨1, 0⟩
      obtain ⟨_, _, h₂, -⟩ := (oneTopic u [] []).modelProcess_of_perform allViews 5
        (word .pub ++ 0 :: (t ++ [97])) 32 ⟨1, 0⟩
      rw [h₁, h₂] at h
      have hsent := congrArg (fun p => p.sent.map (·.length)) h
      simp only [List.map_append, deliver_tells (hcut []).1 hu ((hcut []).2 hnil),
        deliver_tells (hcut [97]).1 hu ((hcut [97]).2 h1)] at hsent
      simp at hsent
  | login =>
    rcases hcut with ⟨hnone, hsome⟩ | ⟨u, b, hu, hcut⟩
    · exact ⟨_, _, _, hnil, h2, hclose .login (.inl rfl) hnone hsome⟩
    · have hb := (hcut [97]).2 h1
      refine ⟨oneTopic [] u (b ++ [97]), [], [97], hnil, h1, ?_⟩
      intro h
      have hret := (perform_of_modelProcess h).2.1
      have hsuccess := (login_tells (hcut [97]).1 hb hb).mpr (List.prefix_refl _)
      have hprefix := (login_tells (hcut []).1 hb ((hcut []).2 hnil)).mp (hret.trans hsuccess)
      have hlen := hprefix.length_le
      simp at hlen
  | logup =>
    rcases hcut with ⟨hnone, hsome⟩ | ⟨u, b, hu, hcut⟩
    · exact ⟨_, _, _, hnil, h2, hclose .logup (.inr rfl) hnone hsome⟩
    · refine ⟨{}, [], [97], hnil, h1, ?_⟩
      intro h
      have hauths := congrArg (fun m => m.accounts.map (·.auth)) (perform_of_modelProcess h).1
      rw [logup_tells (hcut []).1 ((hcut []).2 hnil), logup_tells (hcut [97]).1 ((hcut [97]).2 h1)] at hauths
      simp at hauths

end Model

open Model (scribble bareWords)
open Run (exec exec_cons)

/-- What was received, with the NULs that `format_msg` writes, is a sequence of requests that end in it: each is
followed by a NUL and another byte, and a bare command word by a second string, its parameter, that ends too. -/
inductive Inside : List UInt8 → Prop
  | nil : Inside []
  | request {s t : List UInt8} (h0 : (0 : UInt8) ∉ s) (hbare : s ∈ bareWords → (0 : UInt8) ∈ t)
    (hnext : Inside ((scribble (s ++ 0 :: t) 32).drop (s.length + 2))) : Inside (s ++ 0 :: t)

/-- Two calls of `model_process` that are the same request: the same string, and in every state of the model the same
effect. -/
def SameRequest (c₁ c₂ : Mem) : Prop :=
  cstr c₁ = cstr c₂ ∧
    ∀ (m : Model) (v : FdView) (fd : Fd) (sup : Supply), m.modelProcess v fd c₁ 32 sup = m.modelProcess v fd c₂ 32 sup

/-- The loop on a request that ends in what was received. -/
theorem requests_closed {s t : List UInt8} (h0 : (0 : UInt8) ∉ s) (hbare : s ∈ bareWords → (0 : UInt8) ∈ t) (k : Nat)
    (rest : Mem) :
    requests (k + 1) (s ++ 0 :: t ++ rest) (s ++ 0 :: t).length =
      (s ++ 0 :: t ++ rest) :: requests k ((scribble (s ++ 0 :: t) 32).drop (s.length + 2) ++ rest)
        ((scribble (s ++ 0 :: t) 32).drop (s.length + 2)).length := by
  have hlen : (s ++ 0 :: t).length = s.length + 1 + t.length := by
    simp only [List.length_append, List.length_cons]
    omega
  have hsize := Model.scribble_length (s ++ 0 :: t) 32
  rw [requests_succ k _ (by omega), Model.scribble_closed h0 hbare, List.length_drop, hsize]
  congr 1
  rcases t with _ | ⟨b, t⟩
  · -- nothing follows, and the loop ends
    have hinc : inc (s ++ 0 :: [] ++ rest) (s ++ 0 :: []).length = (s ++ 0 :: []).length := by
      rw [inc, strlen, Model.cstr_closed h0, if_neg (by simp)]
    rw [hinc, Nat.sub_self, Nat.sub_eq_zero_of_le (by simp), requests_zero, requests_zero]
  · have hinc : inc (s ++ 0 :: b :: t ++ rest) (s ++ 0 :: b :: t).length = s.length + 2 := by
      rw [inc, strlen, Model.cstr_closed h0, if_pos (by simp)]
    rw [hinc, List.drop_append_of_le_length (by rw [hsize]; simp)]

/-- Requests that end in what was received are the same whatever lies behind it. -/
theorem inside_same {received : List UInt8} (h : Inside received) {k : Nat} (hk : received.length ≤ k)
    (rest₁ rest₂ : Mem) :
    List.Forall₂ SameRequest (requests k (received ++ rest₁) received.length)
      (requests k (received ++ rest₂) received.length) := by
  induction h generalizing k with
  | nil =>
    rw [List.length_nil, requests_zero, requests_zero]
    exact .nil
  | @request s t h0 hbare _ ih =>
    obtain ⟨k, rfl⟩ : ∃ k', k = k' + 1 := ⟨k - 1, by simp at hk; omega⟩
    rw [requests_closed h0 hbare, requests_closed h0 hbare]
    refine .cons ⟨?_, ?_⟩ (ih ?_)
    · rw [Model.cstr_closed h0, Model.cstr_closed h0]
    · intro m v fd sup
      rw [Model.modelProcess_closed h0 hbare, Model.modelProcess_closed h0 hbare]
    · rw [List.length_drop, Model.scribble_length]
      omega

/-- Some bytes, and NULs behind them. -/
def nulls (x : List UInt8) : Mem := x ++ List.replicate 1025 0

theorem cstr_nulls {s x : List UInt8} (hs : (0 : UInt8) ∉ s ++ x) : cstr (s ++ nulls x) = s ++ x := by
  rw [nulls, ← List.append_assoc, List.replicate_succ, cstr_append_nul hs]

/-- A bare command word whose parameter does not end in what was received. -/
theorem bare_differs {s t : List UInt8} (hs : s ∈ bareWords) (h0 : (0 : UInt8) ∉ t) :
    ∃ x₁ x₂ : List UInt8, ¬SameRequest (s ++ 0 :: t ++ nulls x₁) (s ++ 0 :: t ++ nulls x₂) := by
  obtain ⟨a, k, hk, rfl⟩ := Model.mem_bareWords.mp hs
  obtain ⟨m, x₁, x₂, h₁, h₂, hne⟩ := Model.bare_tells hk h0
  have hreads : ∀ x : List UInt8, (0 : UInt8) ∉ t ++ x →
      m.modelProcess Model.allViews 5 (Model.word a ++ 0 :: t ++ nulls x) 32 ⟨1, 0⟩ =
        m.modelProcess Model.allViews 5 (Model.word a ++ 0 :: (t ++ x)) 32 ⟨1, 0⟩ := by
    intro x hx
    rw [List.append_assoc, List.cons_append]
    have hword : (0 : UInt8) ∉ Model.word a := by
      cases a <;> decide
    refine Model.modelProcess_reads ?_ ?_ m _ 5 (by decide) ⟨1, 0⟩
    · rw [cstr_append_nul hword, cstr_append_nul hword]
    · intro a' k' ha' hk'
      rw [(Model.command_bare hk _).1, Option.some.injEq] at ha'
      subst ha'
      rw [(Model.command_bare hk' _).2, (Model.command_bare hk' _).2, cstr_nulls hx, cstr_eq_self hx]
  refine ⟨x₁, x₂, fun h => hne ?_⟩
  rw [← hreads x₁ h₁, ← hreads x₂ h₂]
  exact h.2 m _ 5 ⟨1, 0⟩

/-- Requests that are the same whatever lies behind what was received end in it. -/
theorem inside_of_same (n : Nat) {received : List UInt8} (hn : received.length ≤ n)
    (h : ∀ x₁ x₂, List.Forall₂ SameRequest (requests n (received ++ nulls x₁) received.length)
      (requests n (received ++ nulls x₂) received.length)) : Inside received := by
  induction n generalizing received with
  | zero =>
    obtain rfl := List.eq_nil_of_length_eq_zero (Nat.le_zero.mp hn)
    exact .nil
  | succ n ih =>
    rcases Nat.eq_zero_or_pos received.length with hzero | hpos
    · obtain rfl := List.eq_nil_of_length_eq_zero hzero
      exact .nil
    by_cases h0 : (0 : UInt8) ∈ received
    · obtain ⟨s, t, rfl, hs⟩ := List.eq_append_cons_of_mem h0
      have hbare : s ∈ bareWords → (0 : UInt8) ∈ t := by
        intro hbare
        by_contra ht
        obtain ⟨x₁, x₂, hne⟩ := bare_differs hbare ht
        have hcalls := h x₁ x₂
        rw [requests_succ n _ (by omega), requests_succ n _ (by omega)] at hcalls
        exact hne (List.forall₂_cons.mp hcalls).1
      refine .request hs hbare (ih ?_ fun x₁ x₂ => ?_)
      · rw [List.length_drop, Model.scribble_length]
        omega
      · have hcalls := h x₁ x₂
        rw [requests_closed hs hbare, requests_closed hs hbare] at hcalls
        exact (List.forall₂_cons.mp hcalls).2
    · -- the string itself goes on behind what was received
      have hcalls := h [] [97]
      rw [requests_succ n _ (by omega), requests_succ n _ (by omega)] at hcalls
      have hstring := (List.forall₂_cons.mp hcalls).1.1
      rw [cstr_nulls (by simpa using h0), cstr_nulls (by simpa using h0)] at hstring
      simp at hstring

/-! ## One read -/

/-- What the requests of one read leave: the model, the calls of `on_response`, the flags that `process_plain_text`
returns, and whether the process exited in an `ASSERT`. -/
structure Served where
  model : Model
  sent : List Response
  ret : Flags
  exited : Bool

/-- One turn of the loop, the `model_process` in it. -/
def Served.step (v : FdView) (fd : Fd) (sup : Nat → Supply) (r : Served) (call : Mem × Nat) : Served :=
  if r.exited then r
  else
    let p := r.model.modelProcess v fd call.1 32 (sup call.2)
    { model := p.model, sent := r.sent ++ p.sent, ret := p.state, exited := p.exited }

theorem Served.step_running {v : FdView} {fd : Fd} {sup : Nat → Supply} {r : Served} (h : r.exited = false)
    (c : Mem) (n : Nat) :
    Served.step v fd sup r (c, n) =
      { model := (r.model.modelProcess v fd c 32 (sup n)).model
        sent := r.sent ++ (r.model.modelProcess v fd c 32 (sup n)).sent
        ret := (r.model.modelProcess v fd c 32 (sup n)).state
        exited := (r.model.modelProcess v fd c 32 (sup n)).exited } := by
  rw [Served.step, h]
  rfl

/-- The requests of one read, run on the model. -/
def serve (m : Model) (v : FdView) (fd : Fd) (sup : Nat → Supply) (calls : List Mem) : Served :=
  calls.zipIdx.foldl (Served.step v fd sup) { model := m, sent := [], ret := Zb.nop, exited := false }

/-- The requests of one read as events of the server. -/
def commandEvents (fd : Fd) (sup : Nat → Supply) (calls : List Mem) : List Event :=
  calls.zipIdx.map fun call => .command fd call.1 (sup call.2)

theorem exec_commands {t t' : Observed} {fd : Fd} {sup : Nat → Supply} {r : Served} {calls : List Mem} {n : Nat}
    (hm : r.model = t.1.model) (he : r.exited = t.1.exited)
    (h : exec observedStep t ((calls.zipIdx n).map fun call => .command fd call.1 (sup call.2)) = some t') :
    ((calls.zipIdx n).foldl (Served.step t.1.view fd sup) r).model = t'.1.model ∧
      ((calls.zipIdx n).foldl (Served.step t.1.view fd sup) r).exited = t'.1.exited := by
  induction calls generalizing n t r with
  | nil =>
    cases h
    exact ⟨hm, he⟩
  | cons c calls ih =>
    rw [List.zipIdx_cons, List.map_cons, exec_cons, Option.bind_eq_some_iff] at h
    obtain ⟨t₁, hs, h⟩ := h
    obtain ⟨⟨s₁, seen⟩, hstep, rfl⟩ := Option.map_eq_some_iff.mp hs
    have hrun := Server.step_running hstep
    have hs₁ : (s₁, seen) = t.1.process fd c 32 (sup n) [] := by
      cases Server.step_cases hstep
      rfl
    obtain ⟨cookieList, hproc⟩ := t.1.process_eq fd c 32 (sup n) []
    rw [hproc] at hs₁
    obtain ⟨rfl, rfl⟩ := Prod.mk.inj hs₁
    rw [List.zipIdx_cons, List.foldl_cons, Served.step_running (he.trans hrun), hm]
    -- the command changes nothing that the view shows
    let p := t.1.model.modelProcess t.1.view fd c 32 (sup n)
    exact @ih ({ t.1 with model := p.model, exited := p.exited, cookieList }, _) _ _ rfl rfl h

/-- The server runs the requests of a read as they are run on its model here. -/
theorem exec_commandEvents {t t' : Observed} {fd : Fd} {sup : Nat → Supply} {calls : List Mem}
    (h : exec observedStep t (commandEvents fd sup calls) = some t') (hrun : t.1.exited = false) :
    (serve t.1.model t.1.view fd sup calls).model = t'.1.model ∧
      (serve t.1.model t.1.view fd sup calls).exited = t'.1.exited :=
  exec_commands rfl hrun.symm h

/-- The same requests leave the same. -/
theorem serve_same {calls₁ calls₂ : List Mem} (h : List.Forall₂ SameRequest calls₁ calls₂) (m : Model)
    (v : FdView) (fd : Fd) (sup : Nat → Supply) : serve m v fd sup calls₁ = serve m v fd sup calls₂ := by
  unfold serve
  generalize (⟨m, [], Zb.nop, false⟩ : Served) = r
  generalize 0 = n
  induction h generalizing r n with
  | nil => rfl
  | @cons c₁ c₂ _ _ hsame _ ih =>
    have hstep : Served.step v fd sup r (c₁, n) = Served.step v fd sup r (c₂, n) := by
      unfold Served.step
      rw [hsame.2]
    rw [List.zipIdx_cons, List.zipIdx_cons, List.foldl_cons, List.foldl_cons, hstep, ih]

/-- No byte outside of what one read receives influences a request in it: for any two contents of the buffer and of
the heap behind it, in which strings end, the requests are the same one by one. -/
def Unaffected (bytes : List UInt8) : Prop :=
  ∀ ib₁ ib₂ : InputBuffer, ib₁.Drained → ib₂.Drained →
    ∀ behind₁ behind₂ : Mem, (0 : UInt8) ∈ behind₁ → (0 : UInt8) ∈ behind₂ →
      List.Forall₂ SameRequest (ib₁.psubRead ⟨bytes, behind₁⟩).1 (ib₂.psubRead ⟨bytes, behind₂⟩).1

/-- A buffer whose rest, with the heap behind it, holds some bytes and NULs. -/
theorem exists_rest {bytes : List UInt8} (hfit : bytes.length ≤ HTTP_BUFFER_SIZE) (x : List UInt8) :
    ∃ (ib : InputBuffer) (behind : Mem), ib.Drained ∧ (0 : UInt8) ∈ behind ∧ ib.rest ⟨bytes, behind⟩ = nulls x := by
  rw [HTTP_BUFFER_SIZE] at hfit
  have hlen : (nulls x).length = x.length + 1025 := by rw [nulls, List.length_append, List.length_replicate]
  refine ⟨.init (bytes ++ (nulls x).take (1024 - bytes.length)), (nulls x).drop (1024 - bytes.length),
    ⟨?_, rfl, rfl⟩, ?_, ?_⟩
  · rw [InputBuffer.init, List.length_append, List.length_take, hlen, HTTP_BUFFER_SIZE]
    omega
  · rw [nulls, List.drop_append, List.drop_replicate]
    refine List.mem_append_right _ (List.mem_replicate.mpr ⟨by omega, rfl⟩)
  · rw [InputBuffer.rest, InputBuffer.init, List.drop_left, List.take_append_drop]

/-- No byte behind what was received influences a request exactly when every request ends in what was received; then
a read makes the same calls, with the same responses and the same model after them, over any two contents of the
memory behind. -/
theorem leftover_iff (bytes : List UInt8) (hfit : bytes.length ≤ HTTP_BUFFER_SIZE) :
    (Unaffected bytes ↔ Inside (bytes.map closeLine)) ∧
      (Inside (bytes.map closeLine) → ∀ ib₁ ib₂ : InputBuffer, ib₁.Drained → ib₂.Drained → ∀ behind₁ behind₂ : Mem,
        (ib₁.psubRead ⟨bytes, behind₁⟩).1.map cstr = (ib₂.psubRead ⟨bytes, behind₂⟩).1.map cstr ∧
          ∀ (m : Model) (v : FdView) (fd : Fd) (sup : Nat → Supply),
            serve m v fd sup (ib₁.psubRead ⟨bytes, behind₁⟩).1 =
            serve m v fd sup (ib₂.psubRead ⟨bytes, behind₂⟩).1) := by
  have hcalls : ∀ {ib : InputBuffer} {behind : Mem}, ib.Drained → (ib.psubRead ⟨bytes, behind⟩).1 =
      requests bytes.length (bytes.map closeLine ++ ib.rest ⟨bytes, behind⟩) (bytes.map closeLine).length := by
    intro ib behind hib
    rw [List.length_map]
    exact (psubRead_drained hib hfit).1
  have hlen : (bytes.map closeLine).length ≤ bytes.length := (List.length_map _).le
  have hsame : Inside (bytes.map closeLine) → ∀ ib₁ ib₂ : InputBuffer, ib₁.Drained → ib₂.Drained →
      ∀ behind₁ behind₂ : Mem,
        List.Forall₂ SameRequest (ib₁.psubRead ⟨bytes, behind₁⟩).1 (ib₂.psubRead ⟨bytes, behind₂⟩).1 := by
    intro hin ib₁ ib₂ h₁ h₂ behind₁ behind₂
    rw [hcalls h₁, hcalls h₂]
    exact inside_same hin hlen _ _
  refine ⟨⟨?_, ?_⟩, ?_⟩
  · intro h
    refine inside_of_same bytes.length hlen fun x₁ x₂ => ?_
    obtain ⟨ib₁, behind₁, h₁, hnul₁, hrest₁⟩ := exists_rest hfit x₁
    obtain ⟨ib₂, behind₂, h₂, hnul₂, hrest₂⟩ := exists_rest hfit x₂
    have hboth := h ib₁ ib₂ h₁ h₂ behind₁ behind₂ hnul₁ hnul₂
    rwa [hcalls h₁, hcalls h₂, hrest₁, hrest₂] at hboth
  · intro hin ib₁ ib₂ h₁ h₂ behind₁ behind₂ _ _
    exact hsame hin ib₁ ib₂ h₁ h₂ behind₁ behind₂
  · intro hin ib₁ ib₂ h₁ h₂ behind₁ behind₂
    have hboth := hsame hin ib₁ ib₂ h₁ h₂ behind₁ behind₂
    refine ⟨?_, fun m v fd sup => serve_same hboth m v fd sup⟩
    exact List.forall₂_eq_eq_eq ▸ (List.forall₂_map_left_iff.mpr
      (List.forall₂_map_right_iff.mpr (hboth.imp fun _ _ h => h.1)))

/-- A connection whose input buffer holds these bytes. -/
def bufferOf (rest : List UInt8) : InputBuffer := .init (rest ++ List.replicate (1024 - rest.length) 0)

/-- Two commands, each with its CRLF. -/
theorem leftover_whole_commands : Unaffected (lit "sub\r\nack\r\n") := by
  refine (leftover_iff (lit "sub\r\nack\r\n") (by decide)).1.mpr ?_
  refine @Inside.request (lit "sub") (0 :: (lit "ack" ++ [0, 0])) (by decide) (by decide) ?_
  refine @Inside.request (lit "ack") [0] (by decide) (by decide) ?_
  exact .nil

/-- A command without an end is answered with what an earlier one has left in the buffer. -/
theorem leftover_echoed :
    (bufferOf (lit "hello")).Drained ∧ (bufferOf (lit "login bob secret")).Drained ∧
      ((bufferOf (lit "hello")).psubRead ⟨lit "hello", [0]⟩).1.map cstr = [lit "hello"] ∧
      (serve {} Model.allViews 5 (fun _ => ⟨1, 0⟩)
        ((bufferOf (lit "login bob secret")).psubRead ⟨lit "hello", [0]⟩).1).sent =
        [⟨5, none, .text (lit "incorrect param: hello bob secret\n"), 34⟩] := by
  refine ⟨⟨by decide +kernel, rfl, rfl⟩, ⟨by decide +kernel, rfl, rfl⟩, ?_, ?_⟩ <;> decide +kernel

end ZeroServ
