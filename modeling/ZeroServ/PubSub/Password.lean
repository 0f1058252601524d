import ZeroServ.Lib.Run
import ZeroServ.PubSub.Model

/-!
# Who a password lets in

A history of `login` and `logup` commands, of any connections of the two front ends, run through `model_process`.
`registered` is what the history says the password of a name is: that of its first `logup` that succeeded.
`model_acc_auth` compares as many bytes as the stored password has, so it lets in every password the stored one is a
prefix of; `login_exact_iff` says exactly which runs are free of that.
-/

namespace ZeroServ

open CString CInt

/-! ## Accounts under writes that keep their names -/

theorem accountGet_setAccount {f : Account → Account} (hf : ∀ a, (f a).name = a.name) (m : Model) (id : Nat) (u : Mem) :
    (m.setAccount id f).accountGet u = (m.accountGet u).map fun a => if a.id = id then f a else a := by
  have hp : ((fun acc : Account => strcmp acc.name u) ∘ fun a => if a.id = id then f a else a) =
      fun acc => strcmp acc.name u := by
    funext a
    by_cases h : a.id = id <;> simp [h, hf]
  simp only [Model.accountGet, Model.setAccount, List.find?_map, hp]

theorem modelAccAuth_none {m : Model} {user : Mem} (h : m.accountGet user = none) (fd : Fd) (auth : Mem) (slot : Nat) :
    m.modelAccAuth fd user auth slot = (.fail, m) := by
  simp only [Model.modelAccAuth, h]

theorem modelAccAuth_some {m : Model} {user : Mem} {acc : Account} (h : m.accountGet user = some acc) (fd : Fd)
    (auth : Mem) (slot : Nat) :
    m.modelAccAuth fd user auth slot =
      if strncmp acc.auth auth (strlen acc.auth) then
        (.success, m.setAccount acc.id fun a => { a with fds := vectorInsert a.fds fd slot })
      else (.fail, m) := by
  simp only [Model.modelAccAuth, h]

theorem modelAccCreate_some {m : Model} {user : Mem} {acc : Account} (h : m.accountGet user = some acc) (auth : Mem) :
    m.modelAccCreate user auth = (.fail, m) := by
  simp only [Model.modelAccCreate, Model.accountCreate, h]
  rfl

theorem modelAccCreate_none {m : Model} {user : Mem} (h : m.accountGet user = none) (auth : Mem) :
    m.modelAccCreate user auth =
      (if int32 (m.accountIds + 1 : Nat) < 0 then .fail else .success,
        { m with
          accountIds := m.accountIds + 1
          accounts := m.accounts ++ [⟨m.accountIds + 1, cstr user, cstr auth, [], []⟩] }) := by
  simp only [Model.modelAccCreate, Model.accountCreate, h]

/-- The password stored for a name. -/
def storedAuth (m : Model) (u : Mem) : Option (List UInt8) := (m.accountGet u).map (·.auth)

/-! ## Commands -/

/-- The two front ends of the pub/sub model. -/
inductive FrontEnd where
  | plain | http
  deriving DecidableEq, Repr

/-- The delimiter each front end passes to `model_process`. -/
def FrontEnd.delim : FrontEnd → UInt8
  | .plain => 32
  | .http => 47

/-- A `login` or `logup` command as a connection sends it: a name without the front end's delimiter and a password,
neither with a NUL, and whatever lies in memory behind them. -/
structure Attempt where
  signUp : Bool
  fd : Fd
  frontEnd : FrontEnd
  user : List UInt8
  auth : List UInt8
  behind : Mem
  view : FdView
  supply : Supply
  user_clean : (0 : UInt8) ∉ user ∧ frontEnd.delim ∉ user
  auth_clean : (0 : UInt8) ∉ auth
  owned : view.userData fd = true

namespace Attempt

/-- The command word of an attempt. -/
def word (a : Attempt) : String := if a.signUp then "logup" else "login"

/-- The memory `model_process` is given. -/
def content (a : Attempt) : Mem :=
  lit a.word ++ a.frontEnd.delim :: (a.user ++ a.frontEnd.delim :: (a.auth ++ 0 :: a.behind))

/-- The command run through `model_process`. -/
def run (a : Attempt) (m : Model) : Model.Processed := m.modelProcess a.view a.fd a.content a.frontEnd.delim a.supply

/-- The command succeeded: the reply to its connection, the only call made, says so. -/
def succeeded (a : Attempt) (m : Model) : Bool :=
  (a.run m).sent.map (fun r => (r.fd, r.content)) == [(a.fd, .text (lit "success"))]

end Attempt

/-- The commands run so far with whether they succeeded, the last one first. -/
abbrev Attempts := List (Attempt × Bool)

/-- The password of the first `logup` of the name that succeeded. -/
def registered : Attempts → List UInt8 → Option (List UInt8)
  | [], _ => none
  | (a, ok) :: h, u => (registered h u).or (if a.signUp && ok && a.user == u then some a.auth else none)

/-- The model and what it has been asked. -/
abbrev AuthState := Model × Attempts

/-- One command of a run. -/
def attemptStep (s : AuthState) (a : Attempt) : Option AuthState :=
  some ((a.run s.1).model, (a, a.succeeded s.1) :: s.2)

/-- What the password check owes: a `login` succeeds exactly with the registered password; a `logup` of a registered
name fails and changes no stored password. -/
def PasswordExact (s : AuthState) (a : Attempt) (s' : AuthState) : Prop :=
  if a.signUp then
    registered s.2 a.user ≠ none → a.succeeded s.1 = false ∧ ∀ u, storedAuth s'.1 u = storedAuth s.1 u
  else a.succeeded s.1 = true ↔ registered s.2 a.user = some a.auth

/-- The stored password is a proper prefix of no password tried for its name, and the name's account is not one whose id
`account_create` returned as a negative `int`. -/
def NoProperPrefix (s : AuthState) (a : Attempt) (_ : AuthState) : Prop :=
  a.signUp = false → ∀ acc ∈ s.1.accountGet a.user, acc.auth <+: a.auth →
    acc.auth = a.auth ∧ 0 ≤ int32 acc.id

/-! ## What one command does -/

theorem cut_clean {d : UInt8} {u : List UInt8} (h0 : (0 : UInt8) ∉ u) (hd : d ∉ u) (t : Mem) :
    Model.cut (u ++ d :: t) d = some (u, t) := by
  have h := strchr_append_cons hd h0 t
  simp [Model.cut, h]

namespace Attempt

variable (a : Attempt) (m : Model)

/-- What stands behind the word of either command. -/
theorem content_args : a.content.drop 6 = a.user ++ a.frontEnd.delim :: (a.auth ++ 0 :: a.behind) := by
  simp only [content, word]
  cases a.signUp <;> rfl

theorem perform_login (h : a.signUp = false) :
    m.perform a.view a.fd a.content a.frontEnd.delim a.supply =
      { model := (m.modelAccAuth a.fd a.user (a.auth ++ 0 :: a.behind) a.supply.slot).2, action := some .login,
        ret := (m.modelAccAuth a.fd a.user (a.auth ++ 0 :: a.behind) a.supply.slot).1, state := Zb.setWr, sent := [],
        exited := false } := by
  have hc : Model.command a.content = some .login := by
    simp only [content, word, h, Bool.false_eq_true, if_false]
    rfl
  simp only [Model.perform, hc, a.content_args, cut_clean a.user_clean.1 a.user_clean.2]

theorem perform_logup (h : a.signUp = true) :
    m.perform a.view a.fd a.content a.frontEnd.delim a.supply =
      { model := (m.modelAccCreate a.user (a.auth ++ 0 :: a.behind)).2, action := some .logup
        ret := (m.modelAccCreate a.user (a.auth ++ 0 :: a.behind)).1
        state := Zb.setWr, sent := [], exited := false } := by
  have hc : Model.command a.content = some .logup := by
    simp only [content, word, h, if_true]
    rfl
  simp only [Model.perform, hc, a.content_args, cut_clean a.user_clean.1 a.user_clean.2]

/-- The reply after an operation that made no call tells its code. -/
theorem sent_of_perform {act : Action} {p : Model.Processed}
    (hp : m.perform a.view a.fd a.content a.frontEnd.delim a.supply = p) (he : p.exited = false) (hs : p.sent = [])
    (ha : p.action = some act) (hact : act ∉ [Action.sub, .listTopic, .listUser]) :
    (a.run m).model = p.model ∧ (a.succeeded m = true ↔ p.ret = .success) := by
  have hr : Model.reply p a.content = .text (if p.ret = .success then lit "success" else lit "error") := by
    simp only [Model.reply, ha]
    cases act <;> simp_all
  have hsub : act ≠ .sub := fun h => hact (by simp [h])
  have hrun : a.run m = { p with sent := [⟨a.fd, some act, Model.reply p a.content,
      Model.Content.textLength (Model.reply p a.content)⟩] } := by
    simp only [run, Model.modelProcess, hp, he, hs, ha, a.owned]
    simp [hsub]
  refine ⟨by rw [hrun], ?_⟩
  simp only [succeeded, hrun, hr, List.map_cons, List.map_nil]
  by_cases h : p.ret = .success
  · simp [h]
  · simp [h, lit]

/-- A `login` changes no stored password, and succeeds when the stored password is a prefix of the one given. -/
theorem run_login (h : a.signUp = false) (hclean : ∀ acc ∈ m.accounts, (0 : UInt8) ∉ acc.auth) :
    (∀ u, ((a.run m).model.accountGet u).map (fun acc => (acc.id, acc.auth)) =
      (m.accountGet u).map fun acc => (acc.id, acc.auth)) ∧
    (∀ acc ∈ (a.run m).model.accounts, ∃ acc₀ ∈ m.accounts, acc.name = acc₀.name ∧ acc.auth = acc₀.auth) ∧
    (a.succeeded m = true ↔ ∃ acc ∈ m.accountGet a.user, acc.auth <+: a.auth) := by
  obtain ⟨hmod, hsucc⟩ := a.sent_of_perform m (a.perform_login m h) rfl rfl rfl (by decide)
  rw [hmod, hsucc]
  cases hg : m.accountGet a.user with
  | none =>
    rw [modelAccAuth_none hg]
    exact ⟨fun u => rfl, fun acc hacc => ⟨acc, hacc, rfl, rfl⟩, by simp⟩
  | some acc =>
    have hmem : acc ∈ m.accounts := List.mem_of_find?_eq_some hg
    have hpre : strncmp acc.auth (a.auth ++ 0 :: a.behind) (strlen acc.auth) = true ↔ acc.auth <+: a.auth := by
      rw [strncmp_strlen_iff, cstr_eq_self (hclean acc hmem), cstr_append_nul a.auth_clean]
    rw [modelAccAuth_some hg]
    by_cases hp : acc.auth <+: a.auth
    · rw [if_pos (hpre.mpr hp)]
      refine ⟨fun u => ?_, fun x hx => ?_, by simp [hp]⟩
      · simp only
        rw [accountGet_setAccount (f := fun x => { x with fds := vectorInsert x.fds a.fd a.supply.slot })
          (fun _ => rfl), Option.map_map]
        congr 1
        funext x
        by_cases hx : x.id = acc.id <;> simp [hx]
      · obtain ⟨y, hy, rfl⟩ := List.mem_map.mp hx
        refine ⟨y, hy, ?_⟩
        by_cases hid : y.id = acc.id <;> simp [hid]
    · rw [if_neg (mt hpre.mp hp)]
      exact ⟨fun u => rfl, fun x hx => ⟨x, hx, rfl, rfl⟩, by simp [hp]⟩

/-- A `logup` of a name that has an account fails and changes nothing; of any other name it adds the account, with
the next id, and succeeds when that id is no negative `int`. -/
theorem run_logup (h : a.signUp = true) :
    (m.accountGet a.user ≠ none → (a.run m).model = m ∧ a.succeeded m = false) ∧
    (m.accountGet a.user = none →
      (a.run m).model.accounts = m.accounts ++ [⟨m.accountIds + 1, a.user, a.auth, [], []⟩] ∧
      (a.succeeded m = true ↔ 0 ≤ int32 (m.accountIds + 1 : Nat))) := by
  obtain ⟨hmod, hsucc⟩ := a.sent_of_perform m (a.perform_logup m h) rfl rfl rfl (by decide)
  rw [hmod]
  constructor
  · intro hg
    obtain ⟨acc, hg⟩ := Option.ne_none_iff_exists'.mp hg
    rw [modelAccCreate_some hg] at hsucc ⊢
    exact ⟨rfl, by simpa using hsucc⟩
  · intro hg
    rw [hsucc, modelAccCreate_none hg]
    refine ⟨by simp [cstr_eq_self a.user_clean.1, cstr_append_nul a.auth_clean], ?_⟩
    by_cases hneg : int32 (m.accountIds + 1 : Nat) < 0
    · simp only [hneg, if_true]
      exact iff_of_false (by decide) (Int.not_le.mpr hneg)
    · simp only [hneg, if_false]
      exact iff_of_true trivial (Int.not_lt.mp hneg)

end Attempt

/-! ## The invariant of a run -/

/-- The accounts answer for the history: the registered password of a name is that of its account, unless
`account_create` returned the account's id as a negative `int` and so refused the `logup` that created it. -/
structure AuthInv (s : AuthState) : Prop where
  clean : ∀ acc ∈ s.1.accounts, (0 : UInt8) ∉ acc.name ∧ (0 : UInt8) ∉ acc.auth
  registered : ∀ u q, (0 : UInt8) ∉ u →
    (registered s.2 u = some q ↔ ∃ acc ∈ s.1.accountGet u, acc.auth = q ∧ 0 ≤ int32 acc.id)

theorem authInv_init : AuthInv ({}, []) := by
  refine ⟨by simp, fun u q _ => ?_⟩
  simp [registered, Model.accountGet]

/-- A name without an account has no registered password. -/
theorem AuthInv.registered_none {s : AuthState} (hi : AuthInv s) {u : List UInt8} (hu : (0 : UInt8) ∉ u)
    (h : s.1.accountGet u = none) : ZeroServ.registered s.2 u = none := by
  rw [Option.eq_none_iff_forall_ne_some]
  intro q hq
  obtain ⟨acc, hacc, -⟩ := (hi.registered u q hu).mp hq
  simp [h] at hacc

/-- The account of a name after one more account has joined the list. -/
theorem accountGet_append {m m' : Model} {acc : Account} (h : m'.accounts = m.accounts ++ [acc]) (u : Mem) :
    m'.accountGet u = (m.accountGet u).or (if strcmp acc.name u then some acc else none) := by
  simp only [Model.accountGet, h, List.find?_append, List.find?_singleton]

/-- A property of an id and a password holds of the account found when the two lookups agree on them. -/
theorem exists_congr_of_map_eq {x y : Option Account}
    (h : x.map (fun acc => (acc.id, acc.auth)) = y.map fun acc => (acc.id, acc.auth)) (P : Nat × List UInt8 → Prop) :
    (∃ acc ∈ x, P (acc.id, acc.auth)) ↔ ∃ acc ∈ y, P (acc.id, acc.auth) := by
  cases x <;> cases y <;> simp_all

theorem attemptStep_inv {s s' : AuthState} {a : Attempt} (hi : AuthInv s) (h : attemptStep s a = some s') :
    AuthInv s' := by
  simp only [attemptStep, Option.some.injEq] at h
  subst h
  cases hup : a.signUp with
  | false =>
    obtain ⟨hget, hacc, -⟩ := a.run_login s.1 hup fun acc hacc => (hi.clean acc hacc).2
    refine ⟨fun acc h => ?_, fun u q hu => ?_⟩
    · obtain ⟨acc₀, h₀, hn, ha⟩ := hacc acc h
      rw [hn, ha]
      exact hi.clean acc₀ h₀
    · simp only [registered, hup, Bool.false_and, Bool.false_eq_true, if_false, Option.or_none, hi.registered u q hu]
      exact exists_congr_of_map_eq (hget u).symm (fun p => p.2 = q ∧ 0 ≤ int32 p.1)
  | true =>
    obtain ⟨hsome, hnone⟩ := a.run_logup s.1 hup
    by_cases hg : s.1.accountGet a.user = none
    · obtain ⟨hacc, hsucc⟩ := hnone hg
      refine ⟨fun acc h => ?_, fun u q hu => ?_⟩
      · rw [hacc, List.mem_append, List.mem_singleton] at h
        rcases h with h | rfl
        · exact hi.clean acc h
        · exact ⟨a.user_clean.1, a.auth_clean⟩
      · simp only [registered, hup, Bool.true_and, accountGet_append hacc]
        by_cases hu' : a.user = u
        · subst hu'
          have hst : strcmp a.user a.user = true := by simp [strcmp]
          rw [hi.registered_none hu hg, hg, hst, beq_self_eq_true, Bool.and_true, Option.none_or,
            Option.none_or, if_pos rfl]
          constructor
          · intro hq
            split_ifs at hq with hok
            exact ⟨_, rfl, by simpa using hq, hsucc.mp hok⟩
          · rintro ⟨acc, hacc', hq, hid⟩
            simp only [Option.mem_def, Option.some.injEq] at hacc'
            subst hacc'
            rw [if_pos (hsucc.mpr hid)]
            exact congrArg some hq
        · have hne : strcmp a.user u = false := by
            simp [strcmp, cstr_eq_self a.user_clean.1, cstr_eq_self hu, hu']
          have hbeq : (a.user == u) = false := by simpa using hu'
          rw [hne, hbeq, Bool.and_false, if_neg Bool.false_ne_true, if_neg Bool.false_ne_true, Option.or_none,
            Option.or_none]
          exact hi.registered u q hu
    · obtain ⟨hmod, hfail⟩ := hsome hg
      refine ⟨?_, fun u q hu => ?_⟩
      · simp only [hmod]
        exact hi.clean
      · simp only [registered, hup, hfail, hmod, Bool.and_false, Bool.false_and, Bool.false_eq_true, if_false,
          Option.or_none]
        exact hi.registered u q hu

/-! ## When the check is exact -/

/-- One command of a run is treated as the history demands exactly when it meets the condition. -/
theorem passwordExact_iff {s s' : AuthState} {a : Attempt} (hi : AuthInv s) (h : attemptStep s a = some s') :
    PasswordExact s a s' ↔ NoProperPrefix s a s' := by
  simp only [attemptStep, Option.some.injEq] at h
  subst h
  cases hup : a.signUp with
  | true =>
    refine iff_of_true ?_ (fun hf => absurd (hf.symm.trans hup) (by decide))
    simp only [PasswordExact, hup, if_true]
    intro hreg
    have hg : s.1.accountGet a.user ≠ none := fun hg => hreg (hi.registered_none a.user_clean.1 hg)
    obtain ⟨hmod, hfail⟩ := (a.run_logup s.1 hup).1 hg
    exact ⟨hfail, fun u => by rw [hmod]⟩
  | false =>
    obtain ⟨-, -, hsucc⟩ := a.run_login s.1 hup fun acc hacc => (hi.clean acc hacc).2
    simp only [PasswordExact, hup, Bool.false_eq_true, if_false, hsucc, hi.registered a.user a.auth a.user_clean.1,
      NoProperPrefix, forall_const]
    cases hg : s.1.accountGet a.user with
    | none => simp
    | some acc =>
      simp only [Option.mem_def, Option.some.injEq, exists_eq_left', forall_eq']
      constructor
      · exact fun hex hp => hex.mp hp
      · exact fun hex => ⟨hex, fun h => h.1 ▸ List.prefix_refl _⟩

/-- The password check of a whole run is exact if and only if no command of the run gives a password that its
account's is a proper prefix of (nor names an account whose `logup` was refused after it had been created). -/
theorem login_exact_iff (as : List Attempt) :
    Run.AllSteps attemptStep PasswordExact ({}, []) as ↔ Run.AllSteps attemptStep NoProperPrefix ({}, []) as := by
  constructor
  · exact Run.AllSteps.of_invariant (I := AuthInv) authInv_init (fun s a s' hi hs _ => attemptStep_inv hi hs)
      fun s a s' hi hs he => (passwordExact_iff hi hs).mp he
  · exact Run.AllSteps.of_invariant (I := AuthInv) authInv_init (fun s a s' hi hs _ => attemptStep_inv hi hs)
      fun s a s' hi hs he => (passwordExact_iff hi hs).mpr he

/-- A connection of the plain front end, all descriptors of which belong to pub/sub listeners, sends a command. -/
def plainAttempt (signUp : Bool) (user auth : List UInt8) (hu : (0 : UInt8) ∉ user ∧ (32 : UInt8) ∉ user)
    (ha : (0 : UInt8) ∉ auth) : Attempt where
  signUp := signUp
  fd := 5
  frontEnd := .plain
  user := user
  auth := auth
  behind := []
  view := ⟨fun _ => true, fun _ => true⟩
  supply := ⟨0, 0⟩
  user_clean := hu
  auth_clean := ha
  owned := rfl

/-- `logup bob a`, then `login bob ab`: the longer password is let in. -/
theorem login_extension_accepted :
    ¬Run.AllSteps attemptStep PasswordExact ({}, [])
      [plainAttempt true (lit "bob") (lit "a") (by decide) (by decide),
        plainAttempt false (lit "bob") (lit "ab") (by decide) (by decide)] := by
  intro h
  have h₂ := ((h _ rfl).2 _ rfl).1
  have hreg := (show _ ↔ _ from h₂).mp (by decide)
  exact absurd hreg (by decide)

end ZeroServ
