import ZeroServ.PubSub.Leftover

/-!
# The buffers of one request

How far `model_process` reads in its content, and what it formats into `error_incorrect[1024]`. A parameter is taken
to start two bytes behind the last letter of a command word, also where nothing is there. `fixed_buffers_iff`: a
request stays inside its content in every state of the model, and its error reply inside the array, exactly if it is
no bare command word and, without a command word, not too long.
-/

namespace ZeroServ

open CString

namespace Model

variable (m : Model)

/-! ## What is read -/

/-- The tests `COMPARE(cmd, ...)` of `model_process`, each of which reads from the start of the content. -/
def words : List (List UInt8) :=
  [lit "ack", lit "create", lit "delete", lit "list_user", lit "list", lit "sub", lit "unsub", lit "pub", lit "login",
    lit "logup", lit "cookie"]

def compareReads (content : Mem) : Nat := (words.map (strncmpReads content)).foldr max 0

/-- The `strcmp` with one name after the other, up to the one that is equal. -/
def lookupReads : List (List UInt8) → Mem → Nat
  | [], _ => 0
  | name :: names, p => if strcmp name p then strcmpReads p name else max (strcmpReads p name) (lookupReads names p)

/-- `topic_get` -/
def topicGetReads (name : Mem) : Nat := lookupReads (m.topics.map (·.name)) name

/-- `topic_create`: a name that no topic has is copied. -/
def topicCreateReads (name : Mem) : Nat :=
  max (m.topicGetReads name) (if (m.topicGet name).isNone then stringReads name else 0)

/-- `model_acc_auth` at `auth`: the comparison with the password of the account. -/
def accAuthReads (user auth : Mem) : Nat := (m.accountGet user).elim 0 fun acc => strncmpReads auth (cstr acc.auth)

/-- `model_acc_create` at `auth`: the copy for a new account. -/
def accCreateReads (user auth : Mem) : Nat := if (m.accountGet user).isNone then stringReads auth else 0

/-- `model_pub` at `msg`: the text for each subscriber. -/
def pubReads (v : FdView) (fd : Fd) (topic msg : Mem) : Nat :=
  let (_, _, sent, exited) := m.modelPub v fd topic msg
  if sent.isEmpty && !exited then 0 else stringReads msg

/-- Bytes read at an offset, as the offset behind the last of them. -/
def reach (ofs n : Nat) : Nat := if n = 0 then 0 else ofs + n

/-- How far a parameter that is cut at the delimiter is read: by `strchr`, and behind the delimiter by what the
operation does there. -/
def cutReads (ofs : Nat) (param : Mem) (delim : UInt8) (behind : List UInt8 → Mem → Nat) : Nat :=
  max (reach ofs (strchrReads param delim))
    ((cut param delim).elim 0 fun x => reach (ofs + x.1.length + 1) (behind x.1 x.2))

/-- How far the operation of a command reads in the content. `sub` prints its parameter. -/
def operationReads (v : FdView) (fd : Fd) (content : Mem) (delim : UInt8) : Nat :=
  match command content with
  | some .create => reach 7 (m.topicCreateReads (content.drop 7))
  | some .delete => reach 7 (m.topicGetReads (content.drop 7))
  | some .listUser => reach 10 (m.topicGetReads (content.drop 10))
  | some .sub => reach 4 (stringReads (content.drop 4))
  | some .unsub => reach 6 (m.topicGetReads (content.drop 6))
  | some .pub => cutReads 4 (content.drop 4) delim fun topic msg => m.pubReads v fd topic msg
  | some .login => cutReads 6 (content.drop 6) delim fun user auth => m.accAuthReads user auth
  | some .logup => cutReads 6 (content.drop 6) delim fun user auth => m.accCreateReads user auth
  | _ => 0

/-- `sprintf(error_incorrect, "incorrect param: %s\n", content)`: the bytes stored. -/
def errorIncorrect (content : Mem) : List UInt8 :=
  if command content = none then lit "incorrect param: " ++ cstr content ++ lit "\n" ++ [0] else []

/-- How far `model_process` reads in its content. -/
def contentReads (v : FdView) (fd : Fd) (content : Mem) (delim : UInt8) : Nat :=
  max (compareReads content)
    (max (m.operationReads v fd content delim) (if command content = none then stringReads content else 0))

/-! ## Inside the content -/

theorem reach_le {ofs n l : Nat} (h : n ≤ l) : reach ofs n ≤ ofs + l := by
  unfold reach
  split <;> omega

theorem compareReads_le {s : List UInt8} (h0 : (0 : UInt8) ∉ s) (t : Mem) :
    compareReads (s ++ 0 :: t) ≤ s.length + 1 := by
  unfold compareReads
  generalize words = ws
  induction ws with
  | nil => exact Nat.zero_le _
  | cons w ws ih => exact Nat.max_le.mpr ⟨strncmpReads_le h0 t w, ih⟩

section param

variable {q : List UInt8} (h0 : (0 : UInt8) ∉ q) (t : Mem)

include h0

theorem lookupReads_le (names : List (List UInt8)) : lookupReads names (q ++ 0 :: t) ≤ q.length + 1 := by
  induction names with
  | nil => exact Nat.zero_le _
  | cons name names ih =>
    have hone : strcmpReads (q ++ 0 :: t) name ≤ q.length + 1 := strncmpReads_le h0 t _
    unfold lookupReads
    split
    · exact hone
    · exact Nat.max_le.mpr ⟨hone, ih⟩

theorem topicCreateReads_le : m.topicCreateReads (q ++ 0 :: t) ≤ q.length + 1 := by
  refine Nat.max_le.mpr ⟨lookupReads_le h0 t _, ?_⟩
  split
  · exact (stringReads_append_nul h0 t).le
  · exact Nat.zero_le _

theorem pubReads_le (v : FdView) (fd : Fd) (topic : Mem) : m.pubReads v fd topic (q ++ 0 :: t) ≤ q.length + 1 := by
  unfold pubReads
  dsimp only
  split
  · exact Nat.zero_le _
  · exact (stringReads_append_nul h0 t).le

theorem accAuthReads_le (user : Mem) : m.accAuthReads user (q ++ 0 :: t) ≤ q.length + 1 := by
  unfold accAuthReads
  cases m.accountGet user with
  | none => exact Nat.zero_le _
  | some acc => exact strncmpReads_le h0 t _

theorem accCreateReads_le (user : Mem) : m.accCreateReads user (q ++ 0 :: t) ≤ q.length + 1 := by
  unfold accCreateReads
  split
  · exact (stringReads_append_nul h0 t).le
  · exact Nat.zero_le _

/-- A parameter that is cut at the delimiter is read to its NUL at most, if what is behind the delimiter is. -/
theorem cutReads_le (ofs : Nat) {delim : UInt8} (hd : delim ≠ 0) {behind : List UInt8 → Mem → Nat}
    (hbehind : ∀ x r, (0 : UInt8) ∉ r → behind x (r ++ 0 :: t) ≤ r.length + 1) :
    cutReads ofs (q ++ 0 :: t) delim behind ≤ ofs + (q.length + 1) := by
  refine Nat.max_le.mpr ⟨reach_le (strchrReads_le h0 t delim), ?_⟩
  unfold cut
  cases hc : strchr q delim with
  | none =>
    have hnone : strchr (q ++ 0 :: t) delim = none := by
      rw [strchr_append_of_none h0 hc]
      simp [strchr, Ne.symm hd]
    rw [hnone]
    exact Nat.zero_le _
  | some pos =>
    obtain ⟨a, r, rfl, rfl, -, -⟩ := strchr_eq_some hc
    have hr : (0 : UInt8) ∉ r := fun h => h0 (List.mem_append_right _ (List.mem_cons_of_mem _ h))
    have htake : ((a ++ delim :: r ++ 0 :: t).take
        ((a ++ delim :: r ++ 0 :: t).length - (delim :: r ++ 0 :: t).length)) = a := by
      rw [List.append_assoc, List.length_append, Nat.add_sub_cancel, List.take_left]
    rw [strchr_append_of_some hc]
    simp only [Option.map_some, Option.elim_some, htake]
    have hle : reach (ofs + a.length + 1) (behind a (r ++ 0 :: t)) ≤ ofs + a.length + 1 + (r.length + 1) :=
      reach_le (hbehind a r hr)
    rw [List.length_append, List.length_cons]
    exact hle.trans (by omega)

end param

/-- A command that goes on behind its word reads its parameter inside the content. -/
theorem operationReads_le {s : List UInt8} (h0 : (0 : UInt8) ∉ s) (hbare : s ∉ bareWords) (t : Mem) (v : FdView)
    (fd : Fd) {delim : UInt8} (hd : delim ≠ 0) : m.operationReads v fd (s ++ 0 :: t) delim ≤ s.length + 1 := by
  -- the parameter starts inside the content
  have hparam : ∀ {a : Action} {k : Nat}, command (s ++ 0 :: t) = some a → paramOfs a = some k →
      (s ++ 0 :: t).drop k = s.drop k ++ 0 :: t ∧ (0 : UInt8) ∉ s.drop k ∧
      k + ((s.drop k).length + 1) = s.length + 1 := by
    intro a k hc hk
    have hword := word_prefix hc
    rw [cstr_append_nul h0] at hword
    have hlt : (word a).length < s.length := by
      refine lt_of_le_of_ne hword.length_le fun h => hbare (mem_bareWords.mpr ⟨a, k, hk, hword.eq_of_length h⟩)
    have hle : k ≤ s.length := paramOfs_word hk ▸ hlt
    exact ⟨List.drop_append_of_le_length hle, fun h => h0 (List.mem_of_mem_drop h), by rw [List.length_drop]; omega⟩
  unfold operationReads
  cases hc : command (s ++ 0 :: t) with
  | none => exact Nat.zero_le _
  | some a =>
    cases a with
    | create =>
      obtain ⟨hdrop, hq, hlen⟩ := hparam hc rfl
      exact hlen ▸ hdrop ▸ reach_le (m.topicCreateReads_le hq t)
    | delete | listUser | unsub =>
      obtain ⟨hdrop, hq, hlen⟩ := hparam hc rfl
      exact hlen ▸ hdrop ▸ reach_le (lookupReads_le hq t _)
    | sub =>
      obtain ⟨hdrop, hq, hlen⟩ := hparam hc rfl
      exact hlen ▸ hdrop ▸ reach_le (stringReads_append_nul hq t).le
    | pub =>
      obtain ⟨hdrop, hq, hlen⟩ := hparam hc rfl
      exact hlen ▸ hdrop ▸ cutReads_le hq t 4 hd fun x r hr => m.pubReads_le hr t v fd x
    | login =>
      obtain ⟨hdrop, hq, hlen⟩ := hparam hc rfl
      exact hlen ▸ hdrop ▸ cutReads_le hq t 6 hd fun x r hr => m.accAuthReads_le hr t x
    | logup =>
      obtain ⟨hdrop, hq, hlen⟩ := hparam hc rfl
      exact hlen ▸ hdrop ▸ cutReads_le hq t 6 hd fun x r hr => m.accCreateReads_le hr t x
    | ack | listTopic | repSub | dbgCookie => exact Nat.zero_le _

/-- A bare command word has its parameter read, behind the NUL, where there is a topic. -/
theorem operationReads_bare {a : Action} {k : Nat} (hk : paramOfs a = some k) (b : UInt8) (t : Mem) (v : FdView)
    (fd : Fd) (delim : UInt8) :
    k < (oneTopic [] [] []).operationReads v fd (word a ++ 0 :: b :: t) delim := by
  obtain ⟨hc, hdrop⟩ := command_bare hk (b :: t)
  have hreach : ∀ {ofs n : Nat}, 0 < n → ofs < reach ofs n := by
    intro ofs n hn
    unfold reach
    split <;> omega
  have htopic : 0 < (oneTopic [] [] []).topicGetReads (b :: t) := by
    have hpos := strcmpReads_pos b t []
    simp only [topicGetReads, oneTopic, List.map_cons, List.map_nil, lookupReads]
    split <;> omega
  have hcut : ∀ ofs behind, ofs < cutReads ofs (b :: t) delim behind := fun ofs behind =>
    lt_of_lt_of_le (hreach (strchrReads_pos b t delim)) (Nat.le_max_left _ _)
  unfold operationReads
  rw [hc]
  cases a with
  | ack | listTopic | repSub | dbgCookie => cases hk
  | create =>
    obtain rfl := Option.some.inj hk
    exact hdrop ▸ hreach (lt_of_lt_of_le htopic (Nat.le_max_left _ _))
  | delete | listUser | unsub =>
    obtain rfl := Option.some.inj hk
    exact hdrop ▸ hreach htopic
  | sub =>
    obtain rfl := Option.some.inj hk
    exact hdrop ▸ hreach (Nat.succ_pos _)
  | pub | login | logup =>
    obtain rfl := Option.some.inj hk
    exact hdrop ▸ hcut _ _

theorem errorIncorrect_length {s : List UInt8} (h0 : (0 : UInt8) ∉ s) (t : Mem) :
    (errorIncorrect (s ++ 0 :: t)).length = if command s = none then s.length + 19 else 0 := by
  have hcstr : cstr (s ++ 0 :: t) = s := cstr_append_nul h0 t
  have hc : command (s ++ 0 :: t) = command s := command_congr (hcstr.trans (cstr_eq_self h0).symm)
  have hstart : (lit "incorrect param: ").length = 17 := by decide
  have hnewline : (lit "\n").length = 1 := by decide
  rw [errorIncorrect, hc, hcstr]
  split
  · simp only [List.length_append, hstart, hnewline, List.length_singleton]
    omega
  · rfl

end Model

open Model (bareWords)

/-- For the request `s`, in every state of the model and whatever lies behind: no byte behind its NUL is read, and
the error reply fits in `error_incorrect`. -/
def Suffice (s : List UInt8) : Prop :=
  ∀ (m : Model) (v : FdView) (fd : Fd) (t : Mem), ∀ delim ∈ [(32 : UInt8), 47],
    m.contentReads v fd (s ++ 0 :: t) delim ≤ s.length + 1 ∧ (Model.errorIncorrect (s ++ 0 :: t)).length ≤ 1024

/-- The buffers of a request suffice exactly if it is no bare command word and, where it has no command word, at most
1005 bytes long. -/
theorem fixed_buffers_iff {s : List UInt8} (h0 : (0 : UInt8) ∉ s) :
    Suffice s ↔ s ∉ bareWords ∧ (Model.command s = none → s.length ≤ 1005) := by
  constructor
  · intro h
    refine ⟨fun hbare => ?_, fun hnone => ?_⟩
    · obtain ⟨a, k, hk, rfl⟩ := Model.mem_bareWords.mp hbare
      have hread := (h (Model.oneTopic [] [] []) Model.allViews 5 [0] 32 (by simp)).1
      have hbehind := Model.operationReads_bare hk 0 [] Model.allViews 5 32
      have hle : (Model.oneTopic [] [] []).operationReads Model.allViews 5 (Model.word a ++ 0 :: [0]) 32 ≤
          (Model.word a).length + 1 :=
        ((Nat.le_max_left _ _).trans (Nat.le_max_right _ _)).trans hread
      rw [← Model.paramOfs_word hk] at hle
      omega
    · have hfit := (h {} Model.allViews 5 [] 32 (by simp)).2
      rw [Model.errorIncorrect_length h0, if_pos hnone] at hfit
      omega
  · rintro ⟨hbare, hlong⟩ m v fd t delim hdelim
    have hd : delim ≠ 0 := by
      rintro rfl
      exact absurd hdelim (by decide)
    refine ⟨Nat.max_le.mpr ⟨Model.compareReads_le h0 t, Nat.max_le.mpr ⟨m.operationReads_le h0 hbare t v fd hd, ?_⟩⟩,
      ?_⟩
    · split
      · exact (stringReads_append_nul h0 t).le
      · exact Nat.zero_le _
    · rw [Model.errorIncorrect_length h0]
      split
      · next hnone =>
        have := hlong hnone
        omega
      · exact Nat.zero_le _

/-- A publication stays inside its content. -/
theorem fixed_buffers_pub : Suffice (lit "pub t hi") := (fixed_buffers_iff (by decide)).mpr (by decide +kernel)

/-- A bare `create` reads its topic from behind its NUL. -/
theorem create_reads_behind : ¬Suffice (lit "create") := by
  intro h
  exact absurd (h {} Model.allViews 5 [0] 32 (by simp)).1 (by decide +kernel)

end ZeroServ
