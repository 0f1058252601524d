import ZeroServ.PubSub.Frame
import ZeroServ.PubSub.HttpResponses
import ZeroServ.PubSub.Writes

/-!
# What a subscriber reads of a publication

`model_pub` formats the publisher's name and the message as `name: msg`, and `http_psub_on_response` takes that apart
at the first colon into two arrays of 1024 bytes. The names that `logup` registers may have colons themselves.
`publication_fields_iff`: the fields `user` and `msg` are the publisher's name and the message exactly where the name
has no colon and both are shorter than the arrays.
-/

namespace ZeroServ

open CString CInt Run

/-! ## `http_psub_on_response`, `ACT_REP_SUB` -/

/-- What lies in memory behind the arrays `username` and `msg`. -/
structure Behind where
  username : Mem
  msg : Mem

/-- What is read of an array of `size` bytes, all zero, after `strncpy(array, src, n)`: `strncpy` fills up with NULs,
and a copy that fills the array is read on into what is behind it, as far as the copy did not run over that too. -/
def strncpyRead (src : Mem) (n size : Nat) (behind : Mem) : List UInt8 :=
  let copied := (cstr src).take n
  if copied.length < n ∨ n < size then copied else copied ++ cstr (behind.drop (n - size))

/-- `user` and `msg` of the answer to a publication, if it has them. -/
def repSubFields (behind : Behind) (content : Mem) (length : Nat) : Option (List UInt8 × List UInt8) :=
  (strchr content 58).map fun pos =>
    let ofs := content.length - pos.length
    (strncpyRead content ofs 1024 behind.username,
      strncpyRead (pos.drop 2) (min (sizeT (length - (ofs + 2 : Nat))) 1024) 1024 behind.msg)

theorem strncpyRead_of_lt {src : Mem} {n size : Nat} (h : n < size) (behind : Mem) :
    strncpyRead src n size behind = (cstr src).take n :=
  if_pos (.inr h)

theorem strncpyRead_nil (src : Mem) (n size : Nat) : strncpyRead src n size [] = (cstr src).take n := by
  simp [strncpyRead]

/-- A copy that is read the same whatever is behind the array leaves room for a NUL. -/
theorem length_lt_of_strncpyRead {src : Mem} {n size : Nat} {text : List UInt8}
    (h : ∀ behind, strncpyRead src n size behind = text) (hn : n ≤ size ∨ text.length = n) : text.length < size := by
  have hcopied : (cstr src).take n = text := by
    rw [← h [], strncpyRead_nil]
  have hle : text.length ≤ n := by
    rw [← hcopied]
    exact List.length_take_le ..
  by_contra hsize
  have hfull : ¬(text.length < n ∨ n < size) := by omega
  have hmore := h (List.replicate (n - size) 0 ++ [97])
  simp only [strncpyRead, hcopied] at hmore
  rw [if_neg hfull, List.drop_left' (List.length_replicate ..)] at hmore
  simpa [cstr] using congrArg List.length hmore

/-! ## Formatted and taken apart -/

section fields

variable {acc : Account} {msg : Mem}

/-- The text that `model_pub` passes holds a NUL no more than the name does. -/
theorem nul_not_mem_bdcMsg (h0 : (0 : UInt8) ∉ acc.name) : (0 : UInt8) ∉ (Model.bdcMsg acc msg).1 := by
  intro h
  have hmem := List.mem_of_mem_take h
  simp only [List.mem_append] at hmem
  rcases hmem with (h | h) | h
  · exact h0 h
  · exact absurd h (by decide)
  · exact nul_not_mem_cstr msg h

/-- A name without a colon in front of a message that fits: both arrive. -/
theorem repSubFields_of_fits (h0 : (0 : UInt8) ∉ acc.name) (hc : (58 : UInt8) ∉ acc.name)
    (hname : acc.name.length < 1024) (hmsg : (cstr msg).length < 1024) (behind : Behind) :
    repSubFields behind (Model.bdcMsg acc msg).1 (Model.bdcMsg acc msg).2 = some (acc.name, cstr msg) := by
  have hlit : lit ": " = [58, 32] := by decide
  have htext : (Model.bdcMsg acc msg).1 = acc.name ++ 58 :: (32 :: cstr msg) := by
    simp only [Model.bdcMsg, hlit]
    rw [List.take_of_length_le (by simp; omega)]
    simp
  have hlen : (Model.bdcMsg acc msg).2 = acc.name.length + 2 + (cstr msg).length := by
    simp [Model.bdcMsg, hlit]
    omega
  have hstr : cstr (acc.name ++ 58 :: (32 :: cstr msg)) = acc.name ++ 58 :: (32 :: cstr msg) := by
    rw [← htext]
    exact cstr_eq_self (nul_not_mem_bdcMsg h0)
  have hofs : (acc.name ++ 58 :: (32 :: cstr msg)).length - (58 :: (32 :: cstr msg)).length = acc.name.length := by
    simp
  have hn : sizeT ((acc.name.length + 2 + (cstr msg).length : Nat) - (acc.name.length + 2 : Nat)) =
      (cstr msg).length := by
    rw [sizeT_of_nonneg (by omega) (by omega)]
    omega
  rw [htext, hlen, repSubFields, strchr_append_cons hc h0, Option.map_some]
  simp only [hofs, hn, Nat.min_eq_left hmsg.le]
  rw [strncpyRead_of_lt hname, strncpyRead_of_lt hmsg, hstr, List.take_left' rfl]
  simp [cstr_eq_self (nul_not_mem_cstr msg)]

/-- Where both arrive whatever is in memory, the name has no colon and both fit. -/
theorem fits_of_repSubFields
    (h : ∀ behind, repSubFields behind (Model.bdcMsg acc msg).1 (Model.bdcMsg acc msg).2 = some (acc.name, cstr msg)) :
    (58 : UInt8) ∉ acc.name ∧ acc.name.length < 1024 ∧ (cstr msg).length < 1024 := by
  obtain ⟨pos, hpos, -⟩ := Option.map_eq_some_iff.mp (h ⟨[], []⟩)
  obtain ⟨a, q, htext, rfl, ha, ha0⟩ := strchr_eq_some hpos
  have hofs : (Model.bdcMsg acc msg).1.length - (58 :: q).length = a.length := by
    rw [htext, List.length_append]
    omega
  have hfields : ∀ behind : Behind,
      strncpyRead (Model.bdcMsg acc msg).1 a.length 1024 behind.username = acc.name ∧
        strncpyRead ((58 :: q).drop 2) (min (sizeT ((Model.bdcMsg acc msg).2 - (a.length + 2 : Nat))) 1024) 1024
        behind.msg = cstr msg := by
    intro behind
    have hb := h behind
    rw [repSubFields, hpos, Option.map_some, Option.some.injEq, Prod.mk.injEq, hofs] at hb
    exact hb
  have hname : acc.name = a := by
    have hb := (hfields ⟨[], []⟩).1
    rw [strncpyRead_nil, htext, cstr_append ha0, List.take_left' rfl] at hb
    exact hb.symm
  refine ⟨hname ▸ ha, ?_, ?_⟩
  · exact length_lt_of_strncpyRead (fun behind => (hfields ⟨behind, []⟩).1) (.inr (by rw [hname]))
  · exact length_lt_of_strncpyRead (fun behind => (hfields ⟨[], behind⟩).2) (.inl (Nat.min_le_right ..))

end fields

/-! ## The names of accounts -/

namespace Model

/-- No account's name holds a NUL. -/
structure Named (m : Model) : Prop where
  clean : ∀ acc ∈ m.accounts, (0 : UInt8) ∉ acc.name

variable {m : Model}

theorem Named.setAccount (h : m.Named) (id : Nat) {f : Account → Account} (hf : ∀ a, (f a).name = a.name) :
    (m.setAccount id f).Named := by
  refine ⟨?_⟩
  intro acc hacc
  obtain ⟨a, ha, rfl⟩ := List.mem_map.mp hacc
  split
  · rw [hf]
    exact h.clean a ha
  · exact h.clean a ha

/-- The names are the accounts' alone. -/
theorem Named.congr {m' : Model} (h : m.Named) (ha : m'.accounts = m.accounts) : m'.Named := ⟨ha ▸ h.clean⟩

theorem Named.topicLeft (h : m.Named) (topAddr id : Nat) : (m.topicLeft topAddr id).Named :=
  @Named.setAccount (m.setTopic topAddr _) (h.congr rfl) id _ fun _ => rfl

theorem Named.topicDeleteLoop (topAddr k i : Nat) (members : List Nat) (h : m.Named) :
    (topicDeleteLoop topAddr k i members m).Named := by
  induction k generalizing m i members with
  | zero => exact h
  | succ k ih =>
    rw [Model.topicDeleteLoop]
    split
    · exact ih _ _ (h.topicLeft ..)
    · exact h

theorem Named.topicSub (h : m.Named) (top : Topic) (fd : Fd) (slot : Nat) : (m.topicSub top fd slot).Named := by
  unfold Model.topicSub
  split <;> exact h.congr rfl

theorem Named.topicJoin (h : m.Named) (top : Topic) (acc : Account) : (m.topicJoin top acc).Named := by
  unfold Model.topicJoin
  split
  · exact h
  · exact @Named.setAccount (m.setTopic top.addr _) (h.congr rfl) acc.id _ fun _ => rfl

theorem Named.perform (h : m.Named) (v : FdView) (fd : Fd) (content : Mem) (delim : UInt8) (s : Supply) :
    (m.perform v fd content delim s).model.Named := by
  have hp := m.perform_cases v fd content delim s
  generalize m.perform v fd content delim s = p at hp ⊢
  cases hp with
  | create hcmd =>
    have htop : (m.topicCreate (content.drop 7) s.addr).2.Named := by
      unfold topicCreate
      split <;> exact h.congr rfl
    exact htop.topicSub ..
  | delete hcmd =>
    unfold Processed.done modelTopicDelete topicDelete
    cases m.topicGet (content.drop 7) with
    | none => exact h
    | some top => exact (Named.topicDeleteLoop _ _ _ _ h).congr rfl
  | sub hcmd =>
    unfold Processed.done modelSub
    split
    · exact (h.topicJoin ..).topicSub ..
    · exact h
  | unsub hcmd =>
    unfold Processed.done modelUnsub
    split
    · exact (h.topicLeft ..).congr rfl
    · exact h
  | pub hcmd hcut =>
    unfold modelPub
    dsimp only
    split <;> exact h.congr rfl
  | login hcmd hcut =>
    unfold Processed.done modelAccAuth
    dsimp only
    split
    · exact h
    · split
      · exact h.setAccount _ fun _ => rfl
      · exact h
  | @logup user auth hcmd hcut =>
    unfold Processed.done modelAccCreate accountCreate
    dsimp only
    split
    · exact h
    · refine ⟨?_⟩
      intro acc hacc
      rcases List.mem_append.mp hacc with hacc | hacc
      · exact h.clean acc hacc
      · obtain rfl := List.mem_singleton.mp hacc
        exact nul_not_mem_cstr user
  | quiet => exact h

theorem Named.modelProcess (h : m.Named) (v : FdView) (fd : Fd) (content : Mem) (delim : UInt8) (s : Supply) :
    (m.modelProcess v fd content delim s).model.Named := by
  obtain ⟨replies, exited, heq, -, -⟩ := m.modelProcess_of_perform v fd content delim s
  rw [heq]
  exact h.perform v fd content delim s

theorem Named.modelAccOffline (h : m.Named) (fd : Fd) : (m.modelAccOffline fd).Named := by
  unfold Model.modelAccOffline
  split
  · exact h
  · exact h.setAccount _ fun _ => rfl

end Model

theorem Server.named_process {s : Server} (h : s.model.Named) (fd : Fd) (content : Mem) (delim : UInt8) (sup : Supply)
    (rands : List Nat) :
    (s.process fd content delim sup rands).1.model.Named := by
  obtain ⟨cookieList, heq⟩ := s.process_eq fd content delim sup rands
  rw [heq]
  exact h.modelProcess ..

theorem Server.named_step {s : Server} (h : s.model.Named) {e : Event} {r : Server × List Obs}
    (hs : s.step e = some r) :
    r.1.model.Named := by
  cases Server.step_cases hs with
  | accept => rwa [(s.eventAccept_frame _ _).1]
  | command => exact Server.named_process h ..
  | url | headerField => exact h
  | @msgComplete fd sup rands behind sess =>
    have hattach : (s.attachCookie fd sess sup).1.model.Named := by
      unfold attachCookie
      split
      · exact h.setAccount _ fun _ => rfl
      · exact h
    unfold httpOnMsgComplete
    dsimp only
    split
    · exact hattach
    · exact Server.named_process hattach ..
  | @close fd hd =>
    rw [(s.close_frame hd fd).1]
    split
    · exact h.modelAccOffline fd
    · exact h

/-- Whatever a server has done, no account's name holds a NUL. -/
theorem named_run (fdtab : Fd → FdEntry) (maxConn : Int) {es : List Event} {t : Observed}
    (hr : exec observedStep (Server.init fdtab maxConn, []) es = some t) : t.1.model.Named := by
  have hstep : ∀ t e t', t.1.model.Named → observedStep t e = some t' → t'.1.model.Named := by
    intro t e t' hi hs
    obtain ⟨seen, hstep, -⟩ := observed_step hs
    have hnamed := Server.named_step hi hstep
    exact hnamed
  exact (AllStates.of_step (I := fun t => t.1.model.Named) ⟨nofun⟩ hstep es).last hr

/-! ## Publications -/

/-- A subscriber reads the publisher's name and the message, whatever else is in memory, exactly where the name has
no colon and both are shorter than the arrays they are copied to. -/
theorem publication_fields_iff {fdtab : Fd → FdEntry} {maxConn : Int} {es : List Event} {t : Observed}
    (hr : exec observedStep (Server.init fdtab maxConn, []) es = some t) {fd : Fd} {acc : Account}
    (hacc : t.1.model.accountGetByFd fd = some acc) {topic msg : Mem} {r : Response}
    (hsent : r ∈ (t.1.model.modelPub t.1.view fd topic msg).2.2.1) :
    (∀ behind, ∃ text, r.content = .text text ∧ repSubFields behind text r.length = some (acc.name, cstr msg)) ↔
      (58 : UInt8) ∉ acc.name ∧ acc.name.length < 1024 ∧ (cstr msg).length < 1024 := by
  obtain ⟨-, hcontent, hlength⟩ := Model.modelPub_sent hacc r hsent
  have hiff : (∀ behind, ∃ text, r.content = .text text ∧
      repSubFields behind text r.length = some (acc.name, cstr msg)) ↔
      ∀ behind, repSubFields behind (Model.bdcMsg acc msg).1 (Model.bdcMsg acc msg).2 = some (acc.name, cstr msg) := by
    rw [hcontent, hlength]
    simp
  have h0 := (named_run fdtab maxConn hr).clean acc (List.mem_of_find?_eq_some hacc)
  rw [hiff]
  constructor
  · exact fits_of_repSubFields
  · rintro ⟨hc, hname, hmsg⟩
    exact repSubFields_of_fits h0 hc hname hmsg

/-- A connection registers a name, logs in and opens a topic. -/
def opens (name : String) : List Event :=
  [.accept .pubsub 5, plainCommand 5 ("logup " ++ name ++ " pw") 1, plainCommand 5 ("login " ++ name ++ " pw") 1,
    plainCommand 5 "create news" 1]

/-- The server after that. -/
def opened (name : String) : Observed :=
  (exec observedStep (Server.init (fun _ => ⟨false, none, false, none⟩) 100, []) (opens name)).getD (freshServer, [])

theorem opens_opened {name : String}
    (h : (exec observedStep (Server.init (fun _ => ⟨false, none, false, none⟩) 100, []) (opens name)).isSome = true) :
    exec observedStep (Server.init (fun _ => ⟨false, none, false, none⟩) 100, []) (opens name) =
      some (opened name) := by
  obtain ⟨t, ht⟩ := Option.isSome_iff_exists.mp h
  rw [opened, ht, Option.getD_some]

theorem publication_fields_short :
    (opened "bob").1.model.accountGetByFd 5 = some ⟨1, lit "bob", lit "pw", [], [5]⟩ ∧
      ∀ behind, ∃ text, Content.text (lit "bob: hi") = .text text ∧
      repSubFields behind text 7 = some (lit "bob", lit "hi") := by
  have hacc : (opened "bob").1.model.accountGetByFd 5 = some ⟨1, lit "bob", lit "pw", [], [5]⟩ := by decide +kernel
  refine ⟨hacc, ?_⟩
  exact (@publication_fields_iff (fun _ => ⟨false, none, false, none⟩) 100 (opens "bob") (opened "bob")
    (opens_opened (by decide +kernel)) 5 ⟨1, lit "bob", lit "pw", [], [5]⟩ hacc (lit "news") (lit "hi")
    ⟨5, some .repSub, .text (lit "bob: hi"), 7⟩ (by decide +kernel)).mpr (by decide +kernel)

/-- Who registers as `ann:` followed by a text publishes as `ann`. -/
theorem publication_forged :
    ¬∀ (fdtab : Fd → FdEntry) (maxConn : Int) (es : List Event) (t : Observed),
      exec observedStep (Server.init fdtab maxConn, []) es = some t → ∀ (fd : Fd) (acc : Account),
        t.1.model.accountGetByFd fd = some acc →
        ∀ (topic msg : Mem), ∀ r ∈ (t.1.model.modelPub t.1.view fd topic msg).2.2.1,
          ∀ behind, ∃ text, r.content = .text text ∧ repSubFields behind text r.length = some (acc.name, cstr msg) := by
  intro h
  obtain ⟨text, htext, hfields⟩ := h _ 100 (opens "ann:x") (opened "ann:x") (opens_opened (by decide +kernel)) 5
    ⟨1, lit "ann:x", lit "pw", [], [5]⟩ (by decide +kernel) (lit "news") (lit "hi")
    ⟨5, some .repSub, .text (lit "ann:x: hi"), 9⟩ (by decide +kernel) ⟨[], []⟩
  obtain rfl := Content.text.inj htext
  have huser : (repSubFields ⟨[], []⟩ (lit "ann:x: hi") 9).map (·.1) = some (lit "ann") := by decide +kernel
  rw [hfields] at huser
  revert huser
  decide +kernel

end ZeroServ
