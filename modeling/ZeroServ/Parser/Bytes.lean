import ZeroServ.Parser.Execute

/-!
# The parser, a byte at a time

`byteTurn` does with one byte what the cases of `http_parser_execute` do with it, in all states: a letter of a
header, a byte of a body. `feed` takes the byte through the turns it needs. `byteTurn_fits` says all that a turn can
do in a state as it can be (`Core.Sound`): no assertion fails, the turns come to an end, and marks are set and unset
as the states go (`State.opened`).
-/

namespace ZeroServ.Parser

open CString

/-- The turn of a byte. -/
def byteTurn (q : Core) (ch : UInt8) : Turn :=
  match q.state with
  | .headerField =>
    if token ch ≠ 0 then q.headerFieldLetter ch
    else if ch = ':'.toUInt8 then .next { q with state := .headerValueDiscardWs } [.data .headerField]
    else .error q [] .invalidHeaderToken
  | .headerValue =>
    if ch = cr then .next { q with state := .headerAlmostDone } [.data .headerValue]
    else if ch = lf then .again { q with state := .headerAlmostDone } [.data .headerValue]
    else q.headerValueLetter ch
  | .bodyIdentity =>
    if q.contentLength = 0 ∨ q.contentLength = ullongMax then .abort
    else if q.contentLength = 1 then .again { q with contentLength := 0, state := .messageDone }
      [.mark .body, .dataWith .body]
    else .next { q with contentLength := q.contentLength - 1 } [.mark .body]
  | .bodyIdentityEof => .next q [.mark .body]
  | .chunkData =>
    if !q.flags.chunked ∨ q.contentLength = 0 ∨ q.contentLength = ullongMax then .abort
    else if q.contentLength = 1 then .next { q with contentLength := 0, state := .chunkDataAlmostDone } [.mark .body]
    else .next { q with contentLength := q.contentLength - 1 } [.mark .body]
  | _ => oneByte q ch

/-- Where bytes lead: they are all read, or a return comes before, with the number returned. -/
inductive Course where
  | on (q : Core) (m : Marks)
  | stop (n : Nat) (q : Core) (m : Marks) (e : Errno)
  | abort

/-- A byte, at a place. -/
def feed (p : Nat) (ch : UInt8) : Nat → Core → Marks → Course
  | 0, _, _ => .abort
  | fuel + 1, q, m =>
    match byteTurn q ch with
    | .next q acts => .on q (m.acts p acts)
    | .again q acts => feed p ch fuel q (m.acts p acts)
    | .exit q acts => .stop (p + 1) q (m.acts p acts) .ok
    | .error q acts e => .stop p q (m.acts p acts) e
    | .abort => .abort

/-- Bytes, from a place on. -/
def feedAll (q : Core) (m : Marks) (p : Nat) : List UInt8 → Course
  | [] => .on q m
  | ch :: rest =>
    match feed p ch turns q m with
    | .on q m => feedAll q m (p + 1) rest
    | c => c

/-! ## What the states promise -/

/-- The header states that a name can be in. -/
def HeaderState.ofName : HeaderState → Bool
  | .general | .c | .co | .con | .matchingConnection | .matchingProxyConnection | .matchingContentLength
  | .matchingTransferEncoding
  | .matchingUpgrade | .connection | .contentLength | .transferEncoding | .upgrade => true
  | _ => false

/-- What holds of a parser in a state. -/
def Core.Sound (q : Core) : Prop :=
  match q.state with
  | .headerField => q.headerState.ofName = true
  | .headerValue => q.headerState ≠ .connection ∧ q.headerState ≠ .transferEncoding
  | .bodyIdentity => q.contentLength ≠ 0 ∧ q.contentLength ≠ ullongMax
  | .chunkSizeStart | .chunkDataDone => q.flags.chunked = true
  | .chunkSize | .chunkParameters | .chunkSizeAlmostDone => q.flags.chunked = true ∧ q.contentLength ≠ ullongMax
  | .chunkData => q.flags.chunked = true ∧ q.contentLength ≠ 0 ∧ q.contentLength ≠ ullongMax
  | .chunkDataAlmostDone => q.flags.chunked = true ∧ q.contentLength = 0
  | _ => True

/-- The states whose cases read on. -/
def State.readsOn : State → Bool
  | .headerField | .headerValue | .bodyIdentity | .bodyIdentityEof | .chunkData => true
  | _ => false

/-- How often a byte can still be looked at again. -/
def State.rank : State → Nat
  | .headerValueLws | .headerValueDiscardLws => 3
  | .headerFieldStart => 2
  | .headersAlmostDone | .startReqOrRes | .headerValue | .bodyIdentity => 1
  | _ => 0

theorem rank_lt_turns (s : State) : s.rank < turns := by
  cases s <;> decide

/-- The mark of a state: none, perhaps that of a body, or one that is set. -/
inductive Opened where
  | shut
  | maybe
  | set (d : Datum)
  deriving DecidableEq, Repr

/-- The mark of a state. -/
def State.opened (s : State) : Opened :=
  match s with
  | .bodyIdentity | .bodyIdentityEof | .chunkData | .chunkDataAlmostDone => .maybe
  | _ =>
    match s.startMark with
    | some d => .set d
    | none => .shut

theorem opened_of_startMark {s : State} {d : Datum} (h : s.startMark = some d) : s.opened = .set d := by
  revert h
  cases s <;> simp [State.startMark, State.opened]

/-- What an act makes of the mark, where it may come. -/
def Act.moves : Opened → Act → Option Opened
  | .shut, .mark d => some (.set d)
  | .maybe, .mark .body => some (.set .body)
  | .maybe, .data .body => some .shut
  | .set d, .data d' | .set d, .dataWith d' => if d = d' then some .shut else none
  | .shut, .notify _ | .shut, .clear | .shut, .check => some .shut
  | _, _ => none

/-- A mark as it is when a turn is left may be that of a state. -/
def Opened.suits : Opened → Opened → Bool
  | .shut, .shut | .shut, .maybe | .set .body, .maybe => true
  | .set d, .set d' => d = d'
  | _, _ => false

/-- The marks of a state, after some acts in another one. -/
def Moves (s : State) (acts : List Act) (s' : State) : Prop :=
  ∃ o, acts.foldlM Act.moves s.opened = some o ∧ o.suits s'.opened = true

theorem moves_shut {s s' : State} (h : s.opened = .shut) (h' : s'.opened = .shut) : Moves s [] s' :=
  ⟨.shut, congrArg some h, by rw [h']; rfl⟩

/-- How a turn that goes on leaves the parser. -/
structure Leads (q : Core) (acts : List Act) (q' : Core) : Prop where
  sound : q'.Sound
  moves : Moves q.state acts q'.state
  clear : q'.state = .chunkSizeStart → .clear ∈ acts
  check : .check ∈ acts → q.state = .chunkSizeStart ∧ acts = [.check]

/-- What a turn can be. -/
def Turn.Fits (q : Core) : Turn → Prop
  | .next q' acts => Leads q acts q'
  | .again q' acts => Leads q acts q' ∧ q'.state.rank < q.state.rank ∧ q'.state.readsOn = false ∧
    q'.state ≠ .chunkSizeStart
  | .exit q' acts => Leads q acts q' ∧ q'.state ≠ .chunkSizeStart ∧ q'.state.opened = .shut
  | .error _ acts e => (.check ∈ acts → q.state = .chunkSizeStart ∧ acts = [.check]) ∧ e ≠ .ok ∧ e ≠ .headerOverflow
  | .abort => False

/-! ## Turns of one byte -/

/-- The states without a promise. -/
def State.free : State → Bool
  | .headerField | .headerValue | .bodyIdentity | .chunkSizeStart | .chunkSize | .chunkParameters | .chunkSizeAlmostDone
  | .chunkData
  | .chunkDataAlmostDone | .chunkDataDone => false
  | _ => true

theorem Core.sound_of_free {q : Core} (h : q.state.free = true) : q.Sound := by
  unfold Core.Sound
  cases hs : q.state <;> first | trivial | (rw [hs] at h; nomatch h)

/-- A turn into a state without a promise, that checks nothing. -/
theorem leads_of_free {q q' : Core} {acts : List Act} (hf : q'.state.free = true) (hm : Moves q.state acts q'.state)
    (hc : .check ∉ acts) : Leads q acts q' :=
  ⟨Core.sound_of_free hf, hm, fun h => (by rw [h] at hf; nomatch hf), fun h => absurd h hc⟩

theorem newMessage_cases (q : Core) : q.newMessage = .startReq ∨ q.newMessage = .startRes ∨ q.newMessage = .dead := by
  unfold Core.newMessage
  split_ifs <;> simp

theorem newMessage_free (q : Core) : q.newMessage.free = true := by
  rcases newMessage_cases q with h | h | h <;> rw [h] <;> rfl

theorem newMessage_ne (q : Core) : q.newMessage ≠ .chunkSizeStart :=
  fun h => nomatch (h ▸ newMessage_free q : State.chunkSizeStart.free = true)

theorem newMessage_opened (q : Core) : q.newMessage.opened = .shut := by
  rcases newMessage_cases q with h | h | h <;> rw [h] <;> rfl

theorem parseUrlChar_startMark {s : State} {ch : UInt8} (h : parseUrlChar s ch ≠ .dead) :
    (parseUrlChar s ch).startMark = some .url := by
  revert h
  cases s <;> simp only [parseUrlChar] <;> split_ifs <;> simp [State.startMark]

theorem free_of_url {s : State} (h : s.startMark = some .url) : s.free = true := by
  cases s <;> first | rfl | nomatch h

theorem error_fits {q q' : Core} {e : Errno} (h : e ≠ .ok) (h' : e ≠ .headerOverflow) : Turn.Fits q (.error q' [] e) :=
  ⟨nofun, h, h'⟩

theorem again_of_free {q q' : Core} {acts : List Act} (hf : q'.state.free = true) (hm : Moves q.state acts q'.state)
    (hc : .check ∉ acts)
    (hlt : q'.state.rank < q.state.rank) (hr : q'.state.readsOn = false) : Turn.Fits q (.again q' acts) :=
  ⟨leads_of_free hf hm hc, hlt, hr, fun h => (by rw [h] at hf; nomatch hf)⟩

/-- A turn of the URL. -/
theorem url_fits {q : Core} {ch : UInt8} {s : State} {acts : List Act} (ha : .check ∉ acts)
    (ho : acts.foldlM Act.moves q.state.opened = some (.set .url)) :
    Turn.Fits q (if parseUrlChar s ch = .dead then .error { q with state := parseUrlChar s ch } acts .invalidUrl
      else .next { q with state := parseUrlChar s ch } acts) := by
  split_ifs with hd
  · exact ⟨fun h => absurd h ha, by decide, by decide⟩
  · have hu := parseUrlChar_startMark hd
    exact leads_of_free (free_of_url hu) ⟨_, ho, by rw [opened_of_startMark hu]; rfl⟩ ha

theorem expect_fits {q : Core} {ch expected : UInt8} {s : State} (hf : s.free = true) (ho : q.state.opened = .shut)
    (ho' : s.opened = .shut) :
    (expect q ch expected s).Fits q := by
  unfold expect
  split_ifs
  · exact ⟨nofun, by decide, by decide⟩
  · exact leads_of_free hf (moves_shut ho ho') nofun

theorem version_fits {q : Core} {ch : UInt8} {done : List (UInt8 × State)} {n : UInt16} {set : UInt16 → Core}
    (hset : ∀ n, (set n).state = q.state) (hq : q.state.free = true) (hq' : q.state.opened = .shut)
    (hdone : ∀ d ∈ done, d.2.free = true ∧ d.2.opened = .shut) : (version q ch done n set).Fits q := by
  unfold version
  cases hl : done.lookup ch with
  | some s =>
    obtain ⟨l₁, l₂, hd, -⟩ := List.lookup_eq_some_iff.mp hl
    have hs := hdone (ch, s) (by rw [hd]; simp)
    exact leads_of_free hs.1 (moves_shut hq' hs.2) nofun
  | none =>
    simp only
    split_ifs
    · exact ⟨nofun, by decide, by decide⟩
    · exact ⟨nofun, by decide, by decide⟩
    · exact leads_of_free ((hset _).symm ▸ hq) (moves_shut hq' (by rw [hset, hq'])) nofun

theorem valueStart_fits {q : Core} {ch : UInt8} (hq : q.state.opened = .shut) : (valueStart q ch).Fits q := by
  have hm : Moves q.state [.mark .headerValue] .headerValue := ⟨_, by rw [hq]; rfl, rfl⟩
  have hl : ∀ q' : Core, q'.state = .headerValue → q'.headerState ≠ .connection ∧ q'.headerState ≠ .transferEncoding →
      Leads q [.mark .headerValue] q' := by
    intro q' hs hh
    refine ⟨?_, hs.symm ▸ hm, fun h => ?_, fun h => ?_⟩
    · unfold Core.Sound
      rw [hs]
      exact hh
    · rw [hs] at h
      nomatch h
    · simp at h
  unfold valueStart
  cases hh : q.headerState
  all_goals simp only [Turn.Fits]
  case contentLength =>
    split_ifs
    · exact ⟨by simp, by decide, by decide⟩
    · exact hl _ rfl (by simp)
  all_goals (refine hl _ rfl ?_; simp only; first | decide | (split_ifs <;> decide))


/-- A turn into a state with a promise. -/
theorem leads_of_sound {q q' : Core} {acts : List Act} (h : q'.Sound) (hm : Moves q.state acts q'.state)
    (hs : q'.state ≠ .chunkSizeStart) (hc : .check ∉ acts) : Leads q acts q' :=
  ⟨h, hm, fun h => absurd h hs, fun h => absurd h hc⟩

theorem forall_byte {p : UInt8 → Prop} (h : ∀ i < 256, p (UInt8.ofNat i)) (ch : UInt8) : p ch := by
  have hp := h ch.toNat ch.toNat_lt
  rwa [UInt8.ofNat_toNat] at hp

/-- The digit of a chunk size. -/
theorem unhex_le {ch : UInt8} {n : UInt64} (h : unhex ch = some n) : n ≤ 15 := by
  have hall : ∀ i < 256, (unhex (UInt8.ofNat i)).all (· ≤ 15) = true := by decide +kernel
  have hch := forall_byte (p := fun ch => (unhex ch).all (· ≤ 15) = true) hall ch
  rw [h] at hch
  exact of_decide_eq_true hch

theorem ne_ullongMax_of_le {n : UInt64} (h : n ≤ 15) : n ≠ ullongMax := by
  rintro rfl
  revert h
  decide

theorem chunkSize_ne {size n : UInt64} (hn : n ≤ 15) (h : ¬(ullongMax - 16) / 16 < size) :
    size * 16 + n ≠ ullongMax := by
  intro heq
  have hmax : ((ullongMax - 16) / 16).toNat = 1152921504606846974 := by decide
  rw [UInt64.lt_iff_toNat_lt, hmax] at h
  have hn' : n.toNat ≤ 15 := UInt64.le_iff_toNat_le.mp hn
  have heq' := congrArg UInt64.toNat heq
  rw [UInt64.toNat_add, UInt64.toNat_mul, show (16 : UInt64).toNat = 16 from rfl,
    show ullongMax.toNat = 18446744073709551615 from rfl] at heq'
  omega

theorem chunkSizeStart_fits {q : Core} {ch : UInt8} (hs : q.state = .chunkSizeStart) (h : q.flags.chunked = true) :
    (oneByte q ch).Fits q := by
  simp only [oneByte, hs, h, Bool.not_true, Bool.false_eq_true, if_false]
  cases hu : unhex ch with
  | none => exact ⟨fun _ => ⟨hs, rfl⟩, by decide, by decide⟩
  | some n => exact ⟨⟨h, ne_ullongMax_of_le (unhex_le hu)⟩, ⟨.shut, by rw [hs]; rfl, rfl⟩, nofun, fun _ => ⟨hs, rfl⟩⟩

theorem chunkSize_fits {q : Core} {ch : UInt8} (hs : q.state = .chunkSize) (h : q.flags.chunked = true)
    (hl : q.contentLength ≠ ullongMax) : (oneByte q ch).Fits q := by
  have hm : ∀ s : State, s.opened = .shut → Moves q.state [] s := fun s ho => moves_shut (by rw [hs]; rfl) ho
  simp only [oneByte, hs, h, Bool.not_true, Bool.false_eq_true, if_false]
  split
  · exact leads_of_sound ⟨h, hl⟩ (hm _ rfl) nofun nofun
  · cases hu : unhex ch with
    | none =>
      simp only
      split_ifs
      · exact leads_of_sound ⟨h, hl⟩ (hm _ rfl) nofun nofun
      · exact error_fits (by decide) (by decide)
    | some n =>
      simp only
      split_ifs with hlt
      · exact error_fits (by decide) (by decide)
      · exact leads_of_sound ⟨h, chunkSize_ne (unhex_le hu) hlt⟩ (hm _ rfl) nofun nofun

theorem chunkSizeAlmostDone_fits {q : Core} {ch : UInt8} (hs : q.state = .chunkSizeAlmostDone)
    (h : q.flags.chunked = true) (hl : q.contentLength ≠ ullongMax) : (oneByte q ch).Fits q := by
  simp only [oneByte, hs, h, Bool.not_true, Bool.false_eq_true, if_false]
  split_ifs with hch h0
  · exact error_fits (by decide) (by decide)
  · exact leads_of_free rfl ⟨.shut, by rw [hs]; rfl, rfl⟩ (by simp)
  · exact leads_of_sound ⟨h, h0, hl⟩ ⟨.shut, by rw [hs]; rfl, rfl⟩ nofun (by simp)

/-- A body, a new message or the sizes of chunks follow the headers. -/
theorem headersDone_fits {q : Core} {ch : UInt8} (hs : q.state = .headersDone) : (oneByte q ch).Fits q := by
  have hnew : Leads q [.clear, .notify .messageComplete] { q with state := q.newMessage } :=
    leads_of_free (newMessage_free q) ⟨.shut, by rw [hs]; rfl, by rw [newMessage_opened]; rfl⟩ (by simp)
  simp only [oneByte, hs]
  split_ifs with hch hup hskip hchunked h0 hmax heof
  · exact error_fits (by decide) (by decide)
  · exact ⟨hnew, newMessage_ne q, newMessage_opened q⟩
  · exact hnew
  · exact ⟨hchunked, ⟨.shut, by rw [hs]; rfl, rfl⟩, fun _ => by simp, by simp⟩
  · exact hnew
  · exact leads_of_sound ⟨h0, hmax⟩ ⟨.shut, by rw [hs]; rfl, rfl⟩ nofun (by simp)
  · exact hnew
  · exact leads_of_free rfl ⟨.shut, by rw [hs]; rfl, rfl⟩ (by simp)

theorem headerFieldStart_fits {q : Core} {ch : UInt8} (hs : q.state = .headerFieldStart) : (oneByte q ch).Fits q := by
  have hm : ∀ s : State, s.opened = .shut → Moves q.state [] s := fun s ho => moves_shut (by rw [hs]; rfl) ho
  simp only [oneByte, hs]
  split
  · exact leads_of_free rfl (hm _ rfl) nofun
  split
  · exact again_of_free rfl (hm _ rfl) nofun (by rw [hs]; exact Nat.lt_succ_self 1) rfl
  split
  · exact error_fits (by decide) (by decide)
  · refine leads_of_sound ?_ ⟨_, by rw [hs]; rfl, rfl⟩ nofun (by simp)
    simp only [Core.Sound]
    split_ifs <;> rfl

theorem url_states_fits {q : Core} {ch : UInt8} (hs : q.state.startMark = some .url) : (oneByte q ch).Fits q := by
  obtain ⟨type, flags, state, headerState, index, contentLength, httpMajor, httpMinor, statusCode, method, upgrade⟩ := q
  cases state
  case reqSchema | reqSchemaSlash | reqSchemaSlashSlash | reqServerStart =>
    simp only [oneByte]
    split
    · exact error_fits (by decide) (by decide)
    · exact url_fits nofun rfl
  case reqServer | reqServerWithAt | reqPath | reqQueryStringStart | reqQueryString | reqFragmentStart | reqFragment =>
    simp only [oneByte]
    split
    · exact leads_of_free rfl ⟨_, rfl, rfl⟩ (by simp)
    split
    · refine leads_of_free ?_ ⟨.shut, rfl, ?_⟩ (by simp) <;> (simp only; split_ifs <;> rfl)
    · exact url_fits nofun rfl
  all_goals nomatch hs

/-- What a turn of one byte is. -/
theorem oneByte_fits {q : Core} (ch : UInt8) (h : q.Sound) (hr : q.state.readsOn = false) : (oneByte q ch).Fits q := by
  by_cases hurl : q.state.startMark = some .url
  · exact url_states_fits hurl
  obtain ⟨type, flags, state, headerState, index, contentLength, httpMajor, httpMinor, statusCode, method, upgrade⟩ := q
  cases state
  case headersDone => exact headersDone_fits rfl
  case headerFieldStart => exact headerFieldStart_fits rfl
  case chunkSizeStart => exact chunkSizeStart_fits rfl h
  case chunkSize => exact chunkSize_fits rfl h.1 h.2
  case chunkSizeAlmostDone => exact chunkSizeAlmostDone_fits rfl h.1 h.2
  case chunkParameters =>
    simp only [oneByte, show flags.chunked = true from h.1, Bool.not_true, Bool.false_eq_true, if_false]
    split
    · exact leads_of_sound h ⟨_, rfl, rfl⟩ nofun nofun
    · exact leads_of_sound h ⟨_, rfl, rfl⟩ nofun nofun
  case chunkDataAlmostDone =>
    simp only [oneByte, show flags.chunked = true from h.1, show contentLength = 0 from h.2]
    split_ifs
    · simp_all
    · exact error_fits (by decide) (by decide)
    · exact leads_of_sound h.1 ⟨_, rfl, rfl⟩ nofun (by simp)
  case chunkDataDone =>
    simp only [oneByte, show flags.chunked = true from h, Bool.not_true, Bool.false_eq_true, if_false]
    split
    · exact error_fits (by decide) (by decide)
    · exact ⟨h, ⟨_, rfl, rfl⟩, fun _ => by simp, by simp⟩
  case messageDone =>
    have hnew : ∀ q : Core, q.state = .messageDone →
        Leads q [.notify .messageComplete] { q with state := q.newMessage } := fun q hs =>
      leads_of_free (newMessage_free q) ⟨.shut, by rw [hs]; rfl, by rw [newMessage_opened]; rfl⟩ (by simp)
    simp only [oneByte]
    split_ifs
    · exact ⟨hnew _ rfl, newMessage_ne _, newMessage_opened _⟩
    · exact hnew _ rfl
  case startReq =>
    simp only [oneByte]
    split
    · exact leads_of_free rfl ⟨_, rfl, rfl⟩ nofun
    split
    · exact error_fits (by decide) (by decide)
    cases methodOf ch with
    | some method => exact leads_of_free rfl ⟨_, rfl, rfl⟩ (by simp)
    | none => exact error_fits (by decide) (by decide)
  case reqMethod =>
    simp only [oneByte]
    split
    · exact error_fits (by decide) (by decide)
    split
    · exact leads_of_free rfl ⟨_, rfl, rfl⟩ nofun
    split
    · exact leads_of_free rfl ⟨_, rfl, rfl⟩ nofun
    cases otherMethod method index ch with
    | some method => exact leads_of_free rfl ⟨_, rfl, rfl⟩ nofun
    | none => exact error_fits (by decide) (by decide)
  case reqSpacesBeforeUrl =>
    simp only [oneByte]
    split
    · exact leads_of_free rfl ⟨_, rfl, rfl⟩ nofun
    · exact url_fits (by simp) rfl
  case resHttpMajor | resHttpMinor | reqHttpMajor | reqHttpMinor =>
    simp only [oneByte]
    exact version_fits (fun _ => rfl) rfl rfl (by decide)
  case headerField | headerValue | bodyIdentity | bodyIdentityEof | chunkData => nomatch hr
  all_goals first
    | exact absurd rfl hurl
    | exact expect_fits rfl rfl rfl
    | exact valueStart_fits rfl
    | skip
  all_goals simp only [oneByte]
  all_goals split_ifs
  all_goals first
    | exact error_fits (by decide) (by decide)
    | exact valueStart_fits rfl
    | exact leads_of_free rfl ⟨_, rfl, rfl⟩ (by simp)
    | exact again_of_free rfl ⟨_, rfl, rfl⟩ (by simp) (by simp [State.rank]) rfl

/-! ## The letters of headers -/

section MatchWord

variable (q : Core) (word : List UInt8) (c : UInt8) (matched missed : HeaderState)

@[simp] theorem matchWord_state : (q.matchWord word c matched missed).state = q.state := by
  simp only [Core.matchWord]
  split_ifs <;> rfl

theorem matchWord_headerState : (q.matchWord word c matched missed).headerState = missed ∨
    (q.matchWord word c matched missed).headerState = matched ∨
    (q.matchWord word c matched missed).headerState = q.headerState := by
  simp only [Core.matchWord]
  split_ifs
  · exact Or.inl rfl
  · exact Or.inr (Or.inl rfl)
  · exact Or.inr (Or.inr rfl)

end MatchWord

/-- A letter of a name leaves the parser in the name. -/
theorem headerFieldLetter_next {q : Core} (ch : UInt8) (hs : q.state = .headerField) (h : q.headerState.ofName = true) :
    ∃ q', q.headerFieldLetter ch = .next q' [] ∧ q'.state = .headerField ∧ q'.headerState.ofName = true := by
  have hword : ∀ word matched, matched.ofName = true →
      ∃ q', Turn.next (q.matchWord word (token ch) matched .general) [] = .next q' [] ∧
      q'.state = .headerField ∧ q'.headerState.ofName = true := by
    intro word matched hm
    refine ⟨_, rfl, by rw [matchWord_state, hs], ?_⟩
    rcases matchWord_headerState q word (token ch) matched .general with h' | h' | h' <;> rw [h']
    · rfl
    · exact hm
    · exact h
  unfold Core.headerFieldLetter
  cases hh : q.headerState
  case matchingConnection | matchingProxyConnection | matchingContentLength | matchingTransferEncoding
      | matchingUpgrade =>
    exact hword _ _ rfl
  case general => exact ⟨q, rfl, hs, h⟩
  case c | co | con =>
    refine ⟨_, rfl, hs, ?_⟩
    simp only
    split_ifs <;> rfl
  case connection | contentLength | transferEncoding | upgrade =>
    refine ⟨_, rfl, ?_⟩
    split_ifs
    · exact ⟨hs, rfl⟩
    · exact ⟨hs, h⟩
  all_goals (rw [hh] at h; nomatch h)

/-- A letter of a value leaves the parser in the value, or is an error. -/
theorem headerValueLetter_next {q : Core} (ch : UInt8) (hs : q.state = .headerValue)
    (h : q.headerState ≠ .connection ∧ q.headerState ≠ .transferEncoding) :
    (∃ q', q.headerValueLetter ch = .next q' [] ∧ q'.state = .headerValue ∧ q'.headerState ≠ .connection ∧
      q'.headerState ≠ .transferEncoding) ∨ q.headerValueLetter ch = .error q [] .invalidContentLength := by
  have hword : ∀ word matched missed, matched ≠ .connection ∧ matched ≠ .transferEncoding →
      missed ≠ .connection ∧ missed ≠ .transferEncoding →
      ∃ q', Turn.next (q.matchWord word (lower ch) matched missed) [] = .next q' [] ∧
        q'.state = .headerValue ∧ q'.headerState ≠ .connection ∧ q'.headerState ≠ .transferEncoding := by
    intro word matched missed hm hm'
    refine ⟨_, rfl, by rw [matchWord_state, hs], ?_⟩
    rcases matchWord_headerState q word (lower ch) matched missed with h' | h' | h' <;> rw [h']
    · exact hm'
    · exact hm
    · exact h
  unfold Core.headerValueLetter
  cases hh : q.headerState
  case matchingTransferEncodingChunked | matchingConnectionKeepAlive | matchingConnectionClose
      | matchingConnectionUpgrade =>
    exact Or.inl (hword _ _ _ (by decide) (by decide))
  case connection => exact absurd hh h.1
  case transferEncoding => exact absurd hh h.2
  case contentLength =>
    simp only
    split_ifs
    · exact Or.inl ⟨q, rfl, hs, h⟩
    · exact Or.inr rfl
    · exact Or.inr rfl
    · exact Or.inl ⟨_, rfl, hs, nofun, nofun⟩
  case matchingConnectionTokenStart =>
    refine Or.inl ⟨_, rfl, hs, ?_⟩
    simp only
    split_ifs <;> decide
  case matchingConnectionToken | transferEncodingChunked =>
    refine Or.inl ⟨_, rfl, ?_⟩
    split_ifs
    · exact ⟨hs, nofun, nofun⟩
    · exact ⟨hs, h⟩
  case connectionKeepAlive | connectionClose | connectionUpgrade =>
    refine Or.inl ⟨_, rfl, ?_⟩
    split_ifs
    · exact ⟨hs, nofun, nofun⟩
    · exact ⟨hs, nofun, nofun⟩
    · exact ⟨hs, h⟩
  all_goals exact Or.inl ⟨_, rfl, rfl, nofun, nofun⟩

/-! ## Every turn -/

theorem pred_ne {n : UInt64} (h0 : n ≠ 0) (h1 : n ≠ 1) : n - 1 ≠ 0 ∧ n - 1 ≠ ullongMax := by
  have hmax : ullongMax = 0 - 1 := by decide
  rw [hmax]
  refine ⟨fun h => h1 ?_, fun h => h0 ?_⟩ <;> grind

/-- What a turn is. -/
theorem byteTurn_fits {q : Core} (ch : UInt8) (h : q.Sound) : (byteTurn q ch).Fits q := by
  by_cases hr : q.state.readsOn = false
  · have hone : byteTurn q ch = oneByte q ch := by
      unfold byteTurn
      cases hs : q.state <;> first | rfl | (rw [hs] at hr; nomatch hr)
    rw [hone]
    exact oneByte_fits ch h hr
  unfold byteTurn
  cases hs : q.state
  case headerField =>
    have hn : q.headerState.ofName = true := by simpa only [Core.Sound, hs] using h
    have hm : Moves q.state [] .headerField := ⟨_, rfl, by rw [hs]; rfl⟩
    simp only
    split_ifs
    · obtain ⟨q', heq, hs', hn'⟩ := headerFieldLetter_next ch hs hn
      rw [heq]
      refine leads_of_sound ?_ (hs' ▸ hm) (by rw [hs']; nofun) nofun
      simpa only [Core.Sound, hs'] using hn'
    · exact leads_of_free rfl ⟨.shut, by rw [hs]; rfl, rfl⟩ (by simp)
    · exact error_fits (by decide) (by decide)
  case headerValue =>
    have hn : q.headerState ≠ .connection ∧ q.headerState ≠ .transferEncoding := by simpa only [Core.Sound, hs] using h
    have hm : Moves q.state [] .headerValue := ⟨_, rfl, by rw [hs]; rfl⟩
    simp only
    split_ifs
    · exact leads_of_free rfl ⟨.shut, by rw [hs]; rfl, rfl⟩ (by simp)
    · exact again_of_free rfl ⟨.shut, by rw [hs]; rfl, rfl⟩ (by simp) (by rw [hs]; exact Nat.one_pos) rfl
    · rcases headerValueLetter_next ch hs hn with ⟨q', heq, hs', hn'⟩ | heq
      · rw [heq]
        refine leads_of_sound ?_ (hs' ▸ hm) (by rw [hs']; nofun) nofun
        simpa only [Core.Sound, hs'] using hn'
      · rw [heq]
        exact error_fits (by decide) (by decide)
  case bodyIdentity =>
    have hl : q.contentLength ≠ 0 ∧ q.contentLength ≠ ullongMax := by simpa only [Core.Sound, hs] using h
    simp only
    split_ifs with hc h1
    · exact hc.elim hl.1 hl.2
    · exact again_of_free rfl ⟨.shut, by rw [hs]; rfl, rfl⟩ (by simp) (by rw [hs]; exact Nat.one_pos) rfl
    · exact leads_of_sound (pred_ne hl.1 h1) ⟨.set .body, by rw [hs]; rfl, rfl⟩ nofun (by simp)
  case bodyIdentityEof =>
    exact leads_of_free (by rw [hs]; rfl) ⟨.set .body, by rw [hs]; rfl, by rw [hs]; rfl⟩ (by simp)
  case chunkData =>
    have hl : q.flags.chunked = true ∧ q.contentLength ≠ 0 ∧ q.contentLength ≠ ullongMax := by
      simpa only [Core.Sound, hs] using h
    simp only
    split_ifs with hc h1
    · rw [hl.1] at hc
      exact (hc.resolve_left (by decide)).elim hl.2.1 hl.2.2
    · exact leads_of_sound ⟨hl.1, rfl⟩ ⟨.set .body, by rw [hs]; rfl, rfl⟩ nofun (by simp)
    · exact leads_of_sound ⟨hl.1, pred_ne hl.2.1 h1⟩ ⟨.set .body, by rw [hs]; rfl, rfl⟩ nofun (by simp)
  all_goals (rw [hs] at hr; exact absurd rfl hr)

end ZeroServ.Parser
