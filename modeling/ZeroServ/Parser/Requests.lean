import ZeroServ.Parser.Segments

/-!
# Requests

What a client sends for a request (`Request.wire`), and what the callbacks say of it (`Request.said`). However the
bytes of requests in a row are cut, the parser says just that of each (`requests_parsed`). What a byte adds is in the
parser and the byte alone (`Core.listen`), so a request is followed part by part without places or marks.
-/

namespace ZeroServ.Parser

open CString Pieces

/-! ## What bytes add -/

/-- The parser after a byte that does not end the call, and what the byte adds to what has been heard. -/
def Core.listen (ch : UInt8) : Nat → Core → Option (Core × List Heard)
  | 0, _ => none
  | fuel + 1, q =>
    match byteTurn q ch with
    | .next q' acts => some (q', acts.flatMap (Act.adds ch) ++
      ((acts.foldlM Act.moves q.state.opened).getD .shut).adds ch)
    | .again q' acts => (Core.listen ch fuel q').map fun r => (r.1, acts.flatMap (Act.adds ch) ++ r.2)
    | _ => none

/-- The parser after bytes, and what they add. -/
def Core.listenAll (q : Core) : List UInt8 → Option (Core × List Heard)
  | [] => some (q, [])
  | ch :: rest => do
    let r ← Core.listen ch turns q
    let r' ← r.1.listenAll rest
    some (r'.1, r.2 ++ r'.2)

section Listen

variable {data : List UInt8} {p : Nat} {m : Marks} {hs hs' : List Heard} {q q' q₁ : Core} {ch : UInt8}

theorem feed_listen (acc : List Heard) (fuel : Nat) (hq : q.Sound) (hm : m.Fit q.state.opened) (hw : m.Within p (p + 1))
    (hp : data[p]? = some ch) (h : Core.listen ch fuel q = some (q', hs)) :
    ∃ m', feed p ch fuel q m = .on q' m' ∧ join acc (m'.told data (p + 1)) = join (join acc (m.told data p)) hs := by
  have hlt : p < data.length := (List.getElem?_eq_some_iff.mp hp).1
  have hch : data.getD p 0 = ch := Option.some.inj ((getElem?_eq_getD hlt).symm.trans hp)
  induction fuel generalizing q m hs with
  | zero => cases h
  | succ fuel ih =>
    have hf := byteTurn_fits ch hq
    rw [Core.listen] at h
    unfold feed
    cases ht : byteTurn q ch with
    | next q₁ acts =>
      rw [ht] at h hf
      obtain ⟨o, ho, hsuits⟩ := hf.moves
      have hne : o ≠ .maybe := by
        rintro rfl
        cases hsuits
      simp only [ho, Option.getD_some, Option.some.injEq, Prod.mk.injEq] at h
      obtain ⟨rfl, rfl⟩ := h
      refine ⟨m.acts p acts, rfl, ?_⟩
      rw [told_pass (hm.acts ho p) hne (hw.acts acts) hlt, told_acts hm ho hw hlt, join_append, hch]
    | again q₁ acts =>
      rw [ht] at h hf
      obtain ⟨r, hr, heq⟩ := Option.map_eq_some_iff.mp h
      simp only [Prod.mk.injEq] at heq
      obtain ⟨rfl, rfl⟩ := heq
      obtain ⟨o, ho, -⟩ := hf.1.moves
      obtain ⟨m', hfeed, htold⟩ := ih hf.1.sound (hm.opened hf.1.moves p) (hw.acts acts) hr
      refine ⟨m', hfeed, ?_⟩
      rw [htold, told_acts hm ho hw hlt, join_append, hch]
    | exit | error | abort =>
      rw [ht] at h
      cases h

/-- Bytes add to what has been heard wherever they stand in a call. -/
theorem feedAll_listen (acc : List Heard) {bytes : List UInt8} (hq : q.Sound) (hm : m.Fit q.state.opened)
    (hw : m.Within p p) (hp : bytes <+: data.drop p) (h : q.listenAll bytes = some (q', hs)) :
    ∃ m', feedAll q m p bytes = .on q' m' ∧ join acc (m'.told data (p + bytes.length)) =
      join (join acc (m.told data p)) hs := by
  induction bytes generalizing q m p acc hs with
  | nil =>
    simp only [Core.listenAll, Option.some.injEq, Prod.mk.injEq] at h
    obtain ⟨rfl, rfl⟩ := h
    exact ⟨m, rfl, rfl⟩
  | cons ch rest ih =>
    obtain ⟨hch, hrest⟩ := next_of_prefix hp
    obtain ⟨r, hr, h⟩ := Option.bind_eq_some_iff.mp h
    obtain ⟨r', hr', h⟩ := Option.bind_eq_some_iff.mp h
    simp only [Option.some.injEq, Prod.mk.injEq] at h
    obtain ⟨rfl, rfl⟩ := h
    have hw' := hw.mono (Nat.le_refl p) (Nat.le_succ p)
    obtain ⟨m₁, hfeed, htold⟩ := feed_listen acc turns hq hm hw' hch hr
    have hfits := feed_fits ch hq (rank_lt_turns _) hm hw'
    rw [hfeed] at hfits
    obtain ⟨m', hall, htold'⟩ := ih _ hfits.1 hfits.2.1 hfits.2.2 hrest hr'
    refine ⟨m', ?_, ?_⟩
    · rw [feedAll, hfeed]
      exact hall
    · rw [List.length_cons, ← Nat.add_assoc, Nat.add_right_comm, htold', htold, join_append]

/-! ## What parts say -/

/-- Bytes lead from one parser to another, and say something. -/
def Core.Says (q : Core) (bytes : List UInt8) (q' : Core) (heard : List Heard) : Prop :=
  ∃ hs, q.listenAll bytes = some (q', hs) ∧ ∀ acc, join acc hs = join acc heard

theorem listenAll_cons {rest : List UInt8} (h : Core.listen ch turns q = some (q₁, hs))
    (h' : q₁.listenAll rest = some (q', hs')) :
    q.listenAll (ch :: rest) = some (q', hs ++ hs') := by
  rw [Core.listenAll, h]
  simp only [Option.bind_eq_bind, Option.bind_some, h']

theorem listenAll_append {xs ys : List UInt8} (h : q.listenAll xs = some (q₁, hs))
    (h' : q₁.listenAll ys = some (q', hs')) :
    q.listenAll (xs ++ ys) = some (q', hs ++ hs') := by
  induction xs generalizing q hs with
  | nil =>
    simp only [Core.listenAll, Option.some.injEq, Prod.mk.injEq] at h
    obtain ⟨rfl, rfl⟩ := h
    exact h'
  | cons ch xs ih =>
    obtain ⟨r, hr, h⟩ := Option.bind_eq_some_iff.mp h
    obtain ⟨r', hr', h⟩ := Option.bind_eq_some_iff.mp h
    simp only [Option.some.injEq, Prod.mk.injEq] at h
    obtain ⟨rfl, rfl⟩ := h
    rw [List.cons_append, List.append_assoc]
    exact listenAll_cons hr (ih hr')

theorem Core.Says.append {xs ys : List UInt8} {h₁ h₂ : List Heard} (h : q.Says xs q₁ h₁) (h' : q₁.Says ys q' h₂) :
    q.Says (xs ++ ys) q' (h₁ ++ h₂) := by
  obtain ⟨hs, hx, hjoin⟩ := h
  obtain ⟨hs', hy, hjoin'⟩ := h'
  exact ⟨hs ++ hs', listenAll_append hx hy, fun acc => by rw [join_append, join_append, hjoin, hjoin']⟩

theorem says_of_listenAll {bytes : List UInt8} (h : q.listenAll bytes = some (q', hs)) : q.Says bytes q' hs :=
  ⟨hs, h, fun _ => rfl⟩

/-- A byte of a text. -/
theorem listen_next {d : Datum} (h : byteTurn q ch = .next q' []) (hd : q.state.opened = .set d) :
    Core.listen ch turns q = some (q', [.text d [ch]]) := by
  rw [turns, Core.listen, h, hd]
  rfl

/-- A text whose first byte sets its mark: by induction on the other bytes, each of which leads from what holds to
what holds. The first byte may say what is owed before it. -/
theorem says_text (owed : List Heard) {d : Datum} {rest : List UInt8} {I : List UInt8 → Core → Prop}
    (hfirst : Core.listen ch turns q = some (q₁, owed ++ [.text d [], .text d [ch]])) (hI : I [ch] q₁)
    (hstep : ∀ done q c, I done q → c ∈ rest →
      ∃ q', Core.listen c turns q = some (q', [.text d [c]]) ∧ I (done ++ [c]) q') :
    ∃ q', q.Says (ch :: rest) q' (owed ++ [.text d (ch :: rest)]) ∧ I (ch :: rest) q' := by
  have hloop : ∀ (rest done : List UInt8) (q : Core), I done q →
      (∀ done q c, I done q → c ∈ rest → ∃ q', Core.listen c turns q = some (q', [.text d [c]]) ∧ I (done ++ [c]) q') →
      ∃ q' hs, q.listenAll rest = some (q', hs) ∧ I (done ++ rest) q' ∧
        ∀ acc xs, join (push acc (.text d xs)) hs = push acc (.text d (xs ++ rest)) := by
    intro rest
    induction rest with
    | nil => exact fun done q hI _ =>
        ⟨q, [], rfl, by rwa [List.append_nil], fun acc xs => by rw [join_nil, List.append_nil]⟩
    | cons c rest ih =>
      intro done q hI hstep
      obtain ⟨q₁, hc, hI₁⟩ := hstep done q c hI List.mem_cons_self
      obtain ⟨q', hs, hrest, hI', hjoin⟩ :=
        ih (done ++ [c]) q₁ hI₁ fun done q c' hI hc' => hstep done q c' hI (List.mem_cons_of_mem c hc')
      refine ⟨q', _, listenAll_cons hc hrest, by rwa [List.append_assoc] at hI', fun acc xs => ?_⟩
      rw [List.singleton_append, join_cons, push_push, hjoin, List.append_assoc, List.singleton_append]
  obtain ⟨q', hs, hrest, hI', hjoin⟩ := hloop rest [ch] q₁ hI hstep
  refine ⟨q', ⟨_, listenAll_cons hfirst hrest, fun acc => ?_⟩, hI'⟩
  rw [List.append_assoc, List.cons_append, List.singleton_append, join_append, join_append, join_cons, join_cons,
    push_push, hjoin]
  rfl

end Listen

/-! ## The parts of a request -/

/-- The names that the parser acts on. -/
def actedOn : List (List UInt8) :=
  [lit "connection", lit "proxy-connection", lit "content-length", lit "transfer-encoding", lit "upgrade"]

/-- A header that the parser does not act on. -/
structure Field where
  name : List UInt8
  value : List UInt8
  name_ne : name ≠ []
  name_token : ∀ ch ∈ name, token ch ≠ 0
  name_plain : name.map token ∉ actedOn
  value_line : ∀ ch ∈ value, ch ≠ cr ∧ ch ≠ lf
  value_start : ∀ ch, value.head? = some ch → ch ≠ ' '.toUInt8 ∧ ch ≠ 9

/-- A request for a path, without a body. -/
structure Request where
  method : Method
  url : List UInt8
  fields : List Field
  not_connect : method ≠ .connect
  url_start : url.head? = some '/'.toUInt8
  url_chars : ∀ ch ∈ url, isUrlChar ch = true ∨ ch = '?'.toUInt8 ∨ ch = '#'.toUInt8

/-- The line of a header. -/
def Field.wire (f : Field) : List UInt8 := f.name ++ lit ": " ++ f.value ++ lit "\x0d\n"

/-- What is said of a header. -/
def Field.said (f : Field) : List Heard := [.text .headerField f.name, .text .headerValue f.value]

/-- What a client sends. -/
def Request.wire (r : Request) : List UInt8 :=
  r.method.string ++ lit " " ++ r.url ++ lit " HTTP/1.1\x0d\n" ++ r.fields.flatMap Field.wire ++ lit "\x0d\n"

/-- What is said of a request. -/
def Request.said (r : Request) : List Heard :=
  [.note .messageBegin, .text .url r.url] ++ r.fields.flatMap Field.said ++
    [.note .headersComplete, .note .messageComplete]

/-- The parser in a state. -/
def Core.inState (q : Core) (s : State) (h : HeaderState) (i : UInt8) : Core :=
  { q with state := s, headerState := h, index := i }

/-- The parser that has read a method. -/
def Core.ofMethod (q : Core) (m : Method) : Core := { q with flags := {}, contentLength := ullongMax, method := m }

/-- The parser that has read a request line. -/
def Core.ofLine (q : Core) (m : Method) : Core := { q.ofMethod m with httpMajor := 1, httpMinor := 1 }

/-! ### The request line -/

section Line

variable (q : Core) (m : Method) (h : HeaderState) (i : UInt8)

theorem listenAll_method : (q.inState .startReq h i).listenAll (m.string ++ lit " ") =
    some ((q.ofMethod m).inState .reqSpacesBeforeUrl h (UInt8.ofNat (m.string.length + 1)), [.note .messageBegin]) := by
  cases m <;> rfl

/-- The states of a path and what comes after it. -/
def State.ofPath : State → Bool
  | .reqPath | .reqQueryStringStart | .reqQueryString | .reqFragmentStart | .reqFragment => true
  | _ => false

theorem opened_of_ofPath {s : State} (hs : s.ofPath = true) : s.opened = .set .url := by
  cases s <;> first | rfl | cases hs

theorem parseUrlChar_ofPath {s : State} {ch : UInt8} (hs : s.ofPath = true)
    (h : isUrlChar ch = true ∨ ch = '?'.toUInt8 ∨ ch = '#'.toUInt8) :
    (ch ≠ ' '.toUInt8 ∧ ch ≠ cr ∧ ch ≠ lf) ∧ (parseUrlChar s ch).ofPath = true := by
  have hch : ∀ c, isUrlChar c = false ∧ c ≠ '?'.toUInt8 ∧ c ≠ '#'.toUInt8 → ch ≠ c := by
    rintro c ⟨h₁, h₂, h₃⟩ rfl
    rcases h with h | h | h
    · rw [h] at h₁
      cases h₁
    · exact h₂ h
    · exact h₃ h
  have hsp := hch ' '.toUInt8 (by decide)
  have hcr := hch cr (by decide)
  have hlf := hch lf (by decide)
  have htab := hch 9 (by decide)
  have hff := hch 12 (by decide)
  refine ⟨⟨hsp, hcr, hlf⟩, ?_⟩
  unfold parseUrlChar
  rw [if_neg (by simp [hsp, hcr, hlf]), if_neg (by simp [htab, hff])]
  cases s
  case reqPath | reqQueryStringStart | reqQueryString | reqFragmentStart | reqFragment =>
    simp only
    split_ifs <;> first | rfl | (rcases h with h | h | h <;> simp_all)
  all_goals cases hs

/-- A byte of the URL. -/
theorem listen_url {s : State} {ch : UInt8} (hs : s.ofPath = true)
    (hch : isUrlChar ch = true ∨ ch = '?'.toUInt8 ∨ ch = '#'.toUInt8) :
    Core.listen ch turns ((q.ofMethod m).inState s h i) =
      some ((q.ofMethod m).inState (parseUrlChar s ch) h i, [.text .url [ch]]) := by
  obtain ⟨⟨hsp, hcr, hlf⟩, hs'⟩ := parseUrlChar_ofPath hs hch
  have hdead : parseUrlChar s ch ≠ .dead := by
    intro h
    rw [h] at hs'
    cases hs'
  have hturn : byteTurn ((q.ofMethod m).inState s h i) ch =
      .next ((q.ofMethod m).inState (parseUrlChar s ch) h i) [] := by
    cases s
    case reqPath | reqQueryStringStart | reqQueryString | reqFragmentStart | reqFragment =>
      exact (if_neg hsp).trans ((if_neg (not_or.mpr ⟨hcr, hlf⟩)).trans (if_neg hdead))
    all_goals cases hs
  exact listen_next hturn (opened_of_ofPath hs)

theorem says_url {url : List UInt8} (hstart : url.head? = some '/'.toUInt8)
    (hchars : ∀ ch ∈ url, isUrlChar ch = true ∨ ch = '?'.toUInt8 ∨ ch = '#'.toUInt8) :
    ∃ s, s.ofPath = true ∧
      ((q.ofMethod m).inState .reqSpacesBeforeUrl h i).Says url ((q.ofMethod m).inState s h i) [.text .url url] := by
  obtain ⟨rest, rfl⟩ : ∃ rest, url = '/'.toUInt8 :: rest := by
    cases url with
    | nil => cases hstart
    | cons c rest => exact ⟨rest, by rw [Option.some.inj hstart]⟩
  have hfirst : Core.listen '/'.toUInt8 turns ((q.ofMethod m).inState .reqSpacesBeforeUrl h i) =
      some ((q.ofMethod m).inState .reqPath h i, [.text .url [], .text .url ['/'.toUInt8]]) := by
    cases m <;> rfl
  obtain ⟨q', hsaid, s, hs, rfl⟩ := says_text []
    (I := fun _ q' => ∃ s, s.ofPath = true ∧ q' = (q.ofMethod m).inState s h i) hfirst
    ⟨.reqPath, rfl, rfl⟩ fun _ _ c hI hc => by
      obtain ⟨s, hs, rfl⟩ := hI
      have hc' := hchars c (List.mem_cons_of_mem _ hc)
      exact ⟨_, listen_url q m h i hs hc', _, (parseUrlChar_ofPath hs hc').2, rfl⟩
  exact ⟨s, hs, hsaid⟩

theorem listenAll_version {s : State} (hs : s.ofPath = true) :
    ((q.ofMethod m).inState s h i).listenAll (lit " HTTP/1.1\x0d\n") =
      some ((q.ofLine m).inState .headerFieldStart h i, []) := by
  cases s
  case reqPath | reqQueryStringStart | reqQueryString | reqFragmentStart | reqFragment => rfl
  all_goals cases hs

end Line

/-! ### Headers -/

/-- What has been read of a name, in lower case, in the state of its match. -/
def HeaderState.spells (h : HeaderState) (n : List UInt8) : Prop :=
  match h with
  | .general => True
  | .c => n = lit "c"
  | .co => n = lit "co"
  | .con => n = lit "con"
  | .matchingConnection => n <+: lit "connection"
  | .matchingProxyConnection => n <+: lit "proxy-connection"
  | .matchingContentLength => n <+: lit "content-length"
  | .matchingTransferEncoding => n <+: lit "transfer-encoding"
  | .matchingUpgrade => n <+: lit "upgrade"
  | .connection => n = lit "connection" ∨ n = lit "proxy-connection"
  | .contentLength => n = lit "content-length"
  | .transferEncoding => n = lit "transfer-encoding"
  | .upgrade => n = lit "upgrade"
  | _ => False

/-- The parser in a name. -/
def Core.InName (q : Core) (n : List UInt8) (q' : Core) : Prop :=
  ∃ h i, q' = q.inState .headerField h i ∧ h.spells n ∧ (h ≠ .general → i.toNat + 1 = n.length)

/-- The parser where a header may begin, and what is yet to be said of the one before: an empty value is said at the
byte behind its line. -/
inductive Core.AtLine (q : Core) : Core → List Heard → Prop
  | start (h i) : q.AtLine (q.inState .headerFieldStart h i) []
  | behind (i) : q.AtLine (q.inState .headerValueLws .general i) []
  | empty {h n} (i) (hspells : h.spells n) : q.AtLine (q.inState .headerValueDiscardLws h i) [.text .headerValue []]

section Headers

variable {q q' : Core} {h : HeaderState} {i : UInt8} {n : List UInt8} {ch : UInt8} {owed : List Heard}

theorem toNat_succ {k : Nat} (hi : i.toNat + 1 = k) (hk : k < 256) : (i + 1).toNat = k := by
  rw [UInt8.toNat_add, show (1 : UInt8).toNat = 1 from rfl, hi]
  exact Nat.mod_eq_of_lt hk

/-- A letter of a word leads further into it, to its end, or nowhere. -/
theorem matchWord_spells {word : List UInt8} {c : UInt8} (matched : HeaderState) (hn : n <+: word)
    (hi : i.toNat + 1 = n.length) (hword : word.length < 255) (hc : c ≠ 0) :
    ∃ h', (q.inState .headerField h i).matchWord word c matched .general = q.inState .headerField h' (i + 1) ∧
      (i + 1).toNat + 1 = (n ++ [c]).length ∧
        (h' = .general ∨ h' = matched ∧ n ++ [c] = word ∨ h' = h ∧ n ++ [c] <+: word) := by
  have hle := hn.length_le
  have hsucc : (i + 1).toNat = n.length := toNat_succ hi (by omega)
  have hlen : (i + 1).toNat + 1 = (n ++ [c]).length := by rw [hsucc, List.length_append, List.length_singleton]
  by_cases hmiss : word.length < (i + 1).toNat ∨ c ≠ word.getD (i + 1).toNat 0
  · exact ⟨.general, by unfold Core.matchWord; exact if_pos hmiss, hlen, Or.inl rfl⟩
  have hget := not_not.mp (not_or.mp hmiss).2
  have hpre : n ++ [c] <+: word := by
    obtain ⟨t, rfl⟩ := hn
    rw [hsucc, List.getD_eq_getElem?_getD, List.getElem?_append_right (Nat.le_refl _), Nat.sub_self] at hget
    cases t with
    | nil => exact absurd hget hc
    | cons x t =>
      obtain rfl : c = x := hget
      exact ⟨t, by rw [List.append_assoc, List.singleton_append]⟩
  by_cases hlast : (i + 1).toNat = word.length - 1
  · refine ⟨matched, by unfold Core.matchWord; exact (if_neg hmiss).trans (if_pos hlast), hlen,
      Or.inr (Or.inl ⟨rfl, ?_⟩)⟩
    have hple := hpre.length_le
    exact hpre.eq_of_length (by omega)
  · exact ⟨h, by unfold Core.matchWord; exact (if_neg hmiss).trans (if_neg hlast), hlen, Or.inr (Or.inr ⟨rfl, hpre⟩)⟩

/-- A letter of a name. -/
theorem inName_letter (hq : q.InName n q') (hch : token ch ≠ 0) :
    ∃ q₁, Core.listen ch turns q' = some (q₁, [.text .headerField [ch]]) ∧ q.InName (n ++ [token ch]) q₁ := by
  obtain ⟨h, i, rfl, hspells, hi⟩ := hq
  suffices hletter : ∃ q₁, (q.inState .headerField h i).headerFieldLetter ch = .next q₁ [] ∧
      q.InName (n ++ [token ch]) q₁ by
    obtain ⟨q₁, heq, hin⟩ := hletter
    exact ⟨q₁, listen_next ((if_pos hch).trans heq) rfl, hin⟩
  have hgeneral : ∀ i, q.InName (n ++ [token ch]) (q.inState .headerField .general i) :=
    fun i => ⟨_, i, rfl, trivial, fun h => absurd rfl h⟩
  have hword : ∀ word matched, word.length < 255 → n <+: word → i.toNat + 1 = n.length →
      (n ++ [token ch] = word → matched.spells (n ++ [token ch])) →
      (n ++ [token ch] <+: word → h.spells (n ++ [token ch])) →
      q.InName (n ++ [token ch]) ((q.inState .headerField h i).matchWord word (token ch) matched .general) := by
    intro word matched hlen hn hi hm hh
    obtain ⟨h', heq, hlen', hcases⟩ := matchWord_spells (q := q) (h := h) matched hn hi hlen hch
    rw [heq]
    refine ⟨h', _, rfl, ?_, fun _ => hlen'⟩
    rcases hcases with rfl | ⟨rfl, hw⟩ | ⟨rfl, hw⟩
    · trivial
    · exact hm hw
    · exact hh hw
  have hnext : ∀ h' c, h ≠ .general → n.length < 255 → token ch = c → h'.spells (n ++ [c]) →
      q.InName (n ++ [token ch]) (q.inState .headerField h' (i + 1)) := by
    intro h' c hne hlen hc hs
    refine ⟨h', i + 1, rfl, hc ▸ hs, fun _ => ?_⟩
    rw [List.length_append, List.length_singleton, toNat_succ (hi hne) (by omega)]
  have hsp : ch ≠ ' '.toUInt8 := by
    rintro rfl
    exact hch (by decide)
  unfold Core.headerFieldLetter
  cases h
  case general => exact ⟨_, rfl, hgeneral i⟩
  case c =>
    obtain rfl : n = lit "c" := hspells
    refine ⟨_, rfl, ?_⟩
    by_cases ho : token ch = 'o'.toUInt8
    · simp only [if_pos ho]
      exact hnext .co _ (by decide) (by decide) ho rfl
    · simp only [if_neg ho]
      exact hgeneral (i + 1)
  case co =>
    obtain rfl : n = lit "co" := hspells
    refine ⟨_, rfl, ?_⟩
    by_cases hn : token ch = 'n'.toUInt8
    · simp only [if_pos hn]
      exact hnext .con _ (by decide) (by decide) hn rfl
    · simp only [if_neg hn]
      exact hgeneral (i + 1)
  case con =>
    obtain rfl : n = lit "con" := hspells
    refine ⟨_, rfl, ?_⟩
    by_cases hn : token ch = 'n'.toUInt8
    · simp only [if_pos hn]
      exact hnext .matchingConnection _ (by decide) (by decide) hn ⟨lit "ection", rfl⟩
    by_cases ht : token ch = 't'.toUInt8
    · simp only [if_neg hn, if_pos ht]
      exact hnext .matchingContentLength _ (by decide) (by decide) ht ⟨lit "ent-length", rfl⟩
    · simp only [if_neg hn, if_neg ht]
      exact hgeneral (i + 1)
  case matchingConnection => exact ⟨_, rfl, hword _ _ (by decide) hspells (hi (by decide)) Or.inl id⟩
  case matchingProxyConnection => exact ⟨_, rfl, hword _ _ (by decide) hspells (hi (by decide)) Or.inr id⟩
  case matchingContentLength | matchingTransferEncoding | matchingUpgrade =>
    exact ⟨_, rfl, hword _ _ (by decide) hspells (hi (by decide)) id id⟩
  case connection | contentLength | transferEncoding | upgrade =>
    refine ⟨_, rfl, ?_⟩
    rw [if_pos hsp]
    exact hgeneral i
  all_goals exact hspells.elim

/-- The byte behind the line of an empty value. -/
theorem byteTurn_empty (hspells : h.spells n) :
    byteTurn (q.inState .headerValueDiscardLws h i) ch =
      if ch = ' '.toUInt8 ∨ ch = 9 then .next (q.inState .headerValueDiscardWs h i) []
      else .again (q.inState .headerFieldStart h i) [.mark .headerValue, .data .headerValue] := by
  cases h
  case general | c | co | con | matchingConnection | matchingProxyConnection | matchingContentLength
      | matchingTransferEncoding
    | matchingUpgrade | connection | contentLength | transferEncoding | upgrade => rfl
  all_goals exact hspells.elim

/-- The first letter of a name. -/
theorem atLine_letter (hq : q.AtLine q' owed) (hch : token ch ≠ 0) :
    ∃ q₁, Core.listen ch turns q' = some (q₁, owed ++ [.text .headerField [], .text .headerField [ch]]) ∧
      q.InName [token ch] q₁ := by
  have hne : ∀ c, token c = 0 → ch ≠ c := by
    rintro c hc rfl
    exact hch hc
  have hcr := hne cr (by decide)
  have hlf := hne lf (by decide)
  obtain ⟨h, hfirst, hspells⟩ : ∃ h, (∀ h' i fuel, Core.listen ch (fuel + 1) (q.inState .headerFieldStart h' i) =
      some (q.inState .headerField h 0, [.text .headerField [], .text .headerField [ch]])) ∧ h.spells [token ch] := by
    refine ⟨if token ch = 'c'.toUInt8 then .c
            else if token ch = 'p'.toUInt8 then .matchingProxyConnection
            else if token ch = 't'.toUInt8 then .matchingTransferEncoding
            else if token ch = 'u'.toUInt8 then .matchingUpgrade
            else .general, fun h' i fuel => ?_, ?_⟩
    · have hturn : byteTurn (q.inState .headerFieldStart h' i) ch =
          .next (q.inState .headerField _ 0) [.mark .headerField] :=
        (if_neg hcr).trans ((if_neg hlf).trans (if_neg hch))
      rw [Core.listen, hturn]
      rfl
    · split_ifs with hc hp ht hu
      · rw [hc]
        rfl
      · rw [hp]
        exact ⟨lit "roxy-connection", rfl⟩
      · rw [ht]
        exact ⟨lit "ransfer-encoding", rfl⟩
      · rw [hu]
        exact ⟨lit "pgrade", rfl⟩
      · trivial
  refine ⟨_, ?_, h, 0, rfl, hspells, fun _ => rfl⟩
  cases hq with
  | start h' i => exact hfirst h' i 3
  | behind i =>
    -- the byte is looked at again, at the start of a header
    have hturn : byteTurn (q.inState .headerValueLws .general i) ch =
        .again (q.inState .headerFieldStart .general i) [] :=
      if_neg (not_or.mpr ⟨hne _ (by decide), hne _ (by decide)⟩)
    rw [turns, Core.listen, hturn]
    simp only [hfirst]
    rfl
  | empty i hspells =>
    have hturn := (byteTurn_empty (q := q) (i := i) hspells).trans
      (if_neg (not_or.mpr ⟨hne _ (by decide), hne _ (by decide)⟩))
    rw [turns, Core.listen, hturn]
    simp only [hfirst]
    rfl

/-- The first byte of the value of a header that the parser does not act on. -/
theorem inName_value (hspells : h.spells n) (hn : n ∉ actedOn) (hws : ch ≠ ' '.toUInt8 ∧ ch ≠ 9)
    (hline : ch ≠ cr ∧ ch ≠ lf) :
    Core.listen ch turns (q.inState .headerValueDiscardWs h i) =
      some (q.inState .headerValue .general 0, [.text .headerValue [], .text .headerValue [ch]]) := by
  have hturn : byteTurn (q.inState .headerValueDiscardWs h i) ch =
      valueStart (q.inState .headerValueDiscardWs h i) ch :=
    (if_neg (not_or.mpr hws)).trans ((if_neg hline.1).trans (if_neg hline.2))
  have hacted : ∀ w, w ∈ actedOn → n ≠ w := by
    rintro w hw rfl
    exact hn hw
  have hstart : valueStart (q.inState .headerValueDiscardWs h i) ch =
      .next (q.inState .headerValue .general 0) [.mark .headerValue] := by
    cases h
    case general | c | co | con | matchingConnection | matchingProxyConnection | matchingContentLength
        | matchingTransferEncoding
      | matchingUpgrade => rfl
    case connection => exact (hspells.elim (hacted _ (by decide)) (hacted _ (by decide))).elim
    case contentLength | transferEncoding | upgrade => exact (hacted _ (by decide) hspells).elim
    all_goals exact hspells.elim
  rw [turns, Core.listen, hturn, hstart]
  rfl

/-- The empty line behind the headers. -/
theorem atLine_cr (hq : q.AtLine q' owed) :
    ∃ h i, Core.listen cr turns q' = some (q.inState .headersAlmostDone h i, owed) := by
  cases hq with
  | start h i => exact ⟨h, i, rfl⟩
  | behind i => exact ⟨.general, i, rfl⟩
  | @empty h n i hspells =>
    have hturn := (byteTurn_empty (q := q) (i := i) hspells).trans (if_neg (by decide : ¬(cr = ' '.toUInt8 ∨ cr = 9)))
    refine ⟨h, i, ?_⟩
    rw [turns, Core.listen, hturn]
    rfl

/-- The value of a header, and the end of its line. -/
theorem says_value (f : Field) (hspells : h.spells (f.name.map token)) :
    ∃ q₁ owed heard, (q.inState .headerValueDiscardWs h i).Says (f.value ++ lit "\x0d\n") q₁ heard ∧ q.AtLine q₁ owed ∧
      heard ++ owed = [.text .headerValue f.value] := by
  have hline := f.value_line
  have hwhite := f.value_start
  cases hvalue : f.value with
  | nil =>
    have hend : (q.inState .headerValueDiscardWs h i).listenAll (lit "\x0d\n") =
      some (q.inState .headerValueDiscardLws h i, []) := rfl
    exact ⟨_, _, _, says_of_listenAll hend, .empty i hspells, rfl⟩
  | cons v value =>
    rw [hvalue] at hline hwhite
    have hstart := inName_value (q := q) (i := i) hspells f.name_plain (hwhite v rfl) (hline v List.mem_cons_self)
    obtain ⟨q₁, hsaid, rfl⟩ := says_text []
        (I := fun _ q' => q' = q.inState .headerValue .general 0) hstart rfl fun _ q' c hI hc => by
      obtain rfl := hI
      obtain ⟨hcr, hlf⟩ := hline c (List.mem_cons_of_mem _ hc)
      exact ⟨_, listen_next ((if_neg hcr).trans (if_neg hlf)) rfl, rfl⟩
    have hend : (q.inState .headerValue .general 0).listenAll (lit "\x0d\n") =
      some (q.inState .headerValueLws .general 0, []) := rfl
    exact ⟨_, _, _, hsaid.append (says_of_listenAll hend), .behind 0, rfl⟩

/-- A header: what was owed before it is said, and an empty value of its own is owed. -/
theorem says_field (f : Field) (hq : q.AtLine q' owed) :
    ∃ q₁ owed₁ heard, q'.Says f.wire q₁ heard ∧ q.AtLine q₁ owed₁ ∧ heard ++ owed₁ = owed ++ f.said := by
  obtain ⟨c, name, hname⟩ := List.exists_cons_of_ne_nil f.name_ne
  have htok : ∀ ch ∈ c :: name, token ch ≠ 0 := hname ▸ f.name_token
  obtain ⟨q₁, hfirst, hin⟩ := atLine_letter hq (htok c List.mem_cons_self)
  obtain ⟨q₂, hsaid, h, i, rfl, hspells, -⟩ := says_text owed
    (I := fun done q' => q.InName (done.map token) q') hfirst hin fun done q' c hI hc => by
      obtain ⟨q₁, hlisten, hin⟩ := inName_letter hI (htok c (List.mem_cons_of_mem _ hc))
      exact ⟨q₁, hlisten, by rwa [List.map_append]⟩
  have hcolon : (q.inState .headerField h i).listenAll (lit ": ") = some (q.inState .headerValueDiscardWs h i, []) :=
    rfl
  rw [← hname] at hsaid hspells
  obtain ⟨q₃, owed₃, heard, hvalue, hline, heq⟩ := says_value (q := q) (i := i) f hspells
  refine ⟨q₃, owed₃, owed ++ [.text .headerField f.name] ++ [] ++ heard, ?_, hline, ?_⟩
  · rw [Field.wire, List.append_assoc _ f.value]
    exact (hsaid.append (says_of_listenAll hcolon)).append hvalue
  · rw [List.append_nil, List.append_assoc, List.append_assoc, heq]
    rfl

/-- Headers. -/
theorem says_fields (fields : List Field) (hq : q.AtLine q' owed) :
    ∃ q₁ owed₁ heard, q'.Says (fields.flatMap Field.wire) q₁ heard ∧ q.AtLine q₁ owed₁ ∧
      heard ++ owed₁ = owed ++ fields.flatMap Field.said := by
  induction fields generalizing q' owed with
  | nil => exact ⟨q', owed, [], says_of_listenAll rfl, hq, by simp⟩
  | cons f fields ih =>
    obtain ⟨q₁, owed₁, heard₁, hsaid, hq₁, heq₁⟩ := says_field f hq
    obtain ⟨q₂, owed₂, heard₂, hsaid', hq₂, heq₂⟩ := ih hq₁
    refine ⟨q₂, owed₂, heard₁ ++ heard₂, hsaid.append hsaid', hq₂, ?_⟩
    rw [List.append_assoc, heq₂, ← List.append_assoc, heq₁, List.append_assoc]
    rfl

end Headers

/-- The parser between two requests. -/
def Core.Between (q : Core) : Prop := q.type = .request ∧ q.state = .startReq

/-- The end of the headers, where no body follows. -/
theorem listenAll_end {q q' : Core} {m : Method} {owed : List Heard} (hq : q.type = .request) (hm : m ≠ .connect)
    (hline : (q.ofLine m).AtLine q' owed) :
    ∃ q₁, q'.listenAll (lit "\x0d\n") = some (q₁, owed ++ [.note .headersComplete, .note .messageComplete]) ∧
      q₁.Between := by
  obtain ⟨h, i, hcr⟩ := atLine_cr hline
  obtain ⟨type, flags, state, headerState, index, contentLength, httpMajor, httpMinor, statusCode, method, upgrade⟩ := q
  obtain rfl : type = .request := hq
  cases m
  case connect => exact absurd rfl hm
  all_goals exact ⟨_, listenAll_cons hcr rfl, rfl, rfl⟩

/-! ## Requests are read as they were written -/

theorem says_request (r : Request) {q : Core} (hq : q.Between) : ∃ q', q.Says r.wire q' r.said ∧ q'.Between := by
  have hstart : q.inState .startReq q.headerState q.index = q := by rw [← hq.2]; rfl
  have hmethod := says_of_listenAll (listenAll_method q r.method q.headerState q.index)
  rw [hstart] at hmethod
  obtain ⟨s, hs, hurl⟩ := says_url q r.method q.headerState
    (UInt8.ofNat (r.method.string.length + 1)) r.url_start r.url_chars
  have hversion := says_of_listenAll (listenAll_version q r.method q.headerState
    (UInt8.ofNat (r.method.string.length + 1)) hs)
  obtain ⟨q₁, owed, heard, hfields, hq₁, heq⟩ := says_fields (q := q.ofLine r.method) r.fields (.start q.headerState _)
  obtain ⟨q₂, hend, hq₂⟩ := listenAll_end hq.1 r.not_connect hq₁
  have hsaid := (((hmethod.append hurl).append hversion).append hfields).append (says_of_listenAll hend)
  have hall : [.note .messageBegin] ++ [.text .url r.url] ++ [] ++ heard ++
      (owed ++ [.note .headersComplete, .note .messageComplete]) = r.said := by
    rw [← List.append_assoc, List.append_assoc _ heard, heq]
    simp [Request.said]
  exact ⟨q₂, hall ▸ hsaid, hq₂⟩

theorem says_requests (rs : List Request) {q : Core} (hq : q.Between) :
    ∃ q', q.Says (rs.flatMap Request.wire) q' (rs.flatMap Request.said) ∧ q'.Between := by
  induction rs generalizing q with
  | nil => exact ⟨q, says_of_listenAll rfl, hq⟩
  | cons r rs ih =>
    obtain ⟨q₁, hsaid, hq₁⟩ := says_request r hq
    obtain ⟨q', hsaid', hq'⟩ := ih hq₁
    exact ⟨q', hsaid.append hsaid', hq'⟩

theorem join_fields (fields : List Field) {acc : List Heard} (h : ¬Pieces.Ends .headerField acc) :
    join acc (fields.flatMap Field.said) = (fields.flatMap Field.said).reverse ++ acc := by
  induction fields generalizing acc with
  | nil => rfl
  | cons f fields ih =>
    have hvalue : ¬Pieces.Ends Datum.headerValue (.text .headerField f.name :: acc) := by
      rintro ⟨t, rest, ht⟩
      cases ht
    have hnext : ¬Pieces.Ends Datum.headerField (.text .headerValue f.value :: .text .headerField f.name :: acc) := by
      rintro ⟨t, rest, ht⟩
      cases ht
    rw [List.flatMap_cons, join_append, Field.said, join_cons, join_cons, join_nil, push_of_not_ends h,
      push_of_not_ends hvalue, ih hnext]
    simp

/-- No text of a request comes right after one of its kind. -/
theorem join_said (r : Request) (acc : List Heard) : join acc r.said = r.said.reverse ++ acc := by
  have hurl : ¬Pieces.Ends Datum.headerField (.text .url r.url :: .note .messageBegin :: acc) := by
    rintro ⟨t, rest, ht⟩
    cases ht
  have hstart : join acc [.note .messageBegin, .text .url r.url] = .text .url r.url :: .note .messageBegin :: acc := rfl
  rw [Request.said, join_append, join_append, hstart, join_fields r.fields hurl]
  simp [push]

theorem joined_said (rs : List Request) : joined (rs.flatMap Request.said) = rs.flatMap Request.said := by
  have hjoin : ∀ acc, join acc (rs.flatMap Request.said) = (rs.flatMap Request.said).reverse ++ acc := by
    intro acc
    induction rs generalizing acc with
    | nil => rfl
    | cons r rs ih => rw [List.flatMap_cons, join_append, join_said, ih, List.reverse_append, List.append_assoc]
  rw [joined, hjoin, List.append_nil, List.reverse_reverse]

/-- The calls of a connection on which requests come in, where the headers are not too long. -/
theorem receive_requests (rs : List Request) {segments : List (List UInt8)} {s : Received}
    (hne : ∀ bytes ∈ segments, bytes ≠ [])
    (hwire : segments.flatten = rs.flatMap Request.wire) (hlen : segments.flatten.length ≤ 2 ^ 31)
    (hs : receive (httpParserInit .request) segments = some s) (hover : s.parser.errno ≠ .headerOverflow) :
    s.parser.errno = .ok ∧ s.parser.core.Between ∧ s.read = segments.flatten.length ∧
      joined s.heard = rs.flatMap Request.said := by
  have hready := httpParserInit_ready .request
  obtain ⟨q, ⟨heard, hlisten, hjoin⟩, hq⟩ := says_requests rs (q := (httpParserInit .request).core) ⟨rfl, rfl⟩
  rw [← hwire] at hlisten
  have hnone : ∀ d, (httpParserInit .request).core.state.startMark = some d → Pieces.Ends d ([] : List Heard) :=
    fun d hd => by cases hd
  have htold₀ := told_startMarks hnone segments.flatten
  have hprefix : segments.flatten <+: segments.flatten.drop 0 := List.prefix_refl _
  obtain ⟨m, hfeed, htold⟩ := feedAll_listen [] (hready rfl).1 (startMarks_fit _) (startMarks_within _) hprefix hlisten
  have hleaves := segments_follow hready rfl (startMarks_fit _) (startMarks_within _) htold₀ hnone
    (Nat.zero_le _) rfl hne hlen (fun k q m' hstop => by rw [hfeed] at hstop; cases hstop) hs hover
  rw [hfeed] at hleaves
  obtain ⟨rfl, hok, hread, hheard⟩ := hleaves
  refine ⟨hok, hq, hread, ?_⟩
  rw [Nat.zero_add, htold₀, hjoin] at htold
  rw [← joined_said, joined, hheard, htold]
  rfl

theorem init_overflow {type : ParserType} {segments : List (List UInt8)} {s : Received}
    (hlen : segments.flatten.length ≤ 2 ^ 31)
    (hs : receive (httpParserInit type) segments = some s) (hover : s.parser.errno = .headerOverflow) :
    httpMaxHeaderSize < 2 * segments.flatten.length := by
  have hne : (httpParserInit type).errno ≠ .headerOverflow := fun h => by cases h
  have hmax := receive_overflow (httpParserInit_ready type) hne hlen hs hover
  rwa [show (httpParserInit type).nread.toNat = 0 from rfl, Nat.zero_add] at hmax

/-- However the bytes of requests in a row are cut, the parser reads them all, is ready for another request, and its
callbacks have said the requests as they were written, unless there are more bytes than `HTTP_MAX_HEADER_SIZE`
allows. -/
theorem requests_parsed (rs : List Request) {segments : List (List UInt8)} (hne : ∀ bytes ∈ segments, bytes ≠ [])
    (hwire : segments.flatten = rs.flatMap Request.wire) (hlen : segments.flatten.length ≤ 2 ^ 31) :
    ∃ s, receive (httpParserInit .request) segments = some s ∧
      (s.parser.errno = .headerOverflow ∧ httpMaxHeaderSize < 2 * segments.flatten.length ∨
        s.parser.errno = .ok ∧ s.parser.core.Between ∧ s.read = segments.flatten.length ∧
        joined s.heard = rs.flatMap Request.said) := by
  obtain ⟨s, hs, -⟩ := receive_returns (httpParserInit_ready .request) fun bytes hb =>
    (List.sublist_flatten_of_mem hb).length_le.trans hlen
  refine ⟨s, hs, ?_⟩
  by_cases hover : s.parser.errno = .headerOverflow
  · exact Or.inl ⟨hover, init_overflow hlen hs hover⟩
  · exact Or.inr (receive_requests rs hne hwire hlen hs hover)

theorem forall_of_all {xs : List UInt8} {P : UInt8 → Prop} [DecidablePred P]
    (h : xs.all (fun ch => decide (P ch)) = true) :
    ∀ ch ∈ xs, P ch :=
  fun ch hch => of_decide_eq_true (List.all_eq_true.mp h ch hch)

/-- `Host: h` -/
def hostField : Field where
  name := lit "Host"
  value := lit "h"
  name_ne := by decide
  name_token := forall_of_all rfl
  name_plain := by decide
  value_line := forall_of_all rfl
  value_start := by
    intro ch h
    rw [← Option.some.inj h]
    decide

/-- `Accept`, with nothing behind it. -/
def emptyField : Field where
  name := lit "Accept"
  value := []
  name_ne := by decide
  name_token := forall_of_all rfl
  name_plain := by decide
  value_line := forall_of_all rfl
  value_start := by
    intro ch h
    cases h

/-- `GET /a?b`, with two headers. -/
def getRequest : Request where
  method := .get
  url := lit "/a?b"
  fields := [hostField, emptyField]
  not_connect := by decide
  url_start := rfl
  url_chars := forall_of_all rfl

/-- Two requests, in three segments. -/
def twoGets : List (List UInt8) :=
  [lit "GET /a?b HT", lit "TP/1.1\x0d\nHost: h\x0d\nAccept: \x0d\n\x0d",
    lit "\nGET /a?b HTTP/1.1\x0d\nHost: h\x0d\nAccept: \x0d\n\x0d\n"]

theorem requests_parsed_two :
    ∃ s, receive (httpParserInit .request) twoGets = some s ∧ s.parser.core.Between ∧
      joined s.heard = getRequest.said ++ getRequest.said := by
  have hlen : twoGets.flatten.length = 80 := by decide +kernel
  obtain ⟨s, hs, ⟨-, hmax⟩ | ⟨-, hbetween, -, hheard⟩⟩ := requests_parsed [getRequest, getRequest] (by decide +kernel)
    (by decide +kernel) (by decide +kernel : twoGets.flatten.length ≤ 2 ^ 31)
  · rw [hlen, show httpMaxHeaderSize = 81920 from rfl] at hmax
    omega
  · exact ⟨s, hs, hbetween, hheard⟩

end ZeroServ.Parser
