import ZeroServ.Lib.Pieces
import ZeroServ.Parser.Readahead

/-!
# A request in segments

`http_psub_read` hands the parser what `recv` gave, until that is nothing, or a call does not parse all of it
(`receive`). However the bytes are cut, the parser accepts the same ones, is left the same, and its callbacks have
said the same texts (`segments_agree`); and no assertion of it fails (`receive_returns`).
-/

namespace ZeroServ.Parser

open CString Pieces

/-- What a callback says. -/
abbrev Heard := Piece Note Datum UInt8

/-- What a callback says, for the bytes of its call. -/
def Call.heard (data : List UInt8) : Call → Heard
  | .notify n => .note n
  | .data d ofs len => .text d ((data.drop ofs).take len)

/-- A request in three segments. -/
def getSegments : List (List UInt8) := [lit "GET /a", lit "bc HTTP/1.1\x0d\nHo", lit "st: h\x0d\n\x0d\n"]

/-- What is left of a connection: the parser, what has been heard, and how many bytes were parsed. -/
structure Received where
  parser : HttpParser
  heard : List Heard
  read : Nat
  deriving DecidableEq, Repr

/-- The calls of `http_psub_read`, until it closes the connection. -/
def receive (parser : HttpParser) : List (List UInt8) → Option Received
  | [] => some ⟨parser, [], 0⟩
  | bytes :: segments =>
    if bytes = [] then some ⟨parser, [], 0⟩
    else do
      let r ← execute parser bytes
      let heard := r.calls.map (Call.heard bytes)
      -- after an upgrade the new protocol is read by the same parser, and what it did not parse is dropped
      if r.parser.core.upgrade = false ∧ r.returned ≠ bytes.length then some ⟨r.parser, heard, r.returned⟩
      else
        let s ← receive r.parser segments
        some ⟨s.parser, heard ++ s.heard, r.returned + s.read⟩

/-! ## What has been heard -/

/-- What would have been heard if the call ended at a place. -/
def Marks.told (m : Marks) (data : List UInt8) (p : Nat) : List Heard := (m.flush p).calls.map (Call.heard data)

theorem flush_of_none {m : Marks} (h : ∀ d, m.mark d = none) (p : Nat) : m.flush p = m := by
  simp only [Marks.flush, callback_of_none (h _)]

theorem flush_of_some {m : Marks} {d : Datum} {ofs : Nat} (hd : m.mark d = some ofs)
    (h : ∀ d', d' ≠ d → m.mark d' = none) (p : Nat) :
    (m.flush p).calls = m.calls ++ [.data d ofs (p - ofs)] := by
  have hnone := Marks.Fit.callback h p
  have hcalls : (m.callback d p).calls = m.calls ++ [.data d ofs (p - ofs)] := by rw [callback_of_some hd]
  have hother : ∀ d', d' ≠ d → m.callback d' p = m := fun d' hne => callback_of_none (h d' hne) p
  have hdone : ∀ d', (m.callback d p).callback d' p = m.callback d p := fun d' => callback_of_none (hnone d') p
  rw [← hcalls]
  cases d <;> simp only [Marks.flush, ne_eq, reduceCtorEq, not_false_eq_true, hother, hdone]

variable {data : List UInt8} {p : Nat} {m : Marks} {o o' : Opened} {acc : List Heard}

theorem told_of_none (h : ∀ d, m.mark d = none) : m.told data p = m.calls.map (Call.heard data) := by
  rw [Marks.told, flush_of_none h]

theorem told_of_some {d : Datum} {ofs : Nat} (hd : m.mark d = some ofs) (h : ∀ d', d' ≠ d → m.mark d' = none) :
    m.told data p = m.calls.map (Call.heard data) ++ [.text d ((data.drop ofs).take (p - ofs))] := by
  rw [Marks.told, flush_of_some hd h, List.map_append]
  rfl

/-- What a callback of an act says of a byte. -/
def Act.adds (ch : UInt8) : Act → List Heard
  | .mark d => [.text d []]
  | .dataWith d => [.text d [ch]]
  | .notify n => [.note n]
  | .data _ | .clear | .check => []

/-- What a byte adds to a text, when a turn is left. -/
def Opened.adds (ch : UInt8) : Opened → List Heard
  | .set d => [.text d [ch]]
  | .shut | .maybe => []

/-- The bytes behind a mark, and one more. -/
theorem take_next {ofs : Nat} (ho : ofs ≤ p) (hp : p < data.length) :
    (data.drop ofs).take (p + 1 - ofs) = (data.drop ofs).take (p - ofs) ++ [data.getD p 0] := by
  have hlt : p - ofs < (data.drop ofs).length := by
    rw [List.length_drop]
    omega
  have hget := getElem?_eq_getD hp
  have hsub : p + 1 - ofs = p - ofs + 1 := by omega
  rw [hsub, List.take_add_one, List.getElem?_drop, Nat.add_sub_cancel' ho, hget]
  rfl

/-- A callback says what is behind its mark. -/
theorem told_callback {d : Datum} {ofs : Nat} (hd : m.mark d = some ofs) (h : ∀ d', d' ≠ d → m.mark d' = none)
    (stop : Nat) :
    (m.callback d stop).told data p = m.calls.map (Call.heard data) ++
      [.text d ((data.drop ofs).take (stop - ofs))] := by
  rw [told_of_none (Marks.Fit.callback h stop), callback_of_some hd, List.map_append]
  rfl

/-- A mark that is set says nothing yet. -/
theorem told_mark {d : Datum} (h : ∀ d', d' ≠ d → m.mark d' = none) :
    join acc ((m.act p (.mark d)).told data p) = join (join acc (m.told data p)) [.text d []] := by
  by_cases hm : m.mark d = none
  · have hall : ∀ d', m.mark d' = none := fun d' => if hd : d' = d then hd ▸ hm else h d' hd
    have hact : m.act p (.mark d) = { m with mark := Function.update m.mark d (some p) } := if_pos hm
    have hset : (m.act p (.mark d)).mark d = some p := by simp [hact]
    have hother := (Marks.Fit.mark h p).2
    rw [told_of_none hall, told_of_some hset hother, Nat.sub_self, List.take_zero, hact, join_append]
  · obtain ⟨ofs, hd⟩ := Option.ne_none_iff_exists'.mp hm
    rw [act_mark_of_set hm, told_of_some hd h]
    simp

/-- What an act adds to what has been heard is in the byte alone. -/
theorem told_act {a : Act} (h : m.Fit o) (ha : a.moves o = some o') (hw : m.Within p (p + 1)) (hp : p < data.length) :
    join acc ((m.act p a).told data p) = join (join acc (m.told data p)) (a.adds (data.getD p 0)) := by
  unfold Act.moves at ha
  split at ha
  · exact told_mark fun d' _ => h d'
  · exact told_mark h
  · -- a body may have been told
    by_cases hm : m.mark .body = none
    · rw [Marks.act, callback_of_none hm]
      rfl
    · obtain ⟨ofs, hd⟩ := Option.ne_none_iff_exists'.mp hm
      rw [Marks.act, told_callback hd h, told_of_some hd h]
      rfl
  · split_ifs at ha with hdd
    subst hdd
    obtain ⟨ofs, hd⟩ := Option.ne_none_iff_exists'.mp h.1
    rw [Marks.act, told_callback hd h.2, told_of_some hd h.2]
    rfl
  · split_ifs at ha with hdd
    subst hdd
    obtain ⟨ofs, hd⟩ := Option.ne_none_iff_exists'.mp h.1
    rw [Marks.act, told_callback hd h.2, told_of_some hd h.2, take_next (hw.marks _ ofs hd) hp]
    simp [Act.adds]
  · rename_i n
    rw [told_of_none h, told_of_none (m := m.act p (.notify n)) h, Marks.act, List.map_append, join_append]
    rfl
  · rfl
  · rfl
  · cases ha

theorem told_acts {acts : List Act} (h : m.Fit o) (ha : acts.foldlM Act.moves o = some o') (hw : m.Within p (p + 1))
    (hp : p < data.length) :
    join acc ((m.acts p acts).told data p) =
      join (join acc (m.told data p)) (acts.flatMap (Act.adds (data.getD p 0))) := by
  induction acts generalizing m o with
  | nil => rfl
  | cons a acts ih =>
    rw [List.foldlM_cons] at ha
    obtain ⟨o₁, h₁, h₂⟩ := Option.bind_eq_some_iff.mp ha
    rw [Marks.acts, List.foldl_cons]
    rw [← Marks.acts, ih (h.act h₁ p) h₂ (hw.act a), told_act h h₁ hw hp, List.flatMap_cons, join_append]

/-- What a byte adds when it is passed. -/
theorem told_pass (h : m.Fit o) (ho : o ≠ .maybe) (hw : m.Within p (p + 1)) (hp : p < data.length) :
    join acc (m.told data (p + 1)) = join (join acc (m.told data p)) (o.adds (data.getD p 0)) := by
  cases o with
  | shut => rw [told_of_none h, told_of_none h, Opened.adds, join_nil]
  | maybe => exact absurd rfl ho
  | set d =>
    obtain ⟨ofs, hd⟩ := Option.ne_none_iff_exists'.mp h.1
    rw [told_of_some hd h.2, told_of_some hd h.2, take_next (hw.marks d ofs hd) hp]
    simp [Opened.adds]

/-! ## Two calls alike -/

/-- Two places in two calls, where the same has been heard. -/
structure Alike (data data' : List UInt8) (p p' n n' : Nat) (s : State) (m m' : Marks)
    (acc acc' : List Heard) : Prop where
  fit : m.Fit s.opened
  fit' : m'.Fit s.opened
  within : m.Within p n
  within' : m'.Within p' n'
  heard : join acc (m.told data p) = join acc' (m'.told data' p')

/-- Where two such calls lead that read the same bytes. -/
def Course.Same (data data' : List UInt8) (p p' n : Nat) (acc acc' : List Heard) : Course → Course → Prop
  | .on q m, .on q' m' => q' = q ∧ Alike data data' (p + n) (p' + n) (p + n) (p' + n) q.state m m' acc acc'
  | .stop k q m e, .stop k' q' m' e' => q' = q ∧ e' = e ∧ k' + p = k + p' ∧
      (e = .ok → join acc (m.calls.map (Call.heard data)) = join acc' (m'.calls.map (Call.heard data')))
  | .abort, .abort => True
  | _, _ => False

section Same

variable {data' : List UInt8} {p' : Nat} {m' : Marks} {acc' : List Heard} {q q' : Core} {ch : UInt8} {acts : List Act}

/-- The acts of a turn, in two calls. -/
theorem Alike.turn {s s' : State} (h : Alike data data' p p' (p + 1) (p' + 1) s m m' acc acc') (hm : Moves s acts s')
    (hp : data[p]? = some ch) (hp' : data'[p']? = some ch) :
    Alike data data' p p' (p + 1) (p' + 1) s' (m.acts p acts) (m'.acts p' acts) acc acc' := by
  have hlt : p < data.length := (List.getElem?_eq_some_iff.mp hp).1
  have hlt' : p' < data'.length := (List.getElem?_eq_some_iff.mp hp').1
  have hch : data.getD p 0 = ch := Option.some.inj ((getElem?_eq_getD hlt).symm.trans hp)
  have hch' : data'.getD p' 0 = ch := Option.some.inj ((getElem?_eq_getD hlt').symm.trans hp')
  refine ⟨h.fit.opened hm p, h.fit'.opened hm p', h.within.acts acts, h.within'.acts acts, ?_⟩
  obtain ⟨o, ho, -⟩ := hm
  rw [told_acts h.fit ho h.within hlt, told_acts h.fit' ho h.within' hlt', hch, hch', h.heard]

/-- A byte is passed, in two calls. -/
theorem Alike.pass {s s' : State} (h : Alike data data' p p' (p + 1) (p' + 1) s m m' acc acc') (hm : Moves s acts s')
    (hp : data[p]? = some ch) (hp' : data'[p']? = some ch) :
    Alike data data' (p + 1) (p' + 1) (p + 1) (p' + 1) s' (m.acts p acts) (m'.acts p' acts) acc acc' := by
  have hlt : p < data.length := (List.getElem?_eq_some_iff.mp hp).1
  have hlt' : p' < data'.length := (List.getElem?_eq_some_iff.mp hp').1
  have hch : data.getD p 0 = ch := Option.some.inj ((getElem?_eq_getD hlt).symm.trans hp)
  have hch' : data'.getD p' 0 = ch := Option.some.inj ((getElem?_eq_getD hlt').symm.trans hp')
  have ha := h.turn hm hp hp'
  refine ⟨ha.fit, ha.fit', ha.within.mono (Nat.le_succ p) (Nat.le_refl _),
    ha.within'.mono (Nat.le_succ p') (Nat.le_refl _), ?_⟩
  obtain ⟨o, ho, hsuits⟩ := hm
  have hne : o ≠ .maybe := by
    rintro rfl
    nomatch hsuits
  rw [told_pass (h.fit.acts ho p) hne ha.within hlt, told_pass (h.fit'.acts ho p') hne ha.within' hlt', hch,
    hch', ha.heard]

theorem feed_same (fuel : Nat) (hq : q.Sound) (h : Alike data data' p p' (p + 1) (p' + 1) q.state m m' acc acc')
    (hp : data[p]? = some ch) (hp' : data'[p']? = some ch) :
    (feed p ch fuel q m).Same data data' p p' 1 acc acc' (feed p' ch fuel q m') := by
  induction fuel generalizing q m m' with
  | zero => trivial
  | succ fuel ih =>
    have hf := byteTurn_fits ch hq
    unfold feed
    cases ht : byteTurn q ch with
    | next q₁ acts =>
      rw [ht] at hf
      exact ⟨rfl, h.pass hf.moves hp hp'⟩
    | again q₁ acts =>
      rw [ht] at hf
      exact ih hf.1.sound (h.turn hf.1.moves hp hp')
    | exit q₁ acts =>
      rw [ht] at hf
      have ha := h.turn hf.1.moves hp hp'
      have hshut := hf.2.2
      have hfit : (m.acts p acts).Fit .shut := hshut ▸ ha.fit
      have hfit' : (m'.acts p' acts).Fit .shut := hshut ▸ ha.fit'
      refine ⟨rfl, rfl, by omega, fun _ => ?_⟩
      rw [← told_of_none hfit, ← told_of_none hfit']
      exact ha.heard
    | error q₁ acts e =>
      rw [ht] at hf
      exact ⟨rfl, rfl, Nat.add_comm _ _, fun he => absurd he hf.2.1⟩
    | abort => trivial

theorem Course.Same.succ {n : Nat} {c c' : Course} (h : c.Same data data' (p + 1) (p' + 1) n acc acc' c') :
    c.Same data data' p p' (n + 1) acc acc' c' := by
  have hplace : ∀ p : Nat, p + 1 + n = p + (n + 1) := fun p => by omega
  cases c with
  | on q m =>
    cases c' with
    | on q' m' =>
      obtain ⟨hq, ha⟩ := h
      rw [hplace p, hplace p'] at ha
      exact ⟨hq, ha⟩
    | stop | abort => exact h.elim
  | stop k q m e =>
    cases c' with
    | stop k' q' m' e' =>
      obtain ⟨hq, he, hk, hheard⟩ := h
      exact ⟨hq, he, by omega, hheard⟩
    | on | abort => exact h.elim
  | abort =>
    cases c' with
    | abort => trivial
    | on | stop => exact h.elim

theorem next_of_prefix {rest : List UInt8} (h : ch :: rest <+: data.drop p) :
    data[p]? = some ch ∧ rest <+: data.drop (p + 1) := by
  obtain ⟨t, ht⟩ := h
  refine ⟨?_, t, ?_⟩
  · rw [← Nat.add_zero p, ← List.getElem?_drop, ← ht]
    rfl
  · rw [← List.drop_drop, ← ht]
    rfl

/-- The same bytes lead to the same. -/
theorem feedAll_same (bytes : List UInt8) (hq : q.Sound) (h : Alike data data' p p' p p' q.state m m' acc acc')
    (hp : bytes <+: data.drop p) (hp' : bytes <+: data'.drop p') :
    (feedAll q m p bytes).Same data data' p p' bytes.length acc acc' (feedAll q m' p' bytes) := by
  induction bytes generalizing q m m' p p' with
  | nil => exact ⟨rfl, h⟩
  | cons ch rest ih =>
    obtain ⟨hch, hrest⟩ := next_of_prefix hp
    obtain ⟨hch', hrest'⟩ := next_of_prefix hp'
    have hone : Alike data data' p p' (p + 1) (p' + 1) q.state m m' acc acc' :=
      ⟨h.fit, h.fit', h.within.mono (Nat.le_refl p) (Nat.le_succ p),
        h.within'.mono (Nat.le_refl p') (Nat.le_succ p'), h.heard⟩
    have hf := feed_same turns hq hone hch hch'
    have hfits := feed_fits ch hq (rank_lt_turns _) hone.fit hone.within
    rw [feedAll, feedAll, List.length_cons]
    cases hc : feed p ch turns q m with
    | on q₁ m₁ =>
      rw [hc] at hf hfits
      cases hc' : feed p' ch turns q m' with
      | on q₁' m₁' =>
        rw [hc'] at hf
        obtain ⟨rfl, ha⟩ := hf
        exact (ih hfits.1 ha hrest hrest').succ
      | stop | abort =>
        rw [hc'] at hf
        exact hf.elim
    | stop k q₁ m₁ e =>
      rw [hc] at hf
      cases hc' : feed p' ch turns q m' with
      | stop k' q₁' m₁' e' =>
        rw [hc'] at hf
        exact hf
      | on | abort =>
        rw [hc'] at hf
        exact hf.elim
    | abort =>
      rw [hc] at hfits
      exact hfits.elim

end Same

/-! ## Calls in a row -/

theorem feedAll_append (xs ys : List UInt8) (q : Core) (m : Marks) (p : Nat) :
    feedAll q m p (xs ++ ys) =
      match feedAll q m p xs with
      | .on q m => feedAll q m (p + xs.length) ys
      | c => c := by
  induction xs generalizing q m p with
  | nil => rfl
  | cons ch xs ih =>
    rw [List.cons_append, feedAll, feedAll]
    cases feed p ch turns q m with
    | on q₁ m₁ =>
      simp only
      rw [ih, List.length_cons, ← Nat.add_assoc, Nat.add_right_comm]
    | stop | abort => rfl

/-- A call ends with the parser ready for the next one, or, having met an error, does nothing. -/
theorem execute_returns {parser : HttpParser} {bytes : List UInt8} (h : parser.Ready) (hlen : bytes.length ≤ 2 ^ 31) :
    ∃ r, execute parser bytes = some r ∧ r.parser.Ready := by
  by_cases hok : parser.errno = .ok
  · by_cases hb : bytes = []
    · unfold execute
      rw [if_neg (not_not.mpr hok), if_pos hb]
      split
      · exact ⟨_, rfl, h⟩
      · exact ⟨_, rfl, h⟩
      · exact ⟨_, rfl, h⟩
      · exact ⟨_, rfl, h⟩
      · exact ⟨_, rfl, h⟩
      · exact ⟨_, rfl, ready_of_error nofun⟩
    · obtain ⟨r, hr, hready, -⟩ := execute_bytes h hok hb hlen
      exact ⟨r, hr, hready⟩
  · exact ⟨_, if_pos hok, h⟩

theorem execute_of_error {parser : HttpParser} (h : parser.errno ≠ .ok) (bytes : List UInt8) :
    execute parser bytes = some ⟨parser, [], 0⟩ :=
  if_pos h

theorem receive_cons {parser : HttpParser} {bytes : List UInt8} {r : Executed} (hb : bytes ≠ [])
    (hr : execute parser bytes = some r) (segments : List (List UInt8)) :
    receive parser (bytes :: segments) =
      if r.parser.core.upgrade = false ∧ r.returned ≠ bytes.length then
      some ⟨r.parser, r.calls.map (Call.heard bytes), r.returned⟩
      else (receive r.parser segments).map fun s =>
      ⟨s.parser, r.calls.map (Call.heard bytes) ++ s.heard, r.returned + s.read⟩ := by
  rw [receive, if_neg hb, hr]
  simp only [Option.bind_eq_bind, Option.bind_some]
  split_ifs
  · rfl
  · cases receive r.parser segments <;> rfl

/-- The calls of a connection leave the parser ready. -/
theorem receive_returns {parser : HttpParser} {segments : List (List UInt8)} (h : parser.Ready)
    (hlen : ∀ bytes ∈ segments, bytes.length ≤ 2 ^ 31) : ∃ s, receive parser segments = some s ∧ s.parser.Ready := by
  induction segments generalizing parser with
  | nil => exact ⟨_, rfl, h⟩
  | cons bytes segments ih =>
    obtain ⟨hblen, hlen⟩ := List.forall_mem_cons.mp hlen
    by_cases hb : bytes = []
    · rw [receive, if_pos hb]
      exact ⟨_, rfl, h⟩
    · obtain ⟨r, hr, hready⟩ := execute_returns h hblen
      rw [receive_cons hb hr]
      by_cases hclose : r.parser.core.upgrade = false ∧ r.returned ≠ bytes.length
      · exact ⟨_, if_pos hclose, hready⟩
      · obtain ⟨s, hs, hs'⟩ := ih hready hlen
        refine ⟨⟨s.parser, r.calls.map (Call.heard bytes) ++ s.heard, r.returned + s.read⟩, ?_, hs'⟩
        rw [if_neg hclose, hs, Option.map_some]

/-- No assertion of the parser fails on a connection, whatever comes in. -/
theorem never_aborts (type : ParserType) {segments : List (List UInt8)}
    (hlen : ∀ bytes ∈ segments, bytes.length ≤ 2 ^ 31) :
    ∃ s, receive (httpParserInit type) segments = some s ∧ s.parser.Ready :=
  receive_returns (httpParserInit_ready type) hlen

theorem never_aborts_get : ∃ s, receive (httpParserInit .request) getSegments = some s ∧ s.parser.Ready :=
  never_aborts .request (by decide)

/-- On a connection, a call comes to where its bytes lead one at a time, unless the headers are longer than
`HTTP_MAX_HEADER_SIZE` allows. -/
theorem reads_ahead {type : ParserType} {segments : List (List UInt8)} {s : Received} {bytes : List UInt8}
    (hs : receive (httpParserInit type) segments = some s) (hlen : ∀ bytes ∈ segments, bytes.length ≤ 2 ^ 31)
    (hok : s.parser.errno = .ok) (hb : bytes ≠ []) (hblen : bytes.length ≤ 2 ^ 31) :
    ∃ r, execute s.parser bytes = some r ∧ r.returned ≤ bytes.length ∧
      (r.parser.errno = .headerOverflow ∧ httpMaxHeaderSize < s.parser.nread.toNat + 2 * bytes.length ∨
        (feedAll s.parser.core s.parser.core.state.startMarks 0 bytes).Gives bytes r) := by
  obtain ⟨s', hs', hready⟩ := receive_returns (httpParserInit_ready type) hlen
  rw [hs, Option.some.injEq] at hs'
  subst hs'
  obtain ⟨r, hr, -, hret, hend⟩ := execute_bytes hready hok hb hblen
  refine ⟨r, hr, hret, ?_⟩
  rcases hend with ⟨he, hmax⟩ | ⟨hgives, -⟩
  · exact Or.inl ⟨he, hmax⟩
  · exact Or.inr hgives

theorem reads_ahead_get :
    ∃ s r, receive (httpParserInit .request) getSegments = some s ∧ execute s.parser (lit "GET /d") = some r ∧
      (feedAll s.parser.core s.parser.core.state.startMarks 0 (lit "GET /d")).Gives (lit "GET /d") r := by
  have hs : (receive (httpParserInit .request) getSegments).any (fun s => s.parser.errno = .ok ∧
      s.parser.nread.toNat ≤ 100) = true := by
    decide +kernel
  obtain ⟨s, hs, hall⟩ := (Option.any_eq_true _ _).mp hs
  obtain ⟨hok, hn⟩ := of_decide_eq_true hall
  have hlength : (lit "GET /d").length = 6 := by decide
  obtain ⟨r, hr, -, ⟨-, hmax⟩ | hgives⟩ :=
    reads_ahead hs (by decide) hok (by decide) (by decide : (lit "GET /d").length ≤ 2 ^ 31)
  · rw [hlength, show httpMaxHeaderSize = 81920 from rfl] at hmax
    omega
  · exact ⟨s, r, hs, hr, hgives⟩

/-- After an error no call parses anything. -/
theorem receive_of_error {parser : HttpParser} (h : parser.errno ≠ .ok) {segments : List (List UInt8)} {s : Received}
    (hs : receive parser segments = some s) : s.parser = parser ∧ s.read = 0 := by
  induction segments generalizing s with
  | nil =>
    rw [← Option.some.inj hs]
    exact ⟨rfl, rfl⟩
  | cons bytes segments ih =>
    by_cases hb : bytes = []
    · rw [receive, if_pos hb] at hs
      rw [← Option.some.inj hs]
      exact ⟨rfl, rfl⟩
    · rw [receive_cons hb (execute_of_error h bytes)] at hs
      split_ifs at hs
      · rw [← Option.some.inj hs]
        exact ⟨rfl, rfl⟩
      · obtain ⟨s', hs', rfl⟩ := Option.map_eq_some_iff.mp hs
        obtain ⟨hparser, hread⟩ := ih hs'
        exact ⟨hparser, by show 0 + s'.read = 0; rw [hread]⟩

/-- Headers are too long only where the bytes read are many. -/
theorem receive_overflow {parser : HttpParser} {segments : List (List UInt8)} {s : Received} (h : parser.Ready)
    (hne : parser.errno ≠ .headerOverflow) (hlen : segments.flatten.length ≤ 2 ^ 31)
    (hs : receive parser segments = some s)
    (hover : s.parser.errno = .headerOverflow) :
    httpMaxHeaderSize < parser.nread.toNat + 2 * segments.flatten.length := by
  by_cases hok : parser.errno = .ok
  · induction segments generalizing parser s with
    | nil =>
      rw [← Option.some.inj hs] at hover
      exact absurd hover hne
    | cons bytes segments ih =>
      rw [List.flatten_cons, List.length_append] at hlen ⊢
      by_cases hb : bytes = []
      · rw [receive, if_pos hb] at hs
        rw [← Option.some.inj hs] at hover
        exact absurd hover hne
      obtain ⟨r, hr, hready, -, hend⟩ := execute_bytes h hok hb (by omega)
      rcases hend with ⟨-, hmax⟩ | ⟨hgives, hn⟩
      · omega
      have hfits := feedAll_fits bytes (h hok).1 (startMarks_fit _) (startMarks_within _)
      have hne' : r.parser.errno ≠ .headerOverflow := by
        cases hc : feedAll parser.core parser.core.state.startMarks 0 bytes with
        | on q m =>
          rw [hc] at hgives
          obtain ⟨nread, rfl⟩ := hgives
          exact fun he => by cases he
        | stop k q m e =>
          rw [hc] at hgives hfits
          obtain ⟨nread, rfl⟩ := hgives
          exact hfits.2.1
        | abort =>
          rw [hc] at hgives
          exact hgives.elim
      rw [receive_cons hb hr] at hs
      split_ifs at hs
      · rw [← Option.some.inj hs] at hover
        exact absurd hover hne'
      · obtain ⟨s', hs', rfl⟩ := Option.map_eq_some_iff.mp hs
        by_cases hok' : r.parser.errno = .ok
        · have hmax := ih hready hne' (by omega) hs' hover hok'
          omega
        · exact absurd ((receive_of_error hok' hs').1 ▸ hover) hne'
  · exact absurd ((receive_of_error hok hs).1 ▸ hover) hne

/-- The texts of marks that a call begins with go on. -/
theorem told_startMarks {s : State} {acc : List Heard} (h : ∀ d, s.startMark = some d → Pieces.Ends d acc)
    (data : List UInt8) :
    join acc (s.startMarks.told data 0) = acc := by
  have hfit := startMarks_fit s
  cases hs : s.startMark with
  | some d =>
    rw [opened_of_startMark hs] at hfit
    have hd : s.startMarks.mark d = some 0 := if_pos hs
    rw [told_of_some hd hfit.2]
    exact push_nil (h d hs)
  | none =>
    have hnone : ∀ d, s.startMarks.mark d = none := fun d => if_neg (by rw [hs]; nofun)
    rw [told_of_none hnone]
    rfl

theorem ends_told {s : State} {d : Datum} (hs : s.startMark = some d) (hm : m.Fit s.opened) :
    Pieces.Ends d (join acc (m.told data p)) := by
  rw [opened_of_startMark hs] at hm
  obtain ⟨ofs, hd⟩ := Option.ne_none_iff_exists'.mp hm.1
  rw [told_of_some hd hm.2, join_append]
  exact ends_push _ _

/-- What a call, or calls in a row, leave where their bytes, up to a place, lead somewhere in one. -/
def Course.Leaves (data : List UInt8) (p stop : Nat) (acc acc' : List Heard) (s : Received) : Course → Prop
  | .on q m => s.parser.core = q ∧ s.parser.errno = .ok ∧ s.read + p = stop ∧
    join acc' s.heard = join acc (m.told data stop)
  | .stop k q m e => s.parser.core = q ∧ s.parser.errno = e ∧ s.read + p = k ∧
      (e = .ok → join acc' s.heard = join acc (m.calls.map (Call.heard data)))
  | .abort => False

/-- A call before the others. -/
theorem Course.Leaves.cons {acc' : List Heard} {heard : List Heard} {n stop : Nat} {s : Received} {c : Course}
    (h : c.Leaves data (p + n) stop acc (join acc' heard) s) :
    c.Leaves data p stop acc acc' ⟨s.parser, heard ++ s.heard, n + s.read⟩ := by
  cases c with
  | on q m =>
    obtain ⟨hq, he, hread, hheard⟩ := h
    exact ⟨hq, he, by show n + s.read + p = _; omega, by rw [join_append, hheard]⟩
  | stop k q m e =>
    obtain ⟨hq, he, hread, hheard⟩ := h
    exact ⟨hq, he, by show n + s.read + p = _; omega, fun h => by rw [join_append, hheard h]⟩
  | abort => exact h

/-- One call leaves what its bytes would, had they come with those before them. -/
theorem segment_follows {bytes : List UInt8} {parser : HttpParser} {acc' : List Heard} {r : Executed}
    (hready : parser.Ready)
    (hok : parser.errno = .ok) (hfit : m.Fit parser.core.state.opened) (hw : m.Within p p)
    (hheard : join acc (m.told data p) = acc')
    (hends : ∀ d, parser.core.state.startMark = some d → Pieces.Ends d acc') (hdata : bytes <+: data.drop p)
    (hb : bytes ≠ [])
    (hlen : bytes.length ≤ 2 ^ 31) (hr : execute parser bytes = some r) (hover : r.parser.errno ≠ .headerOverflow) :
    (feedAll parser.core m p bytes).Leaves data p (p + bytes.length) acc acc'
      ⟨r.parser, r.calls.map (Call.heard bytes), r.returned⟩ := by
  obtain ⟨r', hr', -, -, hend⟩ := execute_bytes hready hok hb hlen
  rw [hr, Option.some.injEq] at hr'
  subst hr'
  have hgives := (hend.resolve_left fun h => hover h.1).1
  have halike : Alike data bytes p 0 p 0 parser.core.state m parser.core.state.startMarks acc acc' :=
    ⟨hfit, startMarks_fit _, hw, startMarks_within _, by rw [hheard, told_startMarks hends]⟩
  have hsame := feedAll_same bytes (hready hok).1 halike hdata (List.prefix_refl bytes)
  cases hc : feedAll parser.core parser.core.state.startMarks 0 bytes with
  | abort =>
    rw [hc] at hgives
    exact hgives.elim
  | on q m' =>
    rw [hc] at hsame hgives
    cases hc₀ : feedAll parser.core m p bytes with
    | on q' m₁ =>
      rw [hc₀] at hsame
      obtain ⟨rfl, ha⟩ := hsame
      obtain ⟨nread, rfl⟩ := hgives
      have hh := ha.heard
      rw [Nat.zero_add] at hh
      exact ⟨rfl, rfl, Nat.add_comm _ _, hh.symm⟩
    | stop | abort =>
      rw [hc₀] at hsame
      exact hsame.elim
  | stop k' q m' e =>
    rw [hc] at hsame hgives
    cases hc₀ : feedAll parser.core m p bytes with
    | stop k q' m₁ e' =>
      rw [hc₀] at hsame
      obtain ⟨rfl, rfl, hk, hheard'⟩ := hsame
      obtain ⟨nread, rfl⟩ := hgives
      exact ⟨rfl, rfl, hk, fun he => (hheard' he).symm⟩
    | on | abort =>
      rw [hc₀] at hsame
      exact hsame.elim

theorem nil_of_flatten {segments : List (List UInt8)} (hne : ∀ bytes ∈ segments, bytes ≠ [])
    (h : segments.flatten = []) : segments = [] :=
  List.eq_nil_iff_forall_not_mem.mpr fun bytes hb => hne bytes hb (List.flatten_eq_nil_iff.mp h bytes hb)

/-- An error of a call is the connection's. -/
theorem receive_errno {parser : HttpParser} {bytes : List UInt8} {segments : List (List UInt8)} {r : Executed}
    {s : Received}
    (hb : bytes ≠ []) (hr : execute parser bytes = some r) (he : r.parser.errno ≠ .ok)
    (hs : receive parser (bytes :: segments) = some s) :
    s.parser = r.parser ∧ s.read = r.returned := by
  rw [receive_cons hb hr] at hs
  split_ifs at hs
  · rw [← Option.some.inj hs]
    exact ⟨rfl, rfl⟩
  · obtain ⟨s', hs', rfl⟩ := Option.map_eq_some_iff.mp hs
    obtain ⟨hparser, hread⟩ := receive_of_error he hs'
    exact ⟨hparser, by show r.returned + s'.read = _; rw [hread, Nat.add_zero]⟩

/-- The calls of a connection leave what its bytes would in one: by induction on the segments, with the marks that
the one call would have. -/
theorem segments_follow {segments : List (List UInt8)} {parser : HttpParser} {acc' : List Heard} {s : Received}
    (hready : parser.Ready)
    (hok : parser.errno = .ok) (hfit : m.Fit parser.core.state.opened) (hw : m.Within p p)
    (hheard : join acc (m.told data p) = acc')
    (hends : ∀ d, parser.core.state.startMark = some d → Pieces.Ends d acc') (hp : p ≤ data.length)
    (hdata : data.drop p = segments.flatten) (hne : ∀ bytes ∈ segments, bytes ≠ []) (hlen : data.length ≤ 2 ^ 31)
    (hearly : ∀ k q m', feedAll parser.core m p segments.flatten = .stop k q m' .ok → k = data.length)
    (hs : receive parser segments = some s) (hover : s.parser.errno ≠ .headerOverflow) :
    (feedAll parser.core m p segments.flatten).Leaves data p data.length acc acc' s := by
  induction segments generalizing parser m p acc' s with
  | nil =>
    rw [List.flatten_nil, List.drop_eq_nil_iff] at hdata
    have hpl : p = data.length := Nat.le_antisymm hp hdata
    rw [← Option.some.inj hs]
    refine ⟨rfl, hok, by rw [Nat.zero_add, hpl], ?_⟩
    rw [join_nil, ← hheard, hpl]
  | cons bytes segments ih =>
    obtain ⟨hb, hne⟩ := List.forall_mem_cons.mp hne
    rw [List.flatten_cons] at hdata hearly ⊢
    have hl := congrArg List.length hdata
    rw [List.length_drop, List.length_append] at hl
    obtain ⟨r, hr, hrready⟩ := execute_returns hready (by omega : bytes.length ≤ 2 ^ 31)
    have hover' : r.parser.errno ≠ .headerOverflow := by
      intro he
      exact hover ((receive_errno hb hr (by rw [he]; decide) hs).1 ▸ he)
    have hleaves := segment_follows hready hok hfit hw hheard hends ⟨segments.flatten, hdata.symm⟩ hb
      (by omega) hr hover'
    have hfits := feedAll_fits bytes (hready hok).1 hfit hw
    rw [feedAll_append] at hearly ⊢
    cases hc : feedAll parser.core m p bytes with
    | abort =>
      rw [hc] at hleaves
      exact hleaves.elim
    | on q m₁ =>
      rw [hc] at hleaves hfits hearly
      obtain ⟨rfl, herr, hread, hheard₁⟩ := hleaves
      have hret : r.returned = bytes.length := Nat.add_right_cancel (hread.trans (Nat.add_comm _ _))
      rw [receive_cons hb hr, if_neg fun h => h.2 hret] at hs
      obtain ⟨s', hs', rfl⟩ := Option.map_eq_some_iff.mp hs
      have hdata' : data.drop (p + bytes.length) = segments.flatten := by rw [← List.drop_drop, hdata, List.drop_left]
      have hends' : ∀ d, r.parser.core.state.startMark = some d →
          Pieces.Ends d (join acc' (r.calls.map (Call.heard bytes))) := by
        intro d hd
        rw [hheard₁]
        exact ends_told hd hfits.2.1
      have hnext := ih hrready herr hfits.2.1 hfits.2.2 hheard₁.symm hends' (by omega) hdata' hne hearly hs' hover
      rw [hret]
      exact hnext.cons
    | stop k q m₁ e =>
      rw [hc] at hleaves hfits hearly
      obtain ⟨rfl, herr, hread, hheard₁⟩ := hleaves
      by_cases he : e = .ok
      · -- it is all parsed, and nothing is left to come
        subst he
        have hkl : r.returned + p = data.length := hread.trans (hearly k _ m₁ rfl)
        have hk : r.returned + p ≤ p + bytes.length := hread.le.trans hfits.1
        have hnil : segments = [] := nil_of_flatten hne (List.length_eq_zero_iff.mp (by omega))
        subst hnil
        rw [receive_cons hb hr, if_neg fun h => h.2 (by omega)] at hs
        rw [← Option.some.inj hs]
        exact ⟨rfl, herr, hread, fun _ => by show join acc' (_ ++ []) = _; rw [List.append_nil, hheard₁ rfl]⟩
      · obtain ⟨hparser, hret⟩ := receive_errno hb hr (herr.trans_ne he) hs
        exact ⟨by rw [hparser], by rw [hparser, herr], by rw [hret]; exact hread, fun h => absurd h he⟩

/-- However the bytes of a connection are cut, the parser accepts the same of them, meets the same error, is left the
same, and its callbacks have said the same, unless headers are too long or a message asks to leave the protocol. -/
theorem segments_agree {type : ParserType} {segments : List (List UInt8)} {r : Executed} {s : Received}
    (hne : ∀ bytes ∈ segments, bytes ≠ [])
    (hlen : segments.flatten.length ≤ 2 ^ 31) (hr : execute (httpParserInit type) segments.flatten = some r)
    (hs : receive (httpParserInit type) segments = some s) (hover : r.parser.errno ≠ .headerOverflow)
    (hover' : s.parser.errno ≠ .headerOverflow)
    (hearly : r.parser.errno = .ok → r.returned = segments.flatten.length) :
    s.parser.core = r.parser.core ∧ s.parser.errno = r.parser.errno ∧ s.read = r.returned ∧
      (r.parser.errno = .ok → joined s.heard = joined (r.calls.map (Call.heard segments.flatten))) := by
  have hready := httpParserInit_ready type
  have hstart : (httpParserInit type).core.state.startMark = none := by cases type <;> rfl
  by_cases hflat : segments.flatten = []
  · have hnil := nil_of_flatten hne hflat
    subst hnil
    have hempty : execute (httpParserInit type) [] = some ⟨httpParserInit type, [], 0⟩ := by cases type <;> rfl
    rw [← Option.some.inj hs, ← Option.some.inj (hempty.symm.trans hr)]
    exact ⟨rfl, rfl, rfl, fun _ => rfl⟩
  · obtain ⟨r', hr', -, -, hend⟩ := execute_bytes hready rfl hflat hlen
    rw [hr, Option.some.injEq] at hr'
    subst hr'
    have hgives := (hend.resolve_left fun h => hover h.1).1
    have hnone : ∀ d, (httpParserInit type).core.state.startMark = some d → Pieces.Ends d ([] : List Heard) := by
      intro d hd
      rw [hstart] at hd
      nomatch hd
    have hleaves := segments_follow hready rfl (startMarks_fit _) (startMarks_within _) (told_startMarks hnone _) hnone
      (Nat.zero_le _) List.drop_zero hne hlen (fun k q m hstop => by
        rw [hstop] at hgives
        obtain ⟨nread, rfl⟩ := hgives
        exact hearly rfl) hs hover'
    cases hc : feedAll (httpParserInit type).core (httpParserInit type).core.state.startMarks 0 segments.flatten with
    | on q m =>
      rw [hc] at hgives hleaves
      obtain ⟨nread, rfl⟩ := hgives
      obtain ⟨hcore, herr, hread, hheard⟩ := hleaves
      exact ⟨hcore, herr, hread, fun _ => congrArg List.reverse hheard⟩
    | stop k q m e =>
      rw [hc] at hgives hleaves
      obtain ⟨nread, rfl⟩ := hgives
      obtain ⟨hcore, herr, hread, hheard⟩ := hleaves
      exact ⟨hcore, herr, hread, fun h => congrArg List.reverse (hheard h)⟩
    | abort =>
      rw [hc] at hleaves
      exact hleaves.elim

theorem segments_agree_get :
    ∃ r s, execute (httpParserInit .request) getSegments.flatten = some r ∧
      receive (httpParserInit .request) getSegments = some s ∧
      s.parser.core = r.parser.core ∧ s.read = r.returned ∧
      joined s.heard = joined (r.calls.map (Call.heard getSegments.flatten)) := by
  have hr : (execute (httpParserInit .request) getSegments.flatten).any
      (fun r => r.parser.errno = .ok ∧ r.returned = getSegments.flatten.length) = true := by
    decide +kernel
  have hs : (receive (httpParserInit .request) getSegments).any (fun s => s.parser.errno = .ok) = true := by
    decide +kernel
  obtain ⟨r, hr, hall⟩ := (Option.any_eq_true _ _).mp hr
  obtain ⟨s, hs, hok⟩ := (Option.any_eq_true _ _).mp hs
  obtain ⟨he, hret⟩ := of_decide_eq_true hall
  have he' : s.parser.errno = .ok := of_decide_eq_true hok
  obtain ⟨hcore, -, hread, hheard⟩ :=
    segments_agree (by decide) (by decide) hr hs (by rw [he]; nofun) (by rw [he']; nofun) fun _ => hret
  exact ⟨r, s, hr, hs, hcore, hread, hheard he⟩

end ZeroServ.Parser
