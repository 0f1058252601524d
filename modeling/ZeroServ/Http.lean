import ZeroServ.Buffer
import ZeroServ.Lib.Decimal

/-!
# The HTTP handler

`http.c`: `http_parse` cuts the method and the path out of a request line, at the first two blanks behind one
another, copies them to two arrays on the stack and answers with the path. The length of the method is compared with
the size of its array in a way that has no room for the NUL: `http_parse_iff`. Lengths inside the input buffer fit an
`int`; the room in the output buffer is not looked at.
-/

namespace ZeroServ.Http

open CString Decimal

/-- `ECHO_BUFFER_SIZE` -/
def ECHO_BUFFER_SIZE : Nat := 4096

/-- The bytes of the handler's input buffer, with a NUL among them. -/
structure Input where
  buff : Mem
  size : buff.length = ECHO_BUFFER_SIZE
  nul : (0 : UInt8) ∈ buff

/-- The arrays `method` and `url` of `http_parse`. -/
inductive ParseArray where
  | method | url
  deriving DecidableEq, Repr

def ParseArray.size : ParseArray → Nat
  | .method => 12
  | .url => 128

/-- Bytes stored in an array, from an index on. -/
structure Stored where
  array : ParseArray
  ofs : Nat
  count : Nat
  deriving DecidableEq, Repr

def Stored.InRange (s : Stored) : Prop := s.ofs + s.count ≤ s.array.size

instance (s : Stored) : Decidable s.InRange := inferInstanceAs (Decidable (_ ≤ _))

/-- What `http_parse` returns, the output buffer it leaves and what it stored. -/
structure Parsed where
  ret : Int
  ob : Buffer
  stored : List Stored

/-! ## Responses -/

/-- The text that `http_response` formats, of a length and a body. -/
def responseText (errCode : Int) (length : Nat) (rep : List UInt8) : List UInt8 :=
  lit "HTTP/1.1 " ++ intText errCode ++ lit
    " OK\r\nServer: zeroxy\r\nContent-Type: text/html; charset=UTF-8\r\nContent-Length: " ++
    natText length ++ lit "\r\nConnection: close\r\n\r\n" ++ rep

/-- `http_response`: the text and its NUL are stored at `r`, which moves by the length of the text. -/
def httpResponse (ob : Buffer) (errCode : Int) (rep : Mem) : Buffer :=
  let text := responseText errCode (strlen rep) (cstr rep) ++ [0]
  { ob with mem := Buffer.store ob.mem ob.r text, r := ob.r + strlen text }

/-- `HTTP_OK` -/
def HTTP_OK : Int := 200

/-- `METHOD_GET` and `METHOD_POST` -/
def METHOD_GET : List UInt8 := lit "GET"
def METHOD_POST : List UInt8 := lit "POST"

/-- `CHK_METHOD`, in which `sizeof` counts the NUL. -/
def chkMethod (method : Mem) (M : List UInt8) : Bool := strncmp method M (M.length + 1)

/-- The part of `http_parse` behind the check of the method: `first` is where the first blank is. -/
def parseUrl (ob : Buffer) (first : Mem) (stored : List Stored) : Parsed :=
  match strstr first.tail (lit " ") with
  | none => ⟨0, ob, stored⟩
  | some last =>
    let lenUrl := first.tail.length - last.length
    if lenUrl < ParseArray.url.size - 1 then
      let url := first.tail.take lenUrl ++ [0]
      let stored := stored ++ [⟨.url, 0, lenUrl⟩, ⟨.url, lenUrl, 1⟩]
      if strcmp url (lit "/stat") then ⟨1, httpResponse ob HTTP_OK (lit "stat_statistic"), stored⟩
      else ⟨1, httpResponse ob HTTP_OK url, stored⟩
    else ⟨1, httpResponse ob HTTP_OK (lit "too long url"), stored⟩

/-- `http_parse` -/
def httpParse (ob : Buffer) (req : Mem) : Parsed :=
  match strstr req (lit " ") with
  | none => ⟨0, ob, []⟩
  | some first =>
    let lenMethod := req.length - first.length
    if lenMethod > ParseArray.method.size then ⟨0, ob, []⟩
    else
      let method := req.take lenMethod ++ [0]
      let stored : List Stored := [⟨.method, 0, lenMethod⟩, ⟨.method, lenMethod, 1⟩]
      if chkMethod method METHOD_GET || chkMethod method METHOD_POST then parseUrl ob first stored else ⟨0, ob, stored⟩

/-! ## What is to hold -/

/-- A request line: a method, a path without blanks, and anything. -/
structure RequestLine (text url : List UInt8) : Prop where
  split : ∃ method rest, text = method ++ 32 :: (url ++ 32 :: rest) ∧ (method = METHOD_GET ∨ method = METHOD_POST)
  blank : (32 : UInt8) ∉ url

/-- The body of the answer for a path. -/
def body (url : List UInt8) : List UInt8 :=
  if 127 ≤ url.length then lit "too long url" else if url = lit "/stat" then lit "stat_statistic" else url

/-- The bytes that were written to a buffer. -/
def written (b : Buffer) : List UInt8 := (List.range b.r).map b.mem

/-- What is stored stays inside the arrays, and exactly a request line is answered, by one response with the body of
its path. -/
structure Handles (text : List UInt8) (ob : Buffer) (p : Parsed) : Prop where
  inRange : ∀ s ∈ p.stored, s.InRange
  line : p.ret = 1 ↔ ∃ url, RequestLine text url
  answer : ∀ url, RequestLine text url → written p.ob = written ob ++ responseText HTTP_OK (body url).length (body url)
  silent : p.ret ≠ 1 → p.ob = ob

/-! ## One response -/

theorem nul_not_mem_responseText (errCode : Int) (length : Nat) {rep : List UInt8} (h : (0 : UInt8) ∉ rep) :
    (0 : UInt8) ∉ responseText errCode length rep := by
  simp only [responseText, List.mem_append, not_or]
  refine ⟨⟨⟨⟨⟨?_, nul_not_mem_intText _⟩, ?_⟩, nul_not_mem_natText _⟩, ?_⟩, h⟩ <;> decide

/-- `http_response` appends the response for a string. -/
theorem written_httpResponse (ob : Buffer) (errCode : Int) (rep : Mem) :
    written (httpResponse ob errCode rep) = written ob ++ responseText errCode (cstr rep).length (cstr rep) := by
  have hpending : ∀ b : Buffer, written b = Buffer.pending { b with curr := 0 } := by
    intro b
    simp [written, Buffer.pending]
  have h0 := nul_not_mem_responseText errCode (cstr rep).length (nul_not_mem_cstr rep)
  rw [hpending, hpending, httpResponse]
  dsimp only
  rw [strlen, strlen, cstr_append_nul h0]
  exact Buffer.pending_store { ob with curr := 0 } _ [0] (Nat.zero_le _)

/-! ## The request line -/

/-- The check of a method copied with its NUL. -/
theorem chkMethod_iff {method M : List UInt8} (h0 : (0 : UInt8) ∉ method) (hM : (0 : UInt8) ∉ M) :
    chkMethod (method ++ [0]) M = true ↔ method = M := by
  rw [chkMethod, strncmp, cstr_append_nul h0, cstr_eq_self hM, beq_iff_eq]
  constructor
  · intro h
    rw [List.take_of_length_le (Nat.le_succ M.length)] at h
    have hlen := congrArg List.length h
    rw [List.length_take] at hlen
    rwa [List.take_of_length_le (by omega)] at h
  · rintro rfl
    rfl

section parse

variable {req : Mem} {ob : Buffer} {method rest t : List UInt8}

/-- A request line is that of the parts around the first blank of the text. -/
theorem requestLine_iff {text url : List UInt8} (hs : text = method ++ 32 :: rest) (hm : 32 ∉ method) :
    RequestLine text url ↔ (method = METHOD_GET ∨ method = METHOD_POST) ∧ 32 ∉ url ∧ ∃ x, rest = url ++ 32 :: x := by
  constructor
  · rintro ⟨⟨method', x, hsplit, hmethod⟩, hblank⟩
    have hm' : (32 : UInt8) ∉ method' := by rcases hmethod with rfl | rfl <;> decide
    obtain ⟨rfl, rfl⟩ := split_unique hm hm' (hs.symm.trans hsplit)
    exact ⟨hmethod, hblank, x, rfl⟩
  · rintro ⟨hmethod, hblank, x, rfl⟩
    exact ⟨⟨method, x, hs, hmethod⟩, hblank⟩

/-- A text that is no request line is not answered. -/
theorem refused_handles {text : List UInt8} (ob : Buffer) {stored : List Stored} (hstored : ∀ s ∈ stored, s.InRange)
    (hno : ∀ url, ¬RequestLine text url) : Handles text ob ⟨0, ob, stored⟩ :=
  ⟨hstored, iff_of_false Int.zero_ne_one fun ⟨url, h⟩ => hno url h, fun url h => absurd h (hno url), fun _ => rfl⟩

/-- The path behind a method. -/
theorem parseUrl_handles {stored : List Stored} (hs : cstr req = method ++ 32 :: rest) (hm : 32 ∉ method)
    (hmethod : method = METHOD_GET ∨ method = METHOD_POST) (ht : cstr (rest ++ t) = rest)
    (hstored : ∀ s ∈ stored, s.InRange) :
    Handles (cstr req) ob (parseUrl ob (32 :: (rest ++ t)) stored) := by
  have hone : lit " " = [32] := rfl
  unfold parseUrl
  rw [List.tail_cons, hone, strstr_singleton]
  by_cases hblank : (32 : UInt8) ∈ rest
  · obtain ⟨url, x, hrest, hurl⟩ := List.eq_append_cons_of_mem hblank
    obtain ⟨t', hr, hpos, -⟩ := strchr_of_cstr (ht.trans hrest) hurl
    have hline : ∀ u, RequestLine (cstr req) u ↔ u = url := by
      intro u
      rw [requestLine_iff hs hm]
      constructor
      · rintro ⟨-, hu, y, hy⟩
        exact (split_unique hu hurl (hy.symm.trans hrest)).1
      · rintro rfl
        exact ⟨hmethod, hurl, x, hrest⟩
    have hanswer : ∀ (stored' : List Stored) (rep : Mem), cstr rep = body url → (∀ s ∈ stored', s.InRange) →
        Handles (cstr req) ob ⟨1, httpResponse ob HTTP_OK rep, stored'⟩ := by
      intro stored' rep hrep hin
      refine ⟨hin, iff_of_true rfl ⟨url, (hline url).mpr rfl⟩, ?_, fun h => absurd rfl h⟩
      intro u hu
      rw [(hline u).mp hu, written_httpResponse, hrep]
    have hlen : (rest ++ t).length - (32 :: (x ++ t')).length = url.length := by
      rw [hr, List.length_append]
      omega
    have htake : (rest ++ t).take url.length = url := by rw [hr, List.take_left]
    have h0 : (0 : UInt8) ∉ url := by
      intro h
      refine nul_not_mem_cstr (rest ++ t) ?_
      rw [ht, hrest]
      exact List.mem_append_left _ h
    rw [hpos]
    dsimp only
    rw [hlen, htake]
    have hsize : ParseArray.url.size - 1 = 127 := rfl
    rw [hsize]
    by_cases hlong : url.length < 127
    · have hbody : body url = if url = lit "/stat" then lit "stat_statistic" else url := by
        rw [body, if_neg (by omega)]
      have hin : ∀ s ∈ stored ++ ([⟨.url, 0, url.length⟩, ⟨.url, url.length, 1⟩] : List Stored), s.InRange := by
        intro s h
        rcases List.mem_append.mp h with h | h
        · exact hstored s h
        · simp only [List.mem_cons, List.not_mem_nil, or_false] at h
          rcases h with rfl | rfl <;> simp only [Stored.InRange, ParseArray.size] <;> omega
      have hstat : strcmp (url ++ [0]) (lit "/stat") = true ↔ url = lit "/stat" := by
        rw [strcmp, cstr_append_nul h0, beq_iff_eq]
        rfl
      rw [if_pos hlong]
      by_cases hpath : url = lit "/stat"
      · rw [if_pos (hstat.mpr hpath)]
        refine hanswer _ _ ?_ hin
        rw [hbody, if_pos hpath]
        rfl
      · rw [if_neg (mt hstat.mp hpath)]
        refine hanswer _ _ ?_ hin
        rw [hbody, if_neg hpath, cstr_append_nul h0]
    · rw [if_neg hlong]
      refine hanswer _ _ ?_ hstored
      rw [body, if_pos (by omega)]
      rfl
  · have hno : ∀ u, ¬RequestLine (cstr req) u := by
      intro u hu
      obtain ⟨-, -, x, rfl⟩ := (requestLine_iff hs hm).mp hu
      exact hblank (by simp)
    have hnone : strchr (rest ++ t) 32 = none := strchr_eq_none_of_cstr (by decide) (by rwa [ht])
    rw [hnone]
    exact refused_handles ob hstored hno

/-- A text with a blank is handled exactly if the twelve bytes of the array are not just filled. -/
theorem httpParse_handles_iff (hs : cstr req = method ++ 32 :: rest) (hm : 32 ∉ method) :
    Handles (cstr req) ob (httpParse ob req) ↔ method.length ≠ 12 := by
  obtain ⟨t, hr, hpos, ht⟩ := strchr_of_cstr hs hm
  have hone : lit " " = [32] := rfl
  have hlen : req.length - (32 :: (rest ++ t)).length = method.length := by
    rw [hr, List.length_append]
    omega
  have htake : req.take method.length = method := by rw [hr, List.take_left]
  have h0 : (0 : UInt8) ∉ method := by
    intro h
    refine nul_not_mem_cstr req ?_
    rw [hs]
    exact List.mem_append_left _ h
  have hshort : method = METHOD_GET ∨ method = METHOD_POST → method.length < 12 := by
    rintro (rfl | rfl) <;> decide
  have hchk : (chkMethod (method ++ [0]) METHOD_GET || chkMethod (method ++ [0]) METHOD_POST) = true ↔
      method = METHOD_GET ∨ method = METHOD_POST := by
    rw [Bool.or_eq_true, chkMethod_iff h0 (by decide), chkMethod_iff h0 (by decide)]
  have hno : ¬(method = METHOD_GET ∨ method = METHOD_POST) → ∀ url, ¬RequestLine (cstr req) url := fun hmethod url hu =>
    hmethod ((requestLine_iff hs hm).mp hu).1
  unfold httpParse
  rw [hone, strstr_singleton, hpos]
  dsimp only
  rw [hlen, htake]
  have hsize : ParseArray.method.size = 12 := rfl
  rw [hsize]
  by_cases hlong : method.length > 12
  · rw [if_pos hlong]
    exact iff_of_true (refused_handles ob (by simp) (hno fun h => by have := hshort h; omega)) (by omega)
  · rw [if_neg hlong]
    have hin : (∀ s ∈ ([⟨.method, 0, method.length⟩, ⟨.method, method.length, 1⟩] : List Stored), s.InRange) ↔
        method.length ≠ 12 := by
      simp only [List.mem_cons, List.not_mem_nil, or_false, forall_eq_or_imp, forall_eq, Stored.InRange, hsize]
      omega
    by_cases hmethod : method = METHOD_GET ∨ method = METHOD_POST
    · have hne : method.length ≠ 12 := (hshort hmethod).ne
      rw [if_pos (hchk.mpr hmethod)]
      exact iff_of_true (parseUrl_handles hs hm hmethod ht (hin.mpr hne)) hne
    · rw [if_neg (mt hchk.mp hmethod)]
      exact ⟨fun h => hin.mp h.inRange, fun h => refused_handles ob (hin.mpr h) (hno hmethod)⟩

end parse

/-- For every text in the input buffer: `http_parse` handles it, exactly if its first blank is not just behind the
twelfth byte. -/
theorem http_parse_iff (ib : Input) (ob : Buffer) :
    Handles (cstr ib.buff) ob (httpParse ob ib.buff) ↔
      ∀ method rest, cstr ib.buff = method ++ 32 :: rest → 32 ∉ method → method.length ≠ 12 := by
  by_cases hblank : (32 : UInt8) ∈ cstr ib.buff
  · obtain ⟨method, rest, hs, hm⟩ := List.eq_append_cons_of_mem hblank
    rw [httpParse_handles_iff hs hm]
    refine ⟨fun h method' rest' hs' hm' => ?_, fun h => h method rest hs hm⟩
    obtain ⟨rfl, -⟩ := split_unique hm hm' (hs.symm.trans hs')
    exact h
  · have hone : lit " " = [32] := rfl
    have hsplit : ∀ method rest, cstr ib.buff ≠ method ++ 32 :: rest := fun method rest h => hblank (h ▸ by simp)
    rw [httpParse, hone, strstr_singleton, strchr_eq_none_of_cstr (by decide) hblank]
    refine iff_of_true (refused_handles ob (by simp) ?_) fun method rest h => absurd h (hsplit method rest)
    rintro url ⟨⟨method, rest, h, -⟩, -⟩
    exact hsplit _ _ h

/-- The input buffer with a text in it. -/
def inputOf (text : List UInt8) (h : text.length < ECHO_BUFFER_SIZE) : Input where
  buff := text ++ List.replicate (ECHO_BUFFER_SIZE - text.length) 0
  size := by
    rw [List.length_append, List.length_replicate]
    omega
  nul := List.mem_append_right _ (List.mem_replicate.mpr ⟨by omega, rfl⟩)

theorem cstr_inputOf {text : List UInt8} (h : text.length < ECHO_BUFFER_SIZE) (h0 : (0 : UInt8) ∉ text) :
    cstr (inputOf text h).buff = text := by
  obtain ⟨k, hk⟩ := Nat.exists_eq_add_of_lt h
  have hrest : ECHO_BUFFER_SIZE - text.length = k + 1 := by omega
  have hbuff : (inputOf text h).buff = text ++ 0 :: List.replicate k 0 := by
    rw [← List.replicate_succ, ← hrest]
    rfl
  rw [hbuff, cstr_append_nul h0]

/-- A method of twelve bytes: its NUL is stored behind the array. -/
theorem method_beyond_array :
    ¬Handles (cstr (inputOf (lit "ABCDEFGHIJKL /") (by decide)).buff) (.init (fun _ => 0) ECHO_BUFFER_SIZE)
      (httpParse (.init (fun _ => 0) ECHO_BUFFER_SIZE) (inputOf (lit "ABCDEFGHIJKL /") (by decide)).buff) := by
  have hs : cstr (inputOf (lit "ABCDEFGHIJKL /") (by decide)).buff = lit "ABCDEFGHIJKL" ++ 32 :: lit "/" :=
    (cstr_inputOf _ (by decide)).trans (by decide)
  exact fun h => (httpParse_handles_iff hs (by decide)).mp h (by decide)

end ZeroServ.Http
