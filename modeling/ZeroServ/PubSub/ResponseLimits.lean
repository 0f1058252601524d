import ZeroServ.PubSub.HttpMessage

/-!
# Responses that do not fit

Both front ends put a response into the 1024 bytes of a connection's output buffer without a look at what
`buffer_write` answers. The plain one writes a text and the newline behind it one after the other: `reply_whole_iff`
says when both or neither get in. The HTTP one writes what `http_msg_response` has serialized, if it has:
`response_clean_iff` says how long a JSON document may be for that.
-/

namespace ZeroServ

open CString CInt Decimal

/-! ## `pubsub.c` -/

/-- `psub_on_response`, with what lies in memory behind a text. -/
def psubOnResponse (b : Buffer) (r : Response) (behind : Mem) : Buffer :=
  match r.action, r.content with
  | some .listTopic, .topics l =>
    l.foldl (fun b top => (b.sprintf (lit "> " ++ top.name ++ lit " : " ++ natText top.members.length ++
      lit " members\n")).1) (b.sprintf (lit "--- List: " ++ natText l.length ++ lit " topic\n")).1
  | some .listUser, .members l =>
    l.foldl (fun b acc => (b.sprintf (lit "> " ++ acc.name ++ lit " : " ++
      lit (if acc.fds.isEmpty then "Offline" else "Online") ++
      lit "\n")).1) (b.sprintf (lit "--- Members: " ++ natText l.length ++ lit " user\n")).1
  | _, .text bytes =>
    let b := (b.write (fun i => (bytes ++ behind).getD i 0) r.length).1
    (b.write (fun _ => 10) 1).1
  | _, _ => b

/-- The text of a response: as many bytes as its length says. -/
def Response.text (r : Response) (bytes behind : Mem) : List UInt8 :=
  (List.range r.length).map fun i => (bytes ++ behind).getD i 0

/-- A line is appended to the buffer or the buffer stays as it is, and it is appended if it fits. -/
def WholeOrNot (b b' : Buffer) (line : List UInt8) : Prop :=
  (b' = b.appended line ∨ b' = b) ∧ (line.length ≤ b.remainWrite → b' = b.appended line)

theorem Response.text_length (r : Response) (bytes behind : Mem) : (r.text bytes behind).length = r.length := by
  rw [Response.text, List.length_map, List.length_range]

/-- The four ways the two writes of a reply can go. -/
theorem psubOnResponse_text {r : Response} {bytes : List UInt8} (hc : r.content = .text bytes) (b : Buffer)
    (behind : Mem) :
    psubOnResponse b r behind =
      if b.remainWrite ≤ r.length then (if b.remainWrite ≤ 1 then b else b.appended [10])
      else if b.remainWrite - r.length ≤ 1 then b.appended (r.text bytes behind)
      else b.appended (r.text bytes behind ++ [10]) := by
  have hwrite : psubOnResponse b r behind =
      ((b.write (fun i => (bytes ++ behind).getD i 0) r.length).1.write (fun _ => 10) 1).1 := by
    unfold psubOnResponse
    rw [hc]
    split <;> first | rfl | simp_all
  have hlen := r.text_length bytes behind
  rw [hwrite, Buffer.write_eq, Buffer.write_eq, ← Response.text]
  by_cases hfull : b.remainWrite ≤ r.length
  · simp only [hfull, if_true]
    rfl
  · simp only [hfull, if_false]
    rw [Buffer.remainWrite_appended b (by omega), Buffer.appended_append, hlen]
    rfl

/-- A reply is queued whole or not at all exactly if a byte is to spare behind it and its newline, or the newline has
no room of its own and the text has none either. -/
theorem reply_whole_iff {r : Response} {bytes : List UInt8} (hc : r.content = .text bytes) (b : Buffer) (behind : Mem) :
    WholeOrNot b (psubOnResponse b r behind) (r.text bytes behind ++ [10]) ↔
      r.length + 2 ≤ b.remainWrite ∨ (b.remainWrite ≤ 1 ∧ b.remainWrite ≤ r.length) := by
  have hlen := r.text_length bytes behind
  have hline : (r.text bytes behind ++ [10]).length = r.length + 1 := by
    rw [List.length_append, hlen, List.length_singleton]
  -- what is appended shows in where the buffer ends
  have hr : ∀ x y : List UInt8, b.appended x = b.appended y → x.length = y.length := by
    intro x y h
    exact Nat.add_left_cancel (congrArg Buffer.r h)
  have hb : ∀ x : List UInt8, b.appended x = b → x.length = 0 := by
    intro x h
    exact hr x [] (h.trans b.appended_nil.symm)
  rw [psubOnResponse_text hc, WholeOrNot, hline]
  by_cases hfull : b.remainWrite ≤ r.length
  · by_cases hone : b.remainWrite ≤ 1
    · rw [if_pos hfull, if_pos hone]
      exact ⟨fun _ => .inr ⟨hone, hfull⟩, fun _ => ⟨.inr rfl, fun h => by omega⟩⟩
    · -- the newline gets in alone
      rw [if_pos hfull, if_neg hone]
      refine ⟨fun ⟨h, _⟩ => ?_, fun h => by omega⟩
      rcases h with h | h
      · have := hr _ _ h
        rw [hline, List.length_singleton] at this
        omega
      · exact absurd (hb _ h) (by decide)
  · by_cases hlast : b.remainWrite - r.length ≤ 1
    · -- the text gets in without its newline
      rw [if_neg hfull, if_pos hlast]
      refine ⟨fun ⟨_, h⟩ => ?_, fun h => by omega⟩
      have := hr _ _ (h (by omega))
      rw [hline, hlen] at this
      omega
    · rw [if_neg hfull, if_neg hlast]
      exact ⟨fun _ => .inl (by omega), fun _ => ⟨.inl rfl, fun _ => rfl⟩⟩

/-- The reply `success` in a fresh buffer. -/
theorem reply_whole_success :
    WholeOrNot (.init (fun _ => 0) HTTP_BUFFER_SIZE)
      (psubOnResponse (.init (fun _ => 0) HTTP_BUFFER_SIZE) HttpOut.succeeded [])
      (HttpOut.succeeded.text (lit "success") [] ++ [10]) :=
  (reply_whole_iff rfl _ _).mpr (.inl (by decide))

/-- A message of 1006 bytes, as it is published by an account with a name of 15. -/
def longText : List UInt8 := lit "abcdefghijklmno: " ++ List.replicate 1006 109

/-- Its publication to a connection that has nothing to be sent. -/
def longPublication : Response := { fd := 5, action := some .repSub, content := .text longText, length := 1023 }

/-- It gets into the fresh buffer without its newline. -/
theorem reply_torn :
    ¬WholeOrNot (.init (fun _ => 0) HTTP_BUFFER_SIZE)
      (psubOnResponse (.init (fun _ => 0) HTTP_BUFFER_SIZE) longPublication [])
      (longPublication.text longText [] ++ [10]) := by
  rintro ⟨-, h⟩
  have hline : (longPublication.text longText [] ++ [10]).length = 1024 := by
    rw [List.length_append, Response.text_length]
    rfl
  have hend : (psubOnResponse (.init (fun _ => 0) HTTP_BUFFER_SIZE) longPublication []).r = 1023 := by decide +kernel
  rw [h (by rw [hline]; decide), Buffer.appended, hline] at hend
  cases hend

/-! ## `http_pubsub.c` -/

/-- `buffer_write` of a length that may be negative: the length its `memcpy` is called with, if it gets there, and
the buffer it leaves. A negative length is more than any memory as a `size_t`: the process ends. -/
def Buffer.writeInt (b : Buffer) (content : Nat → UInt8) (length : Int) : Option Int × Option Buffer :=
  if b.remainWrite ≤ length then (none, some b)
  else if length < 0 then (some length, none)
  else (some length, some (b.write content length.toNat).1)

section http

variable (json : Json → List UInt8)

/-- `http_psub_on_response`, with what `http_msg_response` returned: `buffer_write` is called with that as the
length. -/
def httpPsubAnswer (b : Buffer) (cookie : Option (List UInt8)) (r : Response) : Option Int × Option Buffer :=
  let bytes := serialized json cookie r
  (announce b r).reset.writeInt (fun i => (bytes.getD []).getD i 0) (bytes.elim (-1) fun bytes => bytes.length)

/-- The response is queued to its end or the buffer is as it was; no negative length is copied, and what `WR_ENABLE`
is called for is not empty. -/
structure Clean (b : Buffer) (cookie : Option (List UInt8)) (r : Response) : Prop where
  whole : (∃ ob, (httpPsubAnswer json b cookie r).2 = some ob ∧ (httpResponse json cookie r).text <:+ ob.pending) ∨
    (httpPsubAnswer json b cookie r).2 = some b
  length : ∀ n ∈ (httpPsubAnswer json b cookie r).1, 0 ≤ n
  enabled : ∀ ob ∈ (httpPsubAnswer json b cookie r).2, ob.empty = false

/-- The length of the line that sets the cookie. -/
def cookieLine (cookie : Option (List UInt8)) : Nat := cookie.elim 0 fun c => 28 + c.length

/-- The header fields of every response, as lines. -/
def accessControl : List UInt8 :=
  ([(lit "Access-Control-Allow-Methods", lit "GET, POST"), (lit "Access-Control-Allow-Credentials", lit "true"),
    (lit "Access-Control-Allow-Origin", lit "http://127.0.0.1:8000"),
    (lit "Access-Control-Allow-Headers", lit "Content-Type, *"),
    (lit "Connection", lit "close")].map fieldLine).flatten

/-- What a response has besides its JSON document. -/
theorem httpResponse_text_length (cookie : Option (List UInt8)) (r : Response) :
    (httpResponse json cookie r).text.length =
      293 + cookieLine cookie + (natText (json (jsonOf cookie r)).length).length + (json (jsonOf cookie r)).length := by
  have hhead : (httpResponse json cookie r).head = lit "HTTP/1.1 " ++ intText 200 ++ lit " " ++ errMsg 200 ++
      lit "\r\nServer: zeroser\r\nContent-Type: " ++ lit "text/html; charset=UTF-8" ++ lit "\r\nContent-Length: " ++
      natText (json (jsonOf cookie r)).length ++ lit "\r\n" := rfl
  have hstart : (lit "HTTP/1.1 " ++ intText 200 ++ lit " " ++ errMsg 200 ++
      lit "\r\nServer: zeroser\r\nContent-Type: " ++
      lit "text/html; charset=UTF-8" ++ lit "\r\nContent-Length: ").length = 90 := by decide +kernel
  have hcookie : ((cookie.toList.map fun c => (lit "Set-Cookie", SESSION ++ lit "=" ++ c ++ lit "; Path=/")).map
      fieldLine).flatten.length = cookieLine cookie := by
    cases cookie with
    | none => rfl
    | some c =>
      simp [fieldLine, cookieLine, SESSION, lit]
      omega
  have hfields : ((httpResponse json cookie r).allFields.map fieldLine).flatten.length =
      cookieLine cookie + accessControl.length := by
    rw [← hcookie, accessControl, ← List.length_append, ← List.flatten_append, ← List.map_append,
      HttpResponse.allFields]
    simp only [httpResponse, List.append_assoc]
    rfl
  have hcrlf : (lit "\r\n").length = 2 := by decide
  have haccess : accessControl.length = 199 := by decide +kernel
  rw [HttpResponse.text, HttpResponse.lines, hhead]
  simp only [List.length_append] at hstart ⊢
  rw [hfields, haccess, hcrlf]
  have hcontent : (httpResponse json cookie r).content = json (jsonOf cookie r) := rfl
  rw [hcontent]
  omega

/-- What is serialized at all is the whole response. -/
theorem serialized_cases (cookie : Option (List UInt8)) (r : Response) :
    (serialized json cookie r = some (httpResponse json cookie r).text) ∨
      (serialized json cookie r = none ∧ HTTP_BUFFER_SIZE ≤ (httpResponse json cookie r).text.length) := by
  have hle : (httpResponse json cookie r).lines.length ≤ (httpResponse json cookie r).text.length := by
    rw [HttpResponse.text, List.append_assoc, List.length_append]
    exact Nat.le_add_right ..
  rw [serialized, httpMsgResponse_eq, HTTP_BUFFER_SIZE]
  split
  · exact .inr ⟨rfl, by omega⟩
  · exact .inl rfl

theorem remainWrite_reset {b : Buffer} (ht : b.total = HTTP_BUFFER_SIZE) (r : Response) :
    (announce b r).reset.remainWrite = HTTP_BUFFER_SIZE := by
  have hsize : (announce b r).reset.total = HTTP_BUFFER_SIZE := (HttpOut.announce_total b r).trans ht
  rw [Buffer.remainWrite, hsize]
  rfl

variable {json}

/-- A response is answered cleanly exactly if its JSON document, the digits of its length and the line that sets the
cookie come to 730 bytes at most. -/
theorem response_clean_iff {b : Buffer} (ht : b.total = HTTP_BUFFER_SIZE) (cookie : Option (List UInt8))
    (r : Response) :
    Clean json b cookie r ↔
      cookieLine cookie + (natText (json (jsonOf cookie r)).length).length + (json (jsonOf cookie r)).length ≤ 730 := by
  have hlen := httpResponse_text_length json cookie r
  have hroom := remainWrite_reset ht r
  have hsize : (HTTP_BUFFER_SIZE : Int) = 1024 := rfl
  constructor
  · intro h
    by_contra hlong
    rcases serialized_cases json cookie r with hs | ⟨hs, -⟩
    · -- the buffer refuses the response once it is empty
      have hanswer : httpPsubAnswer json b cookie r = (none, some (announce b r).reset) := by
        rw [httpPsubAnswer, hs]
        simp only [Option.elim_some]
        rw [Buffer.writeInt, hroom, if_pos (by omega)]
      have hempty := h.enabled _ (by rw [hanswer]; rfl)
      rw [Buffer.empty, Buffer.reset] at hempty
      cases hempty
    · have hanswer : httpPsubAnswer json b cookie r = (some (-1), none) := by
        rw [httpPsubAnswer, hs]
        simp only [Option.elim_none]
        rw [Buffer.writeInt, hroom, if_neg (by omega), if_pos (by omega)]
      have hneg := h.length (-1) (by rw [hanswer]; rfl)
      omega
  · intro hfit
    have hs := (serialized_cases json cookie r).resolve_right (by
      rintro ⟨-, h⟩
      rw [HTTP_BUFFER_SIZE] at h
      omega)
    have hshort : (httpResponse json cookie r).text.length < HTTP_BUFFER_SIZE := by
      rw [HTTP_BUFFER_SIZE]
      omega
    have hanswer : httpPsubAnswer json b cookie r =
        (some ((httpResponse json cookie r).text.length : Int),
        some (httpPsubOnResponse b r (httpResponse json cookie r).text).1) := by
      rw [httpPsubAnswer, hs]
      simp only [Option.elim_some, Option.getD_some]
      rw [Buffer.writeInt, hroom, if_neg (by omega), if_neg (by omega), Int.toNat_natCast]
      rfl
    obtain ⟨hpending, hcurr, -⟩ := HttpOut.respond_pending ht hshort r
    refine ⟨.inl ⟨_, by rw [hanswer], by rw [hpending]⟩, ?_, ?_⟩
    · rw [hanswer]
      intro n hn
      obtain rfl := Option.some.inj hn
      omega
    · rw [hanswer]
      intro ob hob
      obtain rfl := Option.some.inj hob
      have hne : (httpPsubOnResponse b r (httpResponse json cookie r).text).1.pending ≠ [] := by
        rw [hpending]
        exact List.ne_nil_of_length_pos (by omega)
      rw [Bool.eq_false_iff]
      exact mt (HttpOut.empty_iff (by rw [hcurr]; exact Nat.zero_le _)).mp hne

/-- The reply `success` in a fresh buffer. -/
theorem response_clean_success : Clean printStrings (.init (fun _ => 0) HTTP_BUFFER_SIZE) none HttpOut.succeeded :=
  (response_clean_iff rfl none HttpOut.succeeded).mpr (by decide +kernel)

/-- A publication of 710 bytes to a connection that has nothing to be sent. -/
def longMessage : Response :=
  { fd := 5, action := some .repSub, content := .text (lit "a: " ++ List.replicate 710 109), length := 713 }

/-- Its response does not get into the buffer, which is empty when it is to be written. -/
theorem response_unclean : ¬Clean printStrings (.init (fun _ => 0) HTTP_BUFFER_SIZE) none longMessage := by
  intro h
  have hempty : (httpPsubAnswer printStrings (.init (fun _ => 0) HTTP_BUFFER_SIZE) none longMessage).2.map
      Buffer.empty = some true := by
    decide +kernel
  obtain ⟨ob, hob, hem⟩ := Option.map_eq_some_iff.mp hempty
  rw [h.enabled ob hob] at hem
  nomatch hem

end http

end ZeroServ
