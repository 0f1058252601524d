import ZeroServ.Buffer
import ZeroServ.Lib.Decimal
import ZeroServ.Lib.Run
import ZeroServ.PubSub.Server

/-!
# What an HTTP connection is sent

`http_psub_on_response` serializes a response and resets the output buffer before it writes it there, whether what
was in the buffer has been sent or not. `responses_whole_iff`: what was sent and what is still to be sent are all the
responses of a connection, in order and whole, exactly when every response finds the buffer sent.

The serialization of a JSON value is that of `parson.c`, a parameter here. The times of accounts and topics are zero
in the source too.
-/

namespace ZeroServ

open CString Decimal Run

/-! ## `http_response.h` -/

/-- `struct http_response`, its fields as names and values. -/
structure HttpResponse where
  errCode : Int
  mimeType : List UInt8
  content : List UInt8
  fields : List (List UInt8 × List UInt8)

/-- `err_msg` of `http_msg_response` -/
def errMsg (errCode : Int) : List UInt8 :=
  if errCode = 200 then lit "OK"
  else if errCode = 400 then lit "Bad Request"
  else if errCode = 401 then lit "Unauthorized"
  else if errCode = 403 then lit "Forbidden"
  else if errCode = 404 then lit "Not Found"
  else lit "Unknown"

/-- What the `snprintf` of `http_msg_response` prints. -/
def HttpResponse.head (rep : HttpResponse) : List UInt8 :=
  lit "HTTP/1.1 " ++ intText rep.errCode ++ lit " " ++ errMsg rep.errCode ++
    lit "\r\nServer: zeroser\r\nContent-Type: " ++ rep.mimeType ++
    lit "\r\nContent-Length: " ++ natText rep.content.length ++ lit "\r\n"

/-- `http_msg_response` into `max_len` bytes, `none` where it returns -1. -/
def httpMsgResponse (maxLen : Nat) (rep : HttpResponse) : Option (List UInt8) := do
  let buf ← (rep.fields ++ [(lit "Connection", lit "close")]).foldlM
    (fun buf field =>
      let fieldVal := field.1 ++ lit ": " ++ field.2 ++ lit "\r\n"
      if maxLen - 2 ≤ buf.length + fieldVal.length then none else some (buf ++ fieldVal))
    (rep.head.take (maxLen - 1))
  let buf := buf ++ lit "\r\n"
  if maxLen < buf.length + rep.content.length then none else some (buf ++ rep.content)

/-! ## `http_psub_on_response` -/

/-- A JSON value as it is handed to `parson.c`, the fields of an object in the order they were set. -/
inductive Json where
  | string (s : List UInt8)
  | number (n : Nat)
  | boolean (b : Bool)
  | array (l : List Json)
  | object (fields : List (List UInt8 × Json))

/-- `SESSION` -/
def SESSION : List UInt8 := lit "zchat"

/-- The value a call is answered with; `cookie` is the one handed out, if the call answers the login of an account.
The model passes a list with a list action only. -/
def jsonOf (cookie : Option (List UInt8)) (r : Response) : Json :=
  match r.action, r.content with
  | some .listTopic, .topics l =>
    .object
      [(lit "size", .number l.length),
        (lit "topics", .array (l.map fun top =>
          .object [(lit "name", .string top.name), (lit "members", .number top.members.length),
            (lit "last_active", .number 0)]))]
  | some .listUser, .members l =>
    .object
      [(lit "size", .number l.length),
        (lit "members", .array (l.map fun acc =>
          .object [(lit "name", .string acc.name), (lit "online", .boolean !acc.fds.isEmpty),
            (lit "last_active", .number 0)]))]
  | some .repSub, .text content =>
    match strchr content 58 with
    | some pos =>
      let username := content.take (content.length - pos.length)
      let pos := pos.drop 2
      let msg := pos.take (min (r.length - (content.length - pos.length)) 1024)
      .object [(lit "user", .string username), (lit "msg", .string msg)]
    | none => .object []
  | _, .text content => .object ((lit "msg", .string content) :: (cookie.toList.map fun c => (SESSION, .string c)))
  | _, _ => .object []

/-- An object of strings, as `parson.c` prints it where nothing needs an escape. -/
def printStrings : Json → List UInt8
  | .object fields =>
    lit "\x7b" ++
      (lit ",").intercalate (fields.map fun field =>
        lit "\"" ++ field.1 ++ lit "\":" ++ match field.2 with
          | .string s => lit "\"" ++ s ++ lit "\""
          | _ => []) ++ lit "\x7d"
  | _ => []

section serialization

variable (json : Json → List UInt8)

/-- The response to a call, as its header fields and its content. -/
def httpResponse (cookie : Option (List UInt8)) (r : Response) : HttpResponse where
  errCode := 200
  mimeType := lit "text/html; charset=UTF-8"
  content := json (jsonOf cookie r)
  fields :=
    (cookie.toList.map fun c => (lit "Set-Cookie", SESSION ++ lit "=" ++ c ++ lit "; Path=/")) ++
      [(lit "Access-Control-Allow-Methods", lit "GET, POST"), (lit "Access-Control-Allow-Credentials", lit "true"),
        (lit "Access-Control-Allow-Origin", lit "http://127.0.0.1:8000"),
        (lit "Access-Control-Allow-Headers", lit "Content-Type, *")]

/-- The complete serialized response to a call. -/
def serialized (cookie : Option (List UInt8)) (r : Response) : Option (List UInt8) :=
  httpMsgResponse 4096 (httpResponse json cookie r)

/-- A list of users is announced in the buffer before it is serialized. -/
def announce (b : Buffer) (r : Response) : Buffer :=
  match r.action, r.content with
  | some .listUser, .members l => (b.sprintf (lit "--- Members: " ++ natText l.length ++ lit " user\n")).1
  | _, _ => b

/-- `http_psub_on_response`, where the response was serialized: what its `buffer_write` leaves, returns and stores. -/
def httpPsubOnResponse (b : Buffer) (r : Response) (bytes : List UInt8) : Buffer × Int × List UInt8 :=
  (announce b r).reset.write (fun i => bytes.getD i 0) bytes.length

/-- `http_psub_write`, whose `send` takes `n` bytes, one at least. -/
def httpPsubWrite (b : Buffer) (n : Nat) : Buffer :=
  let b := { b with curr := b.curr + n }
  if b.empty then b.reset else b

/-! ## A connection -/

/-- The output buffer of a connection, what was sent from it, and the responses of all calls. -/
structure HttpOut where
  ob : Buffer
  sent : List UInt8
  queued : List UInt8

/-- A call of `on_response` for the connection, whoever's command makes it, or a `http_psub_write`. -/
inductive HttpCall where
  | respond (cookie : Option (List UInt8)) (r : Response)
  | write (n : Nat)

namespace HttpOut

/-- A connection that was accepted, over whatever `malloc` returned. -/
def init (mem : Nat → UInt8) : HttpOut := { ob := .init mem HTTP_BUFFER_SIZE, sent := [], queued := [] }

/-- One call. A response that could not be serialized has the length -1, which ends the process; a connection of
which `send` takes nothing is closed. -/
def step (o : HttpOut) : HttpCall → Option HttpOut
  | .respond cookie r =>
    (serialized json cookie r).map fun bytes =>
      { o with ob := (httpPsubOnResponse o.ob r bytes).1, queued := o.queued ++ bytes }
  | .write n =>
    if 0 < n ∧ n ≤ o.ob.pending.length then
      some { o with ob := httpPsubWrite o.ob n, sent := o.sent ++ o.ob.pending.take n }
    else none

/-- What was sent and what is still to be sent are the responses, in order and whole. -/
def Whole (o : HttpOut) : Prop := o.sent ++ o.ob.pending = o.queued

/-- A response fits the buffer. -/
def Fits (_ : HttpOut) (e : HttpCall) (_ : HttpOut) : Prop :=
  match e with
  | .respond cookie r => ∀ bytes ∈ serialized json cookie r, bytes.length < HTTP_BUFFER_SIZE
  | .write _ => True

/-- A response finds everything sent that was in the buffer. -/
def FindsSent (o : HttpOut) (e : HttpCall) (_ : HttpOut) : Prop :=
  match e with
  | .respond _ _ => o.ob.empty = true
  | .write _ => True

/-! ## Runs -/

variable {json}

/-- What is read is not past what was written, in a buffer of the size it was made with. -/
structure Sound (o : HttpOut) : Prop where
  curr_le : o.ob.curr ≤ o.ob.r
  total : o.ob.total = HTTP_BUFFER_SIZE
  whole : o.Whole

theorem empty_iff {b : Buffer} (h : b.curr ≤ b.r) : b.empty = true ↔ b.pending = [] := by
  rw [Buffer.empty, decide_eq_true_iff, Buffer.pending, List.map_eq_nil_iff, List.range_eq_nil]
  omega

theorem announce_total (b : Buffer) (r : Response) : (announce b r).total = b.total := by
  unfold announce
  split
  · exact (b.sprintf_r _).2.2
  · rfl

/-- What a call leaves in the buffer is its response. -/
theorem respond_pending {b : Buffer} {bytes : List UInt8} (ht : b.total = HTTP_BUFFER_SIZE)
    (hfit : bytes.length < HTTP_BUFFER_SIZE) (r : Response) :
    (httpPsubOnResponse b r bytes).1.pending = bytes ∧ (httpPsubOnResponse b r bytes).1.curr = 0 ∧
      (httpPsubOnResponse b r bytes).1.total = HTTP_BUFFER_SIZE := by
  have hsize : (announce b r).total = HTTP_BUFFER_SIZE := (announce_total b r).trans ht
  have hlt : (announce b r).total < 2147483648 := by
    rw [hsize, HTTP_BUFFER_SIZE]
    omega
  have hroom : bytes.length < (announce b r).total := by
    rw [hsize]
    exact hfit
  obtain ⟨hp, hc, -, ht'⟩ := (announce b r).pending_reset_write hlt hroom
  rw [httpPsubOnResponse]
  exact ⟨hp, hc, ht'.trans hsize⟩

/-- What is sent goes from the front of what is to be sent. -/
theorem write_pending {b : Buffer} {n : Nat} (hcr : b.curr ≤ b.r) (hn : n ≤ b.pending.length) :
    b.pending.take n ++ (httpPsubWrite b n).pending = b.pending ∧ (httpPsubWrite b n).curr ≤ (httpPsubWrite b n).r ∧
      (httpPsubWrite b n).total = b.total := by
  have hlen : n ≤ b.r - b.curr := by rwa [Buffer.pending, List.length_map, List.length_range] at hn
  have hsplit := b.pending_consume hlen
  unfold httpPsubWrite
  dsimp only
  split
  · next hempty =>
    have hnil := (empty_iff (b := { b with curr := b.curr + n }) (by dsimp only; omega)).mp hempty
    rw [hnil] at hsplit
    exact ⟨hsplit, Nat.le_refl _, rfl⟩
  · exact ⟨hsplit, by dsimp only; omega, rfl⟩

/-- What a response does to a connection. -/
theorem step_respond {o o' : HttpOut} {cookie : Option (List UInt8)} {r : Response} (hi : o.Sound)
    (hs : step json o (.respond cookie r) = some o') (hfit : Fits json o (.respond cookie r) o') :
    ∃ bytes b, o' = { ob := b, sent := o.sent, queued := o.queued ++ bytes } ∧ b.pending = bytes ∧ b.curr = 0 ∧
      b.total = HTTP_BUFFER_SIZE := by
  obtain ⟨bytes, hbytes, heq⟩ := Option.map_eq_some_iff.mp hs
  exact ⟨bytes, _, heq.symm, respond_pending hi.total (hfit bytes hbytes) r⟩

/-- A call keeps the responses whole, if a response finds everything sent. -/
theorem sound_step {o o' : HttpOut} {e : HttpCall} (hi : o.Sound) (hs : step json o e = some o')
    (hfit : Fits json o e o') (hsent : FindsSent o e o') : o'.Sound := by
  cases e with
  | respond cookie r =>
    obtain ⟨bytes, b, rfl, hp, hc, ht⟩ := step_respond hi hs hfit
    refine ⟨hc ▸ Nat.zero_le _, ht, ?_⟩
    have hnil : o.ob.pending = [] := (empty_iff hi.curr_le).mp hsent
    have hwhole : o.sent ++ o.ob.pending = o.queued := hi.whole
    rw [hnil, List.append_nil] at hwhole
    rw [Whole, hp, hwhole]
  | write n =>
    obtain ⟨⟨-, hn⟩, rfl⟩ := Option.ite_some_none_eq_some.mp hs
    obtain ⟨hp, hcr, ht⟩ := write_pending hi.curr_le hn
    refine ⟨hcr, ht.trans hi.total, ?_⟩
    rw [Whole, List.append_assoc, hp]
    exact hi.whole

/-- A response that leaves the responses whole has found everything sent. -/
theorem findsSent_of_whole {o o' : HttpOut} {e : HttpCall} (hi : o.Sound) (hs : step json o e = some o')
    (hfit : Fits json o e o') (hwhole : o'.Whole) : FindsSent o e o' := by
  cases e with
  | write n => trivial
  | respond cookie r =>
    obtain ⟨bytes, b, rfl, hp, -, -⟩ := step_respond hi hs hfit
    have hbefore : o.sent ++ o.ob.pending = o.queued := hi.whole
    rw [Whole, hp, ← hbefore] at hwhole
    have hsent : o.sent = o.sent ++ o.ob.pending := List.append_cancel_right hwhole
    exact (empty_iff hi.curr_le).mpr (List.self_eq_append_right.mp hsent)

theorem sound_init (mem : Nat → UInt8) : (init mem).Sound := by
  refine ⟨Nat.le_refl _, rfl, ?_⟩
  simp [Whole, init, Buffer.init, Buffer.pending]

/-- No response of a connection is lost or cut exactly when every one of them finds the ones before it sent. -/
theorem responses_whole_iff (json : Json → List UInt8) (mem : Nat → UInt8) (es : List HttpCall)
    (hfits : AllSteps (step json) (Fits json) (init mem) es) :
    AllStates (step json) Whole (init mem) es ↔ AllSteps (step json) FindsSent (init mem) es :=
  AllStates.iff_allSteps (I := Sound) (sound_init mem) (fun _ hi => hi.whole)
    (fun _ _ _ hi hs hfit hsent => sound_step hi hs hfit hsent)
    (fun _ _ _ hi hs hfit hwhole => findsSent_of_whole hi hs hfit hwhole) hfits

/-- The reply `success` to a command. -/
def succeeded : Response := { fd := 5, action := some .ack, content := .text (lit "success"), length := 7 }

instance (json : Json → List UInt8) (o : HttpOut) (e : HttpCall) (o' : HttpOut) : Decidable (Fits json o e o') := by
  unfold Fits
  split <;> infer_instance

instance (o : HttpOut) (e : HttpCall) (o' : HttpOut) : Decidable (FindsSent o e o') := by
  unfold FindsSent
  split <;> infer_instance

instance (o : HttpOut) : Decidable o.Whole := by
  unfold Whole
  infer_instance

/-- A reply sent in two parts before the next one. -/
theorem responses_whole_sent_first :
    AllStates (step printStrings) Whole (init fun _ => 0)
      [.respond none succeeded, .write 100, .write 212, .respond none succeeded] :=
  (responses_whole_iff _ _ _ (by decide +kernel)).mpr (by decide +kernel)

/-- A reply of which a part is sent when the next one comes: its other part is lost. -/
theorem responses_whole_half_sent :
    ¬AllStates (step printStrings) Whole (init fun _ => 0)
      [.respond none succeeded, .write 100, .respond none succeeded] := by
  intro h
  have hrun : (exec (step printStrings) (init fun _ => 0)
      [.respond none succeeded, .write 100, .respond none succeeded]).map
      (fun o => ((o.sent ++ o.ob.pending).length, o.queued.length)) = some (412, 624) := by decide +kernel
  obtain ⟨o, ho, hlen⟩ := Option.map_eq_some_iff.mp hrun
  obtain ⟨hleft, hqueued⟩ := Prod.mk.inj hlen
  rw [h.last ho, hqueued] at hleft
  nomatch hleft

end HttpOut

end serialization

end ZeroServ
