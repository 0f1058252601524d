import Mathlib.Algebra.Group.Nat.Defs
import ZeroServ.Lib.CString

/-!
# The states of the HTTP parser

`http_parser.c`: what a parser holds, and the cases of the switch of `http_parser_execute` that look at one byte
(`oneByte`). A case is a new parser, what is done with marks and callbacks on the way (`Act`), and how it is left
(`Turn`); the five cases that read on have their places in `Parser/Execute`. The callbacks return 0, as those of
`http_pubsub.c` do.
-/

namespace ZeroServ.Parser

open CString

/-- `enum http_parser_type` -/
inductive ParserType where
  | request | response | both
  deriving DecidableEq, Repr

/-- `enum http_method` -/
inductive Method where
  | delete | get | head | post | put | connect | options | trace | copy | lock | mkcol | move | propfind | proppatch
  | search | unlock | report
  | mkactivity | checkout | merge | msearch | notify | subscribe | unsubscribe | patch | purge | mkcalendar
  deriving DecidableEq, Repr

/-- `method_strings` -/
def Method.string : Method → List UInt8
  | delete => lit "DELETE"
  | get => lit "GET"
  | head => lit "HEAD"
  | post => lit "POST"
  | put => lit "PUT"
  | connect => lit "CONNECT"
  | options => lit "OPTIONS"
  | trace => lit "TRACE"
  | copy => lit "COPY"
  | lock => lit "LOCK"
  | mkcol => lit "MKCOL"
  | move => lit "MOVE"
  | propfind => lit "PROPFIND"
  | proppatch => lit "PROPPATCH"
  | search => lit "SEARCH"
  | unlock => lit "UNLOCK"
  | report => lit "REPORT"
  | mkactivity => lit "MKACTIVITY"
  | checkout => lit "CHECKOUT"
  | merge => lit "MERGE"
  | msearch => lit "M-SEARCH"
  | notify => lit "NOTIFY"
  | subscribe => lit "SUBSCRIBE"
  | unsubscribe => lit "UNSUBSCRIBE"
  | patch => lit "PATCH"
  | purge => lit "PURGE"
  | mkcalendar => lit "MKCALENDAR"

/-- `enum flags` -/
structure Flags where
  chunked : Bool := false
  connectionKeepAlive : Bool := false
  connectionClose : Bool := false
  connectionUpgrade : Bool := false
  trailing : Bool := false
  upgrade : Bool := false
  skipbody : Bool := false
  deriving DecidableEq, Repr

/-- `enum http_errno`, without the errors of callbacks and those of URLs. -/
inductive Errno where
  | ok | invalidEofState | headerOverflow | closedConnection | invalidVersion | invalidStatus | invalidMethod
  | invalidUrl | lfExpected
  | invalidHeaderToken | invalidContentLength | invalidChunkSize | invalidConstant | strict
  deriving DecidableEq, Repr

/-- `enum state` -/
inductive State where
  | dead
  | startReqOrRes | resOrRespH | startRes | resH | resHT | resHTT | resHTTP | resFirstHttpMajor | resHttpMajor
  | resFirstHttpMinor
  | resHttpMinor | resFirstStatusCode | resStatusCode | resStatusStart | resStatus | resLineAlmostDone
  | startReq | reqMethod | reqSpacesBeforeUrl | reqSchema | reqSchemaSlash | reqSchemaSlashSlash
  | reqServerStart | reqServer
  | reqServerWithAt | reqPath | reqQueryStringStart | reqQueryString | reqFragmentStart | reqFragment | reqHttpStart
  | reqHttpH | reqHttpHT
  | reqHttpHTT | reqHttpHTTP | reqFirstHttpMajor | reqHttpMajor | reqFirstHttpMinor | reqHttpMinor | reqLineAlmostDone
  | headerFieldStart | headerField | headerValueDiscardWs | headerValueDiscardWsAlmostDone | headerValueDiscardLws
  | headerValueStart
  | headerValue | headerValueLws | headerAlmostDone
  | chunkSizeStart | chunkSize | chunkParameters | chunkSizeAlmostDone
  | headersAlmostDone | headersDone
  | chunkData | chunkDataAlmostDone | chunkDataDone | bodyIdentity | bodyIdentityEof | messageDone
  deriving DecidableEq, Repr

/-- `PARSING_HEADER` -/
def State.parsingHeader : State → Bool
  | chunkData | chunkDataAlmostDone | chunkDataDone | bodyIdentity | bodyIdentityEof | messageDone => false
  | _ => true

/-- `enum header_states`, with `h_` for the names that Lean has. -/
inductive HeaderState where
  | general | c | co | con
  | matchingConnection | matchingProxyConnection | matchingContentLength | matchingTransferEncoding | matchingUpgrade
  | connection | contentLength | transferEncoding | upgrade
  | matchingTransferEncodingChunked | matchingConnectionTokenStart | matchingConnectionKeepAlive
  | matchingConnectionClose
  | matchingConnectionUpgrade | matchingConnectionToken
  | transferEncodingChunked | connectionKeepAlive | connectionClose | connectionUpgrade
  deriving DecidableEq, Repr

/-- `ULLONG_MAX` -/
def ullongMax : UInt64 := 0xFFFFFFFFFFFFFFFF

/-- `struct http_parser` without `nread` and `http_errno`. -/
structure Core where
  type : ParserType := .request
  flags : Flags := {}
  state : State := .startReq
  headerState : HeaderState := .general
  index : UInt8 := 0
  contentLength : UInt64 := 0
  httpMajor : UInt16 := 0
  httpMinor : UInt16 := 0
  statusCode : UInt16 := 0
  method : Method := .delete
  upgrade : Bool := false
  deriving DecidableEq, Repr

/-! ## Characters -/

/-- `CR` -/
def cr : UInt8 := 13

/-- `LF` -/
def lf : UInt8 := 10

/-- `LOWER` -/
def lower (c : UInt8) : UInt8 := c ||| 0x20

/-- `IS_ALPHA` -/
def isAlpha (c : UInt8) : Bool := 'a'.toUInt8 ≤ lower c && lower c ≤ 'z'.toUInt8

/-- `IS_NUM` -/
def isNum (c : UInt8) : Bool := '0'.toUInt8 ≤ c && c ≤ '9'.toUInt8

/-- `IS_MARK` -/
def isMark (c : UInt8) : Bool := c ∈ lit "-_.!~*'()"

/-- `IS_USERINFO_CHAR` -/
def isUserinfoChar (c : UInt8) : Bool := isAlpha c || isNum c || isMark c || c ∈ lit "%;:&=+$,"

/-- `TOKEN`: the character in lower case, 0 if it is none of a token. -/
def token (c : UInt8) : UInt8 :=
  if 'A'.toUInt8 ≤ c && c ≤ 'Z'.toUInt8 then lower c
  else if 'a'.toUInt8 ≤ c && c ≤ 'z'.toUInt8 || isNum c || c ∈ lit "!#$%&'*+-.^_\x60|~" then c
  else 0

/-- `IS_URL_CHAR`: the bits of `normal_url_char`. -/
def isUrlChar (c : UInt8) : Bool := 0x21 ≤ c && c ≤ 0x7E && c != '#'.toUInt8 && c != '?'.toUInt8

/-- `unhex`: the table gives values to half of the bytes, so that the others are 0, a digit. -/
def unhex (c : UInt8) : Option UInt64 :=
  if 0x80 ≤ c then some 0
  else if isNum c then some (c - '0'.toUInt8).toUInt64
  else if 'a'.toUInt8 ≤ lower c && lower c ≤ 'f'.toUInt8 then some (lower c - 'a'.toUInt8 + 10).toUInt64
  else none

/-! ## Parts of the cases -/

/-- `parse_url_char` -/
def parseUrlChar (s : State) (ch : UInt8) : State :=
  if ch = ' '.toUInt8 ∨ ch = cr ∨ ch = lf then .dead
  -- tabulator and form feed
  else if ch = 9 ∨ ch = 12 then .dead
  else
    match s with
    | .reqSpacesBeforeUrl =>
        if ch = '/'.toUInt8 ∨ ch = '*'.toUInt8 then .reqPath else if isAlpha ch then .reqSchema else .dead
    | .reqSchema => if isAlpha ch then s else if ch = ':'.toUInt8 then .reqSchemaSlash else .dead
    | .reqSchemaSlash => if ch = '/'.toUInt8 then .reqSchemaSlashSlash else .dead
    | .reqSchemaSlashSlash => if ch = '/'.toUInt8 then .reqServerStart else .dead
    | .reqServerWithAt | .reqServerStart | .reqServer =>
      if s = .reqServerWithAt ∧ ch = '@'.toUInt8 then .dead
      else if ch = '/'.toUInt8 then .reqPath
      else if ch = '?'.toUInt8 then .reqQueryStringStart
      else if ch = '@'.toUInt8 then .reqServerWithAt
      else if isUserinfoChar ch || ch = '['.toUInt8 || ch = ']'.toUInt8 then .reqServer
      else .dead
    | .reqPath =>
      if isUrlChar ch then s else if ch = '?'.toUInt8 then .reqQueryStringStart
      else if ch = '#'.toUInt8 then .reqFragmentStart else .dead
    | .reqQueryStringStart | .reqQueryString =>
      if isUrlChar ch then .reqQueryString
      else if ch = '?'.toUInt8 then .reqQueryString
      else if ch = '#'.toUInt8 then .reqFragmentStart
      else .dead
    | .reqFragmentStart => if isUrlChar ch then .reqFragment else if ch = '?'.toUInt8 then .reqFragment else
      if ch = '#'.toUInt8 then s else .dead
    | .reqFragment => if isUrlChar ch then s else if ch = '?'.toUInt8 ∨ ch = '#'.toUInt8 then s else .dead
    | _ => .dead

/-- The method that a first letter may begin. -/
def methodOf (ch : UInt8) : Option Method :=
  if ch = 'C'.toUInt8 then some .connect
  else if ch = 'D'.toUInt8 then some .delete
  else if ch = 'G'.toUInt8 then some .get
  else if ch = 'H'.toUInt8 then some .head
  else if ch = 'L'.toUInt8 then some .lock
  else if ch = 'M'.toUInt8 then some .mkcol
  else if ch = 'N'.toUInt8 then some .notify
  else if ch = 'O'.toUInt8 then some .options
  else if ch = 'P'.toUInt8 then some .post
  else if ch = 'R'.toUInt8 then some .report
  else if ch = 'S'.toUInt8 then some .subscribe
  else if ch = 'T'.toUInt8 then some .trace
  else if ch = 'U'.toUInt8 then some .unlock
  else none

/-- The method that a letter turns another one into, where it is not the next letter of that one. -/
def otherMethod (method : Method) (index ch : UInt8) : Option Method :=
  if method = .connect then
    if index = 1 ∧ ch = 'H'.toUInt8 then some .checkout else if index = 2 ∧ ch = 'P'.toUInt8 then some .copy else none
  else if method = .mkcol then
    if index = 1 ∧ ch = 'O'.toUInt8 then some .move
    else if index = 1 ∧ ch = 'E'.toUInt8 then some .merge
    else if index = 1 ∧ ch = '-'.toUInt8 then some .msearch
    else if index = 2 ∧ ch = 'A'.toUInt8 then some .mkactivity
    else if index = 3 ∧ ch = 'A'.toUInt8 then some .mkcalendar
    else none
  else if method = .subscribe then if index = 1 ∧ ch = 'E'.toUInt8 then some .search else none
  else if index = 1 ∧ method = .post then
    if ch = 'R'.toUInt8 then some .propfind
    else if ch = 'U'.toUInt8 then some .put
    else if ch = 'A'.toUInt8 then some .patch
    else none
  else if index = 2 then
    if method = .put then if ch = 'R'.toUInt8 then some .purge else none
    else if method = .unlock then if ch = 'S'.toUInt8 then some .unsubscribe else none
    else none
  else if index = 4 ∧ method = .propfind ∧ ch = 'P'.toUInt8 then some .proppatch
  else none

/-- `http_message_needs_eof` -/
def Core.messageNeedsEof (q : Core) : Bool :=
  if q.type = .request then false
  else if q.statusCode / 100 = 1 ∨ q.statusCode = 204 ∨ q.statusCode = 304 ∨ q.flags.skipbody then false
  else if q.flags.chunked ∨ q.contentLength ≠ ullongMax then false
  else true

/-- `http_should_keep_alive` -/
def Core.shouldKeepAlive (q : Core) : Bool :=
  if 0 < q.httpMajor ∧ 0 < q.httpMinor then !q.flags.connectionClose && !q.messageNeedsEof
  else q.flags.connectionKeepAlive && !q.messageNeedsEof

/-- `NEW_MESSAGE` -/
def Core.newMessage (q : Core) : State :=
  if q.shouldKeepAlive then if q.type = .request then .startReq else .startRes else .dead

/-- The flags that a finished header sets. -/
def Flags.finish (f : Flags) : HeaderState → Flags
  | .connectionKeepAlive => { f with connectionKeepAlive := true }
  | .connectionClose => { f with connectionClose := true }
  | .transferEncodingChunked => { f with chunked := true }
  | .connectionUpgrade => { f with connectionUpgrade := true }
  | _ => f

/-! ## The cases of one byte -/

/-- What a data callback is for. -/
inductive Datum where
  | url | status | headerField | headerValue | body
  deriving DecidableEq, Repr

/-- What a notification is for. -/
inductive Note where
  | messageBegin | headersComplete | messageComplete | chunkHeader | chunkComplete
  deriving DecidableEq, Repr

/-- What a case does besides changing the parser. -/
inductive Act where
  /-- `MARK` -/
  | mark (d : Datum)
  /-- `CALLBACK_DATA`, up to the byte -/
  | data (d : Datum)
  /-- `CALLBACK_DATA_`, with the byte -/
  | dataWith (d : Datum)
  /-- `CALLBACK_NOTIFY` -/
  | notify (n : Note)
  /-- `nread = 0` -/
  | clear
  /-- `assert(nread == 1)` -/
  | check
  deriving DecidableEq, Repr

/-- How a case is left. -/
inductive Turn where
  /-- `break`: the next byte is next -/
  | next (q : Core) (acts : List Act)
  /-- `REEXECUTE` -/
  | again (q : Core) (acts : List Act)
  /-- `RETURN((p - data) + 1)` -/
  | exit (q : Core) (acts : List Act)
  /-- `goto error` -/
  | error (q : Core) (acts : List Act) (e : Errno)
  /-- an assertion fails -/
  | abort
  deriving DecidableEq, Repr

/-- `STRICT_CHECK` and a state -/
def expect (q : Core) (ch expected : UInt8) (s : State) : Turn :=
  if ch ≠ expected then .error q [] .strict else .next { q with state := s } []

/-- The digits of a version; `done` are the bytes behind them, with their states. -/
def version (q : Core) (ch : UInt8) (done : List (UInt8 × State)) (n : UInt16) (set : UInt16 → Core) : Turn :=
  match done.lookup ch with
  | some s => .next { q with state := s } []
  | none =>
    if !isNum ch then .error q [] .invalidVersion
    else
      let n := n * 10 + (ch - '0'.toUInt8).toUInt16
      if 999 < n then .error (set n) [] .invalidVersion else .next (set n) []

/-- `s_header_value_start` -/
def valueStart (q : Core) (ch : UInt8) : Turn :=
  let c := lower ch
  let q := { q with state := .headerValue, index := 0 }
  match q.headerState with
  | .upgrade => .next { q with flags := { q.flags with upgrade := true }, headerState := .general } [.mark .headerValue]
  | .transferEncoding =>
    .next { q with headerState := if c = 'c'.toUInt8 then .matchingTransferEncodingChunked else .general }
      [.mark .headerValue]
  | .contentLength =>
    if !isNum ch then .error q [.mark .headerValue] .invalidContentLength
    else .next { q with contentLength := (ch - '0'.toUInt8).toUInt64 } [.mark .headerValue]
  | .connection =>
    .next { q with
      headerState :=
        if c = 'k'.toUInt8 then .matchingConnectionKeepAlive
        else if c = 'c'.toUInt8 then .matchingConnectionClose
        else if c = 'u'.toUInt8 then .matchingConnectionUpgrade
        else .matchingConnectionToken } [.mark .headerValue]
  | .matchingConnectionTokenStart => .next q [.mark .headerValue]
  | _ => .next { q with headerState := .general } [.mark .headerValue]

/-- The cases of `http_parser_execute` that look at one byte. -/
def oneByte (q : Core) (ch : UInt8) : Turn :=
  match q.state with
  | .dead => if ch = cr ∨ ch = lf then .next q [] else .error q [] .closedConnection
  | .startReqOrRes =>
    if ch = cr ∨ ch = lf then .next q []
    else
      let q := { q with flags := {}, contentLength := ullongMax }
      if ch = 'H'.toUInt8 then .next { q with state := .resOrRespH } [.notify .messageBegin]
      else .again { q with type := .request, state := .startReq } []
  | .resOrRespH =>
    if ch = 'T'.toUInt8 then .next { q with type := .response, state := .resHT } []
    else if ch ≠ 'E'.toUInt8 then .error q [] .invalidConstant
    else .next { q with type := .request, method := .head, index := 2, state := .reqMethod } []
  | .startRes =>
    let q := { q with flags := {}, contentLength := ullongMax }
    if ch = 'H'.toUInt8 then .next { q with state := .resH } [.notify .messageBegin]
    else if ch = cr ∨ ch = lf then .next q [.notify .messageBegin]
    else .error q [] .invalidConstant
  | .resH => expect q ch 'T'.toUInt8 .resHT
  | .resHT => expect q ch 'T'.toUInt8 .resHTT
  | .resHTT => expect q ch 'P'.toUInt8 .resHTTP
  | .resHTTP => expect q ch '/'.toUInt8 .resFirstHttpMajor
  | .resFirstHttpMajor =>
    if !isNum ch then .error q [] .invalidVersion
    else .next { q with httpMajor := (ch - '0'.toUInt8).toUInt16, state := .resHttpMajor } []
  | .resHttpMajor => version q ch [('.'.toUInt8, .resFirstHttpMinor)] q.httpMajor fun n => { q with httpMajor := n }
  | .resFirstHttpMinor =>
    if !isNum ch then .error q [] .invalidVersion
    else .next { q with httpMinor := (ch - '0'.toUInt8).toUInt16, state := .resHttpMinor } []
  | .resHttpMinor => version q ch [(' '.toUInt8, .resFirstStatusCode)] q.httpMinor fun n => { q with httpMinor := n }
  | .resFirstStatusCode =>
    if !isNum ch then if ch = ' '.toUInt8 then .next q [] else .error q [] .invalidStatus
    else .next { q with statusCode := (ch - '0'.toUInt8).toUInt16, state := .resStatusCode } []
  | .resStatusCode =>
    if !isNum ch then
      if ch = ' '.toUInt8 then .next { q with state := .resStatusStart } []
      else if ch = cr then .next { q with state := .resLineAlmostDone } []
      else if ch = lf then .next { q with state := .headerFieldStart } []
      else .error q [] .invalidStatus
    else
      let n := q.statusCode * 10 + (ch - '0'.toUInt8).toUInt16
      if 999 < n then .error { q with statusCode := n } [] .invalidStatus else .next { q with statusCode := n } []
  | .resStatusStart =>
    if ch = cr then .next { q with state := .resLineAlmostDone } []
    else if ch = lf then .next { q with state := .headerFieldStart } []
    else .next { q with state := .resStatus, index := 0 } [.mark .status]
  | .resStatus =>
    if ch = cr then .next { q with state := .resLineAlmostDone } [.data .status]
    else if ch = lf then .next { q with state := .headerFieldStart } [.data .status]
    else .next q []
  | .resLineAlmostDone => expect q ch lf .headerFieldStart
  | .startReq =>
    if ch = cr ∨ ch = lf then .next q []
    else
      let q := { q with flags := {}, contentLength := ullongMax }
      if !isAlpha ch then .error q [] .invalidMethod
      else
        match methodOf ch with
        | some method => .next { q with method, index := 1, state := .reqMethod } [.notify .messageBegin]
        | none => .error { q with method := .delete, index := 1 } [] .invalidMethod
  | .reqMethod =>
    if ch = 0 then .error q [] .invalidMethod
    else
      let matcher := q.method.string.getD q.index.toNat 0
      if ch = ' '.toUInt8 ∧ matcher = 0 then .next { q with state := .reqSpacesBeforeUrl, index := q.index + 1 } []
      else if ch = matcher then .next { q with index := q.index + 1 } []
      else
        match otherMethod q.method q.index ch with
        | some method => .next { q with method, index := q.index + 1 } []
        | none => .error q [] .invalidMethod
  | .reqSpacesBeforeUrl =>
    if ch = ' '.toUInt8 then .next q []
    else
      let s := parseUrlChar (if q.method = .connect then .reqServerStart else .reqSpacesBeforeUrl) ch
      if s = .dead then .error { q with state := s } [.mark .url] .invalidUrl
      else .next { q with state := s } [.mark .url]
  | .reqSchema | .reqSchemaSlash | .reqSchemaSlashSlash | .reqServerStart =>
    if ch = ' '.toUInt8 ∨ ch = cr ∨ ch = lf then .error q [] .invalidUrl
    else
      let s := parseUrlChar q.state ch
      if s = .dead then .error { q with state := s } [] .invalidUrl else .next { q with state := s } []
  | .reqServer | .reqServerWithAt | .reqPath | .reqQueryStringStart | .reqQueryString | .reqFragmentStart
  | .reqFragment =>
    if ch = ' '.toUInt8 then .next { q with state := .reqHttpStart } [.data .url]
    else if ch = cr ∨ ch = lf then
      .next
        { q with
          httpMajor := 0, httpMinor := 9, state := if ch = cr then .reqLineAlmostDone else .headerFieldStart }
        [.data .url]
    else
      let s := parseUrlChar q.state ch
      if s = .dead then .error { q with state := s } [] .invalidUrl else .next { q with state := s } []
  | .reqHttpStart =>
    if ch = 'H'.toUInt8 then .next { q with state := .reqHttpH } []
    else if ch = ' '.toUInt8 then .next q []
    else .error q [] .invalidConstant
  | .reqHttpH => expect q ch 'T'.toUInt8 .reqHttpHT
  | .reqHttpHT => expect q ch 'T'.toUInt8 .reqHttpHTT
  | .reqHttpHTT => expect q ch 'P'.toUInt8 .reqHttpHTTP
  | .reqHttpHTTP => expect q ch '/'.toUInt8 .reqFirstHttpMajor
  | .reqFirstHttpMajor =>
    if ch < '1'.toUInt8 ∨ '9'.toUInt8 < ch then .error q [] .invalidVersion
    else .next { q with httpMajor := (ch - '0'.toUInt8).toUInt16, state := .reqHttpMajor } []
  | .reqHttpMajor => version q ch [('.'.toUInt8, .reqFirstHttpMinor)] q.httpMajor fun n => { q with httpMajor := n }
  | .reqFirstHttpMinor =>
    if !isNum ch then .error q [] .invalidVersion
    else .next { q with httpMinor := (ch - '0'.toUInt8).toUInt16, state := .reqHttpMinor } []
  | .reqHttpMinor =>
    version q ch [(cr, .reqLineAlmostDone), (lf, .headerFieldStart)] q.httpMinor fun n => { q with httpMinor := n }
  | .reqLineAlmostDone => if ch ≠ lf then .error q [] .lfExpected else .next { q with state := .headerFieldStart } []
  | .headerFieldStart =>
    if ch = cr then .next { q with state := .headersAlmostDone } []
    else if ch = lf then .again { q with state := .headersAlmostDone } []
    else
      let c := token ch
      if c = 0 then .error q [] .invalidHeaderToken
      else
        .next { q with
          index := 0, state := .headerField,
          headerState :=
            if c = 'c'.toUInt8 then .c
            else if c = 'p'.toUInt8 then .matchingProxyConnection
            else if c = 't'.toUInt8 then .matchingTransferEncoding
            else if c = 'u'.toUInt8 then .matchingUpgrade
            else .general } [.mark .headerField]
  | .headerValueDiscardWs =>
    if ch = ' '.toUInt8 ∨ ch = 9 then .next q []
    else if ch = cr then .next { q with state := .headerValueDiscardWsAlmostDone } []
    else if ch = lf then .next { q with state := .headerValueDiscardLws } []
    else valueStart q ch
  | .headerValueStart => valueStart q ch
  | .headerAlmostDone => expect q ch lf .headerValueLws
  | .headerValueLws =>
    if ch = ' '.toUInt8 ∨ ch = 9 then .again { q with state := .headerValueStart } []
    else .again { q with flags := q.flags.finish q.headerState, state := .headerFieldStart } []
  | .headerValueDiscardWsAlmostDone => expect q ch lf .headerValueDiscardLws
  | .headerValueDiscardLws =>
    if ch = ' '.toUInt8 ∨ ch = 9 then .next { q with state := .headerValueDiscardWs } []
    else
      .again { q with flags := q.flags.finish q.headerState, state := .headerFieldStart }
        [.mark .headerValue, .data .headerValue]
  | .headersAlmostDone =>
    if ch ≠ lf then .error q [] .strict
    else if q.flags.trailing then .again { q with state := .messageDone } [.notify .chunkComplete]
    else
      .again { q with state := .headersDone, upgrade := q.flags.upgrade && q.flags.connectionUpgrade || q.method =
        .connect } [.notify .headersComplete]
  | .headersDone =>
    if ch ≠ lf then .error q [] .strict
    else
      let hasBody := q.flags.chunked || 0 < q.contentLength && q.contentLength ≠ ullongMax
      if q.upgrade && (q.method = .connect || q.flags.skipbody || !hasBody) then
        .exit { q with state := q.newMessage } [.clear, .notify .messageComplete]
      else if q.flags.skipbody then .next { q with state := q.newMessage } [.clear, .notify .messageComplete]
      else if q.flags.chunked then .next { q with state := .chunkSizeStart } [.clear]
      else if q.contentLength = 0 then .next { q with state := q.newMessage } [.clear, .notify .messageComplete]
      else if q.contentLength ≠ ullongMax then .next { q with state := .bodyIdentity } [.clear]
      else if q.type = .request || !q.messageNeedsEof then
        .next { q with state := q.newMessage } [.clear, .notify .messageComplete]
      else .next { q with state := .bodyIdentityEof } [.clear]
  | .messageDone =>
    if q.upgrade then .exit { q with state := q.newMessage } [.notify .messageComplete]
    else .next { q with state := q.newMessage } [.notify .messageComplete]
  | .chunkSizeStart =>
    if !q.flags.chunked then .abort
    else
      match unhex ch with
      | none => .error q [.check] .invalidChunkSize
      | some n => .next { q with contentLength := n, state := .chunkSize } [.check]
  | .chunkSize =>
    if !q.flags.chunked then .abort
    else if ch = cr then .next { q with state := .chunkSizeAlmostDone } []
    else
      match unhex ch with
      | none =>
        if ch = ';'.toUInt8 ∨ ch = ' '.toUInt8 then .next { q with state := .chunkParameters } []
        else .error q [] .invalidChunkSize
      | some n =>
        if (ullongMax - 16) / 16 < q.contentLength then .error q [] .invalidContentLength
        else .next { q with contentLength := q.contentLength * 16 + n } []
  | .chunkParameters =>
    if !q.flags.chunked then .abort
    else if ch = cr then .next { q with state := .chunkSizeAlmostDone } []
    else .next q []
  | .chunkSizeAlmostDone =>
    if !q.flags.chunked then .abort
    else if ch ≠ lf then .error q [] .strict
    else if q.contentLength = 0 then
      .next { q with flags := { q.flags with trailing := true }, state := .headerFieldStart }
        [.clear, .notify .chunkHeader]
    else .next { q with state := .chunkData } [.clear, .notify .chunkHeader]
  | .chunkDataAlmostDone =>
    if !q.flags.chunked ∨ q.contentLength ≠ 0 then .abort
    else if ch ≠ cr then .error q [] .strict
    else .next { q with state := .chunkDataDone } [.data .body]
  | .chunkDataDone =>
    if !q.flags.chunked then .abort
    else if ch ≠ lf then .error q [] .strict
    else .next { q with state := .chunkSizeStart } [.clear, .notify .chunkComplete]
  | .headerField | .headerValue | .bodyIdentity | .bodyIdentityEof | .chunkData => .abort

end ZeroServ.Parser
