import ZeroServ.Parser.Switch

/-!
# `http_parser_execute`

`http_parser.c`: the loop over the bytes of one call, the cases that read on in it (header names and values, bodies),
the bound on the size of headers and the callbacks of marks that are left. A data callback is the offset and the
length it is given (`Call`). `execute` is `none` where an assertion of the source fails.
-/

namespace ZeroServ.Parser

open CString

/-! ## The letters of headers -/

/-- A letter of a word that is being matched: past the word or another letter leads to `missed`, the last letter to
`matched`. -/
def Core.matchWord (q : Core) (word : List UInt8) (c : UInt8) (matched missed : HeaderState) : Core :=
  let index := q.index + 1
  if word.length < index.toNat ∨ c ≠ word.getD index.toNat 0 then { q with index, headerState := missed }
  else if index.toNat = word.length - 1 then { q with index, headerState := matched }
  else { q with index }

/-- A letter of a header name. -/
def Core.headerFieldLetter (q : Core) (ch : UInt8) : Turn :=
  let c := token ch
  match q.headerState with
  | .general => .next q []
  | .c => .next { q with index := q.index + 1, headerState := if c = 'o'.toUInt8 then .co else .general } []
  | .co => .next { q with index := q.index + 1, headerState := if c = 'n'.toUInt8 then .con else .general } []
  | .con =>
    .next { q with
      index := q.index + 1,
      headerState :=
        if c = 'n'.toUInt8 then .matchingConnection else if c = 't'.toUInt8 then .matchingContentLength
        else .general } []
  | .matchingConnection => .next (q.matchWord (lit "connection") c .connection .general) []
  | .matchingProxyConnection => .next (q.matchWord (lit "proxy-connection") c .connection .general) []
  | .matchingContentLength => .next (q.matchWord (lit "content-length") c .contentLength .general) []
  | .matchingTransferEncoding => .next (q.matchWord (lit "transfer-encoding") c .transferEncoding .general) []
  | .matchingUpgrade => .next (q.matchWord (lit "upgrade") c .upgrade .general) []
  | .connection | .contentLength | .transferEncoding | .upgrade =>
    .next (if ch ≠ ' '.toUInt8 then { q with headerState := .general } else q) []
  | _ => .abort

/-- A letter of a header value that is neither `CR` nor `LF`, where `h_general` does not pass over the rest of the
line. -/
def Core.headerValueLetter (q : Core) (ch : UInt8) : Turn :=
  let c := lower ch
  match q.headerState with
  | .connection | .transferEncoding => .abort
  | .contentLength =>
    if ch = ' '.toUInt8 then .next q []
    else if !isNum ch then .error q [] .invalidContentLength
    else if (ullongMax - 10) / 10 < q.contentLength then .error q [] .invalidContentLength
    else .next { q with contentLength := q.contentLength * 10 + (ch - '0'.toUInt8).toUInt64 } []
  | .matchingTransferEncodingChunked => .next (q.matchWord (lit "chunked") c .transferEncodingChunked .general) []
  | .matchingConnectionTokenStart =>
    .next { q with
      headerState :=
        if c = 'k'.toUInt8 then .matchingConnectionKeepAlive
        else if c = 'c'.toUInt8 then .matchingConnectionClose
        else if c = 'u'.toUInt8 then .matchingConnectionUpgrade
        else if token c ≠ 0 then .matchingConnectionToken
        else if c = ' '.toUInt8 ∨ c = 9 then .matchingConnectionTokenStart
        else .general } []
  | .matchingConnectionKeepAlive =>
      .next (q.matchWord (lit "keep-alive") c .connectionKeepAlive .matchingConnectionToken) []
  | .matchingConnectionClose => .next (q.matchWord (lit "close") c .connectionClose .matchingConnectionToken) []
  | .matchingConnectionUpgrade => .next (q.matchWord (lit "upgrade") c .connectionUpgrade .matchingConnectionToken) []
  | .matchingConnectionToken =>
    .next (if ch = ','.toUInt8 then { q with headerState := .matchingConnectionTokenStart, index := 0 } else q) []
  | .transferEncodingChunked => .next (if ch ≠ ' '.toUInt8 then { q with headerState := .general } else q) []
  | .connectionKeepAlive | .connectionClose | .connectionUpgrade =>
    .next
      (if ch = ','.toUInt8 then
        { q with flags := q.flags.finish q.headerState, headerState := .matchingConnectionTokenStart, index := 0 }
      else if ch ≠ ' '.toUInt8 then { q with headerState := .matchingConnectionToken }
      else q) []
  | _ => .next { q with state := .headerValue, headerState := .general } []

/-! ## What a call holds -/

/-- `HTTP_MAX_HEADER_SIZE` -/
def httpMaxHeaderSize : Nat := 80 * 1024

/-- `struct http_parser` -/
structure HttpParser where
  core : Core := {}
  nread : UInt32 := 0
  errno : Errno := .ok
  deriving DecidableEq, Repr

/-- A callback; that of data with the offset and the length of the text in the bytes of the call. -/
inductive Call where
  | notify (n : Note)
  | data (d : Datum) (ofs len : Nat)
  deriving DecidableEq, Repr

/-- The marks of a call, and the callbacks made so far. -/
structure Marks where
  mark : Datum → Option Nat
  calls : List Call := []

namespace Marks

/-- `CALLBACK_DATA_`, up to a place. -/
def callback (m : Marks) (d : Datum) (stop : Nat) : Marks :=
  match m.mark d with
  | none => m
  | some ofs => ⟨Function.update m.mark d none, m.calls ++ [.data d ofs (stop - ofs)]⟩

/-- What an act does at a place. -/
def act (p : Nat) (m : Marks) : Act → Marks
  | .mark d => if m.mark d = none then { m with mark := Function.update m.mark d (some p) } else m
  | .data d => m.callback d p
  | .dataWith d => m.callback d (p + 1)
  | .notify n => { m with calls := m.calls ++ [.notify n] }
  | .clear | .check => m

def acts (p : Nat) (m : Marks) (acts : List Act) : Marks := acts.foldl (act p) m

/-- The callbacks of the marks that are left at the end. -/
def flush (m : Marks) (stop : Nat) : Marks :=
  ((((m.callback .headerField stop).callback .headerValue stop).callback .url stop).callback .body stop).callback
    .status stop

/-- The marks that are left. -/
def left (m : Marks) : List Datum :=
  [Datum.headerField, .headerValue, .url, .body, .status].filter fun d => (m.mark d).isSome

end Marks

/-- What an act does to `nread`, unless it is an assertion that fails. -/
def Act.nread (nread : UInt32) : Act → Option UInt32
  | .clear => some 0
  | .check => if nread = 1 then some nread else none
  | _ => some nread

/-- The parser in the course of a call. -/
structure Locals where
  core : Core
  nread : UInt32
  marks : Marks

namespace Locals

def acts (p : Nat) (l : Locals) (acts : List Act) : Option Locals :=
  (acts.foldlM Act.nread l.nread).map fun nread => { l with nread, marks := l.marks.acts p acts }

/-- `parser->nread += n` -/
def count (l : Locals) (n : Nat) : Locals := { l with nread := l.nread + .ofNat n }

/-- The condition of `COUNT_HEADER_SIZE`. -/
def overflows (l : Locals) : Bool := httpMaxHeaderSize < l.nread.toNat

end Locals

/-- What a call gives: the parser it leaves, its callbacks, and the number it returns. -/
structure Executed where
  parser : HttpParser
  calls : List Call
  returned : Nat
  deriving DecidableEq, Repr

/-- How a case is left, at a place. -/
inductive Case where
  /-- the byte behind the place is next -/
  | next (p : Nat) (l : Locals)
  /-- `REEXECUTE` -/
  | again (p : Nat) (l : Locals)
  /-- a return, with an error or none -/
  | stop (n : Nat) (l : Locals) (e : Errno)
  /-- an assertion fails -/
  | abort

/-- A turn at a place of the bytes. -/
def Turn.at (p : Nat) (l : Locals) : Turn → Case
  | .next q acts => match { l with core := q }.acts p acts with | some l => .next p l | none => .abort
  | .again q acts => match { l with core := q }.acts p acts with | some l => .again p l | none => .abort
  | .exit q acts => match { l with core := q }.acts p acts with | some l => .stop (p + 1) l .ok | none => .abort
  | .error q acts e => match { l with core := q }.acts p acts with | some l => .stop p l e | none => .abort
  | .abort => .abort

/-! ## The cases that read on -/

/-- The loop of `s_header_field`: the parser, and how far it has come; `none` for an unknown `header_state`. -/
def headerFieldLoop : Core → List UInt8 → Option (Core × Nat)
  | q, [] => some (q, 0)
  | q, ch :: rest =>
    if token ch = 0 then some (q, 0)
    else
      match q.headerFieldLetter ch with
      | .next q _ => (headerFieldLoop q rest).map fun (q, n) => (q, n + 1)
      | _ => none

/-- `s_header_field` -/
def headerFieldCase (data : List UInt8) (p : Nat) (l : Locals) : Case :=
  match headerFieldLoop l.core (data.drop p) with
  | none => .abort
  | some (q, n) =>
    let l := { l with core := q }.count n
    if l.overflows then .stop (p + n) l .headerOverflow
    else if p + n = data.length then .next (p + n - 1) l
    else if data.getD (p + n) 0 = ':'.toUInt8 then
      (Turn.next { q with state := .headerValueDiscardWs } [.data .headerField]).at (p + n) l
    else .stop (p + n) l .invalidHeaderToken

/-- `memchr` -/
def memchr (s : List UInt8) (c : UInt8) (limit : Nat) : Option Nat := (s.take limit).findIdx? (· = c)

/-- How far `h_general` passes over the rest of a value. -/
def skipLine (s : List UInt8) : Nat :=
  let limit := min s.length httpMaxHeaderSize
  match memchr s cr limit, memchr s lf limit with
  | some pCr, some pLf => if pLf ≤ pCr then pLf else pCr
  | some pCr, none => pCr
  | none, some pLf => pLf
  | none, none => s.length

/-- How the loop of `s_header_value` ends, with the letters passed. -/
inductive ValueEnd where
  | done (q : Core) (n : Nat)
  | cr (q : Core) (n : Nat)
  | lf (q : Core) (n : Nat)
  | error (q : Core) (n : Nat) (e : Errno)
  | abort

/-- One letter more. -/
def ValueEnd.succ : ValueEnd → ValueEnd
  | .done q n => .done q (n + 1)
  | .cr q n => .cr q (n + 1)
  | .lf q n => .lf q (n + 1)
  | .error q n e => .error q (n + 1) e
  | .abort => .abort

/-- The loop of `s_header_value`. -/
def headerValueLoop : Core → List UInt8 → ValueEnd
  | q, [] => .done q 0
  | q, ch :: rest =>
    if ch = cr then .cr q 0
    else if ch = lf then .lf q 0
    else if q.headerState = .general then
      -- the next turn of the loop sees the end of the line, or there is none
      let n := skipLine (ch :: rest)
      match (ch :: rest)[n]? with
      | none => .done q n
      | some ch => if ch = cr then .cr q n else .lf q n
    else
      match q.headerValueLetter ch with
      | .next q _ => (headerValueLoop q rest).succ
      | .error q _ e => .error q 0 e
      | _ => .abort

/-- `s_header_value` -/
def headerValueCase (data : List UInt8) (p : Nat) (l : Locals) : Case :=
  match headerValueLoop l.core (data.drop p) with
  | .abort => .abort
  | .error q n e => .stop (p + n) { l with core := q } e
  | .done q n =>
    let l := { l with core := q }.count n
    if l.overflows then .stop (p + n) l .headerOverflow else .next (p + n - 1) l
  | .cr q n =>
    let l :=
      { l with
        core := { q with state := .headerAlmostDone }, marks := l.marks.callback .headerValue (p + n) }.count n
    if l.overflows then .stop (p + n) l .headerOverflow else .next (p + n) l
  | .lf q n =>
    let counted := { l with core := { q with state := .headerAlmostDone } }.count n
    -- `header_state` is written behind the count
    if counted.overflows then .stop (p + n) { counted with core.headerState := l.core.headerState } .headerOverflow
    else .again (p + n) { counted with marks := l.marks.callback .headerValue (p + n) }

/-- `s_body_identity` -/
def bodyIdentityCase (data : List UInt8) (p : Nat) (l : Locals) : Case :=
  let q := l.core
  let toRead := min q.contentLength.toNat (data.length - p)
  if q.contentLength = 0 ∨ q.contentLength = ullongMax then .abort
  else
    let q := { q with contentLength := q.contentLength - .ofNat toRead }
    let l := { l with marks := l.marks.act p (.mark .body) }
    let p := p + toRead - 1
    if q.contentLength = 0 then (Turn.again { q with state := .messageDone } [.dataWith .body]).at p l
    else .next p { l with core := q }

/-- `s_chunk_data` -/
def chunkDataCase (data : List UInt8) (p : Nat) (l : Locals) : Case :=
  let q := l.core
  let toRead := min q.contentLength.toNat (data.length - p)
  if !q.flags.chunked ∨ q.contentLength = 0 ∨ q.contentLength = ullongMax then .abort
  else
    let q := { q with contentLength := q.contentLength - .ofNat toRead }
    .next (p + toRead - 1) { l with
      core := if q.contentLength = 0 then { q with state := .chunkDataAlmostDone } else q
      marks := l.marks.act p (.mark .body) }

/-- `s_body_identity_eof` -/
def bodyIdentityEofCase (data : List UInt8) (p : Nat) (l : Locals) : Case :=
  .next (data.length - 1) { l with marks := l.marks.act p (.mark .body) }

/-- The switch. -/
def switch (data : List UInt8) (p : Nat) (l : Locals) : Case :=
  match l.core.state with
  | .headerField => headerFieldCase data p l
  | .headerValue => headerValueCase data p l
  | .bodyIdentity => bodyIdentityCase data p l
  | .bodyIdentityEof => bodyIdentityEofCase data p l
  | .chunkData => chunkDataCase data p l
  | _ => (oneByte l.core (data.getD p 0)).at p l

/-! ## The loop -/

/-- The switch until it is left otherwise than by `REEXECUTE`. -/
def reexecute (data : List UInt8) : Nat → Nat → Locals → Case
  | 0, _, _ => .abort
  | fuel + 1, p, l =>
    match switch data p l with
    | .again p l => reexecute data fuel p l
    | c => c

/-- More turns than a byte can take. -/
def turns : Nat := 4

/-- What is behind the loop. -/
def finish (data : List UInt8) (l : Locals) : Option Executed :=
  if 1 < l.marks.left.length then none else
    some ⟨⟨l.core, l.nread, .ok⟩, (l.marks.flush data.length).calls, data.length⟩

/-- The loop of `http_parser_execute`. -/
def loop (data : List UInt8) : Nat → Nat → Locals → Option Executed
  | 0, _, _ => none
  | fuel + 1, p, l =>
    if p = data.length then finish data l
    else
      let l := if l.core.state.parsingHeader then l.count 1 else l
      if l.core.state.parsingHeader && l.overflows then some ⟨⟨l.core, l.nread, .headerOverflow⟩, l.marks.calls, p⟩
      else
        match reexecute data turns p l with
        | .next p l => loop data fuel (p + 1) l
        | .stop n l e => some ⟨⟨l.core, l.nread, e⟩, l.marks.calls, n⟩
        | .again _ _ | .abort => none

/-- The mark that a call begins with. -/
def State.startMark : State → Option Datum
  | .headerField => some .headerField
  | .headerValue => some .headerValue
  | .reqPath | .reqSchema | .reqSchemaSlash | .reqSchemaSlashSlash | .reqServerStart | .reqServer | .reqServerWithAt
  | .reqQueryStringStart
  | .reqQueryString | .reqFragmentStart | .reqFragment => some .url
  | .resStatus => some .status
  | _ => none

def State.startMarks (s : State) : Marks := { mark := fun d => if s.startMark = some d then some 0 else none }

/-- `http_parser_execute` -/
def execute (parser : HttpParser) (data : List UInt8) : Option Executed :=
  if parser.errno ≠ .ok then some ⟨parser, [], 0⟩
  else if data = [] then
    match parser.core.state with
    | .bodyIdentityEof => some ⟨parser, [.notify .messageComplete], 0⟩
    | .dead | .startReqOrRes | .startRes | .startReq => some ⟨parser, [], 0⟩
    | _ => some ⟨{ parser with errno := .invalidEofState }, [], 1⟩
  else
    loop data (data.length + 1) 0 ⟨parser.core, parser.nread, parser.core.state.startMarks⟩

/-- `http_parser_init` -/
def httpParserInit (type : ParserType) : HttpParser :=
  { core :=
      { type, state := match type with | .request => .startReq | .response => .startRes | .both => .startReqOrRes } }

example :
    ((execute (httpParserInit .request) (lit "GET /a?b HTTP/1.1\x0d\nHost: h\x0d\n\x0d\nPO")).map fun r =>
      (r.calls, r.returned)) =
      some ([.notify .messageBegin, .data .url 4 4, .data .headerField 19 4, .data .headerValue 25 1,
        .notify .headersComplete, .notify .messageComplete, .notify .messageBegin], 32) := by
  decide +kernel

end ZeroServ.Parser
