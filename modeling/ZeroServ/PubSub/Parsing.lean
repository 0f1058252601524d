import ZeroServ.Parser.Inside
import ZeroServ.Parser.Requests
import ZeroServ.PubSub.Requests

/-!
# The parser of the HTTP handler

`init_parser` sets three callbacks, and `http_psub_read` calls the parser of `http_parser.c` with them
(`settingsParser`): it is one of the parsers that requests are attributed for, since its callbacks point into the
bytes it is given. While requests come in, no read closes their connection (`requests_keep_open`).
-/

namespace ZeroServ

open CString

/-- The callback of `settings` that is called, if it is set. -/
def Callback.ofCall : Parser.Call → Option Callback
  | .data .url ofs len => some (.url ofs len)
  | .data .headerField ofs len => some (.headerField ofs len)
  | .notify .messageComplete => some .msgComplete
  | _ => none

theorem ofCall_inside {n : Nat} {call : Parser.Call} {c : Callback} (h : Callback.ofCall call = some c)
    (hin : call.inside n) :
    c.inside n := by
  unfold Callback.ofCall at h
  split at h
  · rw [← Option.some.inj h]
    exact hin
  · rw [← Option.some.inj h]
    exact hin
  · rw [← Option.some.inj h]
    trivial
  · cases h

/-- `http_parser_execute` with `settings`. Where an assertion of it fails, nothing is called any more. -/
def settingsParser : HttpParser Parser.HttpParser where
  execute := fun st bytes =>
    match Parser.execute st bytes with
    | some r => ⟨r.calls.filterMap Callback.ofCall, r.returned, r.parser.core.upgrade, r.parser⟩
    | none => ⟨[], 0, false, st⟩
  inside := by
    intro st bytes c hc
    cases h : Parser.execute st bytes with
    | none =>
      rw [h] at hc
      cases hc
    | some r =>
      rw [h] at hc
      obtain ⟨call, hcall, hof⟩ := List.mem_filterMap.mp hc
      exact ofCall_inside hof ((Parser.callbacks_inside h).1 call hcall)

/-- The parser of a connection after some reads. -/
def parserAfter (st : Parser.HttpParser) (reads : List (List UInt8)) : Parser.HttpParser :=
  reads.foldl (fun st bytes => (settingsParser.execute st bytes).parser) st

theorem execute_settings {st : Parser.HttpParser} {bytes : List UInt8} {r : Parser.Executed}
    (h : Parser.execute st bytes = some r) :
    settingsParser.execute st bytes = ⟨r.calls.filterMap Callback.ofCall, r.returned, r.parser.core.upgrade,
      r.parser⟩ := by
  simp only [settingsParser, h]

/-- No more is read than comes in, and where all of it is, each call has read what it was given. -/
theorem receive_reads {st : Parser.HttpParser} {reads : List (List UInt8)} {s : Parser.Received}
    (hne : ∀ bytes ∈ reads, bytes ≠ []) (h : Parser.receive st reads = some s) :
    s.read ≤ reads.flatten.length ∧ (s.read = reads.flatten.length → ∀ pre bytes post, reads = pre ++ bytes :: post →
      ∃ r, Parser.execute (parserAfter st pre) bytes = some r ∧ r.returned = bytes.length) := by
  induction reads generalizing st s with
  | nil =>
    rw [← Option.some.inj h]
    refine ⟨Nat.zero_le _, fun _ pre bytes post heq => ?_⟩
    exact absurd heq.symm (List.append_ne_nil_of_right_ne_nil _ (List.cons_ne_nil _ _))
  | cons bytes reads ih =>
    obtain ⟨hb, hne⟩ := List.forall_mem_cons.mp hne
    obtain ⟨r, hr⟩ : ∃ r, Parser.execute st bytes = some r := by
      rw [Parser.receive, if_neg hb] at h
      obtain ⟨r, hr, -⟩ := Option.bind_eq_some_iff.mp h
      exact ⟨r, hr⟩
    have hle := (Parser.callbacks_inside hr).2 hb
    rw [Parser.receive_cons hb hr] at h
    rw [List.flatten_cons, List.length_append]
    split_ifs at h with hclose
    · rw [← Option.some.inj h]
      refine ⟨by show r.returned ≤ _; omega, fun hall => ?_⟩
      have hall' : r.returned = bytes.length + reads.flatten.length := hall
      exact absurd (by omega) hclose.2
    · obtain ⟨s', hs', rfl⟩ := Option.map_eq_some_iff.mp h
      obtain ⟨hle', hreads⟩ := ih hne hs'
      refine ⟨Nat.add_le_add hle hle', fun hall pre bytes' post heq => ?_⟩
      have hall' : r.returned + s'.read = bytes.length + reads.flatten.length := hall
      cases pre with
      | nil =>
        obtain ⟨rfl, -⟩ := List.cons.inj heq
        exact ⟨r, hr, by omega⟩
      | cons first pre =>
        obtain ⟨rfl, hrest⟩ := List.cons.inj heq
        obtain ⟨r', hr', hret⟩ := hreads (by omega) pre bytes' post hrest
        refine ⟨r', ?_, hret⟩
        rw [parserAfter, List.foldl_cons, execute_settings hr]
        exact hr'

/-- While requests come in, however they are cut, no read closes their connection, unless there are more bytes than
`HTTP_MAX_HEADER_SIZE` allows. -/
theorem requests_keep_open (rs : List Parser.Request) (pre post : List (List UInt8)) {bytes : List UInt8}
    (hne : ∀ b ∈ pre ++ bytes :: post, b ≠ []) (hwire : (pre ++ bytes :: post).flatten = rs.flatMap Parser.Request.wire)
    (hlen : 2 * (pre ++ bytes :: post).flatten.length ≤ Parser.httpMaxHeaderSize) (env : Nat → CallEnv) (fd : Fd)
    (rest : Mem) (t : Observed) :
    (httpPsubRead settingsParser (parserAfter (Parser.httpParserInit .request) pre) bytes env fd rest t).2 =
      Zb.nop := by
  have hmax : Parser.httpMaxHeaderSize = 81920 := rfl
  have hlen' : (pre ++ bytes :: post).flatten.length ≤ 2 ^ 31 := by omega
  obtain ⟨s, hs, -⟩ := Parser.receive_returns (Parser.httpParserInit_ready .request) fun b hb =>
    (List.sublist_flatten_of_mem hb).length_le.trans hlen'
  have hover : s.parser.errno ≠ .headerOverflow :=
    fun h => absurd (Parser.init_overflow hlen' hs h) (Nat.not_lt.mpr hlen)
  obtain ⟨-, -, hread, -⟩ := Parser.receive_requests rs hne hwire hlen' hs hover
  obtain ⟨r, hr, hret⟩ := (receive_reads hne hs).2 hread pre bytes post rfl
  have hb : bytes ≠ [] := hne bytes (by simp)
  unfold httpPsubRead
  simp only [execute_settings hr, if_neg hb, hret, ne_eq, not_true_eq_false, if_false, ite_self]

theorem requests_keep_open_two :
    (httpPsubRead settingsParser (parserAfter (Parser.httpParserInit .request) (Parser.twoGets.take 1))
      (lit "TP/1.1\x0d\nHost: h\x0d\nAccept: \x0d\n\x0d") (fun _ => ⟨⟨1, 0⟩, [], []⟩) 5 [] oneHttpConnection).2 =
      Zb.nop :=
  requests_keep_open [Parser.getRequest, Parser.getRequest] (Parser.twoGets.take 1) (Parser.twoGets.drop 2)
    (by decide +kernel) (by decide +kernel) (by decide +kernel) _ 5 [] oneHttpConnection

end ZeroServ
