import ZeroServ.PubSub.HttpResponses

/-!
# The serializer of HTTP responses

`http_msg_response` fills a buffer with calls of `snprintf`, `strcat` and `memcpy` that find their places with
`strlen`, and answers -1 for a response that it has no room for. Here it is with the memory it writes
(`httpMsgResponseIn`). `http_msg_response_exact` says what it leaves there, and exactly when it answers -1.
-/

namespace ZeroServ

open CString CInt Decimal

/-! ## What is to be written -/

/-- A header line, as `sprintf` formats it. -/
def fieldLine (field : List UInt8 × List UInt8) : List UInt8 := field.1 ++ lit ": " ++ field.2 ++ lit "\r\n"

namespace HttpResponse

/-- The header fields with the one that `http_msg_response` adds. -/
def allFields (rep : HttpResponse) : List (List UInt8 × List UInt8) := rep.fields ++ [(lit "Connection", lit "close")]

/-- The lines before the empty one. -/
def lines (rep : HttpResponse) : List UInt8 := rep.head ++ (rep.allFields.map fieldLine).flatten

/-- The whole response. -/
def text (rep : HttpResponse) : List UInt8 := rep.lines ++ lit "\r\n" ++ rep.content

/-- The mime type and the fields are C strings. -/
structure Strings (rep : HttpResponse) : Prop where
  mime : (0 : UInt8) ∉ rep.mimeType
  fields : ∀ field ∈ rep.fields, (0 : UInt8) ∉ field.1 ∧ (0 : UInt8) ∉ field.2

end HttpResponse

/-- Fields appended one after the other, as long as there is room. -/
theorem foldlM_fields {maxLen : Nat} (fields : List (List UInt8 × List UInt8)) (buf : List UInt8) :
    fields.foldlM (fun buf field =>
        let fieldVal := field.1 ++ lit ": " ++ field.2 ++ lit "\r\n"
        if maxLen - 2 ≤ buf.length + fieldVal.length then none else some (buf ++ fieldVal)) buf =
      if fields ≠ [] ∧ maxLen - 2 ≤ (buf ++ (fields.map fieldLine).flatten).length then none
      else some (buf ++ (fields.map fieldLine).flatten) := by
  induction fields generalizing buf with
  | nil => simp
  | cons field fields ih =>
    have happend : buf ++ ((field :: fields).map fieldLine).flatten =
      buf ++ fieldLine field ++ (fields.map fieldLine).flatten := by simp
    rw [List.foldlM_cons, happend]
    change (if maxLen - 2 ≤ buf.length + (fieldLine field).length then none else some (buf ++ fieldLine field)) >>= _ =
      _
    by_cases hfull : maxLen - 2 ≤ buf.length + (fieldLine field).length
    · have htotal : maxLen - 2 ≤ (buf ++ fieldLine field ++ (fields.map fieldLine).flatten).length := by
        rw [List.length_append, List.length_append]
        omega
      rw [if_pos hfull, if_pos ⟨List.cons_ne_nil _ _, htotal⟩]
      rfl
    · rw [if_neg hfull]
      change List.foldlM _ (buf ++ fieldLine field) fields = _
      rw [ih]
      rcases eq_or_ne fields [] with rfl | hne
      · simp only [ne_eq, not_true_eq_false, if_false, List.map_nil, List.flatten_nil, List.append_nil,
          List.length_append, hfull, and_false]
      · simp only [ne_eq, hne, not_false_eq_true, true_and, reduceCtorEq]

/-- A response is serialized exactly if its lines leave room for the empty one with a NUL, and all of it fits. -/
theorem httpMsgResponse_eq (maxLen : Nat) (rep : HttpResponse) :
    httpMsgResponse maxLen rep =
      if maxLen - 2 ≤ rep.lines.length ∨ maxLen < rep.text.length then none else some rep.text := by
  have hne : rep.allFields ≠ [] := List.append_ne_nil_of_right_ne_nil _ (List.cons_ne_nil _ _)
  have hlines : rep.lines.length = rep.head.length + (rep.allFields.map fieldLine).flatten.length := List.length_append
  have htext : rep.text.length = (rep.lines ++ lit "\r\n").length + rep.content.length := List.length_append
  unfold httpMsgResponse
  rw [show rep.fields ++ [(lit "Connection", lit "close")] = rep.allFields from rfl, foldlM_fields]
  rcases Nat.lt_or_ge (maxLen - 1) rep.head.length with hlt | hge
  · -- what is left of the head fills the buffer
    have htake : (rep.head.take (maxLen - 1) ++ (rep.allFields.map fieldLine).flatten).length =
        maxLen - 1 + (rep.allFields.map fieldLine).flatten.length := by
      rw [List.length_append, List.length_take_of_le hlt.le]
    rw [if_pos ⟨hne, by omega⟩, if_pos (.inl (by omega))]
    rfl
  · rw [List.take_of_length_le hge, show rep.head ++ (rep.allFields.map fieldLine).flatten = rep.lines from rfl]
    by_cases hfull : maxLen - 2 ≤ rep.lines.length
    · rw [if_pos ⟨hne, hfull⟩, if_pos (.inl hfull)]
      rfl
    · rw [if_neg fun h => hfull h.2]
      simp only [hfull, false_or, htext]
      rfl

/-! ## The memory of the buffer -/

/-- A buffer that is being filled: the memory from its start on, and where each write into it ended; and the size of
each text formatted into `field_val`, its NUL included. -/
structure Filling where
  mem : Mem
  ends : List Nat
  fieldVals : List Nat

namespace Filling

/-- `memcpy(buf + ofs, bytes, n)` -/
def put (f : Filling) (ofs : Nat) (bytes : List UInt8) : Filling :=
  { f with mem := memcpy f.mem ofs bytes, ends := (ofs + bytes.length) :: f.ends }

/-- `strcat(buf, src)` -/
def strcat (f : Filling) (src : List UInt8) : Filling := f.put (strlen f.mem) (src ++ [0])

end Filling

/-- The loop of `http_msg_response`, and whether it came to its end. -/
def msgFields (maxLen : Nat) : List (List UInt8 × List UInt8) → Filling → Filling × Bool
  | [], f => (f, true)
  | field :: fields, f =>
    let fieldVal := fieldLine field
    let f := { f with fieldVals := (fieldVal.length + 1) :: f.fieldVals }
    if sizeT (maxLen - 2) ≤ strlen f.mem + fieldVal.length then (f, false)
    else msgFields maxLen fields (f.strcat fieldVal)

/-- `http_msg_response` into the memory at `buf`: what it leaves there, and what it returns. -/
def httpMsgResponseIn (maxLen : Nat) (rep : HttpResponse) (mem : Mem) : Filling × Int :=
  let f : Filling := { mem, ends := [], fieldVals := [] }
  match msgFields maxLen rep.allFields (f.put 0 (vsnprintf maxLen rep.head).1) with
  | (f, false) => (f, -1)
  | (f, true) =>
    let f := f.strcat (lit "\r\n")
    let curLen := int32 (strlen f.mem)
    if curLen ≤ 0 then (f, curLen)
    else if maxLen < int32 (curLen + rep.content.length) then (f, -1)
    else (f.put curLen.toNat rep.content, int32 (curLen + rep.content.length))

/-- The buffer of `size` bytes holds the string, and no write has gone past `maxLen` or past the end of `field_val`. -/
structure Filling.Holds (maxLen size : Nat) (f : Filling) (s : List UInt8) : Prop where
  string : ∃ t, f.mem = s ++ 0 :: t
  plain : (0 : UInt8) ∉ s
  room : s.length + 1 ≤ maxLen
  length : f.mem.length = size
  ends : ∀ e ∈ f.ends, e ≤ maxLen
  fieldVals : ∀ e ∈ f.fieldVals, e ≤ 1024

namespace Filling.Holds

variable {maxLen size : Nat} {f : Filling} {s : List UInt8}

theorem strlen_eq (h : f.Holds maxLen size s) : strlen f.mem = s.length := by
  obtain ⟨t, ht⟩ := h.string
  rw [ht, strlen, cstr_append_nul h.plain]

/-- A string appended where there is room for it. -/
theorem strcat (h : f.Holds maxLen size s) (hsize : maxLen ≤ size) {src : List UInt8} (h0 : (0 : UInt8) ∉ src)
    (hroom : s.length + src.length + 1 ≤ maxLen) : (f.strcat src).Holds maxLen size (s ++ src) := by
  have hlen := h.strlen_eq
  have hend : s.length + (src ++ [0]).length ≤ maxLen := by
    rw [List.length_append, List.length_singleton]
    omega
  obtain ⟨t, ht⟩ := h.string
  refine ⟨⟨(0 :: t).drop (src ++ [0]).length, ?_⟩, ?_, ?_, ?_, ?_, h.fieldVals⟩
  · rw [Filling.strcat, Filling.put, hlen, ht, memcpy_append]
    simp
  · simp [h.plain, h0]
  · rw [List.length_append]
    exact hroom
  · rw [Filling.strcat, Filling.put, hlen]
    exact (memcpy_length (by rw [h.length]; omega)).trans h.length
  · intro e he
    rw [Filling.strcat, Filling.put, hlen] at he
    rcases List.mem_cons.mp he with rfl | he
    · exact hend
    · exact h.ends e he

end Filling.Holds

/-! ## What it leaves -/

namespace HttpResponse.Strings

variable {rep : HttpResponse} (h : rep.Strings)

include h

theorem head : (0 : UInt8) ∉ rep.head := by
  have hmsg : (0 : UInt8) ∉ errMsg rep.errCode := by
    unfold errMsg
    split_ifs <;> decide
  simp only [HttpResponse.head, List.mem_append, not_or]
  refine ⟨⟨⟨⟨⟨⟨⟨⟨?_, nul_not_mem_intText _⟩, ?_⟩, hmsg⟩, ?_⟩, h.mime⟩, ?_⟩, nul_not_mem_natText _⟩, ?_⟩ <;> decide

theorem line : ∀ field ∈ rep.allFields, (0 : UInt8) ∉ fieldLine field := by
  intro field hfield
  simp only [fieldLine, List.mem_append, not_or]
  rcases List.mem_append.mp hfield with hfield | hfield
  · obtain ⟨hname, hvalue⟩ := h.fields field hfield
    exact ⟨⟨⟨hname, by decide⟩, hvalue⟩, by decide⟩
  · obtain rfl := List.mem_singleton.mp hfield
    decide

end HttpResponse.Strings

/-- The formatted head, cut where the buffer ends. -/
theorem holds_head {rep : HttpResponse} (hs : rep.Strings) {maxLen : Nat} (hlo : 2 ≤ maxLen) {mem : Mem}
    (hmem : maxLen ≤ mem.length) :
    (({ mem, ends := [], fieldVals := [] } : Filling).put 0 (vsnprintf maxLen rep.head).1).Holds maxLen mem.length
      (rep.head.take (maxLen - 1)) := by
  have hcut := List.length_take_le (maxLen - 1) rep.head
  have hbytes : (vsnprintf maxLen rep.head).1 = rep.head.take (maxLen - 1) ++ [0] := if_neg (by omega)
  have hend : 0 + (rep.head.take (maxLen - 1) ++ [0]).length ≤ maxLen := by
    rw [List.length_append, List.length_singleton]
    omega
  rw [Filling.put, hbytes]
  refine ⟨⟨mem.drop (rep.head.take (maxLen - 1) ++ [0]).length, ?_⟩, fun h => hs.head (List.mem_of_mem_take h),
    by omega, ?_, ?_, nofun⟩
  · exact (memcpy_append [] mem _).trans (by simp)
  · exact memcpy_length (hend.trans hmem)
  · intro e he
    exact List.mem_singleton.mp he ▸ hend

section exact

variable {maxLen size : Nat} (hlo : 2 ≤ maxLen) (hhi : maxLen < 2 ^ 30) (hsize : maxLen ≤ size)

include hlo hhi hsize

/-- The loop appends all lines, if there is room behind them for the empty line with a NUL; else it stops before it
has filled the buffer. -/
theorem msgFields_holds (fields : List (List UInt8 × List UInt8)) {f : Filling} {s : List UInt8}
    (h : f.Holds maxLen size s)
    (h0 : ∀ field ∈ fields, (0 : UInt8) ∉ fieldLine field)
    (hlines : ∀ field ∈ fields, (fieldLine field).length < 1024) :
    ∃ s', (msgFields maxLen fields f).1.Holds maxLen size s' ∧
      ((msgFields maxLen fields f).2 = true → s' = s ++ (fields.map fieldLine).flatten) ∧
      ((msgFields maxLen fields f).2 = true ↔ (fields ≠ [] →
        (s ++ (fields.map fieldLine).flatten).length < maxLen - 2)) := by
  induction fields generalizing f s with
  | nil =>
    refine ⟨s, h, ?_, ?_⟩ <;> simp [msgFields]
  | cons field fields ih =>
    have hline := hlines field List.mem_cons_self
    have hlimit : sizeT (maxLen - 2) = maxLen - 2 := by
      rw [sizeT_of_nonneg (by omega) (by omega)]
      omega
    -- `field_val` is written before the check
    have h' : ({ f with fieldVals := ((fieldLine field).length + 1) :: f.fieldVals } : Filling).Holds maxLen
        size s := by
      refine ⟨h.string, h.plain, h.room, h.length, h.ends, ?_⟩
      intro e he
      rcases List.mem_cons.mp he with rfl | he
      · exact hline
      · exact h.fieldVals e he
    have happend : s ++ ((field :: fields).map fieldLine).flatten =
      s ++ fieldLine field ++ (fields.map fieldLine).flatten := by simp
    rw [msgFields, hlimit, h.strlen_eq, happend]
    by_cases hfull : maxLen - 2 ≤ s.length + (fieldLine field).length
    · rw [if_pos hfull]
      refine ⟨s, h', nofun, ?_⟩
      simp only [Bool.false_eq_true, false_iff, Classical.not_imp, List.length_append]
      exact ⟨List.cons_ne_nil _ _, by omega⟩
    · rw [if_neg hfull]
      have hnext := h'.strcat hsize (h0 field List.mem_cons_self) (by omega)
      obtain ⟨s', hs', heq, hiff⟩ :=
        ih hnext (fun x hx => h0 x (List.mem_cons_of_mem _ hx)) fun x hx => hlines x (List.mem_cons_of_mem _ hx)
      refine ⟨s', hs', heq, hiff.trans ?_⟩
      rcases eq_or_ne fields [] with rfl | hne
      · simp only [ne_eq, not_true_eq_false, false_imp_iff, true_iff, List.map_nil, List.flatten_nil, List.append_nil,
          List.length_append]
        exact fun _ => Nat.not_le.mp hfull
      · simp [hne]

/-- The two ways a serialization ends: out of room, or with the whole response in the buffer. -/
theorem httpMsgResponseIn_cases {rep : HttpResponse} (hs : rep.Strings)
    (hlines : ∀ field ∈ rep.fields, (fieldLine field).length < 1024)
    (hlen : rep.content.length < 2 ^ 30) {mem : Mem} (hmem : mem.length = size) :
    ∃ f : Filling, (∀ e ∈ f.ends, e ≤ maxLen) ∧ (∀ e ∈ f.fieldVals, e ≤ 1024) ∧
      ((httpMsgResponseIn maxLen rep mem = (f, -1) ∧ (maxLen - 2 ≤ rep.lines.length ∨ maxLen < rep.text.length)) ∨
        (httpMsgResponseIn maxLen rep mem = (f, (rep.text.length : Int)) ∧ rep.lines.length < maxLen - 2 ∧
          rep.text.length ≤ maxLen ∧
          f.mem.take rep.text.length = rep.text)) := by
  subst hmem
  have hne : rep.allFields ≠ [] := List.append_ne_nil_of_right_ne_nil _ (List.cons_ne_nil _ _)
  have hall : ∀ field ∈ rep.allFields, (fieldLine field).length < 1024 := by
    intro field hfield
    rcases List.mem_append.mp hfield with hfield | hfield
    · exact hlines field hfield
    · obtain rfl := List.mem_singleton.mp hfield
      decide
  have hlength : rep.lines.length = rep.head.length + (rep.allFields.map fieldLine).flatten.length := List.length_append
  obtain ⟨s, hloop, heq, hiff⟩ := msgFields_holds hlo hhi hsize rep.allFields (holds_head hs hlo hsize) hs.line hall
  simp only [httpMsgResponseIn]
  generalize msgFields maxLen rep.allFields _ = r at hloop heq hiff ⊢
  obtain ⟨f, done⟩ := r
  -- a head that was cut fills the buffer, so that no field fits behind it
  have hdone : done = true ↔ rep.lines.length < maxLen - 2 := by
    rw [hiff, List.length_append, List.length_take]
    exact ⟨fun h => by have := h hne; omega, fun h _ => by omega⟩
  cases done with
  | false => exact ⟨f, hloop.ends, hloop.fieldVals, .inl ⟨rfl, .inl (Nat.not_lt.mp fun h => nomatch hdone.mpr h)⟩⟩
  | true =>
    have hroom := hdone.mp rfl
    have hs' : s = rep.lines := by
      rw [heq rfl, List.take_of_length_le (by omega)]
      rfl
    subst hs'
    have hcr : (lit "\r\n").length = 2 := by decide
    have hempty : (f.strcat (lit "\r\n")).Holds maxLen mem.length (rep.lines ++ lit "\r\n") :=
      hloop.strcat hsize (by decide) (by omega)
    have htext : rep.text.length = rep.lines.length + 2 + rep.content.length := by
      rw [HttpResponse.text, List.length_append, List.length_append, hcr]
    have hcur : int32 (strlen (f.strcat (lit "\r\n")).mem) = (rep.lines.length + 2 : Nat) := by
      rw [hempty.strlen_eq, List.length_append, hcr]
      exact int32_of_range (by omega) (by omega)
    have hret : int32 ((rep.lines.length + 2 : Nat) + rep.content.length) = (rep.text.length : Int) := by
      rw [int32_of_range (by omega) (by omega), htext]
      omega
    simp only [hcur, hret]
    rw [if_neg (by omega)]
    by_cases hfit : maxLen < rep.text.length
    · rw [if_pos (Int.ofNat_lt.mpr hfit)]
      exact ⟨_, hempty.ends, hempty.fieldVals, .inl ⟨rfl, .inr hfit⟩⟩
    · rw [if_neg (fun h => hfit (Int.ofNat_lt.mp h)), Int.toNat_natCast]
      refine ⟨(f.strcat (lit "\r\n")).put (rep.lines.length + 2) rep.content, ?_, hempty.fieldVals,
        .inr ⟨rfl, hroom, Nat.not_lt.mp hfit, ?_⟩⟩
      · intro e he
        rcases List.mem_cons.mp he with rfl | he
        · exact htext ▸ Nat.not_lt.mp hfit
        · exact hempty.ends e he
      · obtain ⟨t, ht⟩ := hempty.string
        have hat : (rep.lines ++ lit "\r\n").length = rep.lines.length + 2 := by rw [List.length_append, hcr]
        rw [Filling.put, ht, ← hat, memcpy_append, ← HttpResponse.text, List.take_left]

/-- What is left in the buffer is the serialized response, if there is one. -/
theorem httpMsgResponseIn_serializes {rep : HttpResponse} (hs : rep.Strings)
    (hlines : ∀ field ∈ rep.fields, (fieldLine field).length < 1024) (hlen : rep.content.length < 2 ^ 30) {mem : Mem}
    (hmem : mem.length = size) :
    httpMsgResponse maxLen rep =
      if (httpMsgResponseIn maxLen rep mem).2 = -1 then none
      else some ((httpMsgResponseIn maxLen rep mem).1.mem.take (httpMsgResponseIn maxLen rep mem).2.toNat) := by
  rw [httpMsgResponse_eq]
  obtain ⟨f, -, -, ⟨heq, hfull⟩ | ⟨heq, hroom, hfit, htake⟩⟩ :=
    httpMsgResponseIn_cases hlo hhi hsize hs hlines hlen hmem
  · rw [heq, if_pos hfull, if_pos rfl]
  · rw [heq, if_neg (by omega), if_neg (by simp only; omega)]
    simp only [Int.toNat_natCast, htake]

/-- `http_msg_response` answers -1 exactly when its lines fill the buffer but for two bytes or the response is longer
than the buffer; else it leaves the response at the start of the buffer and answers its length. Neither of its
buffers is ever overrun. -/
theorem http_msg_response_exact {rep : HttpResponse} (hs : rep.Strings)
    (hlines : ∀ field ∈ rep.fields, (fieldLine field).length < 1024)
    (hlen : rep.content.length < 2 ^ 30) {mem : Mem} (hmem : mem.length = size) :
    ((httpMsgResponseIn maxLen rep mem).2 = -1 ↔ maxLen - 2 ≤ rep.lines.length ∨ maxLen < rep.text.length) ∧
      ((httpMsgResponseIn maxLen rep mem).2 ≠ -1 →
        (httpMsgResponseIn maxLen rep mem).2 = rep.text.length ∧ rep.text.length ≤ maxLen ∧
          (httpMsgResponseIn maxLen rep mem).1.mem.take rep.text.length = rep.text) ∧
      (∀ e ∈ (httpMsgResponseIn maxLen rep mem).1.ends, e ≤ maxLen) ∧
      ∀ e ∈ (httpMsgResponseIn maxLen rep mem).1.fieldVals, e ≤ 1024 := by
  obtain ⟨f, hends, hvals, ⟨heq, hfull⟩ | ⟨heq, hroom, hfit, htake⟩⟩ :=
    httpMsgResponseIn_cases hlo hhi hsize hs hlines hlen hmem
  · rw [heq]
    exact ⟨⟨fun _ => hfull, fun _ => rfl⟩, fun h => absurd rfl h, hends, hvals⟩
  · rw [heq]
    refine ⟨⟨fun h => ?_, fun h => by omega⟩, fun _ => ⟨rfl, hfit, htake⟩, hends, hvals⟩
    simp only at h
    omega

end exact

/-- A response whose content holds a NUL. -/
def notFound : HttpResponse where
  errCode := 404
  mimeType := lit "text/plain"
  content := [97, 0, 98]
  fields := [(lit "Access-Control-Allow-Origin", lit "*")]

/-- It is left whole in a buffer of 200 bytes. -/
theorem http_msg_response_exact_notFound :
    (httpMsgResponseIn 200 notFound (List.replicate 200 1)).2 = notFound.text.length ∧ notFound.text.length ≤ 200 ∧
      (httpMsgResponseIn 200 notFound (List.replicate 200 1)).1.mem.take notFound.text.length = notFound.text := by
  obtain ⟨hiff, hwhole, -⟩ := @http_msg_response_exact 200 200 (by decide) (by decide) (Nat.le_refl _) notFound
    ⟨by decide +kernel, by decide +kernel⟩ (by decide +kernel) (by decide) (List.replicate 200 1)
    (List.length_replicate ..)
  exact hwhole (mt hiff.mp (by decide +kernel))

end ZeroServ
