import ZeroServ.PubSub.PlainText

/-!
# Chunks with either line end

`format_msg` closes a line at a CR as at a LF, but `process_plain_text` goes on two bytes behind each command, for a
CR and a LF. Behind a LF alone it goes on in the middle of the next command. `chunk_executed_iff`: the commands of a
chunk are executed once and whole exactly if all but the last of them end with both.
-/

namespace ZeroServ

open CString

/-- What ends a command. -/
inductive LineEnd where
  | crlf | lf
  deriving DecidableEq, Repr

def LineEnd.bytes : LineEnd → List UInt8
  | .crlf => [13, 10]
  | .lf => [10]

/-- Commands with their line ends, as they are sent. -/
def chunk (lines : List (List UInt8 × LineEnd)) : List UInt8 := (lines.map fun l => l.1 ++ l.2.bytes).flatten

/-- A command is not empty, and free of NUL, LF and CR. -/
structure Plain (c : List UInt8) : Prop where
  ne_nil : c ≠ []
  plain : ∀ b ∈ c, b ≠ 0 ∧ b ≠ 10 ∧ b ≠ 13

/-- What `process_plain_text` finds in the buffer. -/
structure Finds (ib : InputBuffer) (bytes : List UInt8) : Prop where
  curr_le : ib.curr ≤ ib.r
  r_le : ib.r ≤ ib.buff.length
  bytes : (ib.buff.drop ib.curr).take (ib.r - ib.curr) = bytes

/-- Each command was handed to `model_process` once, in order and whole, and the buffer is empty. -/
def Executed (lines : List (List UInt8 × LineEnd)) (done : List Mem × InputBuffer) : Prop :=
  done.1.map cstr = lines.map Prod.fst ∧ done.2.curr = 0 ∧ done.2.r = 0

/-! ## The loop over a chunk -/

/-- `process_plain_text` takes the commands out of what it finds, and leaves the buffer empty. -/
theorem processPlainText_finds {ib : InputBuffer} {bytes : List UInt8} (h : Finds ib bytes) (behind : Mem) :
    (ib.processPlainText behind).1 = requests bytes.length
      (bytes.map closeLine ++ (ib.buff.drop ib.r ++ behind)) bytes.length ∧
      (ib.processPlainText behind).2.curr = 0 ∧ (ib.processPlainText behind).2.r = 0 := by
  have hlen : bytes.length = ib.r - ib.curr := by
    rw [← h.bytes, List.length_take, List.length_drop]
    have := h.r_le
    omega
  have hdrop : (ib.buff ++ behind).drop ib.curr = bytes ++ (ib.buff.drop ib.r ++ behind) := by
    rw [List.drop_append_of_le_length (h.curr_le.trans h.r_le), ← h.bytes, ← List.append_assoc]
    congr 1
    rw [← Nat.add_sub_of_le h.curr_le, ← List.drop_drop, Nat.add_sub_of_le h.curr_le, List.take_append_drop]
  have htake : ((ib.buff ++ behind).take ib.curr).length = ib.curr := by
    rw [List.length_take, List.length_append]
    have := h.r_le
    have := h.curr_le
    omega
  have hformat : formatMsg (bytes ++ (ib.buff.drop ib.r ++ behind)) bytes.length =
      bytes.map closeLine ++ (ib.buff.drop ib.r ++ behind) := by
    rw [formatMsg, List.take_left, List.drop_left]
  obtain ⟨hcalls, -, hend⟩ := @plainLoop_eq bytes.length bytes.length
    ((ib.buff ++ behind).take ib.curr ++ (bytes.map closeLine ++ (ib.buff.drop ib.r ++ behind))) ib.curr 0
    (by rw [List.length_append, htake, List.length_append, List.length_map]; omega) (Nat.zero_le _) (Nat.sub_le _ _)
  rw [List.drop_left' htake, Nat.sub_zero] at hcalls
  rw [Nat.sub_zero, hlen, Nat.add_sub_of_le h.curr_le, ← hlen] at hend
  unfold InputBuffer.processPlainText
  simp only [← hlen, hdrop, hformat]
  rw [hend, if_pos rfl]
  exact ⟨hcalls, rfl, rfl⟩

/-- `model_process` stores nothing but NULs. -/
theorem Model.scribble_nuls (content : Mem) (delim : UInt8) :
    List.Forall₂ (fun x y => x = y ∨ x = 0) (Model.scribble content delim) content := by
  have hrefl : ∀ l : List UInt8, List.Forall₂ (fun x y => x = y ∨ x = 0) l l :=
    fun l => List.forall₂_same.mpr fun _ _ => .inl rfl
  have hclear : ∀ p : Mem, List.Forall₂ (fun x y => x = y ∨ x = 0) (Model.clear p delim) p := by
    intro p
    unfold Model.clear Model.cut
    cases hc : strchr p delim with
    | none => exact hrefl p
    | some pos =>
      obtain ⟨a, b, rfl, rfl, -, -⟩ := strchr_eq_some hc
      simp only [Option.map_some, List.length_append, Nat.add_sub_cancel, List.take_left, List.tail_cons]
      exact List.rel_append (hrefl a) (.cons (.inr rfl) (hrefl b))
  have hk : ∀ k : Nat, List.Forall₂ (fun x y => x = y ∨ x = 0)
      (content.take k ++ Model.clear (content.drop k) delim) content := by
    intro k
    have happend : List.Forall₂ _ (content.take k ++ Model.clear (content.drop k) delim)
        (content.take k ++ content.drop k) :=
      List.rel_append (hrefl (content.take k)) (hclear (content.drop k))
    rwa [List.take_append_drop] at happend
  unfold Model.scribble
  split
  · exact hk 4
  · exact hk 6
  · exact hk 6
  · exact hrefl content

/-- More NULs make no string longer. -/
theorem strlen_le_of_nuls {p q : Mem} (h : List.Forall₂ (fun x y => x = y ∨ x = 0) p q) : strlen p ≤ strlen q := by
  induction h with
  | nil => exact Nat.le_refl _
  | @cons x y p q hxy h ih =>
    unfold strlen cstr at ih ⊢
    by_cases hx : x = 0
    · simp [hx]
    · obtain rfl := hxy.resolve_right hx
      simpa [hx] using ih

theorem chunk_cons (l : List UInt8 × LineEnd) (lines : List (List UInt8 × LineEnd)) :
    chunk (l :: lines) = l.1 ++ (l.2.bytes ++ chunk lines) := by
  simp [chunk]

/-- Behind a line end of two bytes the loop goes on with the next command. -/
theorem requests_crlf {c : List UInt8} (h0 : (0 : UInt8) ∉ c) {k left : Nat} (rest : Mem)
    (hleft : c.length + 2 ≤ left) :
    requests (k + 1) (c ++ 0 :: 0 :: rest) left = (c ++ 0 :: 0 :: rest) :: requests k rest (left - (c.length + 2)) := by
  have hinc : inc (c ++ 0 :: 0 :: rest) left = c.length + 2 := by
    rw [inc, strlen, cstr_append_nul h0, if_pos hleft]
  rw [requests_succ _ _ (by omega), hinc, Model.scribble_drop h0 _ (by decide)]

/-- The last command goes to the end of the chunk, whatever ends it. -/
theorem requests_last {c : List UInt8} (h0 : (0 : UInt8) ∉ c) {k left : Nat} (rest : Mem) (hpos : 0 < left)
    (hleft : left ≤ c.length + 2) :
    requests (k + 1) (c ++ 0 :: rest) left = [c ++ 0 :: rest] := by
  have hinc : inc (c ++ 0 :: rest) left = left := by
    rw [inc, strlen, cstr_append_nul h0]
    split <;> omega
  rw [requests_succ _ _ hpos.ne', hinc, Nat.sub_self, requests_zero]

/-- Behind a line end of one byte the loop goes on in the middle of the next command, of which it takes less than the
whole. -/
theorem requests_lf {c d : List UInt8} (h0 : (0 : UInt8) ∉ c) (hd : d ≠ []) (hd0 : (0 : UInt8) ∉ d) {k left : Nat}
    (rest : Mem) (hk : left ≤ k) (hleft : c.length + d.length + 2 ≤ left) :
    ∃ M more, requests k (c ++ 0 :: (d ++ 0 :: rest)) left = (c ++ 0 :: (d ++ 0 :: rest)) :: M :: more ∧
      strlen M < d.length := by
  have hpos := List.length_pos_of_ne_nil hd
  have hinc : inc (c ++ 0 :: (d ++ 0 :: rest)) left = c.length + 2 := by
    rw [inc, strlen, cstr_append_nul h0, if_pos (by omega)]
  obtain ⟨k, rfl⟩ : ∃ k', k = k' + 2 := ⟨k - 2, by omega⟩
  refine ⟨_, _, by rw [requests_succ _ _ (by omega), hinc, requests_succ _ _ (by omega)], ?_⟩
  have hle := strlen_le_of_nuls (List.forall₂_drop (c.length + 2) (Model.scribble_nuls (c ++ 0 :: (d ++ 0 :: rest)) 32))
  obtain ⟨b, d, rfl⟩ := List.exists_cons_of_ne_nil hd
  have hbehind : (c ++ 0 :: (b :: d ++ 0 :: rest)).drop (c.length + 2) = d ++ 0 :: rest := by
    rw [List.drop_length_add_append]
    rfl
  rw [hbehind, strlen, strlen, cstr_append_nul fun h => hd0 (List.mem_cons_of_mem _ h)] at hle
  exact Nat.lt_succ_of_le hle

/-- A command in the memory that `format_msg` has gone over: a NUL follows it, and a second one if it ended with CR
and LF. -/
theorem map_chunk_cons {l : List UInt8 × LineEnd} (h : Plain l.1) (lines : List (List UInt8 × LineEnd)) (rest : Mem) :
    (chunk (l :: lines)).map closeLine ++ rest =
      l.1 ++ 0 :: (l.2.bytes.tail.map closeLine ++ ((chunk lines).map closeLine ++ rest)) := by
  rw [chunk_cons, List.map_append, map_closeLine h.plain, List.map_append]
  obtain ⟨c, e⟩ := l
  cases e <;> simp [LineEnd.bytes, closeLine]

/-- The loop takes the commands whole exactly if all but the last of them end with CR and LF. -/
theorem requests_chunk {lines : List (List UInt8 × LineEnd)} (h : ∀ l ∈ lines, Plain l.1) {k : Nat}
    (hk : (chunk lines).length ≤ k) (rest : Mem) :
    (requests k ((chunk lines).map closeLine ++ rest) (chunk lines).length).map cstr = lines.map Prod.fst ↔
      ∀ l ∈ lines.dropLast, l.2 = .crlf := by
  induction lines generalizing k with
  | nil => simp [chunk, requests_zero]
  | cons l lines ih =>
    have hl := h l List.mem_cons_self
    have h0 : (0 : UInt8) ∉ l.1 := fun h0 => (hl.plain 0 h0).1 rfl
    have hlen : (chunk (l :: lines)).length = l.1.length + (l.2.bytes.length + (chunk lines).length) := by
      rw [chunk_cons, List.length_append, List.length_append]
    have hend : 0 < l.2.bytes.length ∧ l.2.bytes.length ≤ 2 := by cases l.2 <;> decide
    obtain ⟨k, rfl⟩ : ∃ k', k = k' + 1 := ⟨k - 1, by omega⟩
    have hstr : ∀ t : Mem, cstr (l.1 ++ 0 :: t) = l.1 := fun t => cstr_append_nul h0 t
    rw [map_chunk_cons hl]
    cases lines with
    | nil =>
      have hnil : (chunk []).length = 0 := rfl
      rw [requests_last h0 _ (by omega) (by omega)]
      simp [hstr]
    | cons l' lines =>
      have hl' := h l' (List.mem_cons_of_mem _ List.mem_cons_self)
      have h0' : (0 : UInt8) ∉ l'.1 := fun h0 => (hl'.plain 0 h0).1 rfl
      have hrest := fun x hx => h x (List.mem_cons_of_mem _ hx)
      have hnext : (l :: l' :: lines).dropLast = l :: (l' :: lines).dropLast := rfl
      have hlen' : (chunk (l' :: lines)).length = l'.1.length + (l'.2.bytes.length + (chunk lines).length) := by
        rw [chunk_cons, List.length_append, List.length_append]
      have hend' : 0 < l'.2.bytes.length := by cases l'.2 <;> decide
      rw [hnext]
      cases he : l.2 with
      | crlf =>
        have htwo : l.2.bytes.length = 2 := by rw [he]; rfl
        have hmem : LineEnd.crlf.bytes.tail.map closeLine ++ ((chunk (l' :: lines)).map closeLine ++ rest) =
            0 :: ((chunk (l' :: lines)).map closeLine ++ rest) := rfl
        have hleft : (chunk (l :: l' :: lines)).length - (l.1.length + 2) = (chunk (l' :: lines)).length := by omega
        rw [hmem, requests_crlf h0 _ (by omega), hleft, List.map_cons, hstr, List.map_cons, List.cons_eq_cons]
        simp only [true_and, List.forall_mem_cons, he]
        exact ih hrest (by omega)
      | lf =>
        have hone : l.2.bytes.length = 1 := by rw [he]; rfl
        have hmem : LineEnd.lf.bytes.tail.map closeLine ++ ((chunk (l' :: lines)).map closeLine ++ rest) =
            (chunk (l' :: lines)).map closeLine ++ rest := rfl
        rw [hmem, map_chunk_cons hl']
        obtain ⟨M, more, heq, hlt⟩ := requests_lf h0 hl'.ne_nil h0'
          (l'.2.bytes.tail.map closeLine ++ ((chunk lines).map closeLine ++ rest)) hk (by omega)
        rw [heq]
        simp only [List.map_cons, List.cons.injEq, List.forall_mem_cons, he, reduceCtorEq, false_and,
          iff_false, not_and]
        intro _ hM
        rw [strlen, hM] at hlt
        omega

/-- Each command of a chunk is executed once and whole, whatever `process_plain_text` finds it in, exactly if all but
the last of them end with CR and LF. -/
theorem chunk_executed_iff {lines : List (List UInt8 × LineEnd)} (h : ∀ l ∈ lines, Plain l.1) {ib : InputBuffer}
    (hfinds : Finds ib (chunk lines)) (behind : Mem) :
    Executed lines (ib.processPlainText behind) ↔ ∀ l ∈ lines.dropLast, l.2 = .crlf := by
  obtain ⟨hcalls, hcurr, hr⟩ := processPlainText_finds hfinds behind
  rw [Executed, hcalls, requests_chunk h (Nat.le_refl _)]
  exact ⟨fun h => h.1, fun h => ⟨h, hcurr, hr⟩⟩

/-- The input buffer after a first `recv`. -/
def received (bytes : List UInt8) : InputBuffer where
  buff := bytes ++ List.replicate (HTTP_BUFFER_SIZE - bytes.length) 0
  curr := 0
  r := bytes.length

/-- Two commands, the last of which ends with a LF alone. -/
theorem chunk_executed_last_lf :
    Executed [(lit "sub t", .crlf), (lit "ack", .lf)]
      ((received (chunk [(lit "sub t", .crlf), (lit "ack", .lf)])).processPlainText []) := by
  have hplain : ∀ l ∈ [(lit "sub t", LineEnd.crlf), (lit "ack", .lf)], l.1 ≠ [] ∧ ∀ b ∈ l.1, b ≠ 0 ∧ b ≠ 10 ∧
    b ≠ 13 := by decide +kernel
  exact (chunk_executed_iff (fun l hl => ⟨(hplain l hl).1, (hplain l hl).2⟩)
    ⟨by decide +kernel, by decide +kernel, by decide +kernel⟩ []).mpr (by decide +kernel)

/-- Two commands that end with a LF alone: the first byte of the second one is lost. -/
theorem chunk_lf_loses_byte :
    ¬Executed [(lit "ack", .lf), (lit "sub t", .lf)]
      ((received (chunk [(lit "ack", .lf), (lit "sub t", .lf)])).processPlainText []) := by
  rintro ⟨h, -⟩
  exact absurd h (by decide +kernel)

end ZeroServ
