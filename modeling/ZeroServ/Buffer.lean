import ZeroServ.Lib.CInt
import ZeroServ.Lib.Run

/-!
# Output buffers

`buffer.h`: `total` bytes from `buff` on, of which `r` is the end of what was written and `curr` the end of what was
consumed, both as offsets from `buff`. `mem` is the memory from `buff` on, beyond the buffer too. Each writing
operation also gives the bytes it stores at `r`, so that it can be said where it writes.

`buffer_sprintf` moves `r` by the length of the formatted text, `buffer_write` by what it copied; `buffer_inv_iff`
says what that costs.
-/

namespace ZeroServ

open CInt Run

/-- `struct buffer` -/
structure Buffer where
  mem : Nat → UInt8
  total : Nat
  curr : Nat
  r : Nat

/-- `vsnprintf(s, n, ...)` for a formatted text: the bytes it stores, `n` at most, its NUL included, and the length
it returns, which is that of the whole text; a length that is no `int` is an error. -/
def vsnprintf (n : Nat) (text : List UInt8) : List UInt8 × Int :=
  (if n = 0 then [] else text.take (n - 1) ++ [0], if text.length < 2147483648 then text.length else -1)

namespace Buffer

/-- The memory after bytes have been stored at an offset. -/
def store (mem : Nat → UInt8) (ofs : Nat) (bytes : List UInt8) : Nat → UInt8 :=
  fun i => if ofs ≤ i then (bytes[i - ofs]?).getD (mem i) else mem i

/-- `buffer_init`, over whatever `malloc` returned. -/
def init (mem : Nat → UInt8) (total : Nat) : Buffer := { mem, total, curr := 0, r := 0 }

variable (b : Buffer)

/-- `buffer_empty` -/
def empty : Bool := b.r = b.curr

/-- `buffer_reset` -/
def reset : Buffer := { b with curr := 0, r := 0 }

/-- `buffer_remain_read` -/
def remainRead : Int := int32 (b.r - b.curr)

/-- `buffer_remain_write` -/
def remainWrite : Int := int32 (b.total - b.r)

/-- The bytes that are still to be sent. -/
def pending : List UInt8 := (List.range (b.r - b.curr)).map fun i => b.mem (b.curr + i)

/-- `buffer_sprintf`: the buffer it leaves, what it returns and the bytes it stores. -/
def sprintf (text : List UInt8) : Buffer × Int × List UInt8 :=
  let (out, ret) := vsnprintf (sizeT b.remainWrite) text
  let mem := store b.mem b.r out
  (if ret > 0 then { b with mem, r := b.r + ret.toNat } else { b with mem }, ret, out)

/-- `buffer_write` of `length` bytes from the memory at `content`: the buffer it leaves, what it returns and the
bytes it stores. -/
def write (content : Nat → UInt8) (length : Nat) : Buffer × Int × List UInt8 :=
  if b.remainWrite ≤ length then (b, int32 (b.remainWrite - length), [])
  else
    let out := (List.range length).map content
    ({ b with mem := store b.mem b.r out, r := b.r + length }, length, out)

/-- One operation on a buffer; `consume` is a `send` that took `n` bytes. -/
inductive Op where
  | sprintf (text : List UInt8)
  | write (content : Nat → UInt8) (length : Nat) (isInt : length < 2147483648)
  | consume (n : Nat)
  | reset

/-- The bytes that an operation stores at `r`. -/
def stored : Op → List UInt8
  | .sprintf text => (b.sprintf text).2.2
  | .write content length _ => (b.write content length).2.2
  | .consume _ | .reset => []

/-- One operation, if it is possible: no more is consumed than can be read. -/
def step (b : Buffer) : Op → Option Buffer
  | .sprintf text => some (b.sprintf text).1
  | .write content length _ => some (b.write content length).1
  | .consume n => if n ≤ b.remainRead then some { b with curr := b.curr + n } else none
  | .reset => some b.reset

/-! ## What is to be sent -/

/-- What is consumed was at the front of what was to be sent. -/
theorem pending_consume {n : Nat} (h : n ≤ b.r - b.curr) :
    b.pending.take n ++ pending { b with curr := b.curr + n } = b.pending := by
  have hsplit : List.range (b.r - b.curr) = List.range n ++ (List.range (b.r - b.curr - n)).map (n + ·) := by
    rw [← List.range_add, Nat.add_sub_of_le h]
  have htake : b.pending.take n = (List.range n).map fun i => b.mem (b.curr + i) := by
    rw [pending, hsplit, List.map_append, List.take_left' (by simp)]
  rw [htake, pending, pending, hsplit, List.map_append, List.map_map, Nat.sub_add_eq]
  congr 1
  refine List.map_congr_left fun i _ => ?_
  dsimp only [Function.comp_apply]
  rw [Nat.add_assoc]

/-- What is stored at `r` and counted is behind what was to be sent, whatever else is stored behind it. -/
theorem pending_store (bytes extra : List UInt8) (h : b.curr ≤ b.r) :
    pending { b with mem := store b.mem b.r (bytes ++ extra), r := b.r + bytes.length } = b.pending ++ bytes := by
  have hsplit : List.range (b.r + bytes.length - b.curr) =
      List.range (b.r - b.curr) ++ (List.range bytes.length).map (b.r - b.curr + ·) := by
    rw [← List.range_add, Nat.sub_add_comm h]
  rw [pending, pending, hsplit, List.map_append, List.map_map]
  congr 1
  · refine List.map_congr_left ?_
    intro i hi
    rw [List.mem_range] at hi
    exact if_neg (by dsimp only; omega)
  · refine List.ext_getElem (by simp) ?_
    intro i h₁ h₂
    have hr : b.curr + (b.r - b.curr + i) = b.r + i := by omega
    simp [store, hr, List.getElem?_append_left h₂, h₂]

/-- The buffer with bytes appended to what was written. -/
def appended (bytes : List UInt8) : Buffer := { b with mem := store b.mem b.r bytes, r := b.r + bytes.length }

theorem write_eq (content : Nat → UInt8) (length : Nat) :
    (b.write content length).1 = if b.remainWrite ≤ length then b else
      b.appended ((List.range length).map content) := by
  unfold write appended
  split
  · rfl
  · simp

theorem appended_nil : b.appended [] = b := by
  have hmem : store b.mem b.r [] = b.mem := by
    funext i
    simp [store]
  rw [appended, hmem]
  rfl

theorem appended_append (x y : List UInt8) : (b.appended x).appended y = b.appended (x ++ y) := by
  have hmem : store (store b.mem b.r x) (b.r + x.length) y = store b.mem b.r (x ++ y) := by
    funext i
    simp only [store]
    rcases Nat.lt_or_ge i b.r with hlt | hge
    · rw [if_neg (by omega), if_neg (by omega), if_neg (by omega)]
    · rcases Nat.lt_or_ge i (b.r + x.length) with hx | hx
      · rw [if_neg (by omega), if_pos hge, if_pos hge, List.getElem?_append_left (by omega)]
      · rw [if_pos hx, if_pos hge, if_pos hge, List.getElem?_append_right (by omega),
          List.getElem?_eq_none (l := x) (by omega), Option.getD_none, Nat.sub_add_eq]
  simp only [appended, hmem, List.length_append, Nat.add_assoc]

/-- What is appended comes off the room that is left. -/
theorem remainWrite_appended {bytes : List UInt8} (h : bytes.length ≤ b.remainWrite) :
    (b.appended bytes).remainWrite = b.remainWrite - bytes.length := by
  have hlt := int32_lt (b.total - b.r)
  have hcast : (b.total : Int) - (b.r + bytes.length : Nat) = b.total - b.r - bytes.length := by omega
  rw [remainWrite, appended, hcast, int32, ← Int.bmod_sub_bmod]
  rw [remainWrite] at h ⊢
  exact int32_of_range (by rw [← int32]; omega) (by rw [← int32]; omega)

/-- After a reset, what is written is what is to be sent. -/
theorem pending_reset_write {bytes : List UInt8} (hlt : b.total < 2147483648) (hfit : bytes.length < b.total) :
    (b.reset.write (fun i => bytes.getD i 0) bytes.length).1.pending = bytes ∧
      (b.reset.write (fun i => bytes.getD i 0) bytes.length).1.curr = 0 ∧
      (b.reset.write (fun i => bytes.getD i 0) bytes.length).1.r = bytes.length ∧
      (b.reset.write (fun i => bytes.getD i 0) bytes.length).1.total = b.total := by
  have hroom : b.reset.remainWrite = b.total := by
    rw [remainWrite, reset]
    exact int32_of_range (by dsimp only; omega) (by dsimp only; omega)
  rw [write, hroom, if_neg (by omega)]
  refine ⟨?_, rfl, by rw [reset]; exact Nat.zero_add _, rfl⟩
  rw [pending, reset]
  refine List.ext_getElem (by simp) fun i h₁ h₂ => ?_
  simp [store, h₂]

/-! ## The invariant -/

/-- `buff <= curr <= r <= buff + total`, and what can be read and written is not negative. -/
structure Inv (total : Nat) (b : Buffer) : Prop where
  total_eq : b.total = total
  curr_le : b.curr ≤ b.r
  r_le : b.r ≤ b.total
  remainRead_nonneg : 0 ≤ b.remainRead
  remainWrite_nonneg : 0 ≤ b.remainWrite

/-- An operation stores nothing at or past `buff + total`. -/
def StoresInside (b : Buffer) (op : Op) (_ : Buffer) : Prop := b.stored op ≠ [] → b.r + (b.stored op).length ≤ b.total

/-- A formatted text fits into what is left of the buffer; its NUL need not. One longer than an `int` is refused. -/
def TextFits (b : Buffer) (op : Op) (_ : Buffer) : Prop :=
  match op with
  | .sprintf text => text.length ≤ b.remainWrite ∨ 2147483648 ≤ text.length
  | _ => True

variable {b} {total : Nat}

/-- Inside the buffer the `int`s are the differences they are computed from. -/
theorem remainWrite_eq (hlt : b.total < 2147483648) (hr : b.r ≤ b.total) : b.remainWrite = b.total - b.r :=
  int32_of_range (by omega) (by omega)

theorem remainRead_eq (hlt : b.total < 2147483648) (hc : b.curr ≤ b.r) (hr : b.r ≤ b.total) :
    b.remainRead = b.r - b.curr :=
  int32_of_range (by omega) (by omega)

/-- The invariant is its three comparisons, in a buffer whose size is an `int`. -/
theorem inv_of_le (hlt : total < 2147483648) (ht : b.total = total) (hc : b.curr ≤ b.r) (hr : b.r ≤ b.total) :
    Inv total b := by
  have hlt' : b.total < 2147483648 := by omega
  refine ⟨ht, hc, hr, ?_, ?_⟩
  · rw [remainRead_eq hlt' hc hr]
    omega
  · rw [remainWrite_eq hlt' hr]
    omega

theorem sprintf_r (text : List UInt8) :
    (b.sprintf text).1.r = (if text.length < 2147483648 then b.r + text.length else b.r) ∧
      (b.sprintf text).1.curr = b.curr ∧ (b.sprintf text).1.total = b.total := by
  unfold sprintf vsnprintf
  by_cases hlen : text.length < 2147483648
  · by_cases hpos : (text.length : Int) > 0
    · simp only [hlen, if_true, hpos, Int.toNat_natCast, and_self]
    · have h0 : text.length = 0 := by omega
      simp [h0]
  · simp [hlen]

/-- What is left of the buffer bounds what a formatted write stores. -/
theorem sprintf_stored_length (hlt : b.total < 2147483648) (hr : b.r ≤ b.total) (text : List UInt8)
    (hne : (b.sprintf text).2.2 ≠ []) : b.r + (b.sprintf text).2.2.length ≤ b.total := by
  have hsize : sizeT b.remainWrite = b.total - b.r := by
    rw [remainWrite_eq hlt hr, sizeT_of_nonneg (by omega) (by omega)]
    omega
  simp only [sprintf, vsnprintf, hsize] at hne ⊢
  by_cases h0 : b.total - b.r = 0
  · simp [h0] at hne
  · rw [if_neg h0, List.length_append, List.length_take, List.length_singleton]
    omega

theorem write_cases (hlt : b.total < 2147483648) (hr : b.r ≤ b.total) (content : Nat → UInt8) (length : Nat) :
    ((b.write content length).1 = b ∧ (b.write content length).2.2 = []) ∨
    (b.r + length < b.total ∧ (b.write content length).1.r = b.r + length ∧ (b.write content length).1.curr = b.curr ∧
      (b.write content length).1.total = b.total ∧ (b.write content length).2.2.length = length) := by
  unfold write
  rw [remainWrite_eq hlt hr]
  split
  · exact .inl ⟨rfl, rfl⟩
  · refine .inr ⟨by omega, rfl, rfl, rfl, ?_⟩
    rw [List.length_map, List.length_range]

/-- One operation whose text fits keeps the invariant. -/
theorem inv_step (hlt : total < 2147483648) {b b' : Buffer} {op : Op} (hi : Inv total b) (hs : step b op = some b')
    (hfit : TextFits b op b') : Inv total b' := by
  have htot : b.total < 2147483648 := hi.total_eq ▸ hlt
  have hcr := hi.curr_le
  have hrt := hi.r_le
  cases op with
  | sprintf text =>
    obtain rfl := Option.some.inj hs
    obtain ⟨hr, hc, ht⟩ := b.sprintf_r text
    have hroom : text.length ≤ b.remainWrite ∨ 2147483648 ≤ text.length := hfit
    rw [remainWrite_eq htot hrt] at hroom
    refine inv_of_le hlt (ht.trans hi.total_eq) ?_ ?_
    · rw [hr, hc]
      split <;> omega
    · rw [hr, ht]
      split <;> omega
  | write content length isInt =>
    obtain rfl := Option.some.inj hs
    rcases write_cases htot hrt content length with ⟨heq, -⟩ | ⟨hroom, hr, hc, ht, -⟩
    · rw [heq]
      exact hi
    · exact inv_of_le hlt (ht.trans hi.total_eq) (by rw [hr, hc]; omega) (by rw [hr, ht]; omega)
  | consume n =>
    obtain ⟨hn, hb⟩ := Option.ite_none_right_eq_some.mp hs
    obtain rfl := Option.some.inj hb
    rw [remainRead_eq htot hcr hrt] at hn
    exact inv_of_le hlt hi.total_eq (by simp only; omega) hrt
  | reset =>
    obtain rfl := Option.some.inj hs
    exact inv_of_le hlt hi.total_eq (Nat.le_refl 0) (Nat.zero_le _)

/-- Inside the invariant no operation stores past the end. -/
theorem storesInside (hlt : total < 2147483648) {b b' : Buffer} {op : Op} (hi : Inv total b) :
    StoresInside b op b' := by
  have htot : b.total < 2147483648 := hi.total_eq ▸ hlt
  intro hne
  cases op with
  | sprintf text => exact sprintf_stored_length htot hi.r_le text hne
  | write content length isInt =>
    rcases write_cases htot hi.r_le content length with ⟨-, hnone⟩ | ⟨hroom, -, -, -, hlen⟩
    · exact absurd hnone hne
    · simp only [stored] at hne ⊢
      rw [hlen]
      omega
  | consume n => exact absurd rfl hne
  | reset => exact absurd rfl hne

/-- A formatted write that ends inside the invariant had room for its text. -/
theorem textFits_of_inv (hlt : total < 2147483648) {b b' : Buffer} {op : Op} (hi : Inv total b)
    (hs : step b op = some b') (hi' : Inv total b') : TextFits b op b' := by
  have htot : b.total < 2147483648 := hi.total_eq ▸ hlt
  cases op with
  | sprintf text =>
    obtain rfl := Option.some.inj hs
    obtain ⟨hr, -, ht⟩ := b.sprintf_r text
    have hle := hi'.r_le
    rw [hr, ht] at hle
    simp only [TextFits]
    rw [remainWrite_eq htot hi.r_le]
    split at hle <;> omega
  | write | consume | reset => trivial

/-- In every run from `buffer_init` the buffer keeps its invariant and nothing is stored past its end if and only if
every text formatted into it fits. -/
theorem buffer_inv_iff (mem : Nat → UInt8) (total : Nat) (hlt : total < 2147483648) (ops : List Op) :
    (AllStates step (Inv total) (init mem total) ops ∧ AllSteps step StoresInside (init mem total) ops) ↔
      AllSteps step TextFits (init mem total) ops := by
  have hinit : Inv total (init mem total) := inv_of_le hlt rfl (Nat.le_refl 0) (Nat.zero_le _)
  constructor
  · rintro ⟨hinv, -⟩
    exact AllSteps.of_allStates (fun b op b' => textFits_of_inv hlt) hinv
  · intro hfit
    refine ⟨AllStates.of_invariant hinit (fun b op b' => inv_step hlt) hfit, ?_⟩
    exact AllSteps.of_invariant hinit (fun b op b' => inv_step hlt) (fun b op b' hi _ _ => storesInside hlt hi) hfit

/-- A text of three bytes in a buffer of eight, sent and reset. -/
theorem buffer_inv_short :
    AllStates step (Inv 8) (init (fun _ => 0) 8) [.sprintf [111, 107, 10], .consume 3, .reset] ∧
      AllSteps step StoresInside (init (fun _ => 0) 8) [.sprintf [111, 107, 10], .consume 3, .reset] := by
  refine (buffer_inv_iff (fun _ => 0) 8 (by decide) _).mpr fun b₁ _ =>
    ⟨.inl ?_, fun b₂ _ => ⟨trivial, fun b₃ _ => ⟨trivial, trivial⟩⟩⟩
  rw [remainWrite_eq (by decide) (by decide)]
  decide

/-- A text of 1500 bytes formatted into the 1024 of a fresh output buffer puts the end of what was written past its
end. -/
theorem buffer_sprintf_overruns :
    ¬AllStates step (Inv 1024) (init (fun _ => 0) 1024) [.sprintf (List.replicate 1500 97)] := by
  intro h
  have hle := (h.2 _ rfl).head.r_le
  rw [(sprintf_r _).1, (sprintf_r _).2.2, List.length_replicate] at hle
  exact absurd hle (by decide)

end Buffer

end ZeroServ
