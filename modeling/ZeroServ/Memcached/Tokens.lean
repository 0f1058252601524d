import ZeroServ.Memcached.Commands

/-!
# The tokenizer in memory

`tokenize_command` as the code computes it: two cursors in the memory of the command, which it writes to.
`tokenize_command_words`: the tokens are the first words of the line, each ended by a NUL in place, nothing behind
the line's NUL is read, and what `process_command` compares is such a word. The words are those of
`Mc.tokenizeCommand` (`tokenizeCommand_eq`).
-/

namespace ZeroServ.Mc.Tok

open CString

/-! ## `memcached.c` -/

/-- `token_t`; the value is an offset in the memory of the command. -/
structure Token where
  value : Option Nat
  length : Nat
  deriving DecidableEq, Repr

/-- The variables of the loop, and the offsets it has read. -/
structure Scan where
  mem : List UInt8
  tokens : List Token
  s : Nat
  e : Nat
  reads : List Nat

/-- The word between the cursors becomes a token. -/
def Scan.store (st : Scan) : Scan := { st with tokens := st.tokens ++ [⟨some st.s, st.e - st.s⟩] }

/-- What the loop does at a blank. -/
def Scan.blank (st : Scan) : Scan :=
  let st := if st.s ≠ st.e then { st.store with mem := st.mem.set st.e 0 } else st
  { st with s := st.e + 1, e := st.e + 1 }

/-- The loop of `tokenize_command`, with fuel; `none` at a read beyond the memory. -/
def scanLoop (limit : Nat) : Nat → Scan → Option Scan
  | 0, _ => none
  | fuel + 1, st =>
    if st.tokens.length < limit then
      match st.mem[st.e]? with
      | none => none
      | some b =>
        let st := { st with reads := st.reads ++ [st.e] }
        if b = 32 then scanLoop limit fuel st.blank
        else if b = 0 then some (if st.s ≠ st.e then st.store else st)
        else scanLoop limit fuel { st with e := st.e + 1 }
    else some st

/-- What `tokenize_command` leaves: the memory, the tokens it counts and the offsets it has read. -/
structure Tokenized where
  mem : List UInt8
  tokens : List Token
  reads : List Nat

/-- `tokenize_command`, with more fuel than the memory has bytes. -/
def tokenizeCommand (command : List UInt8) (maxTokens : Nat) : Option Tokenized :=
  if 1 < maxTokens then
    match scanLoop (maxTokens - 1) (command.length + 1) ⟨command, [], 0, 0, []⟩ with
    | none => none
    | some st =>
      match st.mem[st.e]? with
      | none => none
      | some b => some ⟨st.mem, st.tokens ++ [⟨if b = 0 then none else some st.e, 0⟩], st.reads ++ [st.e]⟩
  else none

/-- `strcmp(value, text) == 0`, where the value is a string. -/
def strcmpAt (mem : List UInt8) (value : Option Nat) (text : List UInt8) : Option Bool :=
  match value with
  | none => none
  | some s => if 0 ∈ mem.drop s then some (cstr (mem.drop s) = text) else none

/-- What `process_command` does with a command. -/
inductive Choice where
  | get
  | update (comm : Comm)
  | version
  | stats
  | error
  deriving DecidableEq, Repr

/-- The comparisons of `process_command`, in their order, for a number of tokens. -/
def tests (ntokens : Nat) : List (List UInt8 × Choice) :=
  (if 3 ≤ ntokens then [(lit "get", .get), (lit "bget", .get)] else []) ++
    (if ntokens = 6 ∨ ntokens = 7 then
      [(lit "add", .update .add), (lit "set", .update .set), (lit "replace", .update .replace),
        (lit "prepend", .update .prepend), (lit "append", .update .append)]
    else []) ++
    if ntokens = 2 then [(lit "version", .version), (lit "stats", .stats)] else []

/-- The first comparison that succeeds, if none before it is of no string. -/
def compare (mem : List UInt8) (value : Option Nat) : List (List UInt8 × Choice) → Option Choice
  | [] => some .error
  | (text, choice) :: rest =>
    match strcmpAt mem value text with
    | none => none
    | some eq => if eq then some choice else compare mem value rest

/-- `process_command` up to its choice, by `tokens[COMMAND_TOKEN]`. -/
def chosen (r : Tokenized) : Option Choice := compare r.mem (r.tokens[0]?.bind Token.value) (tests r.tokens.length)

/-- The choice for a word. -/
def choiceOf (word : List UInt8) : List (List UInt8 × Choice) → Choice
  | [] => .error
  | (text, choice) :: rest => if word = text then choice else choiceOf word rest

/-! ## The words of a line -/

/-- A part of a line. -/
structure Span where
  start : Nat
  length : Nat
  deriving DecidableEq, Repr

namespace Span

def stop (w : Span) : Nat := w.start + w.length

def text (str : List UInt8) (w : Span) : List UInt8 := (str.drop w.start).take w.length

def token (w : Span) : Token := ⟨some w.start, w.length⟩

end Span

/-- A word starts at an offset: no blank is there, and one before it, unless it is the first. -/
def startsAt (str : List UInt8) (i : Nat) : Bool := str[i]? ≠ some 32 && (i = 0 || str[i - 1]? = some 32)

/-- What is not blank from an offset on. -/
def spanAt (str : List UInt8) (i : Nat) : Span := ⟨i, ((str.drop i).takeWhile (· ≠ 32)).length⟩

/-- The words that start before an offset. -/
def wordsBefore (str : List UInt8) (k : Nat) : List Span := ((List.range k).filter (startsAt str)).map (spanAt str)

/-- The maximal runs of characters that are no blanks, in order. -/
def words (str : List UInt8) : List Span := wordsBefore str str.length

/-- Where a scan for so many words stops: behind the blank that ends the last of them, or at the end of the line. -/
def scanEnd (str : List UInt8) (limit : Nat) : Nat :=
  match (words str)[limit - 1]? with
  | some w => min str.length (w.stop + 1)
  | none => str.length

/-- A run of characters that are no blanks, and that no such character follows or precedes. -/
structure MaximalRun (str : List UInt8) (w : Span) : Prop where
  pos : 0 < w.length
  le : w.stop ≤ str.length
  inside : ∀ i, w.start ≤ i → i < w.stop → str[i]? ≠ some 32
  before : w.start = 0 ∨ str[w.start - 1]? = some 32
  behind : w.stop = str.length ∨ str[w.stop]? = some 32

section words

variable {str : List UInt8} {s e i k : Nat}

theorem startsAt_iff : startsAt str i = true ↔ str[i]? ≠ some 32 ∧ (i = 0 ∨ str[i - 1]? = some 32) := by
  simp [startsAt]

/-- A word ends at the next blank, or with the line. -/
theorem spanAt_spec (h : s ≤ str.length) : (spanAt str s).stop ≤ str.length ∧
    (∀ i, s ≤ i → i < (spanAt str s).stop → str[i]? ≠ some 32) ∧
      ((spanAt str s).stop = str.length ∨ str[(spanAt str s).stop]? = some 32) := by
  have hsplit : (str.drop s).takeWhile (· ≠ (32 : UInt8)) ++ (str.drop s).dropWhile (· ≠ (32 : UInt8)) = str.drop s :=
    List.takeWhile_append_dropWhile
  have hrest := List.head?_dropWhile_not (· ≠ (32 : UInt8)) (str.drop s)
  have hmem : ∀ b ∈ (str.drop s).takeWhile (· ≠ (32 : UInt8)), b ≠ 32 :=
    fun b hb => by simpa using List.mem_takeWhile_imp hb
  have hget : ∀ j, str[s + j]? = (str.drop s)[j]? := fun j => List.getElem?_drop.symm
  have hlen : (str.drop s).length = str.length - s := List.length_drop
  simp only [spanAt, Span.stop]
  generalize (str.drop s).takeWhile (· ≠ (32 : UInt8)) = word at hsplit hmem ⊢
  generalize (str.drop s).dropWhile (· ≠ (32 : UInt8)) = rest at hsplit hrest
  rw [← hsplit] at hget hlen
  rw [List.length_append] at hlen
  refine ⟨by omega, fun i hi hlt hblank => ?_, ?_⟩
  · obtain ⟨j, rfl⟩ := Nat.exists_eq_add_of_le hi
    rw [hget, List.getElem?_append_left (by omega)] at hblank
    exact hmem 32 (List.mem_of_getElem? hblank) rfl
  · rw [hget, List.getElem?_append_right le_rfl, Nat.sub_self]
    cases rest with
    | nil =>
      rw [List.length_nil] at hlen
      exact .inl (by omega)
    | cons b rest =>
      refine .inr ?_
      simpa using hrest

theorem spanAt_eq (hse : s ≤ e) (hle : e ≤ str.length) (hin : ∀ i, s ≤ i → i < e → str[i]? ≠ some 32)
    (hend : e = str.length ∨ str[e]? = some 32) : spanAt str s = ⟨s, e - s⟩ := by
  obtain ⟨hle', hin', hend'⟩ := spanAt_spec (hse.trans hle)
  have hstop : (spanAt str s).stop = e := by
    have hs : s ≤ (spanAt str s).stop := Nat.le_add_right s _
    rcases Nat.lt_trichotomy (spanAt str s).stop e with hlt | heq | hgt
    · exact absurd (hend'.resolve_left (by omega)) (hin _ hs hlt)
    · exact heq
    · exact absurd (hend.resolve_left (by omega)) (hin' e hse hgt)
  have hlen : (spanAt str s).length = e - s := by
    rw [← hstop]
    exact (Nat.add_sub_cancel_left s _).symm
  rw [← hlen]
  rfl

theorem wordsBefore_succ (str : List UInt8) (k : Nat) :
    wordsBefore str (k + 1) = wordsBefore str k ++ if startsAt str k then [spanAt str k] else [] := by
  rw [wordsBefore, List.range_succ, List.filter_append, List.map_append, ← wordsBefore, List.filter_singleton]
  cases startsAt str k <;> rfl

/-- Where no word starts, none is added. -/
theorem wordsBefore_skip (h : s ≤ e) (hno : ∀ i, s ≤ i → i < e → startsAt str i = false) :
    wordsBefore str e = wordsBefore str s := by
  induction e, h using Nat.le_induction with
  | base => rfl
  | succ e hse ih =>
    rw [wordsBefore_succ, hno e hse (Nat.lt_succ_self e), ih fun i h₁ h₂ => hno i h₁ (by omega)]
    simp

theorem wordsBefore_prefix (h : s ≤ e) : wordsBefore str s <+: wordsBefore str e := by
  induction e, h using Nat.le_induction with
  | base => exact List.prefix_refl _
  | succ e hse ih =>
    rw [wordsBefore_succ]
    exact ih.trans (List.prefix_append _ _)

/-- Between two blanks there is one word. -/
theorem wordsBefore_word (hse : s < e) (hle : e ≤ str.length) (hin : ∀ i, s ≤ i → i < e → str[i]? ≠ some 32)
    (hbefore : s = 0 ∨ str[s - 1]? = some 32) (hend : e = str.length ∨ str[e]? = some 32) :
    wordsBefore str e = wordsBefore str s ++ [⟨s, e - s⟩] := by
  have hstart : startsAt str s = true := startsAt_iff.mpr ⟨hin s le_rfl hse, hbefore⟩
  have hskip : wordsBefore str e = wordsBefore str (s + 1) := by
    refine wordsBefore_skip hse fun i hi hie => ?_
    rw [Bool.eq_false_iff, ne_eq, startsAt_iff]
    rintro ⟨-, hzero | hblank⟩
    · omega
    · exact hin (i - 1) (by omega) (by omega) hblank
  rw [hskip, wordsBefore_succ, if_pos hstart, spanAt_eq hse.le hle hin hend]

/-- No word starts at a blank. -/
theorem wordsBefore_blank (h : str[e]? = some 32) : wordsBefore str (e + 1) = wordsBefore str e := by
  rw [wordsBefore_succ, if_neg (by simp [startsAt, h]), List.append_nil]

/-- What starts at the start of a word ends where the word does. -/
theorem MaximalRun.spanAt {w : Span} (h : MaximalRun str w) : spanAt str w.start = w := by
  have hse : w.start ≤ w.stop := Nat.le_add_right _ _
  rw [spanAt_eq hse h.le h.inside h.behind, Span.stop, Nat.add_sub_cancel_left]

/-- The words of a line are its maximal runs. -/
theorem mem_words_iff {w : Span} : w ∈ words str ↔ MaximalRun str w := by
  simp only [words, wordsBefore, List.mem_map, List.mem_filter, List.mem_range, startsAt_iff]
  constructor
  · rintro ⟨i, ⟨hlt, hne, hbefore⟩, rfl⟩
    obtain ⟨hle, hin, hend⟩ := spanAt_spec hlt.le
    refine ⟨?_, hle, hin, hbefore, hend⟩
    by_contra hzero
    have hstop : (spanAt str i).stop = i := by
      have : (spanAt str i).length = 0 := by omega
      rw [Span.stop, this]
      rfl
    rw [hstop] at hend
    exact hne (hend.resolve_left hlt.ne)
  · intro h
    refine ⟨w.start, ⟨?_, h.inside _ le_rfl ?_, h.before⟩, h.spanAt⟩
    · have := h.pos
      have := h.le
      unfold Span.stop at this
      omega
    · have := h.pos
      unfold Span.stop
      omega

end words

/-! ## The scan -/

/-- The invariant of the loop: the words that start before `s` are tokens, and what is between the cursors is no
blank and begins where a word may. -/
structure Scanning (command : List UInt8) (limit : Nat) (st : Scan) : Prop where
  cursors : st.s ≤ st.e
  le : st.e ≤ (cstr command).length
  inside : ∀ i, st.s ≤ i → i < st.e → (cstr command)[i]? ≠ some 32
  before : st.s = 0 ∨ (cstr command)[st.s - 1]? = some 32
  tokens : st.tokens = (wordsBefore (cstr command) st.s).map Span.token
  count : st.tokens.length ≤ limit
  full : st.tokens.length = limit →
    st.s = st.e ∧ ∃ w, (wordsBefore (cstr command) st.s)[limit - 1]? = some w ∧ st.e = w.stop + 1
  ended : ∀ w ∈ wordsBefore (cstr command) st.s, st.mem[w.stop]? = some 0
  kept : ∀ i, (∀ w ∈ wordsBefore (cstr command) st.s, i ≠ w.stop) → st.mem[i]? = command[i]?
  ahead : ∀ i, st.s ≤ i → st.mem[i]? = command[i]?
  reads : ∀ i ∈ st.reads, i ≤ (cstr command).length
  listed : (tokenLoop (cstr command) [] limit).1 = (wordsBefore (cstr command) st.s).map (Span.text (cstr command)) ++
    (tokenLoop ((cstr command).drop st.e) (Span.text (cstr command) ⟨st.s, st.e - st.s⟩) (limit - st.tokens.length)).1

/-- The loop is left with as many words as it may take. -/
structure Stopped (command : List UInt8) (limit : Nat) (st : Scan) : Prop where
  stop : st.e = scanEnd (cstr command) limit
  le : st.e ≤ (cstr command).length
  tokens : st.tokens = ((words (cstr command)).take limit).map Span.token
  ended : ∀ w ∈ (words (cstr command)).take limit, st.mem[w.stop]? = some 0
  kept : ∀ i, (∀ w ∈ (words (cstr command)).take limit, i ≠ w.stop) → st.mem[i]? = command[i]?
  ahead : st.mem[st.e]? = command[st.e]?
  reads : ∀ i ∈ st.reads, i ≤ (cstr command).length
  listed : (tokenLoop (cstr command) [] limit).1 = ((words (cstr command)).take limit).map (Span.text (cstr command))

section scan

variable {command : List UInt8} {limit : Nat} {st : Scan}

/-- The memory of a string is its bytes and then a NUL. -/
theorem getElem?_command {i : Nat} (hi : i < (cstr command).length) : command[i]? = (cstr command)[i]? := by
  have hpre : cstr command <+: command := List.takeWhile_prefix _
  rw [List.getElem?_eq_getElem hi, hpre.getElem hi, List.getElem?_eq_getElem]

theorem getElem?_command_length (h0 : (0 : UInt8) ∈ command) : command[(cstr command).length]? = some 0 := by
  obtain ⟨str, behind, rfl, hstr⟩ := List.eq_append_cons_of_mem h0
  rw [cstr_append_nul hstr, List.getElem?_append_right le_rfl, Nat.sub_self]
  rfl

theorem reads_snoc {reads : List Nat} {e n : Nat} (h : ∀ i ∈ reads, i ≤ n) (he : e ≤ n) :
    ∀ i ∈ reads ++ [e], i ≤ n := by
  intro i hi
  rcases List.mem_append.mp hi with hi | hi
  · exact h i hi
  · rw [List.mem_singleton.mp hi]
    exact he

theorem Scan.blank_e (st : Scan) : st.blank.e = st.e + 1 := by
  unfold Scan.blank
  dsimp only
  split <;> rfl

theorem Scanning.start (command : List UInt8) {limit : Nat} (hlimit : 0 < limit) :
    Scanning command limit ⟨command, [], 0, 0, []⟩ where
  cursors := le_rfl
  le := Nat.zero_le _
  inside i _ hi := absurd hi (Nat.not_lt_zero i)
  before := .inl rfl
  tokens := rfl
  count := Nat.zero_le _
  full h := absurd h hlimit.ne
  ended w hw := by simp [wordsBefore] at hw
  kept _ _ := rfl
  ahead _ _ := rfl
  reads i hi := by simp at hi
  listed := by simp [wordsBefore, Span.text]

namespace Scanning

variable (h : Scanning command limit st)
include h

/-- A character that is no blank. -/
theorem other {b : UInt8} (hcount : st.tokens.length < limit) (hb : (cstr command)[st.e]? = some b) (hne : b ≠ 32) :
    Scanning command limit { st with reads := st.reads ++ [st.e], e := st.e + 1 } := by
  obtain ⟨hlt, hget⟩ := List.getElem?_eq_some_iff.mp hb
  have hse := h.cursors
  refine
    { h with
      cursors := by dsimp only; omega
      le := hlt, inside := ?_, full := ?_, reads := reads_snoc h.reads h.le, listed := ?_ }
  · intro i hi hie
    rcases Nat.lt_succ_iff_lt_or_eq.mp hie with hlt' | rfl
    · exact h.inside i hi hlt'
    · rw [hb]
      exact fun heq => hne (Option.some.inj heq)
  · exact fun hfull => absurd hfull hcount.ne
  · have hword : Span.text (cstr command) ⟨st.s, st.e + 1 - st.s⟩ =
        Span.text (cstr command) ⟨st.s, st.e - st.s⟩ ++ [b] := by
      have hj : st.e + 1 - st.s = st.e - st.s + 1 := by omega
      have hidx : st.s + (st.e - st.s) = st.e := by omega
      simp only [Span.text]
      rw [hj, List.take_add_one, List.getElem?_drop, hidx, hb]
      rfl
    obtain ⟨n, hn⟩ := Nat.exists_eq_add_of_lt hcount
    have hleft : limit - st.tokens.length = n + 1 := by omega
    rw [h.listed, hword, hleft, List.drop_eq_getElem_cons hlt, hget, tokenLoop, if_neg hne]

theorem length_wordsBefore : (wordsBefore (cstr command) st.s).length = st.tokens.length := by
  rw [h.tokens, List.length_map]

/-- The word between the cursors, where it ends. -/
theorem wordsBefore_e (hse : st.s ≠ st.e) (hend : st.e = (cstr command).length ∨ (cstr command)[st.e]? = some 32) :
    wordsBefore (cstr command) st.e = wordsBefore (cstr command) st.s ++ [⟨st.s, st.e - st.s⟩] :=
  wordsBefore_word (lt_of_le_of_ne h.cursors hse) h.le h.inside h.before hend

/-- The text between the cursors is empty where they are equal. -/
theorem text_eq_nil_iff : Span.text (cstr command) ⟨st.s, st.e - st.s⟩ = [] ↔ st.s = st.e := by
  have hse := h.cursors
  have hle := h.le
  rw [← List.length_eq_zero_iff, Span.text, List.length_take, List.length_drop]
  dsimp only
  omega

theorem stop_between : Span.stop ⟨st.s, st.e - st.s⟩ = st.e :=
  Nat.add_sub_cancel' h.cursors

/-- The word behind those that are tokens is the last one allowed. -/
theorem getElem?_last (hlast : st.tokens.length = limit - 1) (w : Span) :
    (wordsBefore (cstr command) st.s ++ [w])[limit - 1]? = some w := by
  rw [← hlast, ← h.length_wordsBefore]
  exact List.getElem?_concat_length

/-- A blank behind a blank, or in front of the line. -/
theorem blank_skip (hcount : st.tokens.length < limit) (hb : (cstr command)[st.e]? = some 32) (hse : st.s = st.e) :
    Scanning command limit { st with reads := st.reads ++ [st.e], s := st.e + 1, e := st.e + 1 } := by
  obtain ⟨hlt, hget⟩ := List.getElem?_eq_some_iff.mp hb
  have hwords : wordsBefore (cstr command) (st.e + 1) = wordsBefore (cstr command) st.s := by
    rw [wordsBefore_blank hb, hse]
  have hlisted := h.listed
  obtain ⟨n, hn⟩ := Nat.exists_eq_add_of_lt hcount
  have hleft : limit - st.tokens.length = n + 1 := by omega
  rw [hleft, List.drop_eq_getElem_cons hlt, hget, tokenLoop, if_pos rfl, if_pos (h.text_eq_nil_iff.mpr hse),
    ← hleft] at hlisted
  refine ⟨le_rfl, hlt, fun i h₁ h₂ => absurd h₂ (by dsimp only at h₁ ⊢; omega), .inr hb, ?_, h.count,
    fun hfull => absurd hfull hcount.ne, ?_, ?_, ?_, reads_snoc h.reads h.le, ?_⟩
  · rw [hwords]
    exact h.tokens
  · rw [hwords]
    exact h.ended
  · rw [hwords]
    exact h.kept
  · exact fun i hi => h.ahead i (h.cursors.trans (Nat.le_of_succ_le hi))
  · rw [hwords]
    simpa [Span.text] using hlisted

/-- A blank behind a word, which becomes a token and ends there. -/
theorem blank_word (hcount : st.tokens.length < limit) (hb : (cstr command)[st.e]? = some 32) (hse : st.s ≠ st.e) :
    Scanning command limit
      ⟨st.mem.set st.e 0, st.tokens ++ [⟨some st.s, st.e - st.s⟩], st.e + 1, st.e + 1, st.reads ++ [st.e]⟩ := by
  obtain ⟨hlt, hget⟩ := List.getElem?_eq_some_iff.mp hb
  have hwords : wordsBefore (cstr command) (st.e + 1) = _ :=
    (wordsBefore_blank hb).trans (h.wordsBefore_e hse (.inr hb))
  have hstop := h.stop_between
  have hlisted := h.listed
  obtain ⟨n, hn⟩ := Nat.exists_eq_add_of_lt hcount
  have hleft : limit - st.tokens.length = n + 1 := by omega
  rw [hleft, List.drop_eq_getElem_cons hlt, hget, tokenLoop, if_pos rfl,
    if_neg (mt h.text_eq_nil_iff.mp hse)] at hlisted
  have hmem : st.e < st.mem.length := by
    have hread := h.ahead st.e h.cursors
    rw [getElem?_command hlt, hb] at hread
    exact (List.getElem?_eq_some_iff.mp hread).1
  refine ⟨le_rfl, hlt, fun i h₁ h₂ => absurd h₂ (by dsimp only at h₁ ⊢; omega), .inr hb, ?_, ?_, ?_, ?_, ?_, ?_,
    reads_snoc h.reads h.le, ?_⟩
  · rw [hwords, List.map_append, ← h.tokens]
    rfl
  · simpa using hcount
  · intro hfull
    rw [List.length_append, List.length_singleton] at hfull
    refine ⟨rfl, ⟨st.s, st.e - st.s⟩, ?_, by rw [hstop]⟩
    rw [hwords]
    exact h.getElem?_last (by omega) _
  · intro w hw
    rw [List.getElem?_set]
    split
    · rfl
    · next hne =>
      rw [hwords, List.mem_append, List.mem_singleton] at hw
      rcases hw with hw | rfl
      · exact h.ended w hw
      · exact absurd hstop.symm hne
  · intro i hi
    rw [hwords] at hi
    rw [List.getElem?_set_ne]
    · exact h.kept i fun w hw => hi w (List.mem_append_left _ hw)
    · have hne := hi ⟨st.s, st.e - st.s⟩ (List.mem_append_right _ (List.mem_singleton_self _))
      rw [hstop] at hne
      exact Ne.symm hne
  · intro i hi
    rw [List.getElem?_set_ne (by dsimp only at hi; omega)]
    exact h.ahead i (h.cursors.trans (Nat.le_of_succ_le hi))
  · have hrest : limit - (st.tokens ++ [(⟨some st.s, st.e - st.s⟩ : Token)]).length = n := by
      rw [List.length_append, List.length_singleton]
      omega
    rw [hwords, hrest, hlisted]
    simp [Span.text]

theorem blank (hcount : st.tokens.length < limit) (hb : (cstr command)[st.e]? = some 32) :
    Scanning command limit (Scan.blank { st with reads := st.reads ++ [st.e] }) := by
  by_cases hse : st.s = st.e
  · have hsame : Scan.blank { st with reads := st.reads ++ [st.e] } =
        { st with reads := st.reads ++ [st.e], s := st.e + 1, e := st.e + 1 } := by
      simp [Scan.blank, hse]
    rw [hsame]
    exact h.blank_skip hcount hb hse
  · have hstore : Scan.blank { st with reads := st.reads ++ [st.e] } =
        ⟨st.mem.set st.e 0, st.tokens ++ [⟨some st.s, st.e - st.s⟩], st.e + 1, st.e + 1, st.reads ++ [st.e]⟩ := by
      simp [Scan.blank, Scan.store, hse]
    rw [hstore]
    exact h.blank_word hcount hb hse

/-- The loop is left with as many words as it may take. -/
theorem stopped_full (hfull : st.tokens.length = limit) : Stopped command limit st := by
  obtain ⟨hse, w, hw, hstop⟩ := h.full hfull
  have hpre : wordsBefore (cstr command) st.s <+: words (cstr command) := wordsBefore_prefix (h.cursors.trans h.le)
  have htake : (words (cstr command)).take limit = wordsBefore (cstr command) st.s := by
    rw [← hfull, ← h.length_wordsBefore]
    exact (List.prefix_iff_eq_take.mp hpre).symm
  have hscan : st.e = scanEnd (cstr command) limit := by
    have hlt := (List.getElem?_eq_some_iff.mp hw).1
    have hword : (words (cstr command))[limit - 1]? = some w := by
      rw [← hw, List.getElem?_eq_getElem hlt, hpre.getElem hlt, List.getElem?_eq_getElem]
    have hle := h.le
    simp only [scanEnd, hword]
    omega
  refine ⟨hscan, h.le, by rw [htake, h.tokens],
    by rw [htake]; exact h.ended, by rw [htake]; exact h.kept, h.ahead st.e h.cursors, h.reads, ?_⟩
  rw [h.listed, htake, hfull, Nat.sub_self]
  cases (cstr command).drop st.e <;> simp [tokenLoop]

/-- The loop is left at the end of the line behind a blank. -/
theorem stopped_blank (hcount : st.tokens.length < limit) (hend : st.e = (cstr command).length) (hse : st.s = st.e) :
    Stopped command limit { st with reads := st.reads ++ [st.e] } := by
  have hwords : words (cstr command) = wordsBefore (cstr command) st.s := by rw [hse, hend, words]
  have hlen : (words (cstr command)).length = st.tokens.length := by rw [hwords, h.length_wordsBefore]
  have hnone : (words (cstr command))[limit - 1]? = none := List.getElem?_eq_none (by omega)
  have htake : (words (cstr command)).take limit = wordsBefore (cstr command) st.s := by
    rw [List.take_of_length_le (by omega), hwords]
  have hlisted := h.listed
  obtain ⟨n, hn⟩ := Nat.exists_eq_add_of_lt hcount
  have hleft : limit - st.tokens.length = n + 1 := by omega
  rw [hleft, hend, List.drop_length, ← hend, tokenLoop, if_pos (h.text_eq_nil_iff.mpr hse)] at hlisted
  refine ⟨?_, h.le, ?_, ?_, ?_, h.ahead st.e h.cursors, reads_snoc h.reads h.le, ?_⟩
  · simp only [scanEnd, hnone, hend]
  · rw [htake]
    exact h.tokens
  · rw [htake]
    exact h.ended
  · rw [htake]
    exact h.kept
  · rw [htake, hlisted, List.append_nil]

/-- The loop is left at the end of the line behind its last word. -/
theorem stopped_word (h0 : (0 : UInt8) ∈ command) (hcount : st.tokens.length < limit)
    (hend : st.e = (cstr command).length)
    (hse : st.s ≠ st.e) : Stopped command limit (Scan.store { st with reads := st.reads ++ [st.e] }) := by
  have hwords : words (cstr command) = wordsBefore (cstr command) st.s ++ [⟨st.s, st.e - st.s⟩] := by
    rw [← h.wordsBefore_e hse (.inl hend), hend, words]
  have hstop := h.stop_between
  have hlen : (words (cstr command)).length = st.tokens.length + 1 := by
    rw [hwords, List.length_append, h.length_wordsBefore, List.length_singleton]
  have htake : (words (cstr command)).take limit = wordsBefore (cstr command) st.s ++ [⟨st.s, st.e - st.s⟩] := by
    rw [List.take_of_length_le (by omega), hwords]
  have hnul : st.mem[st.e]? = some 0 := by
    rw [h.ahead st.e h.cursors, hend, getElem?_command_length h0]
  have hlisted := h.listed
  obtain ⟨n, hn⟩ := Nat.exists_eq_add_of_lt hcount
  have hleft : limit - st.tokens.length = n + 1 := by omega
  rw [hleft, hend, List.drop_length, ← hend, tokenLoop, if_neg (mt h.text_eq_nil_iff.mp hse)] at hlisted
  refine ⟨?_, h.le, ?_, ?_, ?_, h.ahead st.e h.cursors, reads_snoc h.reads h.le, ?_⟩
  · -- a word that is the last one allowed is the one that ends the line
    simp only [scanEnd, Scan.store]
    cases hw : (words (cstr command))[limit - 1]? with
    | none => exact hend
    | some w =>
      have hlt := (List.getElem?_eq_some_iff.mp hw).1
      rw [hwords, h.getElem?_last (by omega)] at hw
      obtain rfl := Option.some.inj hw
      dsimp only
      rw [hstop, hend]
      exact (Nat.min_eq_left (Nat.le_succ _)).symm
  · rw [htake, List.map_append, ← h.tokens]
    rfl
  · rw [htake]
    intro w hw
    rcases List.mem_append.mp hw with hw | hw
    · exact h.ended w hw
    · rw [List.mem_singleton.mp hw, hstop]
      exact hnul
  · rw [htake]
    exact fun i hi => h.kept i fun w hw => hi w (List.mem_append_left _ hw)
  · rw [htake, hlisted, List.map_append]
    rfl

end Scanning

/-- The loop comes to its end with fuel for the rest of the line. -/
theorem scanLoop_spec (h0 : (0 : UInt8) ∈ command) (fuel : Nat) {st : Scan} (h : Scanning command limit st)
    (hfuel : (cstr command).length < fuel + st.e) :
    ∃ st', scanLoop limit fuel st = some st' ∧ Stopped command limit st' := by
  induction fuel generalizing st with
  | zero =>
    have := h.le
    omega
  | succ fuel ih =>
    rw [scanLoop]
    by_cases hcount : st.tokens.length < limit
    · rw [if_pos hcount]
      rcases Nat.lt_or_eq_of_le h.le with hlt | hend
      · have hb : (cstr command)[st.e]? = some (cstr command)[st.e] := List.getElem?_eq_getElem hlt
        have hne : (cstr command)[st.e] ≠ 0 := fun hz => nul_not_mem_cstr command (hz ▸ List.getElem_mem hlt)
        rw [h.ahead st.e h.cursors, getElem?_command hlt, hb]
        dsimp only
        split
        · next hblank =>
          refine ih (h.blank hcount (by rw [hb, hblank])) ?_
          rw [Scan.blank_e]
          dsimp only
          omega
        · next hother =>
          exact ih (h.other hcount hb hother) (by dsimp only; omega)
      · rw [h.ahead st.e h.cursors, hend, getElem?_command_length h0]
        dsimp only
        rw [if_neg (by decide), if_pos rfl, ← hend]
        by_cases hse : st.s = st.e
        · rw [if_neg (not_not.mpr hse)]
          exact ⟨_, rfl, h.stopped_blank hcount hend hse⟩
        · rw [if_pos hse]
          exact ⟨_, rfl, h.stopped_word h0 hcount hend hse⟩
    · rw [if_neg hcount]
      exact ⟨st, rfl, h.stopped_full (by have := h.count; omega)⟩

end scan

/-! ## The tokens of a command -/

/-- What `tokenize_command` is to do with a command: its first words become tokens, each ended by a NUL and the rest
of the memory as it was, and one more token is of what is left of the line. -/
structure Tokenizes (command : List UInt8) (maxTokens : Nat) (r : Tokenized) : Prop where
  tokens : r.tokens = ((words (cstr command)).take (maxTokens - 1)).map Span.token ++
    [⟨if scanEnd (cstr command) (maxTokens - 1) < (cstr command).length then
    some (scanEnd (cstr command) (maxTokens - 1)) else none, 0⟩]
  ended : ∀ w ∈ (words (cstr command)).take (maxTokens - 1),
    r.mem[w.stop]? = some 0 ∧ 0 ∈ r.mem.drop w.start ∧ cstr (r.mem.drop w.start) = w.text (cstr command)
  kept : ∀ i, (∀ w ∈ (words (cstr command)).take (maxTokens - 1), i ≠ w.stop) → r.mem[i]? = command[i]?
  reads : ∀ i ∈ r.reads, i ≤ (cstr command).length

/-- The texts of the first words. -/
def firstWords (command : List UInt8) (maxTokens : Nat) : List (List UInt8) :=
  ((words (cstr command)).take (maxTokens - 1)).map (Span.text (cstr command))

section tokens

variable {command : List UInt8} {limit maxTokens : Nat} {st : Scan} {r : Tokenized}

/-- The string at a word is the word: the bytes of a word are no end of another one. -/
theorem Stopped.cstr_word (h : Stopped command limit st) {w : Span} (hw : w ∈ (words (cstr command)).take limit) :
    0 ∈ st.mem.drop w.start ∧ cstr (st.mem.drop w.start) = w.text (cstr command) := by
  have hrun := mem_words_iff.mp (List.mem_of_mem_take hw)
  have hle := hrun.le
  have hkept : ∀ i, w.start ≤ i → i < w.stop → st.mem[i]? = (cstr command)[i]? := by
    intro i hi hlt
    rw [h.kept i, getElem?_command (hlt.trans_le hle)]
    rintro w' hw' rfl
    rcases (mem_words_iff.mp (List.mem_of_mem_take hw')).behind with heq | hblank
    · omega
    · exact hrun.inside _ hi hlt hblank
  have htext : (st.mem.drop w.start).take w.length = w.text (cstr command) := by
    refine List.ext_getElem? fun j => ?_
    rw [Span.text, List.getElem?_take, List.getElem?_take, List.getElem?_drop, List.getElem?_drop]
    split
    · next hj =>
      exact hkept _ (Nat.le_add_right _ _) (Nat.add_lt_add_left hj _)
    · rfl
  have hnul : st.mem.drop w.stop = 0 :: st.mem.drop (w.stop + 1) := by
    obtain ⟨hlt, hget⟩ := List.getElem?_eq_some_iff.mp (h.ended w hw)
    rw [List.drop_eq_getElem_cons hlt, hget]
  have hsplit : st.mem.drop w.start = w.text (cstr command) ++ 0 :: st.mem.drop (w.stop + 1) := by
    rw [← htext, ← hnul, Span.stop, ← List.drop_drop, List.take_append_drop]
  have hno : (0 : UInt8) ∉ w.text (cstr command) := fun hin =>
    nul_not_mem_cstr command (List.mem_of_mem_drop (List.mem_of_mem_take hin))
  rw [hsplit, cstr_append_nul hno]
  exact ⟨List.mem_append_right _ List.mem_cons_self, rfl⟩

/-- The comparisons with a string choose by the string. -/
theorem compare_of_string {mem : List UInt8} {s : Nat} (h0 : 0 ∈ mem.drop s) (ts : List (List UInt8 × Choice)) :
    compare mem (some s) ts = some (choiceOf (cstr (mem.drop s)) ts) := by
  induction ts with
  | nil => rfl
  | cons t ts ih =>
    simp only [compare, strcmpAt, if_pos h0, choiceOf, ih]
    by_cases heq : cstr (mem.drop s) = t.1 <;> simp [heq]

/-- `process_command` compares the first word, and where there is none, nothing. -/
theorem Tokenizes.chosen (h : Tokenizes command maxTokens r) :
    chosen r = some (choiceOf ((firstWords command maxTokens).headD [])
      (tests ((firstWords command maxTokens).length + 1))) := by
  obtain ⟨htokens, hended, -, -⟩ := h
  unfold Tok.chosen firstWords
  cases hws : (words (cstr command)).take (maxTokens - 1) with
  | nil =>
    rw [hws] at htokens
    rw [htokens]
    rfl
  | cons w ws =>
    rw [hws] at htokens hended
    obtain ⟨-, h0, hword⟩ := hended w List.mem_cons_self
    have hlen : r.tokens.length = ((w :: ws).map (Span.text (cstr command))).length + 1 := by
      rw [htokens]
      simp
    have hfirst : r.tokens[0]?.bind Token.value = some w.start := by
      rw [htokens]
      rfl
    rw [hlen, hfirst, compare_of_string h0, hword]
    rfl

theorem Stopped.tokenizes (h0 : (0 : UInt8) ∈ command) (h : Stopped command (maxTokens - 1) st) :
    ∃ b, st.mem[st.e]? = some b ∧
      Tokenizes command maxTokens ⟨st.mem, st.tokens ++ [⟨if b = 0 then none else some st.e, 0⟩],
        st.reads ++ [st.e]⟩ := by
  have hreads := reads_snoc h.reads h.le
  have hended : ∀ w ∈ (words (cstr command)).take (maxTokens - 1),
      st.mem[w.stop]? = some 0 ∧ 0 ∈ st.mem.drop w.start ∧ cstr (st.mem.drop w.start) = w.text (cstr command) :=
    fun w hw => ⟨h.ended w hw, h.cstr_word hw⟩
  rcases Nat.lt_or_eq_of_le h.le with hlt | heq
  · have hne : (cstr command)[st.e] ≠ 0 := fun hz => nul_not_mem_cstr command (hz ▸ List.getElem_mem hlt)
    refine ⟨(cstr command)[st.e], ?_, ?_, hended, h.kept, hreads⟩
    · rw [h.ahead, getElem?_command hlt, List.getElem?_eq_getElem]
    · dsimp only
      rw [h.tokens, if_neg hne, ← h.stop, if_pos hlt]
  · refine ⟨0, ?_, ?_, hended, h.kept, hreads⟩
    · rw [h.ahead, heq, getElem?_command_length h0]
    · dsimp only
      rw [h.tokens, if_pos rfl, ← h.stop, if_neg heq.not_lt]

/-- What the loop leaves for a command. -/
theorem scanLoop_start (h0 : (0 : UInt8) ∈ command) (hmax : 2 ≤ maxTokens) :
    ∃ st, scanLoop (maxTokens - 1) (command.length + 1) ⟨command, [], 0, 0, []⟩ = some st ∧
      Stopped command (maxTokens - 1) st := by
  have hle : (cstr command).length ≤ command.length := (List.takeWhile_prefix _).length_le
  exact scanLoop_spec h0 (command.length + 1) (.start command (by omega)) (by dsimp only; omega)

/-- The words are those of the tokenizer on lists. -/
theorem tokenizeCommand_eq (h0 : (0 : UInt8) ∈ command) (hmax : 2 ≤ maxTokens) :
    (Mc.tokenizeCommand command maxTokens).1 = firstWords command maxTokens := by
  obtain ⟨st, -, hst⟩ := scanLoop_start h0 hmax
  exact hst.listed

/-- One comparison after the other. -/
theorem choiceOf_cons (word text : List UInt8) (choice : Choice) (rest : List (List UInt8 × Choice)) :
    choiceOf word ((text, choice) :: rest) = if word = text then choice else choiceOf word rest := rfl

/-- The words of updates, one after the other. -/
theorem choiceOf_updates (word : List UInt8) :
    choiceOf word [(lit "add", .update .add), (lit "set", .update .set), (lit "replace", .update .replace),
      (lit "prepend", .update .prepend), (lit "append", .update .append)] =
        match commOf word with
        | some comm => .update comm
        | none => .error := by
  unfold commOf
  simp only [choiceOf_cons]
  split_ifs <;> rfl

/-- The command that is run is the one chosen. -/
theorem processCommand_choice (hash : List UInt8 → UInt32) (v : View) (command : List UInt8) (env : Env) :
    v.processCommand hash command env =
      match choiceOf ((Mc.tokenizeCommand command MAX_TOKENS).1.headD [])
      (tests ((Mc.tokenizeCommand command MAX_TOKENS).1.length + 1)) with
      | .get => v.processGetCommand hash (Mc.tokenizeCommand command MAX_TOKENS).1 env
      | .update comm => v.processUpdateCommand hash (Mc.tokenizeCommand command MAX_TOKENS).1 comm env
      | .version => v.outString Texts.version
      | .stats => v.outString v.statsText
      | .error => v.outString Texts.error := by
  unfold View.processCommand
  generalize (Mc.tokenizeCommand command MAX_TOKENS).1 = tokens
  dsimp only
  generalize tokens.headD [] = word
  generalize tokens.length + 1 = n
  unfold tests
  by_cases h3 : 3 ≤ n
  · have h2 : n ≠ 2 := by omega
    have hn : decide (n ≥ 3) = true := decide_eq_true h3
    by_cases hget : word = lit "get" ∨ word = lit "bget"
    · have hcond : (decide (n ≥ 3) && (decide (word = lit "get") || decide (word = lit "bget"))) = true := by
        simpa [hn] using hget
      rw [if_pos hcond, if_pos h3]
      rcases hget with rfl | rfl <;> rfl
    · have hcond : ¬(decide (n ≥ 3) && (decide (word = lit "get") || decide (word = lit "bget"))) = true := by
        simpa [hn] using hget
      obtain ⟨hget, hbget⟩ := not_or.mp hget
      rw [if_neg hcond, if_pos h3, if_neg h2, List.append_nil, List.cons_append, List.cons_append, choiceOf_cons,
        if_neg hget, choiceOf_cons, if_neg hbget, List.nil_append]
      by_cases h67 : n = 6 ∨ n = 7
      · have hcond' : (decide (n = 6) || decide (n = 7)) = true := by simpa using h67
        rw [if_pos hcond', if_pos h67, choiceOf_updates]
        cases commOf word with
        | some comm => rfl
        | none => simp [h2]
      · have hcond' : ¬(decide (n = 6) || decide (n = 7)) = true := by simpa using h67
        rw [if_neg hcond', if_neg h67]
        simp [h2, choiceOf]
  · have h67 : ¬(n = 6 ∨ n = 7) := by omega
    have hn : decide (n ≥ 3) = false := decide_eq_false h3
    have hn' : (decide (n = 6) || decide (n = 7)) = false := by simpa using h67
    rw [hn, hn', Bool.false_and, if_neg Bool.false_ne_true, if_neg Bool.false_ne_true, if_neg h3, if_neg h67,
      List.nil_append, List.nil_append]
    by_cases h2 : n = 2
    · simp only [h2, decide_true, Bool.true_and, decide_eq_true_eq, if_true, choiceOf_cons]
      split_ifs <;> rfl
    · simp [h2, choiceOf]

end tokens

/-- For every NUL-terminated command and every limit of two tokens or more: the tokens are its first words and what
is left of the line, nothing behind its NUL is read, and every comparison of `process_command` is of a string, which
is the first word. -/
theorem tokenize_command_words (command : List UInt8) (h0 : (0 : UInt8) ∈ command) (maxTokens : Nat)
    (hmax : 2 ≤ maxTokens) :
    ∃ r, tokenizeCommand command maxTokens = some r ∧ Tokenizes command maxTokens r ∧
      chosen r = some (choiceOf ((firstWords command maxTokens).headD [])
        (tests ((firstWords command maxTokens).length + 1))) := by
  obtain ⟨st, hloop, hst⟩ := scanLoop_start h0 hmax
  obtain ⟨b, hb, htok⟩ := hst.tokenizes h0
  refine ⟨⟨st.mem, st.tokens ++ [⟨if b = 0 then none else some st.e, 0⟩], st.reads ++ [st.e]⟩, ?_, htok, htok.chosen⟩
  rw [tokenizeCommand, if_pos (by omega), hloop]
  simp only [hb]

/-- Four words, of which two fit. -/
theorem tokenize_command_words_three : ∃ r, tokenizeCommand (lit " get  key of more" ++ [0]) 3 = some r ∧
    Tokenizes (lit " get  key of more" ++ [0]) 3 r ∧
      chosen r = some (choiceOf ((firstWords (lit " get  key of more" ++ [0]) 3).headD [])
        (tests ((firstWords (lit " get  key of more" ++ [0]) 3).length + 1))) :=
  tokenize_command_words _ (by decide) 3 (by decide)

end ZeroServ.Mc.Tok
