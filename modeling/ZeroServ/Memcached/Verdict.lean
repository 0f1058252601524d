import ZeroServ.Memcached.Answers

/-!
# The verdict on an update command

`process_update_command` tests `errno` after its three conversions and does not clear it before them, so what an
earlier command left there is judged with the numbers. `judged_on_tokens_iff` says for which tokens and which two
values of `errno` the verdict is that of the tokens.
-/

namespace ZeroServ.Mc

open CString Decimal

section verdict

variable (hash : List UInt8 → UInt32) (v : View) (tokens : List (List UInt8)) (comm : Comm) (env : Env)

/-- With this value of `errno` at its entry, `process_update_command` answers that the line is malformed. -/
def Refuses (errno : Errno) : Prop :=
  ∃ v', { v with errno }.processUpdateCommand hash tokens comm env = .ok v' ∧
    v'.c.ob = v.c.ob.put (Texts.badFormat ++ crlf)

/-- With this value of `errno` at its entry, it takes an item and waits for `n` bytes. -/
def WaitsFor (errno : Errno) (n : Nat) : Prop :=
  ∃ v', { v with errno }.processUpdateCommand hash tokens comm env = .ok v' ∧ v'.c.ob = v.c.ob ∧ v'.c.item ≠ none ∧
    v'.c.state = .nread ∧ v'.c.rlbytes = n

/-- A conversion sets `errno` to `ERANGE`. -/
def Overflows : Prop := strtoulRange (tokens.getD 2 []) ∨ strtolRange (tokens.getD 3 []) ∨
    strtolRange (tokens.getD 4 [])

/-- What the update is to be refused for: a number that is out of range, which for the length is that of an `int`, or
a negative length. -/
def Malformed : Prop :=
  Overflows tokens ∨ (strtol (tokens.getD 4 []) < -2 ^ 31 ∨ 2 ^ 31 ≤ strtol (tokens.getD 4 [])) ∨
    strtol (tokens.getD 4 []) < 0

/-- The decision is the same for two values of `errno`, and it is that of the tokens. -/
structure JudgedOnTokens (e₁ e₂ : Errno) : Prop where
  rejects : Refuses hash v tokens comm env e₁ ↔ Refuses hash v tokens comm env e₂
  awaits : ∀ n, WaitsFor hash v tokens comm env e₁ n ↔ WaitsFor hash v tokens comm env e₂ n
  first : Refuses hash v tokens comm env e₁ ↔ Malformed tokens
  second : Refuses hash v tokens comm env e₂ ↔ Malformed tokens

/-- What was in `errno` counts as a failed conversion. -/
def Stale (errno : Errno) : Prop :=
  errno = .range ∨ (CInt.int32 (strtoul (tokens.getD 2 [])) = 0 ∨ strtol (tokens.getD 3 []) = 0) ∧ errno = .inval

/-- The key is longer than a key may be. -/
def LongKey : Prop := KEY_MAX_LENGTH < (tokens.getD 1 []).length

/-- The length is one that an `int` can hold, and not negative. -/
def FitLength : Prop := 0 ≤ strtol (tokens.getD 4 []) ∧ strtol (tokens.getD 4 []) < 2 ^ 31

/-- The length is negative as the `int` that it is cut to. -/
def CutNegative : Prop := CInt.int32 (strtol (tokens.getD 4 [])) < 0

/-- A conversion fails; or the length is fit, the key no longer than it may be, and neither value of `errno` is
stale; or the length is not, and the line is refused as the length is cut, for the key, or with both values of
`errno`. -/
def VerdictOfTokens (e₁ e₂ : Errno) : Prop :=
  Overflows tokens ∨ (FitLength tokens ∧ ¬LongKey tokens ∧ ¬Stale tokens e₁ ∧ ¬Stale tokens e₂) ∨
    (¬FitLength tokens ∧ (CutNegative tokens ∨ LongKey tokens ∨ Stale tokens e₁ ∧ Stale tokens e₂))

instance : Decidable (Overflows tokens) := inferInstanceAs (Decidable (_ ∨ _ ∨ _))

instance : Decidable (Malformed tokens) := inferInstanceAs (Decidable (_ ∨ (_ ∨ _) ∨ _))

instance : Decidable (LongKey tokens) := inferInstanceAs (Decidable (_ < _))

instance : Decidable (FitLength tokens) := inferInstanceAs (Decidable (_ ∧ _))

instance : Decidable (CutNegative tokens) := inferInstanceAs (Decidable (_ < _))

instance (errno : Errno) : Decidable (Stale tokens errno) := inferInstanceAs (Decidable (_ ∨ (_ ∨ _) ∧ _))

instance (e₁ e₂ : Errno) : Decidable (VerdictOfTokens tokens e₁ e₂) :=
  inferInstanceAs (Decidable (_ ∨ (_ ∧ ¬_ ∧ ¬_ ∧ ¬_) ∨ (¬_ ∧ (_ ∨ _ ∨ _ ∧ _))))

end verdict

variable {hash : List UInt8 → UInt32} {v v' : View} {tokens : List (List UInt8)} {comm : Comm} {env : Env}
    {errno : Errno}

/-- What `process_update_command` takes for malformed. -/
theorem bad_iff : (Numbers.read tokens errno).bad = true ↔
    Overflows tokens ∨ Stale tokens errno ∨ CutNegative tokens := by
  have hover : (strtoulRange (tokens.getD 2 []) || strtolRange (tokens.getD 3 []) || strtolRange (tokens.getD 4 [])) =
      true ↔
      Overflows tokens := by
    simp only [Bool.or_eq_true, Overflows, or_assoc]
  have hflags : (Numbers.read tokens errno).flags = CInt.int32 (strtoul (tokens.getD 2 [])) := by rw [Numbers.read]
  have hexp : (Numbers.read tokens errno).exptime = strtol (tokens.getD 3 []) := by rw [Numbers.read]
  have hvlen : (Numbers.read tokens errno).vlen = CInt.int32 (strtol (tokens.getD 4 [])) := by rw [Numbers.read]
  rw [Numbers.bad, hflags, hexp, hvlen, Bool.or_eq_true, Bool.or_eq_true, Bool.and_eq_true, Bool.or_eq_true,
    decide_eq_true_eq, decide_eq_true_eq, decide_eq_true_eq, decide_eq_true_eq, decide_eq_true_eq, or_assoc]
  by_cases h : Overflows tokens
  · have hread : (Numbers.read tokens errno).errno = .range := if_pos (hover.mpr h)
    exact ⟨fun _ => .inl h, fun _ => .inl hread⟩
  · have hread : (Numbers.read tokens errno).errno = errno := if_neg fun hr => h (hover.mp hr)
    rw [hread, Stale, CutNegative, or_iff_right h, or_assoc]

/-- With room for the answer, what is refused is a long key or numbers that are taken for malformed. -/
theorem refuses_iff (hroom : v.c.ob.r + (Texts.badFormat ++ crlf).length ≤ MC_BUFFER_SIZE) :
    Refuses hash v tokens comm env errno ↔ LongKey tokens ∨ (Numbers.read tokens errno).bad = true := by
  by_cases hkey : KEY_MAX_LENGTH < (tokens.getD 1 []).length
  · refine ⟨fun _ => .inl hkey, fun _ => ?_⟩
    rw [Refuses, View.processUpdateCommand, if_pos hkey, View.outString, View.addOutString, if_pos hroom]
    exact ⟨_, rfl, rfl⟩
  · by_cases hbad : (Numbers.read tokens errno).bad = true
    · refine ⟨fun _ => .inr hbad, fun _ => ?_⟩
      rw [Refuses, View.processUpdateCommand, if_neg hkey]
      dsimp only
      rw [if_pos hbad, View.outString, View.addOutString, if_pos hroom]
      exact ⟨_, rfl, rfl⟩
    · refine ⟨?_, fun h => absurd h (not_or.mpr ⟨hkey, hbad⟩)⟩
      rintro ⟨v', hrun, hob⟩
      rcases processUpdateCommand_good (v := { v with errno }) hkey hbad hrun with ⟨-, hans, -⟩ | hacc
      · exact absurd (hans.ob_iff.mp hob) (by decide)
      · obtain ⟨it, -, -, -, hc⟩ := hacc.alloc
        rw [hc] at hob
        exact absurd (Buf.put_inj ((Buf.put_nil _).trans hob)) (by decide)

/-- Nothing was appended by an answer. -/
theorem Answered.ob_ne {c c' : Conn} {reply : List UInt8} (h : Answered c reply c') : c'.ob ≠ c.ob := by
  intro hob
  rw [h.conn] at hob
  exact h.ne_nil (Buf.put_inj (hob.trans (Buf.put_nil _).symm))

/-- Data is waited for by an update that is not refused, with memory for it. -/
theorem waitsFor_iff {n : Nat} : WaitsFor hash v tokens comm env errno n ↔
    ¬(LongKey tokens ∨ (Numbers.read tokens errno).bad = true) ∧ env.mem ≠ none ∧ n < 2 ^ 31 ∧
      n = (CInt.int32 (strtol (tokens.getD 4 []))).toNat + 2 := by
  have hvlen : (Numbers.read tokens errno).vlen = CInt.int32 (strtol (tokens.getD 4 [])) := by rw [Numbers.read]
  rw [← hvlen]
  constructor
  · rintro ⟨v', hrun, hob, -, -, hrl⟩
    rcases processUpdateCommand_cases hrun with ⟨hans, -⟩ | ⟨hans, -⟩ | hacc
    · exact absurd hob hans.ob_ne
    · exact absurd hob hans.ob_ne
    · obtain ⟨it, hmem, hlen, -, hc⟩ := hacc.alloc
      rw [hc] at hrl
      refine ⟨not_or.mpr ⟨Nat.not_lt.mpr hacc.key, Bool.eq_false_iff.mp hacc.good⟩,
        by simp [hmem], hrl ▸ hlen, hrl.symm⟩
  · rintro ⟨hbad, hmem, hlen, rfl⟩
    obtain ⟨hkey, hgood⟩ := not_or.mp hbad
    have hkey : ¬KEY_MAX_LENGTH < (tokens.getD 1 []).length := hkey
    obtain ⟨q, hq⟩ := Option.ne_none_iff_exists'.mp hmem
    rw [WaitsFor, View.processUpdateCommand, if_neg hkey]
    dsimp only
    rw [if_neg hgood, hq, doItemAlloc_some hlen]
    exact ⟨_, rfl, rfl, by simp, rfl, rfl⟩

/-- A line is malformed for its conversions or its length. -/
theorem malformed_iff : Malformed tokens ↔ Overflows tokens ∨ ¬FitLength tokens := by
  rw [Malformed, FitLength]
  refine or_congr_right ?_
  omega

/-- A fit length is not cut. -/
theorem FitLength.not_cut (h : FitLength tokens) : ¬CutNegative tokens := by
  obtain ⟨hlo, hhi⟩ := h
  rw [CutNegative, CInt.int32_of_range (by omega) (by omega)]
  omega

/-- The verdict is that of the tokens for two values of `errno` exactly if `VerdictOfTokens` holds of them. -/
theorem judged_on_tokens_iff (hash : List UInt8 → UInt32) (v : View) (tokens : List (List UInt8))
    (comm : Comm) (env : Env)
    (e₁ e₂ : Errno) (hroom : v.c.ob.r + (Texts.badFormat ++ crlf).length ≤ MC_BUFFER_SIZE) :
    JudgedOnTokens hash v tokens comm env e₁ e₂ ↔ VerdictOfTokens tokens e₁ e₂ := by
  have href : ∀ e, Refuses hash v tokens comm env e ↔
      LongKey tokens ∨ Overflows tokens ∨ Stale tokens e ∨ CutNegative tokens := fun e => by
    rw [refuses_iff hroom, bad_iff]
  have hwait : ∀ e n, WaitsFor hash v tokens comm env e n ↔
      ¬Refuses hash v tokens comm env e ∧ env.mem ≠ none ∧ n < 2 ^ 31 ∧
      n = (CInt.int32 (strtol (tokens.getD 4 []))).toNat + 2 :=
    fun e n => by rw [waitsFor_iff, refuses_iff hroom]
  have hsame : JudgedOnTokens hash v tokens comm env e₁ e₂ ↔
      (Refuses hash v tokens comm env e₁ ↔ Malformed tokens) ∧
      (Refuses hash v tokens comm env e₂ ↔ Malformed tokens) := by
    constructor
    · intro h
      exact ⟨h.first, h.second⟩
    · rintro ⟨h₁, h₂⟩
      refine ⟨h₁.trans h₂.symm, fun n => ?_, h₁, h₂⟩
      rw [hwait, hwait, h₁, h₂]
  rw [hsame, href, href, malformed_iff, VerdictOfTokens]
  have hcut : FitLength tokens → ¬CutNegative tokens := FitLength.not_cut
  by_cases hover : Overflows tokens
  · simp [hover]
  · by_cases hfit : FitLength tokens
    · simp only [hover, hfit, hcut hfit, false_or, or_false, not_true_eq_false, iff_false, not_or, true_and, false_and]
      constructor
      · intro h
        exact ⟨h.1.1, h.1.2, h.2.2⟩
      · rintro ⟨hkey, hfirst, hsecond⟩
        exact ⟨⟨hkey, hfirst⟩, hkey, hsecond⟩
    · simp only [hover, hfit, false_or, false_and, not_false_eq_true, iff_true, true_and]
      rw [← or_and_left, ← and_or_right, ← or_assoc, or_comm]

/-- A connection that has been accepted, with nothing received. -/
def View.fresh : View := (World.init 0).view (.init [])

/-- `set k 0 0 1`, and memory for its item. -/
def setOne : List (List UInt8) := [lit "set", lit "k", lit "0", lit "0", lit "1"]

def setEnv : Env := { now := 0, granted := false, mem := some 1, found := fun _ => 0 }

/-- Neither of two values of `errno` that no conversion sets is judged with the numbers. -/
theorem judged_on_tokens_set : JudgedOnTokens (fun _ => 0) .fresh setOne .set setEnv .other .again :=
  (judged_on_tokens_iff _ _ _ _ _ _ _ (by decide)).mpr (by decide)

/-- The line is refused after a number of another client was out of range. -/
theorem stale_errno_refuses : ¬JudgedOnTokens (fun _ => 0) .fresh setOne .set setEnv .other .range := by
  intro h
  have hmal : Malformed setOne := h.second.mp ((refuses_iff (by decide)).mpr (.inr (by decide)))
  exact absurd hmal (by decide)

end ZeroServ.Mc
