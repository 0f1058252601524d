import ZeroServ.Memcached.Holding

/-!
# What the commands answer

`View.answer` says what `process_command` appends to the output buffer, from the entry that the store has for the
key; an update that is taken has no answer yet. `processCommand_spec`: with room for the answer the command is
processed, without it the process ends with bytes written past the buffer, and it ends in no other way.
-/

namespace ZeroServ.Mc

open CString

section answer

variable (hash : List UInt8 → UInt32)

/-- The suffix and the data of the item that `assoc_find` finds. -/
def Store.lookup (s : Store) (key : List UInt8) : Option Value :=
  match assocFind hash s key with
  | .ok (some p) => (s.heap.get p).map fun x => (x.suffix, x.data)
  | _ => none

/-- What `get` answers: the item in front of the end. -/
def getAnswer (key : List UInt8) (v : Option Value) : List UInt8 := (getReply (v.map fun v => (key, v))).flatten

/-- What an update is answered at once: that it is malformed, or that there is no memory for it. -/
def updateAnswer (tokens : List (List UInt8)) (errno : Errno) (mem : Option Ptr) : Option (List UInt8) :=
  if KEY_MAX_LENGTH < (tokens.getD 1 []).length ∨ (Numbers.read tokens errno).bad then some (Texts.badFormat ++ crlf)
  else if mem = none ∨ 2 ^ 31 ≤ (Numbers.read tokens errno).vlen.toNat + 2 then some (Texts.outOfMemory ++ crlf)
  else none

/-- What a command is answered at once. -/
def View.answer (v : View) (command : List UInt8) (env : Env) : Option (List UInt8) :=
  let tokens := (tokenizeCommand command MAX_TOKENS).1
  let word := tokens.headD []
  if tokens.length + 1 ≥ 3 && (word = lit "get" || word = lit "bget") then
    some (getAnswer (tokens.getD 1 []) (v.store.lookup hash (tokens.getD 1 [])))
  else
    match if tokens.length + 1 = 6 || tokens.length + 1 = 7 then commOf word else none with
    | some _ => updateAnswer tokens v.errno env.mem
    | none =>
      if tokens.length + 1 = 2 && word = lit "version" then some (Texts.version ++ crlf)
      else if tokens.length + 1 = 2 && word = lit "stats" then some (v.statsText ++ crlf)
      else some (Texts.error ++ crlf)

end answer

variable {hash : List UInt8 → UInt32} {s : Store} {l : List Ptr} {m : List UInt8 → Option Value}
    {refs : Ptr → Nat} {v : View}
  {env : Env} {tokens : List (List UInt8)} {comm : Comm}

/-- The entry of a key is that of its item. -/
theorem Maps.lookup (hm : Maps s l m) (h : Inv hash s l refs) (key : List UInt8) : s.lookup hash key = m key := by
  rcases find_key s l key with ⟨p, hp, hkey⟩ | hno
  · obtain ⟨x, -, hx, rfl⟩ := deref_keyAt hkey
    rw [Store.lookup, assocFind_present h.hashed hp hkey, hm.present hp hx]
    dsimp only
    rw [hx, Option.map_some]
  · rw [Store.lookup, assocFind_absent h.hashed hno, hm.absent hno]

theorem Stocked.lookup (h : Stocked hash s l m refs) (key : List UInt8) : s.lookup hash key = m key :=
  h.maps.lookup h.inv key

/-! ## The output buffer -/

/-- The result of appending an answer: the bytes must end within the buffer. -/
structure Appending (v : View) (text : List UInt8) (r : Except End View) : Prop where
  fits : v.c.ob.r + text.length ≤ MC_BUFFER_SIZE → ∃ v', r = .ok v' ∧ Answered v.c text v'.c
  overflow : ¬v.c.ob.r + text.length ≤ MC_BUFFER_SIZE → r = .error .overflow

theorem outString_appending (data : List UInt8) : Appending v (data ++ crlf) (v.outString data) where
  fits hle := by
    have hrun : v.outString data = .ok { v with c := { v.c with ob := v.c.ob.put (data ++ crlf) } }.setWr := by
      rw [View.outString, View.addOutString, if_pos hle]
    exact ⟨_, hrun, outString_answered hrun⟩
  overflow hlt := by rw [View.outString, View.addOutString, if_neg hlt]

/-- What is appended in pieces ends where it ends in one piece. -/
theorem foldlM_addOutString_appending {pieces : List (List UInt8)} (hne : pieces ≠ []) (htext : pieces.flatten ≠ []) :
    Appending v pieces.flatten (pieces.foldlM View.addOutString v) where
  fits hle := by
    cases hrun : pieces.foldlM View.addOutString v with
    | ok v' =>
      obtain ⟨-, rfl⟩ := foldlM_addOutString hne hrun
      exact ⟨_, rfl, rfl, htext, hle⟩
    | error e =>
      refine absurd hrun ?_
      clear hne htext hrun
      induction pieces generalizing v with
      | nil => nofun
      | cons p ps ih =>
        rw [List.flatten_cons, List.length_append, ← Nat.add_assoc] at hle
        rw [List.foldlM_cons, View.addOutString, if_pos (by omega)]
        refine ih ?_
        exact hle
  overflow hlt := by
    induction pieces generalizing v with
    | nil => exact absurd rfl hne
    | cons p ps ih =>
      rw [List.flatten_cons, List.length_append, ← Nat.add_assoc] at hlt
      rw [List.foldlM_cons, View.addOutString]
      split
      · next hle =>
        have hps : ps.flatten ≠ [] := by
          intro hps
          rw [hps, List.length_nil] at hlt
          exact hlt hle
        refine ih ?_ hps hlt
        rintro rfl
        exact hps rfl
      · rfl

/-- An answer to the same output buffer. -/
theorem Appending.of_ob {v₁ : View} {text : List UInt8} {r : Except End View} (h : Appending v₁ text r)
    (hc : v₁.c = v.c) :
    Appending v text r := ⟨hc ▸ h.fits, hc ▸ h.overflow⟩

/-! ## The commands -/

/-- What `process_command` does, given its answer. -/
def Answers (v : View) (tokens : List (List UInt8)) (env : Env) (answer : Option (List UInt8))
    (r : Except End View) : Prop :=
  match answer with
  | some text => Appending v text r
  | none => ∃ comm v', r = .ok v' ∧ Accepted v tokens comm env v'

theorem processGetCommand_answers (h : Stocked hash v.store l m refs) (tokens : List (List UInt8)) (env : Env) :
    Appending v (getAnswer (tokens.getD 1 []) (v.store.lookup hash (tokens.getD 1 [])))
      (v.processGetCommand hash tokens env) := by
  obtain ⟨s', hs', -⟩ := processGetCommand_spec h.inv h.maps h.linked (tokens.getD 1 []) env.now
  rw [View.processGetCommand, hs', h.lookup, getAnswer]
  obtain ⟨hne, htext⟩ := getReply_ne_nil ((m (tokens.getD 1 [])).map fun v => (tokens.getD 1 [], v))
  exact (foldlM_addOutString_appending hne htext).of_ob rfl

theorem processUpdateCommand_answers (h : Stocked hash v.store l m refs) (tokens : List (List UInt8)) (comm : Comm)
    (env : Env) :
    Answers v tokens env (updateAnswer tokens v.errno env.mem) (v.processUpdateCommand hash tokens comm env) := by
  rw [View.processUpdateCommand, updateAnswer]
  dsimp only
  by_cases hkey : KEY_MAX_LENGTH < (tokens.getD 1 []).length
  · rw [if_pos (.inl hkey), if_pos hkey]
    exact (outString_appending _).of_ob rfl
  · rw [if_neg hkey]
    by_cases hbad : (Numbers.read tokens v.errno).bad = true
    · rw [if_pos (.inr hbad), if_pos hbad]
      exact (outString_appending _).of_ob rfl
    · rw [if_neg (not_or.mpr ⟨hkey, hbad⟩), if_neg hbad]
      by_cases hno : env.mem = none ∨ 2 ^ 31 ≤ (Numbers.read tokens v.errno).vlen.toNat + 2
      · obtain ⟨s', l', hs', -⟩ := failedAlloc_spec h.inv h.maps h.linked (tokens.getD 1 []) comm env.now
        rw [if_pos hno, doItemAlloc_none hno]
        have happ := (@outString_appending
          { v with
            counters := { v.counters with setCmds := v.counters.setCmds + 1 }
            errno := (Numbers.read tokens v.errno).errno } Texts.outOfMemory).of_ob (v := v) rfl
        refine ⟨fun hle => ?_, fun hlt => ?_⟩
        · obtain ⟨v₁, hout, hans⟩ := happ.fits hle
          refine ⟨{ v₁ with store := s' }, ?_, hans⟩
          have hstore : v₁.store = v.store := by
            obtain ⟨-, rfl⟩ := addOutString_eq_ok hout
            rfl
          dsimp only
          rw [hout]
          change (orEnd (failedAlloc hash v₁.store _ _ _) >>= _) = _
          rw [hstore, hs']
          rfl
        · dsimp only
          rw [happ.overflow hlt]
          rfl
      · obtain ⟨hsome, hlen⟩ := not_or.mp hno
        obtain ⟨q, hq⟩ := Option.ne_none_iff_exists'.mp hsome
        rw [if_neg hno, hq, doItemAlloc_some (Nat.not_le.mp hlen)]
        exact ⟨comm, _, rfl, Nat.not_lt.mp hkey, Bool.eq_false_iff.mpr hbad, q, hq, Nat.not_le.mp hlen, rfl, rfl⟩

/-- `process_command` appends its answer, or waits for the data of an update. -/
theorem processCommand_spec (h : Stocked hash v.store l m refs) (command : List UInt8) (env : Env) :
    Answers v (tokenizeCommand command MAX_TOKENS).1 env (v.answer hash command env)
      (v.processCommand hash command env) := by
  rw [View.processCommand, View.answer]
  generalize (tokenizeCommand command MAX_TOKENS).1 = tokens
  split
  · exact processGetCommand_answers h tokens env
  · generalize (if tokens.length + 1 = 6 || tokens.length + 1 = 7 then commOf (tokens.headD []) else none) = kind
    cases kind with
    | some comm => exact processUpdateCommand_answers h tokens comm env
    | none =>
      dsimp only
      split
      · exact outString_appending Texts.version
      · split
        · exact outString_appending v.statsText
        · exact outString_appending Texts.error

end ZeroServ.Mc
