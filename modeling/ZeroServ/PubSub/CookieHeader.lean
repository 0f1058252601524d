import ZeroServ.PubSub.Cookies
import ZeroServ.PubSub.HttpResponses
import ZeroServ.PubSub.Requests

/-!
# The session cookie in a header line

A browser sends the session cookie back among its other cookies, as one of the pairs of a `Cookie` line.
`http_on_header_field` finds it wherever it stands, but stores what follows it in the line as well, up to the
carriage return. So the text that is looked up is the cookie only if its pair is the last one of the line
(`cookie_restores_iff`). Which of several equal cookies is found then depends on the doublings of the hash.
-/

namespace ZeroServ

open CString Run

/-! ## Lines -/

/-- A pair of a `Cookie` line other than the session cookie: its name does not end in the name of that, nor does its
value hold the beginning of one. -/
structure CookiePair where
  name : List UInt8
  value : List UInt8
  text : ∀ b ∈ name ++ value, b ≠ 0 ∧ b ≠ 13
  name_eq : (61 : UInt8) ∉ name
  name_session : ¬SESSION <:+ name
  value_session : ¬lit "zchat=" <:+: value

def CookiePair.bytes (p : CookiePair) : List UInt8 := p.name ++ 61 :: p.value

/-- What a `Cookie` line has in front of the session cookie and behind it. -/
structure CookieLine where
  before : List CookiePair
  after : List CookiePair

/-- The line with a session cookie, without its end. -/
def CookieLine.bytes (line : CookieLine) (cookie : List UInt8) : List UInt8 :=
  lit "Cookie: " ++ (lit "; ").intercalate
    (line.before.map CookiePair.bytes ++ (SESSION ++ 61 :: cookie) :: line.after.map CookiePair.bytes)

/-- The pairs in front of the session cookie, each with its separator. -/
def CookieLine.opening (line : CookieLine) : List UInt8 :=
  lit "Cookie: " ++ line.before.flatMap fun p => p.bytes ++ lit "; "

/-- The pairs behind the session cookie, each with its separator. -/
def CookieLine.closing (line : CookieLine) : List UInt8 := line.after.flatMap fun p => lit "; " ++ p.bytes

/-- A list of texts joined around one of them. -/
theorem intercalate_around (sep x : List UInt8) (xs ys : List (List UInt8)) :
    sep.intercalate (xs ++ x :: ys) = (xs.flatMap (· ++ sep)) ++ x ++ ys.flatMap (sep ++ ·) := by
  induction xs with
  | nil =>
    induction ys generalizing x with
    | nil => simp
    | cons y ys ih =>
      simp only [List.nil_append] at ih ⊢
      rw [List.intercalate_cons_cons, ih]
      simp
  | cons y xs ih =>
    rw [List.cons_append, List.intercalate_cons_of_ne_nil (by simp), ih, List.flatMap_cons]
    simp only [List.append_assoc]

theorem CookieLine.bytes_eq (line : CookieLine) (cookie : List UInt8) :
    line.bytes cookie = line.opening ++ (lit "zchat=" ++ (cookie ++ line.closing)) := by
  have hsession : SESSION ++ 61 :: cookie = lit "zchat=" ++ cookie := by
    rw [← List.singleton_append, ← List.append_assoc]
    rfl
  rw [bytes, intercalate_around, hsession, opening, closing, List.flatMap_map, List.flatMap_map]
  simp only [List.append_assoc]

/-- No pair in front of the session cookie has anything that can be taken for it. -/
theorem CookieLine.opening_free (line : CookieLine) : ¬lit "zchat=" <:+: line.opening := by
  have hpair : ∀ p : CookiePair, ¬lit "zchat=" <:+: p.bytes := by
    intro p h
    rcases infix_append_last (n := SESSION) (by decide) p.name_eq h with h | h
    · exact p.name_session h
    · exact p.value_session h
  have hpairs : ∀ ps : List CookiePair, ¬lit "zchat=" <:+: ps.flatMap fun p => p.bytes ++ lit "; " := by
    intro ps
    induction ps with
    | nil => decide
    | cons p ps ih =>
      rw [List.flatMap_cons, show lit "; " = [59, 32] from rfl, List.append_assoc]
      intro h
      rcases (infix_append_cons_iff (by decide)).mp h with h | h
      · exact hpair p h
      · rcases (infix_append_cons_iff (a := []) (by decide)).mp h with h | h
        · exact absurd h (by decide)
        · exact ih h
  intro h
  rcases (infix_append_cons_iff (a := lit "Cookie:") (d := 32) (by decide)).mp h with h | h
  · exact absurd h (by decide)
  · exact hpairs _ h

/-- A line ends with its carriage return and not before. -/
theorem CookieLine.text (line : CookieLine) : ∀ b ∈ line.opening ++ line.closing, b ≠ 0 ∧ b ≠ 13 := by
  have hpair : ∀ p : CookiePair, ∀ b ∈ p.bytes, b ≠ 0 ∧ b ≠ 13 := by
    intro p b hb
    rcases List.mem_append.mp hb with hb | hb
    · exact p.text b (List.mem_append_left _ hb)
    · rcases List.mem_cons.mp hb with rfl | hb
      · decide
      · exact p.text b (List.mem_append_right _ hb)
  have hword : ∀ b ∈ lit "Cookie: ", b ≠ 0 ∧ b ≠ 13 := by decide +kernel
  have hsep : ∀ b ∈ lit "; ", b ≠ 0 ∧ b ≠ 13 := by decide +kernel
  simp only [CookieLine.opening, CookieLine.closing, List.forall_mem_append, List.mem_flatMap,
    forall_exists_index, and_imp]
  refine ⟨⟨hword, ?_⟩, ?_⟩
  · intro b p _ hb
    rcases List.mem_append.mp hb with hb | hb
    · exact hpair p b hb
    · exact hsep b hb
  · intro b p _ hb
    rcases List.mem_append.mp hb with hb | hb
    · exact hsep b hb
    · exact hpair p b hb

/-! ## What is stored and looked up -/

section stored

variable (line : CookieLine) {cookie : List UInt8} (hc : ∀ b ∈ cookie, b ≠ 0 ∧ b ≠ 13) (sess : Session) (rest : Mem)

include hc

/-- The text from the session cookie to the end of the line is stored. -/
theorem httpOnHeaderField_line : Server.httpOnHeaderField sess (line.bytes cookie ++ 13 :: rest) =
    { sess with cookie := some (lit "zchat=" ++ (cookie ++ line.closing)) } := by
  obtain ⟨hopening, hclosing⟩ := List.forall_mem_append.mp line.text
  have hstored : ∀ b ∈ lit "zchat=" ++ (cookie ++ line.closing), b ≠ 0 ∧ b ≠ 13 :=
    List.forall_mem_append.mpr ⟨by decide +kernel, List.forall_mem_append.mpr ⟨hc, hclosing⟩⟩
  have hmem : line.bytes cookie ++ 13 :: rest =
      line.opening ++ (lit "zchat=" ++ (cookie ++ line.closing ++ 13 :: rest)) := by
    rw [line.bytes_eq]
    simp only [List.append_assoc]
  have hword : Model.compare (line.bytes cookie ++ 13 :: rest) "Cookie" = true := by
    have hsplit : line.bytes cookie ++ 13 :: rest = lit "Cookie" ++ (line.bytes cookie ++ 13 :: rest).drop 6 := rfl
    rw [compare_iff, hsplit, cstr_append (by decide)]
    exact List.prefix_append ..
  have hfind : strstr (line.bytes cookie ++ 13 :: rest) (lit "zchat=") =
      some (lit "zchat=" ++ (cookie ++ line.closing ++ 13 :: rest)) := by
    rw [hmem]
    exact strstr_append_self (by decide) (fun h => (hopening 0 h).1 rfl) (strstr_eq_none line.opening_free) _
  rw [← List.append_assoc] at hfind
  have h0 : (0 : UInt8) ∉ lit "zchat=" ++ (cookie ++ line.closing) := fun h => (hstored 0 h).1 rfl
  have h13 : (13 : UInt8) ∉ lit "zchat=" ++ (cookie ++ line.closing) := fun h => (hstored 13 h).2 rfl
  rw [Server.httpOnHeaderField, if_pos hword, hfind]
  dsimp only
  rw [strchr_append_cons h13 h0, Option.map_some, List.length_append, Nat.add_sub_cancel, strndup, cstr_append h0,
    List.take_left]

/-- What is looked up of it is the cookie with all that follows it in the line. -/
theorem cookieAccount_line (s : Server) :
    s.cookieAccount (Server.httpOnHeaderField sess (line.bytes cookie ++ 13 :: rest)) =
    s.cookieGetContent (cookie ++ line.closing) := by
  have hval : strchr (lit "zchat=" ++ (cookie ++ line.closing)) 61 = some (61 :: (cookie ++ line.closing)) :=
    strchr_append_cons (a := SESSION) (by decide) (by decide) _
  rw [httpOnHeaderField_line line hc, Server.cookieAccount, Option.bind_some, hval, Option.bind_some, List.tail_cons]

end stored

/-! ## Runs -/

/-- A cookie is made of small letters. -/
theorem CookieCall.name_letter (c : CookieCall) : ∀ b ∈ c.name, b ≠ 0 ∧ b ≠ 13 ∧ b ≠ 59 := by
  intro b hb
  rw [c.name_eq] at hb
  obtain ⟨n, hn, rfl⟩ := List.mem_map.mp hb
  obtain ⟨r, -, rfl⟩ := List.mem_map.mp hn
  have hlt : ∀ n < 25, UInt8.ofNat (n + 97) ≠ 0 ∧ UInt8.ofNat (n + 97) ≠ 13 ∧ UInt8.ofNat (n + 97) ≠ 59 := by decide
  exact hlt (r % 25) (Nat.mod_lt r (by decide))

/-- The entry with a cookie that is in front of the others in its bucket is for the account: it is the newest of
those since which the table has doubled an even number of times, or, where it was an odd number for all, the
oldest. -/
def FrontFor (acc : Nat) (entries : List (List UInt8 × Nat)) (cookie : List UInt8) : Prop :=
  ∃ newer b older, UtHash.Table.turned UtHash.hashJen entries = newer ++ ((cookie, acc), b) :: older ∧
    (∀ m ∈ newer, m.1.1 = cookie → m.2 = true) ∧ (b = false ∨ ∀ m ∈ older, m.1.1 ≠ cookie)

theorem cookieGetContent_iff (s : Server) (cookie : List UInt8) (acc : Nat) :
    s.cookieGetContent cookie = some acc ↔ FrontFor acc s.cookieList cookie := by
  rw [Server.cookieGetContent, Option.map_eq_some_iff, Server.cookieTable, FrontFor]
  constructor
  · rintro ⟨e, hfind, rfl⟩
    obtain ⟨rfl, hfront⟩ := UtHash.Table.find_made_iff.mp hfind
    exact hfront
  · exact fun hfront => ⟨(cookie, acc), UtHash.Table.find_made_iff.mpr ⟨rfl, hfront⟩, rfl⟩

/-- The cookie of a line resolves to its account exactly if it stands at the end of the line, and, of the entries
with its letters, the one in front of its bucket is the account's. -/
theorem cookie_restores_iff {fdtab : Fd → FdEntry} {maxConn : Int} {es : List Event} {t : Observed}
    (hr : exec observedStep (Server.init fdtab maxConn, []) es = some t) (hdrawn : ∀ e ∈ es, Server.Drawn e)
    {cookie : List UInt8} {acc : Nat} (hissued : (cookie, acc) ∈ t.1.cookieList) (line : CookieLine) (sess : Session)
    (rest : Mem) :
    t.1.cookieAccount (Server.httpOnHeaderField sess (line.bytes cookie ++ 13 :: rest)) = some acc ↔
      line.after = [] ∧ FrontFor acc t.1.cookieList cookie := by
  obtain ⟨calls, hcalls⟩ := run_cookies hr hdrawn
  have hnames : ∀ e ∈ t.1.cookieList, ∀ b ∈ e.1, b ≠ 0 ∧ b ≠ 13 ∧ b ≠ 59 := by
    intro e he
    rw [hcalls, Server.cookieList_putCookies, show (Server.init fdtab maxConn).cookieList = [] from rfl,
      List.append_nil, List.mem_reverse, List.mem_map] at he
    obtain ⟨c, -, rfl⟩ := he
    exact c.name_letter
  have hcookie := hnames (cookie, acc) hissued
  rw [cookieAccount_line line (fun b hb => ⟨(hcookie b hb).1, (hcookie b hb).2.1⟩)]
  cases hafter : line.after with
  | nil =>
    rw [CookieLine.closing, hafter, List.flatMap_nil, List.append_nil, cookieGetContent_iff]
    exact (and_iff_right rfl).symm
  | cons p ps =>
    -- the text looked up holds a semicolon, and no cookie does
    refine iff_of_false (fun hget => ?_) fun h => absurd h.1 (List.cons_ne_nil p ps)
    obtain ⟨e, hfind, -⟩ := Option.map_eq_some_iff.mp hget
    obtain ⟨he, hname⟩ := UtHash.Table.mem_of_find_made hfind
    have hmem : (59 : UInt8) ∈ e.1 := by
      rw [hname, CookieLine.closing, hafter]
      exact List.mem_append_right _ (List.mem_cons_self ..)
    exact (hnames e he 59 hmem).2.2 rfl

/-- An account is made and logs in, over one connection. -/
def loginRun : List Event :=
  [.accept .httpPubsub 5, .url 5 (lit "/logup/u/p"), .msgComplete 5 ⟨0, 0⟩ (List.replicate 10 0) [],
    .url 5 (lit "/login/u/p"), .msgComplete 5 ⟨0, 0⟩ (List.replicate 10 0) []]

/-- The cookie that the login hands out. -/
def loginCookie : List UInt8 := lit "aaaaaaaaaa"

/-- A pair that says a language. -/
def langPair : CookiePair :=
  ⟨lit "lang", lit "en", by decide +kernel, by decide +kernel, by decide +kernel, by decide +kernel⟩

theorem cookie_restores_last : ((exec observedStep (freshServer, []) loginRun).map fun t =>
    t.1.cookieAccount (Server.httpOnHeaderField ⟨none, none⟩
      ((CookieLine.mk [langPair] []).bytes loginCookie ++ [13, 10]))) = some (some 1) := by
  have hentries : (exec observedStep (freshServer, []) loginRun).map (·.1.cookieList) = some [(loginCookie, 1)] := by
    decide +kernel
  obtain ⟨t, hr, hlist⟩ := Option.map_eq_some_iff.mp hentries
  have hissued : (loginCookie, 1) ∈ t.1.cookieList := hlist ▸ List.mem_singleton_self _
  have hdrawn : ∀ e ∈ loginRun, Server.Drawn e := by simp [loginRun, Server.Drawn]
  have hfront : FrontFor 1 t.1.cookieList loginCookie := by
    rw [hlist]
    exact ⟨[], false, [], by decide +kernel, nofun, .inl rfl⟩
  rw [hr, Option.map_some]
  exact congrArg some ((cookie_restores_iff hr hdrawn hissued ⟨[langPair], []⟩ ⟨none, none⟩ [10]).mpr ⟨rfl, hfront⟩)

/-- With another cookie behind it, the session cookie does not resolve to the account. -/
theorem cookie_not_last_lost : ((exec observedStep (freshServer, []) loginRun).map fun t =>
    t.1.cookieAccount (Server.httpOnHeaderField ⟨none, none⟩
      ((CookieLine.mk [] [langPair]).bytes loginCookie ++ [13, 10]))) ≠ some (some 1) := by
  decide +kernel

end ZeroServ
