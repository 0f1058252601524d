import ZeroServ.Lib.Run
import ZeroServ.PubSub.Frame
import ZeroServ.PubSub.Writes

/-!
# Session cookies

A cookie is ten letters drawn with `rand`, and `cookie_put_content` adds it to the hash without looking for an equal
one. So cookies keep resolving to the accounts they were handed out for exactly where the same letters are not drawn
for two accounts (`cookies_bound_iff`). `step_cookies` says that an event changes the hash by such calls only.
-/

namespace ZeroServ

open CString

/-- A call of `cookie_put_content`: the account, and what `rand` returns to `zen_cookie`. -/
structure CookieCall where
  acc : Nat
  rands : List Nat
  drawn : rands.length = 10
  deriving DecidableEq, Repr

namespace CookieCall

/-- The cookie the call returns. -/
def name (c : CookieCall) : List UInt8 := Server.zenCookie c.rands

/-- The remainders of the values drawn, each of which says a letter. -/
def letters (c : CookieCall) : List Nat := c.rands.map (· % 25)

theorem name_eq (c : CookieCall) : c.name = c.letters.map fun n => UInt8.ofNat (n + 97) := by
  simp [name, Server.zenCookie, letters, ← c.drawn, Function.comp_def]

theorem letters_eq (c : CookieCall) : c.letters = c.name.map fun b => b.toNat - 97 := by
  have hself : ∀ n ∈ c.letters, (UInt8.ofNat (n + 97)).toNat - 97 = id n := by
    intro n hn
    obtain ⟨r, -, rfl⟩ := List.mem_map.mp hn
    have hlt : r % 25 + 97 < 256 := by omega
    rw [UInt8.toNat_ofNat', Nat.mod_eq_of_lt hlt, Nat.add_sub_cancel, id]
  rw [name_eq, List.map_map]
  exact ((List.map_congr_left hself).trans (List.map_id _)).symm

/-- Two calls return one cookie just when the remainders agree. -/
theorem name_eq_iff (c d : CookieCall) : c.name = d.name ↔ c.letters = d.letters := by
  constructor
  · intro h
    rw [letters_eq, letters_eq, h]
  · intro h
    rw [name_eq, name_eq, h]

end CookieCall

namespace Server

variable (s : Server)

/-- The server after calls of `cookie_put_content`. -/
def putCookies (calls : List CookieCall) : Server := calls.foldl (fun s c => s.cookiePutContent c.acc c.rands) s

/-- In every state on the way, every cookie handed out so far resolves to the account it was handed out for. -/
def CookiesBound (calls : List CookieCall) : Prop :=
  ∀ before, before <+: calls → ∀ c ∈ before, (s.putCookies before).cookieGetContent c.name = some c.acc

@[simp] theorem putCookies_concat (calls : List CookieCall) (d : CookieCall) :
    s.putCookies (calls ++ [d]) = (s.putCookies calls).cookiePutContent d.acc d.rands := by
  simp [putCookies]

/-- The entries of the calls are in front of the others, the newest first. -/
theorem cookieList_putCookies (calls : List CookieCall) :
    (s.putCookies calls).cookieList = (calls.map fun c => (c.name, c.acc)).reverse ++ s.cookieList := by
  induction calls using List.reverseRecOn with
  | nil => rfl
  | append_singleton calls d ih =>
    rw [putCookies_concat, List.map_append, List.reverse_append]
    exact congrArg ((d.name, d.acc) :: ·) ih

/-- Some entry of a name that was handed out is found. -/
theorem cookieGetContent_of_mem {s : Server} {e : List UInt8 × Nat} (he : e ∈ s.cookieList) :
    ∃ acc, s.cookieGetContent e.1 = some acc ∧ (e.1, acc) ∈ s.cookieList := by
  obtain ⟨e', hfind⟩ := UtHash.Table.find_made_of_mem UtHash.hashJen he
  obtain ⟨he', hname⟩ := UtHash.Table.mem_of_find_made hfind
  refine ⟨e'.2, ?_, hname ▸ he'⟩
  rw [cookieGetContent, cookieTable, hfind]
  rfl

/-- The cookies of a hash that was empty stay bound to their accounts exactly where no two calls for different
accounts draw the same letters. -/
theorem cookies_bound_iff (calls : List CookieCall) : ({ s with cookieList := [] } : Server).CookiesBound calls ↔
    calls.Pairwise fun c d => c.letters = d.letters → c.acc = d.acc := by
  have hentries : ∀ before : List CookieCall,
      (({ s with cookieList := [] } : Server).putCookies before).cookieList =
      (before.map fun c => (c.name, c.acc)).reverse := by
    intro before
    rw [cookieList_putCookies]
    exact List.append_nil _
  constructor
  · intro h
    refine List.pairwise_of_forall_mem_list fun c hc d hd hletters => ?_
    have hsame := h calls (List.prefix_refl _) c hc
    rw [(c.name_eq_iff d).mpr hletters, h calls (List.prefix_refl _) d hd] at hsame
    exact (Option.some.inj hsame).symm
  · intro h before hbefore c hc
    have hmem : (c.name, c.acc) ∈ (({ s with cookieList := [] } : Server).putCookies before).cookieList := by
      rw [hentries, List.mem_reverse]
      exact List.mem_map_of_mem hc
    obtain ⟨acc, hget, hfound⟩ := cookieGetContent_of_mem hmem
    rw [hentries, List.mem_reverse, List.mem_map] at hfound
    obtain ⟨d, hd, heq⟩ := hfound
    obtain ⟨hname, rfl⟩ := Prod.mk.inj heq
    have hflip : calls.Pairwise (flip fun c d : CookieCall => c.letters = d.letters → c.acc = d.acc) :=
      h.imp fun hcd hletters => (hcd hletters.symm).symm
    have hacc : c.acc = d.acc := h.forall_of_forall_of_flip (fun _ _ _ => rfl) hflip (hbefore.subset hc)
      (hbefore.subset hd) ((c.name_eq_iff d).mp hname.symm)
    rw [hacc]
    exact hget

/-- The same ten letters drawn at two logins: the cookie of the first account now resolves to the second. -/
theorem cookie_moves :
    ¬∀ (s : Server) (calls : List CookieCall), s.CookiesBound calls := by
  intro h
  have h := h freshServer [⟨1, List.replicate 10 0, rfl⟩, ⟨2, List.replicate 10 0, rfl⟩] _ (List.prefix_refl _)
    ⟨1, List.replicate 10 0, rfl⟩ (List.mem_cons_self ..)
  revert h
  decide +kernel

/-! ## The calls a server makes -/

/-- What `rand` returns while a request is answered is as many values as a cookie takes. -/
def Drawn : Event → Prop
  | .msgComplete _ _ rands _ => rands.length = 10
  | _ => True

theorem onResponse_cookies {rands : List Nat} (h : rands.length = 10) (sent : List Response) :
    ∃ calls, sent.foldl (fun s r => s.onResponse rands r) s = s.putCookies calls := by
  induction sent generalizing s with
  | nil => exact ⟨[], rfl⟩
  | cons r sent ih =>
    obtain ⟨calls, hcalls⟩ := ih (s.onResponse rands r)
    rw [List.foldl_cons, hcalls]
    unfold onResponse
    split
    · split
      · next acc _ => exact ⟨⟨acc.id, rands, h⟩ :: calls, rfl⟩
      · exact ⟨calls, rfl⟩
    · exact ⟨calls, rfl⟩

/-- A command of a plain connection hands out no cookie: the reply to a `login` goes to the connection itself. -/
theorem onResponse_plain {fd : Fd} (h : (s.fdtab fd).owner ≠ some .httpPubsub) (rands : List Nat) {sent : List Response}
    (hsent : ∀ r ∈ sent, r.fd = fd ∨ r.action = some .repSub) : sent.foldl (fun s r => s.onResponse rands r) s = s := by
  induction sent with
  | nil => rfl
  | cons r sent ih =>
    obtain ⟨hr, hsent⟩ := List.forall_mem_cons.mp hsent
    have hno : ¬((s.fdtab r.fd).owner = some .httpPubsub ∧ r.action = some .login) := by
      rintro ⟨ho, ha⟩
      rcases hr with rfl | hr
      · exact h ho
      · rw [hr] at ha
        nomatch ha
    rw [List.foldl_cons, onResponse, if_neg hno]
    exact ih hsent

theorem process_cookies (fd : Fd) (content : Mem) (delim : UInt8) (sup : Supply) {rands : List Nat}
    (h : rands.length = 10) :
    ∃ calls, (s.process fd content delim sup rands).1.cookieList = (s.putCookies calls).cookieList := by
  unfold process
  dsimp only
  set p := s.model.modelProcess s.view fd content delim sup with hp
  obtain ⟨calls, hcalls⟩ := onResponse_cookies { s with model := p.model, exited := p.exited } h p.sent
  exact ⟨calls, by rw [hcalls, cookieList_putCookies, cookieList_putCookies]⟩

theorem eventAccept_cookieList (h : Handler) (fd : Fd) : (s.eventAccept h fd).1.cookieList = s.cookieList := by
  unfold eventAccept handlerAccept
  cases h with
  | http | memcached => rfl
  | echo | pubsub | httpPubsub =>
    dsimp only
    split <;> rfl

theorem attachCookie_cookieList (fd : Fd) (sess : Session) (sup : Supply) :
    (s.attachCookie fd sess sup).1.cookieList = s.cookieList := by
  unfold attachCookie
  split <;> rfl

theorem close_cookieList (h : Handler) (fd : Fd) : (s.close h fd).cookieList = s.cookieList := by
  cases h <;> rfl

/-- An event changes the hash as calls of `cookie_put_content` do. -/
theorem step_cookies {s : Server} {e : Event} {r : Server × List Obs} (h : s.step e = some r) (hdrawn : Drawn e) :
    ∃ calls, r.1.cookieList = (s.putCookies calls).cookieList := by
  cases step_cases h with
  | accept => exact ⟨[], eventAccept_cookieList ..⟩
  | @command fd content sup hserves =>
    have hplain : (s.fdtab fd).owner ≠ some .httpPubsub := by
      intro ho
      simp [serves, ho] at hserves
    set p := s.model.modelProcess s.view fd content 32 sup with hp
    have hsent := congrArg cookieList (onResponse_plain { s with model := p.model, exited := p.exited } hplain []
      (s.model.modelProcess_sent s.view fd content 32 sup))
    exact ⟨[], hsent⟩
  | url => exact ⟨[], rfl⟩
  | headerField => exact ⟨[], rfl⟩
  | @msgComplete fd sup rands behind sess =>
    unfold httpOnMsgComplete
    dsimp only
    split
    · exact ⟨[], s.attachCookie_cookieList fd sess sup⟩
    · next url _ =>
      obtain ⟨calls, hcalls⟩ :=
        process_cookies (s.attachCookie fd sess sup).1 fd (Server.paramOf url behind) 47 sup hdrawn
      refine ⟨calls, hcalls.trans ?_⟩
      rw [cookieList_putCookies, cookieList_putCookies, attachCookie_cookieList]
  | close => exact ⟨[], close_cookieList ..⟩

end Server

/-- So does a whole run. -/
theorem run_cookies {t t' : Observed} {es : List Event} (hr : Run.exec observedStep t es = some t')
    (hdrawn : ∀ e ∈ es, Server.Drawn e) :
    ∃ calls, t'.1.cookieList = (t.1.putCookies calls).cookieList := by
  induction es generalizing t with
  | nil =>
    obtain rfl := Option.some.inj hr
    exact ⟨[], rfl⟩
  | cons e es ih =>
    obtain ⟨he, hdrawn⟩ := List.forall_mem_cons.mp hdrawn
    rw [Run.exec_cons, Option.bind_eq_some_iff] at hr
    obtain ⟨t₁, hs, hr⟩ := hr
    obtain ⟨seen, hstep, -⟩ := observed_step hs
    obtain ⟨calls, hcalls⟩ := Server.step_cookies hstep he
    obtain ⟨calls', hcalls'⟩ := ih hr hdrawn
    refine ⟨calls ++ calls', ?_⟩
    rw [hcalls', Server.cookieList_putCookies, hcalls, Server.cookieList_putCookies, Server.cookieList_putCookies]
    simp

end ZeroServ
