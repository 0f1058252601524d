import ZeroServ.Memcached.Turns

/-!
# The items that the connections hold

`Sound` is the invariant of the world: the store satisfies its own, each item that a connection holds has one
reference and belongs to that connection alone, and in `conn_nread` the data pointer and the count of missing bytes
fit the item. It holds in every state of every run (`sound_always`); an item whose connection has forgotten it keeps
its reference.
-/

namespace ZeroServ.Mc

open Run CString

/-- In `conn_nread` the bytes that are missing are those from the data pointer on; without an item none is missing. -/
structure Conn.Fed (s : Store) (c : Conn) : Prop where
  missing : ∀ {p}, c.state = .nread → c.item = some p → ∃ x, s.heap.get p = some x ∧ c.ritem + c.rlbytes = x.nbytes
  none_missing : c.state = .nread → c.item = none → c.rlbytes = 0

/-- The store's invariant, where a reference is that of a connection: an item has at most one, a linked one none. -/
structure Stocked (hash : List UInt8 → UInt32) (s : Store) (l : List Ptr) (m : List UInt8 → Option Value)
    (refs : Ptr → Nat) : Prop where
  inv : Inv hash s l refs
  maps : Maps s l m
  le_one : ∀ p, refs p ≤ 1
  linked : ∀ p ∈ l, refs p = 0

/-- What a callback of a connection finds, where the other connections hold the items `others`. -/
structure Holds (hash : List UInt8 → UInt32) (s : Store) (l : List Ptr) (m : List UInt8 → Option Value)
    (refs : Ptr → Nat) (others : Ptr → Prop) (c : Conn) : Prop extends Stocked hash s l m refs where
  own : ∀ {p}, c.item = some p → refs p = 1 ∧ ¬others p
  held : ∀ {p}, others p → refs p = 1
  fed : c.Fed s

/-- The items stay as they are. -/
def Spared (items : Ptr → Prop) (s s' : Store) : Prop :=
  ∀ {p}, items p → (s'.heap.get p).map Item.content = (s.heap.get p).map Item.content

/-- What a callback leaves for the other connections. -/
def Leaves (hash : List UInt8 → UInt32) (others : Ptr → Prop) (s s' : Store) (c' : Conn) : Prop :=
  (∃ l m refs, Holds hash s' l m refs others c') ∧ Spared others s s'

variable {hash : List UInt8 → UInt32} {s s' : Store} {l l' : List Ptr} {m m' : List UInt8 → Option Value}
    {refs : Ptr → Nat}
  {others : Ptr → Prop} {c c' : Conn} {p it : Ptr} {x : Item} {v v' : View} {env : Env} {tokens : List (List UInt8)}

/-- What completes an update with new data over an old entry is answered; `none` where the item to be linked is too
large. -/
def Comm.completion (comm : Comm) (old : Option Value) (env : Env) (new : Value) : Option Reply :=
  if new.2.drop (new.2.length - 2) = crlf then
    match comm.stored old new with
    | none => some .notStored
    | some u => if env.Lacks comm u then some .notStored else if u.2.length < 1024 * 1024 then some .stored else none
  else some .badDataChunk

/-! ## The store and one connection -/

theorem Conn.Fed.congr (h : c.Fed s) (hs : ∀ p, c.item = some p →
      (s'.heap.get p).map Item.content = (s.heap.get p).map Item.content) :
    c.Fed s' where
  missing := by
    intro p hstate hp
    obtain ⟨x, hx, hn⟩ := h.missing hstate hp
    obtain ⟨y, hy, -, -, hyd⟩ := item_of_content ((hs p hp).trans (congrArg _ hx))
    refine ⟨y, hy, ?_⟩
    rw [hn, Item.nbytes, Item.nbytes, hyd]
  none_missing := h.none_missing

theorem Conn.Fed.of_state (h : c.state ≠ .nread) : c.Fed s := ⟨fun hn => absurd hn h, fun hn => absurd hn h⟩

namespace Stocked

variable (h : Stocked hash s l m refs)

include h

theorem unlinked (hp : refs p = 1) : p ∉ l := by
  intro hl
  rw [h.linked p hl] at hp
  nomatch hp

theorem live (hp : refs p = 1) : ∃ x, s.heap.get p = some x := h.inv.live (by omega)

/-- What is not allocated has no reference. -/
theorem fresh (hp : s.heap.get p = none) : refs p ≠ 1 := by
  rw [h.inv.marked.dead hp]
  decide

/-- `complete_nread` completes the update, or links an item that is too large. -/
theorem completeNread_cases (hx : s.heap.get it = some x) (hone : refs it = 1)
    (hmem : ∀ p, env.mem = some p → s.heap.get p = none) (comm : Comm) :
    match comm.completion (m x.key) env (x.suffix, x.data) with
    | some reply => ∃ r, completeNread hash s it comm env = .ok r ∧
        Completed hash s l refs it
          (if reply = .stored then Function.update m x.key (comm.stored (m x.key) (x.suffix, x.data)) else m) reply r
    | none => completeNread hash s it comm env = .error .tooLarge := by
  rw [Comm.completion]
  by_cases hend : (x.suffix, x.data).2.drop ((x.suffix, x.data).2.length - 2) = crlf
  · have hspec := completeNread_spec h.inv h.maps hx (h.unlinked hone) hone h.le_one hmem hend comm
    rw [if_pos hend]
    cases hv : comm.stored (m x.key) (x.suffix, x.data) with
    | none =>
      rw [hv] at hspec
      exact hspec
    | some u =>
      rw [hv] at hspec
      dsimp only at hspec ⊢
      by_cases hno : env.Lacks comm u
      · rw [if_pos hno] at hspec ⊢
        exact hspec
      · rw [if_neg hno] at hspec ⊢
        rcases Nat.lt_or_ge u.2.length (1024 * 1024) with hsmall | hlarge
        · rw [if_pos hsmall]
          exact hspec.ok hsmall
        · rw [if_neg (Nat.not_lt.mpr hlarge)]
          exact hspec.tooLarge hlarge
  · rw [if_neg hend]
    exact completeNread_bad h.inv h.maps hx hone hend comm env

end Stocked

namespace Holds

variable (h : Holds hash s l m refs others c)

include h

/-- Another state of the connection. -/
theorem withConn (hitem : c'.item = c.item) (hfed : c'.Fed s) : Holds hash s l m refs others c' where
  toStocked := h.toStocked
  own := fun hp => h.own (hitem ▸ hp)
  held := h.held
  fed := hfed

/-- The store after an operation that is not about the items that connections hold. -/
theorem kept (hinv : Inv hash s' l' refs) (hmaps : Maps s' l' m') (hkept : Kept none s l s' l') :
    Leaves hash others s s' c := by
  have hsame : ∀ {p}, refs p = 1 → (s'.heap.get p).map Item.content = (s.heap.get p).map Item.content := by
    intro p hp
    obtain ⟨x, hx⟩ := h.live hp
    exact hkept.content p (h.unlinked hp) nofun (by simp [hx])
  refine ⟨⟨l', m', refs, ⟨hinv, hmaps, h.le_one, fun p hp => ?_⟩, h.own, h.held,
    h.fed.congr fun p hp => hsame (h.own hp).1⟩, fun hp => hsame (h.held hp)⟩
  rcases hkept.linked p hp with hl | hl | hl
  · exact h.linked p hl
  · nomatch hl
  · exact h.inv.marked.dead hl

/-- The store after the connection has let its item go. -/
theorem dropped (hit : c.item = some it) (hinv : Inv hash s' l' (Function.update refs it 0)) (hmaps : Maps s' l' m')
    (hkept : Kept (some it) s l s' l') (hnone : c'.item = none) (hfed : c'.Fed s') : Leaves hash others s s' c' := by
  have hne : ∀ {p}, others p → p ≠ it := by
    rintro p hp rfl
    exact (h.own hit).2 hp
  refine ⟨⟨l', m', _, ⟨hinv, hmaps, fun p => ?_, fun p hp => ?_⟩, fun hp => ?_, fun {p} hp => ?_, hfed⟩,
    fun {p} hp => ?_⟩
  · by_cases hpi : p = it
    · rw [hpi, Function.update_self]
      exact Nat.zero_le 1
    · rw [Function.update_of_ne hpi]
      exact h.le_one p
  · by_cases hpi : p = it
    · rw [hpi, Function.update_self]
    · rw [Function.update_of_ne hpi]
      rcases hkept.linked p hp with hl | hl | hl
      · exact h.linked p hl
      · exact absurd (Option.some.inj hl).symm hpi
      · exact h.inv.marked.dead hl
  · rw [hnone] at hp
    nomatch hp
  · rw [Function.update_of_ne (hne hp)]
    exact h.held hp
  · obtain ⟨x, hx⟩ := h.live (h.held hp)
    exact hkept.content p (h.unlinked (h.held hp)) (fun he => hne hp (Option.some.inj he).symm) (by simp [hx])

/-- The item the connection holds is released, if it holds one. -/
theorem released (hrun : release s c.item = .ok s') (hnone : c'.item = none) (hstate : c'.state ≠ .nread) :
    Leaves hash others s s' c' := by
  cases hp : c.item with
  | none =>
    rw [hp] at hrun
    obtain rfl := Except.ok.inj hrun
    exact ⟨⟨l, m, refs, h.withConn (hnone.trans hp.symm) (.of_state hstate)⟩, fun _ => rfl⟩
  | some p =>
    have hone := (h.own hp).1
    obtain ⟨s₁, hs₁, hinv, hfree⟩ := doItemRemove_spec (p := p) h.inv (by omega)
    rw [hp] at hrun
    obtain rfl := Except.ok.inj (hs₁.symm.trans hrun)
    rw [hone] at hinv
    exact h.dropped hp hinv (h.maps.freedIf hfree fun hc => hc.2) ((Kept.refl _ s l).trans_remove hfree) hnone
      (.of_state hstate)

/-- The connection is given a new item. -/
theorem granted {nbytes : Nat} (hp : s.heap.get p = none) (hn : 2 ≤ nbytes) (key : List UInt8) (flags : Int)
    (found : Nat → UInt8) (hitem : c'.item = some p) (hmissing : c'.ritem + c'.rlbytes = nbytes) :
    Leaves hash others s { s with heap := s.heap.alloc p (newItem key flags 0 nbytes found) } c' := by
  have hfresh := h.fresh hp
  have hother : ∀ {q}, refs q = 1 → q ≠ p := by
    rintro q hq rfl
    exact hfresh hq
  have hlp : ∀ q ∈ l, q ≠ p := by
    rintro q hq rfl
    exact h.inv.hashed.live q hq hp
  refine ⟨⟨l, m, _, ⟨newItem_inv h.inv hp hn key flags found, h.maps.congr_on fun q hq => ?_, fun q => ?_,
    fun q hq => ?_⟩, fun {q} hq => ?_, fun hq => ?_, ⟨fun {q} _ hq => ?_, fun _ hno => ?_⟩⟩, fun hq => ?_⟩
  · rw [Heap.get_alloc_of_ne (hlp q hq)]
  · by_cases hqp : q = p
    · rw [hqp, Function.update_self]
    · rw [Function.update_of_ne hqp]
      exact h.le_one q
  · rw [Function.update_of_ne (hlp q hq)]
    exact h.linked q hq
  · obtain rfl : q = p := Option.some.inj (hq.symm.trans hitem)
    refine ⟨Function.update_self .., fun ho => ?_⟩
    exact hfresh (h.held ho)
  · rw [Function.update_of_ne (hother (h.held hq))]
    exact h.held hq
  · obtain rfl : q = p := Option.some.inj (hq.symm.trans hitem)
    exact ⟨_, Heap.get_alloc_self .., by rw [newItem_nbytes, hmissing]⟩
  · rw [hitem] at hno
    nomatch hno
  · rw [Heap.get_alloc_of_ne (hother (h.held hq))]

/-- Bytes come for the data of the connection's item. -/
theorem written {data : List UInt8} {ofs : Nat} {bs : List UInt8} (hit : c.item = some it) (hx : s.heap.get it = some x)
    (hdata : memcpyData x.data ofs bs = .ok data) (hitem : c'.item = c.item)
    (hmissing : c'.ritem + c'.rlbytes = c.ritem + c.rlbytes) (hstate : c'.state = c.state) :
    Leaves hash others s (s.modify it fun y => { y with data }) c' := by
  have hone := (h.own hit).1
  have hil := h.unlinked hone
  have hlen : data.length = x.nbytes := memcpyData_length hdata
  have hother : ∀ {q}, q ≠ it →
      ((s.modify it fun y => { y with data }).heap.get q).map Item.content = (s.heap.get q).map Item.content := by
    intro q hq
    rw [Store.get_modify]
    simp [hq]
  have hne : ∀ {p}, others p → p ≠ it := by
    rintro p hp rfl
    exact (h.own hit).2 hp
  refine ⟨⟨l, m, refs, ⟨?_, h.maps.congr_on fun q hq => hother ?_, h.le_one, h.linked⟩, hitem ▸ h.own, h.held,
    ⟨fun {q} hn hq => ?_, fun hn hno => ?_⟩⟩, fun hq => hother (hne hq)⟩
  · refine modify_unlinked h.inv hil (fun _ => ⟨rfl, rfl, rfl, rfl⟩) fun y _ => ?_
    rw [Item.nbytes, hlen]
    exact (h.inv.marked.items hx).sized
  · rintro rfl
    exact hil hq
  · obtain rfl : q = it := Option.some.inj ((hq.symm.trans hitem).trans hit)
    obtain ⟨y, hy, hsum⟩ := h.fed.missing (hstate ▸ hn) hit
    obtain rfl : y = x := Option.some.inj (hy.symm.trans hx)
    refine ⟨{ y with data }, ?_, ?_⟩
    · rw [Store.get_modify, hx, Option.map_some, if_pos rfl]
    · rw [hmissing, hsum, ← hlen]
      rfl
  · rw [hitem, hit] at hno
    cases hno

/-! ## A turn -/

/-- A command that was processed. -/
theorem processed (hstate : c.state = .read) (hstock : c = v.c) (hs : s = v.store)
    (hmem : ∀ p, env.mem = some p → s.heap.get p = none) (hp : Processed hash v tokens env v') :
    Leaves hash others s v'.store v'.c := by
  subst hstock hs
  have hans : ∀ {reply c'}, Answered v.c reply c' → c'.item = v.c.item ∧ c'.state ≠ .nread := by
    intro reply c' hans
    refine ⟨hans.item_eq, ?_⟩
    rw [hans.state_eq, hstate]
    nofun
  cases hp with
  | said ha hstore =>
    obtain ⟨hitem, hn⟩ := hans ha
    rw [hstore]
    exact ⟨⟨l, m, refs, h.withConn hitem (.of_state hn)⟩, fun _ => rfl⟩
  | got hget ha =>
    obtain ⟨hitem, hn⟩ := hans ha
    obtain ⟨s', hs', hinv, hmaps, hkept⟩ := processGetCommand_spec h.inv h.maps h.linked (tokens.getD 1 []) env.now
    obtain ⟨rfl, -⟩ := Prod.mk.inj (Except.ok.inj (hs'.symm.trans hget))
    exact (h.withConn hitem (.of_state hn)).kept hinv hmaps hkept
  | @refused comm _ ha hfail =>
    obtain ⟨hitem, hn⟩ := hans ha
    obtain ⟨s', l', hs', hinv, hmaps, hkept⟩ := failedAlloc_spec h.inv h.maps h.linked (tokens.getD 1 []) comm env.now
    obtain rfl := Except.ok.inj (hs'.symm.trans hfail)
    exact (h.withConn hitem (.of_state hn)).kept hinv hmaps hkept
  | await hacc =>
    obtain ⟨p, hp, hlen, hstore, hc⟩ := hacc.alloc
    rw [hstore]
    refine h.granted (hmem p hp) (Nat.le_add_left 2 _) _ _ _ ?_ ?_
    · rw [hc]
    · rw [hc]
      exact Nat.zero_add _

end Holds

/-- A turn leaves to the other connections what they hold. -/
theorem Turned.leaves {next : Next} (ht : Turned hash v env v' next) (h : Holds hash v.store l m refs others v.c)
    (hmem : ∀ p, env.mem = some p → v.store.heap.get p = none) : Leaves hash others v.store v'.store v'.c := by
  cases ht with
  | reply hstate hline hrun hans =>
    obtain ⟨⟨l', m', refs', h'⟩, hspared⟩ := h.processed hstate rfl rfl hmem (processCommand_processed hrun)
    refine ⟨⟨l', m', refs', h'.withConn rfl (.of_state fun hn => ?_)⟩, hspared⟩
    nomatch (hans.state_eq.trans hstate).symm.trans hn
  | await hstate hline hrun hacc hnext =>
    obtain ⟨⟨l', m', refs', h'⟩, hspared⟩ := h.processed hstate rfl rfl hmem (processCommand_processed hrun)
    exact ⟨⟨l', m', refs', h'.withConn rfl ⟨h'.fed.missing, h'.fed.none_missing⟩⟩, hspared⟩
  | network hstate hline hstore hnet =>
    rw [hstore]
    exact ⟨⟨l, m, refs, h.withConn hnet.item_eq (.of_state (hnet.not_waiting (by rw [hstate]; nofun)))⟩, fun _ => rfl⟩
  | @complete it reply v₁ hstate hrl hit hrun hans =>
    obtain ⟨hone, -⟩ := h.own hit
    obtain ⟨x, hx⟩ := h.live hone
    have hcases := h.completeNread_cases hx hone hmem v.c.itemComm
    split at hcases
    · obtain ⟨r, hr, -, l', hinv, hmaps, hkept⟩ := hcases
      obtain rfl := Except.ok.inj (hr.symm.trans hrun)
      refine h.dropped hit hinv hmaps hkept rfl ⟨fun _ hno => (nomatch hno), fun _ _ => ?_⟩
      dsimp only
      rw [hans.conn]
      exact hrl
    · nomatch hcases.symm.trans hrun
  | @copy it x data hstate hrl hne hit hx hdata =>
    refine h.written hit hx hdata rfl ?_ rfl
    have hle : (v.c.ib.bytes.take v.c.rlbytes).length ≤ v.c.rlbytes := by
      rw [List.length_take]
      exact Nat.min_le_left ..
    dsimp only
    omega
  | @recvd _ got sock' hstate hrl hemp hne hlen hs hroom hstore hc =>
    rw [hstore]
    refine ⟨⟨l, m, refs, h.withConn (by rw [hc]) ⟨fun {p} _ hp => ?_, fun _ hno => ?_⟩⟩, fun _ => rfl⟩
    · rw [hc] at hp ⊢
      obtain ⟨x, hx, hsum⟩ := h.fed.missing hstate hp
      refine ⟨x, hx, ?_⟩
      dsimp only
      omega
    · rw [hc] at hno
      exact absurd (h.fed.none_missing hstate hno) hrl
  | failed hstate hrl hemp hs hstore hc =>
    rw [hstore]
    refine ⟨⟨l, m, refs, h.withConn (by rw [hc]) (.of_state ?_)⟩, fun _ => rfl⟩
    rw [hc]
    nofun
  | closed hstate hrun hc =>
    refine h.released hrun (by rw [hc]) ?_
    rw [hc]
    dsimp only
    rw [hstate]
    nofun
  | spin hstate => exact ⟨⟨l, m, refs, h⟩, fun _ => rfl⟩

/-- What the world has of the connection after a callback: itself, or nothing that holds an item. -/
def Remains (next : Next) (c c' : Conn) : Prop := c' = c ∨ next = .closed ∧ c'.item = none

/-- `mc_write` leaves to the other connections what they hold. -/
theorem mcWrite_leaves {n : Nat} {next : Next} (hrun : v.mcWrite n = .ok (v', next))
    (h : Holds hash v.store l m refs others v.c) :
    ∃ c', Remains next v'.c c' ∧ Leaves hash others v.store v'.store c' := by
  cases mcWrite_cases hrun with
  | drained => exact ⟨_, .inl rfl, ⟨l, m, refs, h.withConn rfl (.of_state nofun)⟩, fun _ => rfl⟩
  | sent => exact ⟨_, .inl rfl, ⟨l, m, refs, h.withConn rfl ⟨h.fed.missing, h.fed.none_missing⟩⟩, fun _ => rfl⟩
  | closed hs hc => exact ⟨{ v'.c with state := .closing }, .inr ⟨rfl, by rw [hc]⟩, h.released hs (by rw [hc]) nofun⟩

/-! ## The world -/

/-- The items that connections other than `fd` hold. -/
def World.heldBeside (w : World) (fd : Fd) (p : Ptr) : Prop := ∃ fd' c, fd' ≠ fd ∧ w.conn fd' = some c ∧ c.item = some p

/-- The invariant of the world. -/
structure World.Sound (hash : List UInt8 → UInt32) (w : World) (l : List Ptr) (m : List UInt8 → Option Value)
    (refs : Ptr → Nat) :
    Prop extends Stocked hash w.store l m refs where
  own : ∀ {fd c p}, w.conn fd = some c → c.item = some p → refs p = 1 ∧ ¬w.heldBeside fd p
  fed : ∀ {fd c}, w.conn fd = some c → c.Fed w.store

variable {w w' : World} {fd : Fd}

theorem isFree_world {mem : Option Ptr} : w.isFree mem = true ↔ ∀ p, mem = some p → w.store.heap.get p = none := by
  cases mem with
  | none => exact iff_of_true rfl nofun
  | some q => simp [World.isFree]

namespace World.Sound

variable (h : w.Sound hash l m refs)

include h

/-- What a callback of a connection finds. -/
theorem holds (hc : w.conn fd = some c) : Holds hash w.store l m refs (w.heldBeside fd) c where
  toStocked := h.toStocked
  own := h.own hc
  held := by
    rintro p ⟨fd', c', -, hc', hp⟩
    exact (h.own hc' hp).1
  fed := h.fed hc

/-- A callback keeps the invariant. -/
theorem back {next : Next} (hc : w.conn fd = some c)
    (hl : ∃ c', Remains next v'.c c' ∧ Leaves hash (w.heldBeside fd) w.store v'.store c') :
    ∃ l m refs, (w.back fd (.ok (v', next))).Sound hash l m refs := by
  obtain ⟨c', hrem, ⟨l', m', refs', h'⟩, hspared⟩ := hl
  -- a connection of the new world is the one of the callback or one of the old world
  have hconn : ∀ {fd₁ c₁}, (w.back fd (.ok (v', next))).conn fd₁ = some c₁ →
      fd₁ = fd ∧ c₁ = c' ∨ fd₁ ≠ fd ∧ w.conn fd₁ = some c₁ := by
    intro fd₁ c₁ h₁
    dsimp only [World.back] at h₁
    by_cases he : fd₁ = fd
    · rw [he, Function.update_self] at h₁
      rcases hrem with rfl | ⟨rfl, -⟩
      · split at h₁
        · nomatch h₁
        · exact .inl ⟨he, (Option.some.inj h₁).symm⟩
      · nomatch h₁
    · rw [Function.update_of_ne he] at h₁
      exact .inr ⟨he, h₁⟩
  have hspared₁ : ∀ {fd₁ c₁ p}, fd₁ ≠ fd → w.conn fd₁ = some c₁ → c₁.item = some p → w.heldBeside fd p :=
    fun hne h₁ hp => ⟨_, _, hne, h₁, hp⟩
  refine ⟨l', m', refs', h'.toStocked, fun {fd₁ c₁ p} h₁ hp => ?_, fun {fd₁ c₁} h₁ => ?_⟩
  · rcases hconn h₁ with ⟨rfl, rfl⟩ | ⟨hne, hw⟩
    · obtain ⟨hone, hno⟩ := h'.own hp
      refine ⟨hone, ?_⟩
      rintro ⟨fd₂, c₂, hne, h₂, hp₂⟩
      rcases hconn h₂ with ⟨he, -⟩ | ⟨-, hw₂⟩
      · exact hne he
      · exact hno (hspared₁ hne hw₂ hp₂)
    · refine ⟨h'.held (hspared₁ hne hw hp), ?_⟩
      rintro ⟨fd₂, c₂, hne₂, h₂, hp₂⟩
      rcases hconn h₂ with ⟨rfl, rfl⟩ | ⟨hne', hw₂⟩
      · exact (h'.own hp₂).2 (hspared₁ hne hw hp)
      · exact (h.own hw hp).2 ⟨fd₂, c₂, hne₂, hw₂, hp₂⟩
  · rcases hconn h₁ with ⟨rfl, rfl⟩ | ⟨hne, hw⟩
    · exact h'.fed
    · exact (h.fed hw).congr fun p hp => hspared (hspared₁ hne hw hp)

/-- Another table of connections with the same items. -/
theorem accept (sock : List Recv) {counters : Counters} :
    World.Sound hash { w with conn := Function.update w.conn fd (some (.init sock)), counters } l m refs := by
  have hconn : ∀ {fd₁ c₁}, Function.update w.conn fd (some (.init sock)) fd₁ = some c₁ →
      c₁.item = none ∧ c₁.state = .read ∨ w.conn fd₁ = some c₁ := by
    intro fd₁ c₁ h₁
    by_cases he : fd₁ = fd
    · rw [he, Function.update_self, Option.some.injEq] at h₁
      exact .inl (h₁ ▸ ⟨rfl, rfl⟩)
    · rw [Function.update_of_ne he] at h₁
      exact .inr h₁
  refine ⟨h.toStocked, fun {fd₁ c₁ p} h₁ hp => ?_, fun {fd₁ c₁} h₁ => ?_⟩
  · rcases hconn h₁ with ⟨hno, -⟩ | hw
    · rw [hno] at hp
      nomatch hp
    · refine ⟨(h.own hw hp).1, ?_⟩
      rintro ⟨fd₂, c₂, hne₂, h₂, hp₂⟩
      rcases hconn h₂ with ⟨hno, -⟩ | hw₂
      · rw [hno] at hp₂
        nomatch hp₂
      · exact (h.own hw hp).2 ⟨fd₂, c₂, hne₂, hw₂, hp₂⟩
  · rcases hconn h₁ with ⟨-, hread⟩ | hw
    · exact .of_state (by rw [hread]; nofun)
    · exact h.fed hw

end World.Sound

/-! ## Runs -/

/-- What a step does, where the process goes on. -/
inductive Stepped (hash : List UInt8 → UInt32) (w : World) : Call → World → Prop where
  | accept {fd : Fd} (sock : List Recv) (hrun : w.running = none) (hfd : w.conn fd = none) :
      Stepped hash w (.accept fd sock)
        { w with
          conn := Function.update w.conn fd (some (.init sock))
          counters :=
            { w.counters with
              currConns := w.counters.currConns + 1, totalConns := w.counters.totalConns + 1 } }
  | read {fd : Fd} {c : Conn} (hrun : w.running = none) (hc : w.conn fd = some c) : Stepped hash w (.read fd)
    { w with running := some fd }
  | turn {fd : Fd} {c : Conn} {env : Env} (hrun : w.running = some fd) (hc : w.conn fd = some c)
      (hmem : ∀ p, env.mem = some p → w.store.heap.get p = none) :
      Stepped hash w (.turn env) (w.back fd ((w.view c).turn hash env))
  | write {fd : Fd} {c : Conn} {n : Nat} (hrun : w.running = none) (hc : w.conn fd = some c)
      (hn : n ≤ c.ob.bytes.length) :
      Stepped hash w (.write fd n) (w.back fd ((w.view c).mcWrite n))

theorem step_stepped {e : Call} (h : w.step hash e = some w') : w.ended = none ∧ Stepped hash w e w' := by
  unfold World.step at h
  rw [Option.ite_none_right_eq_some] at h
  obtain ⟨hended, h⟩ := h
  refine ⟨hended, ?_⟩
  split at h
  · next fd sock hrun =>
    obtain ⟨hfd, h⟩ := Option.ite_none_right_eq_some.mp h
    exact Option.some.inj h ▸ .accept sock hrun hfd
  · next fd hrun =>
    obtain ⟨c, hc, rfl⟩ := Option.map_eq_some_iff.mp h
    exact .read hrun hc
  · next fd n hrun =>
    obtain ⟨c, hc, h⟩ := Option.bind_eq_some_iff.mp h
    obtain ⟨hn, h⟩ := Option.ite_none_right_eq_some.mp h
    exact Option.some.inj h ▸ .write hrun hc hn
  · next env fd hrun =>
    obtain ⟨c, hc, h⟩ := Option.bind_eq_some_iff.mp h
    obtain ⟨hfree, h⟩ := Option.ite_none_right_eq_some.mp h
    exact Option.some.inj h ▸ .turn hrun hc (isFree_world.mp hfree)
  · nomatch h

/-- The invariant of the world holds whether the process goes on or has ended. -/
theorem World.Sound.ended (h : w.Sound hash l m refs) (o : Option End) :
    World.Sound hash { w with ended := o } l m refs :=
  ⟨h.toStocked, h.own, h.fed⟩

theorem sound_step {e : Call} (h : ∃ l m refs, w.Sound hash l m refs) (hs : w.step hash e = some w') :
    ∃ l m refs, w'.Sound hash l m refs := by
  obtain ⟨l, m, refs, h⟩ := h
  obtain ⟨-, hs⟩ := step_stepped hs
  cases hs with
  | accept sock => exact ⟨l, m, refs, h.accept sock⟩
  | read hrun hc => exact ⟨l, m, refs, h.toStocked, h.own, h.fed⟩
  | @turn fd c env hrun hc hmem =>
    cases hturn : (w.view c).turn hash env with
    | error e => exact ⟨l, m, refs, h.ended _⟩
    | ok r => exact h.back hc ⟨r.1.c, .inl rfl, (turn_cases hturn).leaves (h.holds hc) hmem⟩
  | @write fd c n hrun hc hn =>
    cases hwrite : (w.view c).mcWrite n with
    | error e => exact ⟨l, m, refs, h.ended _⟩
    | ok r => exact h.back hc (mcWrite_leaves hwrite (h.holds hc))

/-- The invariant of the world holds in every state of every run. -/
theorem sound_always (hash : List UInt8 → UInt32) (pid : UInt32) (es : List Call) :
    AllStates (World.step hash) (fun w => ∃ l m refs, w.Sound hash l m refs) (.init pid) es := by
  refine .of_step ⟨[], fun _ => none, holders fun _ => none, ?_⟩ (fun _ _ _ h hs => sound_step h hs) es
  have hinit := @consistent_init hash
  exact ⟨⟨hinit.inv, hinit.maps, fun p => holders_le_one hinit.single p, nofun⟩, nofun, nofun⟩

/-! ## Waiting for data -/

/-- Every connection in `conn_nread` has an item, of whose data what is missing is what `ritem` has left to go. -/
def World.Receiving (w : World) : Prop :=
  ∀ fd c, w.conn fd = some c → c.state = .nread →
    ∃ it x, c.item = some it ∧ w.store.heap.get it = some x ∧ c.rlbytes ≤ x.nbytes ∧ c.ritem = x.nbytes - c.rlbytes

/-- The connection for which `complete_nread` runs. -/
def World.completing (w : World) : Call → Option Conn
  | .turn _ => (w.running.bind w.conn).filter fun c => c.state = .nread ∧ c.rlbytes = 0
  | .accept _ _ | .read _ | .write _ _ => none

/-- `mc_read` is called for a connection of which reading is enabled, and for no error. -/
def World.readsEnabled (w : World) : Call → Bool
  | .read fd => (w.conn fd).all fun c => c.rd
  | .accept _ _ | .turn _ | .write _ _ => true

theorem completing_turn {c : Conn} (hrun : w.running = some fd) (hc : w.conn fd = some c) (hstate : c.state = .nread)
    (hrl : c.rlbytes = 0) : w.completing (.turn env) = some c := by
  simp [World.completing, hrun, hc, hstate, hrl]

theorem Accepted.item {comm : Comm} (h : Accepted v tokens comm env v') : v'.c.item ≠ none := by
  obtain ⟨it, -, -, -, hc⟩ := h.alloc
  rw [hc]
  nofun

theorem Accepted.state {comm : Comm} (h : Accepted v tokens comm env v') : v'.c.state = .nread := by
  obtain ⟨it, -, -, -, hc⟩ := h.alloc
  rw [hc]

/-- A connection that waits for data without an item has just completed its update. -/
theorem Turned.waiting {next : Next} (h : Turned hash v env v' next) (hstate : v'.c.state = .nread)
    (hnone : v'.c.item = none) :
    v.c.state = .nread ∧ (v.c.item = none ∨ v.c.rlbytes = 0 ∧ v'.c.rd = false ∧ next = .stop) := by
  cases h with
  | reply hst hline hrun hans =>
    nomatch (hans.state_eq.trans hst).symm.trans hstate
  | await hst hline hrun hacc => exact absurd hnone hacc.item
  | network hst hline hstore hnet => exact absurd hstate (hnet.not_waiting (by rw [hst]; nofun))
  | complete hst hrl hit hrun hans => exact ⟨hst, .inr ⟨hrl, rfl, rfl⟩⟩
  | copy hst hrl hne hit hx hdata => exact ⟨hst, .inl hnone⟩
  | recvd hst hrl hemp hne hlen hs hroom hstore hc =>
    rw [hc] at hnone
    exact ⟨hst, .inl hnone⟩
  | failed hst hrl hemp hs hstore hc =>
    rw [hc] at hstate
    nomatch hstate
  | closed hst hrun hc =>
    rw [hc] at hstate
    nomatch hst.symm.trans hstate
  | spin hst => exact absurd hstate hst.2.1

theorem mcWrite_waiting {n : Nat} {next : Next} (h : v.mcWrite n = .ok (v', next)) (hnext : next ≠ .closed)
    (hstate : v'.c.state = .nread) : v'.c = { v.c with ob := v.c.ob.advance n } ∧ next = .stop := by
  cases mcWrite_cases h with
  | drained => nomatch hstate
  | sent => exact ⟨rfl, rfl⟩
  | closed => exact absurd rfl hnext

/-- The connections after a callback that the process survives. -/
theorem back_conn {r : Except End (View × Next)} {fd₁ : Fd} {c₁ : Conn} (h : (w.back fd r).conn fd₁ = some c₁) :
    (∃ v' next, r = .ok (v', next) ∧ next ≠ .closed ∧ fd₁ = fd ∧ c₁ = v'.c) ∨
      w.conn fd₁ = some c₁ ∧ ((∃ e, r = .error e) ∨ fd₁ ≠ fd) := by
  cases r with
  | error e => exact .inr ⟨h, .inl ⟨e, rfl⟩⟩
  | ok r =>
    obtain ⟨v', next⟩ := r
    dsimp only [World.back] at h
    by_cases he : fd₁ = fd
    · rw [he, Function.update_self, Option.ite_none_left_eq_some] at h
      exact .inl ⟨v', next, rfl, h.1, he, (Option.some.inj h.2).symm⟩
    · rw [Function.update_of_ne he] at h
      exact .inr ⟨h, .inr he⟩

/-- No connection waits for data without an item. -/
def World.WithItems (w : World) : Prop := ∀ fd c, w.conn fd = some c → c.state = .nread → c.item ≠ none

theorem withItems_step {e : Call} (h : w.WithItems) (hs : w.step hash e = some w') (hno : w.completing e = none) :
    w'.WithItems := by
  obtain ⟨-, hs⟩ := step_stepped hs
  intro fd₁ c₁ h₁ hstate hnone
  cases hs with
  | @accept fd sock hrun hfd =>
    dsimp only at h₁
    by_cases he : fd₁ = fd
    · rw [he, Function.update_self, Option.some.injEq] at h₁
      rw [← h₁] at hstate
      nomatch hstate
    · rw [Function.update_of_ne he] at h₁
      exact h _ _ h₁ hstate hnone
  | read hrun hc => exact h _ _ h₁ hstate hnone
  | @turn fd c env hrun hc hmem =>
    rcases back_conn h₁ with ⟨v', next, hturn, -, rfl, rfl⟩ | ⟨hw, -⟩
    · obtain ⟨hst, hitem | ⟨hrl, -, -⟩⟩ := (turn_cases hturn).waiting hstate hnone
      · exact h _ _ hc hst hitem
      · rw [completing_turn hrun hc hst hrl] at hno
        nomatch hno
    · exact h _ _ hw hstate hnone
  | @write fd c n hrun hc hn =>
    rcases back_conn h₁ with ⟨v', next, hwrite, hnext, rfl, rfl⟩ | ⟨hw, -⟩
    · obtain ⟨hcc, -⟩ := mcWrite_waiting hwrite hnext hstate
      rw [hcc] at hstate hnone
      exact h _ _ hc hstate hnone
    · exact h _ _ hw hstate hnone

/-- A connection with an answer pending, for one that is told by `Q`: it comes to be so in a turn that stops the loop
and disables reading, and `mc_write` leaves that as it is. -/
structure Awaits (hash : List UInt8 → UInt32) (Q : Conn → Prop) : Prop where
  init : ∀ sock, ¬Q (.init sock)
  turn : ∀ {v env v' next}, Turned hash v env v' next → Q v'.c → Q v.c ∨ v'.c.rd = false ∧ next = .stop
  write : ∀ {v v' : View} {n next}, v.mcWrite n = .ok (v', next) → next ≠ .closed → Q v'.c →
    Q v.c ∧ v'.c.rd = v.c.rd ∧ next = .stop

/-- No connection told by `Q` is read, and its `mc_read` does not run. -/
def World.Unread (Q : Conn → Prop) (w : World) : Prop :=
  ∀ fd c, w.conn fd = some c → Q c → c.rd = false ∧ w.running ≠ some fd

theorem back_running {r : Except End (View × Next)} {fd₁ : Fd} (h : (w.back fd r).running = some fd₁) :
    w.running = some fd₁ ∨ fd₁ = fd := by
  cases r with
  | error e => exact .inl h
  | ok r =>
    dsimp only [World.back] at h
    split at h
    · exact .inr (Option.some.inj h).symm
    · nomatch h

theorem unread_step {Q : Conn → Prop} {e : Call} (hQ : Awaits hash Q) (h : w.Unread Q) (hs : w.step hash e = some w')
    (hr : w.readsEnabled e = true) : w'.Unread Q := by
  obtain ⟨-, hs⟩ := step_stepped hs
  intro fd₁ c₁ h₁ hq
  cases hs with
  | @accept fd sock hrun hfd =>
    dsimp only at h₁
    by_cases he : fd₁ = fd
    · rw [he, Function.update_self, Option.some.injEq] at h₁
      exact absurd (h₁ ▸ hq) (hQ.init sock)
    · rw [Function.update_of_ne he] at h₁
      exact h fd₁ c₁ h₁ hq
  | @read fd c hrun hc =>
    obtain ⟨hrd, -⟩ := h fd₁ c₁ h₁ hq
    refine ⟨hrd, ?_⟩
    intro hfd
    obtain rfl : fd = fd₁ := Option.some.inj hfd
    rw [World.readsEnabled, h₁, Option.all_some, hrd] at hr
    nomatch hr
  | @turn fd c env hrun hc hmem =>
    rcases back_conn h₁ with ⟨v', next, hturn, -, rfl, rfl⟩ | ⟨hw, hother⟩
    · rcases hQ.turn (turn_cases hturn) hq with hq | ⟨hrd, rfl⟩
      · exact absurd hrun (h _ _ hc hq).2
      · refine ⟨hrd, ?_⟩
        rw [hturn]
        nofun
    · refine ⟨(h _ _ hw hq).1, fun hfd => ?_⟩
      rcases back_running hfd with hfd | rfl
      · exact (h _ _ hw hq).2 hfd
      · exact (h _ _ hw hq).2 hrun
  | @write fd c n hrun hc hn =>
    rcases back_conn h₁ with ⟨v', next, hwrite, hnext, rfl, rfl⟩ | ⟨hw, ⟨e, he⟩ | hne⟩
    · obtain ⟨hq, hrd, rfl⟩ := hQ.write hwrite hnext hq
      refine ⟨hrd.trans (h _ _ hc hq).1, ?_⟩
      rw [hwrite]
      nofun
    · rw [he]
      exact h _ _ hw hq
    · refine ⟨(h _ _ hw hq).1, fun hfd => ?_⟩
      rcases back_running hfd with hfd | hfd
      · exact (h _ _ hw hq).2 hfd
      · exact hne hfd

/-- An update was completed and is not yet answered. -/
theorem completed_awaits : Awaits hash fun c => c.state = .nread ∧ c.item = none where
  init := nofun
  turn := by
    rintro v env v' next ht ⟨hstate, hnone⟩
    obtain ⟨hst, hitem | ⟨-, hrd, hnext⟩⟩ := ht.waiting hstate hnone
    · exact .inl ⟨hst, hitem⟩
    · exact .inr ⟨hrd, hnext⟩
  write := by
    rintro v v' n next hwrite hnext ⟨hstate, hnone⟩
    obtain ⟨hc, hstop⟩ := mcWrite_waiting hwrite hnext hstate
    rw [hc] at hstate hnone ⊢
    exact ⟨⟨hstate, hnone⟩, rfl, hstop⟩

theorem World.WithItems.receiving (h : w.WithItems) (hsound : w.Sound hash l m refs) : w.Receiving := by
  intro fd c hc hstate
  obtain ⟨it, hit⟩ := Option.ne_none_iff_exists'.mp (h _ _ hc hstate)
  obtain ⟨x, hx, hsum⟩ := (hsound.fed hc).missing hstate hit
  exact ⟨it, x, hit, hx, by omega, by omega⟩

/-- In a run in which no update is completed every connection that waits for data has its item; and in a run in which
`mc_read` is called only where reading is enabled no update is completed without an item. -/
theorem receiving_until_completion (hash : List UInt8 → UInt32) (pid : UInt32) (es : List Call) :
    (AllSteps (World.step hash) (fun w e _ => w.completing e = none) (.init pid) es →
      AllStates (World.step hash) World.Receiving (.init pid) es) ∧
    (AllSteps (World.step hash) (fun w e _ => w.readsEnabled e) (.init pid) es →
      AllSteps (World.step hash) (fun w e _ => ∀ c, w.completing e = some c → c.item ≠ none) (.init pid) es) := by
  constructor
  · intro hno
    have hall := AllStates.of_invariant (I := fun w => (∃ l m refs, w.Sound hash l m refs) ∧ w.WithItems)
      ⟨(sound_always hash pid []).head, nofun⟩ (fun _ _ _ h hs hc => ⟨sound_step h.1 hs, withItems_step h.2 hs hc⟩) hno
    refine hall.mono ?_
    rintro w ⟨⟨l, m, refs, hsound⟩, hwith⟩
    exact hwith.receiving hsound
  · intro hreads
    refine .of_invariant (I := World.Unread fun c => c.state = .nread ∧ c.item = none) nofun
      (fun _ _ _ h hs hc => unread_step completed_awaits h hs hc) ?_ hreads
    rintro w (fd | fd | env | fd) w' h hs - c hc hnone
    · nomatch hc
    · nomatch hc
    · obtain ⟨hrun, hstate⟩ := Option.filter_eq_some_iff.mp hc
      obtain ⟨fd, hrun, hconn⟩ := Option.bind_eq_some_iff.mp hrun
      exact (h _ _ hconn ⟨(of_decide_eq_true hstate).1, hnone⟩).2 hrun
    · nomatch hc

/-- The environment of a turn that asks for memory at `p`. -/
def Env.at (p : Ptr) : Env where
  now := 1
  granted := true
  mem := some p
  found := fun _ => 0

/-- A client sends a part of its data and goes; another one stores its data and gets the answer. -/
theorem receiving_two_clients :
    AllStates (World.step fun _ => 0) World.Receiving (.init 1)
        [.accept 5 [.bytes (lit "set a 0 0 5\r\nab"), .eof], .read 5, .turn (.at 100), .turn (.at 100), .turn (.at 100),
          .turn (.at 100), .turn (.at 100)] ∧
      AllSteps (World.step fun _ => 0) (fun w e _ => ∀ c, w.completing e = some c → c.item ≠ none) (.init 1)
        [.accept 5 [.bytes (lit "set a 0 0 1\r\nx\r\n")], .read 5, .turn (.at 100), .turn (.at 100), .turn (.at 200),
          .turn (.at 200), .write 5 3, .write 5 5, .read 5] :=
  ⟨(receiving_until_completion _ _ _).1 (by decide +kernel), (receiving_until_completion _ _ _).2 (by decide +kernel)⟩

/-- A client sends an update and then its connection fails before the answer is sent: `mc_read` is called while the
answer is pending, and `complete_nread` runs without an item. -/
theorem answer_pending :
    ∃ w, exec (World.step fun _ => 0) (.init 1)
        [.accept 5 [.bytes (lit "set a 0 0 1\r\nx\r\n")], .read 5, .turn (.at 100), .turn (.at 100), .turn (.at 200),
          .turn (.at 200), .read 5] = some w ∧
      ¬w.Receiving ∧ (w.step (fun _ => 0) (.turn (.at 200))).map World.ended = some (some (.fault .corrupt)) := by
  refine ⟨_, rfl, ?_, by decide +kernel⟩
  intro h
  obtain ⟨it, x, hit, -⟩ := h 5 _ rfl rfl
  nomatch hit

end ZeroServ.Mc
