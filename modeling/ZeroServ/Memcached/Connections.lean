import Mathlib.Data.Set.Card
import ZeroServ.Fd
import ZeroServ.Lib.Run
import ZeroServ.Memcached.StoreItem

/-!
# The connections' updates

What the connections do to the item store, in any order: `process_update_command` allocates an item and gives it to
its connection, `complete_nread` stores it and lets it go, `process_get_command` looks one up, `conn_cleanup` lets an
item go whose data did not come. The store is `represented_of_orderly`: in every run in which a connection that
allocates holds no item yet, and one that completes an update holds one, the invariant of the store holds for the
references that the connections hold.
-/

namespace ZeroServ.Mc

open Run

/-- What `complete_nread` answers. -/
inductive Reply where
  | badDataChunk | stored | notStored
  deriving DecidableEq, Repr

/-- The end of a line. -/
def crlf : List UInt8 := [13, 10]

section operations

variable (hash : List UInt8 → UInt32)

/-- The end of `process_update_command` where there is no memory: a `set` unlinks the item that has its key. -/
def failedAlloc (s : Store) (key : List UInt8) (comm : Comm) (now : UInt32) : Except Fault Store :=
  if comm = .set then do
    match ← itemGet hash s key now with
    | (s, none) => pure s
    | (s, some it) =>
      let s ← doItemUnlink hash s it
      doItemRemove s it
  else pure s

/-- `complete_nread`: the data must end with the end of a line. -/
def completeNread (s : Store) (it : Ptr) (comm : Comm) (env : Env) : Except Fault (Store × Reply) := do
  let x ← s.deref it
  if x.data.drop (x.nbytes - 2) = crlf then
    let (s, stored) ← doStoreItem hash s it comm env
    pure (← doItemRemove s it, if stored then .stored else .notStored)
  else pure (← doItemRemove s it, .badDataChunk)

/-- `process_get_command`: what it sends of the item. -/
def processGetCommand (s : Store) (key : List UInt8) (now : UInt32) :
    Except Fault (Store × Option (List UInt8 × Value)) := do
  match ← itemGet hash s key now with
  | (s, none) => pure (s, none)
  | (s, some it) =>
    let x ← s.deref it
    pure (← doItemRemove s it, some x.content)

end operations

/-- What a client is answered. -/
inductive Answer where
  | update (r : Reply)
  | noMemory
  | item (it : Option (List UInt8 × Value))
  deriving DecidableEq, Repr

/-- The store, and what `struct conn` has of an update for each descriptor; `ended` says how the process ended. -/
structure Server where
  store : Store
  isOpen : Fd → Bool
  item : Fd → Option Ptr
  itemComm : Fd → Comm
  answers : List Answer
  ended : Option Fault

/-- The server when it has no connection yet. -/
def Server.init : Server where
  store := .init
  isOpen := fun _ => false
  item := fun _ => none
  itemComm := fun _ => .add
  answers := []
  ended := none

/-- What a connection does. `flags` is what `strtoul` read of the flags, `mem` and `found` what `zmalloc` gives the
item; `data` is what the item's data is when `complete_nread` runs. -/
inductive Event where
  | accept (fd : Fd)
  | update (fd : Fd) (key : List UInt8) (flags vlen : Nat) (comm : Comm) (mem : Option Ptr)
      (found : Nat → UInt8) (now : UInt32)
  | complete (fd : Fd) (data : List UInt8) (env : Env)
  | get (fd : Fd) (key : List UInt8) (now : UInt32)
  | close (fd : Fd)

namespace Server

variable (hash : List UInt8 → UInt32) (w : Server)

/-- Go on with the result of an operation. -/
def after {α : Type} (r : Except Fault α) (f : α → Server) : Server :=
  match r with
  | .ok a => f a
  | .error e => { w with ended := some e }

/-- The memory `zmalloc` returns is not in use. -/
def isFree (mem : Option Ptr) : Bool := mem.all fun p => (w.store.heap.get p).isNone

/-- The kernel gives a descriptor that is not open, `zmalloc` memory that is free, and an item's data has its length. -/
def allows : Event → Bool
  | .accept fd => !w.isOpen fd
  | .update fd _ _ _ _ mem _ _ => w.isOpen fd && w.isFree mem
  | .complete fd data env =>
    w.isOpen fd && w.isFree env.mem && ((w.item fd).bind w.store.heap.get).all fun x => data.length = x.nbytes
  | .get fd _ _ | .close fd => w.isOpen fd

/-- What the event does. A completion of a connection that holds no item reads through a NULL pointer. -/
def apply : Event → Server
  | .accept fd => { w with isOpen := Function.update w.isOpen fd true, item := Function.update w.item fd none }
  | .update fd key flags vlen comm mem found now =>
    match doItemAlloc w.store key (CInt.int32 flags) 0 (vlen + 2) mem found with
    | (s, some it) =>
      { w with store := s, item := Function.update w.item fd (some it), itemComm := Function.update w.itemComm fd comm }
    | (s, none) =>
      w.after (failedAlloc hash s key comm now) fun s => { w with store := s, answers := w.answers ++ [.noMemory] }
  | .complete fd data env =>
    match w.item fd with
    | some it =>
      w.after (completeNread hash (w.store.modify it fun y => { y with data }) it (w.itemComm fd) env) fun r =>
        { w with store := r.1, item := Function.update w.item fd none, answers := w.answers ++ [.update r.2] }
    | none => { w with ended := some .corrupt }
  | .get _ key now =>
    w.after (processGetCommand hash w.store key now) fun r =>
      { w with store := r.1, answers := w.answers ++ [.item r.2] }
  | .close fd =>
    w.after (release w.store (w.item fd)) fun s =>
      { w with store := s, isOpen := Function.update w.isOpen fd false, item := Function.update w.item fd none }

/-- A step of the server, until the process ends. -/
def step (e : Event) : Option Server := if w.ended = none ∧ w.allows e then some (w.apply hash e) else none

end Server

/-! ## What the operations do -/

variable {hash : List UInt8 → UInt32} {s s' : Store} {l : List Ptr} {refs : Ptr → Nat} {m : List UInt8 → Option Value}
    {p it : Ptr}
  {x : Item} {key : List UInt8}

theorem Kept.refl (o : Option Ptr) (s : Store) (l : List Ptr) : Kept o s l s l :=
  ⟨fun _ _ _ _ => rfl, fun _ hq => .inl hq⟩

/-- `item_get`: the item with the key, which has a reference more. -/
theorem itemGet_spec (h : Inv hash s l refs) (hm : Maps s l m) (hr : ∀ p ∈ l, refs p = 0) (key : List UInt8)
    (now : UInt32) :
    (m key = none ∧ itemGet hash s key now = .ok (s, none)) ∨
      ∃ p x s', m key = some (x.suffix, x.data) ∧ x.key = key ∧ p ∈ l ∧ s'.heap.get p = some x ∧
        itemGet hash s key now = .ok (s', some p) ∧ Inv hash s' l (Function.update refs p 1) ∧
        Same Item.content s s' := by
  rcases find_key s l key with ⟨p, hp, hkey⟩ | hno
  · obtain ⟨s', hs', hinv, hcont⟩ := doItemGetNotedeleted_present h hp hkey (by rw [hr p hp]; decide) now
    rw [hr p hp] at hinv
    obtain ⟨y, -, hy, rfl⟩ := deref_keyAt hkey
    obtain ⟨x, hx, hxk, hxs, hxd⟩ := hcont.item hy
    refine .inr ⟨p, x, s', ?_, hxk, hp, hx, ?_, hinv, hcont⟩
    · rw [hm.present hp hy, hxs, hxd]
    · rw [itemGet, hs']
      rfl
  · refine .inl ⟨hm.absent hno, ?_⟩
    rw [itemGet, doItemGetNotedeleted_absent h hno]
    rfl

/-- `process_get_command` sends the entry of the key. -/
theorem processGetCommand_spec (h : Inv hash s l refs) (hm : Maps s l m) (hr : ∀ p ∈ l, refs p = 0) (key : List UInt8)
    (now : UInt32) :
    ∃ s', processGetCommand hash s key now = .ok (s', (m key).map fun v => (key, v)) ∧ Inv hash s' l refs ∧
      Maps s' l m ∧
      Kept none s l s' l := by
  rcases itemGet_spec h hm hr key now with ⟨hmk, hget⟩ | ⟨p, x, s₁, hmk, hxk, hp, hx, hget, hinv₁, hcont₁⟩
  · refine ⟨s, ?_, h, hm, .refl none s l⟩
    rw [processGetCommand, hget, hmk]
    rfl
  · obtain ⟨s₂, hs₂, hinv₂, hfree₂⟩ :=
      doItemRemove_spec (p := p) hinv₁ (by rw [Function.update_self]; exact Nat.one_pos)
    have hcont₂ : Same Item.content s s₂ := by
      intro q
      rw [hfree₂ q, if_neg fun hc => hc.2.2 hp, hcont₁ q]
    refine ⟨s₂, ?_, hinv₂.congr_refs (update_refs_cancel ?_), hm.congr hcont₂, fun q _ _ _ => hcont₂ q,
      fun _ hq => .inl hq⟩
    · rw [processGetCommand, hget, ok_bind]
      dsimp only
      rw [Store.deref_ok hx, ok_bind, hs₂, hmk, Item.content, hxk]
      rfl
    · rw [Function.update_self, hr p hp]

/-- A `set` for which there is no memory unlinks and frees the item of its key. -/
theorem failedAlloc_spec (h : Inv hash s l refs) (hm : Maps s l m) (hr : ∀ p ∈ l, refs p = 0) (key : List UInt8)
    (comm : Comm) (now : UInt32) :
    ∃ s' l', failedAlloc hash s key comm now = .ok s' ∧ Inv hash s' l' refs ∧
      Maps s' l' (if comm = .set then Function.update m key none else m) ∧ Kept none s l s' l' := by
  by_cases hc : comm = .set
  · rw [failedAlloc, if_pos hc, if_pos hc]
    rcases itemGet_spec h hm hr key now with ⟨hmk, hget⟩ | ⟨p, x, s₁, hmk, hxk, hp, hx, hget, hinv₁, hcont₁⟩
    · refine ⟨s, l, ?_, h, ?_, .refl none s l⟩
      · rw [hget]
        rfl
      · rwa [← hmk, Function.update_eq_self]
    · obtain ⟨a, b, rfl⟩ := List.append_of_mem hp
      obtain ⟨s₂, hs₂, hinv₂, hfree₂⟩ := doItemUnlink_spec hinv₁
      obtain ⟨s₃, hs₃, hinv₃, hfree₃⟩ :=
        doItemRemove_spec (p := p) hinv₂ (by rw [Function.update_self]; exact Nat.one_pos)
      have hkey₁ : s₁.keyAt p = some key := by
        rw [Store.keyAt, hx, ← hxk]
        rfl
      have hother : ∀ q, q ≠ p → (s₃.heap.get q).map Item.content = (s₁.heap.get q).map Item.content := by
        intro q hq
        rw [hfree₃ q, if_neg fun hc => hq hc.1, hfree₂ q, if_neg fun hc => hq hc.1]
      have hpab := h.hashed.not_mem
      refine ⟨s₃, a ++ b, ?_, hinv₃.congr_refs (update_refs_cancel ?_), ?_, fun q hq _ _ => ?_,
        fun q hq => .inl (mem_middle hq)⟩
      · rw [hget, ok_bind]
        dsimp only
        rw [hs₂, ok_bind, hs₃]
      · rw [Function.update_self, hr p hp]
      · have herase := (hm.congr hcont₁).erase hkey₁ fun q hq => hinv₁.hashed.key_ne hkey₁ hq
        exact herase.congr_on fun q hq => hother q fun he => hpab (he ▸ hq)
      · rw [hother q fun he => hq (he ▸ hp), hcont₁ q]
  · rw [failedAlloc, if_neg hc, if_neg hc]
    exact ⟨s, l, rfl, h, hm, .refl none s l⟩

/-- What a completed update leaves: its answer, the map, and the connection's item released. -/
def Completed (hash : List UInt8 → UInt32) (s : Store) (l : List Ptr) (refs : Ptr → Nat) (it : Ptr)
    (m' : List UInt8 → Option Value) (reply : Reply) (r : Store × Reply) : Prop :=
  r.2 = reply ∧ ∃ l', Inv hash r.1 l' (Function.update refs it 0) ∧ Maps r.1 l' m' ∧ Kept (some it) s l r.1 l'

theorem Kept.trans_remove {l' : List Ptr} {s₁ : Store} {c : Prop} [Decidable c] (h : Kept (some it) s l s₁ l')
    (hf : FreedIf c it s₁ s') : Kept (some it) s l s' l' where
  content q hq hne hlive := by
    have hqi : q ≠ it := fun he => hne (congrArg some he.symm)
    rw [hf q, if_neg fun hc => hqi hc.1, h.content q hq hne hlive]
  linked := h.linked

/-- `complete_nread` of data without the end of a line. -/
theorem completeNread_bad (h : Inv hash s l refs) (hm : Maps s l m) (hx : s.heap.get it = some x) (hone : refs it = 1)
    (hbad : x.data.drop (x.nbytes - 2) ≠ crlf) (comm : Comm) (env : Env) :
    ∃ r, completeNread hash s it comm env = .ok r ∧ Completed hash s l refs it m .badDataChunk r := by
  obtain ⟨s', hs', hinv, hfree⟩ := doItemRemove_spec (p := it) h (by rw [hone]; exact Nat.one_pos)
  rw [hone] at hinv
  refine ⟨(s', .badDataChunk), ?_, rfl, l, hinv, hm.freedIf hfree fun hc => hc.2, (Kept.refl _ s l).trans_remove hfree⟩
  rw [completeNread, Store.deref_ok hx, ok_bind, if_neg hbad, hs']
  rfl

/-- `complete_nread` answers what `do_store_item` did. -/
theorem completeNread_spec {env : Env} (h : Inv hash s l refs) (hm : Maps s l m) (hx : s.heap.get it = some x)
    (hit : it ∉ l) (hone : refs it = 1) (hr : ∀ p, refs p ≤ 1) (hmem : ∀ p, env.mem = some p → s.heap.get p = none)
    (hend : x.data.drop (x.nbytes - 2) = crlf) (comm : Comm) :
    match comm.stored (m x.key) (x.suffix, x.data) with
    | none => ∃ r, completeNread hash s it comm env = .ok r ∧ Completed hash s l refs it m .notStored r
    | some v =>
      if env.Lacks comm v then
        ∃ r, completeNread hash s it comm env = .ok r ∧ Completed hash s l refs it m .notStored r
      else Linking v.2.length (completeNread hash s it comm env)
        (Completed hash s l refs it (Function.update m x.key (some v)) .stored) := by
  have hrun : completeNread hash s it comm env =
      (doStoreItem hash s it comm env >>= fun r => doItemRemove r.1 it >>= fun s =>
        .ok (s, if r.2 then .stored else .notStored)) := by
    rw [completeNread, Store.deref_ok hx, ok_bind, if_pos hend]
    rfl
  have hremove : ∀ {s₁ l₁ m₁} {b : Bool}, Inv hash s₁ l₁ refs → Maps s₁ l₁ m₁ → Kept (some it) s l s₁ l₁ →
      ∃ r, (doItemRemove s₁ it >>= fun s => .ok (s, if b then Reply.stored else .notStored)) = .ok r ∧
        Completed hash s l refs it m₁ (if b then .stored else .notStored) r := by
    intro s₁ l₁ m₁ b hinv hmaps hkept
    obtain ⟨s₂, hs₂, hinv₂, hfree₂⟩ := doItemRemove_spec (p := it) hinv (by rw [hone]; exact Nat.one_pos)
    rw [hone] at hinv₂
    exact ⟨(s₂, _), by rw [hs₂]; rfl, rfl, l₁, hinv₂, hmaps.freedIf hfree₂ fun hc => hc.2, hkept.trans_remove hfree₂⟩
  have hrefused : Refused hash s l refs m it (doStoreItem hash s it comm env) →
      ∃ r, completeNread hash s it comm env = .ok r ∧ Completed hash s l refs it m .notStored r := by
    rintro ⟨s₁, l₁, hs₁, hinv₁, hmaps₁, hkept₁⟩
    rw [hrun, hs₁, ok_bind]
    exact hremove (b := false) hinv₁ hmaps₁ hkept₁
  have hstore := doStoreItem_spec h hm hx hit hr hmem comm
  cases hv : comm.stored (m x.key) (x.suffix, x.data) with
  | none =>
    rw [hv] at hstore
    exact hrefused hstore
  | some v =>
    rw [hv] at hstore
    dsimp only at hstore ⊢
    by_cases hno : env.Lacks comm v
    · rw [if_pos hno] at hstore ⊢
      exact hrefused hstore
    · rw [if_neg hno] at hstore ⊢
      refine ⟨fun hsmall => ?_, fun hlarge => ?_⟩
      · obtain ⟨⟨s₁, b⟩, hs₁, rfl, l₁, hinv₁, hmaps₁, hkept₁⟩ := hstore.ok hsmall
        rw [hrun, hs₁, ok_bind]
        exact hremove (b := true) hinv₁ hmaps₁ hkept₁
      · rw [hrun, hstore.tooLarge hlarge]
        rfl

/-! ## The connections -/

/-- How many connections hold an item. -/
noncomputable def holders (item : Fd → Option Ptr) (p : Ptr) : Nat := {fd | item fd = some p}.ncard

section holders

variable {item : Fd → Option Ptr} {fd : Fd}

/-- No two connections hold one item. -/
def Single (item : Fd → Option Ptr) : Prop := ∀ {fd fd' p}, item fd = some p → item fd' = some p → fd = fd'

theorem holders_of_item (h : Single item) (hp : item fd = some p) : holders item p = 1 := by
  have hset : {fd' | item fd' = some p} = {fd} := by
    refine Set.ext fun fd' => ⟨fun h' => h h' hp, ?_⟩
    rintro rfl
    exact hp
  rw [holders, hset, Set.ncard_singleton]

theorem holders_eq_zero (h : ∀ fd, item fd ≠ some p) : holders item p = 0 := by
  have hset : {fd | item fd = some p} = ∅ := Set.eq_empty_of_forall_notMem h
  rw [holders, hset, Set.ncard_empty]

theorem holders_le_one (h : Single item) (p : Ptr) : holders item p ≤ 1 := by
  by_cases hp : ∃ fd, item fd = some p
  · obtain ⟨fd, hp⟩ := hp
    exact (holders_of_item h hp).le
  · rw [holders_eq_zero fun fd hfd => hp ⟨fd, hfd⟩]
    exact Nat.zero_le 1

/-- Another item for a connection counts for that item, and no more for the one it held. -/
theorem holders_update_of_ne {o : Option Ptr} (hold : item fd ≠ some p) (hnew : o ≠ some p) :
    holders (Function.update item fd o) p = holders item p := by
  have hset : {fd' | Function.update item fd o fd' = some p} = {fd' | item fd' = some p} := by
    refine Set.ext fun fd' => ?_
    change Function.update item fd o fd' = some p ↔ item fd' = some p
    by_cases hfd : fd' = fd
    · rw [hfd, Function.update_self]
      exact iff_of_false hnew hold
    · rw [Function.update_of_ne hfd]
  rw [holders, holders, hset]

theorem single_update_none (h : Single item) (fd : Fd) : Single (Function.update item fd none) := by
  intro fd₁ fd₂ p h₁ h₂
  by_cases he₁ : fd₁ = fd
  · rw [he₁, Function.update_self] at h₁
    nomatch h₁
  · by_cases he₂ : fd₂ = fd
    · rw [he₂, Function.update_self] at h₂
      nomatch h₂
    · rw [Function.update_of_ne he₁] at h₁
      rw [Function.update_of_ne he₂] at h₂
      exact h h₁ h₂

theorem single_update_some (h : Single item) (hp : ∀ fd, item fd ≠ some p) (fd : Fd) :
    Single (Function.update item fd (some p)) := by
  intro fd₁ fd₂ q h₁ h₂
  by_cases he₁ : fd₁ = fd
  · rw [he₁, Function.update_self, Option.some.injEq] at h₁
    subst h₁
    by_cases he₂ : fd₂ = fd
    · rw [he₁, he₂]
    · rw [Function.update_of_ne he₂] at h₂
      exact absurd h₂ (hp fd₂)
  · rw [Function.update_of_ne he₁] at h₁
    by_cases he₂ : fd₂ = fd
    · rw [he₂, Function.update_self, Option.some.injEq] at h₂
      subst h₂
      exact absurd h₁ (hp fd₁)
    · rw [Function.update_of_ne he₂] at h₂
      exact h h₁ h₂

/-- A connection lets its item go. -/
theorem holders_drop (h : Single item) (hp : item fd = some p) :
    ∀ q, holders (Function.update item fd none) q = Function.update (holders item) p 0 q := by
  intro q
  by_cases hqp : q = p
  · rw [hqp, Function.update_self]
    refine holders_eq_zero fun fd' hfd' => ?_
    by_cases he : fd' = fd
    · rw [he, Function.update_self] at hfd'
      nomatch hfd'
    · rw [Function.update_of_ne he] at hfd'
      exact he (h hfd' hp)
  · have hold : item fd ≠ some q := fun he => hqp (Option.some.inj (he.symm.trans hp))
    have hnew : (none : Option Ptr) ≠ some q := nofun
    rw [Function.update_of_ne hqp, holders_update_of_ne hold hnew]

/-- A connection that holds no item is given one. -/
theorem holders_hold (h : Single item) (hfd : item fd = none) (hp : ∀ fd, item fd ≠ some p) :
    ∀ q, holders (Function.update item fd (some p)) q = Function.update (holders item) p 1 q := by
  intro q
  by_cases hqp : q = p
  · rw [hqp, Function.update_self]
    exact holders_of_item (single_update_some h hp fd) (Function.update_self ..)
  · have hold : item fd ≠ some q := by
      rw [hfd]
      nofun
    rw [Function.update_of_ne hqp, holders_update_of_ne hold fun he => hqp (Option.some.inj he).symm]

end holders

/-- The store satisfies its invariant for the references that the connections hold, each of an item of its own that
is not linked. -/
structure Consistent (hash : List UInt8 → UInt32) (w : Server) (l : List Ptr)
    (m : List UInt8 → Option Value) : Prop where
  inv : Inv hash w.store l (holders w.item)
  maps : Maps w.store l m
  single : Single w.item
  unlinked : ∀ {fd p}, w.item fd = some p → p ∉ l
  closed : ∀ {fd}, w.isOpen fd = false → w.item fd = none

namespace Consistent

variable {w : Server} {fd : Fd} (h : Consistent hash w l m)

include h

theorem linked : ∀ p ∈ l, holders w.item p = 0 := fun _ hp => holders_eq_zero fun _ hfd => h.unlinked hfd hp

/-- What is not allocated is held by no connection. -/
theorem free (hp : w.store.heap.get p = none) : ∀ fd, w.item fd ≠ some p := by
  intro fd hfd
  have hone := holders_of_item h.single hfd
  rw [h.inv.marked.dead hp] at hone
  nomatch hone

/-- The item a connection holds is allocated. -/
theorem held (hp : w.item fd = some p) : ∃ x, w.store.heap.get p = some x := by
  refine Option.ne_none_iff_exists'.mp fun hno => ?_
  exact h.free hno fd hp

theorem accept (hfd : w.isOpen fd = false) : Consistent hash (w.apply hash (.accept fd)) l m := by
  have hrun : w.apply hash (.accept fd) = { w with isOpen := Function.update w.isOpen fd true } := by
    rw [Server.apply, ← h.closed hfd, Function.update_eq_self]
  rw [hrun]
  refine ⟨h.inv, h.maps, h.single, h.unlinked, fun {fd'} hfd' => ?_⟩
  dsimp only at hfd' ⊢
  by_cases he : fd' = fd
  · rw [he]
    exact h.closed hfd
  · rw [Function.update_of_ne he] at hfd'
    exact h.closed hfd'

/-- A connection that holds no item is given a new one. -/
theorem granted {vlen : Nat} (hfd : w.item fd = none) (ho : w.isOpen fd = true) (hp : w.store.heap.get p = none)
    (hlen : vlen + 2 < 2 ^ 31) (key : List UInt8) (flags : Nat) (comm : Comm) (found : Nat → UInt8) (now : UInt32) :
    w.apply hash (.update fd key flags vlen comm (some p) found now) =
        { w with
          store := { w.store with heap := w.store.heap.alloc p (newItem key (CInt.int32 flags) 0 (vlen + 2) found) }
          item := Function.update w.item fd (some p)
          itemComm := Function.update w.itemComm fd comm } ∧
      Consistent hash (w.apply hash (.update fd key flags vlen comm (some p) found now)) l m := by
  have hrun : w.apply hash (.update fd key flags vlen comm (some p) found now) =
      { w with
        store := { w.store with heap := w.store.heap.alloc p (newItem key (CInt.int32 flags) 0 (vlen + 2) found) }
        item := Function.update w.item fd (some p)
        itemComm := Function.update w.itemComm fd comm } := by
    rw [Server.apply, doItemAlloc_some hlen]
  have hfree := h.free hp
  have hpl : p ∉ l := fun hl => h.inv.hashed.live p hl hp
  refine ⟨hrun, ?_⟩
  rw [hrun]
  refine ⟨?_, h.maps.congr_on fun q hq => ?_, single_update_some h.single hfree fd, fun {fd' q} hq => ?_,
    fun {fd'} hfd' => ?_⟩
  · exact (newItem_inv h.inv hp (Nat.le_add_left 2 vlen) key (CInt.int32 flags) found).congr_refs
      (holders_hold h.single hfd hfree)
  · have hqp : q ≠ p := by
      rintro rfl
      exact hpl hq
    rw [Heap.get_alloc_of_ne hqp]
  · dsimp only at hq
    by_cases he : fd' = fd
    · rw [he, Function.update_self, Option.some.injEq] at hq
      exact hq ▸ hpl
    · rw [Function.update_of_ne he] at hq
      exact h.unlinked hq
  · have hne : fd' ≠ fd := by
      rintro rfl
      rw [ho] at hfd'
      nomatch hfd'
    exact (Function.update_of_ne hne ..).trans (h.closed hfd')

/-- Another store in which the items that the connections hold are not linked. -/
theorem withStore {l' : List Ptr} {m' : List UInt8 → Option Value} (hinv : Inv hash s' l' (holders w.item))
    (hmaps : Maps s' l' m')
    (hkept : Kept none w.store l s' l') (answers : List Answer) :
    Consistent hash { w with store := s', answers } l' m' where
  inv := hinv
  maps := hmaps
  single := h.single
  unlinked := by
    intro fd p hp hl
    obtain ⟨x, hx⟩ := h.held hp
    rcases hkept.linked p hl with hl | hl | hl
    · exact h.unlinked hp hl
    · nomatch hl
    · rw [hx] at hl
      nomatch hl
  closed := h.closed

/-- There is no memory for an item. -/
theorem refused {flags vlen : Nat} {found : Nat → UInt8} {mem : Option Ptr} (hno : mem = none ∨ 2 ^ 31 ≤ vlen + 2)
    (key : List UInt8) (comm : Comm) (now : UInt32) :
    ∃ s' l', w.apply hash (.update fd key flags vlen comm mem found now) =
        { w with store := s', answers := w.answers ++ [.noMemory] } ∧
      Consistent hash (w.apply hash (.update fd key flags vlen comm mem found now)) l'
        (if comm = .set then Function.update m key none else m) := by
  obtain ⟨s', l', hs', hinv, hmaps, hkept⟩ := failedAlloc_spec h.inv h.maps h.linked key comm now
  have hrun : w.apply hash (.update fd key flags vlen comm mem found now) =
      { w with store := s', answers := w.answers ++ [.noMemory] } := by
    rw [Server.apply, doItemAlloc_none hno]
    dsimp only
    rw [hs']
    rfl
  exact ⟨s', l', hrun, hrun ▸ h.withStore hinv hmaps hkept _⟩

theorem get (fd : Fd) (key : List UInt8) (now : UInt32) :
    ∃ s', w.apply hash (.get fd key now) =
        { w with store := s', answers := w.answers ++ [.item ((m key).map fun v => (key, v))] } ∧
      Consistent hash (w.apply hash (.get fd key now)) l m ∧ Kept none w.store l s' l := by
  obtain ⟨s', hs', hinv, hmaps, hkept⟩ := processGetCommand_spec h.inv h.maps h.linked key now
  have hrun : w.apply hash (.get fd key now) =
      { w with store := s', answers := w.answers ++ [.item ((m key).map fun v => (key, v))] } := by
    rw [Server.apply, hs']
    rfl
  exact ⟨s', hrun, hrun ▸ h.withStore hinv hmaps hkept _, hkept⟩

/-- Another store in which the connection has let its item go. -/
theorem dropItem {l' : List Ptr} {m' : List UInt8 → Option Value} (hp : w.item fd = some p)
    (hinv : Inv hash s' l' (Function.update (holders w.item) p 0)) (hmaps : Maps s' l' m')
    (hkept : Kept (some p) w.store l s' l') (answers : List Answer) :
    Consistent hash { w with store := s', item := Function.update w.item fd none, answers } l' m' where
  inv := hinv.congr_refs (holders_drop h.single hp)
  maps := hmaps
  single := single_update_none h.single fd
  unlinked := by
    intro fd' q hq hl
    have hne : fd' ≠ fd := by
      rintro rfl
      dsimp only at hq
      rw [Function.update_self] at hq
      nomatch hq
    dsimp only at hq
    rw [Function.update_of_ne hne] at hq
    obtain ⟨x, hx⟩ := h.held hq
    rcases hkept.linked q hl with hl | hl | hl
    · exact h.unlinked hq hl
    · exact hne (h.single hq (hp.trans hl))
    · rw [hx] at hl
      nomatch hl
  closed := by
    intro fd' hfd'
    dsimp only
    by_cases he : fd' = fd
    · rw [he, Function.update_self]
    · rw [Function.update_of_ne he]
      exact h.closed hfd'

theorem close (fd : Fd) :
    ∃ s', w.apply hash (.close fd) =
        { w with store := s', isOpen := Function.update w.isOpen fd false, item := Function.update w.item fd none } ∧
      Consistent hash (w.apply hash (.close fd)) l m ∧ Kept (w.item fd) w.store l s' l := by
  have hclosed : ∀ {fd'}, Function.update w.isOpen fd false fd' = false →
      Function.update w.item fd none fd' = none := by
    intro fd' hfd'
    by_cases he : fd' = fd
    · rw [he, Function.update_self]
    · rw [Function.update_of_ne he] at hfd' ⊢
      exact h.closed hfd'
  cases hp : w.item fd with
  | none =>
    have hitem : Function.update w.item fd none = w.item := by
      rw [← hp, Function.update_eq_self]
    have hrun : w.apply hash (.close fd) =
        { w with
          store := w.store, isOpen := Function.update w.isOpen fd false, item := Function.update w.item fd none } := by
      rw [Server.apply, hp]
      rfl
    refine ⟨w.store, hrun, ?_, .refl none w.store l⟩
    rw [hitem] at hclosed
    rw [hrun, hitem]
    exact ⟨h.inv, h.maps, h.single, h.unlinked, hclosed⟩
  | some p =>
    obtain ⟨s', hs', hinv, hfree⟩ :=
      doItemRemove_spec (p := p) h.inv (by rw [holders_of_item h.single hp]; exact Nat.one_pos)
    rw [holders_of_item h.single hp] at hinv
    have hkept := (Kept.refl (some p) w.store l).trans_remove hfree
    have hmaps := h.maps.freedIf hfree fun hc => hc.2
    have hrun : w.apply hash (.close fd) =
        { w with
          store := s', isOpen := Function.update w.isOpen fd false, item := Function.update w.item fd none } := by
      rw [Server.apply, hp, release, hs']
      rfl
    have hdrop := h.dropItem hp hinv hmaps hkept w.answers
    refine ⟨s', hrun, ?_, hkept⟩
    rw [hrun]
    exact ⟨hdrop.inv, hdrop.maps, hdrop.single, hdrop.unlinked, hclosed⟩

section completing

variable {data : List UInt8} {env : Env}

/-- The store when the item's data has come. -/
def filled (w : Server) (p : Ptr) (data : List UInt8) : Store := w.store.modify p fun y => { y with data }

omit h in
theorem filled_content (hq : p ≠ it) : ((filled w it data).heap.get p).map Item.content =
    (w.store.heap.get p).map Item.content := by
  rw [filled, Store.get_modify]
  simp [hq]

/-- The data of an item that is not linked changes nothing of the invariant. -/
theorem filled_inv (hp : w.item fd = some p) (hx : w.store.heap.get p = some x) (hlen : data.length = x.nbytes) :
    Inv hash (filled w p data) l (holders w.item) ∧ Maps (filled w p data) l m := by
  have hpl := h.unlinked hp
  refine ⟨modify_unlinked h.inv hpl (fun _ => ⟨rfl, rfl, rfl, rfl⟩) fun y hy => ?_, h.maps.congr_on fun q hq => ?_⟩
  · rw [Item.nbytes, hlen]
    exact (h.inv.marked.items hx).sized
  · exact filled_content fun he => hpl (he ▸ hq)

theorem completed {m' : List UInt8 → Option Value} {reply : Reply} {r : Store × Reply} (hp : w.item fd = some p)
    (hr : completeNread hash (filled w p data) p (w.itemComm fd) env = .ok r)
    (hc : Completed hash (filled w p data) l (holders w.item) p m' reply r) :
    ∃ l', w.apply hash (.complete fd data env) =
        { w with store := r.1, item := Function.update w.item fd none, answers := w.answers ++ [.update reply] } ∧
      Consistent hash (w.apply hash (.complete fd data env)) l' m' ∧ Kept (some p) w.store l r.1 l' := by
  obtain ⟨rfl, l', hinv, hmaps, hkept⟩ := hc
  have hrun : w.apply hash (.complete fd data env) =
      { w with store := r.1, item := Function.update w.item fd none, answers := w.answers ++ [.update r.2] } := by
    rw [Server.apply, hp]
    dsimp only
    rw [filled] at hr
    rw [hr]
    rfl
  have hkept' : Kept (some p) w.store l r.1 l' := by
    refine ⟨fun q hq hne hlive => ?_, fun q hq => ?_⟩
    · have hqp : q ≠ p := fun he => hne (congrArg some he.symm)
      rw [hkept.content q hq hne (by rwa [filled, Store.get_modify, ne_eq, Option.map_eq_none_iff]), filled_content hqp]
    · have hl := hkept.linked q hq
      rwa [filled, Store.get_modify, Option.map_eq_none_iff] at hl
  exact ⟨l', hrun, hrun ▸ h.dropItem hp hinv hmaps hkept' _, hkept'⟩

/-- What a completed update does to the map, and what it answers; `none` where the item to be linked is too large. -/
inductive Outcome (m : List UInt8 → Option Value) (comm : Comm) (env : Env) (key : List UInt8) (v : Value) :
    Option (Reply × (List UInt8 → Option Value)) → Prop where
  | bad (h : v.2.drop (v.2.length - 2) ≠ crlf) : Outcome m comm env key v (some (.badDataChunk, m))
  | refused (h : v.2.drop (v.2.length - 2) = crlf) (hno : ∀ u, comm.stored (m key) v = some u → env.Lacks comm u) :
      Outcome m comm env key v (some (.notStored, m))
  | stored {u : Value} (h : v.2.drop (v.2.length - 2) = crlf) (hu : comm.stored (m key) v = some u)
      (hmem : ¬env.Lacks comm u)
      (hsmall : u.2.length < 1024 * 1024) : Outcome m comm env key v (some (.stored, Function.update m key (some u)))
  | tooLarge {u : Value} (h : v.2.drop (v.2.length - 2) = crlf) (hu : comm.stored (m key) v = some u)
      (hlarge : 1024 * 1024 ≤ u.2.length) :
      Outcome m comm env key v none

/-- A completed update of a connection that holds an item. -/
theorem complete (hp : w.item fd = some p) (hx : w.store.heap.get p = some x) (hlen : data.length = x.nbytes)
    (hmem : ∀ p, env.mem = some p → w.store.heap.get p = none) :
    ∃ o, Outcome m (w.itemComm fd) env x.key (x.suffix, data) o ∧
      match o with
      | none => w.apply hash (.complete fd data env) = { w with ended := some .tooLarge }
      | some (reply, m') =>
        ∃ s' l', w.apply hash (.complete fd data env) =
            { w with store := s', item := Function.update w.item fd none, answers := w.answers ++ [.update reply] } ∧
          Consistent hash (w.apply hash (.complete fd data env)) l' m' ∧ Kept (some p) w.store l s' l' := by
  obtain ⟨hinv, hmaps⟩ := h.filled_inv hp hx hlen
  have hx₀ : (filled w p data).heap.get p = some { x with data } := by
    rw [filled, Store.get_modify, hx, Option.map_some, if_pos rfl]
  have hone := holders_of_item h.single hp
  by_cases hend : data.drop (data.length - 2) = crlf
  · have hmem₀ : ∀ q, env.mem = some q → (filled w p data).heap.get q = none := by
      intro q hq
      rw [filled, Store.get_modify, hmem q hq, Option.map_none]
    have hspec := completeNread_spec hinv hmaps hx₀ (h.unlinked hp) hone (holders_le_one h.single) hmem₀ hend
      (w.itemComm fd)
    dsimp only at hspec
    cases hv : (w.itemComm fd).stored (m x.key) (x.suffix, data) with
    | none =>
      rw [hv] at hspec
      obtain ⟨r, hr, hc⟩ := hspec
      exact ⟨_, .refused hend (by rw [hv]; exact nofun), r.1, h.completed hp hr hc⟩
    | some u =>
      rw [hv] at hspec
      dsimp only at hspec
      by_cases hno : env.Lacks (w.itemComm fd) u
      · rw [if_pos hno] at hspec
        obtain ⟨r, hr, hc⟩ := hspec
        refine ⟨_, .refused hend fun u' hu' => ?_, r.1, h.completed hp hr hc⟩
        obtain rfl : u = u' := Option.some.inj (hv.symm.trans hu')
        exact hno
      · rw [if_neg hno] at hspec
        rcases Nat.lt_or_ge u.2.length (1024 * 1024) with hsmall | hlarge
        · obtain ⟨r, hr, hc⟩ := hspec.ok hsmall
          exact ⟨_, .stored hend hv hno hsmall, r.1, h.completed hp hr hc⟩
        · refine ⟨none, .tooLarge hend hv hlarge, ?_⟩
          have hr := hspec.tooLarge hlarge
          rw [filled] at hr
          rw [Server.apply, hp]
          dsimp only
          rw [hr]
          rfl
  · obtain ⟨r, hr, hc⟩ := completeNread_bad hinv hmaps hx₀ hone hend (w.itemComm fd) env
    exact ⟨_, .bad hend, r.1, h.completed hp hr hc⟩

end completing

end Consistent

/-! ## Runs -/

/-- No connection is given an item while it holds one, and none completes an update while it holds none. -/
def Server.Orderly (w : Server) : Event → Prop
  | .update fd _ _ _ _ _ _ _ => w.item fd = none
  | .complete fd _ _ => w.item fd ≠ none
  | .accept _ | .get _ _ _ | .close _ => True

instance (w : Server) : (e : Event) → Decidable (w.Orderly e)
  | .update fd _ _ _ _ _ _ _ => inferInstanceAs (Decidable (w.item fd = none))
  | .complete fd _ _ => inferInstanceAs (Decidable (w.item fd ≠ none))
  | .accept _ | .get _ _ _ | .close _ => isTrue trivial

/-- The process runs with a store that satisfies its invariant for the references that the connections hold, and in
which nothing is allocated but what is linked or referenced, or it has ended at the assertion on the size of an
item. -/
def Server.Represented (hash : List UInt8 → UInt32) (w : Server) : Prop :=
  match w.ended with
  | none => ∃ l m, Consistent hash w l m ∧ ∀ p, w.store.heap.get p ≠ none ↔ p ∈ l ∨ 0 < holders w.item p
  | some f => f = .tooLarge

theorem step_eq_some {w w' : Server} {e : Event} (h : w.step hash e = some w') :
    w.ended = none ∧ w.allows e = true ∧ w' = w.apply hash e := by
  obtain ⟨⟨hended, hallows⟩, he⟩ := Option.ite_none_right_eq_some.mp h
  exact ⟨hended, hallows, (Option.some.inj he).symm⟩

theorem isFree_iff {w : Server} {mem : Option Ptr} :
    w.isFree mem = true ↔ ∀ p, mem = some p → w.store.heap.get p = none := by
  cases mem with
  | none => exact iff_of_true rfl nofun
  | some q => simp [Server.isFree]

/-- The store at start has no items. -/
theorem consistent_init : Consistent hash .init [] fun _ => none := by
  have hzero : ∀ p, holders Server.init.item p = 0 := fun p => holders_eq_zero nofun
  have hlisted : Listed Server.init.store [] := ⟨⟨List.nodup_nil, rfl, rfl, trivial⟩, nofun, rfl⟩
  have hhashed : Hashed hash Server.init.store [] := by
    refine ⟨List.nodup_nil, nofun, fun b _ => ⟨[], ?_, fun p => ?_⟩, nofun, rfl, by decide⟩
    · cases b <;> rfl
    · exact iff_of_false List.not_mem_nil fun hp => List.not_mem_nil hp.1
  have hmarked : Marked Server.init.store [] (holders Server.init.item) := ⟨nofun, fun _ => hzero _⟩
  exact ⟨⟨⟨hlisted, hhashed, hmarked, ⟨rfl, rfl⟩, rfl⟩, nofun⟩, ⟨nofun, nofun⟩, nofun, nofun, fun _ => rfl⟩

theorem Consistent.represented {w : Server} (h : Consistent hash w l m) (hended : w.ended = none) :
    w.Represented hash := by
  rw [Server.Represented, hended]
  refine ⟨l, m, h, fun p => ⟨fun hlive => ?_, ?_⟩⟩
  · obtain ⟨x, hx⟩ := Option.ne_none_iff_exists'.mp hlive
    by_cases hp : p ∈ l
    · exact .inl hp
    · exact .inr (h.inv.held hx hp)
  · rintro (hp | hr)
    · exact h.inv.hashed.live p hp
    · obtain ⟨x, hx⟩ := h.inv.live hr
      simp [hx]

/-- An orderly step keeps the invariant. -/
theorem represented_step {w w' : Server} {e : Event} (h : w.Represented hash) (hs : w.step hash e = some w')
    (ho : w.Orderly e) : w'.Represented hash := by
  obtain ⟨hended, hallows, rfl⟩ := step_eq_some hs
  rw [Server.Represented, hended] at h
  obtain ⟨l, m, h, -⟩ := h
  cases e with
  | accept fd => exact (h.accept (by simpa [Server.allows] using hallows)).represented hended
  | update fd key flags vlen comm mem found now =>
    obtain ⟨hopen, hfree⟩ := Bool.and_eq_true_iff.mp hallows
    by_cases hno : mem = none ∨ 2 ^ 31 ≤ vlen + 2
    · obtain ⟨s', l', hrun, hc⟩ := h.refused hno key comm now
      exact hc.represented (by rw [hrun]; exact hended)
    · obtain ⟨hsome, hlen⟩ := not_or.mp hno
      obtain ⟨p, rfl⟩ := Option.ne_none_iff_exists'.mp hsome
      obtain ⟨hrun, hc⟩ := h.granted ho hopen (isFree_iff.mp hfree p rfl) (Nat.not_le.mp hlen) key flags comm found now
      exact hc.represented (by rw [hrun]; exact hended)
  | complete fd data env =>
    obtain ⟨p, hp⟩ := Option.ne_none_iff_exists'.mp ho
    obtain ⟨x, hx⟩ := h.held hp
    rw [Server.allows, hp, Option.bind_some, hx, Option.all_some, Bool.and_eq_true_iff, decide_eq_true_iff] at hallows
    obtain ⟨hopen, hlen⟩ := hallows
    obtain ⟨o, -, hrun⟩ := h.complete hp hx hlen (isFree_iff.mp (Bool.and_eq_true_iff.mp hopen).2)
    cases o with
    | none =>
      rw [hrun]
      rfl
    | some r =>
      obtain ⟨s', l', hrun, hc, -⟩ := hrun
      exact hc.represented (by rw [hrun]; exact hended)
  | get fd key now =>
    obtain ⟨s', hrun, hc, -⟩ := h.get fd key now
    exact hc.represented (by rw [hrun]; exact hended)
  | close fd =>
    obtain ⟨s', hrun, hc, -⟩ := h.close fd
    exact hc.represented (by rw [hrun]; exact hended)

/-- In a run of orderly steps every state satisfies the invariant of the store. -/
theorem represented_of_orderly (hash : List UInt8 → UInt32) (es : List Event)
    (h : AllSteps (Server.step hash) (fun w e _ => w.Orderly e) .init es) :
    AllStates (Server.step hash) (Server.Represented hash) .init es :=
  .of_invariant (consistent_init.represented rfl) (fun _ _ _ hw hs ho => represented_step hw hs ho) h

/-- Two connections store and append to a key, one of them closes while it waits for its data. -/
theorem represented_shared_key :
    AllStates (Server.step fun _ => 0) (Server.Represented fun _ => 0) .init
      [.accept 5, .accept 6, .update 5 [97] 7 1 .set (some 100) (fun _ => 0) 1,
        .update 6 [97] 9 1 .append (some 200) (fun _ => 0) 1,
        .complete 5 [120, 13, 10] ⟨2, true, none, fun _ => 0⟩,
        .complete 6 [121, 13, 10] ⟨2, true, some 300, fun _ => 0⟩,
        .get 5 [97] 3, .update 5 [98] 0 4 .add (some 400) (fun _ => 0) 3, .close 5] :=
  represented_of_orderly _ _ (by decide +kernel)

/-- A second completion of one update releases the item of NULL, where the process ends. And a second update on a
connection that holds an item: the first item keeps its reference, which no connection holds any more. -/
theorem reference_lost :
    (∃ w, exec (Server.step fun _ => 0) .init
        [.accept 5, .update 5 [97] 0 1 .set (some 100) (fun _ => 0) 1,
          .complete 5 [120, 13, 10] ⟨1, true, none, fun _ => 0⟩,
          .complete 5 [120, 13, 10] ⟨1, true, none, fun _ => 0⟩] = some w ∧ ¬w.Represented fun _ => 0) ∧
      ∃ w, exec (Server.step fun _ => 0) .init
          [.accept 5, .update 5 [98] 0 5 .set (some 100) (fun _ => 0) 1,
            .update 5 [99] 0 1 .set (some 200) (fun _ => 0) 1] = some w ∧
        ¬w.Represented fun _ => 0 := by
  constructor
  · have hended : (exec (Server.step fun _ => 0) .init
        [.accept 5, .update 5 [97] 0 1 .set (some 100) (fun _ => 0) 1,
        .complete 5 [120, 13, 10] ⟨1, true, none, fun _ => 0⟩,
          .complete 5 [120, 13, 10] ⟨1, true, none, fun _ => 0⟩]).map Server.ended = some (some .corrupt) := by
          decide +kernel
    obtain ⟨w, hw, he⟩ := Option.map_eq_some_iff.mp hended
    refine ⟨w, hw, fun h => ?_⟩
    rw [Server.Represented, he] at h
    cases h
  refine ⟨_, rfl, ?_⟩
  rintro ⟨l, m, h, -⟩
  have hrefs : 1 = holders _ 100 := (h.inv.marked.items (p := 100) rfl).refcount
  rw [holders_eq_zero fun fd hfd => ?_] at hrefs
  · nomatch hrefs
  · change Function.update (Function.update (Function.update (fun _ => none) 5 none) 5 (some 100)) 5 (some 200) fd =
      some 100 at hfd
    rw [Function.update_idem, Function.update_idem, Function.update_apply] at hfd
    split at hfd <;> nomatch hfd

end ZeroServ.Mc
