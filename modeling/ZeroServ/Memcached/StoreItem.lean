import ZeroServ.Memcached.Invariant

/-!
# What an update stores

`Maps s l m` says that the linked items are the entries of the map `m`. `do_store_item` keeps the invariant and the
references, and makes of the map what `Comm.stored` says the command makes of the entry of its key
(`doStoreItem_spec`); it fails only where it would link an item of 1 MB or more.
-/

namespace ZeroServ.Mc

open CString Decimal

variable {hash : List UInt8 → UInt32} {s s' : Store} {l a b : List Ptr} {refs : Ptr → Nat} {p q it : Ptr} {x old : Item}

/-- The suffix and the data of an item. -/
abbrev Value := List UInt8 × List UInt8

/-- The linked items are the entries of a map. -/
structure Maps (s : Store) (l : List Ptr) (m : List UInt8 → Option Value) : Prop where
  item : ∀ {p k v}, p ∈ l → (s.heap.get p).map Item.content = some (k, v) → m k = some v
  entry : ∀ {k v}, m k = some v → ∃ p ∈ l, (s.heap.get p).map Item.content = some (k, v)

/-- The two data blocks of an `append` or a `prepend` in their order, the first one without the end of its line. -/
def joined (fst snd : List UInt8) : List UInt8 := fst.take (fst.length - 2) ++ snd

/-- The entry that `append` and `prepend` make of the old entry and the new data: the flags are the old ones. -/
def join (old : Value) (fst snd : List UInt8) : Value :=
  (itemSuffix (CInt.int32 (strtol old.1)) (fst.length + snd.length - 2), joined fst snd)

/-- The value that `append` and `prepend` store over an old one. -/
def joinOf (comm : Comm) (o v : Value) : Value := if comm = .append then join o o.2 v.2 else join o v.2 o.2

/-- The entry a command makes of the old one and a new one; `none` where it is refused. -/
def Comm.stored : Comm → Option Value → Value → Option Value
  | .add, none, new => some new
  | .add, some _, _ => none
  | .set, _, new => some new
  | .replace, some _, new => some new
  | .append, some old, new => some (joinOf .append old new)
  | .prepend, some old, new => some (joinOf .prepend old new)
  | .replace, none, _ | .append, none, _ | .prepend, none, _ => none

/-- Whether a command makes an item of its own. -/
def Comm.joins : Comm → Bool
  | .append | .prepend => true
  | .add | .set | .replace => false

/-- There is no memory for the item that a command makes of its own. -/
def Env.Lacks (env : Env) (comm : Comm) (v : Value) : Prop := comm.joins = true ∧ (env.mem = none ∨ 2 ^ 31 ≤ v.2.length)

instance (env : Env) (comm : Comm) (v : Value) : Decidable (env.Lacks comm v) := inferInstanceAs (Decidable (_ ∧ _))

/-- The result of linking an item of `n` bytes: it has a property, or the item is too large. -/
structure Linking {α : Type} (n : Nat) (r : Except Fault α) (P : α → Prop) : Prop where
  ok : n < 1024 * 1024 → ∃ a, r = .ok a ∧ P a
  tooLarge : 1024 * 1024 ≤ n → r = .error .tooLarge

/-- The items that are not linked, but `it`, stay as they are, and do not become linked. -/
structure Kept (it : Option Ptr) (s : Store) (l : List Ptr) (s' : Store) (l' : List Ptr) : Prop where
  content : ∀ q, q ∉ l → it ≠ some q → s.heap.get q ≠ none →
    (s'.heap.get q).map Item.content = (s.heap.get q).map Item.content
  linked : ∀ q ∈ l', q ∈ l ∨ it = some q ∨ s.heap.get q = none

/-! ## The map -/

section maps

variable {m : List UInt8 → Option Value} {key : List UInt8} {v : Value}

theorem Maps.congr_on (h : Maps s l m)
    (hs : ∀ p ∈ l, (s'.heap.get p).map Item.content = (s.heap.get p).map Item.content) :
    Maps s' l m where
  item hp hc := h.item hp ((hs _ hp).symm.trans hc)
  entry hm := by
    obtain ⟨p, hp, hc⟩ := h.entry hm
    exact ⟨p, hp, (hs p hp).trans hc⟩

theorem Maps.congr (h : Maps s l m) (hs : Same Item.content s s') : Maps s' l m := h.congr_on fun p _ => hs p

theorem Maps.perm {l' : List Ptr} (h : Maps s l m) (hl : l'.Perm l) : Maps s l' m where
  item hp hc := h.item (hl.mem_iff.mp hp) hc
  entry hm := by
    obtain ⟨p, hp, hc⟩ := h.entry hm
    exact ⟨p, hl.mem_iff.mpr hp, hc⟩

/-- Freeing an item that is not linked. -/
theorem Maps.freedIf (h : Maps s l m) {c : Prop} [Decidable c] (hf : FreedIf c p s s') (hp : c → p ∉ l) :
    Maps s' l m := by
  refine h.congr_on fun q hq => ?_
  rw [hf q, if_neg]
  rintro ⟨rfl, hc⟩
  exact hp hc hq

theorem keyAt_content : s.keyAt p = ((s.heap.get p).map Item.content).map Prod.fst := by
  rw [Store.keyAt, Option.map_map]
  rfl

/-- The item with a key is the entry of the key. -/
theorem Maps.present (h : Maps s l m) (hp : p ∈ l) (hx : s.heap.get p = some x) : m x.key = some (x.suffix, x.data) :=
  h.item hp (by rw [hx]; rfl)

theorem Maps.absent (h : Maps s l m) (hkey : ∀ q ∈ l, s.keyAt q ≠ some key) : m key = none := by
  refine Option.eq_none_iff_forall_ne_some.mpr fun v hm => ?_
  obtain ⟨p, hp, hc⟩ := h.entry hm
  refine hkey p hp ?_
  rw [keyAt_content, hc]
  rfl

/-- A new item with a key that no linked item has. -/
theorem Maps.insert (h : Maps s l m) (hx : (s.heap.get p).map Item.content = some (key, v))
    (hnew : ∀ q ∈ l, s.keyAt q ≠ some key) : Maps s (p :: l) (Function.update m key (some v)) where
  item := by
    intro q k w hq hc
    rcases List.mem_cons.mp hq with rfl | hql
    · obtain ⟨rfl, rfl⟩ := Prod.mk.inj (Option.some.inj (hc.symm.trans hx))
      rw [Function.update_self]
    · have hk : k ≠ key := by
        rintro rfl
        refine hnew q hql ?_
        rw [keyAt_content, hc]
        rfl
      rw [Function.update_of_ne hk]
      exact h.item hql hc
  entry := by
    intro k w hm
    by_cases hk : k = key
    · subst hk
      rw [Function.update_self] at hm
      exact ⟨p, List.mem_cons_self, hx.trans (by rw [Option.some.inj hm])⟩
    · rw [Function.update_of_ne hk] at hm
      obtain ⟨q, hq, hc⟩ := h.entry hm
      exact ⟨q, List.mem_cons_of_mem _ hq, hc⟩

/-- Without the item of a key. -/
theorem Maps.erase (h : Maps s (a ++ p :: b) m) (hkey : s.keyAt p = some key)
    (hother : ∀ q ∈ a ++ b, s.keyAt q ≠ some key) :
    Maps s (a ++ b) (Function.update m key none) where
  item := by
    intro q k w hq hc
    have hk : k ≠ key := by
      rintro rfl
      refine hother q hq ?_
      rw [keyAt_content, hc]
      rfl
    rw [Function.update_of_ne hk]
    exact h.item (mem_middle hq) hc
  entry := by
    intro k w hm
    have hk : k ≠ key := by
      rintro rfl
      rw [Function.update_self] at hm
      nomatch hm
    rw [Function.update_of_ne hk] at hm
    obtain ⟨q, hq, hc⟩ := h.entry hm
    have hqp : q ≠ p := by
      rintro rfl
      rw [keyAt_content, hc] at hkey
      exact hk (Option.some.inj hkey)
    rw [List.mem_append, List.mem_cons] at hq
    exact ⟨q, List.mem_append.mpr (hq.imp_right fun hr => hr.resolve_left hqp), hc⟩

end maps

/-! ## Linking over an old item -/

/-- `do_item_link` of an item that is too large. -/
theorem doItemLink_tooLarge (hx : s.heap.get p = some x) (hlarge : 1024 * 1024 ≤ x.nbytes) (now : UInt32)
    (granted : Bool) :
    doItemLink hash s p now granted = .error .tooLarge := by
  rw [doItemLink, Store.deref_ok hx, ok_bind, if_neg (Nat.not_lt.mpr hlarge)]

/-- The keys of the linked items differ. -/
theorem Hashed.key_ne (h : Hashed hash s (a ++ p :: b)) {key : List UInt8} (hkey : s.keyAt p = some key)
    (hq : q ∈ a ++ b) :
    s.keyAt q ≠ some key := by
  intro he
  have hqp : q = p := h.keys q (mem_middle hq) p (by simp) (he.trans hkey.symm)
  exact h.not_mem (hqp ▸ hq)

/-- An item whose key no linked item has is linked. -/
theorem linkOver_new {m : List UInt8 → Option Value} (h : Inv hash s l refs) (hm : Maps s l m)
    (hx : s.heap.get it = some x) (hit : it ∉ l) (hnew : ∀ q ∈ l, s.keyAt q ≠ some x.key) (env : Env) :
    Linking x.nbytes (linkOver hash s it x.key none false env) fun s' =>
      Inv hash s' (it :: l) refs ∧ Maps s' (it :: l) (Function.update m x.key (some (x.suffix, x.data))) ∧
        Same Item.content s s' := by
  have hrun : linkOver hash s it x.key none false env =
      (doItemLink hash s it env.now env.granted >>= fun s => release s none) := rfl
  refine ⟨fun hsmall => ?_, fun hlarge => ?_⟩
  · obtain ⟨s', hs', hinv, hcont⟩ := doItemLink_spec h hx hit hnew hsmall env.now env.granted
    refine ⟨s', by rw [hrun, hs']; rfl, hinv, ?_, hcont⟩
    exact (hm.insert (by rw [hx]; rfl) hnew).congr hcont
  · rw [hrun, doItemLink_tooLarge hx hlarge]
    rfl

/-- An item replaces the linked one with its key, which loses a reference. -/
theorem linkOver_old {m : List UInt8 → Option Value} (h : Inv hash s (a ++ p :: b) refs) (hm : Maps s (a ++ p :: b) m)
    (hx : s.heap.get it = some x) (hit : it ∉ a ++ p :: b) (hkey : s.keyAt p = some x.key) (hr : 0 < refs p)
    (env : Env) :
    Linking x.nbytes (linkOver hash s it x.key (some p) false env) fun s' =>
      Inv hash s' (it :: (a ++ b)) (Function.update refs p (refs p - 1)) ∧
        Maps s' (it :: (a ++ b)) (Function.update m x.key (some (x.suffix, x.data))) ∧
        ∀ q, q ≠ p → (s'.heap.get q).map Item.content = (s.heap.get q).map Item.content := by
  have hrun : linkOver hash s it x.key (some p) false env =
      ((doItemUnlink hash s p >>= fun s => doItemLink hash s it env.now env.granted) >>= fun s => doItemRemove s p) :=
      rfl
  have hother : ∀ q ∈ a ++ b, s.keyAt q ≠ some x.key := fun q hq => h.hashed.key_ne hkey hq
  have hitp : it ≠ p := by
    rintro rfl
    exact hit (by simp)
  have hit' : it ∉ a ++ b := fun hmem => hit (mem_middle hmem)
  obtain ⟨s₁, hs₁, hinv₁, hfree₁⟩ := doItemUnlink_spec h
  -- the old item has a reference, so that unlinking does not free it
  have hcont₁ : Same Item.content s s₁ := by
    intro q
    rw [hfree₁ q, if_neg]
    rintro ⟨-, h0⟩
    omega
  obtain ⟨y, hy, hyk, hys, hyd⟩ := hcont₁.item hx
  have hnew₁ : ∀ q ∈ a ++ b, s₁.keyAt q ≠ some y.key := by
    intro q hq
    rw [same_keyAt hcont₁ Prod.fst fun _ => rfl, hyk]
    exact hother q hq
  have hmap₁ : Maps s₁ (a ++ b) (Function.update m x.key none) := (hm.erase hkey hother).congr hcont₁
  have hbytes : y.nbytes = x.nbytes := congrArg List.length hyd
  refine ⟨fun hsmall => ?_, fun hlarge => ?_⟩
  · obtain ⟨s₂, hs₂, hinv₂, hcont₂⟩ := doItemLink_spec hinv₁ hy hit' hnew₁ (hbytes ▸ hsmall) env.now env.granted
    obtain ⟨s₃, hs₃, hinv₃, hfree₃⟩ := doItemRemove_spec hinv₂ hr
    refine ⟨s₃, by rw [hrun, hs₁, ok_bind, hs₂, ok_bind, hs₃], hinv₃, ?_, fun q hq => ?_⟩
    swap
    · rw [hfree₃ q, if_neg fun hc => hq hc.1, hcont₂ q, hcont₁ q]
    have hp : p ∉ it :: (a ++ b) := by
      intro hmem
      rcases List.mem_cons.mp hmem with rfl | hab
      · exact hitp rfl
      · exact h.hashed.not_mem hab
    have hmap₂ := (hmap₁.insert (by rw [hy, Option.map_some, Item.content, hyk, hys, hyd]) (hyk ▸ hnew₁)).congr hcont₂
    rw [Function.update_idem] at hmap₂
    exact hmap₂.freedIf hfree₃ fun _ => hp
  · rw [hrun, hs₁, ok_bind, doItemLink_tooLarge hy (hbytes ▸ hlarge)]
    rfl

/-! ## Allocating -/

section allocating

variable {key : List UInt8} {flags : Int} {exptime : UInt32} {nbytes : Nat} {mem : Option Ptr} {found : Nat → UInt8}

/-- The item that `do_item_alloc` makes: one reference, and no data yet. -/
def newItem (key : List UInt8) (flags : Int) (exptime : UInt32) (nbytes : Nat) (found : Nat → UInt8) : Item where
  next := none
  prev := none
  hNext := none
  time := 0
  exptime := exptime
  refcount := 1
  linked := false
  deleted := false
  key := key
  suffix := itemSuffix flags nbytes
  data := (List.range nbytes).map found

theorem newItem_nbytes : (newItem key flags exptime nbytes found).nbytes = nbytes := by
  simp [newItem, Item.nbytes]

theorem doItemAlloc_none (h : mem = none ∨ 2 ^ 31 ≤ nbytes) :
    doItemAlloc s key flags exptime nbytes mem found = (s, none) := by
  have hno : (if nbytes < 2 ^ 31 then mem else none) = none := by
    rcases h with h | h
    · rw [h, ite_self]
    · rw [if_neg (Nat.not_lt.mpr h)]
  unfold doItemAlloc
  rw [hno]

theorem doItemAlloc_some (h : nbytes < 2 ^ 31) :
    doItemAlloc s key flags exptime nbytes (some q) found =
      ({ s with heap := s.heap.alloc q (newItem key flags exptime nbytes found) }, some q) := by
  unfold doItemAlloc
  rw [if_pos h]
  rfl

/-- `do_item_alloc` with memory that was free. -/
theorem newItem_inv (h : Inv hash s l refs) (hq : s.heap.get q = none) (hn : 2 ≤ nbytes) (key : List UInt8)
    (flags : Int) (found : Nat → UInt8) :
    Inv hash { s with heap := s.heap.alloc q (newItem key flags 0 nbytes found) } l (Function.update refs q 1) :=
  alloc_inv h hq rfl rfl rfl rfl (by rwa [newItem_nbytes])

end allocating

/-! ## Joining two items -/

theorem length_joined {fst snd : List UInt8} (hf : 2 ≤ fst.length) :
    (joined fst snd).length = fst.length + snd.length - 2 := by
  rw [joined, List.length_append, List.length_take]
  omega

theorem length_joinOf (comm : Comm) {o v : Value} (ho : 2 ≤ o.2.length) (hv : 2 ≤ v.2.length) :
    (joinOf comm o v).2.length = v.2.length + o.2.length - 2 := by
  rw [joinOf]
  split
  · rw [join, length_joined ho, Nat.add_comm]
  · rw [join, length_joined hv]

/-- A copy leaves the data as long as they were. -/
theorem memcpyData_length {data data' src : List UInt8} {ofs : Nat} (h : memcpyData data ofs src = .ok data') :
    data'.length = data.length := by
  rw [memcpyData] at h
  split at h
  · next hle =>
    obtain rfl := Except.ok.inj h
    rw [List.length_append, List.length_append, List.length_take, List.length_drop]
    omega
  · nomatch h

/-- A block is copied to the start, then another one over the end of its line. -/
theorem memcpyData_joined {fst snd d : List UInt8} (hf : 2 ≤ fst.length) (hs : 2 ≤ snd.length)
    (hd : d.length = fst.length + snd.length - 2) :
    ∃ d', memcpyData d 0 fst = .ok d' ∧ memcpyData d' (fst.length - 2) snd = .ok (joined fst snd) := by
  refine ⟨fst ++ d.drop fst.length, ?_, ?_⟩
  · rw [memcpyData, if_pos (by omega), List.take_zero, List.nil_append, Nat.zero_add]
  · have hlen : (fst ++ d.drop fst.length).length = fst.length - 2 + snd.length := by
      rw [List.length_append, List.length_drop]
      omega
    rw [memcpyData, if_pos hlen.ge, List.drop_eq_nil_of_le hlen.le, List.append_nil,
      List.take_append_of_le_length (Nat.sub_le _ _), joined]

/-- There is no memory for the two items. -/
theorem joinItems_none (hx : s.heap.get it = some x) (ho : s.heap.get p = some old) (comm : Comm) {env : Env}
    (hmem : env.mem = none ∨ 2 ^ 31 ≤ x.nbytes + old.nbytes - 2) : joinItems s it p comm env = .ok (s, none) := by
  rw [joinItems, Store.deref_ok hx, ok_bind, Store.deref_ok ho, ok_bind]
  dsimp only
  rw [doItemAlloc_none hmem]
  rfl

/-- The new item of an `append` or a `prepend` is not linked, and has one reference. -/
theorem joinItems_some (h : Inv hash s l refs) (hx : s.heap.get it = some x) (ho : s.heap.get p = some old)
    (comm : Comm)
    {env : Env} (hmem : env.mem = some q) (hq : s.heap.get q = none) (hlt : x.nbytes + old.nbytes - 2 < 2 ^ 31) :
    ∃ s' y, joinItems s it p comm env = .ok (s', some q) ∧ Inv hash s' l (Function.update refs q 1) ∧
      (∀ r, r ≠ q → s'.heap.get r = s.heap.get r) ∧ s'.heap.get q = some y ∧
      y.content = (x.key, joinOf comm (old.suffix, old.data) (x.suffix, x.data)) := by
  have hxs : 2 ≤ x.data.length := (h.marked.items hx).sized
  have hos : 2 ≤ old.data.length := (h.marked.items ho).sized
  have hql : q ∉ l := fun hl => h.hashed.live q hl hq
  have hexp : old.exptime = 0 := (h.marked.items ho).exptime
  rw [joinItems, Store.deref_ok hx, ok_bind, Store.deref_ok ho, ok_bind, hmem, hexp]
  dsimp only
  rw [doItemAlloc_some hlt]
  dsimp only
  rw [Store.deref_ok (Heap.get_alloc_self ..), ok_bind]
  have hsum : 2 ≤ x.nbytes + old.nbytes - 2 := by
    simp only [Item.nbytes]
    omega
  have hinv := newItem_inv h hq hsum x.key (CInt.int32 (strtol old.suffix)) env.found
  generalize hy : newItem x.key (CInt.int32 (strtol old.suffix)) 0 (x.nbytes + old.nbytes - 2) env.found = y at hinv ⊢
  have hyd : y.data.length = x.data.length + old.data.length - 2 := by
    rw [← hy]
    exact newItem_nbytes
  obtain ⟨d, hd, hd'⟩ : ∃ d, memcpyData y.data 0 (if comm = .append then old else x).data = .ok d ∧
      memcpyData d ((if comm = .append then old else x).nbytes - 2) (if comm = .append then x else old).data =
        .ok (joined (if comm = .append then old else x).data (if comm = .append then x else old).data) := by
    refine memcpyData_joined ?_ ?_ ?_ <;> split <;> omega
  rw [hd, ok_bind, hd', ok_bind, Store.write_ok (by simp), ok_bind]
  refine ⟨_,
    { y with data := joined (if comm = .append then old else x).data (if comm = .append then x else old).data }, rfl,
    modify_unlinked hinv hql (fun _ => ⟨rfl, rfl, rfl, rfl⟩) fun _ _ => ?_, fun r hr => ?_, ?_, ?_⟩
  · rw [Item.nbytes, length_joined (by split <;> assumption)]
    split <;> omega
  · rw [Store.get_modify, Heap.get_alloc_of_ne hr]
    simp [hr]
  · rw [Store.get_modify, Heap.get_alloc_self, Option.map_some, if_pos rfl]
  · rw [← hy, joinOf]
    split <;> simp only [Item.content, newItem, join, Item.nbytes, Nat.add_comm]

/-! ## `do_store_item` -/

section storing

variable {m : List UInt8 → Option Value} {comm : Comm} {env : Env}

/-- The command is refused: the map is what it was. -/
def Refused (hash : List UInt8 → UInt32) (s : Store) (l : List Ptr) (refs : Ptr → Nat)
    (m : List UInt8 → Option Value) (it : Ptr) (r : Except Fault (Store × Bool)) : Prop :=
  ∃ s' l', r = .ok (s', false) ∧ Inv hash s' l' refs ∧ Maps s' l' m ∧ Kept (some it) s l s' l'

/-- The command has stored a value for a key. -/
def Stored (hash : List UInt8 → UInt32) (s : Store) (l : List Ptr) (refs : Ptr → Nat)
    (m : List UInt8 → Option Value) (it : Ptr) (key : List UInt8) (v : Value) (r : Store × Bool) : Prop :=
  r.2 = true ∧ ∃ l', Inv hash r.1 l' refs ∧ Maps r.1 l' (Function.update m key (some v)) ∧ Kept (some it) s l r.1 l'

theorem update_refs_cancel {n k : Nat} (hn : k = refs p) :
    ∀ r, refs r = Function.update (Function.update refs p n) p k r := by
  intro r
  rw [Function.update_idem]
  by_cases hr : r = p
  · rw [hr, Function.update_self, hn]
  · rw [Function.update_of_ne hr]

/-- No linked item has the key. -/
theorem doStoreItem_absent (h : Inv hash s l refs) (hm : Maps s l m) (hx : s.heap.get it = some x) (hit : it ∉ l)
    (hkey : ∀ q ∈ l, s.keyAt q ≠ some x.key) (comm : Comm) (env : Env) :
    if comm = .add ∨ comm = .set then
      Linking x.nbytes (doStoreItem hash s it comm env) (Stored hash s l refs m it x.key (x.suffix, x.data))
    else Refused hash s l refs m it (doStoreItem hash s it comm env) := by
  have hget := doItemGetNotedeleted_absent h hkey env.now
  have hlink := linkOver_new h hm hx hit hkey env
  have hstored : ∀ {r}, r = (linkOver hash s it x.key none false env >>= fun s => .ok (s, true)) →
      Linking x.nbytes r (Stored hash s l refs m it x.key (x.suffix, x.data)) := by
    rintro _ rfl
    refine ⟨fun hsmall => ?_, fun hlarge => ?_⟩
    · obtain ⟨s', hs', hinv, hmaps, hcont⟩ := hlink.ok hsmall
      refine ⟨(s', true), by rw [hs']; rfl, rfl, _, hinv, hmaps, fun q _ _ _ => hcont q, fun q hq => ?_⟩
      exact (List.mem_cons.mp hq).elim (fun he => .inr (.inl (congrArg some he.symm))) .inl
    · rw [hlink.tooLarge hlarge]
      rfl
  have hrun : doStoreItem hash s it comm env =
      if comm = .add ∨ comm = .set then linkOver hash s it x.key none false env >>= fun s => .ok (s, true)
      else .ok (s, false) := by
    rw [doStoreItem, Store.deref_ok hx, ok_bind, hget, ok_bind]
    cases comm <;> rfl
  split
  · next hc => exact hstored (hrun.trans (if_pos hc))
  · next hc => exact ⟨s, l, hrun.trans (if_neg hc), h, hm, fun _ _ _ _ => rfl, fun _ hq => .inl hq⟩

/-- `add` where a linked item has the key: it may become the first of the list. -/
theorem doStoreItem_add (h : Inv hash s (a ++ p :: b) refs) (hm : Maps s (a ++ p :: b) m) (hx : s.heap.get it = some x)
    (hkey : s.keyAt p = some x.key) (hr : refs p ≤ 1) (env : Env) :
    Refused hash s (a ++ p :: b) refs m it (doStoreItem hash s it .add env) := by
  obtain ⟨s₁, hs₁, hinv₁, hcont₁⟩ := doItemGetNotedeleted_present h (by simp) hkey (by omega) env.now
  obtain ⟨s₂, l', hs₂, hperm, hinv₂, hcont₂⟩ := doItemUpdate_spec hinv₁ env.now
  obtain ⟨s₃, hs₃, hinv₃, hfree₃⟩ := doItemRemove_spec (p := p) hinv₂ (by rw [Function.update_self]; omega)
  refine ⟨s₃, l', ?_, hinv₃.congr_refs (update_refs_cancel ?_), ?_, fun q hq _ _ => ?_,
    fun q hq => .inl (hperm.mem_iff.mp hq)⟩
  · rw [doStoreItem, Store.deref_ok hx, ok_bind, hs₁, ok_bind]
    dsimp only
    rw [hs₂, ok_bind, hs₃]
    rfl
  · rw [Function.update_self, Nat.add_sub_cancel]
  · exact (((hm.congr hcont₁).congr hcont₂).perm hperm).freedIf hfree₃ fun hc => hc.2
  · have hqp : q ≠ p := fun he => hq (he ▸ by simp)
    rw [hfree₃ q, if_neg fun hc => hqp hc.1, hcont₂ q, hcont₁ q]

/-- `set` and `replace` where a linked item has the key. -/
theorem doStoreItem_over (h : Inv hash s (a ++ p :: b) refs) (hm : Maps s (a ++ p :: b) m) (hx : s.heap.get it = some x)
    (hit : it ∉ a ++ p :: b) (hkey : s.keyAt p = some x.key) (hr : refs p ≤ 1) (hc : comm = .set ∨ comm = .replace)
    (env : Env) :
    Linking x.nbytes (doStoreItem hash s it comm env)
      (Stored hash s (a ++ p :: b) refs m it x.key (x.suffix, x.data)) := by
  obtain ⟨s₁, hs₁, hinv₁, hcont₁⟩ := doItemGetNotedeleted_present h (by simp) hkey (by omega) env.now
  obtain ⟨y, hy, hyk, hys, hyd⟩ := hcont₁.item hx
  have hkey₁ : s₁.keyAt p = some y.key := by
    rw [same_keyAt hcont₁ Prod.fst fun _ => rfl, hyk]
    exact hkey
  have hlink := linkOver_old hinv₁ (hm.congr hcont₁) hy hit hkey₁ (by rw [Function.update_self]; omega) env
  rw [hyk, hys, hyd] at hlink
  have hbytes : y.nbytes = x.nbytes := congrArg List.length hyd
  have hrun : doStoreItem hash s it comm env =
      (linkOver hash s₁ it x.key (some p) false env >>= fun s => .ok (s, true)) := by
    rw [doStoreItem, Store.deref_ok hx, ok_bind, hs₁, ok_bind]
    rcases hc with rfl | rfl <;> rfl
  refine ⟨fun hsmall => ?_, fun hlarge => ?_⟩
  · obtain ⟨s', hs', hinv, hmaps, hcont⟩ := hlink.ok (hbytes ▸ hsmall)
    refine ⟨(s', true), by rw [hrun, hs']; rfl, rfl, _, hinv.congr_refs (update_refs_cancel ?_), hmaps,
      fun q hq _ _ => ?_, fun q hq => ?_⟩
    · rw [Function.update_self, Nat.add_sub_cancel]
    · rw [hcont q fun he => hq (he ▸ by simp), hcont₁ q]
    · exact (List.mem_cons.mp hq).elim (fun he => .inr (.inl (congrArg some he.symm))) fun hab => .inl (mem_middle hab)
  · rw [hrun, hlink.tooLarge (hbytes ▸ hlarge)]
    rfl

/-- The item that `append` and `prepend` make replaces the linked one. -/
theorem joinItems_over (h : Inv hash s (a ++ p :: b) refs) (hm : Maps s (a ++ p :: b) m) (hx : s.heap.get it = some x)
    (ho : s.heap.get p = some old) (comm : Comm) (hkey : old.key = x.key) (hr : 0 < refs p) (hmem : env.mem = some q)
    (hq : s.heap.get q = none) (hlt : x.nbytes + old.nbytes - 2 < 2 ^ 31) :
    ∃ s', joinItems s it p comm env = .ok (s', some q) ∧
      Linking (x.nbytes + old.nbytes - 2) (linkOver hash s' q x.key (some p) false env) fun s'' =>
        Inv hash s'' (q :: (a ++ b)) (Function.update (Function.update refs q 1) p (refs p - 1)) ∧
          Maps s'' (q :: (a ++ b)) (Function.update m x.key
            (some (joinOf comm (old.suffix, old.data) (x.suffix, x.data)))) ∧
          ∀ r, r ≠ p → r ≠ q → (s''.heap.get r).map Item.content = (s.heap.get r).map Item.content := by
  obtain ⟨s', z, hs', hinv, hother, hz, hzx⟩ := joinItems_some h hx ho comm hmem hq hlt
  obtain ⟨hzk, hzv⟩ := Prod.mk.inj hzx
  have hqp : q ≠ p := by
    rintro rfl
    nomatch hq.symm.trans ho
  have hql : q ∉ a ++ p :: b := fun hl => h.hashed.live q hl hq
  have hmap : Maps s' (a ++ p :: b) m := hm.congr_on fun r hr => by rw [hother r fun he => hql (he ▸ hr)]
  have hkey' : s'.keyAt p = some z.key := by
    rw [Store.keyAt, hother p hqp.symm, ho, hzk, ← hkey]
    rfl
  have hval : (z.suffix, z.data) = joinOf comm (old.suffix, old.data) (x.suffix, x.data) := hzv
  have hbytes : z.nbytes = x.nbytes + old.nbytes - 2 := by
    have hd : z.data = (joinOf comm (old.suffix, old.data) (x.suffix, x.data)).2 := congrArg Prod.snd hval
    rw [Item.nbytes, hd]
    exact length_joinOf comm (h.marked.items ho).sized (h.marked.items hx).sized
  have hlink := linkOver_old hinv hmap hz hql hkey' (by rwa [Function.update_of_ne hqp.symm]) env
  rw [hval, hzk, hbytes, Function.update_of_ne hqp.symm] at hlink
  refine ⟨s', hs', fun hsmall => ?_, hlink.tooLarge⟩
  obtain ⟨s'', hs'', hinv'', hmap'', hcont''⟩ := hlink.ok hsmall
  exact ⟨s'', hs'', hinv'', hmap'', fun r hrp hrq => by rw [hcont'' r hrp, hother r hrq]⟩

/-- `append` and `prepend` where a linked item has the key. -/
theorem doStoreItem_join (h : Inv hash s (a ++ p :: b) refs) (hm : Maps s (a ++ p :: b) m) (hx : s.heap.get it = some x)
    (ho : s.heap.get p = some old) (hkey : old.key = x.key) (hr : ∀ p, refs p ≤ 1) (hc : comm.joins = true)
    (hmem : ∀ p, env.mem = some p → s.heap.get p = none) :
    if env.mem = none ∨ 2 ^ 31 ≤ x.nbytes + old.nbytes - 2 then
      Refused hash s (a ++ p :: b) refs m it (doStoreItem hash s it comm env)
    else
      Linking (x.nbytes + old.nbytes - 2) (doStoreItem hash s it comm env)
        (Stored hash s (a ++ p :: b) refs m it x.key (joinOf comm (old.suffix, old.data) (x.suffix, x.data))) := by
  have hp : p ∈ a ++ p :: b := by simp
  have hkeyAt : s.keyAt p = some x.key := by
    rw [Store.keyAt, ho, ← hkey]
    rfl
  obtain ⟨s₁, hs₁, hinv₁, hcont₁⟩ :=
    doItemGetNotedeleted_present h hp hkeyAt (Nat.lt_of_le_of_lt (Nat.succ_le_succ (hr p)) (by decide)) env.now
  have hmap₁ := hm.congr hcont₁
  obtain ⟨y, hy, hyk, hys, hyd⟩ := hcont₁.item hx
  obtain ⟨o, ho₁, hok, hos, hod⟩ := hcont₁.item ho
  have hybytes : y.nbytes = x.nbytes := congrArg List.length hyd
  have hobytes : o.nbytes = old.nbytes := congrArg List.length hod
  have hpos : 0 < Function.update refs p (refs p + 1) p := by
    rw [Function.update_self]
    exact Nat.succ_pos _
  have hrun : ∀ {s₂ o}, joinItems s₁ it p comm env = .ok (s₂, o) → doStoreItem hash s it comm env =
      o.elim (doItemRemove s₂ p >>= fun s => .ok (s, false)) fun newIt =>
        linkOver hash s₂ newIt x.key (some p) false env >>= fun s => doItemRemove s newIt >>= fun s =>
          .ok (s, true) := by
    intro s₂ o hjoin
    rw [doStoreItem, Store.deref_ok hx, ok_bind, hs₁, ok_bind]
    cases comm with
    | append | prepend =>
      dsimp only
      rw [hjoin, ok_bind]
      cases o <;> rfl
    | add | set | replace => cases hc
  split
  · next hno =>
    have hjoin : joinItems s₁ it p comm env = .ok (s₁, none) := joinItems_none hy ho₁ comm (by rwa [hybytes, hobytes])
    obtain ⟨s₂, hs₂, hinv₂, hfree₂⟩ := doItemRemove_spec hinv₁ hpos
    refine ⟨s₂, _, ?_, hinv₂.congr_refs (update_refs_cancel ?_), hmap₁.freedIf hfree₂ fun hc => hc.2,
      fun q hq _ _ => ?_, fun q hq => .inl hq⟩
    · rw [hrun hjoin, Option.elim_none, hs₂]
      rfl
    · rw [Function.update_self, Nat.add_sub_cancel]
    · have hqp : q ≠ p := fun he => hq (he ▸ hp)
      rw [hfree₂ q, if_neg fun hc => hqp hc.1, hcont₁ q]
  · next hno =>
    obtain ⟨hsome, hlt⟩ := not_or.mp hno
    obtain ⟨q, hq⟩ := Option.ne_none_iff_exists'.mp hsome
    have hqfree : s.heap.get q = none := hmem q hq
    -- the new item has a reference of this call, the old one one of the get
    obtain ⟨s₂, hs₂, hlink⟩ := joinItems_over hinv₁ hmap₁ hy ho₁ comm (hok.trans (hkey.trans hyk.symm)) hpos hq
      (hcont₁.get_none.mpr hqfree) (by rw [hybytes, hobytes]; omega)
    rw [hyk, hys, hyd, hos, hod, hybytes, hobytes] at hlink
    have hqp : q ≠ p := by
      rintro rfl
      cases hqfree.symm.trans ho
    have hrq : refs q = 0 := h.marked.dead hqfree
    refine ⟨fun hsmall => ?_, fun hlarge => ?_⟩
    · obtain ⟨s₃, hs₃, hinv₃, hmap₃, hcont₃⟩ := hlink.ok hsmall
      obtain ⟨s₄, hs₄, hinv₄, hfree₄⟩ := doItemRemove_spec (p := q) hinv₃ (by
        rw [Function.update_of_ne hqp, Function.update_self]
        exact Nat.one_pos)
      refine ⟨(s₄, true), ?_, rfl, _, hinv₄.congr_refs fun r => ?_, hmap₃.freedIf hfree₄ fun hc => hc.2,
        fun r hr _ hlive => ?_, fun r hr => ?_⟩
      · rw [hrun hs₂, Option.elim_some, hs₃, ok_bind, hs₄]
        rfl
      · by_cases hrq' : r = q
        · simp [hrq', hrq, hqp]
        · by_cases hrp : r = p
          · simp [hrp, hqp.symm]
          · simp [hrq', hrp]
      · have hrq' : r ≠ q := fun he => hlive (he ▸ hqfree)
        rw [hfree₄ r, if_neg fun hc => hrq' hc.1, hcont₃ r (fun he => hr (he ▸ hp)) hrq', hcont₁ r]
      · rcases List.mem_cons.mp hr with rfl | hab
        · exact .inr (.inr hqfree)
        · exact .inl (mem_middle hab)
    · rw [hrun hs₂, Option.elim_some, hlink.tooLarge hlarge]
      rfl

/-- `do_store_item` does to the map what the command does to the entry of its key. A command that makes an item of
its own is also refused where there is no memory for it. -/
theorem doStoreItem_spec (h : Inv hash s l refs) (hm : Maps s l m) (hx : s.heap.get it = some x) (hit : it ∉ l)
    (hr : ∀ p, refs p ≤ 1) (hmem : ∀ p, env.mem = some p → s.heap.get p = none) (comm : Comm) :
    match comm.stored (m x.key) (x.suffix, x.data) with
    | none => Refused hash s l refs m it (doStoreItem hash s it comm env)
    | some v =>
      if env.Lacks comm v then Refused hash s l refs m it (doStoreItem hash s it comm env)
      else Linking v.2.length (doStoreItem hash s it comm env) (Stored hash s l refs m it x.key v) := by
  rcases find_key s l x.key with ⟨p, hp, hkey⟩ | hno
  · obtain ⟨o, ho, hok⟩ : ∃ o, s.heap.get p = some o ∧ o.key = x.key := Option.map_eq_some_iff.mp hkey
    have hmp : m x.key = some (o.suffix, o.data) := hok ▸ hm.present hp ho
    obtain ⟨a, b, rfl⟩ := List.append_of_mem hp
    rw [hmp]
    have hover : ∀ {comm}, comm = .set ∨ comm = .replace →
        Linking (x.suffix, x.data).2.length (doStoreItem hash s it comm env)
        (Stored hash s (a ++ p :: b) refs m it x.key (x.suffix, x.data)) :=
        fun hc => doStoreItem_over h hm hx hit hkey (hr p) hc env
    have hjoin : ∀ {comm : Comm}, comm.joins = true →
        if env.Lacks comm (joinOf comm (o.suffix, o.data) (x.suffix, x.data)) then
          Refused hash s (a ++ p :: b) refs m it (doStoreItem hash s it comm env)
        else Linking (joinOf comm (o.suffix, o.data) (x.suffix, x.data)).2.length (doStoreItem hash s it comm env)
          (Stored hash s (a ++ p :: b) refs m it x.key (joinOf comm (o.suffix, o.data) (x.suffix, x.data))) := by
      intro comm hc
      have hstore := doStoreItem_join h hm hx ho hok hr hc hmem
      have hlen := length_joinOf comm (o := (o.suffix, o.data)) (v := (x.suffix, x.data)) (h.marked.items ho).sized
        (h.marked.items hx).sized
      simp only [Env.Lacks, hlen, hc, true_and]
      exact hstore
    cases comm with
    | add => exact doStoreItem_add h hm hx hkey (hr p) env
    | set => exact hover (.inl rfl)
    | replace => exact hover (.inr rfl)
    | append => exact hjoin rfl
    | prepend => exact hjoin rfl
  · have habsent := doStoreItem_absent h hm hx hit hno comm env
    rw [hm.absent hno]
    cases comm <;> exact habsent

end storing

end ZeroServ.Mc
