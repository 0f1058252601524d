import ZeroServ.Memcached.Connections

/-!
# The item store is a map

The reference of the item store: a map from keys to flags and data, and of each connection the update whose data it
waits for. The store refines it (`store_refines_map`): in a run in which the memory that the updates ask for is there
and the values they make stay below 1 MB, whatever is answered is what the reference answers, and the process does
not end.
-/

namespace ZeroServ.Mc

open CString Decimal Run

/-- The flags and the data of a key. -/
abbrev Entry := Int × List UInt8

/-- What the store holds of an entry: the flags and the length as text, and the data with the end of its line. -/
def render (v : Entry) : Value := (itemSuffix v.1 (v.2.length + 2), v.2 ++ crlf)

/-- The entry a command makes of the old one and a new one; `none` where it is refused. -/
def Comm.update : Comm → Option Entry → Entry → Option Entry
  | .add, none, new => some new
  | .set, _, new => some new
  | .replace, some _, new => some new
  | .append, some old, new => some (old.1, old.2 ++ new.2)
  | .prepend, some old, new => some (old.1, new.2 ++ old.2)
  | .add, some _, _ | .replace, none, _ | .append, none, _ | .prepend, none, _ => none

/-- An update whose data a connection waits for. -/
structure Update where
  comm : Comm
  key : List UInt8
  flags : Int
  vlen : Nat
  deriving DecidableEq, Repr

/-- What is answered when the data has come, and the new entry of the key. -/
def Update.outcome (u : Update) (old : Option Entry) (data : List UInt8) : Reply × Option Entry :=
  if data.drop (data.length - 2) = crlf then
    match u.comm.update old (u.flags, data.take (data.length - 2)) with
    | some v => (.stored, some v)
    | none => (.notStored, none)
  else (.badDataChunk, none)

/-- The reference: a map, the updates under way, and what was answered. -/
structure Ref where
  map : List UInt8 → Option Entry
  pending : Fd → Option Update
  answers : List Answer

namespace Ref

def init : Ref where
  map := fun _ => none
  pending := fun _ => none
  answers := []

variable (r : Ref)

def step : Event → Ref
  | .accept _ => r
  | .update fd key flags vlen comm _ _ _ =>
    { r with pending := Function.update r.pending fd (some { comm, key, flags := CInt.int32 flags, vlen }) }
  | .complete fd data _ =>
    match r.pending fd with
    | none => r
    | some u =>
      let o := u.outcome (r.map u.key) data
      { map := if o.2.isSome then Function.update r.map u.key o.2 else r.map
        pending := Function.update r.pending fd none
        answers := r.answers ++ [.update o.1] }
  | .get _ key _ => { r with answers := r.answers ++ [.item ((r.map key).map fun v => (key, render v))] }
  | .close fd => { r with pending := Function.update r.pending fd none }

/-- A connection waits for the data of one update at a time, the memory that is asked for is there, and a value that
is stored stays below 1 MB with the end of its line. -/
def Within : Event → Prop
  | .update fd _ _ vlen _ mem _ _ => r.pending fd = none ∧ mem ≠ none ∧ vlen + 2 < 2 ^ 31
  | .complete fd data env =>
    ∃ u ∈ r.pending fd, (u.comm.joins = true → env.mem ≠ none) ∧
      ∀ v ∈ (u.outcome (r.map u.key) data).2, v.2.length + 2 < 1024 * 1024
  | .accept _ | .get _ _ _ | .close _ => True

instance : (e : Event) → Decidable (r.Within e)
  | .update fd _ _ vlen _ mem _ _ => inferInstanceAs (Decidable (r.pending fd = none ∧ mem ≠ none ∧ vlen + 2 < 2 ^ 31))
  | .complete fd data env => inferInstanceAs (Decidable (∃ u ∈ r.pending fd, (u.comm.joins = true → env.mem ≠ none) ∧
      ∀ v ∈ (u.outcome (r.map u.key) data).2, v.2.length + 2 < 1024 * 1024))
  | .accept _ | .get _ _ _ | .close _ => isTrue trivial

end Ref

/-! ## What the store holds of an entry -/

/-- A C `int`. -/
def IsInt (x : Int) : Prop := -2147483648 ≤ x ∧ x < 2147483648

theorem isInt_int32 (x : Int) : IsInt (CInt.int32 x) := ⟨CInt.int32_ge x, CInt.int32_lt x⟩

/-- The flags are read back from the suffix. -/
theorem flags_itemSuffix {f : Int} (hf : IsInt f) (n : Nat) : CInt.int32 (strtol (itemSuffix f n)) = f := by
  have hread : strtol (itemSuffix f n) = f := by
    rw [itemSuffix, strtol_blank]
    exact strtol_intText (by have := hf.1; omega) (by have := hf.2; omega) (by decide) _
  rw [hread, CInt.int32_of_range hf.1 hf.2]

theorem length_render (v : Entry) : (render v).2.length = v.2.length + 2 := by
  rw [render, List.length_append]
  rfl

theorem joined_crlf (a b : List UInt8) : joined (a ++ crlf) b = a ++ b := by
  have hlen : (a ++ crlf).length - 2 = a.length := by
    rw [List.length_append]
    rfl
  rw [joined, hlen, List.take_left]

theorem join_render {o : Entry} (ho : IsInt o.1) {fst snd : List UInt8} :
    join (render o) (fst ++ crlf) (snd ++ crlf) = render (o.1, fst ++ snd) := by
  have hlen : (fst ++ crlf).length + (snd ++ crlf).length - 2 = (fst ++ snd).length + 2 := by
    simp only [List.length_append, crlf, List.length_cons, List.length_nil]
    omega
  rw [join, joined_crlf, hlen, render, flags_itemSuffix ho, render, List.append_assoc]

/-- A command does to what the store holds what it does to the entries. -/
theorem stored_render {o : Option Entry} (ho : ∀ u ∈ o, IsInt u.1) (comm : Comm) (v : Entry) :
    comm.stored (o.map render) (render v) = (comm.update o v).map render := by
  cases o with
  | none => cases comm <;> rfl
  | some u =>
    have hu := ho u rfl
    cases comm with
    | add => rfl
    | set => rfl
    | replace => rfl
    | append => exact congrArg some (join_render hu)
    | prepend => exact congrArg some (join_render hu)

/-- All the flags of the reference are of type `int`. -/
structure Ref.Ints (r : Ref) : Prop where
  map : ∀ k, ∀ v ∈ r.map k, IsInt v.1
  pending : ∀ fd, ∀ u ∈ r.pending fd, IsInt u.flags

theorem ints_update {o : Option Entry} {v u : Entry} {comm : Comm} (ho : ∀ v ∈ o, IsInt v.1) (hv : IsInt v.1)
    (hu : comm.update o v = some u) : IsInt u.1 := by
  have hflags : u.1 = v.1 ∨ ∃ w ∈ o, u.1 = w.1 := by
    cases comm <;> cases o <;> simp only [Comm.update, Option.some.injEq, reduceCtorEq] at hu <;> subst hu <;> simp
  rcases hflags with he | ⟨w, hw, he⟩
  · exact he ▸ hv
  · exact he ▸ ho w hw

theorem ints_outcome {u : Update} {o : Option Entry} {data : List UInt8} (ho : ∀ v ∈ o, IsInt v.1)
    (hu : IsInt u.flags) :
    ∀ v ∈ (u.outcome o data).2, IsInt v.1 := by
  intro v hv
  rw [Update.outcome] at hv
  split at hv
  · split at hv
    · next w hw =>
      obtain rfl : w = v := Option.some.inj hv
      exact ints_update ho hu hw
    · nomatch hv
  · nomatch hv

theorem ints_drop {r : Ref} (h : r.Ints) (fd : Fd) :
    ∀ fd', ∀ u ∈ Function.update r.pending fd none fd', IsInt u.flags := by
  intro fd' u hu
  by_cases he : fd' = fd
  · rw [he, Function.update_self] at hu
    nomatch hu
  · rw [Function.update_of_ne he] at hu
    exact h.pending fd' u hu

theorem ints_step {r : Ref} (h : r.Ints) (e : Event) : (r.step e).Ints := by
  cases e with
  | accept fd => exact h
  | update fd key flags vlen comm mem found now =>
    refine ⟨h.map, fun fd' u hu => ?_⟩
    dsimp only [Ref.step] at hu
    by_cases he : fd' = fd
    · rw [he, Function.update_self] at hu
      rw [Option.mem_some_iff] at hu
      subst hu
      dsimp only
      exact isInt_int32 _
    · rw [Function.update_of_ne he] at hu
      exact h.pending fd' u hu
  | complete fd data env =>
    rw [Ref.step]
    cases hu : r.pending fd with
    | none => exact h
    | some u =>
      refine ⟨fun k v hv => ?_, ints_drop h fd⟩
      dsimp only at hv
      split at hv
      · by_cases hk : k = u.key
        · rw [hk, Function.update_self] at hv
          exact ints_outcome (h.map u.key) (h.pending fd u hu) v hv
        · rw [Function.update_of_ne hk] at hv
          exact h.map k v hv
      · exact h.map k v hv
  | get fd key now => exact ⟨h.map, h.pending⟩
  | close fd => exact ⟨h.map, ints_drop h fd⟩

/-! ## The simulation -/

/-- The update a connection waits for, as its item says it. -/
def Server.pending (w : Server) (fd : Fd) : Option (Comm × List UInt8 × List UInt8 × Nat) :=
  (w.item fd).bind fun p => ((w.store.heap.get p).map Item.content).map fun c =>
    (w.itemComm fd, c.1, c.2.1, c.2.2.length)

/-- An update as its item says it. -/
def Update.inItem (u : Update) : Comm × List UInt8 × List UInt8 × Nat :=
  (u.comm, u.key, itemSuffix u.flags (u.vlen + 2), u.vlen + 2)

/-- The store holds the entries of the reference, and the connections' items its updates. -/
structure Simulates (hash : List UInt8 → UInt32) (w : Server) (r : Ref) : Prop where
  ended : w.ended = none
  answers : w.answers = r.answers
  store : ∃ l, Consistent hash w l fun k => (r.map k).map render
  pending : ∀ fd, w.pending fd = (r.pending fd).map Update.inItem
  ints : r.Ints

variable {hash : List UInt8 → UInt32} {w w' : Server} {r : Ref} {l l' : List Ptr} {m : List UInt8 → Option Value}
    {fd : Fd} {p : Ptr}

theorem pending_of_item {x : Item} (hp : w.item fd = some p) (hx : w.store.heap.get p = some x) :
    w.pending fd = some (w.itemComm fd, x.key, x.suffix, x.nbytes) := by
  rw [Server.pending, hp, Option.bind_some, hx]
  rfl

/-- The update of a connection depends on its item. -/
theorem pending_congr (hitem : w'.item fd = w.item fd) (hcomm : w'.itemComm fd = w.itemComm fd)
    (hs : ∀ p, w.item fd = some p → (w'.store.heap.get p).map Item.content = (w.store.heap.get p).map Item.content) :
    w'.pending fd = w.pending fd := by
  rw [Server.pending, Server.pending, hitem, hcomm]
  cases hp : w.item fd with
  | none => rfl
  | some p => rw [Option.bind_some, Option.bind_some, hs p hp]

/-- An operation leaves the updates of the connections whose items it does not touch. -/
theorem pending_kept {o : Option Ptr} (h : Consistent hash w l m) (hkept : Kept o w.store l w'.store l')
    (hitem : w'.item fd = w.item fd) (hcomm : w'.itemComm fd = w.itemComm fd) (ho : o ≠ none → w.item fd ≠ o) :
    w'.pending fd = w.pending fd := by
  refine pending_congr hitem hcomm fun p hp => ?_
  refine hkept.content p (h.unlinked hp) (fun he => ?_) ?_
  · exact ho (by rw [he]; nofun) (hp.trans he.symm)
  · obtain ⟨x, hx⟩ := h.held hp
    simp [hx]

theorem item_of_pending (h : Consistent hash w l m) : w.pending fd = none ↔ w.item fd = none := by
  rw [Server.pending, Option.bind_eq_none_iff]
  refine ⟨fun hno => ?_, fun hno p hp => by rw [hno] at hp; nomatch hp⟩
  refine Option.eq_none_iff_forall_ne_some.mpr fun p hp => ?_
  obtain ⟨x, hx⟩ := h.held hp
  have hnone := hno p hp
  rw [hx] at hnone
  nomatch hnone

theorem map_update_render (f : List UInt8 → Option Entry) (key : List UInt8) (o : Option Entry) :
    (fun k => (Function.update f key o k).map render) =
      Function.update (fun k => (f k).map render) key (o.map render) := by
  funext k
  by_cases hk : k = key
  · rw [hk, Function.update_self, Function.update_self]
  · rw [Function.update_of_ne hk, Function.update_of_ne hk]

/-- Where the data of an update ends with the end of a line, its item holds the new entry. -/
theorem render_data {f : Int} {n : Nat} {data : List UInt8} (hlen : data.length = n + 2)
    (hend : data.drop (data.length - 2) = crlf) :
    (itemSuffix f (n + 2), data) = render (f, data.take (data.length - 2)) := by
  have htake : (data.take (data.length - 2)).length = n := by
    rw [List.length_take]
    omega
  have hdata : data = data.take (data.length - 2) ++ crlf := by
    rw [← hend, List.take_append_drop]
  rw [render, htake]
  exact congrArg _ hdata

namespace Simulates

variable (h : Simulates hash w r)

include h

theorem accept (hfd : w.isOpen fd = false) : Simulates hash (w.apply hash (.accept fd)) r := by
  obtain ⟨l, hc⟩ := h.store
  refine ⟨h.ended, h.answers, ⟨l, hc.accept hfd⟩, fun fd' => ?_, h.ints⟩
  rw [← h.pending]
  refine pending_congr ?_ rfl fun _ _ => rfl
  rw [Server.apply, ← hc.closed hfd, Function.update_eq_self]

theorem granted {key : List UInt8} {flags vlen : Nat} {comm : Comm} {mem : Option Ptr} {found : Nat → UInt8}
    {now : UInt32}
    (hw : r.Within (.update fd key flags vlen comm mem found now))
    (ha : w.allows (.update fd key flags vlen comm mem found now) = true) :
    Simulates hash (w.apply hash (.update fd key flags vlen comm mem found now))
      (r.step (.update fd key flags vlen comm mem found now)) := by
  obtain ⟨l, hc⟩ := h.store
  obtain ⟨hpending, hmem, hlen⟩ := hw
  obtain ⟨p, rfl⟩ := Option.ne_none_iff_exists'.mp hmem
  obtain ⟨hopen, hfree⟩ := Bool.and_eq_true_iff.mp ha
  have hp := isFree_iff.mp hfree p rfl
  have hitem : w.item fd = none := (item_of_pending hc).mp (by rw [h.pending, hpending]; rfl)
  obtain ⟨hrun, hc'⟩ := hc.granted hitem hopen hp hlen key flags comm found now
  refine ⟨by rw [hrun]; exact h.ended, by rw [hrun]; exact h.answers, ⟨l, hc'⟩, fun fd' => ?_, ints_step h.ints _⟩
  rw [hrun, Ref.step]
  by_cases he : fd' = fd
  · subst he
    rw [pending_of_item (Function.update_self ..) (Heap.get_alloc_self ..)]
    dsimp only
    rw [Function.update_self, Function.update_self, newItem_nbytes, Option.map_some, Update.inItem, newItem]
  · dsimp only
    rw [Function.update_of_ne he, ← h.pending]
    refine pending_congr (Function.update_of_ne he ..) (Function.update_of_ne he ..) fun q hq => ?_
    have hqp : q ≠ p := by
      rintro rfl
      exact hc.free hp fd' hq
    dsimp only
    rw [Heap.get_alloc_of_ne hqp]

theorem get (fd : Fd) (key : List UInt8) (now : UInt32) :
    Simulates hash (w.apply hash (.get fd key now)) (r.step (.get fd key now)) := by
  obtain ⟨l, hc⟩ := h.store
  obtain ⟨s', hrun, hc', hkept⟩ := hc.get fd key now
  refine ⟨by rw [hrun]; exact h.ended, ?_, ⟨l, hc'⟩, fun fd' => ?_, ints_step h.ints _⟩
  · rw [hrun, Ref.step, h.answers, Option.map_map]
    rfl
  · have hpending : (w.apply hash (.get fd key now)).pending fd' = w.pending fd' := by
      rw [hrun]
      exact pending_kept hc hkept rfl rfl fun hno => absurd rfl hno
    exact hpending.trans (h.pending fd')

/-- A connection lets its item go. -/
theorem drop_pending {o : Option Ptr} (hc : Consistent hash w l m) (hitem : w'.item = Function.update w.item fd none)
    (hcomm : w'.itemComm = w.itemComm) (hkept : Kept o w.store l w'.store l') (ho : w.item fd = o) (fd' : Fd) :
    w'.pending fd' = (Function.update r.pending fd none fd').map Update.inItem := by
  by_cases he : fd' = fd
  · rw [he, Function.update_self, Server.pending, hitem, Function.update_self]
    rfl
  · rw [Function.update_of_ne he, ← h.pending]
    refine pending_kept hc hkept (by rw [hitem, Function.update_of_ne he]) (by rw [hcomm]) fun hsome hfd' => ?_
    obtain ⟨p, rfl⟩ := Option.ne_none_iff_exists'.mp hsome
    exact he (hc.single hfd' ho)

theorem close (fd : Fd) : Simulates hash (w.apply hash (.close fd)) (r.step (.close fd)) := by
  obtain ⟨l, hc⟩ := h.store
  obtain ⟨s', hrun, hc', hkept⟩ := hc.close fd
  refine ⟨by rw [hrun]; exact h.ended, by rw [hrun]; exact h.answers, ⟨l, hc'⟩, ?_, ints_step h.ints _⟩
  rw [hrun]
  exact h.drop_pending hc rfl rfl hkept rfl

/-- What the update does to the reference is what its completion does to the store. -/
theorem outcome_eq {u : Update} {data : List UInt8} {env : Env} (hlen : data.length = u.vlen + 2)
    (hmem : u.comm.joins = true → env.mem ≠ none)
    (hsmall : ∀ v ∈ (u.outcome (r.map u.key) data).2, v.2.length + 2 < 1024 * 1024)
    {o : Option (Reply × (List UInt8 → Option Value))}
    (ho : Consistent.Outcome (fun k => (r.map k).map render) u.comm env u.key
      (itemSuffix u.flags (u.vlen + 2), data) o) :
    o = some ((u.outcome (r.map u.key) data).1, fun k => ((if (u.outcome (r.map u.key) data).2.isSome then
      Function.update r.map u.key (u.outcome (r.map u.key) data).2 else r.map) k).map render) := by
  by_cases hend : data.drop (data.length - 2) = crlf
  · have hrender := render_data (f := u.flags) hlen hend
    have hstored := stored_render (h.ints.map u.key) u.comm (u.flags, data.take (data.length - 2))
    rw [Update.outcome, if_pos hend] at hsmall ⊢
    cases hv : u.comm.update (r.map u.key) (u.flags, data.take (data.length - 2)) with
    | none =>
      rw [hv] at hstored
      cases ho with
      | bad hbad => exact absurd hend hbad
      | refused _ _ => rfl
      | stored _ hs _ _ =>
        rw [hrender, hstored] at hs
        nomatch hs
      | tooLarge _ hs _ =>
        rw [hrender, hstored] at hs
        nomatch hs
    | some v =>
      rw [hv] at hstored hsmall
      have hsize : (render v).2.length < 1024 * 1024 := by
        rw [length_render]
        exact hsmall v rfl
      have hnot : ¬env.Lacks u.comm (render v) := by
        rintro ⟨hj, hno | hno⟩
        · exact hmem hj hno
        · omega
      cases ho with
      | bad hbad => exact absurd hend hbad
      | refused _ hno =>
        rw [hrender] at hno
        exact absurd (hno _ hstored) hnot
      | stored _ hs _ _ =>
        rw [hrender, hstored, Option.map_some, Option.some.injEq] at hs
        dsimp only
        rw [Option.isSome_some, if_pos rfl, map_update_render, ← hs]
        rfl
      | tooLarge _ hs hlarge =>
        rw [hrender, hstored, Option.map_some, Option.some.injEq] at hs
        rw [← hs] at hlarge
        omega
  · rw [Update.outcome, if_neg hend]
    cases ho with
    | bad _ => rfl
    | refused hcr _ => exact absurd hcr hend
    | stored hcr _ _ _ => exact absurd hcr hend
    | tooLarge hcr _ _ => exact absurd hcr hend

theorem complete {data : List UInt8} {env : Env} (hw : r.Within (.complete fd data env))
    (ha : w.allows (.complete fd data env) = true) :
    Simulates hash (w.apply hash (.complete fd data env)) (r.step (.complete fd data env)) := by
  obtain ⟨l, hc⟩ := h.store
  obtain ⟨u, hu, hmem, hsmall⟩ := hw
  have hru : r.pending fd = some u := hu
  have hpending := h.pending fd
  rw [hru] at hpending
  obtain ⟨p, hp⟩ : ∃ p, w.item fd = some p := by
    refine Option.ne_none_iff_exists'.mp fun hno => ?_
    rw [(item_of_pending hc).mpr hno] at hpending
    nomatch hpending
  obtain ⟨x, hx⟩ := hc.held hp
  rw [pending_of_item hp hx, Option.map_some, Option.some.injEq, Update.inItem, Prod.mk.injEq, Prod.mk.injEq,
    Prod.mk.injEq] at hpending
  obtain ⟨hcomm, hkey, hsuffix, hbytes⟩ := hpending
  rw [Server.allows, hp, Option.bind_some, hx, Option.all_some, Bool.and_eq_true_iff, decide_eq_true_iff] at ha
  obtain ⟨hopen, hlen⟩ := ha
  obtain ⟨o, ho, hrun⟩ := hc.complete hp hx hlen (isFree_iff.mp (Bool.and_eq_true_iff.mp hopen).2)
  rw [hcomm, hkey, hsuffix] at ho
  have hout := h.outcome_eq (hlen.trans hbytes) hmem hsmall ho
  subst hout
  obtain ⟨s', l', hrun, hc', hkept⟩ := hrun
  have hstep : r.step (.complete fd data env) =
      { map := if (u.outcome (r.map u.key) data).2.isSome then
          Function.update r.map u.key (u.outcome (r.map u.key) data).2 else r.map
        pending := Function.update r.pending fd none
        answers := r.answers ++ [.update (u.outcome (r.map u.key) data).1] } := by
    rw [Ref.step, hru]
  refine ⟨by rw [hrun]; exact h.ended, ?_, ⟨l', hstep ▸ hc'⟩, ?_, ints_step h.ints _⟩
  · rw [hrun, hstep, h.answers]
  · rw [hrun, hstep]
    exact h.drop_pending hc rfl rfl hkept hp

end Simulates

/-! ## Runs -/

theorem simulates_init : Simulates hash .init .init where
  ended := rfl
  answers := rfl
  store := ⟨[], consistent_init⟩
  pending _ := rfl
  ints := ⟨nofun, nofun⟩

theorem simulates_step {e : Event} (h : Simulates hash w r) (hs : w.step hash e = some w') (hw : r.Within e) :
    Simulates hash w' (r.step e) := by
  obtain ⟨-, ha, rfl⟩ := step_eq_some hs
  cases e with
  | accept fd => exact h.accept (by simpa [Server.allows] using ha)
  | update fd key flags vlen comm mem found now => exact h.granted hw ha
  | complete fd data env => exact h.complete hw ha
  | get fd key now => exact h.get fd key now
  | close fd => exact h.close fd

/-- The store is a map: whatever is answered in a run is what the reference answers, and the process does not end. -/
theorem store_refines_map (hash : List UInt8 → UInt32) (es : List Event) {w : Server}
    (h : AllSteps (fun r e => some (Ref.step r e)) (fun r e _ => r.Within e) .init es)
    (hw : exec (Server.step hash) .init es = some w) :
    w.ended = none ∧ w.answers = (es.foldl Ref.step .init).answers := by
  have hsim : Simulates hash w (es.foldl Ref.step .init) :=
    exec_refines (fun _ _ _ _ hr hs hc => simulates_step hr hs hc) simulates_init h hw
  exact ⟨hsim.ended, hsim.answers⟩

/-- Two connections set a key, append to it, and are refused to add it. -/
theorem store_refines_shared_key :
    let es : List Event :=
      [.accept 5, .accept 6, .update 5 [97] 7 1 .set (some 100) (fun _ => 0) 1,
        .update 6 [97] 9 1 .append (some 200) (fun _ => 0) 1,
        .complete 5 [120, 13, 10] ⟨2, true, none, fun _ => 0⟩,
        .complete 6 [121, 13, 10] ⟨2, true, some 300, fun _ => 0⟩,
        .update 5 [97] 0 0 .add (some 400) (fun _ => 0) 3, .complete 5 [13, 10] ⟨3, true, none, fun _ => 0⟩,
        .get 6 [97] 4]
    ∃ w, exec (Server.step fun _ => 0) .init es = some w ∧
    (w.ended = none ∧ w.answers = (es.foldl Ref.step .init).answers) ∧
      (es.foldl Ref.step .init).answers = [.update .stored, .update .stored, .update .notStored,
        .item (some ([97], [32, 55, 32, 50, 13, 10], [120, 121, 13, 10]))] := by
  intro es
  have hrun : exec (Server.step fun _ => 0) .init es = some _ := rfl
  exact ⟨_, hrun, store_refines_map _ es (by decide +kernel) hrun, by decide +kernel⟩

end ZeroServ.Mc
