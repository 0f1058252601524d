import ZeroServ.Memcached.Answers
import ZeroServ.Memcached.Map
import ZeroServ.Memcached.Pipeline

/-!
# What is acknowledged is what `get` returns

`Told` is kept beside the world: of each key what its clients were told is stored, with the flags in the words of the
line that gave them. The store agrees with it in every run (`agrees_always`), up to the flags, which are an `int`
there. So a `get` returns what was acknowledged exactly if the flags are less than 2^31 and the answer fits the
output buffer (`get_returns_iff`).
-/

namespace ZeroServ.Mc

open Run CString Decimal

/-! ## Acknowledgements -/

/-- What is stored under a key: the flags as they were given, and the data. -/
structure Ack where
  flags : List UInt8
  data : List UInt8
  deriving DecidableEq

/-- What an update that is answered `STORED` makes of what was stored before. -/
def Comm.ack : Comm → Option Ack → Ack → Ack
  | .append, some old, new => { old with data := old.data ++ new.data }
  | .prepend, some old, new => { old with data := new.data ++ old.data }
  | .add, _, new | .set, _, new | .replace, _, new | .append, none, new | .prepend, none, new => new

/-- What was acknowledged: the entries of the keys, and the words of the last command of each connection, which is
the update whose data it waits for, if it does. -/
structure Told where
  entry : List UInt8 → Option Ack
  words : Fd → List (List UInt8)

/-- The words of the command in a connection's input buffer. -/
def Conn.words (c : Conn) : List (List UInt8) := (tokenizeCommand (commandOf (nextLine c.ib.bytes)) MAX_TOKENS).1

namespace World

variable (w : World)

/-- The call that led to this world has appended a text to the output buffer of a connection. -/
def Answered (fd : Fd) (c : Conn) (text : List UInt8) : Prop := (w.conn fd).map Conn.ob = some (c.ob.put text)

instance (fd : Fd) (c : Conn) (text : List UInt8) : Decidable (w.Answered fd c text) := by
  unfold Answered
  infer_instance

/-- The connection whose turn a call is. -/
def whose : Call → Option (Fd × Conn)
  | .turn _ => w.running.bind fun fd => (w.conn fd).map fun c => (fd, c)
  | .accept _ _ | .read _ | .write _ _ => none

/-- The `get` that a call processes: its connection and its key. -/
def asked (e : Call) : Option (Fd × Conn × List UInt8) :=
  (w.whose e).bind fun (fd, c) =>
    if c.state = .read ∧ 10 ∈ c.ib.bytes ∧ 3 ≤ c.words.length + 1 ∧
        (c.words.headD [] = lit "get" ∨ c.words.headD [] = lit "bget") then
      some (fd, c, c.words.getD 1 [])
    else none

end World

/-- What a turn of a connection acknowledges: data that it has read and stored, or that a `set` found no memory and
has removed the key. -/
def Told.turn (t : Told) (w w' : World) (fd : Fd) (c : Conn) : Told :=
  match c.state with
  | .read =>
    if 10 ∈ c.ib.bytes then
      { entry :=
          if updateOf c.words = some .set ∧ w'.Answered fd c (Texts.outOfMemory ++ crlf) then
            Function.update t.entry (c.words.getD 1 []) none
          else t.entry
        words := Function.update t.words fd c.words }
    else t
  | .nread =>
    match c.item.bind w.store.heap.get, updateOf (t.words fd) with
    | some x, some comm =>
      let key := (t.words fd).getD 1 []
      let new : Ack := ⟨(t.words fd).getD 2 [], x.data.take (x.nbytes - 2)⟩
      if c.rlbytes = 0 ∧ w'.Answered fd c (Texts.stored ++ crlf) then
        { t with entry := Function.update t.entry key (some (comm.ack (t.entry key) new)) }
      else t
    | _, _ => t
  | .listening | .write | .swallow | .closing | .mwrite => t

def Told.step (t : Told) (w w' : World) (e : Call) : Told := (w.whose e).elim t fun (fd, c) => t.turn w w' fd c

/-- A world, and what its clients were told. -/
abbrev Witnessed := World × Told

def Witnessed.init (pid : UInt32) : Witnessed := (.init pid, ⟨fun _ => none, fun _ => []⟩)

def Witnessed.step (hash : List UInt8 → UInt32) (t : Witnessed) (e : Call) : Option Witnessed :=
  (t.1.step hash e).map fun w' => (w', t.2.step t.1 w' e)

/-- The answer to a `get` that finds data under flags. -/
def valueText (key : List UInt8) (flags : Nat) (data : List UInt8) : List UInt8 :=
  lit "VALUE " ++ key ++ 32 :: natText flags ++ 32 :: natText data.length ++ crlf ++ data ++ crlf ++ lit "END\r\n"

/-- Each `get` of what was acknowledged with a decimal of 32 bits for its flags is answered with that. -/
def Witnessed.Returns (t : Witnessed) (e : Call) (t' : Witnessed) : Prop :=
  ∀ r ∈ t.1.asked e, ∀ f < 2 ^ 32, ∀ data, t.2.entry r.2.2 = some ⟨natText f, data⟩ →
    t'.1.Answered r.1 r.2.1 (valueText r.2.2 f data)

/-- Each such `get` finds flags that fit a C `int`, and room for its answer. -/
def Witnessed.Fits (t : Witnessed) (e : Call) : Prop :=
  ∀ r ∈ t.1.asked e, ∀ f < 2 ^ 32, ∀ data, t.2.entry r.2.2 = some ⟨natText f, data⟩ →
    f < 2 ^ 31 ∧ r.2.1.ob.r + (valueText r.2.2 f data).length ≤ MC_BUFFER_SIZE

variable {hash : List UInt8 → UInt32} {s s' : Store} {l : List Ptr} {m : List UInt8 → Option Value} {refs : Ptr → Nat}
  {others : Ptr → Prop} {w w' : World} {t : Told} {fd : Fd} {c c' : Conn} {v v' : View} {env : Env}
  {words : List (List UInt8)}

/-! ## The store and the acknowledgements -/

/-- An acknowledgement as the store has it. -/
def Ack.entry (a : Ack) : Entry := (CInt.int32 (strtoul a.flags), a.data)

def Ack.value (a : Ack) : Value := render a.entry

/-- A connection that waits for data holds the item that its last command gave it. -/
def Pends (s : Store) (c : Conn) (words : List (List UInt8)) : Prop :=
  c.state = .nread → ∀ p, c.item = some p → ∃ x, s.heap.get p = some x ∧ updateOf words = some c.itemComm ∧
    x.key = words.getD 1 [] ∧
    x.suffix = itemSuffix (CInt.int32 (strtoul (words.getD 2 []))) x.nbytes

/-- The store has what was acknowledged. -/
structure Told.Agrees (hash : List UInt8 → UInt32) (t : Told) (w : World) : Prop where
  entries : ∀ key, w.store.lookup hash key = (t.entry key).map Ack.value
  pends : ∀ {fd c}, w.conn fd = some c → Pends w.store c (t.words fd)

/-- An update that is stored over what was acknowledged stores what is acknowledged of it. -/
theorem stored_ack {comm : Comm} {o : Option Ack} {new : Ack} {u : Value}
    (h : comm.stored (o.map Ack.value) new.value = some u) :
    u = (comm.ack o new).value := by
  have hints : ∀ e ∈ o.map Ack.entry, IsInt e.1 := by
    intro e he
    obtain ⟨a, -, rfl⟩ := Option.map_eq_some_iff.mp he
    dsimp only [Ack.entry]
    exact isInt_int32 _
  have hrender := stored_render hints comm new.entry
  rw [Option.map_map] at hrender
  have hupdate : (comm.update (o.map Ack.entry) new.entry).map render = some u := hrender.symm.trans h
  obtain ⟨e, he, rfl⟩ := Option.map_eq_some_iff.mp hupdate
  have hentry : e = (comm.ack o new).entry := by
    cases comm <;> cases o <;> simp only [Option.map_none, Option.map_some, Comm.update, Option.some.injEq,
      reduceCtorEq] at he <;>
      subst he <;> simp only [Comm.ack, Ack.entry]
  rw [hentry]
  rfl

theorem Pends.of_state (h : c.state ≠ .nread) : Pends s c words := fun hn => absurd hn h

theorem Pends.congr (h : Pends s c words) (hstate : c'.state = c.state) (hitem : c'.item = c.item)
    (hcomm : c'.itemComm = c.itemComm)
    (hs : ∀ p, c.item = some p → (s'.heap.get p).map Item.content = (s.heap.get p).map Item.content) :
    Pends s' c' words := by
  intro hn p hp
  rw [hitem] at hp
  obtain ⟨x, hx, hupdate, hkey, hsuffix⟩ := h (hstate ▸ hn) p hp
  obtain ⟨y, hy, hyk, hys, hyd⟩ := item_of_content ((hs p hp).trans (congrArg _ hx))
  refine ⟨y, hy, by rw [hcomm]; exact hupdate, hyk.trans hkey, ?_⟩
  rw [hys, hsuffix, Item.nbytes, Item.nbytes, hyd]

/-! ## What a turn acknowledges -/

theorem turn_idle (hread : ¬(c.state = .read ∧ 10 ∈ c.ib.bytes)) (hnread : ¬(c.state = .nread ∧ c.rlbytes = 0)) :
    t.turn w w' fd c = t := by
  unfold Told.turn
  cases hstate : c.state with
  | read => rw [if_neg fun hline => hread ⟨hstate, hline⟩]
  | nread =>
    dsimp only
    split
    · rw [if_neg fun hc => hnread ⟨hstate, hc.1⟩]
    · rfl
  | listening | write | swallow | closing | mwrite => rfl

theorem turn_command (hstate : c.state = .read) (hline : 10 ∈ c.ib.bytes) :
    t.turn w w' fd c =
      { entry :=
          if updateOf c.words = some .set ∧ w'.Answered fd c (Texts.outOfMemory ++ crlf) then
            Function.update t.entry (c.words.getD 1 []) none
          else t.entry
        words := Function.update t.words fd c.words } := by
  rw [Told.turn, hstate]
  exact if_pos hline

theorem turn_words_ne {fd₁ : Fd} (hne : fd₁ ≠ fd) : (t.turn w w' fd c).words fd₁ = t.words fd₁ := by
  unfold Told.turn
  split
  · split
    · exact Function.update_of_ne hne ..
    · rfl
  · split
    · split <;> rfl
    · rfl
  all_goals rfl

/-- The words of the connection do not change while it waits for data. -/
theorem turn_words_nread (hstate : c.state ≠ .read) : (t.turn w w' fd c).words = t.words := by
  unfold Told.turn
  split
  · next hread => exact absurd hread hstate
  · split
    · split <;> rfl
    · rfl
  all_goals rfl

/-- A connection whose output buffer is as before was answered nothing. -/
theorem not_answered {text : List UInt8} (hob : ∀ c', w'.conn fd = some c' → c'.ob = c.ob) (htext : text ≠ []) :
    ¬w'.Answered fd c text := by
  intro h
  obtain ⟨c', hc', hput⟩ := Option.map_eq_some_iff.mp h
  rw [hob c' hc', ← Buf.put_nil c.ob, Buf.put_put, List.nil_append] at hput
  exact htext (Buf.put_inj hput).symm

/-! ## The entries after a turn -/

/-- What a command that is answered does to the entries: a `set` that is told that there is no memory removes its
key. -/
theorem command_lookup (h : Stocked hash v.store l m refs) {command reply : List UInt8}
    (hrun : v.processCommand hash command env = .ok v') (hans : Answered v.c reply v'.c) (key : List UInt8) :
    v'.store.lookup hash key =
      (if updateOf (tokenizeCommand command MAX_TOKENS).1 = some .set ∧ reply = Texts.outOfMemory ++ crlf then
        Function.update (v.store.lookup hash) ((tokenizeCommand command MAX_TOKENS).1.getD 1 []) none
      else v.store.lookup hash) key := by
  have hlookup : v.store.lookup hash = m := funext h.lookup
  have hreply : ∀ {text}, Answered v.c text v'.c → reply = text := by
    intro text htext
    exact hans.ob_iff.mp (htext.ob_iff.mpr rfl)
  cases hupdate : updateOf (tokenizeCommand command MAX_TOKENS).1 with
  | none =>
    rw [if_neg fun hc => nomatch hc.1]
    rcases (processCommand_single hupdate hrun).2 with hstore | ⟨it, hget⟩
    · rw [hstore]
    · obtain ⟨s', hs', hinv, hmaps, -⟩ := processGetCommand_spec h.inv h.maps h.linked _ env.now
      obtain ⟨rfl, -⟩ := Prod.mk.inj (Except.ok.inj (hs'.symm.trans hget))
      rw [hmaps.lookup hinv, hlookup]
  | some comm =>
    rw [processCommand_updateOf hupdate] at hrun
    rcases processUpdateCommand_cases hrun with ⟨hbad, hstore⟩ | ⟨hno, hfail⟩ | hacc
    · have hdiff : Texts.badFormat ++ crlf ≠ Texts.outOfMemory ++ crlf := by decide
      rw [hreply hbad, if_neg fun hc => hdiff hc.2, hstore]
    · obtain ⟨s', l', hs', hinv, hmaps, -⟩ := failedAlloc_spec h.inv h.maps h.linked _ comm env.now
      obtain rfl := Except.ok.inj (hs'.symm.trans hfail)
      rw [hmaps.lookup hinv, hlookup, hreply hno]
      by_cases hset : comm = .set
      · rw [if_pos hset, if_pos ⟨congrArg some hset, rfl⟩]
      · rw [if_neg hset, if_neg fun hc => hset (Option.some.inj hc.1)]
    · obtain ⟨it, -, -, -, hc⟩ := hacc.alloc
      have hob : v.c.ob.put reply = v.c.ob := by
        have hob := congrArg Conn.ob (hans.conn.symm.trans hc)
        exact hob
      rw [← Buf.put_nil v.c.ob, Buf.put_put, List.nil_append] at hob
      exact absurd (Buf.put_inj hob) hans.ne_nil

/-- A new item is not linked. -/
theorem alloc_lookup (h : Stocked hash s l m refs) {p : Ptr} (hp : s.heap.get p = none) {nbytes : Nat} (hn : 2 ≤ nbytes)
    (key : List UInt8) (flags : Int) (found : Nat → UInt8) :
    { s with heap := s.heap.alloc p (newItem key flags 0 nbytes found) }.lookup hash = s.lookup hash := by
  have hmaps : Maps { s with heap := s.heap.alloc p (newItem key flags 0 nbytes found) } l m := by
    refine h.maps.congr_on fun q hq => ?_
    have hqp : q ≠ p := by
      rintro rfl
      exact h.inv.hashed.live q hq hp
    rw [Heap.get_alloc_of_ne hqp]
  funext k
  rw [hmaps.lookup (newItem_inv h.inv hp hn key flags found), h.lookup]

/-- Data come to an item that is not linked. -/
theorem modify_lookup (h : Stocked hash s l m refs) {p : Ptr} (hone : refs p = 1) {x : Item}
    (hx : s.heap.get p = some x)
    {data : List UInt8} (hlen : data.length = x.nbytes) :
    (s.modify p fun y => { y with data }).lookup hash = s.lookup hash := by
  have hl := h.unlinked hone
  have hinv : Inv hash (s.modify p fun y => { y with data }) l refs := by
    refine modify_unlinked h.inv hl (fun _ => ⟨rfl, rfl, rfl, rfl⟩) fun y _ => ?_
    rw [Item.nbytes, hlen]
    exact (h.inv.marked.items hx).sized
  have hmaps : Maps (s.modify p fun y => { y with data }) l m := by
    refine h.maps.congr_on fun q hq => ?_
    have hqp : q ≠ p := by
      rintro rfl
      exact hl hq
    rw [Store.get_modify]
    simp [hqp]
  funext k
  rw [hmaps.lookup hinv, h.lookup]

/-- A connection lets its item go. -/
theorem release_lookup (h : Holds hash s l m refs others c) (hrun : release s c.item = .ok s') :
    s'.lookup hash = s.lookup hash := by
  cases hp : c.item with
  | none =>
    rw [hp] at hrun
    obtain rfl := Except.ok.inj hrun
    rfl
  | some p =>
    have hone := (h.own hp).1
    obtain ⟨s₁, hs₁, hinv, hfree⟩ := doItemRemove_spec (p := p) h.inv (by omega)
    rw [hp] at hrun
    obtain rfl := Except.ok.inj (hs₁.symm.trans hrun)
    funext k
    rw [(h.maps.freedIf hfree fun hc => hc.2).lookup hinv, h.lookup]

theorem completion_stored {comm : Comm} {old : Option Value} {new : Value}
    (h : comm.completion old env new = some .stored) :
    new.2.drop (new.2.length - 2) = crlf ∧ ∃ u, comm.stored old new = some u := by
  unfold Comm.completion at h
  split at h
  · next hend =>
    refine ⟨hend, ?_⟩
    cases hs : comm.stored old new with
    | none =>
      rw [hs] at h
      nomatch h
    | some u => exact ⟨u, rfl⟩
  · nomatch h

/-- A completed update stores what is acknowledged of it. -/
theorem complete_lookup {it : Ptr} {reply : Reply} (h : Holds hash s l m refs others c) (hstate : c.state = .nread)
    (hit : c.item = some it) (hmem : ∀ p, env.mem = some p → s.heap.get p = none) (hpends : Pends s c words)
    {entry : List UInt8 → Option Ack} (hentry : ∀ key, m key = (entry key).map Ack.value)
    (hrun : completeNread hash s it c.itemComm env = .ok (s', reply)) :
    ∃ x, s.heap.get it = some x ∧ updateOf words = some c.itemComm ∧ ∀ key, s'.lookup hash key =
      ((if reply = .stored then
          Function.update entry (words.getD 1 [])
            (some (c.itemComm.ack (entry (words.getD 1 [])) ⟨words.getD 2 [], x.data.take (x.nbytes - 2)⟩))
        else entry) key).map Ack.value := by
  obtain ⟨x, hx, hupdate, hkey, hsuffix⟩ := hpends hstate it hit
  refine ⟨x, hx, hupdate, ?_⟩
  intro key
  have hcases := h.completeNread_cases hx (h.own hit).1 hmem c.itemComm
  split at hcases
  · next reply' hcomp =>
    obtain ⟨r, hr, hreply, l', hinv, hmaps, -⟩ := hcases
    obtain rfl := Except.ok.inj (hr.symm.trans hrun)
    obtain rfl : reply = reply' := hreply
    rw [hmaps.lookup hinv]
    by_cases hst : reply = .stored
    · subst hst
      obtain ⟨hend, u, hu⟩ := completion_stored hcomp
      -- the item is the acknowledgement of the command's own words
      have hnew : (x.suffix, x.data) = Ack.value ⟨words.getD 2 [], x.data.take (x.nbytes - 2)⟩ := by
        have hsized : 2 ≤ x.data.length := (h.inv.marked.items hx).sized
        have hlen : x.data.length = (x.nbytes - 2) + 2 := by
          rw [Item.nbytes]
          omega
        have hrender := render_data (f := CInt.int32 (strtoul (words.getD 2 []))) hlen hend
        rw [hsuffix, show x.nbytes = x.nbytes - 2 + 2 from hlen]
        exact hrender
      rw [if_pos rfl, if_pos rfl, hu, ← hkey]
      rw [hnew, hentry] at hu
      by_cases hk : key = x.key
      · rw [hk, Function.update_self, Function.update_self, Option.map_some, stored_ack hu]
      · rw [Function.update_of_ne hk, Function.update_of_ne hk, hentry]
    · rw [if_neg hst, if_neg hst, hentry]
  · cases hcases.symm.trans hrun

/-! ## The turn of a connection -/

theorem answered_back {next : Next} {text : List UInt8} (hnext : next ≠ .closed) :
    (w.back fd (.ok (v', next))).Answered fd c text ↔ v'.c.ob = c.ob.put text := by
  rw [World.Answered]
  dsimp only [World.back]
  rw [Function.update_self, if_neg hnext, Option.map_some, Option.some.injEq]

theorem replyText_stored_iff (reply : Reply) :
    View.replyText reply ++ crlf = Texts.stored ++ crlf ↔ reply = .stored := by
  cases reply <;> decide

/-- After a turn the store has what was acknowledged. -/
theorem Turned.entries {next : Next} (ht : Turned hash v env v' next) (h : Holds hash v.store l m refs others v.c)
    (hmem : ∀ p, env.mem = some p → v.store.heap.get p = none) (hs : w.store = v.store)
    (ha : ∀ key, v.store.lookup hash key = (t.entry key).map Ack.value) (hpends : Pends v.store v.c (t.words fd))
    (hw' : next ≠ .closed → ∀ text, w'.Answered fd v.c text ↔ v'.c.ob = v.c.ob.put text) (key : List UInt8) :
    v'.store.lookup hash key = ((t.turn w w' fd v.c).entry key).map Ack.value := by
  have hidle : ¬(v.c.state = .read ∧ 10 ∈ v.c.ib.bytes) → ¬(v.c.state = .nread ∧ v.c.rlbytes = 0) →
      v'.store.lookup hash = v.store.lookup hash →
      v'.store.lookup hash key = ((t.turn w w' fd v.c).entry key).map Ack.value := by
    intro hread hnread hstore
    rw [turn_idle hread hnread, hstore, ha]
  have hno : ∀ {state}, v.c.state = state → state ≠ .read → ¬(v.c.state = .read ∧ 10 ∈ v.c.ib.bytes) :=
    fun hstate hne hc => hne (hstate.symm.trans hc.1)
  cases ht with
  | @reply reply v₁ hstate hline hrun hans =>
    have hlookup := command_lookup h.toStocked hrun hans key
    have hiff : w'.Answered fd v.c (Texts.outOfMemory ++ crlf) ↔ reply = Texts.outOfMemory ++ crlf :=
      (hw' nofun _).trans hans.ob_iff
    rw [turn_command hstate hline]
    simp only [hiff]
    rw [hlookup, Conn.words]
    split
    · by_cases hk : key = (tokenizeCommand (commandOf (nextLine v.c.ib.bytes)) MAX_TOKENS).1.getD 1 []
      · rw [hk, Function.update_self, Function.update_self, Option.map_none]
      · rw [Function.update_of_ne hk, Function.update_of_ne hk, ha]
    · rw [ha]
  | @await comm v₁ _ hstate hline hrun hacc hnext =>
    obtain ⟨it, hit, -, hstore, hc⟩ := hacc.alloc
    have hsilent : ¬w'.Answered fd v.c (Texts.outOfMemory ++ crlf) := by
      rw [hw' (by rw [hnext]; split <;> nofun)]
      dsimp only
      rw [hc, ← Buf.put_nil v.c.ob, Buf.put_put, List.nil_append]
      intro hput
      exact absurd (Buf.put_inj hput) (by decide)
    rw [turn_command hstate hline]
    dsimp only
    rw [if_neg fun hc => hsilent hc.2, hstore, alloc_lookup h.toStocked (hmem it hit) (Nat.le_add_left 2 _), ha]
  | network hstate hline hstore hnet =>
    refine hidle (fun hc => hline hc.2) (fun hc => ?_) (by rw [hstore])
    nomatch hc.1.symm.trans hstate
  | @complete it reply v₁ hstate hrl hit hrun hans =>
    obtain ⟨x, hx, hupdate, hlookup⟩ :=
      complete_lookup h hstate hit hmem hpends (fun k => (h.lookup k).symm.trans (ha k)) hrun
    have hiff : w'.Answered fd v.c (Texts.stored ++ crlf) ↔ reply = .stored := by
      rw [hw' nofun, ← replyText_stored_iff]
      exact hans.ob_iff
    have hitem : v.c.item.bind w.store.heap.get = some x := by rw [hit, Option.bind_some, hs, hx]
    rw [Told.turn, hstate, hitem, hupdate]
    simp only [hrl, hiff, true_and]
    rw [hlookup]
    split <;> rfl
  | @copy it x data hstate hrl hne hit hx hdata =>
    refine hidle (hno hstate nofun) (fun hc => hrl hc.2)
      (modify_lookup h.toStocked (h.own hit).1 hx (memcpyData_length hdata))
  | recvd hstate hrl hemp hne hlen hs hroom hstore hc =>
      exact hidle (hno hstate nofun) (fun hc => hrl hc.2) (by rw [hstore])
  | failed hstate hrl hemp hs hstore hc => exact hidle (hno hstate nofun) (fun hc => hrl hc.2) (by rw [hstore])
  | closed hstate hrun hc =>
    refine hidle (hno hstate nofun) (fun hc => ?_) (release_lookup h hrun)
    nomatch hc.1.symm.trans hstate
  | spin hstate => exact hidle (fun hc => hstate.1 hc.1) (fun hc => hstate.2.1 hc.1) rfl

/-- The update that a command is taken for is that of its words. -/
theorem accepted_update {command : List UInt8} {comm : Comm} (hstate : v.c.state = .read)
    (hrun : v.processCommand hash command env = .ok v')
    (hacc : Accepted v (tokenizeCommand command MAX_TOKENS).1 comm env v') :
    ∃ comm, updateOf (tokenizeCommand command MAX_TOKENS).1 = some comm ∧
      Accepted v (tokenizeCommand command MAX_TOKENS).1 comm env v' := by
  have hwaits := hacc.state
  have hans : ∀ {reply}, ¬Answered v.c reply v'.c := by
    intro reply hans
    nomatch (hans.state_eq.trans hstate).symm.trans hwaits
  cases hupdate : updateOf (tokenizeCommand command MAX_TOKENS).1 with
  | none =>
    obtain ⟨⟨reply, hreply⟩, -⟩ := processCommand_single hupdate hrun
    exact absurd hreply hans
  | some comm =>
    rw [processCommand_updateOf hupdate] at hrun
    rcases processUpdateCommand_cases hrun with ⟨hreply, -⟩ | ⟨hreply, -⟩ | hacc
    · exact absurd hreply hans
    · exact absurd hreply hans
    · exact ⟨comm, rfl, hacc⟩

/-- After a turn the connection holds what its last command gave it, if it waits for data. -/
theorem Turned.pends {next : Next} (ht : Turned hash v env v' next) (hpends : Pends v.store v.c (t.words fd)) :
    Pends v'.store v'.c ((t.turn w w' fd v.c).words fd) := by
  cases ht with
  | reply hstate hline hrun hans =>
    refine .of_state fun hn => ?_
    cases (hans.state_eq.trans hstate).symm.trans hn
  | @await comm v₁ _ hstate hline hrun hacc hnext =>
    obtain ⟨comm, hupdate, hacc⟩ := accepted_update hstate hrun hacc
    obtain ⟨it, hit, -, hstore, hc⟩ := hacc.alloc
    intro _ p hp
    dsimp only at hp ⊢
    rw [hc] at hp ⊢
    obtain rfl : it = p := Option.some.inj hp
    rw [turn_command hstate hline, hstore]
    dsimp only
    rw [Function.update_self]
    refine ⟨_, Heap.get_alloc_self .., hupdate, rfl, ?_⟩
    rw [newItem_nbytes, newItem, Numbers.read, Conn.words]
  | network hstate hline hstore hnet => exact .of_state (hnet.not_waiting (by simp [hstate]))
  | complete =>
    intro _ p hp
    cases hp
  | @copy it x data hstate hrl hne hit hx hdata =>
    rw [turn_words_nread (by simp [hstate])]
    intro hn p hp
    obtain ⟨y, hy, hupdate, hkey, hsuffix⟩ := hpends hn p hp
    obtain rfl : it = p := Option.some.inj (hit.symm.trans hp)
    obtain rfl : x = y := Option.some.inj (hx.symm.trans hy)
    refine ⟨{ x with data }, ?_, hupdate, hkey, ?_⟩
    · rw [Store.get_modify, hx, Option.map_some, if_pos rfl]
    · rw [hsuffix, Item.nbytes, Item.nbytes, memcpyData_length hdata]
  | recvd hstate hrl hemp hne hlen hs hroom hstore hc =>
    rw [turn_words_nread (by simp [hstate])]
    exact hpends.congr (by rw [hc]) (by rw [hc]) (by rw [hc]) fun p _ => by rw [hstore]
  | failed hstate hrl hemp hs hstore hc => exact .of_state (by simp [hc])
  | closed hstate hrun hc => exact .of_state (by simp [hc, hstate])
  | spin hstate => exact .of_state hstate.2.1

/-! ## Runs -/

/-- What the other connections wait for stays as it is. -/
theorem Told.Agrees.beside (ha : t.Agrees hash w) (hspared : Spared (w.heldBeside fd) w.store s') {fd₁ : Fd}
    (hne : fd₁ ≠ fd) {c₁ : Conn} (hc₁ : w.conn fd₁ = some c₁) : Pends s' c₁ (t.words fd₁) :=
  (ha.pends hc₁).congr rfl rfl rfl fun _ hp => hspared ⟨fd₁, c₁, hne, hc₁, hp⟩

/-- A turn that ends the process acknowledges nothing. -/
theorem turn_ended (ha : t.Agrees hash w) (hc : w.conn fd = some c) (e : End) :
    (t.turn w { w with ended := some e } fd c).Agrees hash { w with ended := some e } := by
  have hsilent : ∀ {text}, text ≠ [] → ¬World.Answered { w with ended := some e } fd c text := by
    intro text htext
    refine not_answered (fun c' hc' => ?_) htext
    rw [Option.some.inj (hc'.symm.trans hc)]
  have hentry : (t.turn w { w with ended := some e } fd c).entry = t.entry := by
    unfold Told.turn
    split
    · split
      · exact if_neg fun h => hsilent (by decide) h.2
      · rfl
    · split
      · rw [if_neg fun h => hsilent (by decide) h.2]
      · rfl
    all_goals rfl
  refine ⟨fun key => ?_, fun {fd₁ c₁} hc₁ => ?_⟩
  · rw [hentry]
    exact ha.entries key
  · by_cases hfd : fd₁ = fd
    · subst hfd
      obtain rfl : c = c₁ := Option.some.inj (hc.symm.trans hc₁)
      by_cases hstate : c.state = .nread
      · rw [turn_words_nread (by rw [hstate]; nofun)]
        exact ha.pends hc
      · exact .of_state hstate
    · rw [turn_words_ne hfd]
      exact ha.pends hc₁

/-- `mc_write` keeps the entries, and the item of the connection if it is not closed. -/
theorem mcWrite_pends {n : Nat} {next : Next} (hrun : v.mcWrite n = .ok (v', next))
    (h : Holds hash v.store l m refs others v.c) (hpends : Pends v.store v.c words) :
    v'.store.lookup hash = v.store.lookup hash ∧ (next ≠ .closed → Pends v'.store v'.c words) := by
  cases mcWrite_cases hrun with
  | drained => exact ⟨rfl, fun _ => .of_state nofun⟩
  | sent => exact ⟨rfl, fun _ => hpends.congr rfl rfl rfl fun _ _ => rfl⟩
  | closed hs => exact ⟨release_lookup h hs, fun hno => absurd rfl hno⟩

/-- A step keeps the store and the acknowledgements in agreement. -/
theorem agrees_step {e : Call} (hsound : ∃ l m refs, w.Sound hash l m refs) (ha : t.Agrees hash w)
    (hs : w.step hash e = some w') :
    (t.step w w' e).Agrees hash w' := by
  obtain ⟨l, m, refs, h⟩ := hsound
  obtain ⟨-, hs⟩ := step_stepped hs
  cases hs with
  | @accept fd sock hrun hfd =>
    refine ⟨ha.entries, fun {fd₁ c₁} hc₁ => ?_⟩
    by_cases he : fd₁ = fd
    · rw [he] at hc₁
      dsimp only at hc₁
      rw [Function.update_self, Option.some.injEq] at hc₁
      subst hc₁
      exact .of_state nofun
    · dsimp only at hc₁
      rw [Function.update_of_ne he] at hc₁
      exact ha.pends hc₁
  | read => exact ⟨ha.entries, ha.pends⟩
  | @turn fd c env hrun hc hmem =>
    have hwhose : ∀ w', t.step w w' (.turn env) = t.turn w w' fd c := by
      intro w'
      rw [Told.step, World.whose, hrun, Option.bind_some, hc]
      rfl
    rw [hwhose]
    cases hturn : (w.view c).turn hash env with
    | error e => exact turn_ended ha hc e
    | ok r =>
      obtain ⟨v', next⟩ := r
      have hcases := turn_cases hturn
      refine ⟨?_, fun {fd₁ c₁} hc₁ => ?_⟩
      · exact hcases.entries (h.holds hc) hmem rfl ha.entries (ha.pends hc) fun hnext _ => answered_back hnext
      · rcases back_conn hc₁ with ⟨v₁, next₁, hr, -, rfl, rfl⟩ | ⟨hc₁, ⟨e, hr⟩ | hfd⟩
        · obtain ⟨rfl, rfl⟩ := Prod.mk.inj (Except.ok.inj hr)
          exact hcases.pends (ha.pends hc)
        · nomatch hr
        · rw [turn_words_ne hfd]
          exact ha.beside (hcases.leaves (h.holds hc) hmem).2 hfd hc₁
  | @write fd c n hrun hc hn =>
    cases hwrite : (w.view c).mcWrite n with
    | error e => exact ⟨ha.entries, ha.pends⟩
    | ok r =>
      obtain ⟨v', next⟩ := r
      obtain ⟨hlookup, hown⟩ := mcWrite_pends hwrite (h.holds hc) (ha.pends hc)
      obtain ⟨c', -, -, hspared⟩ := mcWrite_leaves hwrite (h.holds hc)
      refine ⟨fun key => ?_, fun {fd₁ c₁} hc₁ => ?_⟩
      · exact (congrFun hlookup key).trans (ha.entries key)
      · rcases back_conn hc₁ with ⟨v₁, next₁, hr, hnext, rfl, rfl⟩ | ⟨hc₁, ⟨e, hr⟩ | hfd⟩
        · obtain ⟨rfl, rfl⟩ := Prod.mk.inj (Except.ok.inj hr)
          exact hown hnext
        · nomatch hr
        · exact ha.beside hspared hfd hc₁

/-- The store agrees with what was acknowledged in every state of every run. -/
theorem agrees_always (hash : List UInt8 → UInt32) (pid : UInt32) (es : List Call) :
    AllStates (Witnessed.step hash) (fun t => (∃ l m refs, t.1.Sound hash l m refs) ∧ t.2.Agrees hash t.1)
      (.init pid) es := by
  have hinit := @consistent_init hash
  have hagrees : (Witnessed.init pid).2.Agrees hash (.init pid) := ⟨hinit.maps.lookup hinit.inv, nofun⟩
  refine .of_step ⟨(sound_always hash pid []).head, hagrees⟩ ?_ es
  intro t e t' ht hs
  obtain ⟨w', hstep, rfl⟩ := Option.map_eq_some_iff.mp hs
  exact ⟨sound_step ht.1 hstep, agrees_step ht.1 ht.2 hstep⟩

/-! ## What `get` answers -/

/-- A `get` is answered with the entry of its key, where there is room for that. -/
theorem get_answered {e : Call} {key text : List UInt8} (h : w.Sound hash l m refs) (hs : w.step hash e = some w')
    (hasked : w.asked e = some (fd, c, key)) (htext : text ≠ []) :
    w'.Answered fd c text ↔ text = getAnswer key (w.store.lookup hash key) ∧ c.ob.r + text.length ≤ MC_BUFFER_SIZE := by
  obtain ⟨-, hs⟩ := step_stepped hs
  obtain ⟨⟨fd₁, c₁⟩, hwhose, hget⟩ := Option.bind_eq_some_iff.mp hasked
  obtain ⟨⟨hstate, hline, hlen, hword⟩, hkey⟩ := Option.ite_none_right_eq_some.mp hget
  obtain ⟨rfl, rfl, rfl⟩ : fd₁ = fd ∧ c₁ = c ∧ c₁.words.getD 1 [] = key := by simpa using hkey
  cases hs with
  | accept | read | write => cases hwhose
  | @turn fd c env hrun hc hmem =>
    obtain ⟨rfl, rfl⟩ : fd = fd₁ ∧ c = c₁ := by simpa [World.whose, hrun, hc] using hwhose
    have hturn : (w.view c).turn hash env = _ := turn_line hstate hline
    have hanswer : (w.view c).answer hash (commandOf (nextLine c.ib.bytes)) env =
        some (getAnswer (c.words.getD 1 []) (w.store.lookup hash (c.words.getD 1 []))) := by
      rw [View.answer]
      exact if_pos (by simpa [Conn.words] using And.intro hlen hword)
    have hspec := processCommand_spec (v := w.view c) h.toStocked (commandOf (nextLine c.ib.bytes)) env
    rw [hanswer] at hspec
    rw [hturn]
    by_cases hfits : c.ob.r + (getAnswer (c.words.getD 1 []) (w.store.lookup hash (c.words.getD 1 []))).length ≤
      MC_BUFFER_SIZE
    · obtain ⟨v', hrun, hans⟩ := hspec.fits hfits
      change World.Answered (w.back fd ((w.view c).processCommand hash (commandOf (nextLine c.ib.bytes)) env >>= _))
        fd c text ↔ _
      rw [hrun, ok_bind, answered_back (by split <;> simp)]
      dsimp only
      refine hans.ob_iff.trans ⟨?_, fun hc => hc.1.symm⟩
      rintro rfl
      exact ⟨rfl, hfits⟩
    · change World.Answered (w.back fd ((w.view c).processCommand hash (commandOf (nextLine c.ib.bytes)) env >>= _))
        fd c text ↔ _
      rw [hspec.overflow hfits]
      refine iff_of_false (not_answered (fun c' hc' => ?_) htext) ?_
      · rw [Option.some.inj (hc'.symm.trans hc)]
      · rintro ⟨rfl, hle⟩
        exact hfits hle

/-- What a `get` sends of an acknowledgement with flags that fit a C `int`. -/
theorem getAnswer_small {f : Nat} (hf : f < 2 ^ 31) (key data : List UInt8) :
    getAnswer key (some (Ack.value ⟨natText f, data⟩)) = valueText key f data := by
  have hflags : CInt.int32 (strtoul (natText f)) = f := by
    rw [strtoul_natText (by omega), CInt.int32_of_range (by omega) (by omega)]
  have hnat : ∀ n : Nat, intText n = natText n := fun n => if_neg (by omega)
  have hlen : ((data.length + 2 : Nat) : Int) - 2 = (data.length : Nat) := by omega
  simp only [getAnswer, getReply, Ack.value, Ack.entry, render, itemSuffix, hflags, hlen, hnat, valueText,
    Option.map_some,
    List.flatten_cons, List.flatten_nil, List.append_nil, List.append_assoc, List.cons_append, List.nil_append, crlf]

/-- Flags from 2^31 on are sent as negative numbers. -/
theorem getAnswer_large {f : Nat} (hlo : 2 ^ 31 ≤ f) (hhi : f < 2 ^ 32) (key data : List UInt8) :
    getAnswer key (some (Ack.value ⟨natText f, data⟩)) ≠ valueText key f data := by
  have hflags : intText (CInt.int32 (strtoul (natText f))) = 45 :: natText (2 ^ 32 - f) := by
    rw [strtoul_natText (by omega), CInt.int32_wrap (by omega) (by omega), intText, if_pos (by omega)]
    congr 2
    omega
  intro h
  simp only [getAnswer, getReply, Ack.value, Ack.entry, render, itemSuffix, hflags, valueText, Option.map_some,
    List.flatten_cons, List.append_assoc, List.cons_append, List.append_cancel_left_eq, List.cons.injEq, true_and] at h
  exact natText_append_ne f _ _ h.symm

/-- In a run a `get` returns what was acknowledged exactly if the flags fit a C `int` and the answer the output
buffer. -/
theorem get_returns_iff (hash : List UInt8 → UInt32) (pid : UInt32) (es : List Call) :
    AllSteps (Witnessed.step hash) (fun t e t' => t.Returns e t') (.init pid) es ↔
      AllSteps (Witnessed.step hash) (fun t e _ => t.Fits e) (.init pid) es := by
  refine AllSteps.congr (agrees_always hash pid es) fun t e t' ⟨⟨l, m, refs, h⟩, ha⟩ hs => ?_
  obtain ⟨w', hstep, rfl⟩ := Option.map_eq_some_iff.mp hs
  refine forall₂_congr fun r hr => forall₂_congr fun f hf => forall₂_congr fun data hdata => ?_
  obtain ⟨fd, c, key⟩ := r
  dsimp only at hdata ⊢
  have htext : valueText key f data ≠ [] := by simp [valueText, lit]
  rw [get_answered h hstep hr htext, ha.entries, hdata, Option.map_some]
  by_cases hsmall : f < 2 ^ 31
  · rw [getAnswer_small hsmall]
    exact ⟨fun h => ⟨hsmall, h.2⟩, fun h => ⟨rfl, h.2⟩⟩
  · exact iff_of_false (fun h => getAnswer_large (Nat.not_lt.mp hsmall) hf key data h.1.symm) fun h => hsmall h.1

/-- A `set` and a `get` of its key, each in a result of `recv`, up to the turn that answers the `get`. -/
def setAndGet (line : String) : List Call :=
  [.accept 5 [.bytes (lit line), .bytes (lit "get a\r\n")], .read 5, .turn (.at 100), .turn (.at 100), .turn (.at 200),
    .turn (.at 200), .write 5 8, .read 5, .turn (.at 200)]

/-- Flags of 2^32 - 1 come back as -1. -/
theorem flags_come_back_negative :
    ¬AllSteps (Witnessed.step fun _ => 0) (fun t e t' => t.Returns e t') (.init 1)
      (setAndGet "set a 4294967295 0 1\r\nx\r\n" ++ [.turn (.at 200)]) := by
  intro h
  have hreturns := AllSteps.last h rfl rfl
  have hanswered := hreturns (5, _, [97]) rfl 4294967295 (by decide) [120] (by decide +kernel)
  exact absurd hanswered (by decide +kernel)

end ZeroServ.Mc
