import Mathlib.Data.List.Perm.Subperm
import Mathlib.Logic.Function.Basic
import ZeroServ.Lib.Run
import ZeroServ.Routing.Proto

/-!
# Local ports

`local_port.c`: a table of the ports that are the node's own, those of its sockets and virtual ones. An entry has its
number as an `int`, while the lookups give `HASH_FIND_INT` the address of an `unsigned short`: the key has the two
bytes that follow it in memory. A lookup with zeros behind it is exact, any other finds nothing. `lookups_exact_iff`
says of all runs that the table is what was registered just where no lookup of a registered port has other bytes
behind it.

`uthash` is taken to be a map on four bytes, of which an entry that is added to another of its key is found in its
place.
-/

namespace ZeroServ
namespace Routing

open Run

/-- `struct local_port` -/
structure LocalPort where
  id : UInt32
  context : Nat
  deriving DecidableEq, Repr

/-- `_port`, `cur_port` and `local_ports`, of which the entry added last is in front. -/
structure Ports where
  port : UInt16
  curPort : UInt16
  localPorts : List LocalPort
  deriving DecidableEq, Repr

/-- `MAX_PORT`: the text is `(2^16 - 1)`, and `^` is the exclusive or. -/
def MAX_PORT : UInt16 := 2 ^^^ (16 - 1)

/-- The `int` at the address of an `unsigned short`. -/
def keyAt (id behind : UInt16) : UInt32 := .ofNat (id.toNat + 65536 * behind.toNat)

namespace Ports

variable (s : Ports)

def ids : List UInt32 := s.localPorts.map LocalPort.id

/-- `HASH_FIND_INT` -/
def hashFindInt (id behind : UInt16) : Option LocalPort := s.localPorts.find? fun ele => ele.id = keyAt id behind

/-- A new entry, added by `HASH_ADD_INT`. -/
def add (id : UInt16) (context : Nat) : Ports × LocalPort :=
  let ele : LocalPort := { id := id.toUInt32, context := context }
  ({ s with localPorts := ele :: s.localPorts, curPort := s.curPort + 1 }, ele)

/-- The loop of `register_virtual_port`, with what is behind `id` in each of its turns. -/
def searchPort (context : Nat) : Nat → (Nat → UInt16) → Ports → Option (Ports × LocalPort)
  | 0, _, _ => none
  | fuel + 1, behind, s =>
    let s := { s with port := s.port + 1 }
    match s.hashFindInt s.port (behind 0) with
    | none => some (s.add s.port context)
    | some _ => searchPort context fuel (fun i => behind (i + 1)) s

/-- `register_virtual_port`; the loop may go once through all numbers. -/
def registerVirtualPort (context : Nat) (behind : Nat → UInt16) : Option (Ports × Option LocalPort) :=
  if s.curPort = MAX_PORT then some (s, none)
  else (searchPort context 65536 behind s).map fun r => (r.1, some r.2)

/-- `register_port` -/
def registerPort (port : UInt16) (context : Nat) (behind : UInt16) : Ports × Option LocalPort :=
  if s.curPort = MAX_PORT then (s, none)
  else
    match s.hashFindInt port behind with
    | none => ((s.add port context).1, some (s.add port context).2)
    | some _ => (s, none)

/-- `unregister_port` -/
def unregisterPort (id behind : UInt16) : Ports × Bool :=
  match s.hashFindInt id behind with
  | some _ =>
    ({ s with localPorts := s.localPorts.eraseP fun ele => ele.id = keyAt id behind, curPort := s.curPort - 1 }, true)
  | none => (s, false)

/-- `get_local_port` -/
def getLocalPort (id behind : UInt16) : Option LocalPort := s.hashFindInt id behind

end Ports

/-! ## Runs -/

/-- A call, with what its variables have behind them. The packets that `routing_proc` gets meet a node with these
ports. -/
inductive PortEvent where
  | registerPort (port : UInt16) (context : Nat) (behind : UInt16)
  | registerVirtualPort (context : Nat) (behind : Nat → UInt16)
  | unregisterPort (id behind : UInt16)
  | getLocalPort (id behind : UInt16)
  | routingProc (n : Node) (pk : Packet) (behind : Behind)

/-- The ports, which numbers were registered and not unregistered since, and whether the last answer agreed with
that. -/
structure Registry where
  ports : Ports
  registered : UInt16 → Bool
  right : Bool

/-- `routing_proc` keeps a packet for the node: it returns no value then. -/
def delivers (n : Node) (pk : Packet) (behind : Behind) : Bool := (routingProc n pk behind).2.2.isNone

namespace Registry

variable (s : Registry)

def step : PortEvent → Option Registry
  | .registerPort port context behind =>
    let r := s.ports.registerPort port context behind
    some
      { ports := r.1
        registered := if r.2.isSome then Function.update s.registered port true else s.registered
        right := true }
  | .registerVirtualPort context behind =>
    (s.ports.registerVirtualPort context behind).map fun r =>
      { ports := r.1
        registered := r.2.elim s.registered fun ele => Function.update s.registered ele.id.toUInt16 true
        right := true }
  | .unregisterPort id behind =>
    some
      { ports := (s.ports.unregisterPort id behind).1
        registered := Function.update s.registered id false
        right := true }
  | .getLocalPort id behind => some { s with right := (s.ports.getLocalPort id behind).isSome == s.registered id }
  | .routingProc n pk behind =>
    some
      { s with
        right := delivers { n with localPorts := s.ports.ids } pk behind ==
          (n.isMineIp pk.dstIp && s.registered pk.dstPort) }

/-- No port is registered. -/
def start : Registry where
  ports := { port := 0, curPort := 0, localPorts := [] }
  registered _ := false
  right := true

/-- The entries are of different numbers, `cur_port` counts them, they are what was registered, and so the last
answer said. -/
structure Exact (s : Registry) : Prop where
  nodup : s.ports.ids.Nodup
  count : s.ports.curPort.toNat = s.ports.localPorts.length
  holds : ∀ id : UInt16, id.toUInt32 ∈ s.ports.ids ↔ s.registered id = true
  right : s.right = true

end Registry

namespace Ports

/-- A lookup with zeros behind the number, or of a number that is not registered. -/
def FindsExactly (s : Ports) (id behind : UInt16) : Prop := behind = 0 ∨ id.toUInt32 ∉ s.ids

/-- The number that `register_virtual_port` tries in a turn of its loop. -/
def turn (s : Ports) (i : Nat) : UInt16 := s.port + 1 + .ofNat i

end Ports

namespace Registry

/-- The lookups that a call makes are exact. `register_virtual_port` makes one in each turn, up to the first that
finds nothing. -/
def LookupsExact (s : Registry) : PortEvent → Registry → Prop
  | .registerPort port _ behind, _ => s.ports.curPort = MAX_PORT ∨ s.ports.FindsExactly port behind
  | .registerVirtualPort _ behind, _ =>
    s.ports.curPort = MAX_PORT ∨ ∀ i, (∀ j ≤ i, (s.ports.turn j).toUInt32 ∈ s.ports.ids) → behind i = 0
  | .unregisterPort id behind, _ | .getLocalPort id behind, _ => s.ports.FindsExactly id behind
  | .routingProc n pk behind, _ => n.isMineIp pk.dstIp = false ∨ s.ports.FindsExactly pk.dstPort behind.id

end Registry

/-! ## Lookups -/

namespace Ports

/-- The table as the calls keep it: numbers of sixteen bits, at most thirteen, all counted. -/
structure Small (s : Ports) : Prop where
  lt : ∀ id ∈ s.ids, id.toNat < 65536
  count : s.curPort.toNat = s.localPorts.length
  le : s.localPorts.length ≤ 13

variable {s : Ports} {id behind : UInt16} {context : Nat}

theorem keyAt_zero (id : UInt16) : keyAt id 0 = id.toUInt32 := by
  rw [← UInt32.toNat_inj, keyAt, UInt16.toNat_toUInt32]
  simp

theorem toNat_keyAt (id behind : UInt16) : (keyAt id behind).toNat = id.toNat + 65536 * behind.toNat := by
  have hlt := id.toNat_lt
  have hlt' := behind.toNat_lt
  exact UInt32.toNat_ofNat_of_lt' (by simp [UInt32.size]; omega)

theorem Small.keyAt_mem_iff (h : s.Small) : keyAt id behind ∈ s.ids ↔ behind = 0 ∧ id.toUInt32 ∈ s.ids := by
  constructor
  · intro hmem
    have hlt := h.lt _ hmem
    rw [toNat_keyAt] at hlt
    obtain rfl : behind = 0 := UInt16.toNat_inj.mp (by simp; omega)
    exact ⟨rfl, keyAt_zero id ▸ hmem⟩
  · rintro ⟨rfl, hmem⟩
    exact keyAt_zero id ▸ hmem

theorem isSome_hashFindInt (s : Ports) (id behind : UInt16) :
    (s.hashFindInt id behind).isSome = true ↔ keyAt id behind ∈ s.ids := by
  simp [hashFindInt, ids, List.find?_isSome]

theorem Small.find_iff (h : s.Small) (id behind : UInt16) :
    (s.hashFindInt id behind).isSome = true ↔ behind = 0 ∧ id.toUInt32 ∈ s.ids := by
  rw [isSome_hashFindInt, h.keyAt_mem_iff]

/-- Such a lookup says whether the number is registered, and no other one does. -/
theorem Small.findsExactly_iff (h : s.Small) :
    s.FindsExactly id behind ↔ ((s.hashFindInt id behind).isSome = true ↔ id.toUInt32 ∈ s.ids) := by
  rw [h.find_iff, FindsExactly]
  tauto

/-! ## What the calls do -/

theorem toUInt32_lt (id : UInt16) : id.toUInt32.toNat < 65536 := by
  rw [UInt16.toNat_toUInt32]
  exact id.toNat_lt

theorem toUInt32_inj {a b : UInt16} : a.toUInt32 = b.toUInt32 ↔ a = b := by
  rw [← UInt32.toNat_inj, UInt16.toNat_toUInt32, UInt16.toNat_toUInt32, UInt16.toNat_inj]

theorem ids_add (s : Ports) (id : UInt16) (context : Nat) : (s.add id context).1.ids = id.toUInt32 :: s.ids := rfl

/-- While the counter is not at the bound, there is room for one more. -/
theorem Small.add (h : s.Small) (hcur : s.curPort ≠ MAX_PORT) (id : UInt16) (context : Nat) :
    (s.add id context).1.Small := by
  have hne : s.curPort.toNat ≠ 13 := fun he => hcur (UInt16.toNat_inj.mp he)
  have hcount := h.count
  have hle := h.le
  refine ⟨fun x hx => ?_, ?_, ?_⟩
  · rcases List.mem_cons.mp hx with rfl | hx
    · exact toUInt32_lt id
    · exact h.lt x hx
  · simp only [Ports.add, UInt16.toNat_add, List.length_cons]
    simp
    omega
  · simp only [Ports.add, List.length_cons]
    omega

theorem ids_erase (s : Ports) (key : UInt32) :
    (s.localPorts.eraseP fun ele => ele.id = key).map LocalPort.id = s.ids.erase key := by
  rw [ids, List.erase_eq_eraseP, List.eraseP_map]
  congr 2
  funext ele
  rw [Function.comp_apply, beq_eq_decide, decide_eq_decide, eq_comm]

theorem Small.erase (h : s.Small) {key : UInt32} (hkey : key ∈ s.ids) :
    ({ s with localPorts := s.localPorts.eraseP fun ele => ele.id = key, curPort := s.curPort - 1 } : Ports).Small := by
  have hlen : (s.localPorts.eraseP fun ele => ele.id = key).length = s.localPorts.length - 1 := by
    rw [← List.length_map LocalPort.id, ids_erase, List.length_erase_of_mem hkey, ids, List.length_map]
  have hpos : 0 < s.ids.length := List.length_pos_of_mem hkey
  rw [ids, List.length_map] at hpos
  have hcount := h.count
  have hle := h.le
  refine ⟨fun x hx => h.lt x ?_, ?_, ?_⟩
  · rw [ids, ids_erase] at hx
    exact List.mem_of_mem_erase hx
  · rw [hlen, UInt16.toNat_sub_of_le _ _ (by rw [UInt16.le_iff_toNat_le]; simp; omega)]
    simp
    omega
  · rw [hlen]
    omega

theorem turn_succ (s : Ports) (i : Nat) : ({ s with port := s.port + 1 } : Ports).turn i = s.turn (i + 1) := by
  rw [turn, turn, UInt16.ofNat_add, UInt16.add_comm (.ofNat i) (.ofNat 1), ← UInt16.add_assoc]
  rfl

/-- The loop ends in the first turn whose lookup finds nothing, with an entry of the number that it tried. -/
theorem searchPort_spec {fuel : Nat} {behind : Nat → UInt16} {s' : Ports} {ele : LocalPort} (h : s.Small)
    (hr : searchPort context fuel behind s = some (s', ele)) :
    ∃ i, (∀ j < i, behind j = 0 ∧ (s.turn j).toUInt32 ∈ s.ids) ∧ ¬(behind i = 0 ∧ (s.turn i).toUInt32 ∈ s.ids) ∧
      (s', ele) = ({ s with port := s.turn i } : Ports).add (s.turn i) context := by
  induction fuel generalizing s behind with
  | zero => cases hr
  | succ fuel ih =>
    have hnext : ({ s with port := s.port + 1 } : Ports).Small := ⟨h.lt, h.count, h.le⟩
    have hturn : s.turn 0 = s.port + 1 := UInt16.add_zero _
    have hfind := hnext.find_iff (s.port + 1) (behind 0)
    rw [searchPort] at hr
    cases hf : ({ s with port := s.port + 1 } : Ports).hashFindInt (s.port + 1) (behind 0) with
    | none =>
      simp only [hf, Option.some.injEq] at hr
      rw [hf] at hfind
      refine ⟨0, by simp, ?_, ?_⟩
      · rw [hturn]
        exact fun hc => absurd (hfind.mpr hc) (by simp)
      · rw [hturn, ← hr]
    | some found =>
      simp only [hf] at hr
      rw [hf] at hfind
      obtain ⟨i, hbefore, hlast, hadd⟩ := ih hnext hr
      simp only [turn_succ] at hbefore hlast hadd
      refine ⟨i + 1, fun j hj => ?_, hlast, hadd⟩
      cases j with
      | zero =>
        rw [hturn]
        exact hfind.mp rfl
      | succ j => exact hbefore j (by omega)

/-- It has no entry just where the lookups of the loop are exact. -/
theorem first_free_iff {behind : Nat → UInt16} {i : Nat} (hbefore : ∀ j < i, behind j = 0 ∧ (s.turn j).toUInt32 ∈ s.ids)
    (hlast : ¬(behind i = 0 ∧ (s.turn i).toUInt32 ∈ s.ids)) :
    (s.turn i).toUInt32 ∉ s.ids ↔ ∀ k, (∀ j ≤ k, (s.turn j).toUInt32 ∈ s.ids) → behind k = 0 := by
  constructor
  · intro hnew k hk
    have hlt : k < i := by
      by_contra hge
      exact hnew (hk i (by omega))
    exact (hbefore k hlt).1
  · intro hc hmem
    refine hlast ⟨hc i fun j hj => ?_, hmem⟩
    rcases Nat.lt_or_eq_of_le hj with hlt | rfl
    · exact (hbefore j hlt).2
    · exact hmem

theorem turn_inj (s : Ports) {i j : Nat} (hi : i < 65536) (hj : j < 65536) (h : s.turn i = s.turn j) : i = j := by
  have he := congrArg UInt16.toNat ((UInt16.add_right_inj (s.port + 1)).mp h)
  rw [UInt16.toNat_ofNat', UInt16.toNat_ofNat'] at he
  omega

/-- Where it does not end, every number it tried has an entry. -/
theorem searchPort_eq_none {fuel : Nat} {behind : Nat → UInt16} (h : s.Small)
    (hr : searchPort context fuel behind s = none) :
    ∀ j < fuel, (s.turn j).toUInt32 ∈ s.ids := by
  induction fuel generalizing s behind with
  | zero => simp
  | succ fuel ih =>
    have hnext : ({ s with port := s.port + 1 } : Ports).Small := ⟨h.lt, h.count, h.le⟩
    have hturn : s.turn 0 = s.port + 1 := UInt16.add_zero _
    have hfind := hnext.find_iff (s.port + 1) (behind 0)
    rw [searchPort] at hr
    cases hf : ({ s with port := s.port + 1 } : Ports).hashFindInt (s.port + 1) (behind 0) with
    | none => simp [hf] at hr
    | some found =>
      simp only [hf] at hr
      rw [hf] at hfind
      intro j hj
      cases j with
      | zero =>
        rw [hturn]
        exact (hfind.mp rfl).2
      | succ j =>
        rw [← turn_succ]
        exact ih hnext hr j (by omega)

/-- It ends before it has tried more numbers than there are entries: those it passed by are all different. -/
theorem searchPort_isSome {fuel : Nat} {behind : Nat → UInt16} (h : s.Small) (hlt : s.localPorts.length < fuel)
    (hle : fuel ≤ 65536) :
    (searchPort context fuel behind s).isSome = true := by
  by_contra hno
  have htried := searchPort_eq_none h (Option.not_isSome_iff_eq_none.mp hno)
  have hnodup : ((List.range fuel).map fun j => (s.turn j).toUInt32).Nodup := by
    refine List.Nodup.map_on (fun i hi j hj he => ?_) List.nodup_range
    rw [List.mem_range] at hi hj
    exact s.turn_inj (by omega) (by omega) (toUInt32_inj.mp he)
  have hsub : (List.range fuel).map (fun j => (s.turn j).toUInt32) ⊆ s.ids := by
    intro x hx
    obtain ⟨j, hj, rfl⟩ := List.mem_map.mp hx
    exact htried j (List.mem_range.mp hj)
  have hlen := (hnodup.subperm hsub).length_le
  rw [List.length_map, List.length_range, ids, List.length_map] at hlen
  omega

/-- `register_virtual_port` ends. -/
theorem Small.registerVirtualPort (h : s.Small) (context : Nat) (behind : Nat → UInt16) :
    (s.registerVirtualPort context behind).isSome = true := by
  have hle := h.le
  unfold Ports.registerVirtualPort
  split
  · rfl
  · rw [Option.isSome_map]
    exact searchPort_isSome h (by omega) (by omega)

end Ports

/-- A packet is for the node where its address is the node's and the lookup finds its port. -/
theorem delivers_eq (n : Node) (s : Ports) (pk : Packet) (behind : Behind) :
    delivers { n with localPorts := s.ids } pk behind =
      (n.isMineIp pk.dstIp && (s.hashFindInt pk.dstPort behind.id).isSome) := by
  have hlookup : Node.getLocalPort { n with localPorts := s.ids } pk.dstPort behind =
      (s.hashFindInt pk.dstPort behind.id).isSome := by
    rw [Bool.eq_iff_iff, Ports.isSome_hashFindInt]
    exact List.contains_iff_mem
  have hmine : Node.isMine { n with localPorts := s.ids } pk behind =
      (n.isMineIp pk.dstIp && (s.hashFindInt pk.dstPort behind.id).isSome) := by
    rw [Node.isMine, hlookup]
    rfl
  unfold delivers routingProc
  rw [hmine]
  split
  · next h => exact h.symm
  · next h =>
    rw [Bool.not_eq_true] at h
    rw [h]
    split <;> rfl

namespace Registry

open Ports

variable {s s' : Registry} {e : PortEvent}

/-- The table stays small, whatever the lookups find. -/
theorem small_step (h : s.ports.Small) (hs : s.step e = some s') : s'.ports.Small := by
  cases e with
  | registerPort port context behind =>
    obtain rfl := Option.some.inj hs
    dsimp only
    unfold Ports.registerPort
    split
    · exact h
    · next hcur =>
      split
      · exact h.add hcur port context
      · exact h
  | registerVirtualPort context behind =>
    obtain ⟨r, hr, rfl⟩ := Option.map_eq_some_iff.mp hs
    unfold Ports.registerVirtualPort at hr
    split at hr
    · obtain rfl := Option.some.inj hr
      exact h
    · next hcur =>
      obtain ⟨⟨ports, ele⟩, hsearch, rfl⟩ := Option.map_eq_some_iff.mp hr
      obtain ⟨i, -, -, hadd⟩ := searchPort_spec h hsearch
      have hmoved : ({ s.ports with port := s.ports.turn i } : Ports).Small := ⟨h.lt, h.count, h.le⟩
      rw [(Prod.mk.inj hadd).1]
      exact hmoved.add hcur _ context
  | unregisterPort id behind =>
    obtain rfl := Option.some.inj hs
    dsimp only
    cases hf : s.ports.hashFindInt id behind with
    | none => simpa only [unregisterPort, hf] using h
    | some found => simpa only [unregisterPort, hf] using h.erase (by rw [← isSome_hashFindInt, hf]; rfl)
  | getLocalPort id behind =>
    obtain rfl := Option.some.inj hs
    exact h
  | routingProc n pk behind =>
    obtain rfl := Option.some.inj hs
    exact h

/-- No call is without end. -/
theorem exists_step (h : s.ports.Small) (e : PortEvent) : ∃ s', s.step e = some s' ∧ s'.ports.Small := by
  have hsome : (s.step e).isSome = true := by
    cases e with
    | registerVirtualPort context behind =>
      rw [step, Option.isSome_map]
      exact h.registerVirtualPort context behind
    | registerPort _ _ _ | unregisterPort _ _ | getLocalPort _ _ | routingProc _ _ _ => rfl
  obtain ⟨s', hs⟩ := Option.isSome_iff_exists.mp hsome
  exact ⟨s', hs, small_step h hs⟩

theorem small_start : start.ports.Small where
  lt := by simp [start, ids]
  count := rfl
  le := by simp [start]

/-- Every run comes to its end, with a small table. -/
theorem exec_small (es : List PortEvent) : ∃ s', exec step start es = some s' ∧ s'.ports.Small :=
  exec_of_progress (I := fun s : Registry => s.ports.Small) small_start (fun _ e h => exists_step h e) es

/-- A new entry is right just where its number had none. -/
theorem exact_add_iff (h : s.Exact) (hsmall : s.ports.Small) (hcur : s.ports.curPort ≠ MAX_PORT) (port id : UInt16)
    (context : Nat) :
    Exact
        { ports := (({ s.ports with port := port } : Ports).add id context).1
          registered := Function.update s.registered id true
          right := true } ↔ id.toUInt32 ∉ s.ports.ids := by
  have hmoved : ({ s.ports with port := port } : Ports).Small := ⟨hsmall.lt, hsmall.count, hsmall.le⟩
  constructor
  · intro h'
    exact (List.nodup_cons.mp h'.nodup).1
  · intro hid
    refine ⟨List.nodup_cons.mpr ⟨hid, h.nodup⟩, (hmoved.add hcur id context).count, fun x => ?_, rfl⟩
    have hmem : x.toUInt32 ∈ (({ s.ports with port := port } : Ports).add id context).1.ids ↔
        x = id ∨ x.toUInt32 ∈ s.ports.ids := by
      rw [ids_add, List.mem_cons, toUInt32_inj]
      rfl
    rw [hmem]
    by_cases hx : x = id
    · simp [hx]
    · simp [hx, h.holds x]

/-- A call that changes neither the table nor what was registered. -/
theorem Exact.answered (h : s.Exact) {right : Bool} (hright : right = true) : Exact { s with right := right } :=
  ⟨h.nodup, h.count, h.holds, hright⟩

/-- `unregister_port` on a number that its lookup finds. -/
theorem Exact.erase (h : s.Exact) (hsmall : s.ports.Small) {id : UInt16} (hid : id.toUInt32 ∈ s.ports.ids) :
    Exact
      { ports :=
          { s.ports with
            localPorts := s.ports.localPorts.eraseP fun ele => ele.id = id.toUInt32, curPort := s.ports.curPort - 1 }
        registered := Function.update s.registered id false
        right := true } := by
  have hids : ({ s.ports with
      localPorts := s.ports.localPorts.eraseP fun ele =>
        ele.id = id.toUInt32, curPort := s.ports.curPort - 1 } : Ports).ids =
        s.ports.ids.erase id.toUInt32 := ids_erase s.ports id.toUInt32
  refine ⟨?_, (hsmall.erase hid).count, fun x => ?_, rfl⟩
  · rw [hids]
    exact h.nodup.erase _
  · rw [hids, h.nodup.mem_erase_iff, ne_eq, toUInt32_inj]
    by_cases hx : x = id
    · simp [hx]
    · simp [hx, h.holds x]

/-- From a table that is what was registered, a call leads to one just where its lookups are exact. -/
theorem exact_step_iff (h : s.Exact) (hsmall : s.ports.Small) (hs : s.step e = some s') :
    s'.Exact ↔ s.LookupsExact e s' := by
  cases e with
  | registerPort port context behind =>
    obtain rfl := Option.some.inj hs
    dsimp only [LookupsExact]
    unfold Ports.registerPort
    by_cases hcur : s.ports.curPort = MAX_PORT
    · rw [if_pos hcur]
      exact iff_of_true (h.answered rfl) (.inl hcur)
    · rw [if_neg hcur, or_iff_right hcur]
      have hfind := hsmall.find_iff port behind
      cases hf : s.ports.hashFindInt port behind with
      | none =>
        rw [hf] at hfind
        refine (exact_add_iff h hsmall hcur s.ports.port port context).trans ?_
        refine ⟨.inr, fun hc => hc.elim (fun hb hmem => ?_) id⟩
        exact absurd (hfind.mpr ⟨hb, hmem⟩) (by simp)
      | some found =>
        rw [hf] at hfind
        exact iff_of_true (h.answered rfl) (.inl (hfind.mp rfl).1)
  | registerVirtualPort context behind =>
    obtain ⟨r, hr, rfl⟩ := Option.map_eq_some_iff.mp hs
    dsimp only [LookupsExact]
    unfold Ports.registerVirtualPort at hr
    by_cases hcur : s.ports.curPort = MAX_PORT
    · rw [if_pos hcur] at hr
      obtain rfl := Option.some.inj hr
      exact iff_of_true (h.answered rfl) (.inl hcur)
    · rw [if_neg hcur] at hr
      obtain ⟨⟨ports, ele⟩, hsearch, rfl⟩ := Option.map_eq_some_iff.mp hr
      obtain ⟨i, hbefore, hlast, hadd⟩ := searchPort_spec hsmall hsearch
      obtain ⟨rfl, rfl⟩ := Prod.mk.inj hadd
      have hid : (s.ports.turn i).toUInt32.toUInt16 = s.ports.turn i := by simp
      change Exact
        { ports := (({ s.ports with port := s.ports.turn i } : Ports).add (s.ports.turn i) context).1
          registered := Function.update s.registered (s.ports.turn i).toUInt32.toUInt16 true
          right := true } ↔ _
      rw [hid, exact_add_iff h hsmall hcur, or_iff_right hcur]
      exact first_free_iff hbefore hlast
  | unregisterPort id behind =>
    obtain rfl := Option.some.inj hs
    dsimp only [LookupsExact]
    have hfind := hsmall.find_iff id behind
    cases hf : s.ports.hashFindInt id behind with
    | none =>
      rw [hf] at hfind
      simp only [unregisterPort, hf]
      by_cases hid : id.toUInt32 ∈ s.ports.ids
      · refine iff_of_false (fun h' => ?_) fun hc => hc.elim (fun hb => ?_) fun hno => hno hid
        · simpa using (h'.holds id).mp hid
        · simpa using hfind.mpr ⟨hb, hid⟩
      · refine iff_of_true ⟨h.nodup, h.count, fun x => ?_, rfl⟩ (.inr hid)
        by_cases hx : x = id
        · simp [hx, hid]
        · simp [hx, h.holds x]
    | some found =>
      rw [hf] at hfind
      obtain ⟨rfl, hid⟩ := hfind.mp rfl
      simp only [unregisterPort, hf, keyAt_zero]
      exact iff_of_true (h.erase hsmall hid) (.inl rfl)
  | getLocalPort id behind =>
    obtain rfl := Option.some.inj hs
    dsimp only [LookupsExact]
    rw [hsmall.findsExactly_iff, h.holds id, ← Bool.eq_iff_iff]
    exact ⟨fun h' => beq_iff_eq.mp h'.right, fun hr => h.answered (beq_iff_eq.mpr hr)⟩
  | routingProc n pk behind =>
    obtain rfl := Option.some.inj hs
    dsimp only [LookupsExact]
    rw [hsmall.findsExactly_iff, h.holds pk.dstPort, ← Bool.eq_iff_iff, delivers_eq]
    cases hmine : n.isMineIp pk.dstIp with
    | false => exact iff_of_true (h.answered rfl) (.inl rfl)
    | true =>
      rw [or_iff_right (by simp), Bool.true_and, Bool.true_and]
      exact ⟨fun h' => beq_iff_eq.mp h'.right, fun hr => h.answered (beq_iff_eq.mpr hr)⟩

theorem exact_start : start.Exact where
  nodup := List.nodup_nil
  count := rfl
  holds := by simp [start, ids]
  right := rfl

/-- Of all runs: the table is what was registered, in every state of the run and in all that is answered there, just
where all lookups of the run are exact. -/
theorem lookups_exact_iff (es : List PortEvent) :
    AllStates step Exact start es ↔ AllSteps step LookupsExact start es :=
  AllStates.iff_allSteps (I := fun s => s.Exact ∧ s.ports.Small) ⟨exact_start, small_start⟩ (fun _ h => h.1)
    (fun _ _ _ h hs _ hc => ⟨(exact_step_iff h.1 h.2 hs).mpr hc, small_step h.2 hs⟩)
    (fun _ _ _ h hs _ hp => (exact_step_iff h.1 h.2 hs).mp hp) (.of_forall (fun _ _ _ => trivial) _ _)

/-- A port is registered, and looked up with a one behind its number. -/
theorem registered_port_not_found :
    ¬AllStates step Exact start [.registerPort 7 0 0, .getLocalPort 7 1] := by
  intro h
  have hright := (h.last rfl).right
  exact absurd hright (by decide)

end Registry

end Routing
end ZeroServ
