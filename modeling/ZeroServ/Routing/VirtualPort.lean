import ZeroServ.Routing.LocalPort

/-!
# Virtual ports

`register_virtual_port` tries the numbers behind `_port` until one has no entry. It gives up at `MAX_PORT` entries,
which are thirteen, and a round of the counter takes it through zero: `virtualPort_iff` says of every state that
calls lead to when it finds a port.
-/

namespace ZeroServ
namespace Routing

open Run

namespace Ports

variable {s : Ports}

theorem toNat_turn (s : Ports) (i : Nat) : (s.turn i).toNat = (s.port.toNat + 1 + i) % 65536 := by
  rw [turn, UInt16.toNat_add, UInt16.toNat_add, UInt16.toNat_ofNat']
  simp

/-- The number after the last is zero. -/
theorem turn_eq_zero (s : Ports) : s.turn (65535 - s.port.toNat) = 0 := by
  have hlt := s.port.toNat_lt
  rw [← UInt16.toNat_inj, toNat_turn]
  simp
  omega

/-- The first number without an entry is zero just where zero has none and all that are above the counter have one. -/
theorem first_eq_zero_iff {i : Nat} (hbefore : ∀ j < i, (s.turn j).toUInt32 ∈ s.ids)
    (hfree : (s.turn i).toUInt32 ∉ s.ids) :
    s.turn i = 0 ↔ 0 ∉ s.ids ∧ ∀ id : UInt16, s.port < id → id.toUInt32 ∈ s.ids := by
  have hport := s.port.toNat_lt
  have hzero := s.turn_eq_zero
  have hwrap : 65535 - s.port.toNat < i → 0 ∈ s.ids := by
    intro hlt
    have hmem := hbefore _ hlt
    rwa [hzero] at hmem
  constructor
  · intro hi
    rw [hi] at hfree
    have hle : i ≤ 65535 - s.port.toNat := by
      by_contra hlt
      exact hfree (hwrap (by omega))
    have hnat := congrArg UInt16.toNat hi
    rw [toNat_turn] at hnat
    simp at hnat
    refine ⟨hfree, fun id hid => ?_⟩
    have hlt := id.toNat_lt
    rw [UInt16.lt_iff_toNat_lt] at hid
    have hturn : s.turn (id.toNat - s.port.toNat - 1) = id := by
      rw [← UInt16.toNat_inj, toNat_turn]
      omega
    exact hturn ▸ hbefore _ (by omega)
  · rintro ⟨hno, hall⟩
    have hle : i ≤ 65535 - s.port.toNat := by
      by_contra hlt
      exact hno (hwrap (by omega))
    rcases Nat.lt_or_eq_of_le hle with hlt | rfl
    · refine absurd (hall _ ?_) hfree
      rw [UInt16.lt_iff_toNat_lt, toNat_turn]
      omega
    · exact hzero

end Ports

open Ports Registry

/-- In every state that calls lead to, `register_virtual_port` returns; and where its lookups are exact it gives an
entry of a number from 1 to 65535 that had none, as it should while there are such numbers, exactly where the counter
is not at `MAX_PORT` and the first number without an entry behind `_port` is not zero. -/
theorem virtualPort_iff {es : List PortEvent} {s : Registry} (hr : exec step start es = some s) (context : Nat)
    {behind : Nat → UInt16} (hbehind : s.LookupsExact (.registerVirtualPort context behind) s) :
    ∃ ports r, s.ports.registerVirtualPort context behind = some (ports, r) ∧
      ((s.ports.localPorts.length < 65535 →
          ∃ ele, r = some ele ∧ 1 ≤ ele.id.toNat ∧ ele.id.toNat ≤ 65535 ∧ ele.id ∉ s.ports.ids) ↔
        s.ports.curPort ≠ MAX_PORT ∧
          ¬(0 ∉ s.ports.ids ∧ ∀ id : UInt16, s.ports.port < id → id.toUInt32 ∈ s.ports.ids)) := by
  obtain ⟨s₁, hs₁, hsmall⟩ := exec_small es
  obtain rfl : s₁ = s := Option.some.inj (hs₁.symm.trans hr)
  have hfew : s₁.ports.localPorts.length < 65535 := Nat.lt_of_le_of_lt hsmall.le (by decide)
  obtain ⟨⟨ports, r⟩, hport⟩ := Option.isSome_iff_exists.mp (hsmall.registerVirtualPort context behind)
  refine ⟨ports, r, hport, ?_⟩
  unfold Ports.registerVirtualPort at hport
  by_cases hcur : s₁.ports.curPort = MAX_PORT
  · rw [if_pos hcur] at hport
    obtain ⟨-, rfl⟩ := Prod.mk.inj (Option.some.inj hport)
    refine iff_of_false (fun hc => ?_) fun hc => hc.1 hcur
    obtain ⟨ele, hele, -⟩ := hc hfew
    cases hele
  · rw [if_neg hcur] at hport
    obtain ⟨⟨ports', ele⟩, hsearch, hpair⟩ := Option.map_eq_some_iff.mp hport
    obtain ⟨rfl, rfl⟩ := Prod.mk.inj hpair
    obtain ⟨i, hbefore, hlast, hadd⟩ := searchPort_spec hsmall hsearch
    have hid : ele.id = (s₁.ports.turn i).toUInt32 := by rw [(Prod.mk.inj hadd).2]
    have hnat : ele.id.toNat = (s₁.ports.turn i).toNat := by rw [hid, UInt16.toNat_toUInt32]
    have hfree := (first_free_iff hbefore hlast).mpr (hbehind.resolve_left hcur)
    have hlt := (s₁.ports.turn i).toNat_lt
    rw [← first_eq_zero_iff (fun j hj => (hbefore j hj).2) hfree, and_iff_right hcur]
    constructor
    · rintro hc hzero
      obtain ⟨ele', he, hpos, -⟩ := hc hfew
      obtain rfl := Option.some.inj he
      rw [hnat, hzero] at hpos
      exact absurd hpos (by decide)
    · intro hne _
      have hpos : (s₁.ports.turn i).toNat ≠ 0 := fun h0 => hne (UInt16.toNat_inj.mp h0)
      exact ⟨ele, rfl, by omega, by omega, hid ▸ hfree⟩

/-- The number behind the first virtual port is taken: the second virtual port gets the one after. -/
theorem virtualPort_iff_second : ∃ s ports r,
    exec step start [.registerVirtualPort 0 fun _ => 0, .registerPort (start.ports.port + 2) 7 0] = some s ∧
    s.ports.localPorts.length = 2 ∧
      s.ports.registerVirtualPort 9 (fun _ => 0) = some (ports, r) ∧
      ∃ ele, r = some ele ∧ 1 ≤ ele.id.toNat ∧ ele.id.toNat ≤ 65535 ∧ ele.id ∉ s.ports.ids := by
  obtain ⟨s, hs, -⟩ := exec_small [.registerVirtualPort 0 fun _ => 0, .registerPort (start.ports.port + 2) 7 0]
  have hports : (exec step start [.registerVirtualPort 0 fun _ => 0, .registerPort (start.ports.port + 2) 7 0]).map
      (fun s => (s.ports.localPorts.length, s.ports.curPort, s.ports.port, s.ports.ids)) =
        some (2, 2, start.ports.port + 1, [(start.ports.port + 2).toUInt32, (start.ports.port + 1).toUInt32]) := by
        decide
  rw [hs, Option.map_some, Option.some.injEq, Prod.mk.injEq, Prod.mk.injEq, Prod.mk.injEq] at hports
  obtain ⟨hlen, hcur, hport, hids⟩ := hports
  obtain ⟨ports, r, hr, hiff⟩ := virtualPort_iff hs 9 (.inr fun _ _ => rfl)
  refine ⟨s, ports, r, hs, hlen, hr, hiff.mpr ⟨?_, fun h => ?_⟩ (by rw [hlen]; decide)⟩
  · rw [hcur]
    decide
  · have hmem := h.2 (start.ports.port + 3) (by rw [hport]; decide)
    rw [hids] at hmem
    exact absurd hmem (by decide)

/-- With thirteen virtual ports there is no fourteenth. -/
theorem no_fourteenth_port :
    ¬∀ s ports r, exec step start (List.replicate 13 (.registerVirtualPort 0 fun _ => 0)) = some s →
      s.ports.registerVirtualPort 0 (fun _ => 0) = some (ports, r) → s.ports.localPorts.length < 65535 →
        ∃ ele, r = some ele ∧ 1 ≤ ele.id.toNat ∧ ele.id.toNat ≤ 65535 ∧ ele.id ∉ s.ports.ids := by
  intro h
  obtain ⟨s, hs, hsmall⟩ := exec_small (List.replicate 13 (.registerVirtualPort 0 fun _ => 0))
  have hcur : (exec step start (List.replicate 13 (.registerVirtualPort 0 fun _ => 0))).map (fun s => s.ports.curPort) =
      some MAX_PORT := by decide
  rw [hs, Option.map_some, Option.some.injEq] at hcur
  have hport : s.ports.registerVirtualPort 0 (fun _ => 0) = some (s.ports, none) := if_pos hcur
  obtain ⟨ele, he, -⟩ := h s s.ports none hs hport (Nat.lt_of_le_of_lt hsmall.le (by decide))
  cases he

end Routing
end ZeroServ
