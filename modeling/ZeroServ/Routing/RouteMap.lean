import ZeroServ.Routing.Proto

/-!
# The route map

`route_map.c` of the UDP handler: the list of routes, and `route_register_config`, which makes a route of the texts
of a configuration. A remote is `*`, or a host and a port around the first `:`, copied to two arrays on the stack.
The length of the port is not compared with its array, and its number with nothing: `route_register_config_iff` says
which configurations are registered whole or not at all.
-/

namespace ZeroServ.Routing

open CString Decimal

/-- `ROUT_BUF`: the bytes of each text of a route. -/
def routBuf : Nat := 128

/-- `ROUT_BUF_REV` -/
def routBufRev : Nat := routBuf - 1

/-- `struct route` with its own texts. -/
structure RouteNode extends Route where
  name : List UInt8
  dest : List UInt8

/-- `route_register`: behind the other routes. -/
def routeRegister (routes : List RouteNode) (r : RouteNode) : List RouteNode := routes ++ [r]

/-- `route_get_by_dst`: the first route whose regular expression matches. -/
def routeGetByDst (routes : List RouteNode) (dst : List UInt8) : Option RouteNode := routes.find? (·.rexDest dst)

/-- The arrays `host` and `port` of `route_register_config`. -/
inductive SplitArray where
  | host | port
  deriving DecidableEq, Repr

def SplitArray.size : SplitArray → Nat
  | .host => 128
  | .port => 20

/-- Bytes stored from the start of an array on. -/
structure Copied where
  array : SplitArray
  count : Nat
  deriving DecidableEq, Repr

def Copied.InRange (c : Copied) : Prop := c.count ≤ c.array.size

instance (c : Copied) : Decidable c.InRange := inferInstanceAs (Decidable (_ ≤ _))

/-- What `route_register_config` returns, the routes it leaves and what it copied. -/
structure Registration where
  ret : Int
  routes : List RouteNode
  copies : List Copied

/-- The memory from an array on, set to NULs, with bytes copied to it; behind the array is what the stack holds
there. -/
def SplitArray.filled (a : SplitArray) (behind bytes : Mem) : Mem := memcpy (List.replicate a.size 0 ++ behind) 0 bytes

/-- One of the texts of a configuration does not fit its field. -/
def TooLong (name src remote : Mem) : Prop :=
  routBufRev ≤ strlen name ∨ routBufRev ≤ strlen src ∨ routBufRev ≤ strlen remote

instance (name src remote : Mem) : Decidable (TooLong name src remote) := inferInstanceAs (Decidable (_ ∨ _))

section register

variable (regcomp : List UInt8 → Option (List UInt8 → Bool)) (inetAton : List UInt8 → Option UInt32)

/-- What uninitialised memory holds: behind the arrays, and in `s_remote` where `malloc` found it. -/
structure Uninit where
  stack : SplitArray → Mem
  sRemote : UInt32 × UInt16

/-- The part of `route_register_config` behind the filters: the remote is split at `pos`, where its first `:` is. -/
def registerSplit (u : Uninit) (routes : List RouteNode) (rout : RouteNode) (remote pos : Mem) : Registration :=
  let ofs := remote.length - pos.length
  let rest := strlen remote - (ofs + 1)
  let host := SplitArray.host.filled (u.stack .host) (strncpy remote ofs)
  let port := SplitArray.port.filled (u.stack .port) (strncpy pos.tail rest)
  let copies : List Copied :=
    [⟨.host, SplitArray.host.size⟩, ⟨.port, SplitArray.port.size⟩, ⟨.host, ofs⟩, ⟨.port, rest⟩]
  match inetAton (cstr host) with
  | none => ⟨1, routes, copies⟩
  | some addr => ⟨0, routeRegister routes { rout with sRemote := (addr, .ofInt (atoi port)) }, copies⟩

/-- `route_register_config`, where `malloc` has memory. -/
def routeRegisterConfig (u : Uninit) (routes : List RouteNode) (name src remote : Mem) : Registration :=
  if TooLong name src remote then ⟨1, routes, []⟩
  else
    match regcomp (cstr src) with
    | none => ⟨1, routes, []⟩
    | some rex =>
      let rout : RouteNode :=
        { name := cstr name, dest := cstr src, rexDest := rex, remote := cstr remote, sRemote := u.sRemote }
      if strcmp remote (lit "*") then ⟨0, routeRegister routes rout, []⟩
      else
        match strchr remote 58 with
        | none => ⟨1, routes, []⟩
        | some pos =>
          if remote.length - pos.length ≥ strlen remote then ⟨1, routes, []⟩
          else registerSplit inetAton u routes rout remote pos

end register

/-! ## What is to hold -/

/-- A decimal number of a port. -/
structure IsPort (text : List UInt8) (n : Nat) : Prop where
  digits : text ≠ [] ∧ ∀ d ∈ text, isDigit d = true
  value : value text = n
  range : 1 ≤ n ∧ n ≤ 65535

/-- A route whose remote is `*`, or whose address is the host before the first `:` of the remote and the port behind
it. -/
def Addressed (inetAton : List UInt8 → Option UInt32) (r : RouteNode) : Prop :=
  r.remote = lit "*" ∨ ∃ host port n, r.remote = host ++ 58 :: port ∧ 58 ∉ host ∧ IsPort port n ∧
    inetAton host = some r.sRemote.1 ∧ r.sRemote.2.toNat = n

/-- A route is registered whole, or refused, and nothing is copied beyond the arrays. -/
structure AllOrNothing (inetAton : List UInt8 → Option UInt32) (routes : List RouteNode) (remote : Mem)
    (g : Registration) : Prop where
  whole : g.ret = 0 → ∃ r, g.routes = routes ++ [r] ∧ r.remote = cstr remote ∧ Addressed inetAton r
  nothing : g.ret ≠ 0 → g.routes = routes
  inRange : ∀ c ∈ g.copies, c.InRange

/-! ## The routes -/

/-- A new route is found where no route before it matches. -/
theorem routeGetByDst_register (routes : List RouteNode) (r : RouteNode) (dst : List UInt8) :
    routeGetByDst (routeRegister routes r) dst =
      (routeGetByDst routes dst).or (if r.rexDest dst then some r else none) := by
  rw [routeGetByDst, routeGetByDst, routeRegister, List.find?_append, List.find?_singleton]

/-- The router finds the routes of the map. -/
theorem routeGetByDst_node (n : Node) {routes : List RouteNode} (h : n.routes = routes.map (·.toRoute))
    (dst : List UInt8) :
    n.routeGetByDst dst = (routeGetByDst routes dst).map (·.toRoute) := by
  rw [Node.routeGetByDst, h, List.find?_map]
  rfl

/-! ## The split -/

section split

variable {regcomp : List UInt8 → Option (List UInt8 → Bool)} {inetAton : List UInt8 → Option UInt32} {u : Uninit}
  {routes : List RouteNode} {name src remote : Mem} {host port : List UInt8}

/-- An array that is not full ends in a NUL. -/
theorem filled_of_lt (a : SplitArray) (behind : Mem) {bytes : List UInt8} (h : bytes.length < a.size) :
    ∃ t, a.filled behind bytes = bytes ++ 0 :: t := by
  obtain ⟨k, hk⟩ := Nat.exists_eq_add_of_lt h
  refine ⟨List.replicate k 0 ++ behind, ?_⟩
  rw [SplitArray.filled, memcpy, List.take_zero, List.nil_append, Nat.zero_add, hk,
    show bytes.length + k + 1 = bytes.length + (k + 1) by omega, List.replicate_add, List.append_assoc,
    List.drop_left' (List.length_replicate ..), List.replicate_succ, List.cons_append]

/-- A full array goes on in what is behind it. -/
theorem filled_of_eq (a : SplitArray) (behind : Mem) {bytes : List UInt8} (h : bytes.length = a.size) :
    a.filled behind bytes = bytes ++ behind := by
  rw [SplitArray.filled, memcpy, List.take_zero, List.nil_append, Nat.zero_add, h,
    List.drop_left' (List.length_replicate ..)]

/-- What becomes of a remote with a `:` that passes the filters. -/
theorem registerSplit_eq {rout : RouteNode} {t : Mem} (hs : cstr remote = host ++ 58 :: port)
    (hlong : strlen remote < routBufRev) (hr : remote = host ++ 58 :: (port ++ t)) (ht : cstr (port ++ t) = port) :
    registerSplit inetAton u routes rout remote (58 :: (port ++ t)) =
      let copies : List Copied := [⟨.host, 128⟩, ⟨.port, 20⟩, ⟨.host, host.length⟩, ⟨.port, port.length⟩]
      match inetAton host with
      | none => ⟨1, routes, copies⟩
      | some addr =>
        ⟨0, routes ++ [{ rout with sRemote := (addr, .ofInt (atoi (SplitArray.port.filled (u.stack .port) port))) }],
          copies⟩ := by
  have hlen : strlen remote = host.length + (port.length + 1) := by
    rw [strlen, hs, List.length_append, List.length_cons]
  have hofs : remote.length - (58 :: (port ++ t)).length = host.length := by
    rw [hr, List.length_append]
    omega
  have hrest : strlen remote - (host.length + 1) = port.length := by omega
  have hhost : strncpy remote host.length = host := by
    rw [strncpy_of_le (by omega), hs, List.take_left]
  have hport : strncpy (port ++ t) port.length = port := by
    rw [strncpy_of_le (by rw [strlen, ht]), ht, List.take_length]
  have h0 : (0 : UInt8) ∉ host := by
    have := nul_not_mem_cstr remote
    rw [hs] at this
    exact fun h => this (List.mem_append_left _ h)
  have hroom : host.length < SplitArray.host.size := by
    rw [routBufRev, routBuf] at hlong
    rw [SplitArray.size]
    omega
  obtain ⟨z, hz⟩ := filled_of_lt .host (u.stack .host) hroom
  unfold registerSplit
  dsimp only [List.tail_cons]
  rw [hofs, hrest, hhost, hport, hz, cstr_append_nul h0]
  rfl

/-- The number of a port that does not fill its array. -/
theorem port_of_lt {n : Nat} (h : IsPort port n) (hlt : port.length < SplitArray.port.size) (behind : Mem) :
    (UInt16.ofInt (atoi (SplitArray.port.filled behind port))).toNat = n := by
  obtain ⟨t, ht⟩ := filled_of_lt .port behind hlt
  have hval := h.value
  have hrange := h.range
  rw [ht, atoi_digits h.digits.1 h.digits.2 (by decide) t (by omega), hval, UInt16.ofInt, UInt16.toNat_ofNat']
  omega

/-- The number of a port that fills its array goes on with a digit that lies behind it. -/
theorem port_of_eq {n : Nat} (h : IsPort port n) (heq : port.length = SplitArray.port.size) :
    (UInt16.ofInt (atoi (SplitArray.port.filled [48, 0] port))).toNat ≠ n := by
  have hval := h.value
  have hrange := h.range
  have hdigits : ∀ d ∈ port ++ [48], isDigit d = true := by
    intro d hd
    rcases List.mem_append.mp hd with hd | hd
    · exact h.digits.2 d hd
    · rw [List.mem_singleton.mp hd]
      rfl
  have hmore : Decimal.value (port ++ [48]) = 10 * n := by
    rw [← hval]
    simp [Decimal.value]
  have hmem : SplitArray.port.filled [48, 0] port = (port ++ [48]) ++ 0 :: [] := by
    rw [filled_of_eq .port _ heq]
    simp
  rw [hmem, atoi_digits (by simp) hdigits (by decide) [] (by omega), hmore, UInt16.ofInt, UInt16.toNat_ofNat']
  omega

/-- A remote with a `:` that passes the filters. -/
theorem registerSplit_allOrNothing_iff {rout : Uninit → RouteNode} {t : Mem} (hs : cstr remote = host ++ 58 :: port)
    (hhost : 58 ∉ host)
    (hlong : strlen remote < routBufRev) (hr : remote = host ++ 58 :: (port ++ t)) (ht : cstr (port ++ t) = port)
    (hrout : ∀ u, (rout u).remote = cstr remote) (hstar : cstr remote ≠ lit "*") :
    (∀ u, AllOrNothing inetAton routes remote (registerSplit inetAton u routes (rout u) remote (58 :: (port ++ t)))) ↔
      port.length ≤ 20 ∧ (inetAton host = none ∨ port.length < 20 ∧ ∃ n, IsPort port n) := by
  have hlen : host.length ≤ 128 := by
    rw [strlen, hs, List.length_append, routBufRev, routBuf] at hlong
    omega
  have hcopies : (∀ c ∈ ([⟨.host, 128⟩, ⟨.port, 20⟩, ⟨.host, host.length⟩, ⟨.port, port.length⟩] : List Copied),
      c.InRange) ↔
      port.length ≤ 20 := by
    simp [Copied.InRange, SplitArray.size, hlen]
  simp only [registerSplit_eq hs hlong hr ht]
  cases hinet : inetAton host with
  | none =>
    dsimp only
    refine ⟨fun h => ⟨hcopies.mp (h ⟨fun _ => [], 0, 0⟩).inRange, .inl rfl⟩,
      fun h u => ⟨by simp, fun _ => rfl, hcopies.mpr h.1⟩⟩
  | some addr =>
    dsimp only
    constructor
    · intro h
      have hport : ∀ stack : SplitArray → Mem, ∃ n, IsPort port n ∧
          (UInt16.ofInt (atoi (SplitArray.port.filled (stack .port) port))).toNat = n := by
        intro stack
        obtain ⟨r, hroutes, hremote, haddr⟩ := (h ⟨stack, 0, 0⟩).whole rfl
        obtain rfl := List.singleton_inj.mp (List.append_cancel_left hroutes)
        rcases haddr with hall | ⟨host', port', n, hsplit, hhost', hn, -, hnum⟩
        · exact absurd (hremote.symm.trans hall) hstar
        · obtain ⟨-, rfl⟩ := split_unique hhost hhost' (hs.symm.trans (hremote.symm.trans hsplit))
          exact ⟨n, hn, hnum⟩
      have hle := hcopies.mp (h ⟨fun _ => [], 0, 0⟩).inRange
      obtain ⟨n, hn, hnum⟩ := hport fun _ => [48, 0]
      refine ⟨hle, .inr ⟨lt_of_le_of_ne hle fun heq => port_of_eq hn heq hnum, n, hn⟩⟩
    · rintro ⟨hle, hno | ⟨hlt, n, hn⟩⟩ u
      · cases hno
      · refine ⟨fun _ => ⟨_, rfl, hrout u, .inr ⟨host, port, n, ?_, hhost, hn, hinet, port_of_lt hn hlt _⟩⟩,
          by simp, hcopies.mpr hle⟩
        exact (hrout u).trans hs

end split

/-- A configuration is refused by a filter, or is for every destination, or its remote has no `:`, or its port fits
the array and, where the host is an address, is a decimal number in range that leaves room for the NUL. -/
def Registrable (regcomp : List UInt8 → Option (List UInt8 → Bool)) (inetAton : List UInt8 → Option UInt32)
    (name src remote : Mem) : Prop :=
  TooLong name src remote ∨ regcomp (cstr src) = none ∨ cstr remote = lit "*" ∨
    ∀ host port, cstr remote = host ++ 58 :: port → 58 ∉ host →
      port.length ≤ 20 ∧ (inetAton host = none ∨ port.length < 20 ∧ ∃ n, IsPort port n)

/-- For all texts, whatever `regcomp` and `inet_aton` accept and uninitialised memory holds: a configuration is
registered whole or not at all and copied inside the arrays, exactly if it is `Registrable`. -/
theorem route_register_config_iff (regcomp : List UInt8 → Option (List UInt8 → Bool))
    (inetAton : List UInt8 → Option UInt32) (routes : List RouteNode) (name src remote : Mem) :
    (∀ u, AllOrNothing inetAton routes remote (routeRegisterConfig regcomp inetAton u routes name src remote)) ↔
      Registrable regcomp inetAton name src remote := by
  have hrefused : ∀ u : Uninit, AllOrNothing inetAton routes remote ⟨1, routes, []⟩ :=
    fun _ => ⟨by simp, fun _ => rfl, by simp⟩
  unfold routeRegisterConfig Registrable
  by_cases hlong : TooLong name src remote
  · simp only [if_pos hlong]
    exact iff_of_true hrefused (.inl hlong)
  rw [or_iff_right hlong]
  simp only [if_neg hlong]
  cases hrex : regcomp (cstr src) with
  | none => exact iff_of_true hrefused (.inl rfl)
  | some rex =>
    rw [or_iff_right (Option.some_ne_none rex)]
    dsimp only
    have hstar : strcmp remote (lit "*") = true ↔ cstr remote = lit "*" := by
      rw [strcmp, beq_iff_eq]
      rfl
    by_cases hall : cstr remote = lit "*"
    · simp only [if_pos (hstar.mpr hall)]
      exact iff_of_true (fun u => ⟨fun _ => ⟨_, rfl, rfl, .inl hall⟩, by simp, by simp⟩) (.inl hall)
    · rw [or_iff_right hall]
      simp only [if_neg (mt hstar.mp hall)]
      by_cases hcolon : (58 : UInt8) ∈ cstr remote
      · obtain ⟨host, port, hs, hhost⟩ := List.eq_append_cons_of_mem hcolon
        obtain ⟨t, hr, hpos, ht⟩ := strchr_of_cstr hs hhost
        have hshort : strlen remote < routBufRev := by
          rw [TooLong, not_or, not_or] at hlong
          omega
        have hin : ¬remote.length - (58 :: (port ++ t)).length ≥ strlen remote := by
          rw [strlen, hs, hr]
          simp only [List.length_append, List.length_cons]
          omega
        simp only [hpos, if_neg hin]
        refine (registerSplit_allOrNothing_iff hs hhost hshort hr ht (fun _ => rfl) hall).trans ?_
        constructor
        · intro h host' port' hs' hhost'
          obtain ⟨rfl, rfl⟩ := split_unique hhost hhost' (hs.symm.trans hs')
          exact h
        · exact fun h => h host port hs hhost
      · rw [strchr_eq_none_of_cstr (by decide) hcolon]
        refine iff_of_true hrefused fun host port hs _ => absurd ?_ hcolon
        rw [hs]
        exact List.mem_append_right _ List.mem_cons_self

/-- A port of 21 digits is copied beyond its array. -/
theorem port_beyond_array : ¬∀ u, AllOrNothing (fun _ => some 16777343)
    [] (lit "127.0.0.1:000000000000000000080" ++ [0])
    (routeRegisterConfig (fun _ => some fun _ => true) (fun _ => some 16777343) u [] (lit "r" ++ [0]) (lit ".*" ++ [0])
      (lit "127.0.0.1:000000000000000000080" ++ [0])) := by
  intro h
  have hin := (h ⟨fun _ => [], 0, 0⟩).inRange ⟨.port, 21⟩ (by decide)
  exact absurd hin (by decide)

end ZeroServ.Routing
