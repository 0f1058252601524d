import ZeroServ.Routing.Proto

/-!
# Acknowledgements

The two halves of an acknowledgement do not meet. `ack_never_accepted`: the packet that `ack_response` sends has the
checksum zero where `routing_parse` asks for that of no data, so that every node refuses it. `ack_matches_iff`: its
endpoints are those of the packet it answers swapped, while a sender looks its packet up under the endpoints as they
were, and the key has the destination's address in the place of its port; so that the key of an acknowledgement is
that of a packet which goes the other way.
-/

namespace ZeroServ
namespace Routing

open CString Decimal

/-! ## Keys -/

/-- An address as a text, up to a byte that is no digit, is that of one address. -/
theorem ntoip_append_inj {x y : UInt32} {b c : UInt8} (hb : isDigit b = false) (hc : isDigit c = false)
    {s t : List UInt8} (h : ntoip x ++ b :: s = ntoip y ++ c :: t) : x = y ∧ b :: s = c :: t := by
  have hdot : isDigit 46 = false := by decide
  simp only [ntoip, List.append_assoc, List.cons_append] at h
  obtain ⟨h0, h⟩ := natText_append_inj hdot hdot h
  obtain ⟨h1, h⟩ := natText_append_inj hdot hdot (List.cons.inj h).2
  obtain ⟨h2, h⟩ := natText_append_inj hdot hdot (List.cons.inj h).2
  obtain ⟨h3, h⟩ := natText_append_inj hb hc (List.cons.inj h).2
  refine ⟨?_, h⟩
  rw [← UInt32.toNat_inj]
  omega

/-- An address takes fifteen bytes at most, so that it fits the arrays of `zen_hash` and `ack_response`. -/
theorem length_ntoip_le (ip : UInt32) : (ntoip ip).length ≤ 15 := by
  have hip : ip.toNat < 4294967296 := ip.toNat_lt
  have hlen {n : Nat} (h : n < 256) : (natText n).length ≤ 3 := length_natText_le (by decide) (by omega)
  have h0 := hlen (n := ip.toNat % 256) (by omega)
  have h1 := hlen (n := ip.toNat / 256 % 256) (by omega)
  have h2 := hlen (n := ip.toNat / 65536 % 256) (by omega)
  have h3 := hlen (n := ip.toNat / 16777216) (by omega)
  simp only [ntoip, List.length_append, List.length_cons]
  omega

/-- A key fits the array of `MAX_HASH` bytes: nothing of it is cut off. -/
theorem zenHash_eq (pk : Packet) : zenHash pk maxHash =
    intText pk.seq.toInt32.toInt ++ 45 :: (ntoip pk.srcIp ++ 58 :: (intText pk.srcPort.toNat ++ 45 ::
      (ntoip pk.dstIp ++ 58 :: intText pk.dstIp.toInt32.toInt))) := by
  have hport : pk.srcPort.toNat < 65536 := pk.srcPort.toNat_lt
  have hint (x : Int32) : (intText x.toInt).length ≤ 11 := length_intText_le x.le_toInt x.toInt_lt
  have h1 := hint pk.seq.toInt32
  have h2 := hint pk.dstIp.toInt32
  have h3 : (intText pk.srcPort.toNat).length ≤ 11 := length_intText_le (by omega) (by omega)
  have h4 := length_ntoip_le pk.srcIp
  have h5 := length_ntoip_le pk.dstIp
  rw [zenHash, snprintf, List.take_of_length_le]
  simp only [List.length_append, List.length_cons, maxHash]
  omega

/-- Two packets have the same key where their numbers, their sources and the addresses of their destinations are the
same. -/
theorem zenHash_inj_iff (p q : Packet) : zenHash p maxHash = zenHash q maxHash ↔
    p.seq = q.seq ∧ p.srcIp = q.srcIp ∧ p.srcPort = q.srcPort ∧ p.dstIp = q.dstIp := by
  have hdash : isDigit 45 = false := by decide
  have hcolon : isDigit 58 = false := by decide
  rw [zenHash_eq, zenHash_eq]
  constructor
  · intro h
    obtain ⟨hseq, h⟩ := intText_append_inj hdash hdash h
    obtain ⟨hsrc, h⟩ := ntoip_append_inj hcolon hcolon (List.cons.inj h).2
    obtain ⟨hport, h⟩ := intText_append_inj hdash hdash (List.cons.inj h).2
    obtain ⟨hdst, -⟩ := ntoip_append_inj hcolon hcolon (List.cons.inj h).2
    refine ⟨?_, hsrc, ?_, hdst⟩
    · rw [← UInt32.toUInt32_toInt32 p.seq, Int32.toInt_inj.mp hseq, UInt32.toUInt32_toInt32]
    · exact UInt16.toNat_inj.mp (by exact_mod_cast hport)
  · rintro ⟨hseq, hsrc, hport, hdst⟩
    rw [hseq, hsrc, hport, hdst]

/-! ## The packet an acknowledgement is matched to -/

/-- The packets have the same endpoints and the same number. -/
structure SamePacket (p q : Packet) : Prop where
  srcIp : p.srcIp = q.srcIp
  srcPort : p.srcPort = q.srcPort
  dstIp : p.dstIp = q.dstIp
  dstPort : p.dstPort = q.dstPort
  seq : p.seq = q.seq

/-- The packet goes from the endpoint that the other one goes to, to the address that the other one comes from, with
the same number. -/
structure GoesBack (p q : Packet) : Prop where
  srcIp : p.srcIp = q.dstIp
  srcPort : p.srcPort = q.dstPort
  dstIp : p.dstIp = q.srcIp
  seq : p.seq = q.seq

/-- The packet goes from an endpoint to itself. -/
def FromItself (p : Packet) : Prop := p.srcIp = p.dstIp ∧ p.srcPort = p.dstPort

/-- The key of the acknowledgement of a packet is that of the packets that go the other way. -/
theorem zenHash_ackPacket_iff (p q : Packet) : zenHash (ackPacket q) maxHash = zenHash p maxHash ↔ GoesBack p q := by
  rw [zenHash_inj_iff]
  constructor
  · rintro ⟨hseq, hsrc, hport, hdst⟩
    exact ⟨hsrc.symm, hport.symm, hdst.symm, hseq.symm⟩
  · rintro ⟨hsrc, hport, hdst, hseq⟩
    exact ⟨hseq.symm, hsrc.symm, hport.symm, hdst.symm⟩

/-- The acknowledgement of `q` has the key of `p` where they are the same packet, and there only, exactly if: the
same packet goes from an endpoint to itself, and a packet that goes back is the same packet. -/
theorem ack_matches_iff (p q : Packet) :
    (zenHash (ackPacket q) maxHash = zenHash p maxHash ↔ SamePacket p q) ↔
      (SamePacket p q → FromItself q) ∧ (GoesBack p q → SamePacket p q) := by
  rw [zenHash_ackPacket_iff]
  constructor
  · intro h
    refine ⟨fun hsame => ?_, h.mp⟩
    have hback := h.mpr hsame
    exact ⟨hsame.srcIp.symm.trans hback.srcIp, hsame.srcPort.symm.trans hback.srcPort⟩
  · rintro ⟨hself, hback⟩
    refine ⟨hback, fun hsame => ?_⟩
    obtain ⟨hip, hport⟩ := hself hsame
    exact ⟨hsame.srcIp.trans hip, hsame.srcPort.trans hport, hsame.dstIp.trans hip.symm, hsame.seq⟩

/-- A packet from one host to another. -/
def crossing : Packet where
  frameSize := 24
  srcIp := 0x0100000A
  srcPort := 5
  dstIp := 0x0200000A
  dstPort := 7
  seq := 1
  ack := 0
  control := ctlSend
  checksum := 0xFFFF
  data := []

/-- The acknowledgement of a packet between two hosts is not matched to it. -/
theorem ack_unmatched : ¬∀ p q : Packet, zenHash (ackPacket q) maxHash = zenHash p maxHash ↔ SamePacket p q := by
  intro h
  have hkey := (h crossing crossing).mpr ⟨rfl, rfl, rfl, rfl, rfl⟩
  exact absurd ((zenHash_ackPacket_iff _ _).mp hkey).srcIp (by decide)

/-! ## Acknowledgements on their way -/

/-- A node gets a datagram that `routing_parse` accepts, that is for the node itself and asks for an acknowledgement,
and finds a route for that: the acknowledgement is sent. -/
structure AckSent (n : Node) (behind : Behind) (datagram : List UInt8) (pk : Packet) (host : UInt32) (port : UInt16)
    (bytes : List UInt8) : Prop where
  accepted : checkPacket n.setting behind datagram = .ok pk
  mine : n.isMine pk behind = true
  control : pk.control = ctlSend
  sent : ackResponse n pk = some (.send host port bytes)

/-- A node accepts the bytes as the acknowledgement of a packet. -/
def AckAccepted (setting : Setting) (behind : Behind) (pk : Packet) (bytes : List UInt8) : Prop :=
  ∃ ack, checkPacket setting behind bytes = .ok ack ∧ ack.seq = pk.seq ∧ ack.srcIp = pk.dstIp ∧
    ack.srcPort = pk.dstPort ∧
    ack.dstIp = pk.srcIp ∧ ack.dstPort = pk.srcPort

/-- An acknowledgement is a header. -/
theorem length_ackPacket (pk : Packet) : (ackPacket pk).context.length = headerSize :=
  Packet.length_context (ackPacket pk)

/-- What `ack_response` sends are the bytes of the packet it built. -/
theorem ackResponse_bytes {n : Node} {pk : Packet} {host : UInt32} {port : UInt16} {bytes : List UInt8}
    (h : ackResponse n pk = some (.send host port bytes)) : bytes = (ackPacket pk).context := by
  have hall : (ackPacket pk).context.take (ackPacket pk).frameSize.toNat = (ackPacket pk).context :=
    List.take_of_length_le (Nat.le_of_eq (length_ackPacket pk))
  obtain ⟨r, -, hr⟩ := Option.map_eq_some_iff.mp h
  unfold sendPacket at hr
  rw [hall] at hr
  split at hr
  · exact (Effect.send.inj hr).2.2.symm
  · exact (Effect.send.inj hr).2.2.symm

/-- The acknowledgement is all that the node does about the datagram. -/
theorem AckSent.routingParse {n : Node} {behind : Behind} {datagram : List UInt8} {pk : Packet} {host : UInt32}
    {port : UInt16} {bytes : List UInt8} (h : AckSent n behind datagram pk host port bytes) :
    routingParse n behind datagram =
      ({ n with stat := { n.stat with recv := n.stat.recv + 1 } }, [.send host port bytes], none) := by
  have hmine : Node.isMine { n with stat := { n.stat with recv := n.stat.recv + 1 } } pk behind = true := h.mine
  have hsent : ackResponse { n with stat := { n.stat with recv := n.stat.recv + 1 } } pk =
    some (.send host port bytes) := h.sent
  unfold Routing.routingParse
  simp only [h.accepted, routingProc, hmine, if_true, procMine, h.control, hsent, Option.toList_some]

/-- Every node refuses an acknowledgement, for its checksum where it takes packets of that size at all. -/
theorem ackPacket_refused (setting : Setting) (behind : Behind) (pk : Packet) :
    checkPacket setting behind (ackPacket pk).context =
      if setting.maxPacket.toUInt32 < 24 then .error .large else .error .checksum := by
  have hsize : (ackPacket pk).frameSize = 24 := rfl
  have hsum : (ackPacket pk).checksum = 0 := rfl
  unfold checkPacket
  rw [length_ackPacket, Packet.ofContext_context, if_neg (by decide)]
  by_cases hlarge : setting.maxPacket.toUInt32 < 24
  · rw [if_pos hlarge]
    simp only [hsize, hlarge, if_true]
  · rw [if_neg hlarge]
    simp only [hsize, hlarge, if_false]
    rw [if_neg (by decide), Nat.sub_self, tcpChecksum_zero, hsum, if_pos (by decide)]

/-- No acknowledgement is accepted: whatever node gets it, under whatever settings, refuses it. -/
theorem ack_never_accepted {n : Node} {behind : Behind} {datagram : List UInt8} {pk : Packet} {host : UInt32}
    {port : UInt16}
    {bytes : List UInt8} (h : AckSent n behind datagram pk host port bytes) (setting : Setting) (behind' : Behind) :
    ¬AckAccepted setting behind' pk bytes := by
  rintro ⟨ack, hcheck, -⟩
  rw [ackResponse_bytes h.sent, ackPacket_refused] at hcheck
  split at hcheck
  · cases hcheck
  · cases hcheck

/-- A node that has the packet's destination, and a route for every text. -/
def destination : Node where
  setting := { retry := 3, timeout := 100, maxPacket := 1500 }
  mineIp := [0x0200000A]
  localPorts := [7]
  routes := [{ rexDest := fun _ => true, remote := lit "*", sRemote := (0, 0) }]

/-- It sends an acknowledgement for the packet. -/
theorem destination_ackSent :
    AckSent destination {} crossing.context crossing 0x0100000A 5 (ackPacket crossing).context where
  accepted := by decide +kernel
  mine := by decide
  control := rfl
  sent := by rfl

theorem ack_never_accepted_crossing :
    AckSent destination {} crossing.context crossing 0x0100000A 5 (ackPacket crossing).context ∧
      ¬AckAccepted { retry := 3, timeout := 100, maxPacket := 1500 } {} crossing (ackPacket crossing).context :=
  ⟨destination_ackSent, ack_never_accepted destination_ackSent _ _⟩

/-- An acknowledgement that is sent and refused by a node which takes packets of its size. -/
theorem ack_refused : ¬∀ (n : Node) (behind : Behind) (datagram : List UInt8) (pk : Packet) (host : UInt32)
    (port : UInt16) (bytes : List UInt8), AckSent n behind datagram pk host port bytes →
      ∀ (setting : Setting) (behind' : Behind), 24 ≤ setting.maxPacket → AckAccepted setting behind' pk bytes := by
  intro h
  obtain ⟨ack, hcheck, -⟩ := h _ _ _ _ _ _ _ destination_ackSent destination.setting {} (by decide)
  rw [ackPacket_refused] at hcheck
  cases hcheck

end Routing
end ZeroServ
