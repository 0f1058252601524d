import ZeroServ.Lib.Decimal
import ZeroServ.Routing.Packet
import ZeroServ.Ticks

/-!
# The router

`proto_routing.c`: a datagram that passes the tests of `routing_parse` is for the node itself or is sent on. A node
acknowledges the packets it gets (`ack_response`); a sender keeps a task for each packet it sent, under a key made of
its endpoints and its number (`zen_hash`), which sends the packet again until the acknowledgement comes (`proc_mine`)
or the tries are used up (`retry`).
-/

namespace ZeroServ
namespace Routing

open CString Decimal

/-- `struct route`: its expression as the texts that `regexec` matches with it, and where to send what it matches. -/
structure Route where
  rexDest : List UInt8 → Bool
  remote : List UInt8
  sRemote : UInt32 × UInt16

/-- `struct router_setting` -/
structure Setting where
  retry : Int32
  timeout : Int32
  maxPacket : Int32
  deriving Repr

/-- `struct router_stat` -/
structure Stat where
  recv : UInt64 := 0
  broken : UInt64 := 0
  retries : UInt64 := 0
  drop : UInt64 := 0
  deriving DecidableEq, Repr

/-- `struct packet_trip`: a packet on its way, and how often it was sent again. -/
structure Trip where
  r : Route
  p : Packet
  entries : Int

/-- `struct task` of a trip. -/
structure Task where
  expire : Tick
  trip : Trip

/-- `struct hash_task` -/
structure HashTask where
  unique : List UInt8
  task : Task

/-- What a node of the router has. -/
structure Node where
  setting : Setting
  stat : Stat := {}
  /-- the addresses of its interfaces -/
  mineIp : List UInt32 := []
  /-- the ids of `local_ports` -/
  localPorts : List UInt32 := []
  routes : List Route := []
  tasks : List HashTask := []

/-- `enum PACKET_STATE` -/
inductive PacketState where
  | success | retryOver
  deriving DecidableEq, Repr

/-- What a call does outside the node's own state: it sends a datagram to an address, or calls a trip's callback. -/
inductive Effect where
  | send (host : UInt32) (port : UInt16) (bytes : List UInt8)
  | cb (result : PacketState) (trip : Trip)

/-- What the stack and the heap hold behind the variables of a call: the two bytes behind the `unsigned short` that
`get_local_port` looks up as an `int`, and the memory behind the copy of the datagram. -/
structure Behind where
  id : UInt16 := 0
  data : List UInt8 := []

/-! ## Texts -/

/-- `ntoip`, that is `inet_ntoa`: an address holds its four numbers in the order of its bytes in memory, the first
one low. -/
def ntoip (ip : UInt32) : List UInt8 :=
  natText (ip.toNat % 256) ++ (46 :: (natText (ip.toNat / 256 % 256) ++ (46 :: (natText (ip.toNat / 65536 % 256) ++
    (46 :: natText (ip.toNat / 16777216))))))

/-- `snprintf` into an array of `size` bytes: the NUL is left out. -/
def snprintf (size : Nat) (text : List UInt8) : List UInt8 := text.take (size - 1)

/-- The endpoint as the routes' expressions match it: `%s:%d`. -/
def destDetail (ip : UInt32) (port : UInt16) : List UInt8 := snprintf 63 (ntoip ip ++ 58 :: intText port.toNat)

/-- `MAX_HASH` -/
def maxHash : Nat := 128

/-- `zen_hash`: the key of a packet, `%d-%s:%d-%s:%d`. -/
def zenHash (pk : Packet) (maxLen : Nat) : List UInt8 :=
  snprintf maxLen (intText pk.seq.toInt32.toInt ++ 45 :: (ntoip pk.srcIp ++ 58 :: (intText pk.srcPort.toNat ++ 45 ::
    (ntoip pk.dstIp ++ 58 :: intText pk.dstIp.toInt32.toInt))))

/-! ## Addresses and routes -/

/-- `route_get_by_dst` -/
def Node.routeGetByDst (n : Node) (dst : List UInt8) : Option Route := n.routes.find? (·.rexDest dst)

/-- `is_mine_ip` -/
def Node.isMineIp (n : Node) (ip : UInt32) : Bool := n.mineIp.contains ip

/-- `get_local_port`: the entry is looked up by the four bytes at the address of `id`. -/
def Node.getLocalPort (n : Node) (id : UInt16) (behind : Behind) : Bool :=
  n.localPorts.contains (.ofNat (id.toNat + 65536 * behind.id.toNat))

/-- `send_packet` and `send_packet_direct`: `frameSize` bytes go to the remote of the route, or to the destination
itself. -/
def sendPacket (r : Route) (pk : Packet) : Effect :=
  let bytes := pk.context.take pk.frameSize.toNat
  if r.remote = lit "*" then .send pk.dstIp pk.dstPort bytes else .send r.sRemote.1 r.sRemote.2 bytes

/-! ## Acknowledgements -/

/-- The packet `ack_response` builds. -/
def ackPacket (pk : Packet) : Packet where
  frameSize := .ofNat headerSize
  srcIp := pk.dstIp
  srcPort := pk.dstPort
  dstIp := pk.srcIp
  dstPort := pk.srcPort
  seq := pk.seq
  ack := pk.ack
  control := ctlAck
  checksum := 0
  data := []

/-- `ack_response`: nothing is sent where no route matches the source. -/
def ackResponse (n : Node) (pk : Packet) : Option Effect :=
  (n.routeGetByDst (destDetail pk.srcIp pk.srcPort)).map fun r => sendPacket r (ackPacket pk)

/-- `retry`: the task of a packet that was not acknowledged in time. Once the tries are used up, its entry of the
table goes and the task with it; else the packet is sent once more and the task waits again. -/
def retry (n : Node) (t : Task) (now : Tick) : Node × List Effect × Option Task :=
  let trip := { t.trip with entries := t.trip.entries + 1 }
  if n.setting.retry.toInt ≤ t.trip.entries then
    ({ n with
        tasks := n.tasks.eraseP (·.unique = zenHash trip.p maxHash)
        stat := { n.stat with drop := n.stat.drop + 1 } },
      [.cb .retryOver trip], none)
  else
    ({ n with stat := { n.stat with retries := n.stat.retries + 1 } },
      [.send trip.r.sRemote.1 trip.r.sRemote.2 (trip.p.context.take trip.p.frameSize.toNat)],
      some { expire := now.add n.setting.timeout.toBitVec, trip := trip })

/-- `proc_mine` -/
def procMine (n : Node) (pk : Packet) : Node × List Effect :=
  if pk.control = ctlSend then (n, (ackResponse n pk).toList)
  else if pk.control = ctlAck then
    match n.tasks.find? (·.unique = zenHash pk maxHash) with
    | none => (n, [])
    | some ht => ({ n with tasks := n.tasks.eraseP (·.unique = zenHash pk maxHash) }, [.cb .success ht.task.trip])
  else (n, [])

/-! ## `routing_proc` and `routing_parse` -/

/-- The packet is for the node itself. -/
def Node.isMine (n : Node) (pk : Packet) (behind : Behind) : Bool :=
  n.isMineIp pk.dstIp && n.getLocalPort pk.dstPort behind

/-- `routing_proc`; after `proc_mine` it returns no value. -/
def routingProc (n : Node) (pk : Packet) (behind : Behind) : Node × List Effect × Option Int :=
  if n.isMine pk behind then ((procMine n pk).1, (procMine n pk).2, none)
  else
    match n.routeGetByDst (destDetail pk.dstIp pk.dstPort) with
    | none => (n, [], some 1)
    | some r => (n, [sendPacket r pk], some 0)

/-- What `routing_parse` refuses a datagram for. -/
inductive Refusal where
  /-- less than a header -/
  | broken
  /-- `frameSize` is above `max_packet` -/
  | large
  /-- `frameSize` is not the size of the datagram -/
  | notEnough
  | checksum
  deriving DecidableEq, Repr

/-- The tests of `routing_parse`. -/
def checkPacket (setting : Setting) (behind : Behind) (datagram : List UInt8) : Except Refusal Packet :=
  if datagram.length < headerSize then .error .broken
  else
    let pk := Packet.ofContext datagram
    if setting.maxPacket.toUInt32 < pk.frameSize then .error .large
    else if pk.frameSize ≠ .ofNat datagram.length then .error .notEnough
    else if tcpChecksum (some (pk.data ++ behind.data)) (datagram.length - headerSize) ≠ pk.checksum then
      .error .checksum
    else .ok pk

/-- `routing_parse` -/
def routingParse (n : Node) (behind : Behind) (datagram : List UInt8) : Node × List Effect × Option Int :=
  let n := { n with stat := { n.stat with recv := n.stat.recv + 1 } }
  match checkPacket n.setting behind datagram with
  | .error .broken => (n, [], some (-1))
  | .error _ => ({ n with stat := { n.stat with broken := n.stat.broken + 1 } }, [], some 1)
  | .ok pk => routingProc n pk behind

end Routing
end ZeroServ
