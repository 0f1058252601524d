import Mathlib.Data.List.TakeDrop
import ZeroServ.Lib.LittleEndian

/-!
# The datagrams of the router

`type/routing.h`: a packet is a header of 24 bytes and the data, sent as it lies in memory, in the byte order of the
machine (here the low byte first). `util.h`: its data have a checksum of 16 bits, summed in words of 64 bits with the
carry added in.
-/

namespace ZeroServ
namespace Routing

open LittleEndian

/-- `HEADER_SIZE` -/
def headerSize : Nat := 24

/-- `CTL_SEND` -/
def ctlSend : UInt8 := 1

/-- `CTL_ACK` -/
def ctlAck : UInt8 := 2

/-- `union packet`, its member `field`. -/
structure Packet where
  frameSize : UInt32
  srcIp : UInt32
  srcPort : UInt16
  dstIp : UInt32
  dstPort : UInt16
  seq : UInt32
  ack : UInt8
  control : UInt8
  checksum : UInt16
  data : List UInt8
  deriving DecidableEq, Repr

namespace Packet

/-- The member `context`: the bytes of the packet in memory. -/
def context (pk : Packet) : List UInt8 :=
  bytes 4 pk.frameSize.toNat ++ (bytes 4 pk.srcIp.toNat ++ (bytes 2 pk.srcPort.toNat ++ (bytes 4 pk.dstIp.toNat ++
    (bytes 2 pk.dstPort.toNat ++ (bytes 4 pk.seq.toNat ++ (bytes 1 pk.ack.toNat ++ (bytes 1 pk.control.toNat ++
      (bytes 2 pk.checksum.toNat ++ pk.data))))))))

/-- The number of `n` bytes at an offset of a memory. -/
def fieldAt (mem : List UInt8) (ofs n : Nat) : Nat := word ((mem.drop ofs).take n)

/-- The packet that bytes in memory are. -/
def ofContext (mem : List UInt8) : Packet where
  frameSize := .ofNat (fieldAt mem 0 4)
  srcIp := .ofNat (fieldAt mem 4 4)
  srcPort := .ofNat (fieldAt mem 8 2)
  dstIp := .ofNat (fieldAt mem 10 4)
  dstPort := .ofNat (fieldAt mem 14 2)
  seq := .ofNat (fieldAt mem 16 4)
  ack := .ofNat (fieldAt mem 20 1)
  control := .ofNat (fieldAt mem 21 1)
  checksum := .ofNat (fieldAt mem 22 2)
  data := mem.drop headerSize

theorem length_context (pk : Packet) : pk.context.length = headerSize + pk.data.length := by
  simp only [context, List.length_append, length_bytes, headerSize]
  omega

/-- A field of a memory that starts with it. -/
theorem fieldAt_zero {n x : Nat} (h : x < 256 ^ n) (rest : List UInt8) : fieldAt (bytes n x ++ rest) 0 n = x := by
  rw [fieldAt, List.drop_zero, List.take_left' (length_bytes n x), word_bytes h]

/-- A field behind another is at the offset that is left. -/
theorem fieldAt_skip {k ofs n x : Nat} {rest : List UInt8} (h : k ≤ ofs) :
    fieldAt (bytes k x ++ rest) ofs n = fieldAt rest (ofs - k) n := by
  have hofs : ofs = k + (ofs - k) := (Nat.add_sub_of_le h).symm
  rw [fieldAt, fieldAt, hofs, ← List.drop_drop, List.drop_left' (length_bytes k x), Nat.add_sub_cancel_left]

/-- A packet read from the bytes it was sent as is the packet. -/
theorem ofContext_context (pk : Packet) : ofContext pk.context = pk := by
  have h8 (x : UInt8) (rest : List UInt8) : fieldAt (bytes 1 x.toNat ++ rest) 0 1 = x.toNat :=
    fieldAt_zero x.toNat_lt rest
  have h16 (x : UInt16) (rest : List UInt8) : fieldAt (bytes 2 x.toNat ++ rest) 0 2 = x.toNat :=
    fieldAt_zero x.toNat_lt rest
  have h32 (x : UInt32) (rest : List UInt8) : fieldAt (bytes 4 x.toNat ++ rest) 0 4 = x.toNat :=
    fieldAt_zero x.toNat_lt rest
  have hdata : pk.context.drop headerSize = pk.data := by
    have h : (context { pk with data := [] }).length = headerSize := length_context { pk with data := [] }
    have happ : pk.context = context { pk with data := [] } ++ pk.data := by simp [context]
    rw [happ, List.drop_left' h]
  rw [ofContext, hdata]
  simp [context, fieldAt_skip, h8, h16, h32]

end Packet

/-! ## `tcp_checksum` -/

/-- `sum += s; if (sum < s) sum++;` -/
def addCarry (sum s : UInt64) : UInt64 := if sum + s < s then sum + s + 1 else sum + s

/-- The number of `n` bytes at a place of memory. -/
def load (n : Nat) (mem : List UInt8) : UInt64 := .ofNat (word (mem.take n))

/-- The main loop: words of eight bytes are summed. -/
def sumWords : Nat → UInt64 → List UInt8 → UInt64 × List UInt8
  | 0, sum, mem => (sum, mem)
  | n + 1, sum, mem => sumWords n (addCarry sum (load 8 mem)) (mem.drop 8)

/-- The sum folded down to 16 bits. -/
def fold (sum : UInt64) : UInt16 :=
  let t2 := (sum >>> 32).toUInt32
  let t1 := sum.toUInt32 + t2
  let t1 := if t1 < t2 then t1 + 1 else t1
  let t4 := (t1 >>> 16).toUInt16
  let t3 := t1.toUInt16 + t4
  if t3 < t4 then t3 + 1 else t3

/-- `tcp_checksum` of `size` bytes at `buf`, the memory from that address on, if it is not `NULL`. The parts of the
tail do not take from `size`: the last one reads a byte for every tail that is not empty. -/
def tcpChecksum (buf : Option (List UInt8)) (size : Nat) : UInt16 :=
  match buf with
  | none => 0
  | some mem =>
    let (sum, mem) := sumWords (size / 8) 0 mem
    let size := size % 8
    let (sum, mem) := if size &&& 4 ≠ 0 then (addCarry sum (load 4 mem), mem.drop 4) else (sum, mem)
    let (sum, mem) := if size &&& 2 ≠ 0 then (addCarry sum (load 2 mem), mem.drop 2) else (sum, mem)
    let sum := if size ≠ 0 then addCarry sum (load 1 mem) else sum
    ~~~fold sum

/-- No bytes have the checksum of all ones. -/
theorem tcpChecksum_zero (mem : List UInt8) : tcpChecksum (some mem) 0 = 0xFFFF := by
  have hsum : fold 0 = 0 := by decide
  have hmod : (0 : Nat) % 8 = 0 := rfl
  rw [tcpChecksum, hmod]
  simp only [sumWords, Nat.zero_div, Nat.zero_and, ne_eq, not_true_eq_false, if_false, hsum]
  decide

example : tcpChecksum (some [1, 2, 3]) 3 = 0xFDFB := by decide

end Routing
end ZeroServ
