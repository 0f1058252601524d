import Mathlib.Data.BitVec

/-!
# Descriptors and what a callback returns

The constants of `type/fd.h`: the two directions of interest and the flags a read or write callback returns to the
poller, as the bits of a C `int`.
-/

namespace ZeroServ

/-- A descriptor number, an index of `fdtab`. -/
abbrev Fd := Nat

/-- `DIR_RD` and `DIR_WR` -/
inductive Dir where
  | rd | wr
  deriving DecidableEq, Repr

/-- What a callback returns: a C `int`, read as the flags `ZB_*`. -/
abbrev Flags := BitVec 32

namespace Zb

def nop : Flags := 0
def closeRd : Flags := 0x1
def closeWr : Flags := 0x2
def close : Flags := closeRd ||| closeWr
def setRd : Flags := 0x4
def setWr : Flags := 0x8
def fail : Flags := 0xff

end Zb

/-- The handlers of the repository that serve TCP connections. -/
inductive Handler where
  | echo | http | memcached | pubsub | httpPubsub
  deriving DecidableEq, Repr

end ZeroServ
