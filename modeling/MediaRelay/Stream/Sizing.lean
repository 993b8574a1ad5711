/-! # Sizing of a ring

A ring consists of blocks of equal size. A block is the unit of production, delivery and eviction.
-/
namespace MediaRelay

structure Sizing where
  blockSize : Nat := 1024 * 1024
  blockCount : Nat := 16
deriving DecidableEq

namespace Sizing

/-- Sizes are machine words. -/
def wordSize : Nat := UInt64.size

/-- With fewer blocks the slowest reader could keep the ring full for ever. -/
def leastBlockCount : Nat := 4

def withBlockSize (z : Sizing) (size : Nat) : Sizing := { z with blockSize := max size 1 }

def withBlockCount (z : Sizing) (count : Nat) : Sizing :=
  { z with blockCount := max count leastBlockCount }

/-- A product that does not fit in a machine word is cut off. -/
def capacity (z : Sizing) : Nat := z.blockSize * z.blockCount % wordSize

def clamped (z : Sizing) : Sizing := (z.withBlockSize z.blockSize).withBlockCount z.blockCount

end Sizing
end MediaRelay
