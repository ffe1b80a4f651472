/-
# Configuration

How much pools keep.
-/

namespace XmlRpc

/-- The limits of pools and the sizes of their buffers, in octets. -/
structure Config where
  /-- Idle codecs that a pool keeps. -/
  poolCapacity : Nat
  /-- Idle buffers kept for a method. -/
  buffersPerMethod : Nat
  /-- Methods that buffers are kept for. -/
  maxPooledMethods : Nat
  /-- The capacity of a new buffer. -/
  bufferCapacity : Nat
  /-- The capacity above which a buffer is not kept. -/
  maxRetainedCapacity : Nat
  deriving DecidableEq

namespace Config

/-- The limits where none are given. -/
def standard : Config := ⟨64, 8, 256, 4096, 1048576⟩

instance : Inhabited Config := ⟨standard⟩

end Config

end XmlRpc
