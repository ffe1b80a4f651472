/-
# Pools of codecs

Idle codecs wait in a queue of bounded length.  `acquire` takes the one that
has waited longest, or makes one when none is idle, and resets it; `release`
puts it back, or drops it when the queue is full.  Codecs are told apart by
serial numbers, and the pool counts those made and those dropped.
-/
import XmlRpc.Codec.Basic

namespace XmlRpc

/-- A codec of a pool, with its serial number. -/
structure PooledCodec where
  serial : Nat
  codec : Codec

/-- A pool: the idle codecs, the one that has waited longest first, and how
many were made and dropped so far. -/
structure CodecPool where
  config : Config
  idle : List PooledCodec
  created : Nat
  dropped : Nat

namespace CodecPool

def new (config : Config) : CodecPool := ⟨config, [], 0, 0⟩

/-- How many idle codecs a pool keeps: at least one. -/
def capacity (p : CodecPool) : Nat := max 1 p.config.poolCapacity

def idleCount (p : CodecPool) : Nat := p.idle.length

/-- Takes a codec, reset for a new message. -/
def acquire (p : CodecPool) : PooledCodec × CodecPool :=
  match p.idle with
  | c :: idle => ({ c with codec := c.codec.reset }, { p with idle })
  | [] => (⟨p.created, (Codec.new p.config).reset⟩, { p with created := p.created + 1 })

def release (p : CodecPool) (c : PooledCodec) : CodecPool :=
  if p.idleCount < p.capacity then { p with idle := p.idle ++ [c] }
  else { p with dropped := p.dropped + 1 }

/-- Lends a codec to `body`, which may use the pool meanwhile.  Whatever
`body` ends with, the codec is put back. -/
def withCodec {α : Type} (p : CodecPool)
    (body : Codec → CodecPool → α × Codec × CodecPool) : α × CodecPool :=
  let (c, p) := p.acquire
  let (a, codec, p) := body c.codec p
  (a, p.release { c with codec })

end CodecPool

end XmlRpc
