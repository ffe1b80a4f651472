/-
# Pools of buffers

Calls of one method tend to be of one size, so idle buffers are kept by
method.  A buffer is lent empty and kept empty; one that has grown too large
is dropped.  A method gets its entry with its first idle buffer and keeps it
when that buffer is lent again.
-/
import XmlRpc.Codec.Pool

namespace XmlRpc

/-- A pool of buffers: the idle ones of each method, the last one put back
first. -/
structure BufferPool where
  config : Config
  entries : List (String × List Buffer)

namespace BufferPool

def new (config : Config) : BufferPool := ⟨config, []⟩

/-- The idle buffers of a method, if it has an entry. -/
def idle? (p : BufferPool) (method : String) : Option (List Buffer) :=
  (p.entries.find? (·.1 == method)).map (·.2)

def idleCount (p : BufferPool) (method : String) : Nat :=
  ((p.idle? method).getD []).length

/-- How many methods have an entry. -/
def methodCount (p : BufferPool) : Nat := p.entries.length

/-- Sets the idle buffers of a method that has an entry. -/
def setIdle (p : BufferPool) (method : String) (bs : List Buffer) : BufferPool :=
  { p with entries := p.entries.map fun (m, cs) => (m, if m = method then bs else cs) }

/-- Takes a buffer for a method, or makes one. -/
def take (p : BufferPool) (method : String) : Buffer × BufferPool :=
  match p.idle? method with
  | some (b :: bs) => (b, p.setIdle method bs)
  | _ => (.new p.config.bufferCapacity, p)

/-- Puts a buffer back, unless it is too large or there is no room for it. -/
def put (p : BufferPool) (method : String) (b : Buffer) : BufferPool :=
  if p.config.maxRetainedCapacity < b.capacity then p
  else
    match p.idle? method with
    | some bs =>
      if bs.length < p.config.buffersPerMethod then p.setIdle method (b.clear :: bs)
      else p
    | none =>
      if p.config.maxPooledMethods ≤ p.methodCount || p.config.buffersPerMethod = 0 then p
      else { p with entries := p.entries ++ [(method, [b.clear])] }

/-- Lends a buffer to `body`, which may use the pool meanwhile. -/
def withBuffer {α : Type} (p : BufferPool) (method : String)
    (body : Buffer → BufferPool → α × Buffer × BufferPool) : α × BufferPool :=
  let (b, p) := p.take method
  let (a, b, p) := body b p
  (a, p.put method b)

/-- The octets of a call, staged in a buffer of its method and written by a
codec of a pool. -/
def encodeRequest (p : BufferPool) (codecs : CodecPool) (method : String)
    (args : List Native) : (Except Error Octets × CodecPool) × BufferPool :=
  p.withBuffer method fun b p =>
    let ((r, o), codecs) := codecs.withCodec fun c codecs =>
      let ((r, sink), c) := c.writeRequest method args .unlimited
      ((r, sink.taken), c, codecs)
    let b := b.append p.config.bufferCapacity o
    match r with
    | .ok () =>
      let (o, b) := b.split
      ((.ok o, codecs), b, p)
    | .error e => ((.error e, codecs), b, p)

end BufferPool

end XmlRpc
