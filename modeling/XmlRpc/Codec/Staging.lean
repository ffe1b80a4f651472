/-
# Pools of buffers in use

What is done with a pool of buffers and a pool of codecs beside it:

    lend    a buffer is lent for a method and written to; before it goes back,
            the pools may be used for other things
    encode  a call is encoded
    count   nothing is done

Each answer tells what the pools hold afterwards.
-/
import XmlRpc.Codec.Buffers

namespace XmlRpc

/-- A pool of buffers and the pool of codecs that encodes into them. -/
structure Staging where
  buffers : BufferPool
  codecs : CodecPool

namespace Staging

inductive Request where
  | lend (method : String) (content : Octets) (meanwhile : List Request)
  | encode (method : String) (args : List Native)
  | count (method : String)

/-- What the pools hold: buffers for a method, methods with an entry, and
codecs. -/
structure Holdings where
  buffers : Nat
  methods : Nat
  codecs : Nat
  deriving DecidableEq

/-- What a request is answered with.  A loan tells how much was in the buffer
at its beginning and how much when it had been written to. -/
inductive Answer where
  | lent (found left : Nat) (meanwhile : List Answer) (after : Holdings)
  | encoded (r : Except Error Octets) (after : Holdings)
  | counted (after : Holdings)

def new (buffers codecs : Config) : Staging := ⟨BufferPool.new buffers, CodecPool.new codecs⟩

def holdings (s : Staging) (method : String) : Holdings :=
  ⟨s.buffers.idleCount method, s.buffers.methodCount, s.codecs.idleCount⟩

mutual

def step (s : Staging) : Request → Answer × Staging
  | .lend method content meanwhile =>
      let ((found, left, answers, codecs), buffers) :=
        s.buffers.withBuffer method fun b p =>
          let written := b.append p.config.bufferCapacity content
          let (answers, t) := run ⟨p, s.codecs⟩ meanwhile
          ((b.content.length, written.content.length, answers, t.codecs), written, t.buffers)
      let t : Staging := ⟨buffers, codecs⟩
      (.lent found left answers (t.holdings method), t)
  | .encode method args =>
      let ((r, codecs), buffers) := s.buffers.encodeRequest s.codecs method args
      let t : Staging := ⟨buffers, codecs⟩
      (.encoded r (t.holdings method), t)
  | .count method => (.counted (s.holdings method), s)
termination_by structural r => r

def run (s : Staging) : List Request → List Answer × Staging
  | [] => ([], s)
  | r :: rs =>
      let (a, s) := s.step r
      let (as, s) := run s rs
      (a :: as, s)
termination_by structural rs => rs

end

mutual

/-- The calls that were encoded, in order. -/
def Answer.documents : Answer → List Octets
  | .lent _ _ meanwhile _ => documentsOf meanwhile
  | .encoded (.ok o) _ => [o]
  | .encoded (.error _) _ => []
  | .counted _ => []

/-- The calls that were encoded along several answers. -/
def documentsOf : List Answer → List Octets
  | [] => []
  | a :: as => a.documents ++ documentsOf as

end

end Staging

end XmlRpc
