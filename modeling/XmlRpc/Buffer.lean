/-
# Buffers

Octets in memory, and how many the memory can hold.  A buffer that is emptied
keeps its memory, so that one buffer serves for many messages; one that is too
small for its octets grows.
-/
import XmlRpc.Text.Utf8

namespace XmlRpc

/-- A buffer: what it holds, and how much it can hold without growing. -/
structure Buffer where
  content : Octets
  capacity : Nat
  deriving DecidableEq

namespace Buffer

def new (capacity : Nat) : Buffer := ⟨[], capacity⟩

/-- Appends octets.  A buffer too small for them grows to hold them, and to
no less than `least`. -/
def append (b : Buffer) (least : Nat) (o : Octets) : Buffer :=
  let content := b.content ++ o
  ⟨content, if content.length ≤ b.capacity then b.capacity else max least content.length⟩

def clear (b : Buffer) : Buffer := { b with content := [] }

/-- Gives memory back above a limit, as far as the content does not need
it. -/
def shrink (b : Buffer) (most : Nat) : Buffer :=
  if most < b.capacity then { b with capacity := max most b.content.length } else b

/-- Takes the content out, together with the room it stands in. -/
def split (b : Buffer) : Octets × Buffer :=
  (b.content, ⟨[], b.capacity - b.content.length⟩)

end Buffer

end XmlRpc
