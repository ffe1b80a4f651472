/-
# Sinks

Where documents are written to.  A sink may have room for so many octets
only; then it refuses more, either by failing or by taking nothing.  It may
also fail when it is flushed.  Writing nothing never fails.

What is written in several pieces is written up to the first piece that does
not fit, and nothing after it.
-/
import XmlRpc.Fault

namespace XmlRpc

/-- What a full sink does: it fails with a message of its own, or takes
nothing. -/
inductive Refusal where
  | closed (message : String)
  | takesNothing
  deriving DecidableEq

def Refusal.message : Refusal → String
  | .closed message => message
  | .takesNothing => "failed to write whole buffer"

/-- What writing ends with: success or an error, and what was written to. -/
abbrev Progress (σ : Type) := Except Error Unit × σ

/-- Goes on writing, unless that has failed. -/
def Progress.andThen {σ : Type} (x : Progress σ) (next : σ → Progress σ) : Progress σ :=
  match x with
  | (.ok (), s) => next s
  | (.error e, s) => (.error e, s)

/-- A sink: what it has taken, the room left if that is limited, and how it
refuses. -/
structure Sink where
  taken : Octets
  room : Option Nat
  refusal : Refusal
  flushFailure : Option String

namespace Sink

def unlimited : Sink := ⟨[], none, .takesNothing, none⟩

/-- Writes all of a piece, or as much as there is room for and no more. -/
def writeAll (s : Sink) (o : Octets) : Progress Sink :=
  match s.room with
  | none => (.ok (), { s with taken := s.taken ++ o })
  | some room =>
    if o.length ≤ room then
      (.ok (), { s with taken := s.taken ++ o, room := some (room - o.length) })
    else
      (.error (.stream s.refusal.message),
        { s with taken := s.taken ++ o.take room, room := some 0 })

def flush (s : Sink) : Except Error Unit :=
  match s.flushFailure with
  | none => .ok ()
  | some message => .error (.stream message)

/-- Writes a document in one piece and flushes. -/
def writeDocument (s : Sink) (o : Octets) : Progress Sink :=
  match s.writeAll o with
  | (.ok (), s) => (s.flush, s)
  | (.error e, s) => (.error e, s)

end Sink

end XmlRpc
