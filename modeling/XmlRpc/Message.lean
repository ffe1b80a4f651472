/-
# Messages

A call names a method and gives its parameters by position.  A response gives
parameters or a fault.  What makes a response a fault is its fault slot: it
holds a struct with at least one member.
-/
import XmlRpc.Fault

namespace XmlRpc

/-- Positional parameters. -/
abbrev Params := List Value

structure Call where
  method : String
  params : Params

structure Response where
  params : Params
  fault : Value

namespace Response

def success (v : Value) : Response := ⟨[v], .nil⟩

def failure (f : Fault) : Response := ⟨[], f.toValue⟩

def isFault (r : Response) : Bool :=
  match r.fault with
  | .struct members => !members.isEmpty
  | _ => false

end Response

/-- Why a method failed: with a fault, with an error of this library, or with
anything else, of which only the wording matters here. -/
inductive Cause where
  | fault (f : Fault)
  | error (e : Error)
  | other (message : String)

/-- The response for a failure.  Faults are sent as they are, also those
inside errors; everything else is sent as an internal error in its own
words. -/
def Response.ofCause : Cause → Response
  | .fault f => failure f
  | .error (.fault f) => failure f
  | .error e => failure (FaultCode.internalError.fault e.display)
  | .other message => failure (FaultCode.internalError.fault message)

end XmlRpc
