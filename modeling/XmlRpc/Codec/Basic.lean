/-
# Codecs

A codec writes and reads whole messages, one after the other.  It stages each
document before it is handed to the sink in one piece, and reads each event of
a source into a buffer.  Both buffers stay with the codec, and with them what
the last message left in them, which a later message must not see.

    client   writeRequest, readResponse
    server   readRequest, readRequestInto, writeResponse, writeFault, writeError
    either   writeValue, readValue

`Operation` is any of them, and `Codec.run` what it answers.  What is read does
not depend on the codec: `readRequest` and the others tell it from the source
alone.
-/
import XmlRpc.Config
import XmlRpc.Document.Reader
import XmlRpc.Document.Sink
import XmlRpc.Document.Writer
import XmlRpc.Native.Projection

namespace XmlRpc

open Document (Step)
open Native (Schema Shape)

/-- A codec: the buffer that it reads with, the one that it stages documents
in, and the capacity that each of them may keep. -/
structure Codec where
  scratch : Buffer
  staged : Buffer
  maxRetained : Nat

/-- What writing ends with: success or an error, and the sink. -/
abbrev Written := Progress Sink

namespace Codec

def new (config : Config) : Codec :=
  ⟨.new config.bufferCapacity, .new config.bufferCapacity, config.maxRetainedCapacity⟩

/-- A codec with empty buffers, which give back what they should not keep. -/
def reset (c : Codec) : Codec :=
  { c with
    scratch := c.scratch.clear.shrink c.maxRetained
    staged := c.staged.clear.shrink c.maxRetained }

/-! ## Writing -/

/-- Stages a document in place of the one before it. -/
def stage (c : Codec) (ss : List Step) : Codec :=
  { c with staged := c.staged.clear.append 0 (Document.render ss) }

def write (c : Codec) (ss : List Step) (sink : Sink) : Written × Codec :=
  let c := c.stage ss
  (sink.writeDocument c.staged.content, c)

def writeRequest (c : Codec) (method : String) (args : List Native) (sink : Sink) :
    Written × Codec :=
  c.write (Document.callSteps (Call.ofArguments method args)) sink

def writeResponse (c : Codec) (reply : Native) (sink : Sink) : Written × Codec :=
  c.write (Document.responseSteps (Response.reply reply)) sink

def writeFault (c : Codec) (f : Fault) (sink : Sink) : Written × Codec :=
  c.write (Document.responseSteps (Response.failure f)) sink

/-- Writes the response for a failure. -/
def writeError (c : Codec) (cause : Cause) (sink : Sink) : Written × Codec :=
  c.write (Document.responseSteps (Response.ofCause cause)) sink

def writeValue (c : Codec) (x : Native) (sink : Sink) : Written × Codec :=
  c.write [Document.valueStep x.toValue] sink

/-! ## Reading -/

/-- Reads a document.  The buffer comes back, whatever reading ends with. -/
def parse {α : Type} (c : Codec) (reading : Nat → Document.Reading α) (source : Source) :
    Except Document.Problem α × Codec :=
  let (r, b) := Document.runWith reading source c.scratch
  (r, { c with scratch := b })

/-- The result of reading a document, with its problem as an error. -/
def received {α : Type} (r : Except Document.Problem α) : Except Error α :=
  r.mapError (·.toError)

/-- The result of a projection: how it ended, and the slot's content. -/
def projected (p : Native.Projection) : Except Error Unit × Native :=
  match p.misfit with
  | none => (.ok (), p.content)
  | some m => (.error m.toError, p.content)

/-- The method and the parameters of a call, which needs a name. -/
def requestOf (call : Except Document.Problem Call) : Except Error (String × Params) := do
  let call ← received call
  if call.method.isEmpty then
    throw (.fault (FaultCode.invalidRequest.fault "invalid method name"))
  return (call.method, call.params)

/-- Projects the parameters of a call into a slot. -/
def requestInto (Γ : Schema) (request : Except Error (String × Params)) (s : Shape)
    (slot : Native) : Except Error String × Native :=
  match request with
  | .error e => (.error e, slot)
  | .ok (method, params) =>
    let (r, slot) := projected (params.project Γ s slot)
    (r.map fun () => method, slot)

/-- Projects the parameters of a response into a slot.  A fault is an error,
and leaves the slot as it is. -/
def responseInto (Γ : Schema) (response : Except Document.Problem Response) (s : Shape)
    (slot : Native) : Except Error Unit × Native :=
  match received response with
  | .error e => (.error e, slot)
  | .ok response =>
    match response.toFault with
    | .error m => (.error m.toError, slot)
    | .ok (some f) => (.error (.fault f), slot)
    | .ok none => projected (response.params.project Γ s slot)

/-- Projects a value into a slot. -/
def valueInto (Γ : Schema) (v : Except Document.Problem Value) (s : Shape) (slot : Native) :
    Except Error Unit × Native :=
  match received v with
  | .error e => (.error e, slot)
  | .ok v => projected (Native.project Γ v s slot)

def readRequest (source : Source) : Except Error (String × Params) :=
  requestOf (Call.ofSource source)

def readRequestInto (Γ : Schema) (source : Source) (s : Shape) (slot : Native) :
    Except Error String × Native :=
  requestInto Γ (readRequest source) s slot

def readResponse (Γ : Schema) (source : Source) (s : Shape) (slot : Native) :
    Except Error Unit × Native :=
  responseInto Γ (Response.ofSource source) s slot

def readValue (Γ : Schema) (source : Source) (s : Shape) (slot : Native) :
    Except Error Unit × Native :=
  valueInto Γ (Value.ofSource source) s slot

end Codec

/-! ## Operations -/

inductive Operation where
  | writeRequest (method : String) (args : List Native) (sink : Sink)
  | writeResponse (reply : Native) (sink : Sink)
  | writeFault (f : Fault) (sink : Sink)
  | writeError (cause : Cause) (sink : Sink)
  | writeValue (x : Native) (sink : Sink)
  | readRequest (source : Source)
  | readRequestInto (source : Source) (s : Shape) (slot : Native)
  | readResponse (source : Source) (s : Shape) (slot : Native)
  | readValue (source : Source) (s : Shape) (slot : Native)
  | reset

inductive Answer where
  | written (r : Except Error Unit) (sink : Sink)
  | request (r : Except Error (String × Params))
  | requestInto (r : Except Error String) (slot : Native)
  | received (r : Except Error Unit) (slot : Native)
  | reset

namespace Codec

def answerWritten (w : Written × Codec) : Answer × Codec :=
  (.written w.1.1 w.1.2, w.2)

def run (Γ : Schema) (c : Codec) : Operation → Answer × Codec
  | .writeRequest method args sink => answerWritten (c.writeRequest method args sink)
  | .writeResponse reply sink => answerWritten (c.writeResponse reply sink)
  | .writeFault f sink => answerWritten (c.writeFault f sink)
  | .writeError cause sink => answerWritten (c.writeError cause sink)
  | .writeValue x sink => answerWritten (c.writeValue x sink)
  | .readRequest source =>
      let (call, c) := c.parse Document.readCall source
      (.request (requestOf call), c)
  | .readRequestInto source s slot =>
      let (call, c) := c.parse Document.readCall source
      let (r, slot) := requestInto Γ (requestOf call) s slot
      (.requestInto r slot, c)
  | .readResponse source s slot =>
      let (response, c) := c.parse Document.readResponse source
      let (r, slot) := responseInto Γ response s slot
      (.received r slot, c)
  | .readValue source s slot =>
      let (v, c) := c.parse Document.readBareValue source
      let (r, slot) := valueInto Γ v s slot
      (.received r slot, c)
  | .reset => (.reset, c.reset)

def runAll (Γ : Schema) (c : Codec) : List Operation → List Answer × Codec
  | [] => ([], c)
  | o :: os =>
      let (a, c) := c.run Γ o
      let (as, c) := runAll Γ c os
      (a :: as, c)

end Codec

end XmlRpc
