/-
# Faults and errors

A *fault* is a number and a message, sent to the peer in place of a result.
Seven numbers have a meaning agreed upon:

    -32700  malformed input           -32600  invalid request
    -32701  unsupported encoding      -32601  method not found
    -32702  invalid character         -32602  invalid parameters
                                      -32603  internal error

An *error* is what an operation on messages can end with: a fault, or the
failure of the stream it read from or wrote to.  The third error, misuse, is no
result but a panic, in the words it panics with:

    a token reader          when a caller pushes a second token back
    a slot of local time    when it receives a clock that is off the calendar
-/
import XmlRpc.Value

namespace XmlRpc

/-- The fault codes that have an agreed meaning. -/
inductive FaultCode where
  | malformedInput
  | unsupportedEncoding
  | invalidCharacter
  | invalidRequest
  | methodNotFound
  | invalidParams
  | internalError
  deriving DecidableEq, Repr

/-- A fault: any code, any message. -/
structure Fault where
  code : Int32
  message : String
  deriving DecidableEq

namespace FaultCode

/-- The codes in their order of rank. -/
def all : List FaultCode :=
  [.malformedInput, .unsupportedEncoding, .invalidCharacter, .invalidRequest,
    .methodNotFound, .invalidParams, .internalError]

/-- The number on the wire. -/
def number : FaultCode → Int32
  | .malformedInput => -32700
  | .unsupportedEncoding => -32701
  | .invalidCharacter => -32702
  | .invalidRequest => -32600
  | .methodNotFound => -32601
  | .invalidParams => -32602
  | .internalError => -32603

/-- The message of a fault that is given none. -/
def defaultMessage : FaultCode → String
  | .malformedInput => "malformed input"
  | .unsupportedEncoding => "unsupported encoding"
  | .invalidCharacter => "invalid character for encoding"
  | .invalidRequest => "invalid xml-rpc. not conforming to spec"
  | .methodNotFound => "requested method not found"
  | .invalidParams => "invalid method parameters"
  | .internalError => "internal xml-rpc error"

def ofNumber? (n : Int32) : Option FaultCode := all.find? (·.number == n)

/-- The fault with that code.  An empty message gives way to the code's own. -/
def fault (c : FaultCode) (message : String) : Fault :=
  ⟨c.number, if message.isEmpty then c.defaultMessage else message⟩

def display (c : FaultCode) : String :=
  toString c.number.toInt ++ ": " ++ c.defaultMessage

end FaultCode

namespace Fault

def codeMember : String := "faultCode"

def messageMember : String := "faultString"

/-- No fault in particular. -/
def blank : Fault := ⟨0, ""⟩

instance : Inhabited Fault := ⟨blank⟩

def toValue (f : Fault) : Value :=
  .struct [⟨codeMember, .int (Int64.ofInt f.code.toInt)⟩, ⟨messageMember, .string f.message⟩]

/-- The agreed meaning of a fault, if its code has one. -/
def code? (f : Fault) : Option FaultCode := FaultCode.ofNumber? f.code

def hasCode (f : Fault) (c : FaultCode) : Bool := f.code == c.number

def display (f : Fault) : String := toString f.code.toInt ++ ": " ++ f.message

end Fault

/-- What an operation on messages ends with when it does not succeed. -/
inductive Error where
  | fault (f : Fault)
  | stream (message : String)
  | misuse (message : String)
  deriving DecidableEq

namespace Error

/-- The fault that an error carries. -/
def fault? : Error → Option Fault
  | .fault f => some f
  | .stream _ => none
  | .misuse _ => none

/-- The fault to send for an error; what is no fault itself is an internal
error. -/
def toFault : Error → Fault
  | .fault f => f
  | .stream message => FaultCode.internalError.fault message
  | .misuse message => FaultCode.internalError.fault message

def display : Error → String
  | .fault f => f.display
  | .stream message => "IO error: " ++ message
  | .misuse message => message

/-- The error of a code without a message of its own. -/
def ofCode (c : FaultCode) : Error := .fault (c.fault "")

end Error

end XmlRpc
