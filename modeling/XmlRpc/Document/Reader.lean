/-
# Reading documents

Calls, responses and values are read off the tokens of a source by recursive
descent.  Blank texts may stand between elements; a text anywhere else is
content.  What a scalar's text denotes:

    int, i4           a signed decimal numeral of 64 bits
    boolean           1, true, 0 or false
    double            a decimal number, or inf or nan
    string            the text itself
    base64            its octets, blanks left out
    dateTime.iso8601  the moment in the first layout that fits, or the epoch

A value without a type is the string of its text, and nil where there is not
even a text.  A struct member needs a name of at least one character.

Nothing is read past the end tag of the document's root.
-/
import XmlRpc.Markup.Token
import XmlRpc.Tag
import XmlRpc.Message
import XmlRpc.Base64
import XmlRpc.Binary.Decimal
import XmlRpc.Calendar.Layout

namespace XmlRpc

namespace Document

open Markup (Token TokenReader)

/-- Why a document cannot be read. -/
inductive Problem where
  | markup (p : Markup.Problem)
  | unexpectedEnd
  | misplaced (expected : String) (found : Token)
  | strayText (text element : String)
  | unknownType (element : String)
  | strayElement (element : String)
  | badBoolean (text : String)
  | badInt (text : String)
  | badDouble (text : String)
  | badBase64 (p : Base64.Problem)
  | unhandled (tag : Tag)
  | namelessMember
  | faultNotStruct (kind : Kind)
  deriving DecidableEq

/-- A token in words. -/
def describe : Token → String
  | .startTag name => "<" ++ name ++ ">"
  | .endTag name => "</" ++ name ++ ">"
  | .text s => "text '" ++ String.ofList (Blank.trim s.toList) ++ "'"
  | .declaration => "declaration"

/-- The error of a request that is well formed and no XML-RPC. -/
def invalidRequest (message : String) : Error :=
  .fault (FaultCode.invalidRequest.fault message)

def Problem.toError : Problem → Error
  | .markup p => p.toError
  | .unexpectedEnd => .fault (FaultCode.malformedInput.fault "unexpected end of input")
  | .misplaced expected found =>
      invalidRequest ("parsing error. expected " ++ expected ++ " but got " ++ describe found)
  | .strayText text element =>
      invalidRequest ("unexpected text '" ++ text ++ "' before <" ++ element ++ ">")
  | .unknownType element =>
      invalidRequest
        ("parsing error. expected valid rpc value element got '" ++ element ++ "'")
  | .strayElement element =>
      invalidRequest ("parsing error. invalid element '" ++ element ++ "'")
  | .badBoolean text => invalidRequest ("error reading boolean '" ++ text ++ "'")
  | .badInt text => invalidRequest ("error reading int '" ++ text ++ "'")
  | .badDouble text => invalidRequest ("error reading double '" ++ text ++ "'")
  | .badBase64 p => invalidRequest ("error reading base64: " ++ p.message)
  | .unhandled tag => invalidRequest ("unhandled tag '" ++ tag.label ++ "'")
  | .namelessMember => invalidRequest "struct member without a name"
  | .faultNotStruct kind =>
      invalidRequest ("fault must be a struct, got " ++ kind.name)

/-- A reader of part of a document.  One that fails leaves the tokens where it
has come to. -/
abbrev Reading (α : Type) := EStateM Problem TokenReader α

/-- What needs no tokens. -/
instance : MonadLift (Except Problem) (EStateM Problem TokenReader) := ⟨liftExcept⟩

/-! ## Scalars -/

/-- The texts of the two booleans. -/
def booleanTexts : List (String × Bool) :=
  [("1", true), ("true", true), ("0", false), ("false", false)]

def boolean? (text : String) : Option Bool :=
  (booleanTexts.find? (·.1 == text)).map (·.2)

def int? (text : String) : Option Int64 :=
  (Numeral.signed? text.toList).bind Numeral.toInt64?

def double? (text : String) : Option Double := Binary.ofText? .double text.toList

/-- The octets that a text denotes once its blanks are left out. -/
def octets (text : String) : Except Base64.Problem Octets :=
  Base64.decode (Utf8.encode (text.toList.filter (!Blank.isAscii ·)))

/-- The moment that a text denotes; the epoch where it denotes none. -/
def moment (text : String) : DateTime :=
  match Calendar.read? text.toList with
  | some (_, d) => d
  | none => .epoch

/-- The value that a text denotes inside a scalar element. -/
def scalar (tag : Tag) (text : String) : Except Problem Value :=
  match tag with
  | .string => .ok (.string text)
  | .boolean =>
    match boolean? text with
    | some b => .ok (.boolean b)
    | none => .error (.badBoolean text)
  | .int | .i4 =>
    match int? text with
    | some i => .ok (.int i)
    | none => .error (.badInt text)
  | .double =>
    match double? text with
    | some x => .ok (.double x)
    | none => .error (.badDouble text)
  | .base64 =>
    match octets text with
    | .ok o => .ok (.base64 o)
    | .error p => .error (.badBase64 p)
  | .dateTime => .ok (.dateTime (moment text))
  | other => .error (.unhandled other)

/-! ## Tokens -/

/-- Moves over blank texts. -/
def trim : Reading Unit := fun r =>
  match r.trim with
  | (.ok (), r) => .ok () r
  | (.error p, r) => .error (.markup p) r

/-- Takes the next token, or none at the end of the input. -/
def read : Reading (Option Token) := fun r =>
  match r.read with
  | (.ok t, r) => .ok t r
  | (.error p, r) => .error (.markup p) r

def unread (t : Token) : Reading Unit := fun r =>
  match r.unread t with
  | .ok r' => .ok () r'
  | .error p => .error (.markup p) r

/-- Takes the next token, which there must be. -/
def next : Reading Token := do
  match ← read with
  | some t => return t
  | none => throw .unexpectedEnd

/-- Takes a text if one comes next. -/
def readText : Reading (Option String) := do
  match ← next with
  | .text s => return some s
  | t => unread t; return none

/-- Takes the start tag of an element if it comes next. -/
def nextStartIs (tag : Tag) : Reading Bool := do
  trim
  let t ← next
  if t = .startTag tag.label then return true
  else unread t; return false

def expectStart (tag : Tag) : Reading Unit := do
  trim
  let t ← next
  if t = .startTag tag.label then return ()
  else throw (.misplaced tag.openTag t)

def expectEnd (tag : Tag) : Reading Unit := do
  trim
  let t ← next
  if t = .endTag tag.label then return ()
  else throw (.misplaced tag.closeTag t)

/-! ## Values -/

/-- Reads the content and the end tag of a scalar element. -/
def readScalar (tag : Tag) : Reading Value := do
  let text ← readText
  expectEnd tag
  scalar tag (text.getD "")

/-- The element that a start tag inside a value begins.  Only blanks may
stand before it. -/
def typeOf (text : Option String) (element : String) : Except Problem Tag :=
  let shown := Blank.trim (text.getD "").toList
  if shown.isEmpty then
    match (Tag.ofLabel? element).filter (·.isValueType) with
    | some tag => .ok tag
    | none => .error (.unknownType element)
  else .error (.strayText (String.ofList shown) element)

mutual

/-- Reads a value.  The fuel bounds how deep values are nested and how many
stand side by side. -/
def readValue : Nat → Reading Value
  | 0 => throw .unexpectedEnd
  | fuel + 1 => do
    expectStart .value
    let text ← readText
    match ← next with
    | .endTag name =>
      if name = Tag.value.label then
        match text with
        | some s => return .string s
        | none => return .nil
      else throw (.misplaced Tag.value.closeTag (.endTag name))
    | .startTag name =>
      let tag ← typeOf text name
      let v ← match tag with
        | .array => do
          expectStart .data
          let items ← readItems fuel
          expectEnd .data
          expectEnd .array
          pure (.array items)
        | .struct => do
          let members ← readMembers fuel
          expectEnd .struct
          pure (.struct members)
        | tag => readScalar tag
      expectEnd .value
      return v
    | other => throw (.misplaced Tag.value.closeTag other)

/-- Reads the values of an array, up to the first token that begins none. -/
def readItems : Nat → Reading (List Value)
  | 0 => throw .unexpectedEnd
  | fuel + 1 => do
    trim
    match ← next with
    | .startTag name =>
      if name = Tag.value.label then
        unread (.startTag name)
        let v ← readValue fuel
        let vs ← readItems fuel
        return v :: vs
      else throw (.strayElement name)
    | other =>
      unread other
      return []

/-- Reads the members of a struct, up to the first token that begins
none. -/
def readMembers : Nat → Reading (List Member)
  | 0 => throw .unexpectedEnd
  | fuel + 1 => do
    if ← nextStartIs .member then
      expectStart .name
      match ← readText with
      | none => throw .namelessMember
      | some name =>
        expectEnd .name
        let v ← readValue fuel
        expectEnd .member
        let ms ← readMembers fuel
        return ⟨name, v⟩ :: ms
    else return []

end

/-! ## Envelopes -/

/-- Moves over a declaration, if there is one. -/
def readHeader : Reading Unit := do
  trim
  match ← read with
  | none => return ()
  | some .declaration => return ()
  | some t => unread t

/-- Reads parameters, up to the first token that begins none. -/
def readParamList (valueFuel : Nat) : Nat → Reading Params
  | 0 => throw .unexpectedEnd
  | fuel + 1 => do
    if ← nextStartIs .param then
      let v ← readValue valueFuel
      expectEnd .param
      let vs ← readParamList valueFuel fuel
      return v :: vs
    else return []

/-- Reads the content and the end tag of a list of parameters. -/
def readParams (fuel : Nat) : Reading Params := do
  let vs ← readParamList fuel fuel
  expectEnd .params
  return vs

def readCall (fuel : Nat) : Reading Call := do
  readHeader
  expectStart .methodCall
  expectStart .methodName
  let method ← readText
  expectEnd .methodName
  let params ← do
    if ← nextStartIs .params then readParams fuel else pure []
  expectEnd .methodCall
  return ⟨method.getD "", params⟩

/-- Reads a response.  One without parameters is a fault. -/
def readResponse (fuel : Nat) : Reading Response := do
  readHeader
  expectStart .methodResponse
  let response ← do
    if ← nextStartIs .params then
      let params ← readParams fuel
      pure ⟨params, .nil⟩
    else
      expectStart .fault
      let v ← readValue fuel
      if v.kind ≠ .struct then throw (.faultNotStruct v.kind)
      expectEnd .fault
      pure ⟨[], v⟩
  expectEnd .methodResponse
  return response

/-- Reads a value that is a document of its own. -/
def readBareValue (fuel : Nat) : Reading Value := do
  readHeader
  readValue fuel

/-- Runs a reader on a source, with fuel for every token the source may hold.
The buffer that it may use comes back, whatever it ends with. -/
def runWith {α : Type} (reading : Nat → Reading α) (s : Source) (b : Buffer) :
    Except Problem α × Buffer :=
  let r := TokenReader.withBuffer s b
  match reading (r.size + 1) r with
  | .ok a r => (.ok a, r.buffer)
  | .error p r => (.error p, r.buffer)

def run {α : Type} (reading : Nat → Reading α) (s : Source) : Except Problem α :=
  (runWith reading s (.new 0)).1

end Document

def Call.ofSource (s : Source) : Except Document.Problem Call :=
  Document.run Document.readCall s

def Response.ofSource (s : Source) : Except Document.Problem Response :=
  Document.run Document.readResponse s

def Value.ofSource (s : Source) : Except Document.Problem Value :=
  Document.run Document.readBareValue s

end XmlRpc
