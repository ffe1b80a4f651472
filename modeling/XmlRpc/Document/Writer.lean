/-
# Writing documents

A document is written as a list of steps: the declaration, elements with a
text, elements around further steps.  Each step puts its pieces into whatever
takes them, and stops at the first that is not taken.  `pieces` are the octets
that it puts there where nothing is refused; a document is its pieces one after
the other.

    nil       <value></value>
    int       a decimal numeral          boolean   1 or 0
    double    six places, zeros dropped  string    escaped where needed
    dateTime  the compact layout         base64    filled up to four letters
-/
import XmlRpc.Document.Sink
import XmlRpc.Tag
import XmlRpc.Message
import XmlRpc.Base64
import XmlRpc.Binary.Decimal
import XmlRpc.Calendar.Layout
import XmlRpc.Text.Reference

namespace XmlRpc

namespace Document

inductive Step where
  | declaration
  | raw (tag : Tag) (body : List Char)
  | text (tag : Tag) (body : List Char)
  | element (tag : Tag) (body : List Step)

/-- The line at the top of calls and responses. -/
def header : String := "<?xml version=\"1.0\" encoding=\"UTF-8\"?>\n"

/-- Whether a text holds a character that is written as a reference. -/
def needsEscape (cs : List Char) : Bool := cs.any Reference.isSpecial

/-- The body of a text: escaped if it has to be. -/
def textBody (cs : List Char) : List Char :=
  if needsEscape cs then Reference.escape cs else cs

/-- The pieces of an element whose body is written as it is. -/
def rawPieces (tag : Tag) (body : List Char) : List Octets :=
  [Utf8.encodeString tag.openTag, Utf8.encode body, Utf8.encodeString tag.closeTag]

mutual

/-- What a step writes, write by write. -/
def Step.pieces : Step → List Octets
  | .declaration => [Utf8.encodeString header]
  | .raw tag body => rawPieces tag body
  | .text tag body => rawPieces tag (textBody body)
  | .element tag body =>
      Utf8.encodeString tag.openTag
        :: (piecesOf body ++ [Utf8.encodeString tag.closeTag])

def piecesOf : List Step → List Octets
  | [] => []
  | s :: ss => s.pieces ++ piecesOf ss

end

/-- The octets that steps write. -/
def render (ss : List Step) : Octets := (piecesOf ss).flatten

section Put

variable {σ : Type} (put : σ → Octets → Progress σ)

/-- Puts an element whose body is written as it is. -/
def putRaw (tag : Tag) (body : List Char) (s : σ) : Progress σ :=
  (put s (Utf8.encodeString tag.openTag)).andThen fun s =>
    (put s (Utf8.encode body)).andThen fun s => put s (Utf8.encodeString tag.closeTag)

mutual

/-- Puts what a step writes, piece by piece. -/
def Step.putTo : Step → σ → Progress σ
  | .declaration, s => put s (Utf8.encodeString header)
  | .raw tag body, s => putRaw put tag body s
  | .text tag body, s => putRaw put tag (textBody body) s
  | .element tag body, s =>
      (put s (Utf8.encodeString tag.openTag)).andThen fun s =>
        (putSteps body s).andThen fun s => put s (Utf8.encodeString tag.closeTag)

def putSteps : List Step → σ → Progress σ
  | [], s => (.ok (), s)
  | t :: ts, s => (t.putTo s).andThen fun s => putSteps ts s

end

end Put

/-- Writes steps to a sink piece by piece, without flushing. -/
def stream (ss : List Step) (sink : Sink) : Progress Sink := putSteps Sink.writeAll ss sink

/-! ## The steps of values -/

mutual

def valueStep : Value → Step
  | .nil => .element .value []
  | .int i => .element .value [.raw .int (Numeral.ofInt i.toInt)]
  | .boolean b => .element .value [.raw .boolean [if b then '1' else '0']]
  | .double x => .element .value [.raw .double x.toText]
  | .string s => .element .value [.text .string s.toList]
  | .dateTime d => .element .value [.raw .dateTime (Calendar.compactText d)]
  | .base64 o => .element .value [.raw .base64 (Base64.encodeText o)]
  | .array items => .element .value [.element .array [.element .data (itemSteps items)]]
  | .struct members => .element .value [.element .struct (memberSteps members)]
termination_by structural v => v

def itemSteps : List Value → List Step
  | [] => []
  | v :: vs => valueStep v :: itemSteps vs
termination_by structural vs => vs

def memberSteps : List Member → List Step
  | [] => []
  | ⟨name, v⟩ :: ms =>
      .element .member [.text .name name.toList, valueStep v] :: memberSteps ms
termination_by structural ms => ms

end

def paramsStep (params : Params) : Step :=
  .element .params (params.map fun v => .element .param [valueStep v])

def callSteps (c : Call) : List Step :=
  [.declaration,
    .element .methodCall [.text .methodName c.method.toList, paramsStep c.params]]

/-- The steps that write a response: its fault if it is one, and otherwise
its parameters. -/
def responseSteps (r : Response) : List Step :=
  [.declaration,
    .element .methodResponse
      [if r.isFault then .element .fault [valueStep r.fault] else paramsStep r.params]]

end Document

def Value.document (v : Value) : Octets := Document.render [Document.valueStep v]

def Call.document (c : Call) : Octets := Document.render (Document.callSteps c)

def Response.document (r : Response) : Octets := Document.render (Document.responseSteps r)

end XmlRpc
