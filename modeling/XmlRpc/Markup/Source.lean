/-
# Sources and what can be wrong with them

A source is a stretch of octets and what comes after them: the end of the
input, or the failure of the stream.  A reader that asks for more octets than
there are meets that ending.

In which portions a stream delivers its octets is left out: a source is taken
to have them all at hand.  Portions tell only on the byte order mark, which a
scanner looks for in the first one and not behind it.

Problems are of three sorts, which differ in what happens afterwards:

    stream, unclosed…, unknownMarkup    nothing more can be read
    the other problems of markup        reading goes on behind the markup
    problems of content                 reading goes on behind the content
-/
import XmlRpc.Fault

namespace XmlRpc

/-- What follows the octets of a source. -/
inductive Ending where
  | endOfInput
  | broken (message : String)
  deriving DecidableEq

structure Source where
  octets : Octets
  ending : Ending

/-- A source that ends where its octets end. -/
def Source.ofOctets (o : Octets) : Source := ⟨o, .endOfInput⟩

namespace Markup

inductive Problem where
  | stream (message : String)
  | unknownMarkup
  | unclosedInstruction
  | unclosedComment
  | unclosedDoctype
  | unclosedCdata
  | unclosedTag
  | mismatchedEnd (expected found : String)
  | unmatchedEnd (found : String)
  | namelessDoctype
  | unclosedReference
  | undecodable (p : Utf8.Problem)
  | badName (p : Utf8.Problem)
  | unexpectedEmpty (name : String)
  | forbiddenMarkup
  | unknownReference (name : String)
  | pushedBackTwice
  deriving DecidableEq

namespace Problem

/-- The fault for markup that cannot be read. -/
def syntaxFault (message : String) : Fault :=
  FaultCode.malformedInput.fault ("syntax error: " ++ message)

/-- The fault for markup that can be read but does not fit. -/
def illFormedFault (message : String) : Fault :=
  FaultCode.malformedInput.fault ("ill-formed document: " ++ message)

def toError : Problem → Error
  | .stream message => .stream message
  | .unknownMarkup => .fault (syntaxFault "unknown or missed symbol in markup")
  | .unclosedInstruction =>
      .fault (syntaxFault
        "processing instruction or xml declaration not closed: `?>` not found before end of input")
  | .unclosedComment =>
      .fault (syntaxFault "comment not closed: `-->` not found before end of input")
  | .unclosedDoctype =>
      .fault (syntaxFault "DOCTYPE not closed: `>` not found before end of input")
  | .unclosedCdata =>
      .fault (syntaxFault "CDATA not closed: `]]>` not found before end of input")
  | .unclosedTag =>
      .fault (syntaxFault "tag not closed: `>` not found before end of input")
  | .mismatchedEnd expected found =>
      .fault (illFormedFault
        ("expected `</" ++ expected ++ ">`, but `</" ++ found ++ ">` was found"))
  | .unmatchedEnd found =>
      .fault (illFormedFault
        ("close tag `</" ++ found ++ ">` does not match any open tag"))
  | .namelessDoctype =>
      .fault (illFormedFault
        "`<!DOCTYPE>` declaration does not contain a name of a document type")
  | .unclosedReference =>
      .fault (illFormedFault
        "entity or character reference not closed: `;` not found before end of input")
  | .undecodable p =>
      .fault (FaultCode.invalidCharacter.fault ("cannot decode input using UTF-8: " ++ p.message))
  | .badName p =>
      .fault (FaultCode.invalidCharacter.fault ("invalid element name: " ++ p.message))
  | .unexpectedEmpty name =>
      .fault (FaultCode.malformedInput.fault ("unexpected empty element '" ++ name ++ "'"))
  | .forbiddenMarkup =>
      .fault (FaultCode.invalidRequest.fault
        "unsupported markup. comments and doctype are not allowed")
  | .unknownReference name =>
      .fault (FaultCode.malformedInput.fault ("unknown character reference '&" ++ name ++ ";'"))
  | .pushedBackTwice => .misuse "token reader supports a single token of pushback"

end Problem

end Markup

end XmlRpc
