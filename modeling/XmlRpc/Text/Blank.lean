/-
# Blanks

Three sets of blank characters, each with its own use:

    Unicode    text between elements that may be skipped, texts in messages
    XML        what ends an element's name inside a tag
    ASCII      what may stand anywhere inside a Base64 body
-/
import XmlRpc.Text.Utf8

namespace XmlRpc

namespace Blank

/-- The characters with the Unicode property White_Space. -/
def isUnicode (c : Char) : Bool :=
  let n := c.toNat
  (0x09 ≤ n && n ≤ 0x0D) || n == 0x20 || n == 0x85 || n == 0xA0
    || n == 0x1680 || (0x2000 ≤ n && n ≤ 0x200A) || n == 0x2028
    || n == 0x2029 || n == 0x202F || n == 0x205F || n == 0x3000

/-- Blanks of markup: space, tab, carriage return, line feed. -/
def isXml (b : UInt8) : Bool :=
  b == 0x20 || b == 0x09 || b == 0x0D || b == 0x0A

/-- Blanks inside a Base64 body: those of markup and the form feed. -/
def isAscii (c : Char) : Bool :=
  c == ' ' || c == '\t' || c == '\n' || c == '\x0c' || c == '\r'

def trimStart (cs : List Char) : List Char := cs.dropWhile isUnicode

def trim (cs : List Char) : List Char :=
  ((trimStart cs).reverse.dropWhile isUnicode).reverse

/-- A text made of blanks only, the empty text included. -/
def isBlank (cs : List Char) : Bool := cs.all isUnicode

end Blank

end XmlRpc
