/-
# Escapes and references

A reference `&name;` stands for one character: one of five by its name, any
by its number.  `escape` writes the five by name; `resolve?` reads every
reference there is.
-/
import XmlRpc.Text.Numeral

namespace XmlRpc

namespace Reference

/-- The name of a character that text may not hold as itself. -/
def name? : Char → Option (List Char)
  | '<' => some ['l', 't']
  | '>' => some ['g', 't']
  | '&' => some ['a', 'm', 'p']
  | '\'' => some ['a', 'p', 'o', 's']
  | '"' => some ['q', 'u', 'o', 't']
  | _ => none

def ofName? : List Char → Option Char
  | ['l', 't'] => some '<'
  | ['g', 't'] => some '>'
  | ['a', 'm', 'p'] => some '&'
  | ['a', 'p', 'o', 's'] => some '\''
  | ['q', 'u', 'o', 't'] => some '"'
  | _ => none

/-- The character with a given number: any Unicode scalar value. -/
def scalar? (n : Nat) : Option Char :=
  if h : n.isValidChar then some (Char.ofNatAux n h) else none

/-- The character that the reference `&r;` stands for.  A number is decimal
after `#` and hexadecimal after `#x`; a plus sign may stand before its
digits. -/
def resolve? : List Char → Option Char
  | '#' :: 'x' :: r => (Numeral.hex? (Numeral.dropPlus r)).bind scalar?
  | '#' :: r => (Numeral.decimal? (Numeral.dropPlus r)).bind scalar?
  | r => ofName? r

/-- Whether a character is written as a reference. -/
def isSpecial (c : Char) : Bool := (name? c).isSome

def escapeChar (c : Char) : List Char :=
  match name? c with
  | some n => '&' :: (n ++ [';'])
  | none => [c]

/-- A text with each of the five characters written as a reference. -/
def escape (cs : List Char) : List Char := cs.flatMap escapeChar

end Reference

end XmlRpc
