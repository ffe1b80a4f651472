/-
# Decimal text of numbers

Writing rounds the exact value to six places, a half to the even digit, and
trims the text: zeros go off its end, and a point that then ends it gets one
back.  A text without a point, as of NaN, is left alone.  Reading takes the
exact value of the text to the nearest number.

    number   = sign? (digits point? | digits? point digits) exponent?
             | sign? ("inf" | "infinity" | "nan")        in any case
    exponent = ("e" | "E") sign? digits

A text has at least one digit before its exponent.
-/
import XmlRpc.Binary.Rounding
import XmlRpc.Text.Numeral

namespace XmlRpc

namespace Binary

/-! ## Writing -/

/-- The places written behind the point, before zeros are dropped. -/
def places : Nat := 6

/-- How many units of the last place make one. -/
def placesScale : Nat := Nat.pow 10 places

/-- A count of millionths, with all its places. -/
def placesText (millionths : Nat) : List Char :=
  Numeral.ofNat (millionths / placesScale)
    ++ '.' :: Numeral.padded places (millionths % placesScale)

def signText (negative : Bool) : List Char := if negative then ['-'] else []

/-- The text of a datum with all its places.  The sign of a number is kept where
nothing else is left of it. -/
def fixedText {f : Format} : Binary f → List Char
  | .nan => ['N', 'a', 'N']
  | .infinity s => signText s ++ ['i', 'n', 'f']
  | .finite s code =>
      let (num, den) := fraction f code.val
      signText s ++ placesText (roundDiv (num * placesScale) den)

def dropZeros (cs : List Char) : List Char :=
  (cs.reverse.dropWhile (· == '0')).reverse

/-- A text with a point trimmed, down to one place. -/
def trimZeros (text : List Char) : List Char :=
  if text.contains '.' then
    let trimmed := dropZeros text
    if trimmed.getLast? == some '.' then trimmed ++ ['0'] else trimmed
  else text

def toText {f : Format} (x : Binary f) : List Char := trimZeros (fixedText x)

/-! ## Reading -/

def lowerAscii (c : Char) : Char :=
  if 'A' ≤ c && c ≤ 'Z' then Char.ofNat (c.toNat + 32) else c

def spanDigits (cs : List Char) : List Char × List Char :=
  cs.span fun c => (Numeral.decimalDigit? c).isSome

/-- Takes a sign off; true is a minus. -/
def takeSign : List Char → Bool × List Char
  | '-' :: cs => (true, cs)
  | '+' :: cs => (false, cs)
  | cs => (false, cs)

/-- The exponent that ends a text; no text, no exponent. -/
def exponent? : List Char → Option Int
  | [] => some 0
  | c :: cs => if lowerAscii c == 'e' then Numeral.signed? cs else none

/-- The nearest number to `digits · 10 ^ exponent`, where the digits denote
`n`.  Beyond four hundred places the number is zero or infinite whatever its
digits, and its power of ten is not computed. -/
def ofDecimal (f : Format) (negative : Bool) (digitCount n : Nat) (exponent : Int) :
    Binary f :=
  if n = 0 then ofCode negative 0
  else if 400 < exponent then .infinity negative
  else if exponent + digitCount < -400 then ofCode negative 0
  else if 0 ≤ exponent then nearest f negative (n * Nat.pow 10 exponent.toNat) 1
  else nearest f negative n (Nat.pow 10 (-exponent).toNat)

def unsigned? (f : Format) (negative : Bool) (cs : List Char) : Option (Binary f) :=
  let (whole, r) := spanDigits cs
  let (part, r) := match r with
    | '.' :: r => spanDigits r
    | r => ([], r)
  let ds := whole ++ part
  match Numeral.decimal? ds, exponent? r with
  | some n, some e => some (ofDecimal f negative ds.length n (e - part.length))
  | _, _ => none

def ofText? (f : Format) (cs : List Char) : Option (Binary f) :=
  let (negative, r) := takeSign cs
  let word := r.map lowerAscii
  if word == ['n', 'a', 'n'] then some .nan
  else if word == ['i', 'n', 'f'] || word == ['i', 'n', 'f', 'i', 'n', 'i', 't', 'y'] then
    some (.infinity negative)
  else unsigned? f negative r

end Binary

end XmlRpc
