/-
# Numerals

Whole numbers written with ASCII digits.  A numeral has at least one digit;
a sign, where one is allowed, is a single `+` or `-` in front.  Leading zeros
are read and never written.
-/

namespace XmlRpc

namespace Numeral

def decimalDigit? (c : Char) : Option Nat :=
  if '0' ≤ c && c ≤ '9' then some (c.toNat - '0'.toNat) else none

/-- The value of a hexadecimal digit of either case. -/
def hexDigit? (c : Char) : Option Nat :=
  if '0' ≤ c && c ≤ '9' then some (c.toNat - '0'.toNat)
  else if 'a' ≤ c && c ≤ 'f' then some (c.toNat - 'a'.toNat + 10)
  else if 'A' ≤ c && c ≤ 'F' then some (c.toNat - 'A'.toNat + 10)
  else none

/-- Reads digits behind the number `acc` already read; `none` when one of
them is no digit. -/
def digits? (base : Nat) (digit? : Char → Option Nat) (acc : Nat) :
    List Char → Option Nat
  | [] => some acc
  | c :: cs =>
    match digit? c with
    | some d => digits? base digit? (acc * base + d) cs
    | none => none

/-- A number written with one or more decimal digits. -/
def decimal? : List Char → Option Nat
  | [] => none
  | cs => digits? 10 decimalDigit? 0 cs

def hex? : List Char → Option Nat
  | [] => none
  | cs => digits? 16 hexDigit? 0 cs

def dropPlus : List Char → List Char
  | '+' :: cs => cs
  | cs => cs

/-- A decimal number with an optional sign. -/
def signed? : List Char → Option Int
  | '-' :: cs => (decimal? cs).map fun n => -(n : Int)
  | '+' :: cs => (decimal? cs).map fun n => (n : Int)
  | cs => (decimal? cs).map fun n => (n : Int)

def toInt64? (i : Int) : Option Int64 :=
  if -9223372036854775808 ≤ i ∧ i ≤ 9223372036854775807 then some (Int64.ofInt i) else none

/-- The shortest decimal numeral of a number. -/
def ofNat (n : Nat) : List Char := Nat.toDigits 10 n

/-- The shortest decimal numeral of an integer, with `-` where negative. -/
def ofInt : Int → List Char
  | .ofNat n => ofNat n
  | .negSucc n => '-' :: ofNat (n + 1)

/-- A number in at least `width` digits, with zeros in front. -/
def padded (width n : Nat) : List Char :=
  let ds := ofNat n
  List.replicate (width - ds.length) '0' ++ ds

end Numeral

end XmlRpc
