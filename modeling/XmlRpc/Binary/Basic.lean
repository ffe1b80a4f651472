/-
# Binary floating point

A number of a binary interchange format is a sign and a magnitude.  The
magnitudes of a format are numbered in order by their *codes*:

    0 … 2^f − 1            code · 2^e₀                    (subnormal)
    b · 2^f + t, b ≥ 1     (2^f + t) · 2^(e₀ + b − 1)     (normal)

where f is the number of fraction bits and e₀ the exponent of the least
magnitude.  The code after the last finite one is infinity's, so rounding up
past the end of a binade, or past the largest number, is counting on by one.
-/

namespace XmlRpc

structure Format where
  fractionBits : Nat
  exponentBits : Nat

namespace Format

/-- How many codes a binade has. -/
def binadeSize (f : Format) : Nat := Nat.pow 2 f.fractionBits

/-- The code of infinity: all exponent bits set, no fraction. -/
def infinityCode (f : Format) : Nat := (Nat.pow 2 f.exponentBits - 1) * f.binadeSize

/-- What the sign bit counts in an interchange word. -/
def signWeight (f : Format) : Nat := Nat.pow 2 (f.exponentBits + f.fractionBits)

/-- The exponent of the least magnitude that is not zero, negated. -/
def leastExponent (f : Format) : Nat := Nat.pow 2 (f.exponentBits - 1) - 2 + f.fractionBits

/-- How many of the least magnitude make one. -/
def scale (f : Format) : Nat := Nat.pow 2 f.leastExponent

def double : Format := ⟨52, 11⟩

def single : Format := ⟨23, 8⟩

end Format

/-- A datum of a binary format.  Zero has both signs; NaN has neither sign
nor payload. -/
inductive Binary (f : Format) where
  | nan
  | infinity (negative : Bool)
  | finite (negative : Bool) (code : Fin f.infinityCode)
  deriving DecidableEq

abbrev Double := Binary .double

abbrev Single := Binary .single

namespace Binary

variable {f : Format}

/-! ## The value of a code -/

/-- The whole number that a magnitude is a multiple of a power of two of. -/
def significand (f : Format) (code : Nat) : Nat :=
  if code < f.binadeSize then code else f.binadeSize + code % f.binadeSize

/-- How many binades above the least exponent a magnitude's power of two is. -/
def binade (f : Format) (code : Nat) : Nat := code / f.binadeSize - 1

/-- A magnitude as a fraction: numerator over denominator. -/
def fraction (f : Format) (code : Nat) : Nat × Nat :=
  (significand f code * Nat.pow 2 (binade f code), f.scale)

/-! ## Sign and magnitude -/

/-- The datum with a sign and the magnitude of a code; codes past the finite
ones are infinite. -/
def ofCode (negative : Bool) (code : Nat) : Binary f :=
  if h : code < f.infinityCode then .finite negative ⟨code, h⟩
  else .infinity negative

/-- Zero with a plus sign. -/
def zero : Binary f := ofCode false 0

instance : Inhabited (Binary f) := ⟨zero⟩

/-- The equality of numbers: NaN equals nothing, and zero is zero whatever
its sign. -/
def numEq : Binary f → Binary f → Bool
  | .nan, _ => false
  | .infinity s, .infinity t => s == t
  | .finite s a, .finite t b => a == b && (s == t || a.val == 0)
  | _, _ => false

/-! ## Interchange -/

/-- The datum of an interchange word: sign, exponent and fraction from the
highest bit down. -/
def ofBits (f : Format) (bits : Nat) : Binary f :=
  let negative := bits / f.signWeight % 2 == 1
  let code := bits % f.signWeight
  if code ≤ f.infinityCode then ofCode negative code else .nan

/-- The interchange word of a datum; NaN has none of its own. -/
def toBits? : Binary f → Option Nat
  | .nan => none
  | .infinity s => some (s.toNat * f.signWeight + f.infinityCode)
  | .finite s code => some (s.toNat * f.signWeight + code.val)

end Binary

end XmlRpc
