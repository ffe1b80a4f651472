/-
# Rounding to the nearest number of a format

`roundDiv` divides whole numbers and rounds to the nearest quotient, a half
to the even one.  `nearestCode` finds the magnitude nearest to a fraction:
it measures the fraction in units of the last place of its binade, rounds,
and counts that many codes up from the beginning of the binade.
-/
import XmlRpc.Binary.Basic

namespace XmlRpc

namespace Binary

/-- The whole number nearest to `num / den`, a half going to the even one. -/
def roundDiv (num den : Nat) : Nat :=
  let q := num / den
  let twice := 2 * (num % den)
  if twice > den || (twice == den && q % 2 == 1) then q + 1 else q

/-- Whether `num / den` is at least `2 ^ k`. -/
def reaches (num den : Nat) (k : Int) : Bool :=
  if 0 ≤ k then den * Nat.pow 2 k.toNat ≤ num else den ≤ num * Nat.pow 2 (-k).toNat

/-- The exponent of the greatest power of two not above `num / den`, for
numbers that are not zero. -/
def floorLog2 (num den : Nat) : Int :=
  let guess : Int := (num.log2 : Int) - (den.log2 : Int)
  if reaches num den guess then guess else guess - 1

/-- The code of the magnitude nearest to `num / den`, a half going to the
even code; infinity's code, or one above it, from halfway beyond the largest
finite magnitude on. -/
def nearestCode (f : Format) (num den : Nat) : Nat :=
  if num = 0 then 0
  else
    let lift := (floorLog2 num den + f.leastExponent - f.fractionBits).toNat
    lift * f.binadeSize + roundDiv (num * f.scale) (den * Nat.pow 2 lift)

def nearest (f : Format) (negative : Bool) (num den : Nat) : Binary f :=
  ofCode negative (nearestCode f num den)

/-- A datum in another format: the nearest number there. -/
def convert (g : Format) {f : Format} : Binary f → Binary g
  | .nan => .nan
  | .infinity s => .infinity s
  | .finite s code =>
      let (num, den) := fraction f code.val
      nearest g s num den

/-- A number of 32 bits among those of 64, which include it. -/
def widen (x : Single) : Double := convert .double x

/-- The number of 32 bits nearest to one of 64. -/
def narrow (x : Double) : Single := convert .single x

end Binary

end XmlRpc
