/-
# Base64

Three octets are written as four letters of six bits each.  One or two
octets left over take two or three letters, filled up with `=` to four:

    x          ⟨x₁⟩⟨x₂⟩==       the last four bits are zero
    x y        ⟨x₁⟩⟨x₂⟩⟨x₃⟩=    the last two bits are zero

Reading accepts only that form: `=` nowhere else, none missing, and zero
bits behind the last octet.  Every other text is refused with the first of
these problems that holds:

    symbol      an octet that is no letter, or `=` out of place
    length      a last group of one letter
    padding     a last group not filled up to four
    lastSymbol  bits set behind the last octet
-/
import XmlRpc.Text.Utf8

namespace XmlRpc

namespace Base64

/-- Why a text is not Base64; offsets count octets from its beginning. -/
inductive Problem where
  | symbol (octet : UInt8) (offset : Nat)
  | length (count : Nat)
  | lastSymbol (octet : UInt8) (offset : Nat)
  | padding
  deriving DecidableEq, Repr

def Problem.message : Problem → String
  | .symbol octet offset =>
      "Invalid symbol " ++ toString octet.toNat ++ ", offset "
        ++ toString offset ++ "."
  | .length count => "Invalid input length: " ++ toString count
  | .lastSymbol octet offset =>
      "Invalid last symbol " ++ toString octet.toNat ++ ", offset "
        ++ toString offset ++ "."
  | .padding => "Invalid padding"

/-! ## Letters -/

/-- The letter of a six-bit number: `A`–`Z`, `a`–`z`, `0`–`9`, `+`, `/`. -/
def letter (n : Nat) : UInt8 :=
  if n < 26 then UInt8.ofNat (0x41 + n)
  else if n < 52 then UInt8.ofNat (0x61 + (n - 26))
  else if n < 62 then UInt8.ofNat (0x30 + (n - 52))
  else if n = 62 then 0x2B
  else 0x2F

/-- The six-bit number of a letter. -/
def value? (b : UInt8) : Option Nat :=
  if 0x41 ≤ b && b ≤ 0x5A then some (b.toNat - 0x41)
  else if 0x61 ≤ b && b ≤ 0x7A then some (b.toNat - 0x61 + 26)
  else if 0x30 ≤ b && b ≤ 0x39 then some (b.toNat - 0x30 + 52)
  else if b = 0x2B then some 62
  else if b = 0x2F then some 63
  else none

/-- The sign that fills a last group up. -/
def pad : UInt8 := 0x3D

/-! ## Writing -/

def encode : Octets → Octets
  | [] => []
  | [x] =>
      [letter (x.toNat / 4), letter (x.toNat % 4 * 16), pad, pad]
  | [x, y] =>
      [letter (x.toNat / 4), letter (x.toNat % 4 * 16 + y.toNat / 16),
        letter (y.toNat % 16 * 4), pad]
  | x :: y :: z :: r =>
      letter (x.toNat / 4) :: letter (x.toNat % 4 * 16 + y.toNat / 16)
        :: letter (y.toNat % 16 * 4 + z.toNat / 64) :: letter (z.toNat % 64)
        :: encode r

def encodeText (o : Octets) : List Char :=
  (encode o).map fun b => Char.ofNat b.toNat

/-! ## Reading -/

/-- The number of the letter at an offset. -/
def symbolAt (offset : Nat) (b : UInt8) : Except Problem Nat :=
  match value? b with
  | some n => .ok n
  | none => .error (.symbol b offset)

def threeOctets (a b c d : Nat) : Octets :=
  [UInt8.ofNat (a * 4 + b / 16), UInt8.ofNat (b % 16 * 16 + c / 4),
    UInt8.ofNat (c % 4 * 64 + d)]

/-- The letters of the last group, which begins at `offset` and of which `j`
are behind us, and the number of signs that fill it up.  The first such sign
has two letters before it and no letter after it. -/
def lastGroup (offset : Nat) (j : Nat) : Octets → Except Problem (List Nat × Nat)
  | [] => .ok ([], 0)
  | b :: r =>
    if b = pad then
      if j < 2 || r.any (· != pad) then .error (.symbol pad (offset + j))
      else .ok ([], r.length + 1)
    else
      match symbolAt (offset + j) b with
      | .error p => .error p
      | .ok n => (lastGroup offset (j + 1) r).map fun (ns, k) => (n :: ns, k)

def lastOctets (offset : Nat) (ns : List Nat) (pads : Nat) : Except Problem Octets :=
  if ns.length < 2 then .error (.length (offset + ns.length))
  else if (ns.length + pads) % 4 ≠ 0 then .error .padding
  else
    match ns with
    | [a, b] =>
        if b % 16 = 0 then .ok ((threeOctets a b 0 0).take 1)
        else .error (.lastSymbol (letter b) (offset + 1))
    | [a, b, c] =>
        if c % 4 = 0 then .ok ((threeOctets a b c 0).take 2)
        else .error (.lastSymbol (letter c) (offset + 2))
    | [a, b, c, d] => .ok (threeOctets a b c d)
    | _ => .error .padding

/-- The octets of the groups from `offset` on. -/
def groups (offset : Nat) : Octets → Except Problem Octets
  | [] => .ok []
  | a :: b :: c :: d :: e :: r => do
      let a ← symbolAt offset a
      let b ← symbolAt (offset + 1) b
      let c ← symbolAt (offset + 2) c
      let d ← symbolAt (offset + 3) d
      let rest ← groups (offset + 4) (e :: r)
      return threeOctets a b c d ++ rest
  | last => do
      let (ns, pads) ← lastGroup offset 0 last
      lastOctets offset ns pads

/-- A last octet that stands alone in its group and is neither a letter nor
`=`: what a stray character at the end of the text looks like. -/
def strayEnd? (o : Octets) : Option UInt8 :=
  if o.length % 4 = 1 then
    o.getLast?.filter fun b => b != pad && (value? b).isNone
  else none

/-- The octets that a text stands for.  A stray character at the end is
reported before all else. -/
def decode (o : Octets) : Except Problem Octets :=
  match strayEnd? o with
  | some b => .error (.symbol b (o.length - 1))
  | none => groups 0 o

end Base64

end XmlRpc
