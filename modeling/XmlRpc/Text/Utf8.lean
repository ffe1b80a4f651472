/-
# UTF-8

Octets and the characters they stand for.  `encode` writes characters one
after the other; `decode` reads them back and, where the octets are not
UTF-8, says where the first bad sequence begins and how much of it is bad:

    invalid n i     the n octets from index i on begin no character
    incomplete i    the octets end inside the character begun at index i

Overlong forms, surrogates and numbers above 10FFFF are refused at their
second octet, so n is at most 3.
-/

namespace XmlRpc

/-- A stretch of a byte stream. -/
abbrev Octets := List UInt8

namespace Utf8

def encode (cs : List Char) : Octets := cs.flatMap String.utf8EncodeChar

def encodeString (s : String) : Octets := encode s.toList

/-- Why octets are not UTF-8. -/
inductive Problem where
  | invalid (count index : Nat)
  | incomplete (index : Nat)
  deriving DecidableEq, Repr

def Problem.message : Problem → String
  | .invalid count index =>
      "invalid utf-8 sequence of " ++ toString count ++ " bytes from index "
        ++ toString index
  | .incomplete index =>
      "incomplete utf-8 byte sequence from index " ++ toString index

/-- An octet that may follow the first one of a character: `10xxxxxx`. -/
def isContinuation (b : UInt8) : Bool := 0x80 ≤ b && b ≤ 0xBF

/-- Second octets of three-octet characters: no overlong forms after `E0`,
no surrogates after `ED`. -/
def isSecondOfThree (a b : UInt8) : Bool :=
  if a = 0xE0 then 0xA0 ≤ b && b ≤ 0xBF
  else if a = 0xED then 0x80 ≤ b && b ≤ 0x9F
  else isContinuation b

/-- Second octets of four-octet characters: no overlong forms after `F0`,
nothing above 10FFFF after `F4`. -/
def isSecondOfFour (a b : UInt8) : Bool :=
  if a = 0xF0 then 0x90 ≤ b && b ≤ 0xBF
  else if a = 0xF4 then 0x80 ≤ b && b ≤ 0x8F
  else isContinuation b

/-- The character with the six-bit payloads `b`, `c`, `d` behind the
leading bits `a`. -/
def char2 (a b : UInt8) : Char :=
  Char.ofNat ((a.toNat - 0xC0) * 64 + (b.toNat - 0x80))

@[inherit_doc char2]
def char3 (a b c : UInt8) : Char :=
  Char.ofNat ((a.toNat - 0xE0) * 4096 + (b.toNat - 0x80) * 64 + (c.toNat - 0x80))

@[inherit_doc char2]
def char4 (a b c d : UInt8) : Char :=
  Char.ofNat ((a.toNat - 0xF0) * 262144 + (b.toNat - 0x80) * 4096
    + (c.toNat - 0x80) * 64 + (d.toNat - 0x80))

/-- Decodes octets that begin at index `i`. -/
def decodeFrom (i : Nat) : Octets → Except Problem (List Char)
  | [] => .ok []
  | a :: r =>
    if a < 0x80 then
      (decodeFrom (i + 1) r).map (Char.ofNat a.toNat :: ·)
    else if 0xC2 ≤ a && a ≤ 0xDF then
      match r with
      | [] => .error (.incomplete i)
      | b :: r =>
        if isContinuation b then (decodeFrom (i + 2) r).map (char2 a b :: ·)
        else .error (.invalid 1 i)
    else if 0xE0 ≤ a && a ≤ 0xEF then
      match r with
      | [] => .error (.incomplete i)
      | b :: r =>
        if isSecondOfThree a b then
          match r with
          | [] => .error (.incomplete i)
          | c :: r =>
            if isContinuation c then
              (decodeFrom (i + 3) r).map (char3 a b c :: ·)
            else .error (.invalid 2 i)
        else .error (.invalid 1 i)
    else if 0xF0 ≤ a && a ≤ 0xF4 then
      match r with
      | [] => .error (.incomplete i)
      | b :: r =>
        if isSecondOfFour a b then
          match r with
          | [] => .error (.incomplete i)
          | c :: r =>
            if isContinuation c then
              match r with
              | [] => .error (.incomplete i)
              | d :: r =>
                if isContinuation d then
                  (decodeFrom (i + 4) r).map (char4 a b c d :: ·)
                else .error (.invalid 3 i)
            else .error (.invalid 2 i)
        else .error (.invalid 1 i)
    else .error (.invalid 1 i)

def decode (o : Octets) : Except Problem (List Char) := decodeFrom 0 o

/-- The text that octets stand for, empty when they are not UTF-8. -/
def decodeOrEmpty (o : Octets) : List Char :=
  match decode o with
  | .ok cs => cs
  | .error _ => []

theorem pos_of_decodeFrom_invalid {o : Octets} {i n j : Nat}
    (h : decodeFrom i o = .error (.invalid n j)) : 0 < n := by
  have hmap {x : Except Problem (List Char)} {c : Char}
      (h : x.map (c :: ·) = .error (.invalid n j)) : x = .error (.invalid n j) := by
    cases x with
    | ok cs => cases h
    | error p =>
        cases h
        rfl
  fun_induction decodeFrom i o with
  | case1 => cases h
  | _ =>
      -- a character is passed over, or the bad sequence is here, or the octets end
      first
      | (rename_i ih; exact ih (hmap h))
      | (cases h; exact Nat.zero_lt_succ _)
      | cases h

/-- What stands for octets that are no character. -/
def replacement : Char := Char.ofNat 0xFFFD

/-- The text that octets stand for, with a replacement for every bad sequence. -/
def decodeLossy (o : Octets) : List Char :=
  match h : decode o with
  | .ok cs => cs
  | .error (.incomplete index) => decodeOrEmpty (o.take index) ++ [replacement]
  | .error (.invalid count index) =>
    have : o.length - (index + count) < o.length := by
      have hpos := pos_of_decodeFrom_invalid h
      have hne : o ≠ [] := by
        rintro rfl
        cases h
      have hlen := List.length_pos_iff.mpr hne
      omega
    decodeOrEmpty (o.take index) ++ replacement :: decodeLossy (o.drop (index + count))
termination_by o.length

end Utf8

end XmlRpc
