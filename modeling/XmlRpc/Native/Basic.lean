/-
# Native data

What a program holds before it sends a message and after it has received
one: numbers of given widths, texts, octets, moments, lists, maps and records.
`toValue` is the value that a datum is sent as.

    unit, an absent option         nil
    whole numbers                  int, or nil above the largest int
    numbers of 32 or 64 bits       double
    octets                         base64
    lists                          array
    maps and records               struct, names from keys or fields
    options, boxes                 what they hold

Boxes also pass on that they hold a fault; options do not.
-/
import XmlRpc.Message
import XmlRpc.Binary.Rounding
import XmlRpc.Text.Numeral

namespace XmlRpc

namespace Native

/-- A key of a sorted map. -/
inductive Key where
  | text (s : String)
  | int (i : Int)
  | bool (b : Bool)
  | char (c : Char)
  deriving DecidableEq

namespace Key

/-- The text of a key, which becomes a member's name. -/
def name : Key → String
  | .text s => s
  | .int i => String.ofList (Numeral.ofInt i)
  | .bool b => if b then "true" else "false"
  | .char c => String.ofList [c]

/-- Keys of different types come in this order. -/
def rank : Key → Nat
  | .text _ => 0
  | .int _ => 1
  | .bool _ => 2
  | .char _ => 3

/-- The order of keys: texts by their characters, numbers by value, false
before true. -/
def lt : Key → Key → Bool
  | .text a, .text b => a < b
  | .int a, .int b => a < b
  | .bool a, .bool b => !a && b
  | .char a, .char b => a < b
  | a, b => a.rank < b.rank

end Key

/-- Puts an entry into a list that `lt` sorts by key, in place of an entry
with the same key. -/
def insertSorted {κ α : Type} (lt : κ → κ → Bool) (k : κ) (x : α) :
    List (κ × α) → List (κ × α)
  | [] => [(k, x)]
  | (j, y) :: r =>
    if lt k j then (k, x) :: (j, y) :: r
    else if lt j k then (j, y) :: insertSorted lt k x r
    else (k, x) :: r

/-- Puts an entry in place of the one with its name, or at the end. -/
def insertNamed {α : Type} (name : String) (x : α) :
    List (String × α) → List (String × α)
  | [] => [(name, x)]
  | (m, y) :: r =>
    if m = name then (name, x) :: r else (m, y) :: insertNamed name x r

end Native

/-- A native datum.  The entries of a `map` are sorted by key; those of a
`table` stand in the order in which the table goes through them. -/
inductive Native where
  | unit
  | bool (b : Bool)
  | int (i : Int)
  | single (x : Single)
  | double (x : Double)
  | string (s : String)
  | bytes (o : Octets)
  | dateTime (d : DateTime)
  | value (v : Value)
  | fault (f : Fault)
  | absent
  | present (x : Native)
  | boxed (x : Native)
  | list (items : List Native)
  | map (entries : List (Native.Key × Native))
  | table (entries : List (String × Native))
  | record (fields : List (String × Native))

namespace Native

instance : Inhabited Native := ⟨.unit⟩

/-- A whole number as a value; nil if an int does not hold it. -/
def intValue (i : Int) : Value :=
  match Numeral.toInt64? i with
  | some n => .int n
  | none => .nil

mutual

/-- The value that a datum is sent as. -/
def toValue : Native → Value
  | .unit => .nil
  | .bool b => .boolean b
  | .int i => intValue i
  | .single x => .double x.widen
  | .double x => .double x
  | .string s => .string s
  | .bytes o => .base64 o
  | .dateTime d => .dateTime d
  | .value v => v
  | .fault f => f.toValue
  | .absent => .nil
  | .present x => toValue x
  | .boxed x => toValue x
  | .list items => .array (toItems items)
  | .map entries => .struct (entryMembers entries)
  | .table entries => .struct (fieldMembers entries)
  | .record fields => .struct (fieldMembers fields)
termination_by structural x => x

def toItems : List Native → List Value
  | [] => []
  | x :: xs => toValue x :: toItems xs
termination_by structural xs => xs

def entryMembers : List (Key × Native) → List Member
  | [] => []
  | (k, x) :: r => ⟨k.name, toValue x⟩ :: entryMembers r
termination_by structural es => es

def fieldMembers : List (String × Native) → List Member
  | [] => []
  | (name, x) :: r => ⟨name, toValue x⟩ :: fieldMembers r
termination_by structural fs => fs

end

/-- The fault that a datum is, seen through boxes. -/
def asFault? : Native → Option Fault
  | .fault f => some f
  | .boxed x => asFault? x
  | _ => none

end Native

/-- The response that carries a datum: a fault if the datum is one. -/
def Response.reply (x : Native) : Response :=
  match x.asFault? with
  | some f => failure f
  | none => success x.toValue

def Call.ofArguments (method : String) (args : List Native) : Call :=
  ⟨method, args.map Native.toValue⟩

end XmlRpc
