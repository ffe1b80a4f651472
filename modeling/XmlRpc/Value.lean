/-
# Values

What an XML-RPC message carries.  A value has one of nine kinds; arrays and
structs hold further values.  A struct keeps its members in the order in which
they were given, repeated names included.

    nil | boolean | int | double | dateTime | base64 | string | array | struct

`Value.eqv` is the equality of what values mean: numbers as numbers, so NaN
differs from itself, and moments as instants.
-/
import XmlRpc.Binary.Basic
import XmlRpc.Calendar.Basic
import XmlRpc.Text.Utf8

namespace XmlRpc

inductive Kind where
  | nil
  | boolean
  | int
  | double
  | dateTime
  | base64
  | string
  | array
  | struct
  deriving DecidableEq, Repr

def Kind.name : Kind → String
  | .nil => "nil"
  | .boolean => "boolean"
  | .int => "int"
  | .double => "double"
  | .dateTime => "dateTime.iso8601"
  | .base64 => "base64"
  | .string => "string"
  | .array => "array"
  | .struct => "struct"

mutual

/-- An XML-RPC value.  Nil is written as an element without content. -/
inductive Value where
  | nil
  | boolean (b : Bool)
  | int (i : Int64)
  | double (x : Double)
  | dateTime (d : DateTime)
  | base64 (o : Octets)
  | string (s : String)
  | array (items : List Value)
  | struct (members : List Member)

structure Member where
  name : String
  value : Value

end

namespace Value

instance : Inhabited Value := ⟨.nil⟩

def kind : Value → Kind
  | .nil => .nil
  | .boolean _ => .boolean
  | .int _ => .int
  | .double _ => .double
  | .dateTime _ => .dateTime
  | .base64 _ => .base64
  | .string _ => .string
  | .array _ => .array
  | .struct _ => .struct

/-- Values that say nothing: nil, the empty array and the empty struct. -/
def isEmpty : Value → Bool
  | .nil => true
  | .array items => items.isEmpty
  | .struct members => members.isEmpty
  | _ => false

/-! ## Equality -/

mutual

/-- Whether two values mean the same. -/
def eqv : Value → Value → Bool
  | .nil, .nil => true
  | .boolean a, .boolean b => a == b
  | .int a, .int b => a == b
  | .double a, .double b => a.numEq b
  | .dateTime a, .dateTime b => a.sameInstant b
  | .base64 a, .base64 b => a == b
  | .string a, .string b => a == b
  | .array as, .array bs => eqvItems as bs
  | .struct ms, .struct ns => eqvMembers ms ns
  | _, _ => false
termination_by structural v => v

def eqvItems : List Value → List Value → Bool
  | [], [] => true
  | a :: as, b :: bs => eqv a b && eqvItems as bs
  | _, _ => false
termination_by structural vs => vs

def eqvMembers : List Member → List Member → Bool
  | [], [] => true
  | ⟨m, a⟩ :: ms, ⟨n, b⟩ :: ns => m == n && eqv a b && eqvMembers ms ns
  | _, _ => false
termination_by structural ms => ms

end

/-! ## Access -/

/-- The value of the first member with a name. -/
def member? (name : String) : Value → Option Value
  | .struct members => (members.find? (·.name == name)).map (·.value)
  | _ => none

def asBool? : Value → Option Bool
  | .boolean b => some b
  | _ => none

def asInt? : Value → Option Int64
  | .int i => some i
  | _ => none

def asDouble? : Value → Option Double
  | .double x => some x
  | _ => none

def asString? : Value → Option String
  | .string s => some s
  | _ => none

def asArray? : Value → Option (List Value)
  | .array items => some items
  | _ => none

end Value

end XmlRpc
