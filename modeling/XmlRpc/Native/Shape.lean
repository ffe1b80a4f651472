/-
# Shapes

The type of a native datum.  Records are nominal: a schema declares each by
its name, with its fields in order and the name of each field in structs.

A record may hold other records directly only if they are declared behind it;
through options, lists and maps it may hold any record, itself included.  So
every shape has a default, which needs no more than the declarations.
-/
import XmlRpc.Native.Basic

namespace XmlRpc

namespace Native

/-- The types of whole numbers; those called size have 64 bits. -/
inductive IntType where
  | i8
  | i16
  | i32
  | i64
  | isize
  | u8
  | u16
  | u32
  | u64
  | usize
  deriving DecidableEq, Repr

namespace IntType

def name : IntType → String
  | .i8 => "i8"
  | .i16 => "i16"
  | .i32 => "i32"
  | .i64 => "i64"
  | .isize => "isize"
  | .u8 => "u8"
  | .u16 => "u16"
  | .u32 => "u32"
  | .u64 => "u64"
  | .usize => "usize"

def least : IntType → Int
  | .i8 => -128
  | .i16 => -32768
  | .i32 => -2147483648
  | .i64 | .isize => -9223372036854775808
  | .u8 | .u16 | .u32 | .u64 | .usize => 0

def greatest : IntType → Int
  | .i8 => 127
  | .i16 => 32767
  | .i32 => 2147483647
  | .i64 | .isize => 9223372036854775807
  | .u8 => 255
  | .u16 => 65535
  | .u32 => 4294967295
  | .u64 | .usize => 18446744073709551615

def holds (t : IntType) (i : Int) : Bool := t.least ≤ i && i ≤ t.greatest

end IntType

/-- The type of a native datum.  A `localDateTime` is what a clock shows,
without its offset. -/
inductive Shape where
  | unit
  | bool
  | int (t : IntType)
  | single
  | double
  | string
  | bytes
  | dateTime
  | utcDateTime
  | localDateTime
  | value
  | fault
  | option (s : Shape)
  | boxed (s : Shape)
  | list (s : Shape)
  | map (s : Shape)
  | table (s : Shape)
  | record (name : String)
  deriving DecidableEq

def Shape.name : Shape → String
  | .unit => "()"
  | .bool => "bool"
  | .int t => t.name
  | .single => "f32"
  | .double => "f64"
  | .string => "String"
  | .bytes => "Bytes"
  | .dateTime => "DateTime<FixedOffset>"
  | .utcDateTime => "DateTime<Utc>"
  | .localDateTime => "NaiveDateTime"
  | .value => "Value"
  | .fault => "Fault"
  | .option s => s.name
  | .boxed s => s.name
  | .list _ => "Vec"
  | .map _ => "BTreeMap"
  | .table _ => "HashMap"
  | .record name => name

/-- A field of a record: the name of its member in structs, and its shape. -/
structure Field where
  wire : String
  shape : Shape
  deriving DecidableEq

structure Declaration where
  name : String
  fields : List Field
  deriving DecidableEq

abbrev Schema := List Declaration

def faultFields : List Field :=
  [⟨Fault.codeMember, .int .i32⟩, ⟨Fault.messageMember, .string⟩]

/-! ## Defaults -/

/-- The default of a shape, given those of records. -/
def Shape.defaultWith (recordDefault : String → Native) : Shape → Native
  | .unit => .unit
  | .bool => .bool false
  | .int _ => .int 0
  | .single => .single Binary.zero
  | .double => .double Binary.zero
  | .string => .string ""
  | .bytes => .bytes []
  | .dateTime | .utcDateTime | .localDateTime => .dateTime .epoch
  | .value => .value .nil
  | .fault => .fault .blank
  | .option _ => .absent
  | .boxed s => .boxed (s.defaultWith recordDefault)
  | .list _ => .list []
  | .map _ => .map []
  | .table _ => .table []
  | .record name => recordDefault name

namespace Schema

/-- The default of a record, taken to be the derived one: each field has the
default of its own shape.  A record type that gives another default by hand is
left out. -/
def recordDefault : Schema → String → Native
  | [], _ => .record []
  | d :: behind, name =>
    if d.name = name then
      .record (d.fields.map fun f => (f.wire, f.shape.defaultWith (recordDefault behind)))
    else recordDefault behind name

def default (Γ : Schema) (s : Shape) : Native := s.defaultWith (recordDefault Γ)

/-- The fields of a record; none if it is not declared. -/
def fields (Γ : Schema) (name : String) : List Field :=
  match Γ.find? (·.name == name) with
  | some d => d.fields
  | none => []

end Schema

end Native

end XmlRpc
