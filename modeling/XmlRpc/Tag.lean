/-
# Element names

The elements that XML-RPC documents are made of:

    call     := <methodCall> <methodName>text</methodName> params? </methodCall>
    response := <methodResponse> (params | <fault> value </fault>) </methodResponse>
    params   := <params> (<param> value </param>)* </params>
    value    := <value> (text | scalar | array | struct)? </value>
    scalar   := <int> | <i4> | <boolean> | <double> | <string> | <base64>
                | <dateTime.iso8601>
    array    := <array> <data> value* </data> </array>
    struct   := <struct> (<member> <name>text</name> value </member>)* </struct>
-/

namespace XmlRpc

/-- An element of XML-RPC documents. -/
inductive Tag where
  | methodCall
  | methodName
  | methodResponse
  | params
  | param
  | fault
  | value
  | struct
  | member
  | name
  | array
  | data
  | boolean
  | int
  | i4
  | double
  | string
  | base64
  | dateTime
  deriving DecidableEq, Repr

namespace Tag

def all : List Tag :=
  [.methodCall, .methodName, .methodResponse, .params, .param, .fault, .value,
    .struct, .member, .name, .array, .data, .boolean, .int, .i4, .double,
    .string, .base64, .dateTime]

def label : Tag → String
  | .methodCall => "methodCall"
  | .methodName => "methodName"
  | .methodResponse => "methodResponse"
  | .params => "params"
  | .param => "param"
  | .fault => "fault"
  | .value => "value"
  | .struct => "struct"
  | .member => "member"
  | .name => "name"
  | .array => "array"
  | .data => "data"
  | .boolean => "boolean"
  | .int => "int"
  | .i4 => "i4"
  | .double => "double"
  | .string => "string"
  | .base64 => "base64"
  | .dateTime => "dateTime.iso8601"

def openTag (t : Tag) : String := "<" ++ t.label ++ ">"

def closeTag (t : Tag) : String := "</" ++ t.label ++ ">"

def ofLabel? (s : String) : Option Tag := all.find? (·.label == s)

/-- Whether an element may stand directly inside a value. -/
def isValueType : Tag → Bool
  | .string | .boolean | .int | .i4 | .double | .base64 | .dateTime | .array | .struct => true
  | _ => false

end Tag

end XmlRpc
