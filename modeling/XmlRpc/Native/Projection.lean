/-
# Projection

Receiving a value into a slot that already holds a datum of some shape:

    scalars     are overwritten, if the kind fits
    options     hold a datum afterwards; a default is put there first
    lists       grow by the items received, each projected into a default
    maps        gain the members received, which replace entries of that name
    records     have the fields named by members projected into
    value       takes everything; unit ignores everything

Nil, the empty array and the empty struct leave every slot as it is.

A list or map that meets a misfit among its items stays as it was.  A record
keeps what came before the misfit.

Misfits are reported as faults, but for one: a slot of local time that receives
a moment whose clock shows a date off the calendar panics.  A panic unwinds from
where it happens, so that it leaves in a slot what a fault would.
-/
import XmlRpc.Native.Shape

namespace XmlRpc

namespace Native

/-- Why a value does not go into a slot. -/
inductive Misfit where
  | mismatch (into : String) (found : Kind)
  | outOfRange (i : Int64) (into : String)
  | unknownField (owner field : String)
  | offCalendar
  deriving DecidableEq

def Misfit.toError : Misfit → Error
  | .mismatch into found =>
      .fault (FaultCode.internalError.fault
        ("type mismatch: cannot write " ++ found.name ++ " value into " ++ into))
  | .outOfRange i into =>
      .fault (FaultCode.internalError.fault
        ("int " ++ toString i.toInt ++ " out of range for " ++ into))
  | .unknownField owner field =>
      .fault (FaultCode.internalError.fault
        ("error writing struct " ++ owner ++ ". unknown field " ++ field))
  | .offCalendar => .misuse "Local time out of range for `NaiveDateTime`"

/-- What a projection ends with: the content of the slot, and the misfit that
ended it early. -/
structure Projection where
  content : Native
  misfit : Option Misfit

namespace Projection

/-- A projection that went through. -/
def done (x : Native) : Projection := ⟨x, none⟩

/-- A projection that left the slot alone. -/
def refused (x : Native) (m : Misfit) : Projection := ⟨x, some m⟩

end Projection

/-- Projects a value that holds no others into a slot that is neither an
option nor a box. -/
def assignPlain (v : Value) (s : Shape) (x : Native) : Projection :=
  match s, v with
  | .unit, _ => .done x
  | .value, v => .done (.value v)
  | .bool, .boolean b => .done (.bool b)
  | .int t, .int i =>
    if t.holds i.toInt then .done (.int i.toInt)
    else .refused x (.outOfRange i t.name)
  | .single, .double d => .done (.single d.narrow)
  | .double, .double d => .done (.double d)
  | .string, .string t => .done (.string t)
  | .bytes, .base64 o => .done (.bytes o)
  | .dateTime, .dateTime d => .done (.dateTime d)
  | .utcDateTime, .dateTime d => .done (.dateTime d.toUtc)
  | .localDateTime, .dateTime d =>
    if d.inCalendar then .done (.dateTime d.localAsUtc)
    else .refused x .offCalendar
  | s, v => .refused x (.mismatch s.name v.kind)

/-- Reaches through options and boxes to the slot inside, which `core`
projects into.  An absent option gets a default first. -/
def through (Γ : Schema) (core : Shape → Native → Projection) :
    Shape → Native → Projection
  | .option s, x =>
    let held := match x with
      | .present y => y
      | _ => Γ.default s
    let r := through Γ core s held
    ⟨.present r.content, r.misfit⟩
  | .boxed s, x =>
    let held := match x with
      | .boxed y => y
      | _ => Γ.default s
    let r := through Γ core s held
    ⟨.boxed r.content, r.misfit⟩
  | s, x => core s x

/-- Projects into the first field that has a wire name; none has it, none is
the answer. -/
def assignField (into : Shape → Native → Projection) (wire : String) :
    List Field → List (String × Native) → Option (List (String × Native) × Option Misfit)
  | f :: fs, (name, x) :: xs =>
    if f.wire = wire then
      let r := into f.shape x
      some ((name, r.content) :: xs, r.misfit)
    else (assignField into wire fs xs).map fun (xs, m) => ((name, x) :: xs, m)
  | _, _ => none

def itemsOf : Native → List Native
  | .list xs => xs
  | _ => []

def entriesOf : Native → List (Key × Native)
  | .map es => es
  | _ => []

def tableOf : Native → List (String × Native)
  | .table es => es
  | _ => []

/-- The fields that a record holds, a fault being one of two fields. -/
def fieldsOf : Native → List (String × Native)
  | .record fs => fs
  | .fault f =>
      [(Fault.codeMember, .int f.code.toInt), (Fault.messageMember, .string f.message)]
  | _ => []

/-- The fault with those fields. -/
def faultOf : List (String × Native) → Fault
  | [(_, .int code), (_, .string message)] => ⟨Int32.ofInt code, message⟩
  | _ => .blank

mutual

/-- Projects a value into a slot of a shape, also an empty value. -/
def assign (Γ : Schema) : Value → Shape → Native → Projection
  | .array items => through Γ fun s x =>
    match s with
    | .list item =>
      match receiveItems Γ items item with
      | .ok ys => .done (.list (itemsOf x ++ ys))
      | .error m => .refused x m
    | s => assignPlain (.array items) s x
  | .struct members => through Γ fun s x =>
    match s with
    | .map item =>
      match receiveMembers Γ members item with
      | .ok es =>
          .done (.map (es.foldl (fun acc (name, y) => insertSorted Key.lt (.text name) y acc)
            (entriesOf x)))
      | .error m => .refused x m
    | .table item =>
      match receiveMembers Γ members item with
      | .ok es =>
          .done (.table (es.foldl (fun acc (name, y) => insertNamed name y acc) (tableOf x)))
      | .error m => .refused x m
    | .record name =>
      let (fs, m) := assignMembers Γ members name (Γ.fields name) (fieldsOf x)
      ⟨.record fs, m⟩
    | .fault =>
      let (fs, m) := assignMembers Γ members Shape.fault.name faultFields (fieldsOf x)
      ⟨.fault (faultOf fs), m⟩
    | s => assignPlain (.struct members) s x
  | .nil => through Γ (assignPlain .nil)
  | .boolean b => through Γ (assignPlain (.boolean b))
  | .int i => through Γ (assignPlain (.int i))
  | .double d => through Γ (assignPlain (.double d))
  | .dateTime d => through Γ (assignPlain (.dateTime d))
  | .base64 o => through Γ (assignPlain (.base64 o))
  | .string t => through Γ (assignPlain (.string t))
termination_by structural v => v

/-- The items received, each projected into a default; a misfit in one
refuses all. -/
def receiveItems (Γ : Schema) : List Value → Shape → Except Misfit (List Native)
  | [], _ => .ok []
  | v :: vs, s =>
    let r := if v.isEmpty then .done (Γ.default s) else assign Γ v s (Γ.default s)
    match r.misfit with
    | some m => .error m
    | none => (receiveItems Γ vs s).map (r.content :: ·)
termination_by structural vs => vs

/-- The members received, each projected into a default; a misfit in one
refuses all. -/
def receiveMembers (Γ : Schema) :
    List Member → Shape → Except Misfit (List (String × Native))
  | [], _ => .ok []
  | ⟨name, v⟩ :: ms, s =>
    let r := if v.isEmpty then .done (Γ.default s) else assign Γ v s (Γ.default s)
    match r.misfit with
    | some m => .error m
    | none => (receiveMembers Γ ms s).map ((name, r.content) :: ·)
termination_by structural ms => ms

/-- Projects members one after the other into the fields of a record, up to
the first misfit. -/
def assignMembers (Γ : Schema) : List Member → (owner : String) → List Field →
    List (String × Native) → List (String × Native) × Option Misfit
  | [], _, _, xs => (xs, none)
  | ⟨name, v⟩ :: ms, owner, fs, xs =>
    let into := fun s x => if v.isEmpty then .done x else assign Γ v s x
    match assignField into name fs xs with
    | none => (xs, some (.unknownField owner name))
    | some (xs, some m) => (xs, some m)
    | some (xs, none) => assignMembers Γ ms owner fs xs
termination_by structural ms => ms

end

/-- Projects a value into a slot; an empty value leaves it as it is. -/
def project (Γ : Schema) (v : Value) (s : Shape) (x : Native) : Projection :=
  if v.isEmpty then .done x else assign Γ v s x

end Native

/-- Projects parameters into a slot: one as it is, several as an array. -/
def Params.project (Γ : Native.Schema) (params : Params) (s : Native.Shape)
    (x : Native) : Native.Projection :=
  match params with
  | [] => .done x
  | [v] => Native.project Γ v s x
  | vs => Native.project Γ (.array vs) s x

def Response.toFault (r : Response) : Except Native.Misfit (Option Fault) :=
  if r.isFault then
    let p := Native.project [] r.fault .fault (.fault .blank)
    match p.misfit, p.content with
    | some m, _ => .error m
    | none, .fault f => .ok (some f)
    | none, _ => .ok none
  else .ok none

end XmlRpc
