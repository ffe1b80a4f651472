/-
# Inside values

What is true of a value at every depth.

    replace f g v   v with f of its doubles and g of its moments
    AllDates P v    every moment inside v has the property P
    Named v         every member of every struct inside v has a name

Each is defined for values, items and members at once, by structural
recursion.
-/
import XmlRpc.Value

namespace XmlRpc

namespace Value

mutual

/-- A value with its doubles and its moments replaced. -/
def replace (f : Double → Double) (g : DateTime → DateTime) : Value → Value
  | .double x => .double (f x)
  | .dateTime d => .dateTime (g d)
  | .array items => .array (replaceItems f g items)
  | .struct members => .struct (replaceMembers f g members)
  | v => v
termination_by structural v => v

@[inherit_doc replace]
def replaceItems (f : Double → Double) (g : DateTime → DateTime) : List Value → List Value
  | [] => []
  | v :: vs => replace f g v :: replaceItems f g vs
termination_by structural vs => vs

@[inherit_doc replace]
def replaceMembers (f : Double → Double) (g : DateTime → DateTime) : List Member → List Member
  | [] => []
  | ⟨name, v⟩ :: ms => ⟨name, replace f g v⟩ :: replaceMembers f g ms
termination_by structural ms => ms

end

mutual

def AllDates (P : DateTime → Prop) : Value → Prop
  | .dateTime d => P d
  | .array items => AllDatesItems P items
  | .struct members => AllDatesMembers P members
  | _ => True
termination_by structural v => v

def AllDatesItems (P : DateTime → Prop) : List Value → Prop
  | [] => True
  | v :: vs => AllDates P v ∧ AllDatesItems P vs
termination_by structural vs => vs

def AllDatesMembers (P : DateTime → Prop) : List Member → Prop
  | [] => True
  | ⟨_, v⟩ :: ms => AllDates P v ∧ AllDatesMembers P ms
termination_by structural ms => ms

end

mutual

/-- Whether every member of every struct inside a value has a name. -/
def Named : Value → Prop
  | .array items => NamedItems items
  | .struct members => NamedMembers members
  | _ => True
termination_by structural v => v

@[inherit_doc Named]
def NamedItems : List Value → Prop
  | [] => True
  | v :: vs => Named v ∧ NamedItems vs
termination_by structural vs => vs

@[inherit_doc Named]
def NamedMembers : List Member → Prop
  | [] => True
  | ⟨name, v⟩ :: ms => name ≠ "" ∧ Named v ∧ NamedMembers ms
termination_by structural ms => ms

end

variable {f : Double → Double} {g h : DateTime → DateTime} {P : DateTime → Prop}

mutual

theorem replace_congr (hgh : ∀ d, P d → g d = h d) (v : Value) (hv : v.AllDates P) :
    v.replace f g = v.replace f h := by
  cases v with
  | dateTime d => exact congrArg Value.dateTime (hgh d hv)
  | array items => exact congrArg Value.array (replaceItems_congr hgh items hv)
  | struct members => exact congrArg Value.struct (replaceMembers_congr hgh members hv)
  | _ => rfl

theorem replaceItems_congr (hgh : ∀ d, P d → g d = h d) (vs : List Value)
    (hvs : AllDatesItems P vs) : replaceItems f g vs = replaceItems f h vs := by
  cases vs with
  | nil => rfl
  | cons v vs =>
      rw [replaceItems, replaceItems, replace_congr hgh v hvs.1, replaceItems_congr hgh vs hvs.2]

theorem replaceMembers_congr (hgh : ∀ d, P d → g d = h d) (ms : List Member)
    (hms : AllDatesMembers P ms) : replaceMembers f g ms = replaceMembers f h ms := by
  cases ms with
  | nil => rfl
  | cons m ms =>
      cases m with
      | mk name v =>
          rw [replaceMembers, replaceMembers, replace_congr hgh v hms.1,
            replaceMembers_congr hgh ms hms.2]

end

mutual

/-- What replacing again does not change, it does not change inside a value. -/
theorem replace_replace (hf : ∀ x, f (f x) = f x) (hg : ∀ d, g (g d) = g d) (v : Value) :
    (v.replace f g).replace f g = v.replace f g := by
  cases v with
  | double x => exact congrArg Value.double (hf x)
  | dateTime d => exact congrArg Value.dateTime (hg d)
  | array items => exact congrArg Value.array (replaceItems_replaceItems hf hg items)
  | struct members => exact congrArg Value.struct (replaceMembers_replaceMembers hf hg members)
  | _ => rfl

theorem replaceItems_replaceItems (hf : ∀ x, f (f x) = f x) (hg : ∀ d, g (g d) = g d)
    (vs : List Value) : replaceItems f g (replaceItems f g vs) = replaceItems f g vs := by
  cases vs with
  | nil => rfl
  | cons v vs =>
      rw [replaceItems, replaceItems, replace_replace hf hg v, replaceItems_replaceItems hf hg vs]

theorem replaceMembers_replaceMembers (hf : ∀ x, f (f x) = f x) (hg : ∀ d, g (g d) = g d)
    (ms : List Member) : replaceMembers f g (replaceMembers f g ms) = replaceMembers f g ms := by
  cases ms with
  | nil => rfl
  | cons m ms =>
      cases m with
      | mk name v =>
          rw [replaceMembers, replaceMembers, replace_replace hf hg v,
            replaceMembers_replaceMembers hf hg ms]

end

mutual

theorem named_replace (v : Value) : (v.replace f g).Named ↔ v.Named := by
  cases v with
  | array items => exact namedItems_replaceItems items
  | struct members => exact namedMembers_replaceMembers members
  | _ => exact Iff.rfl

theorem namedItems_replaceItems (vs : List Value) :
    NamedItems (replaceItems f g vs) ↔ NamedItems vs := by
  cases vs with
  | nil => exact Iff.rfl
  | cons v vs => exact and_congr (named_replace v) (namedItems_replaceItems vs)

theorem namedMembers_replaceMembers (ms : List Member) :
    NamedMembers (replaceMembers f g ms) ↔ NamedMembers ms := by
  cases ms with
  | nil => exact Iff.rfl
  | cons m ms =>
      cases m with
      | mk name v =>
          exact and_congr Iff.rfl (and_congr (named_replace v) (namedMembers_replaceMembers ms))

end

end Value

end XmlRpc
