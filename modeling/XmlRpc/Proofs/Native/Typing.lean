/-
# Data of a shape

Which data a shape describes, and what stands inside a datum.

    option     nothing, or a datum of the shape inside
    list       data of the shape of its items
    map        entries under texts that grow
    table      entries under texts that differ
    record     a datum for each declared field, under the field's name

A moment without an offset of its own shows UTC.

The default of a record holds the default of each of its fields
(`recordDefault_eq`), as long as no record holds itself or one declared before
it other than through options and lists.
-/
import XmlRpc.Native.Projection

namespace XmlRpc

namespace Native

/-! ## Schemas -/

/-- The record that a shape holds in place. -/
def Shape.inPlace? : Shape → Option String
  | .record name => some name
  | .boxed s => s.inPlace?
  | _ => none

namespace Schema

/-- Whether no record holds in place itself or one declared before it, so that
each has a default. -/
def Grounded : Schema → Prop
  | [] => True
  | d :: behind =>
      (∀ e ∈ d :: behind, ∀ f ∈ e.fields, f.shape.inPlace? ≠ some d.name) ∧ Grounded behind

def Distinct (Γ : Schema) : Prop := ∀ name, ((Γ.fields name).map (·.wire)).Nodup

def Named (Γ : Schema) : Prop := ∀ name, ∀ f ∈ Γ.fields name, f.wire ≠ ""

theorem fields_cons (d : Declaration) (Γ : Schema) (name : String) :
    fields (d :: Γ) name = if d.name = name then d.fields else fields Γ name := by
  rw [fields, List.find?_cons]
  by_cases h : d.name = name
  · simp [h]
  · have hb : (d.name == name) = false := beq_eq_false_iff_ne.mpr h
    rw [if_neg h, hb]
    rfl

theorem mem_of_mem_fields {Γ : Schema} {name : String} {f : Field} (h : f ∈ Γ.fields name) :
    ∃ e ∈ Γ, f ∈ e.fields := by
  rw [fields] at h
  split at h
  · rename_i d hd
    exact ⟨d, List.mem_of_find?_eq_some hd, h⟩
  · cases h

theorem defaultWith_congr {d₁ d₂ : String → Native} (s : Shape)
    (h : ∀ name, s.inPlace? = some name → d₁ name = d₂ name) :
    s.defaultWith d₁ = s.defaultWith d₂ := by
  induction s with
  | record name => exact h name rfl
  | boxed s ih => exact congrArg Native.boxed (ih h)
  | _ => rfl

theorem default_cons_of_ne {d : Declaration} {Γ : Schema} {s : Shape}
    (h : s.inPlace? ≠ some d.name) : default (d :: Γ) s = default Γ s := by
  refine defaultWith_congr s ?_
  intro name hname
  have hne : d.name ≠ name := by
    rintro rfl
    exact h hname
  rw [recordDefault, if_neg hne]

theorem recordDefault_eq {Γ : Schema} (h : Γ.Grounded) (name : String) :
    Γ.recordDefault name = .record ((Γ.fields name).map fun f => (f.wire, Γ.default f.shape)) := by
  induction Γ with
  | nil => rfl
  | cons d behind ih =>
      obtain ⟨hd, hbehind⟩ := h
      have hdefault {e : Declaration} (he : e ∈ d :: behind) {f : Field} (hf : f ∈ e.fields) :
          default (d :: behind) f.shape = default behind f.shape :=
        default_cons_of_ne (hd e he f hf)
      rw [recordDefault, fields_cons]
      split
      · refine congrArg Native.record (List.map_congr_left ?_)
        intro f hf
        rw [hdefault List.mem_cons_self hf]
        rfl
      · rw [ih hbehind]
        refine congrArg Native.record (List.map_congr_left ?_)
        intro f hf
        obtain ⟨e, he, hfe⟩ := mem_of_mem_fields hf
        rw [hdefault (List.mem_cons_of_mem d he) hfe]

end Schema

/-! ## Shapes of data -/

variable {Γ : Schema}

inductive HasShape (Γ : Schema) : Shape → Native → Prop where
  | unit : HasShape Γ .unit .unit
  | bool (b : Bool) : HasShape Γ .bool (.bool b)
  | int {t : IntType} {i : Int} : t.holds i = true → HasShape Γ (.int t) (.int i)
  | single (x : Single) : HasShape Γ .single (.single x)
  | double (x : Double) : HasShape Γ .double (.double x)
  | string (s : String) : HasShape Γ .string (.string s)
  | bytes (o : Octets) : HasShape Γ .bytes (.bytes o)
  | dateTime (d : DateTime) : HasShape Γ .dateTime (.dateTime d)
  | utcDateTime {d : DateTime} : d.offset = 0 → HasShape Γ .utcDateTime (.dateTime d)
  | localDateTime {d : DateTime} : d.offset = 0 → d.inCalendar = true →
      HasShape Γ .localDateTime (.dateTime d)
  | value (v : Value) : HasShape Γ .value (.value v)
  | fault (f : Fault) : HasShape Γ .fault (.fault f)
  | absent (s : Shape) : HasShape Γ (.option s) .absent
  | present {s : Shape} {x : Native} : HasShape Γ s x → HasShape Γ (.option s) (.present x)
  | boxed {s : Shape} {x : Native} : HasShape Γ s x → HasShape Γ (.boxed s) (.boxed x)
  | list {s : Shape} {xs : List Native} : (∀ x ∈ xs, HasShape Γ s x) →
      HasShape Γ (.list s) (.list xs)
  | map {s : Shape} {es : List (String × Native)} : es.Pairwise (fun a b => a.1 < b.1) →
      (∀ e ∈ es, HasShape Γ s e.2) →
      HasShape Γ (.map s) (.map (es.map fun e => (.text e.1, e.2)))
  | table {s : Shape} {es : List (String × Native)} : (es.map (·.1)).Nodup →
      (∀ e ∈ es, HasShape Γ s e.2) → HasShape Γ (.table s) (.table es)
  | record {name : String} {xs : List (String × Native)} :
      xs.map (·.1) = (Γ.fields name).map (·.wire) →
      (∀ p ∈ (Γ.fields name).zip xs, HasShape Γ p.1.shape p.2.2) →
      HasShape Γ (.record name) (.record xs)

theorem exists_field {fs : List Field} {xs : List (String × Native)}
    (hnames : xs.map (·.1) = fs.map (·.wire)) {e : String × Native} (he : e ∈ xs) :
    ∃ f, (f, e) ∈ fs.zip xs := by
  have hlen := congrArg List.length hnames
  rw [List.length_map, List.length_map] at hlen
  rw [← List.map_snd_zip (Nat.le_of_eq hlen)] at he
  obtain ⟨⟨f, d⟩, hzip, rfl⟩ := List.mem_map.mp he
  exact ⟨f, hzip⟩

theorem holds_code (f : Fault) : IntType.i32.holds f.code.toInt = true := by
  have hl := f.code.le_toInt
  have hu := f.code.toInt_lt
  exact (Bool.and_eq_true _ _).mpr ⟨decide_eq_true hl, decide_eq_true (Int.le_of_lt_add_one hu)⟩

/-- What stands inside a datum, at any depth; the datum itself does. -/
inductive Inside : Native → Native → Prop where
  | self (x : Native) : Inside x x
  | present {y x : Native} : Inside y x → Inside y (.present x)
  | boxed {y x : Native} : Inside y x → Inside y (.boxed x)
  | item {y x : Native} {xs : List Native} : x ∈ xs → Inside y x → Inside y (.list xs)
  | entry {y : Native} {e : Key × Native} {es : List (Key × Native)} : e ∈ es → Inside y e.2 →
      Inside y (.map es)
  | slot {y : Native} {e : String × Native} {es : List (String × Native)} : e ∈ es →
      Inside y e.2 → Inside y (.table es)
  | field {y : Native} {e : String × Native} {fs : List (String × Native)} : e ∈ fs →
      Inside y e.2 → Inside y (.record fs)

def Every (P : Native → Prop) (x : Native) : Prop := ∀ y, Inside y x → P y

namespace Every

variable {P Q : Native → Prop}

theorem self {x : Native} (h : Every P x) : P x := h x (.self x)

theorem imp (hpq : ∀ y, P y → Q y) {x : Native} (h : Every P x) : Every Q x :=
  fun y hy => hpq y (h y hy)

theorem present {x : Native} (h : Every P (.present x)) : Every P x := fun y hy => h y (.present hy)

theorem boxed {x : Native} (h : Every P (.boxed x)) : Every P x := fun y hy => h y (.boxed hy)

theorem item {xs : List Native} (h : Every P (.list xs)) {x : Native} (hx : x ∈ xs) : Every P x :=
  fun y hy => h y (.item hx hy)

theorem entry {es : List (String × Native)} (h : Every P (.map (es.map fun e => (.text e.1, e.2))))
    {e : String × Native} (he : e ∈ es) : Every P e.2 :=
  fun y hy => h y (.entry (List.mem_map_of_mem he) hy)

theorem slot {es : List (String × Native)} (h : Every P (.table es)) {e : String × Native}
    (he : e ∈ es) : Every P e.2 := fun y hy => h y (.slot he hy)

theorem field {fs : List (String × Native)} (h : Every P (.record fs)) {e : String × Native}
    (he : e ∈ fs) : Every P e.2 := fun y hy => h y (.field he hy)

end Every

end Native

end XmlRpc
