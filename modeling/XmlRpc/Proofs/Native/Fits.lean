/-
# Values that fit

Which values go into a slot is a matter of its shape alone:

    nil, empty arrays and structs   fit every shape
    unit, value                     take every value
    other scalars                   take the kind that is theirs, whole numbers
                                    those of their range, and local moments
                                    those of the calendar
    options, boxes                  take what the shape inside takes
    lists                           take arrays of items that fit
    maps, tables                    take structs of members that fit
    records, faults                 take structs whose members have declared
                                    names and fit the first field of that name

A projection goes through exactly if the value fits, and how it ends does not
depend on what the slot held before (`projected_fits`).

An offset carries the clock of the last or first moments of the calendar off it.
There a slot of local time panics, where every other misfit is a fault.  So
local moments do not take all moments: what fits is what would fit if they did
(`FitsWhere fun _ => True`) and does not overrun the calendar (`Overruns`).
-/
import XmlRpc.Codec.Basic
import XmlRpc.Proofs.Native.Slots

namespace XmlRpc

namespace Native

variable {Γ : Schema} {s : Shape} {v : Value} {x y : Native}

/-! ## Fitting -/

/-- Whether a value fits a shape, if a local moment takes the moments for which
`clock` holds. -/
inductive FitsWhere (clock : DateTime → Prop) (Γ : Schema) : Shape → Value → Prop where
  | unit (v : Value) : FitsWhere clock Γ .unit v
  | value (v : Value) : FitsWhere clock Γ .value v
  | bool (b : Bool) : FitsWhere clock Γ .bool (.boolean b)
  | int {t : IntType} {i : Int64} : t.holds i.toInt = true → FitsWhere clock Γ (.int t) (.int i)
  | single (x : Double) : FitsWhere clock Γ .single (.double x)
  | double (x : Double) : FitsWhere clock Γ .double (.double x)
  | string (t : String) : FitsWhere clock Γ .string (.string t)
  | bytes (o : Octets) : FitsWhere clock Γ .bytes (.base64 o)
  | dateTime (d : DateTime) : FitsWhere clock Γ .dateTime (.dateTime d)
  | utcDateTime (d : DateTime) : FitsWhere clock Γ .utcDateTime (.dateTime d)
  | localDateTime {d : DateTime} : clock d → FitsWhere clock Γ .localDateTime (.dateTime d)
  | option {s : Shape} {v : Value} : FitsWhere clock Γ s v → FitsWhere clock Γ (.option s) v
  | boxed {s : Shape} {v : Value} : FitsWhere clock Γ s v → FitsWhere clock Γ (.boxed s) v
  | list {s : Shape} {vs : List Value} : (∀ v ∈ vs, FitsWhere clock Γ s v) →
      FitsWhere clock Γ (.list s) (.array vs)
  | map {s : Shape} {ms : List Member} : (∀ m ∈ ms, FitsWhere clock Γ s m.value) →
      FitsWhere clock Γ (.map s) (.struct ms)
  | table {s : Shape} {ms : List Member} : (∀ m ∈ ms, FitsWhere clock Γ s m.value) →
      FitsWhere clock Γ (.table s) (.struct ms)
  | record {name : String} {ms : List Member} :
      (∀ m ∈ ms, (fieldNamed? (Γ.fields name) m.name).isSome = true) →
      (∀ m ∈ ms, ∀ f, fieldNamed? (Γ.fields name) m.name = some f →
        FitsWhere clock Γ f.shape m.value) →
      FitsWhere clock Γ (.record name) (.struct ms)
  | fault {ms : List Member} :
      (∀ m ∈ ms, (fieldNamed? faultFields m.name).isSome = true) →
      (∀ m ∈ ms, ∀ f, fieldNamed? faultFields m.name = some f →
        FitsWhere clock Γ f.shape m.value) →
      FitsWhere clock Γ .fault (.struct ms)
  | empty {s : Shape} {v : Value} : v.isEmpty = true → FitsWhere clock Γ s v

abbrev Fits : Schema → Shape → Value → Prop := FitsWhere fun d => d.inCalendar = true

/-- Whether a member has the name of a field and fits the first of that
name. -/
def FitsField (Γ : Schema) (fs : List Field) (m : Member) : Prop :=
  ∃ f, fieldNamed? fs m.name = some f ∧ Fits Γ f.shape m.value

theorem fitsField_iff {fs : List Field} {ms : List Member} :
    (∀ m ∈ ms, FitsField Γ fs m) ↔ (∀ m ∈ ms, (fieldNamed? fs m.name).isSome = true) ∧
      ∀ m ∈ ms, ∀ f, fieldNamed? fs m.name = some f → Fits Γ f.shape m.value := by
  constructor
  · intro h
    refine ⟨?_, ?_⟩
    · intro m hm
      obtain ⟨f, hf, -⟩ := h m hm
      exact Option.isSome_of_eq_some hf
    · intro m hm f hf
      obtain ⟨g, hg, hfit⟩ := h m hm
      cases hf.symm.trans hg
      exact hfit
  · rintro ⟨hsome, hfit⟩ m hm
    obtain ⟨f, hf⟩ := Option.isSome_iff_exists.mp (hsome m hm)
    exact ⟨f, hf, hfit m hm f hf⟩

theorem fits_option_iff : Fits Γ (.option s) v ↔ Fits Γ s v := by
  constructor
  · intro h
    cases h with
    | empty h => exact .empty h
    | option h => exact h
  · exact .option

theorem fits_boxed_iff : Fits Γ (.boxed s) v ↔ Fits Γ s v := by
  constructor
  · intro h
    cases h with
    | empty h => exact .empty h
    | boxed h => exact h
  · exact .boxed

theorem fits_int_iff {t : IntType} {i : Int64} :
    Fits Γ (.int t) (.int i) ↔ t.holds i.toInt = true := by
  constructor
  · intro h
    cases h with
    | empty h => cases h
    | int h => exact h
  · exact .int

theorem fits_localDateTime_iff {d : DateTime} :
    Fits Γ .localDateTime (.dateTime d) ↔ d.inCalendar = true := by
  constructor
  · intro h
    cases h with
    | empty h => cases h
    | localDateTime h => exact h
  · intro h
    exact .localDateTime h

theorem fits_list_iff {vs : List Value} :
    Fits Γ (.list s) (.array vs) ↔ ∀ v ∈ vs, Fits Γ s v := by
  constructor
  · intro h
    cases h with
    | empty h =>
        cases List.isEmpty_iff.mp h
        exact nofun
    | list h => exact h
  · exact .list

theorem fits_map_iff {ms : List Member} :
    Fits Γ (.map s) (.struct ms) ↔ ∀ m ∈ ms, Fits Γ s m.value := by
  constructor
  · intro h
    cases h with
    | empty h =>
        cases List.isEmpty_iff.mp h
        exact nofun
    | map h => exact h
  · exact .map

theorem fits_table_iff {ms : List Member} :
    Fits Γ (.table s) (.struct ms) ↔ ∀ m ∈ ms, Fits Γ s m.value := by
  constructor
  · intro h
    cases h with
    | empty h =>
        cases List.isEmpty_iff.mp h
        exact nofun
    | table h => exact h
  · exact .table

theorem fits_record_iff {name : String} {ms : List Member} :
    Fits Γ (.record name) (.struct ms) ↔ ∀ m ∈ ms, FitsField Γ (Γ.fields name) m := by
  constructor
  · intro h
    cases h with
    | empty h =>
        cases List.isEmpty_iff.mp h
        exact nofun
    | record hsome hfit => exact fitsField_iff.mpr ⟨hsome, hfit⟩
  · intro h
    exact .record (fitsField_iff.mp h).1 (fitsField_iff.mp h).2

theorem fits_fault_iff {ms : List Member} :
    Fits Γ .fault (.struct ms) ↔ ∀ m ∈ ms, FitsField Γ faultFields m := by
  constructor
  · intro h
    cases h with
    | empty h =>
        cases List.isEmpty_iff.mp h
        exact nofun
    | fault hsome hfit => exact fitsField_iff.mpr ⟨hsome, hfit⟩
  · intro h
    exact .fault (fitsField_iff.mp h).1 (fitsField_iff.mp h).2

/-- The one kind of values that a shape takes; none if it takes several. -/
def Shape.kind? : Shape → Option Kind
  | .bool => some .boolean
  | .int _ => some .int
  | .single | .double => some .double
  | .string => some .string
  | .bytes => some .base64
  | .dateTime | .utcDateTime | .localDateTime => some .dateTime
  | .list _ => some .array
  | .map _ | .table _ | .record _ | .fault => some .struct
  | .unit | .value | .option _ | .boxed _ => none

theorem FitsWhere.kind_eq {k : Kind} (h : Fits Γ s v) (hv : v.isEmpty = false)
    (hk : s.kind? = some k) : v.kind = k := by
  cases h with
  | empty h => exact absurd h (Bool.eq_false_iff.mp hv)
  | unit | value | option | boxed => cases hk
  | _ =>
      cases hk
      rfl

/-! ## Clocks off the calendar -/

/-- Whether a moment whose clock is off the calendar meets a local moment. -/
inductive Overruns (Γ : Schema) : Shape → Value → Prop where
  | localDateTime {d : DateTime} : d.inCalendar = false → Overruns Γ .localDateTime (.dateTime d)
  | option {s : Shape} {v : Value} : Overruns Γ s v → Overruns Γ (.option s) v
  | boxed {s : Shape} {v : Value} : Overruns Γ s v → Overruns Γ (.boxed s) v
  | list {s : Shape} {v : Value} {vs : List Value} : v ∈ vs → Overruns Γ s v →
      Overruns Γ (.list s) (.array vs)
  | map {s : Shape} {m : Member} {ms : List Member} : m ∈ ms → Overruns Γ s m.value →
      Overruns Γ (.map s) (.struct ms)
  | table {s : Shape} {m : Member} {ms : List Member} : m ∈ ms → Overruns Γ s m.value →
      Overruns Γ (.table s) (.struct ms)
  | record {name : String} {f : Field} {m : Member} {ms : List Member} : m ∈ ms →
      fieldNamed? (Γ.fields name) m.name = some f → Overruns Γ f.shape m.value →
      Overruns Γ (.record name) (.struct ms)
  | fault {f : Field} {m : Member} {ms : List Member} : m ∈ ms →
      fieldNamed? faultFields m.name = some f → Overruns Γ f.shape m.value →
      Overruns Γ .fault (.struct ms)

def OverrunsField (Γ : Schema) (fs : List Field) (m : Member) : Prop :=
  ∃ f, fieldNamed? fs m.name = some f ∧ Overruns Γ f.shape m.value

theorem FitsWhere.imp {P Q : DateTime → Prop} (hpq : ∀ d, P d → Q d) (h : FitsWhere P Γ s v) :
    FitsWhere Q Γ s v := by
  induction h with
  | int h => exact .int h
  | localDateTime h => exact .localDateTime (hpq _ h)
  | option _ ih => exact .option ih
  | boxed _ ih => exact .boxed ih
  | list _ ih => exact .list ih
  | map _ ih => exact .map ih
  | table _ ih => exact .table ih
  | record hsome _ ih => exact .record hsome ih
  | fault hsome _ ih => exact .fault hsome ih
  | empty h => exact .empty h
  | _ => constructor

/-- The field that takes a member that fits is the one that it overruns. -/
theorem FitsField.fits {fs : List Field} {f : Field} {m : Member} (h : FitsField Γ fs m)
    (hf : fieldNamed? fs m.name = some f) : Fits Γ f.shape m.value := by
  obtain ⟨g, hg, hfit⟩ := h
  cases hf.symm.trans hg
  exact hfit

theorem Overruns.not_fits (h : Overruns Γ s v) : ¬ Fits Γ s v := by
  induction h with
  | localDateTime h =>
      rw [fits_localDateTime_iff]
      exact Bool.eq_false_iff.mp h
  | option _ ih => rwa [fits_option_iff]
  | boxed _ ih => rwa [fits_boxed_iff]
  | list hv _ ih => exact fun hfits => ih (fits_list_iff.mp hfits _ hv)
  | map hm _ ih => exact fun hfits => ih (fits_map_iff.mp hfits _ hm)
  | table hm _ ih => exact fun hfits => ih (fits_table_iff.mp hfits _ hm)
  | record hm hf _ ih => exact fun hfits => ih ((fits_record_iff.mp hfits _ hm).fits hf)
  | fault hm hf _ ih => exact fun hfits => ih ((fits_fault_iff.mp hfits _ hm).fits hf)

theorem FitsWhere.fits {clock : DateTime → Prop} (h : FitsWhere clock Γ s v)
    (hin : ¬ Overruns Γ s v) : Fits Γ s v := by
  induction h with
  | int h => exact .int h
  | localDateTime _ => exact .localDateTime (Bool.not_eq_false _ ▸ mt Overruns.localDateTime hin)
  | option _ ih => exact .option (ih (mt .option hin))
  | boxed _ ih => exact .boxed (ih (mt .boxed hin))
  | list _ ih => exact .list fun v hv => ih v hv (mt (.list hv) hin)
  | map _ ih => exact .map fun m hm => ih m hm (mt (.map hm) hin)
  | table _ ih => exact .table fun m hm => ih m hm (mt (.table hm) hin)
  | record hsome _ ih => exact .record hsome fun m hm f hf => ih m hm f hf (mt (.record hm hf) hin)
  | fault hsome _ ih => exact .fault hsome fun m hm f hf => ih m hm f hf (mt (.fault hm hf) hin)
  | empty h => exact .empty h
  | _ => constructor

/-- What fits is what would fit if local moments took every clock, and does not
overrun the calendar. -/
theorem fits_iff : Fits Γ s v ↔ FitsWhere (fun _ => True) Γ s v ∧ ¬ Overruns Γ s v :=
  ⟨fun h => ⟨h.imp fun _ _ => trivial, fun ho => ho.not_fits h⟩, fun h => h.1.fits h.2⟩

/-! ## How projections end -/

/-- Whether a misfit, or none, is an outcome for what fits if `fits` holds, and
a panic only if `overruns` does. -/
structure Judges (m : Option Misfit) (fits overruns : Prop) : Prop where
  eq_none_iff : m = none ↔ fits
  overruns : m = some .offCalendar → overruns

namespace Judges

variable {m n : Option Misfit} {fits fits' overruns overruns' : Prop}

theorem imp (h : Judges m fits overruns) (hfits : fits ↔ fits') (hover : overruns → overruns') :
    Judges m fits' overruns' :=
  ⟨h.eq_none_iff.trans hfits, fun hm => hover (h.overruns hm)⟩

theorem of_fits (h : fits) : Judges none fits overruns := ⟨iff_of_true rfl h, nofun⟩

theorem of_fault {e : Misfit} (he : e ≠ .offCalendar) (h : ¬ fits) :
    Judges (some e) fits overruns :=
  ⟨iff_of_false nofun h, fun hm => absurd (Option.some.inj hm) he⟩

theorem orElse (h : Judges m fits overruns) (h' : Judges n fits' overruns') :
    Judges (m <|> n) (fits ∧ fits') (overruns ∨ overruns') := by
  cases m with
  | none =>
      have hfits : fits := h.eq_none_iff.mp rfl
      exact h'.imp (and_iff_right hfits).symm .inr
  | some m =>
      refine ⟨iff_of_false nofun ?_, fun hm => .inl (h.overruns hm)⟩
      intro hboth
      cases h.eq_none_iff.mpr hboth.1

end Judges

/-- Whether projecting a value into slots of a shape ends in one way, whatever
they hold: it goes through exactly if the value fits, and panics only if the
value overruns the calendar. -/
def Decided (Γ : Schema) (s : Shape) (v : Value) (into : Native → Projection) : Prop :=
  ∃ m : Option Misfit, Judges m (Fits Γ s v) (Overruns Γ s v) ∧
    ∀ x, HasShape Γ s x → (into x).misfit = m

/-- Whether a shape takes values of a kind whole, if at all: neither through to
a slot inside, nor apart. -/
def Shape.TakesWhole (k : Kind) : Shape → Prop
  | .option _ | .boxed _ => False
  | .list _ => k ≠ .array
  | .map _ | .table _ | .record _ | .fault => k ≠ .struct
  | _ => True

theorem assignPlain_misfit_of_kind_ne {k : Kind} (hk : s.kind? = some k) (hv : v.kind ≠ k) :
    (assignPlain v s x).misfit = some (.mismatch s.name v.kind) := by
  cases s <;> cases hk <;> cases v <;> first | rfl | exact absurd rfl hv

theorem judges_assignPlain (hv : v.isEmpty = false) (hs : s.TakesWhole v.kind) :
    Judges (assignPlain v s x).misfit (Fits Γ s v) (Overruns Γ s v) := by
  by_cases hkind : ∃ k, s.kind? = some k ∧ v.kind ≠ k
  · obtain ⟨k, hk, hne⟩ := hkind
    rw [assignPlain_misfit_of_kind_ne hk hne]
    exact .of_fault nofun fun h => hne (h.kind_eq hv hk)
  · have hkind (k : Kind) (hk : s.kind? = some k) : v.kind = k :=
      not_not.mp fun hne => hkind ⟨k, hk, hne⟩
    cases s with
    | unit => exact .of_fits (.unit v)
    | value => exact .of_fits (.value v)
    | option | boxed => exact hs.elim
    | list | map | table | record | fault => exact absurd (hkind _ rfl) hs
    | int t =>
        cases v with
        | int i =>
            rw [assignPlain]
            split
            · rename_i h
              exact .of_fits (.int h)
            · rename_i h
              exact .of_fault nofun (mt fits_int_iff.mp h)
        | _ => cases hkind _ rfl
    | localDateTime =>
        cases v with
        | dateTime d =>
            rw [assignPlain]
            split
            · rename_i h
              exact .of_fits (.localDateTime h)
            · rename_i h
              exact ⟨iff_of_false nofun (mt fits_localDateTime_iff.mp h),
                fun _ => .localDateTime (Bool.eq_false_iff.mpr h)⟩
        | _ => cases hkind _ rfl
    | _ =>
        cases v <;> cases hkind _ rfl
        exact .of_fits (by constructor)

theorem assignPlain_misfit_congr (v : Value) (s : Shape) (x y : Native) :
    (assignPlain v s x).misfit = (assignPlain v s y).misfit := by
  unfold assignPlain
  split
  case h_4 => split <;> rfl
  case h_11 => split <;> rfl
  all_goals rfl

theorem decided_assignPlain (hv : v.isEmpty = false) (hs : s.TakesWhole v.kind) :
    Decided Γ s v (assignPlain v s) :=
  ⟨(assignPlain v s .unit).misfit, judges_assignPlain hv hs,
    fun x _ => assignPlain_misfit_congr v s x .unit⟩

/-- The misfit that has refused what was received. -/
def misfitOf {α : Type} : Except Misfit α → Option Misfit
  | .ok _ => none
  | .error m => some m

theorem misfitOf_receiveItems_cons (vs : List Value) :
    misfitOf (receiveItems Γ (v :: vs) s)
      = ((project Γ v s (Γ.default s)).misfit <|> misfitOf (receiveItems Γ vs s)) := by
  rw [receiveItems_cons]
  cases (project Γ v s (Γ.default s)).misfit with
  | some m => rfl
  | none => cases receiveItems Γ vs s <;> rfl

theorem misfitOf_receiveMembers_cons (name : String) (ms : List Member) :
    misfitOf (receiveMembers Γ (⟨name, v⟩ :: ms) s)
      = ((project Γ v s (Γ.default s)).misfit <|> misfitOf (receiveMembers Γ ms s)) := by
  rw [receiveMembers_cons]
  cases (project Γ v s (Γ.default s)).misfit with
  | some m => rfl
  | none => cases receiveMembers Γ ms s <;> rfl

/-- What is received as a whole or refused as a whole. -/
theorem decided_received {α : Type} {r : Except Misfit α} {into : Native → Projection}
    (hr : Judges (misfitOf r) (Fits Γ s v) (Overruns Γ s v))
    (hok : ∀ y, r = .ok y → ∀ x, (into x).misfit = none)
    (herror : ∀ m, r = .error m → ∀ x, (into x).misfit = some m) : Decided Γ s v into := by
  refine ⟨misfitOf r, hr, ?_⟩
  intro x _
  cases r with
  | ok y => exact hok y rfl x
  | error m => exact herror m rfl x

theorem decided_through (hg : Γ.Grounded) {core : Shape → Native → Projection}
    (h : ∀ s, (∀ t, s ≠ .option t) → (∀ t, s ≠ .boxed t) → Decided Γ s v (core s)) (s : Shape) :
    Decided Γ s v (through Γ core s) := by
  induction s with
  | option s ih =>
      obtain ⟨m, hfits, hm⟩ := ih
      refine ⟨m, hfits.imp fits_option_iff.symm .option, ?_⟩
      intro x hx
      cases hx with
      | absent => exact hm _ (hasShape_default hg s)
      | present hy => exact hm _ hy
  | boxed s ih =>
      obtain ⟨m, hfits, hm⟩ := ih
      refine ⟨m, hfits.imp fits_boxed_iff.symm .boxed, ?_⟩
      intro x hx
      cases hx with
      | boxed hy => exact hm _ hy
  | _ => exact h _ nofun nofun

theorem decided_project_of_assign
    (h : v.isEmpty = false → Decided Γ s v (assign Γ v s)) : Decided Γ s v (project Γ v s) := by
  cases hv : v.isEmpty with
  | true =>
      refine ⟨none, .of_fits (.empty hv), ?_⟩
      intro x _
      rw [project, if_pos hv]
      rfl
  | false =>
      obtain ⟨m, hfits, hm⟩ := h hv
      refine ⟨m, hfits, ?_⟩
      intro x hx
      rw [project, if_neg (Bool.eq_false_iff.mp hv)]
      exact hm x hx

theorem Decided.judges {into : Native → Projection} (h : Decided Γ s v into) {x : Native}
    (hx : HasShape Γ s x) : Judges (into x).misfit (Fits Γ s v) (Overruns Γ s v) := by
  obtain ⟨m, hjudges, hm⟩ := h
  rwa [hm x hx]

def DecidedMembers (Γ : Schema) (ms : List Member) (owner : String) (fs : List Field) : Prop :=
  ∃ m : Option Misfit,
    Judges m (∀ m ∈ ms, FitsField Γ fs m) (∃ m ∈ ms, OverrunsField Γ fs m) ∧
    ∀ xs, Fills Γ fs xs → (assignMembers Γ ms owner fs xs).2 = m

theorem decided_member (hg : Γ.Grounded) {name : String} {v : Value} {ms : List Member}
    {owner : String} {fs : List Field} (hv : ∀ s, Decided Γ s v (project Γ v s))
    (hms : DecidedMembers Γ ms owner fs) : DecidedMembers Γ (⟨name, v⟩ :: ms) owner fs := by
  cases hf : fieldNamed? fs name with
  | none =>
      refine ⟨some (.unknownField owner name), .of_fault nofun ?_, ?_⟩
      · intro h
        obtain ⟨f, hf', -⟩ := h _ List.mem_cons_self
        cases hf.symm.trans hf'
      · intro xs hxs
        rcases assignField_cases (project Γ v) name hxs with ⟨-, hnone⟩ | ⟨f, x, ys, hf', -⟩
        · rw [assignMembers_step, hnone]
        · cases hf.symm.trans hf'
  | some f =>
      obtain ⟨m, hjudges, hm⟩ := hv f.shape
      obtain ⟨n, hrest, hn⟩ := hms
      have hfield : Fits Γ f.shape v ↔ FitsField Γ fs ⟨name, v⟩ :=
        ⟨fun hfit => ⟨f, hf, hfit⟩, fun hfit => hfit.fits hf⟩
      refine ⟨m <|> n, (hjudges.orElse hrest).imp ?_ ?_, ?_⟩
      · rw [List.forall_mem_cons, hfield]
      · rintro (hover | ⟨m, hm, hover⟩)
        · exact ⟨_, List.mem_cons_self, f, hf, hover⟩
        · exact ⟨m, List.mem_cons_of_mem _ hm, hover⟩
      · intro xs hxs
        rcases assignField_cases (project Γ v) name hxs with
          ⟨hf', -⟩ | ⟨g, x, ys, hf', hx, hput, hys⟩
        · cases hf.symm.trans hf'
        · cases hf.symm.trans hf'
          have hfills := hys (hasShape_project hg v hx)
          rw [assignMembers_step, hput, hm x hx]
          cases m with
          | none => exact hn ys hfills
          | some m => rfl

mutual

theorem decided_assign (hg : Γ.Grounded) (v : Value) (hv : v.isEmpty = false) (s : Shape) :
    Decided Γ s v (assign Γ v s) := by
  cases v with
  | array items =>
      refine decided_through hg ?_ s
      intro s hoption hboxed
      cases s with
      | option s => exact absurd rfl (hoption s)
      | boxed s => exact absurd rfl (hboxed s)
      | list item =>
          have hitems := (judges_receiveItems hg items item).imp fits_list_iff.symm
            fun ⟨_, hv, hover⟩ => Overruns.list hv hover
          refine decided_received hitems ?_ ?_
          · intro ys hys x
            simp only [hys, Projection.done]
          · intro m hm x
            simp only [hm, Projection.refused]
      | map | table | record | fault =>
          exact decided_assignPlain hv (by nofun : Kind.array ≠ .struct)
      | _ => exact decided_assignPlain hv trivial
  | struct members =>
      refine decided_through hg ?_ s
      intro s hoption hboxed
      cases s with
      | option s => exact absurd rfl (hoption s)
      | boxed s => exact absurd rfl (hboxed s)
      | list item => exact decided_assignPlain hv (by nofun : Kind.struct ≠ .array)
      | map item =>
          have hmembers := (judges_receiveMembers hg members item).imp fits_map_iff.symm
            fun ⟨_, hm, hover⟩ => Overruns.map hm hover
          refine decided_received hmembers ?_ ?_
          · intro es hes x
            simp only [hes, Projection.done]
          · intro m hm x
            simp only [hm, Projection.refused]
      | table item =>
          have hmembers := (judges_receiveMembers hg members item).imp fits_table_iff.symm
            fun ⟨_, hm, hover⟩ => Overruns.table hm hover
          refine decided_received hmembers ?_ ?_
          · intro es hes x
            simp only [hes, Projection.done]
          · intro m hm x
            simp only [hm, Projection.refused]
      | record name =>
          obtain ⟨m, hjudges, hm⟩ := decided_assignMembers hg members name (Γ.fields name)
          refine ⟨m, hjudges.imp fits_record_iff.symm
            fun ⟨_, hm, _, hf, hover⟩ => .record hm hf hover, ?_⟩
          intro x hx
          cases hx with
          | record hnames hxs =>
              exact hm _ (hasShape_record_iff.mp (.record hnames hxs))
      | fault =>
          obtain ⟨m, hjudges, hm⟩ := decided_assignMembers hg members Shape.fault.name faultFields
          refine ⟨m, hjudges.imp fits_fault_iff.symm
            fun ⟨_, hm, _, hf, hover⟩ => .fault hm hf hover, ?_⟩
          intro x hx
          cases hx with
          | fault f => exact hm _ (fills_fieldsOf f)
      | _ => exact decided_assignPlain hv trivial
  | _ =>
      refine decided_through hg ?_ s
      intro s hoption hboxed
      cases s with
      | option s => exact absurd rfl (hoption s)
      | boxed s => exact absurd rfl (hboxed s)
      | list => exact decided_assignPlain hv (by nofun)
      | map | table | record | fault => exact decided_assignPlain hv (by nofun)
      | _ => exact decided_assignPlain hv trivial

theorem judges_receiveItems (hg : Γ.Grounded) (vs : List Value) (s : Shape) :
    Judges (misfitOf (receiveItems Γ vs s)) (∀ v ∈ vs, Fits Γ s v) (∃ v ∈ vs, Overruns Γ s v) := by
  cases vs with
  | nil => exact .of_fits nofun
  | cons v vs =>
      have hv := (decided_project_of_assign fun hv => decided_assign hg v hv s).judges
        (hasShape_default hg s)
      rw [misfitOf_receiveItems_cons]
      refine (hv.orElse (judges_receiveItems hg vs s)).imp ?_ ?_
      · rw [List.forall_mem_cons]
      · rw [List.exists_mem_cons_iff]
        exact id

theorem judges_receiveMembers (hg : Γ.Grounded) (ms : List Member) (s : Shape) :
    Judges (misfitOf (receiveMembers Γ ms s)) (∀ m ∈ ms, Fits Γ s m.value)
      (∃ m ∈ ms, Overruns Γ s m.value) := by
  cases ms with
  | nil => exact .of_fits nofun
  | cons m ms =>
      cases m with
      | mk name v =>
          have hv := (decided_project_of_assign fun hv => decided_assign hg v hv s).judges
            (hasShape_default hg s)
          rw [misfitOf_receiveMembers_cons]
          refine (hv.orElse (judges_receiveMembers hg ms s)).imp ?_ ?_
          · rw [List.forall_mem_cons]
          · rw [List.exists_mem_cons_iff]
            exact id

theorem decided_assignMembers (hg : Γ.Grounded) (ms : List Member) (owner : String)
    (fs : List Field) : DecidedMembers Γ ms owner fs := by
  cases ms with
  | nil => exact ⟨none, .of_fits nofun, fun xs _ => rfl⟩
  | cons m ms =>
      cases m with
      | mk name v =>
          exact decided_member hg
            (fun s => decided_project_of_assign fun hv => decided_assign hg v hv s)
            (decided_assignMembers hg ms owner fs)

end

theorem decided_project (hg : Γ.Grounded) (v : Value) (s : Shape) :
    Decided Γ s v (project Γ v s) :=
  decided_project_of_assign fun hv => decided_assign hg v hv s

theorem misfit_project_iff (hg : Γ.Grounded) (hx : HasShape Γ s x) :
    (project Γ v s x).misfit = none ↔ Fits Γ s v :=
  ((decided_project hg v s).judges hx).eq_none_iff

open Codec (projected)

theorem projected_eq_ok_iff {p : Projection} : (projected p).1 = .ok () ↔ p.misfit = none := by
  obtain ⟨x, m⟩ := p
  cases m <;> simp [projected]

/-- Records that hold another of their kind, or none. -/
def links : Schema :=
  [⟨"Link", [⟨"weight", .int .i32⟩, ⟨"next", .option (.boxed (.record "Link"))⟩]⟩]

theorem grounded_links : links.Grounded := ⟨by decide, trivial⟩

end Native

end XmlRpc
