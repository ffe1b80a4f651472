/-
# Records that are received member by member

A record takes a struct by taking its members, one after the other, each into
the first field that has its name:

    a field of that name     is projected into, and keeps what has got there
                             also if a misfit ends the projection
    no field of that name    is a misfit; the record stays as it is

The first misfit ends it, and the members before it have been received.  Members
of different names go into different fields, so their order does not count
(`record_filled`).  A fault is a record of two fields.
-/
import XmlRpc.Proofs.Native.Maps
import XmlRpc.Proofs.Native.RoundTrip

namespace XmlRpc

namespace Native

variable {Γ : Schema} {s : Shape} {x y : Native} {owner : String} {fs : List Field}
  {xs ys : List (String × Native)} {ms ns : List Member}

/-! ## Members -/

/-- Where the field is that a member goes into: the first that has its name. -/
def place? (fs : List Field) (name : String) : Option (Fin fs.length) :=
  fs.findFinIdx? (·.wire == name)

/-- Slots after a projection into that of a field, and the misfit that it met. -/
def intoSlot (into : Shape → Native → Projection) (xs : List (String × Native))
    (i : Fin fs.length) : List (String × Native) × Option Misfit :=
  (xs.modify i fun e => (e.1, (into fs[i].shape e.2).content),
    xs[i]?.bind fun e => (into fs[i].shape e.2).misfit)

/-- The slots of a record after a member, and the misfit that it met. -/
def receive (Γ : Schema) (owner : String) (fs : List Field) (xs : List (String × Native))
    (m : Member) : List (String × Native) × Option Misfit :=
  match place? fs m.name with
  | none => (xs, some (.unknownField owner m.name))
  | some i => intoSlot (project Γ m.value) xs i

/-- The slots of a record after one more member, unless a misfit has been met. -/
def receiveNext (Γ : Schema) (owner : String) (fs : List Field)
    (r : List (String × Native) × Option Misfit) (m : Member) :
    List (String × Native) × Option Misfit :=
  match r.2 with
  | none => receive Γ owner fs r.1 m
  | some _ => r

theorem receive_of_none {m : Member} (h : place? fs m.name = none)
    (xs : List (String × Native)) :
    receive Γ owner fs xs m = (xs, some (.unknownField owner m.name)) := by
  rw [receive, h]

theorem receive_of_some {m : Member} {i : Fin fs.length} (h : place? fs m.name = some i)
    (xs : List (String × Native)) :
    receive Γ owner fs xs m = intoSlot (project Γ m.value) xs i := by
  rw [receive, h]

theorem length_receive (xs : List (String × Native)) (m : Member) :
    (receive Γ owner fs xs m).1.length = xs.length := by
  rw [receive]
  split
  · rfl
  · exact List.length_modify _ _ _

theorem getElem?_receive (xs : List (String × Native)) (m : Member) (i : Fin fs.length) :
    (receive Γ owner fs xs m).1[i]?
      = if place? fs m.name = some i then
          xs[i]?.map fun e => (e.1, (project Γ m.value fs[i].shape e.2).content)
        else xs[i]? := by
  rw [receive]
  cases h : place? fs m.name with
  | none => exact (if_neg nofun).symm
  | some j =>
      dsimp only [intoSlot]
      rw [Fin.getElem?_fin, List.getElem?_modify]
      by_cases hij : j = i
      · subst hij
        simp
      · have hne : (j : Nat) ≠ i := Fin.val_ne_of_ne hij
        simp [hij, hne]

/-- The fields are gone through until one has the name. -/
theorem assignField_eq (into : Shape → Native → Projection) (name : String)
    (h : xs.length = fs.length) :
    assignField into name fs xs
      = (place? fs name).map (intoSlot into xs) := by
  induction fs generalizing xs with
  | nil =>
      cases xs with
      | nil => rfl
      | cons => cases h
  | cons f fs ih =>
      cases xs with
      | nil => cases h
      | cons e xs =>
          have hrest := ih (Nat.succ.inj h)
          rw [place?, List.findFinIdx?_cons]
          by_cases hname : f.wire = name
          · have hbeq : (f.wire == name) = true := beq_iff_eq.mpr hname
            rw [if_pos hbeq]
            exact if_pos hname
          · have hbeq : ¬ (f.wire == name) = true := mt beq_iff_eq.mp hname
            have hassign : assignField into name (f :: fs) (e :: xs)
                = (assignField into name fs xs).map fun q => (e :: q.1, q.2) := if_neg hname
            rw [if_neg hbeq, hassign, hrest, place?, Option.map_map, Option.map_map]
            rfl

/-! ## Runs of members -/

theorem foldl_receiveNext_of_some (r : List (String × Native) × Option Misfit) {e : Misfit}
    (h : r.2 = some e) : ms.foldl (receiveNext Γ owner fs) r = r := by
  induction ms with
  | nil => rfl
  | cons m ms ih =>
      have hstop : receiveNext Γ owner fs r m = r := by rw [receiveNext, h]
      rw [List.foldl_cons, hstop, ih]

theorem assignMembers_eq_foldl (ms : List Member) (owner : String) (h : xs.length = fs.length) :
    assignMembers Γ ms owner fs xs = ms.foldl (receiveNext Γ owner fs) (xs, none) := by
  induction ms generalizing xs with
  | nil => rfl
  | cons m ms ih =>
      obtain ⟨name, v⟩ := m
      have hlen : (receive Γ owner fs xs ⟨name, v⟩).1.length = xs.length := length_receive xs _
      rw [assignMembers_step, assignField_eq _ _ h, List.foldl_cons]
      show _ = ms.foldl (receiveNext Γ owner fs) (receive Γ owner fs xs ⟨name, v⟩)
      cases hplace : place? fs name with
      | none =>
          rw [receive_of_none hplace]
          exact (foldl_receiveNext_of_some _ rfl).symm
      | some i =>
          rw [receive_of_some hplace] at hlen ⊢
          rw [Option.map_some]
          cases hslot : intoSlot (project Γ v) xs i with
          | mk ys e =>
              dsimp only at hlen
              rw [hslot] at hlen
              cases e with
              | none => exact ih (hlen.trans h)
              | some e => exact (foldl_receiveNext_of_some _ rfl).symm

theorem length_foldl_receiveNext (ms : List Member)
    (r : List (String × Native) × Option Misfit) :
    (ms.foldl (receiveNext Γ owner fs) r).1.length = r.1.length := by
  induction ms generalizing r with
  | nil => rfl
  | cons m ms ih =>
      rw [List.foldl_cons, ih, receiveNext]
      split
      · exact length_receive r.1 m
      · rfl

theorem getElem?_foldl_receiveNext {i : Fin fs.length} (h : ∀ m ∈ ms, place? fs m.name ≠ some i)
    (r : List (String × Native) × Option Misfit) :
    (ms.foldl (receiveNext Γ owner fs) r).1[i]? = r.1[i]? := by
  induction ms generalizing r with
  | nil => rfl
  | cons m ms ih =>
      obtain ⟨hm, hms⟩ := List.forall_mem_cons.mp h
      rw [List.foldl_cons, ih hms, receiveNext]
      split
      · rw [getElem?_receive, if_neg hm]
      · rfl

/-- A run that ends with a misfit met it at one member, and nothing behind that
one counts. -/
theorem exists_foldl_receiveNext {r : List (String × Native) × Option Misfit} {e : Misfit}
    (hr : r.2 = none) (h : (ms.foldl (receiveNext Γ owner fs) r).2 = some e) :
    ∃ before m behind, ms = before ++ m :: behind ∧
      (before.foldl (receiveNext Γ owner fs) r).2 = none ∧
      ms.foldl (receiveNext Γ owner fs) r
        = receive Γ owner fs (before.foldl (receiveNext Γ owner fs) r).1 m := by
  induction ms generalizing r with
  | nil => cases hr.symm.trans h
  | cons m ms ih =>
      have hstep : receiveNext Γ owner fs r m = receive Γ owner fs r.1 m := by
        rw [receiveNext, hr]
      rw [List.foldl_cons, hstep] at h ⊢
      cases hm : (receive Γ owner fs r.1 m).2 with
      | none =>
          obtain ⟨before, n, behind, rfl, hbefore, hn⟩ := ih hm h
          refine ⟨m :: before, n, behind, rfl, ?_⟩
          rw [List.foldl_cons, hstep]
          exact ⟨hbefore, hn⟩
      | some e => exact ⟨[], m, ms, rfl, hr, foldl_receiveNext_of_some _ hm⟩

/-- Where no misfit ends the run, a slot is projected into by the members that
go there, one after the other. -/
theorem getElem?_foldl_of_misfit_eq_none (i : Fin fs.length)
    {r : List (String × Native) × Option Misfit}
    (h : (ms.foldl (receiveNext Γ owner fs) r).2 = none) :
    (ms.foldl (receiveNext Γ owner fs) r).1[i]?
      = (ms.filter fun m => place? fs m.name = some i).foldl
          (fun e? m => e?.map fun e => (e.1, (project Γ m.value fs[i].shape e.2).content))
          r.1[i]? := by
  induction ms generalizing r with
  | nil => rfl
  | cons m ms ih =>
      have hnone : r.2 = none := by
        cases hr : r.2 with
        | none => rfl
        | some e =>
            rw [foldl_receiveNext_of_some r hr] at h
            exact hr.symm.trans h
      have hstep : receiveNext Γ owner fs r m = receive Γ owner fs r.1 m := by
        rw [receiveNext, hnone]
      rw [List.foldl_cons, ih h, hstep, getElem?_receive, List.filter_cons]
      by_cases hm : place? fs m.name = some i
      · simp [hm]
      · simp [hm]

/-! ## Records -/

def Shape.fields? (Γ : Schema) : Shape → Option (List Field)
  | .record name => some (Γ.fields name)
  | .fault => some faultFields
  | _ => none

theorem fills_slots (hs : s.fields? Γ = some fs) (hx : HasShape Γ s x) :
    Fills Γ fs (fieldsOf x) := by
  cases hx with
  | record hnames hxs =>
      cases hs
      exact hasShape_record_iff.mp (.record hnames hxs)
  | fault f =>
      cases hs
      exact fills_fieldsOf f
  | _ => cases hs

theorem eq_of_fieldsOf (hs : s.fields? Γ = some fs) (hx : HasShape Γ s x) (hy : HasShape Γ s y)
    (h : fieldsOf x = fieldsOf y) : x = y := by
  cases hx with
  | record =>
      cases hy with
      | record => exact congrArg Native.record h
  | fault f =>
      cases hy with
      | fault g =>
          have hfault := congrArg faultOf h
          rw [faultOf_fieldsOf, faultOf_fieldsOf] at hfault
          rw [hfault]
  | _ => cases hs

theorem toInt_of_holds {i : Int} (h : IntType.i32.holds i = true) : (Int32.ofInt i).toInt = i := by
  obtain ⟨hl, hu⟩ := (Bool.and_eq_true _ _).mp h
  exact Int32.toInt_ofInt_of_le (of_decide_eq_true hl)
    (Int.lt_add_one_of_le (of_decide_eq_true hu))

theorem fieldsOf_faultOf (h : Fills Γ faultFields xs) : fieldsOf (.fault (faultOf xs)) = xs := by
  obtain ⟨⟨_, code⟩, rest, ⟨rfl, hcode⟩, hrest, rfl⟩ := List.forall₂_cons_left_iff.mp h
  obtain ⟨⟨_, message⟩, _, ⟨rfl, hmessage⟩, hnil, rfl⟩ := List.forall₂_cons_left_iff.mp hrest
  cases hnil
  cases hcode with
  | int hi =>
      cases hmessage with
      | string t =>
          show [(_, Native.int (Int32.ofInt _).toInt), _] = _
          rw [toInt_of_holds hi]
          rfl

/-- What a projection into a record leaves: the slots, and the misfit. -/
def outcome (p : Projection) : List (String × Native) × Option Misfit :=
  (fieldsOf p.content, p.misfit)

/-- Also the empty struct, which a record is left alone by, is received. -/
theorem outcome_project (hg : Γ.Grounded) (hs : s.fields? Γ = some fs) (hx : HasShape Γ s x)
    (ms : List Member) :
    outcome (project Γ (.struct ms) s x)
      = ms.foldl (receiveNext Γ s.name fs) (fieldsOf x, none) := by
  have hfills := fills_slots hs hx
  rw [← assignMembers_eq_foldl ms s.name hfills.length_eq.symm]
  cases ms with
  | nil => rfl
  | cons m ms =>
      cases s with
      | record name =>
          cases hs
          rfl
      | fault =>
          cases hs
          exact Prod.ext (fieldsOf_faultOf (fills_assignMembers hg _ _ hfills)) rfl
      | _ => cases hs

/-! ## Members in another order -/

theorem place?_eq_some_iff {name : String} {i : Fin fs.length} :
    place? fs name = some i ↔ name = fs[i].wire ∧ place? fs fs[i].wire = some i := by
  constructor
  · intro h
    have hwire : fs[i].wire = name := beq_iff_eq.mp (List.findFinIdx?_eq_some_iff.mp h).1
    exact ⟨hwire.symm, hwire ▸ h⟩
  · rintro ⟨rfl, h⟩
    exact h

theorem Rearranged.filter_place (h : Rearranged ms ns) (i : Fin fs.length) :
    (ms.filter fun m => place? fs m.name = some i)
      = ns.filter fun m => place? fs m.name = some i := by
  have hname (l : List Member) : (l.filter fun m => place? fs m.name = some i)
      = (l.filter (·.name == fs[i].wire)).filter fun _ => place? fs fs[i].wire = some i := by
    rw [List.filter_filter]
    refine List.filter_congr ?_
    intro m _
    rw [decide_eq_decide.mpr place?_eq_some_iff, Bool.decide_and, Bool.and_comm]
    rfl
  rw [hname, hname, h.order]

theorem fits_struct_iff (hs : s.fields? Γ = some fs) :
    Fits Γ s (.struct ms) ↔ ∀ m ∈ ms, FitsField Γ fs m := by
  cases s with
  | record name =>
      cases hs
      exact fits_record_iff
  | fault =>
      cases hs
      exact fits_fault_iff
  | _ => cases hs

theorem misfit_project_rearranged (hg : Γ.Grounded) (hs : s.fields? Γ = some fs)
    (hx : HasShape Γ s x) (h : Rearranged ms ns) :
    (project Γ (.struct ms) s x).misfit = none ↔ (project Γ (.struct ns) s x).misfit = none := by
  rw [misfit_project_iff hg hx, misfit_project_iff hg hx, fits_struct_iff hs, fits_struct_iff hs]
  exact forall_congr' fun m => imp_congr_left h.perm.mem_iff

/-- Each slot is projected into by the members of its field's name, and those come
in the same order. -/
theorem foldl_receiveNext_rearranged (h : Rearranged ms ns) (hlen : xs.length = fs.length)
    (hms : (ms.foldl (receiveNext Γ owner fs) (xs, none)).2 = none)
    (hns : (ns.foldl (receiveNext Γ owner fs) (xs, none)).2 = none) :
    ms.foldl (receiveNext Γ owner fs) (xs, none)
      = ns.foldl (receiveNext Γ owner fs) (xs, none) := by
  refine Prod.ext (List.ext_getElem? ?_) (hms.trans hns.symm)
  intro k
  by_cases hk : k < fs.length
  · have hm := getElem?_foldl_of_misfit_eq_none ⟨k, hk⟩ hms
    have hn := getElem?_foldl_of_misfit_eq_none ⟨k, hk⟩ hns
    rw [h.filter_place] at hm
    exact hm.trans hn.symm
  · have houtside (l : List Member) :
        (l.foldl (receiveNext Γ owner fs) (xs, none)).1[k]? = none := by
      rw [List.getElem?_eq_none_iff, length_foldl_receiveNext, hlen]
      exact Nat.le_of_not_lt hk
    rw [houtside, houtside]

theorem project_rearranged (hg : Γ.Grounded) (hs : s.fields? Γ = some fs) (hx : HasShape Γ s x)
    (h : Rearranged ms ns) (hms : (project Γ (.struct ms) s x).misfit = none) :
    project Γ (.struct ns) s x = project Γ (.struct ms) s x := by
  have hns := (misfit_project_rearranged hg hs hx h).mp hms
  have hrun (l : List Member) (hl : (project Γ (.struct l) s x).misfit = none) :
      (l.foldl (receiveNext Γ s.name fs) (fieldsOf x, none)).2 = none :=
    outcome_project hg hs hx l ▸ hl
  have hruns := foldl_receiveNext_rearranged h (fills_slots hs hx).length_eq.symm
    (hrun ms hms) (hrun ns hns)
  rw [← outcome_project hg hs hx, ← outcome_project hg hs hx] at hruns
  have hcontent := eq_of_fieldsOf hs (hasShape_project hg (.struct ns) hx)
    (hasShape_project hg (.struct ms) hx) (congrArg Prod.fst hruns.symm)
  exact congrArg₂ Projection.mk hcontent (hns.trans hms.symm)

/-- A struct goes into a record as its members do from left to right, each into
the first field of its name.  Fields that no member names keep what they hold.
Where a misfit ends it, the members in front of one have been received, and that
one has met the misfit.  Members of different names may come in any order. -/
theorem record_filled (hg : Γ.Grounded) (hs : s.fields? Γ = some fs) (hx : HasShape Γ s x)
    (ms : List Member) :
    let p := project Γ (.struct ms) s x
    outcome p = ms.foldl (receiveNext Γ s.name fs) (fieldsOf x, none) ∧
    (∀ i : Fin fs.length, (∀ m ∈ ms, place? fs m.name ≠ some i) →
      (fieldsOf p.content)[i]? = (fieldsOf x)[i]?) ∧
    (∀ e, p.misfit = some e → ∃ before m behind, ms = before ++ m :: behind ∧
      let q := project Γ (.struct before) s x
      q.misfit = none ∧ outcome p = receive Γ s.name fs (fieldsOf q.content) m) ∧
    ∀ ns, Rearranged ms ns →
      let q := project Γ (.struct ns) s x
      (p.misfit = none ↔ q.misfit = none) ∧ (p.misfit = none → q = p) := by
  intro p
  have hp : outcome p = ms.foldl (receiveNext Γ s.name fs) (fieldsOf x, none) :=
    outcome_project hg hs hx ms
  refine ⟨hp, ?_, ?_, ?_⟩
  · intro i hi
    have hkept : (ms.foldl (receiveNext Γ s.name fs) (fieldsOf x, none)).1[i]? = (fieldsOf x)[i]? :=
      getElem?_foldl_receiveNext hi _
    rwa [← hp] at hkept
  · intro e he
    have hrun : (ms.foldl (receiveNext Γ s.name fs) (fieldsOf x, none)).2 = some e := hp ▸ he
    obtain ⟨before, m, behind, rfl, hbefore, hm⟩ := exists_foldl_receiveNext rfl hrun
    rw [← outcome_project hg hs hx before] at hbefore hm
    exact ⟨before, m, behind, rfl, hbefore, hp.trans hm⟩
  · intro ns h
    exact ⟨misfit_project_rearranged hg hs hx h, project_rearranged hg hs hx h⟩

/-- Records two fields of which have one name, next to links. -/
def knots : Schema :=
  ⟨"Knot", [⟨"a", .option (.record "Link")⟩, ⟨"a", .int .i32⟩, ⟨"b", .list .string⟩]⟩ :: links

theorem grounded_knots : knots.Grounded := ⟨by decide, grounded_links⟩

/-- Two members of the name that two fields have, and one of another name: both go
into the first field, the link that they make grows with the second, and the
other member may come between them or in front.  A member without a field ends it,
and leaves all that in place. -/
theorem record_filled_knots :
    let link := fun (weight : Int) (next : Native) =>
      Native.record [("weight", .int weight), ("next", next)]
    let knot := fun (a : Native) (b : List Native) =>
      Native.record [("a", a), ("a", .int 9), ("b", .list b)]
    let held := knot .absent [.string "w"]
    let first : Member := ⟨"a", .struct [⟨"weight", .int 1⟩]⟩
    let second : Member := ⟨"a", .struct [⟨"next", .struct [⟨"weight", .int 2⟩]⟩]⟩
    let other : Member := ⟨"b", .array [.string "x"]⟩
    let into := fun ms => project knots (.struct ms) (.record "Knot") held
    let filled := knot (.present (link 1 (.present (.boxed (link 2 .absent)))))
      [.string "w", .string "x"]
    into [other, first, second] = .done filled ∧
      ∃ before m behind, [first, other, second, ⟨"c", .nil⟩] = before ++ m :: behind ∧
        (into before).misfit = none ∧
        (filled.fieldsOf, some (Misfit.unknownField "Knot" "c"))
          = receive knots "Knot" (knots.fields "Knot") (fieldsOf (into before).content) m := by
  intro link knot held first second other into filled
  have hheld : HasShape knots (.record "Knot") held := by
    refine hasShape_record_iff.mpr (.cons ⟨rfl, .absent _⟩ (.cons ⟨rfl, .int rfl⟩
      (.cons ⟨rfl, .list ?_⟩ .nil)))
    intro x hx
    cases List.mem_singleton.mp hx
    exact .string "w"
  have hdone : into [first, other, second] = .done filled := rfl
  obtain ⟨-, -, -, hother⟩ := record_filled grounded_knots rfl hheld [first, other, second]
  obtain ⟨-, -, hstop, -⟩ := record_filled grounded_knots rfl hheld
    [first, other, second, ⟨"c", .nil⟩]
  refine ⟨?_, hstop _ rfl⟩
  have hmoved : Rearranged [first, other, second] [other, first, second] :=
    rearranged_swap (by decide) [second]
  exact ((hother _ hmoved).2 (congrArg Projection.misfit hdone)).trans hdone

end Native

end XmlRpc
