/-
# Data that go back into their slots

The value of a datum fits the shape of the datum (`fits_toValue`), also where
it does not tell it from others: what an option around nothing, an empty list or
a number above the largest int is sent as fits every slot.  So a projection of
it into a default goes through, and leaves the datum there if it is told from
others (`projected_toValue`).
-/
import XmlRpc.Proofs.Native.Fits
import XmlRpc.Proofs.Native.RoundTrip

namespace XmlRpc

namespace Native

variable {Γ : Schema} {s : Shape} {x : Native}

/-! ## Numbers, items and members -/

theorem fits_intValue {t : IntType} {i : Int} (h : t.holds i = true) :
    Fits Γ (.int t) (intValue i) := by
  cases hi : Numeral.toInt64? i with
  | none =>
      rw [intValue, hi]
      exact .empty rfl
  | some n =>
      rw [Numeral.toInt64?] at hi
      split at hi
      · rename_i hrange
        obtain ⟨n, rfl, hn⟩ := intValue_eq hrange.1 hrange.2
        rw [hn]
        exact .int h
      · cases hi

theorem toItems_eq_map (xs : List Native) : toItems xs = xs.map toValue := by
  induction xs with
  | nil => rfl
  | cons x xs ih => rw [toItems, ih, List.map_cons]

theorem fieldMembers_eq_map (es : List (String × Native)) :
    fieldMembers es = es.map fun e => ⟨e.1, e.2.toValue⟩ := by
  induction es with
  | nil => rfl
  | cons e es ih => rw [fieldMembers, ih, List.map_cons]

theorem fieldNamed?_of_mem {fs : List Field} (hd : (fs.map (·.wire)).Nodup) {f : Field}
    (hf : f ∈ fs) : fieldNamed? fs f.wire = some f := by
  induction fs with
  | nil => cases hf
  | cons g fs ih =>
      obtain ⟨hg, hd⟩ := List.nodup_cons.mp hd
      rcases List.mem_cons.mp hf with rfl | hf
      · exact List.find?_cons_of_pos (by simp)
      · have hne : g.wire ≠ f.wire := fun h => hg (List.mem_map.mpr ⟨f, hf, h.symm⟩)
        rw [fieldNamed?, List.find?_cons_of_neg (by simpa using hne)]
        exact ih hd hf

theorem name_of_zip {fs : List Field} {xs : List (String × Native)}
    (hnames : xs.map (·.1) = fs.map (·.wire)) {p : Field × String × Native}
    (hp : p ∈ fs.zip xs) : p.2.1 = p.1.wire := by
  rw [← List.forall₂_eq_eq_eq, List.forall₂_map_left_iff, List.forall₂_map_right_iff] at hnames
  exact (List.forall₂_iff_zip.mp hnames.flip).2 hp

theorem fitsField_fieldMembers {fs : List Field} {xs : List (String × Native)}
    (hd : (fs.map (·.wire)).Nodup) (hnames : xs.map (·.1) = fs.map (·.wire))
    (h : ∀ p ∈ fs.zip xs, Fits Γ p.1.shape p.2.2.toValue) :
    ∀ m ∈ fieldMembers xs, FitsField Γ fs m := by
  intro m hm
  rw [fieldMembers_eq_map] at hm
  obtain ⟨e, he, rfl⟩ := List.mem_map.mp hm
  obtain ⟨f, hzip⟩ := exists_field hnames he
  have hname : e.1 = f.wire := name_of_zip hnames hzip
  have hfield := fieldNamed?_of_mem hd (List.of_mem_zip hzip).1
  exact ⟨f, hname ▸ hfield, h (f, e) hzip⟩

theorem fits_fieldMembers {es : List (String × Native)} (h : ∀ e ∈ es, Fits Γ s e.2.toValue) :
    ∀ m ∈ fieldMembers es, Fits Γ s m.value := by
  intro m hm
  rw [fieldMembers_eq_map] at hm
  obtain ⟨e, he, rfl⟩ := List.mem_map.mp hm
  exact h e he

/-! ## All data -/

theorem fits_fault (f : Fault) : Fits Γ .fault f.toValue := by
  rw [toValue_fault, fits_fault_iff]
  refine fitsField_fieldMembers (by decide) rfl ?_
  intro p hp
  rcases List.mem_cons.mp hp with rfl | hp
  · exact fits_intValue (holds_code f)
  · cases List.mem_singleton.mp hp
    exact .string f.message

theorem fits_toValue (hd : Γ.Distinct) (hx : HasShape Γ s x) : Fits Γ s x.toValue := by
  induction hx with
  | unit => exact .unit _
  | bool b => exact .bool b
  | int h => exact fits_intValue h
  | single x => exact .single _
  | double x => exact .double _
  | string s => exact .string s
  | bytes o => exact .bytes o
  | dateTime d => exact .dateTime d
  | utcDateTime => exact .utcDateTime _
  | localDateTime _ hc => exact .localDateTime hc
  | value v => exact .value v
  | fault f => exact fits_fault f
  | absent s => exact .empty rfl
  | present _ ih => exact .option ih
  | boxed _ ih => exact .boxed ih
  | list _ ih =>
      refine .list ?_
      intro v hv
      rw [toItems_eq_map] at hv
      obtain ⟨x, hx, rfl⟩ := List.mem_map.mp hv
      exact ih x hx
  | map _ _ ih =>
      rw [toValue, entryMembers_text]
      exact .map (fits_fieldMembers ih)
  | table _ _ ih => exact .table (fits_fieldMembers ih)
  | record hnames _ ih => exact fits_record_iff.mpr (fitsField_fieldMembers (hd _) hnames ih)

open Codec (projected)

/-- The value of a datum goes into the default of its shape, and leaves the datum
there if no part of it is sent as another's value. -/
theorem projected_toValue (hg : Γ.Grounded) (hd : Γ.Distinct) (hx : HasShape Γ s x) :
    (projected (project Γ x.toValue s (Γ.default s))).1 = .ok () ∧
      (x.Every Lossless → (projected (project Γ x.toValue s (Γ.default s))).2 = x) := by
  refine ⟨?_, ?_⟩
  · rw [projected_eq_ok_iff, misfit_project_iff hg (hasShape_default hg s)]
    exact fits_toValue hd hx
  · intro hl
    rw [project_toValue hg hd hx hl]
    rfl

theorem distinct_links : links.Distinct := by
  intro name
  rw [links, Schema.fields_cons]
  split
  · decide
  · exact List.nodup_nil

/-- Two links, one behind the other. -/
theorem projected_toValue_links :
    let last : Native := .record [("weight", .int (-1)), ("next", .absent)]
    let x : Native := .record [("weight", .int 7), ("next", .present (.boxed last))]
    (projected (project links x.toValue (.record "Link") (links.default (.record "Link")))).2
      = x := by
  intro last x
  have hlast : HasShape links (.record "Link") last :=
    hasShape_record_iff.mpr (.cons ⟨rfl, .int rfl⟩ (.cons ⟨rfl, .absent _⟩ .nil))
  have hx : HasShape links (.record "Link") x :=
    hasShape_record_iff.mpr
      (.cons ⟨rfl, .int rfl⟩ (.cons ⟨rfl, .present (.boxed hlast)⟩ .nil))
  have hweight {i : Int} (hi : i ≤ 9223372036854775807) : (Native.int i).Every Lossless := by
    rintro y ⟨⟩
    exact hi
  have hnone : Native.absent.Every Lossless := by
    rintro y ⟨⟩
    trivial
  have hlink {w next : Native} (hw : w.Every Lossless) (hnext : next.Every Lossless) :
      (Native.record [("weight", w), ("next", next)]).Every Lossless := by
    intro y hy
    cases hy with
    | self => trivial
    | field he hy =>
        rcases List.mem_cons.mp he with rfl | he
        · exact hw y hy
        · cases List.mem_singleton.mp he
          exact hnext y hy
  refine (projected_toValue grounded_links distinct_links hx).2 (hlink (hweight (by decide)) ?_)
  intro y hy
  cases hy with
  | self => rfl
  | present hy =>
      cases hy with
      | self => trivial
      | boxed hy => exact hlink (hweight (by decide)) hnone y hy

end Native

end XmlRpc
