/-
# Lists that grow

A list takes an array by growing at its end.  What an item adds does not depend
on the list: it is the item alone, projected into a default of its own, which an
empty item leaves as it is.

    every item goes into its default     the list grows by one for each, in order
    one of them does not                 the list is left as it was

So two arrays, one after the other, do what both do in one, and several
parameters do what an array of them does (`list_grows`).
-/
import XmlRpc.Proofs.Native.Slots

namespace XmlRpc

namespace Native

variable {Γ : Schema} {s : Shape}

/-! ## Values alone -/

/-- What a value leaves in a default. -/
def alone (Γ : Schema) (s : Shape) (v : Value) : Native := (project Γ v s (Γ.default s)).content

theorem alone_of_isEmpty {v : Value} (h : v.isEmpty = true) : alone Γ s v = Γ.default s := by
  rw [alone, project, if_pos h]
  rfl

theorem project_default_eq_done {v : Value} {y : Native} :
    project Γ v s (Γ.default s) = .done y ↔
      (project Γ v s (Γ.default s)).misfit = none ∧ y = alone Γ s v := by
  rw [alone]
  obtain ⟨x, m⟩ := project Γ v s (Γ.default s)
  simp [Projection.done, and_comm, eq_comm]

/-! ## Items -/

/-- Whether each item goes into a default. -/
def AllTaken (Γ : Schema) (s : Shape) (vs : List Value) : Prop :=
  ∀ v ∈ vs, (project Γ v s (Γ.default s)).misfit = none

theorem allTaken_append {vs ws : List Value} :
    AllTaken Γ s (vs ++ ws) ↔ AllTaken Γ s vs ∧ AllTaken Γ s ws := List.forall_mem_append

theorem receiveItems_eq_ok {vs : List Value} {ys : List Native} :
    receiveItems Γ vs s = .ok ys ↔ AllTaken Γ s vs ∧ ys = vs.map (alone Γ s) := by
  induction vs generalizing ys with
  | nil =>
      show Except.ok [] = Except.ok ys ↔ _
      simp [AllTaken, eq_comm]
  | cons v vs ih =>
      rw [receiveItems_cons_eq_ok, AllTaken, List.forall_mem_cons, List.map_cons]
      constructor
      · rintro ⟨y, zs, hy, hzs, rfl⟩
        obtain ⟨hv, rfl⟩ := project_default_eq_done.mp hy
        obtain ⟨hvs, rfl⟩ := ih.mp hzs
        exact ⟨⟨hv, hvs⟩, rfl⟩
      · rintro ⟨⟨hv, hvs⟩, rfl⟩
        exact ⟨_, _, project_default_eq_done.mpr ⟨hv, rfl⟩, ih.mpr ⟨hvs, rfl⟩, rfl⟩

/-! ## Arrays -/

/-- Also the empty array, which a list is left alone by, adds its items. -/
theorem project_array (vs : List Value) (xs : List Native) :
    project Γ (.array vs) (.list s) (.list xs)
      = match receiveItems Γ vs s with
        | .ok ys => .done (.list (xs ++ ys))
        | .error m => .refused (.list xs) m := by
  cases vs with
  | nil =>
      show Projection.done (.list xs) = .done (.list (xs ++ []))
      rw [List.append_nil]
  | cons v vs => rfl

/-- What is received as a whole is taken, and what is refused as a whole leaves
all as it was. -/
theorem received_cases {α : Type} {taken : Prop} {r : Except Misfit α} {y : α}
    {p : Projection} {x : Native} (after : α → Native) (hr : ∀ z, r = .ok z ↔ taken ∧ z = y)
    (hok : ∀ z, r = .ok z → p = .done (after z))
    (herror : ∀ m, r = .error m → p = .refused x m) :
    (taken ∧ p = .done (after y)) ∨ (¬ taken ∧ ∃ m, p = .refused x m) := by
  cases r with
  | ok z =>
      obtain ⟨ht, rfl⟩ := (hr z).mp rfl
      exact .inl ⟨ht, hok z rfl⟩
  | error m =>
      refine .inr ⟨?_, m, herror m rfl⟩
      intro ht
      cases (hr y).mpr ⟨ht, rfl⟩

theorem project_array_cases (vs : List Value) (xs : List Native) :
    (AllTaken Γ s vs ∧
      project Γ (.array vs) (.list s) (.list xs) = .done (.list (xs ++ vs.map (alone Γ s)))) ∨
    (¬ AllTaken Γ s vs ∧
      ∃ m, project Γ (.array vs) (.list s) (.list xs) = .refused (.list xs) m) := by
  refine received_cases (fun ys => .list (xs ++ ys)) (fun _ => receiveItems_eq_ok) ?_ ?_
  · intro ys h
    rw [project_array, h]
  · intro m h
    rw [project_array, h]

theorem misfit_project_array {vs : List Value} {xs : List Native} :
    (project Γ (.array vs) (.list s) (.list xs)).misfit = none ↔ AllTaken Γ s vs := by
  rcases project_array_cases vs xs with ⟨hvs, h⟩ | ⟨hvs, m, h⟩
  · rw [h]
    exact iff_of_true rfl hvs
  · rw [h]
    exact iff_of_false nofun hvs

theorem project_array_of_allTaken {vs : List Value} (h : AllTaken Γ s vs) (xs : List Native) :
    project Γ (.array vs) (.list s) (.list xs) = .done (.list (xs ++ vs.map (alone Γ s))) :=
  (project_array_cases vs xs).elim And.right fun hvs => absurd h hvs.1

/-- Two arrays go into a list one after the other if both go into it in one, and
then either way it grows by what each item is alone, in order.  Several
parameters go in as one array, and no parameters change nothing. -/
theorem list_grows (Γ : Schema) (s : Shape) (xs : List Native) :
    (∀ vs ws : List Value,
      let p := project Γ (.array vs) (.list s) (.list xs)
      let q := project Γ (.array ws) (.list s) p.content
      let both := project Γ (.array (vs ++ ws)) (.list s) (.list xs)
      (p.misfit = none ∧ q.misfit = none ↔ both.misfit = none) ∧
      (both.misfit = none →
        both.content = .list (xs ++ (vs ++ ws).map (alone Γ s)) ∧ q.content = both.content ∧
        ∀ v ∈ vs ++ ws, project Γ v s (Γ.default s) = .done (alone Γ s v))) ∧
    (∀ v : Value, v.isEmpty = true → alone Γ s v = Γ.default s) ∧
    Params.project Γ [] (.list s) (.list xs) = .done (.list xs) ∧
    ∀ params : Params, 2 ≤ params.length →
      (AllTaken Γ s params ∧ params.project Γ (.list s) (.list xs)
        = .done (.list (xs ++ params.map (alone Γ s)))) ∨
      (¬ AllTaken Γ s params ∧
        ∃ m, params.project Γ (.list s) (.list xs) = .refused (.list xs) m) := by
  refine ⟨?_, fun v => alone_of_isEmpty, rfl, ?_⟩
  · intro vs ws p q both
    have hboth : both.misfit = none ↔ AllTaken Γ s (vs ++ ws) := misfit_project_array
    have hp : p.misfit = none ↔ AllTaken Γ s vs := misfit_project_array
    -- what the second array meets is the list that the first has left
    have hq (hvs : AllTaken Γ s vs) :
        q = project Γ (.array ws) (.list s) (.list (xs ++ vs.map (alone Γ s))) :=
      congrArg (fun r : Projection => project Γ (.array ws) (.list s) r.content)
        (project_array_of_allTaken hvs xs)
    rw [hp, hboth, allTaken_append]
    refine ⟨?_, ?_⟩
    · refine and_congr_right fun hvs => ?_
      rw [hq hvs]
      exact misfit_project_array
    · rintro ⟨hvs, hws⟩
      have hall := allTaken_append.mpr ⟨hvs, hws⟩
      have hgrown : both.content = .list (xs ++ (vs ++ ws).map (alone Γ s)) :=
        congrArg Projection.content (project_array_of_allTaken hall xs)
      refine ⟨hgrown, ?_, fun v hv => project_default_eq_done.mpr ⟨hall v hv, rfl⟩⟩
      rw [hgrown, hq hvs, project_array_of_allTaken hws, List.append_assoc, List.map_append]
      rfl
  · intro params hlen
    match params, hlen with
    | v :: w :: vs, _ => exact project_array_cases (v :: w :: vs) xs

example : project [] (.array [.int 1, .nil]) (.list (.int .i32)) (.list [.int 7])
    = .done (.list [.int 7, .int 1, .int 0]) := rfl

end Native

end XmlRpc
