/-
# Maps that are written over

A map takes a struct by taking its members, one after the other.  What a member
puts into the map does not depend on what stands there: it is the value of the
member alone, projected into a default of its own.

    a name of some member    holds the value of its last member, alone
    any other name           holds what it held

The order of members only counts among those of one name, and a table holds
under each name what a map does (`map_overwritten`).
-/
import Mathlib.Data.List.Induction
import Mathlib.Data.List.Nodup
import XmlRpc.Proofs.Native.Fits
import XmlRpc.Proofs.Native.Lists

namespace XmlRpc

namespace Native

variable {Γ : Schema} {s : Shape} {x y : Native}

/-! ## Members by name -/

/-- Whether members come in another order, but those of one name in the same. -/
structure Rearranged (ms ns : List Member) : Prop where
  perm : ms.Perm ns
  order : ∀ name, ms.filter (·.name == name) = ns.filter (·.name == name)

theorem rearranged_swap {m n : Member} (h : m.name ≠ n.name) (ms : List Member) :
    Rearranged (m :: n :: ms) (n :: m :: ms) := by
  refine ⟨.swap n m ms, ?_⟩
  intro name
  by_cases hm : m.name = name
  · have hn : n.name ≠ name := fun hn => h (hm.trans hn.symm)
    simp [hm, hn]
  · simp [List.filter_cons, hm]

def lastNamed? (ms : List Member) (name : String) : Option Member :=
  (ms.filter (·.name == name)).getLast?

/-! ## Entries by name -/

/-- What a map or a table holds under a name. -/
def under? (name : String) : Native → Option Native
  | .map es => es.lookup (.text name)
  | .table es => es.lookup name
  | _ => none

/-- Whether two maps or tables hold the same under each name. -/
def SameEntries (x y : Native) : Prop := ∀ name, x.under? name = y.under? name

def ofTexts (es : List (String × Native)) : Native := .map (es.map fun e => (.text e.1, e.2))

theorem under?_ofTexts (name : String) (es : List (String × Native)) :
    (ofTexts es).under? name = es.lookup name := by
  show (es.map fun e => (Key.text e.1, e.2)).lookup (.text name) = _
  induction es with
  | nil => rfl
  | cons e es ih =>
      have hkey : (Key.text name == Key.text e.1) = (name == e.1) := by simp
      rw [List.map_cons, List.lookup_cons, List.lookup_cons, hkey, ih]

section Lookup

variable {α : Type}

theorem lookup_insertSorted (name other : String) (x : α) (es : List (String × α)) :
    (insertSorted textLt name x es).lookup other
      = if name = other then some x else es.lookup other := by
  induction es with
  | nil => grind [insertSorted]
  | cons e es ih =>
      rw [insertSorted]
      split
      · grind
      · split
        · grind [textLt]
        · -- neither comes before the other, so they are the same text
          grind [textLt]

theorem lookup_insertNamed (name other : String) (x : α) (es : List (String × α)) :
    (insertNamed name x es).lookup other = if name = other then some x else es.lookup other := by
  induction es with
  | nil => grind [insertNamed]
  | cons e es ih =>
      rw [insertNamed]
      split <;> grind

/-- Whatever is written under its name one after the other, the last counts. -/
theorem lookup_foldl {insert : String → α → List (String × α) → List (String × α)}
    (h : ∀ name other x es, (insert name x es).lookup other
      = if name = other then some x else es.lookup other)
    (name : String) (ds es : List (String × α)) :
    (ds.foldl (fun acc d => insert d.1 d.2 acc) es).lookup name
      = ((ds.filter (·.1 == name)).getLast?.map (·.2)).or (es.lookup name) := by
  induction ds using List.reverseRecOn with
  | nil => rfl
  | append_singleton ds d ih =>
      rw [List.foldl_concat, h, List.filter_append, ih]
      by_cases hd : d.1 = name <;> simp [hd]

theorem lookup_eq_some_iff_mem {es : List (String × α)} (h : (es.map (·.1)).Nodup)
    {e : String × α} : es.lookup e.1 = some e.2 ↔ e ∈ es := by
  induction es with
  | nil => simp
  | cons d es ih =>
      obtain ⟨hd, hes⟩ := List.nodup_cons.mp h
      rw [List.lookup_cons]
      by_cases heq : e.1 = d.1
      · have hnot : e ∉ es := fun he => hd (List.mem_map.mpr ⟨e, he, heq⟩)
        simp [heq, hnot, Prod.ext_iff, eq_comm]
      · have hne : (e.1 == d.1) = false := beq_eq_false_iff_ne.mpr heq
        rw [hne, List.mem_cons, ← ih hes]
        exact (or_iff_right fun h => heq (congrArg Prod.fst h)).symm

theorem eq_of_lookup {ds es : List (String × α)} (hds : ds.Pairwise fun a b => a.1 < b.1)
    (hes : es.Pairwise fun a b => a.1 < b.1) (h : ∀ name, ds.lookup name = es.lookup name) :
    ds = es := by
  have hnames {l : List (String × α)} (hl : l.Pairwise fun a b => a.1 < b.1) :
      (l.map (·.1)).Nodup := List.pairwise_map.mpr (hl.imp ne_of_lt)
  refine List.Perm.eq_of_pairwise ?_ hds hes ?_
  · intro a b _ _ hab hba
    exact absurd hab (lt_asymm hba)
  · refine (List.perm_ext_iff_of_nodup ((hnames hds).of_map _) ((hnames hes).of_map _)).mpr ?_
    intro e
    rw [← lookup_eq_some_iff_mem (hnames hds), ← lookup_eq_some_iff_mem (hnames hes), h]

end Lookup

theorem exists_ofTexts (hx : HasShape Γ (.map s) x) :
    ∃ es, x = ofTexts es ∧ es.Pairwise fun a b => a.1 < b.1 := by
  cases hx with
  | @map _ es hes _ => exact ⟨es, rfl, hes⟩

theorem SameEntries.eq (h : SameEntries x y) (hx : HasShape Γ (.map s) x)
    (hy : HasShape Γ (.map s) y) : x = y := by
  obtain ⟨ds, rfl, hds⟩ := exists_ofTexts hx
  obtain ⟨es, rfl, hes⟩ := exists_ofTexts hy
  refine congrArg ofTexts (eq_of_lookup hds hes ?_)
  intro name
  rw [← under?_ofTexts, ← under?_ofTexts]
  exact h name

/-! ## Structs -/

/-- The shape of what a map or a table holds. -/
def Shape.held? : Shape → Option Shape
  | .map s | .table s => some s
  | _ => none

/-- A map or a table into which entries have been written, one after the
other. -/
def written (ds : List (String × Native)) : Native → Native
  | .map es => .map (ds.foldl (fun acc d => insertSorted Key.lt (.text d.1) d.2 acc) es)
  | .table es => .table (ds.foldl (fun acc d => insertNamed d.1 d.2 acc) es)
  | x => x

theorem written_append (ds es : List (String × Native)) (x : Native) :
    x.written (ds ++ es) = (x.written ds).written es := by
  cases x <;> simp only [written, List.foldl_append]

theorem written_ofTexts (ds es : List (String × Native)) :
    (ofTexts es).written ds
      = ofTexts (ds.foldl (fun acc d => insertSorted textLt d.1 d.2 acc) es) := by
  let keyed : List (String × Native) → List (Key × Native) := List.map fun e => (.text e.1, e.2)
  refine congrArg Native.map (List.foldl_hom keyed ?_)
  intro acc d
  exact insertSorted_text d.1 d.2 acc

theorem under?_written {t : Shape} (ht : t.held? = some s) (hx : HasShape Γ t x)
    (ds : List (String × Native)) (name : String) :
    (x.written ds).under? name
      = ((ds.filter (·.1 == name)).getLast?.map (·.2)).or (x.under? name) := by
  cases hx with
  | @map _ es =>
      change ((ofTexts es).written ds).under? name = Option.or _ ((ofTexts es).under? name)
      rw [written_ofTexts, under?_ofTexts, under?_ofTexts]
      exact lookup_foldl lookup_insertSorted name ds es
  | @table _ es => exact lookup_foldl lookup_insertNamed name ds es
  | _ => cases ht

/-- The entries that members become. -/
def entriesAlone (Γ : Schema) (s : Shape) (ms : List Member) : List (String × Native) :=
  ms.map fun m => (m.name, alone Γ s m.value)

theorem receiveMembers_eq_ok {ms : List Member} {es : List (String × Native)} :
    receiveMembers Γ ms s = .ok es ↔
      AllTaken Γ s (ms.map (·.value)) ∧ es = entriesAlone Γ s ms := by
  induction ms generalizing es with
  | nil =>
      show Except.ok [] = Except.ok es ↔ _
      simp [AllTaken, entriesAlone, eq_comm]
  | cons m ms ih =>
      obtain ⟨name, v⟩ := m
      rw [receiveMembers_cons_eq_ok, AllTaken, List.map_cons, List.forall_mem_cons]
      constructor
      · rintro ⟨y, ds, hy, hds, rfl⟩
        obtain ⟨hv, rfl⟩ := project_default_eq_done.mp hy
        obtain ⟨hms, rfl⟩ := ih.mp hds
        exact ⟨⟨hv, hms⟩, rfl⟩
      · rintro ⟨⟨hv, hms⟩, rfl⟩
        exact ⟨_, _, project_default_eq_done.mpr ⟨hv, rfl⟩, ih.mpr ⟨hms, rfl⟩, rfl⟩

/-- Also the empty struct, which a map is left alone by, writes its members. -/
theorem project_struct {t : Shape} (ht : t.held? = some s) (hx : HasShape Γ t x)
    (ms : List Member) :
    project Γ (.struct ms) t x
      = match receiveMembers Γ ms s with
        | .ok ds => .done (x.written ds)
        | .error m => .refused x m := by
  cases hx with
  | map | table =>
      cases ht
      cases ms <;> rfl
  | _ => cases ht

theorem project_struct_cases {t : Shape} (ht : t.held? = some s) (hx : HasShape Γ t x)
    (ms : List Member) :
    (AllTaken Γ s (ms.map (·.value)) ∧
      project Γ (.struct ms) t x = .done (x.written (entriesAlone Γ s ms))) ∨
    (¬ AllTaken Γ s (ms.map (·.value)) ∧ ∃ m, project Γ (.struct ms) t x = .refused x m) := by
  refine received_cases (fun ds => x.written ds) (fun _ => receiveMembers_eq_ok) ?_ ?_
  · intro ds h
    rw [project_struct ht hx, h]
  · intro m h
    rw [project_struct ht hx, h]

theorem project_struct_of_allTaken {t : Shape} (ht : t.held? = some s) (hx : HasShape Γ t x)
    {ms : List Member} (h : AllTaken Γ s (ms.map (·.value))) :
    project Γ (.struct ms) t x = .done (x.written (entriesAlone Γ s ms)) :=
  (project_struct_cases ht hx ms).elim And.right fun hms => absurd h hms.1

theorem under?_entriesAlone {t : Shape} (ht : t.held? = some s) (hx : HasShape Γ t x)
    (ms : List Member) (name : String) :
    (x.written (entriesAlone Γ s ms)).under? name
      = ((lastNamed? ms name).map fun m => alone Γ s m.value).or (x.under? name) := by
  rw [under?_written ht hx, entriesAlone, List.filter_map, List.getLast?_map, Option.map_map]
  rfl

theorem content_project_of_kind_ne {t : Shape} {v : Value} (ht : t.held? = some s)
    (hv : v.kind ≠ .struct) : (project Γ v t x).content = x := by
  cases t with
  | map | table =>
      cases v with
      | array items => cases items <;> rfl
      | struct ms => exact absurd rfl hv
      | _ => rfl
  | _ => cases ht

theorem fits_map_iff_table {v : Value} : Fits Γ (.map s) v ↔ Fits Γ (.table s) v := by
  constructor
  · intro h
    cases h with
    | empty h => exact .empty h
    | map h => exact .table h
  · intro h
    cases h with
    | empty h => exact .empty h
    | table h => exact .map h

/-- A table that holds what a map holds takes and refuses what the map does, and
holds the same afterwards. -/
theorem SameEntries.project (hg : Γ.Grounded) (hx : HasShape Γ (.map s) x)
    (hy : HasShape Γ (.table s) y) (h : SameEntries x y) (v : Value) :
    ((project Γ v (.map s) x).misfit = none ↔ (project Γ v (.table s) y).misfit = none) ∧
      SameEntries (project Γ v (.map s) x).content (project Γ v (.table s) y).content := by
  refine ⟨?_, ?_⟩
  · rw [misfit_project_iff hg hx, misfit_project_iff hg hy]
    exact fits_map_iff_table
  · by_cases hv : v.kind = .struct
    · cases v with
      | struct ms =>
          rcases project_struct_cases rfl hx ms with ⟨hms, hp⟩ | ⟨hms, m, hp⟩
          · rw [hp, project_struct_of_allTaken rfl hy hms]
            intro name
            show (x.written _).under? name = (y.written _).under? name
            rw [under?_entriesAlone rfl hx, under?_entriesAlone rfl hy, h name]
          · rcases project_struct_cases rfl hy ms with ⟨hms', -⟩ | ⟨-, m', hq⟩
            · exact absurd hms' hms
            · rw [hp, hq]
              exact h
      | _ => cases hv
    · rw [content_project_of_kind_ne rfl hv, content_project_of_kind_ne rfl hv]
      exact h

theorem project_struct_append (hg : Γ.Grounded) (hx : HasShape Γ (.map s) x) {ms ns : List Member}
    (h : AllTaken Γ s ((ms ++ ns).map (·.value))) :
    let q := project Γ (.struct ms) (.map s) x
    q.misfit = none ∧
      project Γ (.struct ns) (.map s) q.content = project Γ (.struct (ms ++ ns)) (.map s) x := by
  intro q
  have hparts := h
  rw [List.map_append, allTaken_append] at hparts
  obtain ⟨hms, hns⟩ := hparts
  have hq : q = .done (x.written (entriesAlone Γ s ms)) := project_struct_of_allTaken rfl hx hms
  have hcontent : HasShape Γ (.map s) q.content := hasShape_project hg _ hx
  rw [project_struct_of_allTaken rfl hcontent hns, project_struct_of_allTaken rfl hx h, hq,
    entriesAlone, entriesAlone, entriesAlone, List.map_append, written_append]
  exact ⟨rfl, rfl⟩

/-- Members that pass each other only if their names differ write the same. -/
theorem project_struct_rearranged (hg : Γ.Grounded) (hx : HasShape Γ (.map s) x)
    {ms ns : List Member} (hms : AllTaken Γ s (ms.map (·.value))) (h : Rearranged ms ns) :
    project Γ (.struct ns) (.map s) x = project Γ (.struct ms) (.map s) x := by
  have hns : AllTaken Γ s (ns.map (·.value)) := by
    intro v hv
    obtain ⟨m, hm, rfl⟩ := List.mem_map.mp hv
    exact hms m.value (List.mem_map_of_mem (h.perm.mem_iff.mpr hm))
  have hsame : SameEntries (x.written (entriesAlone Γ s ns)) (x.written (entriesAlone Γ s ms)) := by
    intro name
    rw [under?_entriesAlone rfl hx, under?_entriesAlone rfl hx, lastNamed?, lastNamed?,
      h.order name]
  have hshape {l : List Member} (hl : AllTaken Γ s (l.map (·.value))) :
      HasShape Γ (.map s) (x.written (entriesAlone Γ s l)) := by
    have hl' := hasShape_project hg (.struct l) hx
    rwa [project_struct_of_allTaken rfl hx hl] at hl'
  rw [project_struct_of_allTaken rfl hx hms, project_struct_of_allTaken rfl hx hns,
    hsame.eq (hshape hns) (hshape hms)]

/-- A struct that fits leaves a map that holds under each name of a member the
last member of that name, alone, and what it held under any other name.  Two
structs one after the other do what both do in one, the order of members of
different names does not count, and a table that held the same holds the same. -/
theorem map_overwritten (hg : Γ.Grounded) (hx : HasShape Γ (.map s) x) :
    (∀ ms, Fits Γ (.map s) (.struct ms) →
      let p := project Γ (.struct ms) (.map s) x
      p.misfit = none ∧
      (∀ m ∈ ms, project Γ m.value s (Γ.default s) = .done (alone Γ s m.value)) ∧
      (∀ name, p.content.under? name
        = ((lastNamed? ms name).map fun m => alone Γ s m.value).or (x.under? name)) ∧
      (∃ es, p.content = ofTexts es ∧ es.Pairwise fun a b => a.1 < b.1) ∧
      (∀ ms₁ ms₂, ms = ms₁ ++ ms₂ →
        let q := project Γ (.struct ms₁) (.map s) x
        q.misfit = none ∧ project Γ (.struct ms₂) (.map s) q.content = p) ∧
      ∀ ns, Rearranged ms ns → project Γ (.struct ns) (.map s) x = p) ∧
    ∀ y, HasShape Γ (.table s) y → SameEntries x y → ∀ v,
      let p := project Γ v (.map s) x
      let q := project Γ v (.table s) y
      (p.misfit = none ↔ q.misfit = none) ∧ SameEntries p.content q.content := by
  refine ⟨?_, fun y hy h v => h.project hg hx hy v⟩
  intro ms hfits p
  have hdone : p.misfit = none := (misfit_project_iff hg hx).mpr hfits
  have hshape : HasShape Γ (.map s) p.content := hasShape_project hg _ hx
  obtain ⟨hms, hp⟩ | ⟨-, m, hp⟩ := project_struct_cases (Γ := Γ) rfl hx ms
  · refine ⟨hdone, ?_, ?_, ?_, ?_, fun ns h => project_struct_rearranged hg hx hms h⟩
    · intro m hm
      exact project_default_eq_done.mpr ⟨hms m.value (List.mem_map_of_mem hm), rfl⟩
    · intro name
      rw [← under?_entriesAlone rfl hx]
      exact congrArg (fun r : Projection => r.content.under? name) hp
    · exact exists_ofTexts hshape
    · rintro ms₁ ms₂ rfl
      exact project_struct_append hg hx hms
  · cases hdone.symm.trans (congrArg Projection.misfit hp)

/-- Two links come under the name of one that is in the map, and nothing under
that of another.  Of the two the last stays, merged neither with the first nor
with what was there, and the other becomes a default. -/
theorem map_overwritten_links :
    let link := fun (weight : Int) (next : Native) =>
      Native.record [("weight", .int weight), ("next", next)]
    let behind := fun next => Native.present (.boxed next)
    let held := ofTexts [("a", link 1 (behind (link 2 .absent))), ("b", link 3 .absent)]
    let ms : List Member :=
      [⟨"a", .struct [⟨"next", .struct [⟨"weight", .int 4⟩]⟩]⟩, ⟨"b", .nil⟩,
        ⟨"a", .struct [⟨"weight", .int 5⟩]⟩]
    let p := project links (.struct ms) (.map (.record "Link")) held
    p.misfit = none ∧ p.content.under? "a" = some (link 5 .absent) ∧
      p.content.under? "b" = some (link 0 .absent) := by
  intro link behind held ms p
  have hlink {w : Int} {next : Native} (hw : IntType.i32.holds w = true)
      (hnext : HasShape links (.option (.boxed (.record "Link"))) next) :
      HasShape links (.record "Link") (link w next) :=
    hasShape_record_iff.mpr (.cons ⟨rfl, .int hw⟩ (.cons ⟨rfl, hnext⟩ .nil))
  have hheld : HasShape links (.map (.record "Link")) held := by
    refine .map (by decide) ?_
    intro e he
    rcases List.mem_cons.mp he with rfl | he
    · exact hlink rfl (.present (.boxed (hlink rfl (.absent _))))
    · cases List.mem_singleton.mp he
      exact hlink rfl (.absent _)
  have hdone : p.misfit = none := rfl
  obtain ⟨-, -, hunder, -⟩ := (map_overwritten grounded_links hheld).1 ms
    ((misfit_project_iff grounded_links hheld).mp hdone)
  exact ⟨hdone, hunder "a", hunder "b"⟩

end Native

end XmlRpc
