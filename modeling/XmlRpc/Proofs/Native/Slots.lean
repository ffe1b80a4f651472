/-
# Slots keep their shape

A slot holds a datum of its shape.  It begins with the default, which is one
(`hasShape_default`), and whatever is projected into it leaves one there, also
where a misfit ends the projection early (`hasShape_project`):

    options, boxes   hold what the slot inside holds afterwards
    lists            grow by data of the shape of their items
    maps             stay sorted by their texts
    tables           keep their names apart
    records          hold a datum for each field, in the order of the fields
-/
import Mathlib.Data.List.Forall2
import Mathlib.Data.String.Basic
import XmlRpc.Proofs.Calendar
import XmlRpc.Proofs.Native.Typing

namespace XmlRpc

namespace Native

variable {Γ : Schema}

/-! ## Fields -/

/-- Whether data fill fields: one for each, under its name and of its
shape. -/
def Fills (Γ : Schema) : List Field → List (String × Native) → Prop :=
  List.Forall₂ fun f e => e.1 = f.wire ∧ HasShape Γ f.shape e.2

theorem Fills.names {fs : List Field} {xs : List (String × Native)} (h : Fills Γ fs xs) :
    xs.map (·.1) = fs.map (·.wire) := by
  induction h with
  | nil => rfl
  | cons he _ ih => exact congrArg₂ List.cons he.1 ih

theorem fills_of_zip {fs : List Field} {xs : List (String × Native)}
    (hnames : xs.map (·.1) = fs.map (·.wire))
    (h : ∀ p ∈ fs.zip xs, HasShape Γ p.1.shape p.2.2) : Fills Γ fs xs := by
  induction fs generalizing xs with
  | nil =>
      rw [List.map_nil, List.map_eq_nil_iff] at hnames
      exact hnames ▸ .nil
  | cons f fs ih =>
      cases xs with
      | nil => cases hnames
      | cons e xs =>
          obtain ⟨he, hnames⟩ := List.cons.inj hnames
          refine .cons ⟨he, h (f, e) List.mem_cons_self⟩ (ih hnames ?_)
          intro p hp
          exact h p (List.mem_cons_of_mem _ hp)

theorem hasShape_record_iff {name : String} {xs : List (String × Native)} :
    HasShape Γ (.record name) (.record xs) ↔ Fills Γ (Γ.fields name) xs := by
  constructor
  · intro h
    cases h with
    | record hnames hxs => exact fills_of_zip hnames hxs
  · intro h
    refine .record h.names ?_
    intro p hp
    exact ((List.forall₂_iff_zip.mp h).2 hp).2

theorem fills_fieldsOf (f : Fault) : Fills Γ faultFields (fieldsOf (.fault f)) :=
  .cons ⟨rfl, .int (holds_code f)⟩ (.cons ⟨rfl, .string _⟩ .nil)

/-! ## Defaults -/

namespace Schema

theorem fields_append {pre behind : Schema} {name : String} (h : ∀ d ∈ pre, d.name ≠ name) :
    (pre ++ behind).fields name = behind.fields name := by
  have hnone : pre.find? (·.name == name) = none := by
    rw [List.find?_eq_none]
    intro d hd
    simpa using h d hd
  rw [fields, List.find?_append, hnone]
  rfl

theorem Grounded.inPlace_ne {pre behind : Schema} (h : (pre ++ behind).Grounded) {d e : Declaration}
    (hd : d ∈ pre) (he : e ∈ behind) {f : Field} (hf : f ∈ e.fields) :
    f.shape.inPlace? ≠ some d.name := by
  induction pre with
  | nil => cases hd
  | cons p pre ih =>
      rcases List.mem_cons.mp hd with rfl | hd
      · exact h.1 e (List.mem_cons_of_mem _ (List.mem_append_right pre he)) f hf
      · exact ih h.2 hd

theorem Grounded.tail {pre behind : Schema} (h : (pre ++ behind).Grounded) : behind.Grounded := by
  induction pre with
  | nil => exact h
  | cons p pre ih => exact ih h.2

end Schema

/-- The default of a shape has that shape, if the default of the record that it
holds in place has the shape of the record. -/
theorem hasShape_defaultWith {recordDefault : String → Native} {s : Shape}
    (h : ∀ name, s.inPlace? = some name → HasShape Γ (.record name) (recordDefault name)) :
    HasShape Γ s (s.defaultWith recordDefault) := by
  induction s with
  | record name => exact h name rfl
  | boxed s ih => exact .boxed (ih h)
  | option s => exact .absent s
  | list s => exact .list nofun
  | map s => exact @HasShape.map _ s [] .nil nofun
  | table s => exact .table .nil nofun
  | int t => exact .int (by cases t <;> rfl)
  | utcDateTime => exact .utcDateTime rfl
  | localDateTime => exact .localDateTime rfl rfl
  | _ => constructor

/-- The default of a record that is not declared in `pre`.  The induction is on
the declarations behind, and hands the one it passes over to `pre`. -/
theorem hasShape_recordDefault (pre behind : Schema) (h : (pre ++ behind).Grounded) (name : String)
    (hname : ∀ d ∈ pre, d.name ≠ name) :
    HasShape (pre ++ behind) (.record name) (behind.recordDefault name) := by
  induction behind generalizing pre name with
  | nil =>
      refine hasShape_record_iff.mpr ?_
      rw [Schema.fields_append hname]
      exact .nil
  | cons d behind ih =>
      have hmove : pre ++ d :: behind = (pre ++ [d]) ++ behind := List.append_cons pre d behind
      have hrest (name : String) (hpre : ∀ e ∈ pre, e.name ≠ name) (hd : d.name ≠ name) :
          HasShape (pre ++ d :: behind) (.record name) (Schema.recordDefault behind name) := by
        rw [hmove] at h ⊢
        refine ih _ h name ?_
        intro e he
        rcases List.mem_append.mp he with he | he
        · exact hpre e he
        · exact List.mem_singleton.mp he ▸ hd
      rw [Schema.recordDefault]
      split
      · rename_i hd
        refine hasShape_record_iff.mpr ?_
        rw [Schema.fields_append hname, Schema.fields_cons, if_pos hd]
        refine List.forall₂_map_right_iff.mpr (List.forall₂_same.mpr ?_)
        intro f hf
        refine ⟨rfl, hasShape_defaultWith ?_⟩
        intro inner hinner
        refine hrest inner ?_ ?_
        · rintro e he rfl
          exact h.inPlace_ne he List.mem_cons_self hf hinner
        · rintro rfl
          exact h.tail.1 d List.mem_cons_self f hf hinner
      · rename_i hd
        exact hrest name hname hd

theorem hasShape_default (h : Γ.Grounded) (s : Shape) : HasShape Γ s (Γ.default s) :=
  hasShape_defaultWith fun name _ => hasShape_recordDefault [] Γ h name nofun

/-! ## Entries -/

section Entries

variable {α : Type}

def textLt (a b : String) : Bool := a < b

theorem insertSorted_text (name : String) (x : Native) (es : List (String × Native)) :
    insertSorted Key.lt (.text name) x (es.map fun e => (.text e.1, e.2))
      = (insertSorted textLt name x es).map fun e => (Key.text e.1, e.2) := by
  induction es with
  | nil => rfl
  | cons e es ih =>
      have hlt (a b : String) : Key.lt (.text a) (.text b) = textLt a b := rfl
      rw [List.map_cons, insertSorted, insertSorted, ih, hlt, hlt]
      split
      · rfl
      · split <;> rfl

theorem mem_insertSorted {name : String} {x : α} {es : List (String × α)} {e : String × α}
    (h : e ∈ insertSorted textLt name x es) : e = (name, x) ∨ e ∈ es := by
  induction es with
  | nil => exact .inl (List.mem_singleton.mp h)
  | cons d es ih =>
      rw [insertSorted] at h
      split at h
      · exact List.mem_cons.mp h
      · split at h
        · rcases List.mem_cons.mp h with rfl | h
          · exact .inr List.mem_cons_self
          · exact (ih h).imp_right (List.mem_cons_of_mem d)
        · exact (List.mem_cons.mp h).imp_right (List.mem_cons_of_mem d)

theorem pairwise_insertSorted {name : String} (x : α) {es : List (String × α)}
    (h : es.Pairwise fun a b => a.1 < b.1) :
    (insertSorted textLt name x es).Pairwise fun a b => a.1 < b.1 := by
  induction es with
  | nil => exact List.pairwise_singleton _ _
  | cons d es ih =>
      obtain ⟨hd, hes⟩ := List.pairwise_cons.mp h
      rw [insertSorted]
      split
      · rename_i hlt
        have hlt : name < d.1 := of_decide_eq_true hlt
        refine List.pairwise_cons.mpr ⟨?_, h⟩
        intro e he
        rcases List.mem_cons.mp he with rfl | he
        · exact hlt
        · exact lt_trans hlt (hd e he)
      · rename_i hge
        split
        · rename_i hlt
          refine List.pairwise_cons.mpr ⟨?_, ih hes⟩
          intro e he
          rcases mem_insertSorted he with rfl | he
          · exact of_decide_eq_true hlt
          · exact hd e he
        · rename_i hle
          -- neither comes before the other, so they are the same text
          have heq : d.1 = name := le_antisymm (not_lt.mp fun h => hge (decide_eq_true h))
            (not_lt.mp fun h => hle (decide_eq_true h))
          exact List.pairwise_cons.mpr ⟨fun e he => heq ▸ hd e he, hes⟩

theorem mem_insertNamed {name : String} {x : α} {es : List (String × α)} {e : String × α}
    (h : e ∈ insertNamed name x es) : e = (name, x) ∨ e ∈ es := by
  induction es with
  | nil => exact .inl (List.mem_singleton.mp h)
  | cons d es ih =>
      rw [insertNamed] at h
      split at h
      · exact (List.mem_cons.mp h).imp_right (List.mem_cons_of_mem d)
      · rcases List.mem_cons.mp h with rfl | h
        · exact .inr List.mem_cons_self
        · exact (ih h).imp_right (List.mem_cons_of_mem d)

theorem nodup_insertNamed {name : String} (x : α) {es : List (String × α)}
    (h : (es.map (·.1)).Nodup) : ((insertNamed name x es).map (·.1)).Nodup := by
  induction es with
  | nil => exact List.nodup_cons.mpr ⟨List.not_mem_nil, List.nodup_nil⟩
  | cons d es ih =>
      obtain ⟨hd, hes⟩ := List.nodup_cons.mp h
      rw [insertNamed]
      split
      · rename_i heq
        exact List.nodup_cons.mpr ⟨heq ▸ hd, hes⟩
      · rename_i hne
        refine List.nodup_cons.mpr ⟨?_, ih hes⟩
        intro hmem
        obtain ⟨e, he, hname⟩ := List.mem_map.mp hmem
        rcases mem_insertNamed he with rfl | he
        · exact hne hname.symm
        · exact hd (List.mem_map.mpr ⟨e, he, hname⟩)

end Entries

/-! ## Steps of a projection -/

theorem receiveItems_cons (v : Value) (vs : List Value) (s : Shape) :
    receiveItems Γ (v :: vs) s
      = match (project Γ v s (Γ.default s)).misfit with
        | some m => .error m
        | none => (receiveItems Γ vs s).map ((project Γ v s (Γ.default s)).content :: ·) := rfl

theorem receiveMembers_cons (name : String) (v : Value) (ms : List Member) (s : Shape) :
    receiveMembers Γ (⟨name, v⟩ :: ms) s
      = match (project Γ v s (Γ.default s)).misfit with
        | some m => .error m
        | none =>
          (receiveMembers Γ ms s).map ((name, (project Γ v s (Γ.default s)).content) :: ·) := rfl

theorem receiveItems_cons_eq_ok {v : Value} {vs : List Value} {s : Shape} {ys : List Native} :
    receiveItems Γ (v :: vs) s = .ok ys ↔
      ∃ y zs, project Γ v s (Γ.default s) = .done y ∧ receiveItems Γ vs s = .ok zs ∧
        ys = y :: zs := by
  rw [receiveItems_cons]
  obtain ⟨y, m⟩ := project Γ v s (Γ.default s)
  cases m with
  | some m => simp [Projection.done]
  | none =>
      cases receiveItems Γ vs s with
      | error m => simp [Except.map]
      | ok zs => simp [Except.map, Projection.done, eq_comm]

theorem receiveMembers_cons_eq_ok {name : String} {v : Value} {ms : List Member} {s : Shape}
    {es : List (String × Native)} :
    receiveMembers Γ (⟨name, v⟩ :: ms) s = .ok es ↔
      ∃ y ds, project Γ v s (Γ.default s) = .done y ∧ receiveMembers Γ ms s = .ok ds ∧
        es = (name, y) :: ds := by
  rw [receiveMembers_cons]
  obtain ⟨y, m⟩ := project Γ v s (Γ.default s)
  cases m with
  | some m => simp [Projection.done]
  | none =>
      cases receiveMembers Γ ms s with
      | error m => simp [Except.map]
      | ok ds => simp [Except.map, Projection.done, eq_comm]

def fieldNamed? (fs : List Field) (name : String) : Option Field := fs.find? (·.wire == name)

theorem assignField_cases (into : Shape → Native → Projection) (name : String) {fs : List Field}
    {xs : List (String × Native)} (h : Fills Γ fs xs) :
    (fieldNamed? fs name = none ∧ assignField into name fs xs = none) ∨
    ∃ f x ys, fieldNamed? fs name = some f ∧ HasShape Γ f.shape x ∧
      assignField into name fs xs = some (ys, (into f.shape x).misfit) ∧
      (HasShape Γ f.shape (into f.shape x).content → Fills Γ fs ys) := by
  induction h with
  | nil => exact .inl ⟨rfl, rfl⟩
  | @cons f e fs xs he hrest ih =>
      by_cases hname : f.wire = name
      · refine .inr ⟨f, e.2, (e.1, (into f.shape e.2).content) :: xs, ?_, he.2, if_pos hname, ?_⟩
        · rw [fieldNamed?, List.find?_cons_of_pos (by simpa using hname)]
        · exact fun hshape => .cons ⟨he.1, hshape⟩ hrest
      · have hskip : fieldNamed? (f :: fs) name = fieldNamed? fs name :=
          List.find?_cons_of_neg (by simpa using hname)
        have hassign : assignField into name (f :: fs) (e :: xs)
            = (assignField into name fs xs).map fun q => (e :: q.1, q.2) := if_neg hname
        rw [hskip, hassign]
        rcases ih with ⟨hnone, hxs⟩ | ⟨g, x, ys, hg, hx, hxs, hys⟩
        · exact .inl ⟨hnone, by rw [hxs]; rfl⟩
        · exact .inr ⟨g, x, e :: ys, hg, hx, by rw [hxs]; rfl, fun hshape => .cons he (hys hshape)⟩

theorem assignMembers_step (name : String) (v : Value) (ms : List Member) (owner : String)
    (fs : List Field) (xs : List (String × Native)) :
    assignMembers Γ (⟨name, v⟩ :: ms) owner fs xs
      = match assignField (project Γ v) name fs xs with
        | none => (xs, some (.unknownField owner name))
        | some (ys, some m) => (ys, some m)
        | some (ys, none) => assignMembers Γ ms owner fs ys := rfl

/-! ## Projection -/

theorem hasShape_assignPlain (v : Value) {s : Shape} {x : Native} (hx : HasShape Γ s x) :
    HasShape Γ s (assignPlain v s x).content := by
  unfold assignPlain
  split
  · exact hx
  · exact .value v
  · exact .bool _
  · split
    · rename_i h
      exact .int h
    · exact hx
  · exact .single _
  · exact .double _
  · exact .string _
  · exact .bytes _
  · exact .dateTime _
  · exact .utcDateTime (DateTime.offset_toUtc _)
  · split
    · rename_i h
      exact .localDateTime rfl h
    · exact hx
  · exact hx

theorem hasShape_through (hg : Γ.Grounded) {core : Shape → Native → Projection}
    (h : ∀ s x, HasShape Γ s x → HasShape Γ s (core s x).content) {s : Shape} {x : Native}
    (hx : HasShape Γ s x) : HasShape Γ s (through Γ core s x).content := by
  induction s generalizing x with
  | option s ih =>
      cases hx with
      | absent => exact .present (ih (hasShape_default hg s))
      | present hy => exact .present (ih hy)
  | boxed s ih =>
      cases hx with
      | boxed hy => exact .boxed (ih hy)
  | _ => exact h _ x hx

theorem hasShape_map_insert {s : Shape} {ds : List (String × Native)}
    (hds : ∀ d ∈ ds, HasShape Γ s d.2) {x : Native} (hx : HasShape Γ (.map s) x) :
    HasShape Γ (.map s) (.map (ds.foldl
      (fun acc (name, y) => insertSorted Key.lt (.text name) y acc) (entriesOf x))) := by
  cases hx with
  | @map _ es hsorted hes =>
      show HasShape Γ (.map s) (.map (ds.foldl _ (es.map fun e => (Key.text e.1, e.2))))
      induction ds generalizing es with
      | nil => exact .map hsorted hes
      | cons d ds ih =>
          rw [List.foldl_cons]
          show HasShape Γ (.map s) (.map (ds.foldl _ (insertSorted Key.lt (.text d.1) d.2 _)))
          rw [insertSorted_text]
          refine ih (fun e he => hds e (List.mem_cons_of_mem d he))
            (pairwise_insertSorted d.2 hsorted) ?_
          intro e he
          rcases mem_insertSorted he with rfl | he
          · exact hds d List.mem_cons_self
          · exact hes e he

theorem hasShape_table_insert {s : Shape} {ds : List (String × Native)}
    (hds : ∀ d ∈ ds, HasShape Γ s d.2) {x : Native} (hx : HasShape Γ (.table s) x) :
    HasShape Γ (.table s)
      (.table (ds.foldl (fun acc (name, y) => insertNamed name y acc) (tableOf x))) := by
  cases hx with
  | @table _ es hnames hes =>
      show HasShape Γ (.table s) (.table (ds.foldl _ es))
      induction ds generalizing es with
      | nil => exact .table hnames hes
      | cons d ds ih =>
          refine ih (fun e he => hds e (List.mem_cons_of_mem d he))
            (nodup_insertNamed d.2 hnames) ?_
          intro e he
          rcases mem_insertNamed he with rfl | he
          · exact hds d List.mem_cons_self
          · exact hes e he

theorem hasShape_project_of_assign {v : Value}
    (h : ∀ s x, HasShape Γ s x → HasShape Γ s (assign Γ v s x).content) {s : Shape} {x : Native}
    (hx : HasShape Γ s x) : HasShape Γ s (project Γ v s x).content := by
  rw [project]
  split
  · exact hx
  · exact h s x hx

mutual

/-- Also an empty value leaves a datum of the shape. -/
theorem hasShape_assign (hg : Γ.Grounded) (v : Value) (s : Shape) (x : Native)
    (hx : HasShape Γ s x) : HasShape Γ s (assign Γ v s x).content := by
  cases v with
  | array items =>
      refine hasShape_through hg ?_ hx
      intro s x hx
      split
      · rename_i item
        split
        · rename_i ys hys
          cases hx with
          | @list _ xs hxs =>
              refine .list fun y hy => ?_
              rcases List.mem_append.mp hy with hy | hy
              · exact hxs y hy
              · exact hasShape_receiveItems hg items hys y hy
        · exact hx
      · exact hasShape_assignPlain _ hx
  | struct members =>
      refine hasShape_through hg ?_ hx
      intro s x hx
      dsimp only
      split
      · split
        · rename_i ds hds
          exact hasShape_map_insert (hasShape_receiveMembers hg members hds) hx
        · exact hx
      · split
        · rename_i ds hds
          exact hasShape_table_insert (hasShape_receiveMembers hg members hds) hx
        · exact hx
      · rename_i name
        cases hx with
        | @record _ xs hnames hxs =>
            have hfills := hasShape_record_iff.mp (.record hnames hxs)
            exact hasShape_record_iff.mpr (fills_assignMembers hg members name hfills)
      · exact .fault _
      · exact hasShape_assignPlain _ hx
  | _ => exact hasShape_through hg (fun s x => hasShape_assignPlain _) hx

theorem hasShape_receiveItems (hg : Γ.Grounded) (vs : List Value) {s : Shape} {ys : List Native}
    (h : receiveItems Γ vs s = .ok ys) : ∀ y ∈ ys, HasShape Γ s y := by
  cases vs with
  | nil =>
      cases h
      exact nofun
  | cons v vs =>
      obtain ⟨z, zs, hz, hzs, rfl⟩ := receiveItems_cons_eq_ok.mp h
      intro y hy
      rcases List.mem_cons.mp hy with rfl | hy
      · have hv := hasShape_project_of_assign (hasShape_assign hg v) (hasShape_default hg s)
        rwa [hz] at hv
      · exact hasShape_receiveItems hg vs hzs y hy

theorem hasShape_receiveMembers (hg : Γ.Grounded) (ms : List Member) {s : Shape}
    {es : List (String × Native)} (h : receiveMembers Γ ms s = .ok es) :
    ∀ e ∈ es, HasShape Γ s e.2 := by
  cases ms with
  | nil =>
      cases h
      exact nofun
  | cons m ms =>
      cases m with
      | mk name v =>
          obtain ⟨z, ds, hz, hds, rfl⟩ := receiveMembers_cons_eq_ok.mp h
          intro e he
          rcases List.mem_cons.mp he with rfl | he
          · have hv := hasShape_project_of_assign (hasShape_assign hg v) (hasShape_default hg s)
            rwa [hz] at hv
          · exact hasShape_receiveMembers hg ms hds e he

theorem fills_assignMembers (hg : Γ.Grounded) (ms : List Member) (owner : String)
    {fs : List Field} {xs : List (String × Native)} (h : Fills Γ fs xs) :
    Fills Γ fs (assignMembers Γ ms owner fs xs).1 := by
  cases ms with
  | nil => exact h
  | cons m ms =>
      cases m with
      | mk name v =>
          rw [assignMembers_step]
          rcases assignField_cases (project Γ v) name h with ⟨-, hxs⟩ | ⟨f, x, ys, -, hx, hxs, hys⟩
          · rw [hxs]
            exact h
          · have hfills := hys (hasShape_project_of_assign (hasShape_assign hg v) hx)
            rw [hxs]
            cases (project Γ v f.shape x).misfit with
            | some m => exact hfills
            | none => exact fills_assignMembers hg ms owner hfills

end

theorem hasShape_project (hg : Γ.Grounded) (v : Value) {s : Shape} {x : Native}
    (hx : HasShape Γ s x) : HasShape Γ s (project Γ v s x).content :=
  hasShape_project_of_assign (hasShape_assign hg v) hx

end Native

end XmlRpc
