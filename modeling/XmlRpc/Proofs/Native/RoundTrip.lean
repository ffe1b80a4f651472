/-
# Data received back

The value of a datum, projected into the default of its shape, is the datum
again (`project_toValue`), with three exceptions:

    a number above the largest int        is sent as nil
    an option around an empty value       comes back absent
    an empty value                        comes back as nil

The induction is on the shape of the datum.  What a list, a map or a record
does with the data inside is stated apart from it, for data that come back.
-/
import Mathlib.Data.String.Basic
import XmlRpc.Proofs.Binary.Exact
import XmlRpc.Proofs.Calendar
import XmlRpc.Proofs.Native.Typing

namespace XmlRpc

namespace Native

/-! ## Numbers -/

theorem intValue_eq {i : Int} (hl : -9223372036854775808 ≤ i) (hu : i ≤ 9223372036854775807) :
    ∃ n : Int64, n.toInt = i ∧ intValue i = .int n := by
  have hi : (Int64.ofInt i).toInt = i := Int64.toInt_ofInt_of_le hl (Int.lt_add_one_of_le hu)
  refine ⟨Int64.ofInt i, hi, ?_⟩
  rw [intValue, Numeral.toInt64?, if_pos ⟨hl, hu⟩]

theorem IntType.least_le (t : IntType) : -9223372036854775808 ≤ t.least := by
  cases t <;> decide

variable {Γ : Schema} {s : Shape}

theorem project_int {t : IntType} {i : Int} (h : t.holds i = true) (hu : i ≤ 9223372036854775807)
    (x : Native) : project Γ (intValue i) (.int t) x = .done (.int i) := by
  have hl : t.least ≤ i := by
    simp only [IntType.holds, Bool.and_eq_true, decide_eq_true_eq] at h
    exact h.1
  obtain ⟨n, rfl, hn⟩ := intValue_eq (t.least_le.trans hl) hu
  rw [hn]
  exact if_pos h

/-! ## Options and boxes -/

theorem assign_option (v : Value) (y : Native) :
    assign Γ v (.option s) (.present y)
      = ⟨.present (assign Γ v s y).content, (assign Γ v s y).misfit⟩ := by
  cases v <;> rfl

theorem assign_absent (v : Value) :
    assign Γ v (.option s) .absent = assign Γ v (.option s) (.present (Γ.default s)) := by
  cases v <;> rfl

theorem assign_boxed (v : Value) (y : Native) :
    assign Γ v (.boxed s) (.boxed y)
      = ⟨.boxed (assign Γ v s y).content, (assign Γ v s y).misfit⟩ := by
  cases v <;> rfl

theorem project_present {v : Value} {x : Native} (hv : v.isEmpty = false)
    (h : project Γ v s (Γ.default s) = .done x) :
    project Γ v (.option s) .absent = .done (.present x) := by
  rw [project, hv, if_neg (by simp)] at h ⊢
  rw [assign_absent, assign_option, h]
  rfl

theorem project_boxed {v : Value} {x y : Native} (h : project Γ v s y = .done x) :
    project Γ v (.boxed s) (.boxed y) = .done (.boxed x) := by
  rw [project] at h ⊢
  by_cases hv : v.isEmpty = true
  · rw [if_pos hv] at h ⊢
    cases h
    rfl
  · rw [if_neg hv] at h ⊢
    rw [assign_boxed, h]
    rfl

/-! ## Lists -/

theorem receiveItems_toItems {xs : List Native}
    (h : ∀ x ∈ xs, project Γ x.toValue s (Γ.default s) = .done x) :
    receiveItems Γ (toItems xs) s = .ok xs := by
  induction xs with
  | nil => rfl
  | cons x xs ih =>
      have hx : (if x.toValue.isEmpty then .done (Γ.default s)
          else assign Γ x.toValue s (Γ.default s)) = Projection.done x :=
        h x List.mem_cons_self
      have hxs := ih fun y hy => h y (List.mem_cons_of_mem x hy)
      simp only [toItems, receiveItems, hx, hxs]
      rfl

/-! ## Maps and tables -/

theorem receiveMembers_fieldMembers {es : List (String × Native)}
    (h : ∀ e ∈ es, project Γ e.2.toValue s (Γ.default s) = .done e.2) :
    receiveMembers Γ (fieldMembers es) s = .ok es := by
  induction es with
  | nil => rfl
  | cons e es ih =>
      have he : (if e.2.toValue.isEmpty then .done (Γ.default s)
          else assign Γ e.2.toValue s (Γ.default s)) = Projection.done e.2 :=
        h e List.mem_cons_self
      have hes := ih fun y hy => h y (List.mem_cons_of_mem e hy)
      simp only [fieldMembers, receiveMembers, he, hes]
      rfl

theorem entryMembers_text (es : List (String × Native)) :
    entryMembers (es.map fun e => (.text e.1, e.2)) = fieldMembers es := by
  induction es with
  | nil => rfl
  | cons e es ih =>
      rw [List.map_cons, entryMembers, ih]
      rfl

theorem insertSorted_last {κ α : Type} {lt : κ → κ → Bool} {k : κ} {es : List (κ × α)}
    (h : ∀ e ∈ es, lt e.1 k = true ∧ lt k e.1 = false) (x : α) :
    insertSorted lt k x es = es ++ [(k, x)] := by
  induction es with
  | nil => rfl
  | cons e es ih =>
      obtain ⟨hlt, hnot⟩ := h e List.mem_cons_self
      rw [insertSorted, hnot, hlt, ih fun d hd => h d (List.mem_cons_of_mem e hd)]
      rfl

theorem foldl_insertSorted {behind es : List (String × Native)}
    (h : (behind ++ es).Pairwise fun a b => a.1 < b.1) :
    es.foldl (fun acc (name, y) => insertSorted Key.lt (.text name) y acc)
        (behind.map fun e => (.text e.1, e.2))
      = (behind ++ es).map fun e => (Key.text e.1, e.2) := by
  induction es generalizing behind with
  | nil => rw [List.foldl_nil, List.append_nil]
  | cons e es ih =>
      have hlast : ∀ d ∈ behind.map fun e => (Key.text e.1, e.2),
          Key.lt d.1 (.text e.1) = true ∧ Key.lt (.text e.1) d.1 = false := by
        intro d hd
        obtain ⟨b, hb, rfl⟩ := List.mem_map.mp hd
        have hlt : b.1 < e.1 := (List.pairwise_append.mp h).2.2 b hb e List.mem_cons_self
        exact ⟨decide_eq_true hlt, decide_eq_false (lt_asymm hlt)⟩
      have hmap : (behind.map fun e => (Key.text e.1, e.2)) ++ [(.text e.1, e.2)]
          = (behind ++ [e]).map fun e => (Key.text e.1, e.2) := by
        rw [List.map_append]
        rfl
      rw [List.append_cons] at h ⊢
      rw [List.foldl_cons]
      show es.foldl _ (insertSorted Key.lt (.text e.1) e.2 _) = _
      rw [insertSorted_last hlast, hmap, ih h]

theorem insertNamed_last {α : Type} {name : String} {es : List (String × α)}
    (h : ∀ e ∈ es, e.1 ≠ name) (x : α) : insertNamed name x es = es ++ [(name, x)] := by
  induction es with
  | nil => rfl
  | cons e es ih =>
      rw [insertNamed, if_neg (h e List.mem_cons_self),
        ih fun d hd => h d (List.mem_cons_of_mem e hd)]
      rfl

theorem foldl_insertNamed {behind es : List (String × Native)}
    (h : ((behind ++ es).map (·.1)).Nodup) :
    es.foldl (fun acc (name, y) => insertNamed name y acc) behind = behind ++ es := by
  induction es generalizing behind with
  | nil => rw [List.foldl_nil, List.append_nil]
  | cons e es ih =>
      have hlast : ∀ d ∈ behind, d.1 ≠ e.1 := by
        intro d hd
        rw [List.map_append, List.nodup_append] at h
        exact h.2.2 d.1 (List.mem_map_of_mem hd) e.1 List.mem_cons_self
      rw [List.append_cons] at h ⊢
      rw [List.foldl_cons]
      show es.foldl _ (insertNamed e.1 e.2 behind) = _
      rw [insertNamed_last hlast, ih h]

/-! ## Records -/

theorem assignField_at (into : Shape → Native → Projection) {before : List Field}
    {held : List (String × Native)} (hlen : held.length = before.length) {f : Field}
    (hf : ∀ g ∈ before, g.wire ≠ f.wire) (after : List Field) (name : String) (x : Native)
    (rest : List (String × Native)) :
    assignField into f.wire (before ++ f :: after) (held ++ (name, x) :: rest)
      = some (held ++ (name, (into f.shape x).content) :: rest, (into f.shape x).misfit) := by
  induction before generalizing held with
  | nil =>
      rw [List.length_eq_zero_iff.mp hlen]
      exact if_pos rfl
  | cons g before ih =>
      match held, hlen with
      | (m, y) :: held, hlen =>
          have hrest := ih (Nat.succ.inj hlen) fun h hh => hf h (List.mem_cons_of_mem g hh)
          rw [List.cons_append, List.cons_append, assignField, if_neg (hf g List.mem_cons_self),
            hrest]
          rfl

theorem assignMembers_cons {owner name : String} {v : Value} {ms : List Member} {fs : List Field}
    {xs ys : List (String × Native)}
    (h : assignField (project Γ v) name fs xs = some (ys, none)) :
    assignMembers Γ (⟨name, v⟩ :: ms) owner fs xs = assignMembers Γ ms owner fs ys := by
  have hfield : assignField (fun s x => if v.isEmpty then .done x else assign Γ v s x) name fs xs
      = some (ys, none) := h
  simp only [assignMembers, hfield]

/-- Members in the order of the fields fill them one after the other; those
of `before` hold theirs already. -/
theorem assignMembers_behind {owner : String} (before : List Field) {fs : List Field}
    (held : List (String × Native)) {xs : List (String × Native)}
    (hd : ((before ++ fs).map (·.wire)).Nodup) (hheld : held.length = before.length)
    (hnames : xs.map (·.1) = fs.map (·.wire))
    (h : ∀ p ∈ fs.zip xs,
      project Γ p.2.2.toValue p.1.shape (Γ.default p.1.shape) = .done p.2.2) :
    assignMembers Γ (fieldMembers xs) owner (before ++ fs)
        (held ++ fs.map fun f => (f.wire, Γ.default f.shape))
      = (held ++ xs, none) := by
  induction fs generalizing before held xs with
  | nil =>
      rw [List.map_nil, List.map_eq_nil_iff] at hnames
      rw [hnames]
      rfl
  | cons f fs ih =>
      match xs, hnames with
      | (name, x) :: xs, hnames =>
          obtain ⟨rfl, hxs⟩ := List.cons.inj hnames
          have hf : ∀ g ∈ before, g.wire ≠ f.wire := by
            intro g hg
            rw [List.map_append, List.nodup_append] at hd
            exact hd.2.2 g.wire (List.mem_map_of_mem hg) f.wire List.mem_cons_self
          have hat := assignField_at (project Γ x.toValue) hheld hf fs f.wire
            (Γ.default f.shape) (fs.map fun g => (g.wire, Γ.default g.shape))
          rw [h (f, (f.wire, x)) List.mem_cons_self] at hat
          have hlen : (held ++ [(f.wire, x)]).length = (before ++ [f]).length := by
            rw [List.length_append, List.length_append, hheld]
            rfl
          have hrest := ih (before ++ [f]) (held ++ [(f.wire, x)])
            (List.append_cons before f fs ▸ hd) hlen hxs
            fun p hp => h p (List.mem_cons_of_mem _ hp)
          rw [← List.append_cons, ← List.append_cons, ← List.append_cons] at hrest
          exact (assignMembers_cons hat).trans hrest

theorem assignMembers_fieldMembers (owner : String) {fs : List Field}
    {xs : List (String × Native)} (hd : (fs.map (·.wire)).Nodup)
    (hnames : xs.map (·.1) = fs.map (·.wire))
    (h : ∀ p ∈ fs.zip xs,
      project Γ p.2.2.toValue p.1.shape (Γ.default p.1.shape) = .done p.2.2) :
    assignMembers Γ (fieldMembers xs) owner fs (fs.map fun f => (f.wire, Γ.default f.shape))
      = (xs, none) :=
  assignMembers_behind [] [] hd rfl hnames h

/-! ## Faults -/

theorem toValue_fault (f : Fault) : f.toValue = .struct (fieldMembers (fieldsOf (.fault f))) := by
  have hcode : intValue f.code.toInt = .int (Int64.ofInt f.code.toInt) := by
    have hl := f.code.le_toInt
    have hu := f.code.toInt_lt
    rw [intValue, Numeral.toInt64?, if_pos ⟨by omega, by omega⟩]
  show _ = Value.struct [⟨_, intValue f.code.toInt⟩, ⟨_, .string f.message⟩]
  rw [hcode]
  rfl

theorem faultOf_fieldsOf (f : Fault) : faultOf (fieldsOf (.fault f)) = f := by
  show Fault.mk (Int32.ofInt f.code.toInt) f.message = f
  rw [Int32.ofInt_toInt]

theorem project_fault (f : Fault) :
    project Γ f.toValue .fault (.fault .blank) = .done (.fault f) := by
  have hmembers : assignMembers Γ (fieldMembers (fieldsOf (.fault f))) Shape.fault.name faultFields
      (fieldsOf (.fault .blank)) = (fieldsOf (.fault f), none) := by
    refine assignMembers_fieldMembers Shape.fault.name (by decide) rfl ?_
    intro p hp
    rcases List.mem_cons.mp hp with rfl | hp
    · have hu := f.code.toInt_lt
      exact project_int (holds_code f) (by omega) _
    · cases List.mem_singleton.mp hp
      rfl
  have hproject : project Γ (.struct (fieldMembers (fieldsOf (.fault f)))) .fault (.fault .blank)
      = ⟨.fault (faultOf (assignMembers Γ (fieldMembers (fieldsOf (.fault f))) Shape.fault.name
          faultFields (fieldsOf (.fault .blank))).1),
        (assignMembers Γ (fieldMembers (fieldsOf (.fault f))) Shape.fault.name
          faultFields (fieldsOf (.fault .blank))).2⟩ := rfl
  rw [toValue_fault, hproject, hmembers, faultOf_fieldsOf]
  rfl

/-! ## All data -/

/-- Whether a datum, apart from what stands inside it, is told from others by
its value. -/
def Lossless : Native → Prop
  | .int i => i ≤ 9223372036854775807
  | .present x => x.toValue.isEmpty = false
  | .value v => v.isEmpty = true → v = .nil
  | _ => True

theorem project_value {v : Value} (h : v.isEmpty = true → v = .nil) :
    project Γ v .value (.value .nil) = .done (.value v) := by
  by_cases hv : v.isEmpty = true
  · rw [h hv]
    rfl
  · rw [project, if_neg hv]
    cases v <;> rfl

theorem project_list {xs : List Native}
    (h : ∀ x ∈ xs, project Γ x.toValue s (Γ.default s) = .done x) :
    project Γ (.array (toItems xs)) (.list s) (.list []) = .done (.list xs) := by
  cases xs with
  | nil => rfl
  | cons x xs =>
      have hitems := receiveItems_toItems h
      show assign Γ (.array (toItems (x :: xs))) (.list s) (.list []) = _
      simp only [assign, through, hitems]
      rfl

theorem project_map {es : List (String × Native)} (hes : es.Pairwise fun a b => a.1 < b.1)
    (h : ∀ e ∈ es, project Γ e.2.toValue s (Γ.default s) = .done e.2) :
    project Γ (.struct (fieldMembers es)) (.map s) (.map [])
      = .done (.map (es.map fun e => (.text e.1, e.2))) := by
  cases es with
  | nil => rfl
  | cons e es =>
      have hmembers := receiveMembers_fieldMembers h
      show assign Γ (.struct (fieldMembers (e :: es))) (.map s) (.map []) = _
      simp only [assign, through, hmembers]
      exact congrArg (Projection.done ∘ Native.map) (@foldl_insertSorted [] _ hes)

theorem project_table {es : List (String × Native)} (hes : (es.map (·.1)).Nodup)
    (h : ∀ e ∈ es, project Γ e.2.toValue s (Γ.default s) = .done e.2) :
    project Γ (.struct (fieldMembers es)) (.table s) (.table []) = .done (.table es) := by
  cases es with
  | nil => rfl
  | cons e es =>
      have hmembers := receiveMembers_fieldMembers h
      show assign Γ (.struct (fieldMembers (e :: es))) (.table s) (.table []) = _
      simp only [assign, through, hmembers]
      exact congrArg (Projection.done ∘ Native.table) (@foldl_insertNamed [] _ hes)

theorem project_record {name : String} {xs : List (String × Native)}
    (hd : ((Γ.fields name).map (·.wire)).Nodup)
    (hnames : xs.map (·.1) = (Γ.fields name).map (·.wire))
    (h : ∀ p ∈ (Γ.fields name).zip xs,
      project Γ p.2.2.toValue p.1.shape (Γ.default p.1.shape) = .done p.2.2) :
    project Γ (.struct (fieldMembers xs)) (.record name)
        (.record ((Γ.fields name).map fun f => (f.wire, Γ.default f.shape)))
      = .done (.record xs) := by
  have hmembers := assignMembers_fieldMembers name hd hnames h
  cases xs with
  | nil =>
      rw [List.map_nil, eq_comm, List.map_eq_nil_iff] at hnames
      rw [hnames]
      rfl
  | cons x xs =>
      show assign Γ (.struct (fieldMembers (x :: xs))) (.record name) _ = _
      simp only [assign, through, fieldsOf, hmembers]
      rfl

/-- The value of a datum fills the default of its shape with that datum. -/
theorem project_toValue (hg : Γ.Grounded) (hd : Γ.Distinct) {x : Native} (hx : HasShape Γ s x)
    (hl : x.Every Lossless) : project Γ x.toValue s (Γ.default s) = .done x := by
  induction hx with
  | unit => rfl
  | bool b => rfl
  | int h => exact project_int h hl.self _
  | single x => exact congrArg (fun y => Projection.done (.single y)) (Binary.narrow_widen x)
  | double x => rfl
  | string s => rfl
  | bytes o => rfl
  | dateTime d => rfl
  | utcDateTime h => exact congrArg (fun d => Projection.done (.dateTime d)) (DateTime.toUtc_self h)
  | localDateTime h hc =>
      refine (if_pos hc).trans ?_
      exact congrArg (fun d => Projection.done (.dateTime d)) (DateTime.localAsUtc_self h)
  | value v => exact project_value hl.self
  | fault f => exact project_fault f
  | absent s => rfl
  | present _ ih => exact project_present hl.self (ih hl.present)
  | boxed _ ih => exact project_boxed (ih hl.boxed)
  | list _ ih => exact project_list fun x hx => ih x hx (hl.item hx)
  | map hes _ ih =>
      rw [toValue, entryMembers_text]
      exact project_map hes fun e he => ih e he (hl.entry he)
  | table hes _ ih => exact project_table hes fun e he => ih e he (hl.slot he)
  | record hnames _ ih =>
      rw [Schema.default, Shape.defaultWith, Schema.recordDefault_eq hg]
      exact project_record (hd _) hnames fun p hp => ih p hp (hl.field (List.of_mem_zip hp).2)

end Native

end XmlRpc
