/-
# What is in the grammar is read

Tokens of the form that the grammar prescribes are accepted with the result
that they denote, whatever comes after them, as long as the fuel exceeds their
number.  Together with soundness: a source holds a result exactly if its
tokens begin with a document that denotes it (`ofSource_iff`).
-/
import XmlRpc.Proofs.Document.Soundness

namespace XmlRpc

namespace Document

open Markup (Token TokenReader Stream)

/-! ## Scalars -/

theorem trim_of_isBlank {cs : List Char} (h : Blank.isBlank cs = true) :
    (Blank.trim cs).isEmpty = true := by
  rw [Blank.isBlank, List.all_eq_true] at h
  rw [List.isEmpty_iff, Blank.trim, Blank.trimStart, List.dropWhile_eq_nil_iff.mpr h]
  rfl

theorem ofLabel?_label (tag : Tag) : Tag.ofLabel? tag.label = some tag := by
  cases tag <;> rfl

theorem typeOf_label {text : Option String} {tag : Tag}
    (hb : Blank.isBlank (text.getD "").toList = true) (ht : tag.isValueType = true) :
    typeOf text tag.label = .ok tag := by
  have hf : (some tag).filter (fun t => t.isValueType) = some tag := by simp [ht]
  simp only [typeOf, trim_of_isBlank hb, if_true, ofLabel?_label, hf]

theorem accepts_readScalar {tag : Tag} {ts : List Token} {s : String} {v : Value}
    (hts : OptionalText ts s) (hv : scalar tag s = .ok v) (st : Stream) :
    Accepts (readScalar tag) (ts ++ [endOf tag]) v st := by
  cases hts with
  | none => exact .noText rfl (by simp [endOf]) (.close blanks_nil (accepts_lift hv st))
  | text s => exact .text (.close blanks_nil (accepts_lift hv st))

/-! ## Values -/

theorem endOf_ne_startOf {tag tag' : Tag} : endOf tag ≠ startOf tag' := fun h => by cases h

theorem startOf_inj {tag tag' : Tag} (h : startOf tag = startOf tag') : tag = tag' := by
  have hl : tag.label = tag'.label := Token.startTag.inj h
  have := ofLabel?_label tag
  rw [hl, ofLabel?_label] at this
  exact (Option.some.inj this).symm

theorem ValueForm.head {ts : List Token} {v : Value} (h : ValueForm ts v) :
    ∃ us, ts = startOf .value :: us ∧ us ≠ [] := by
  cases h with
  | nil => exact ⟨_, rfl, by simp⟩
  | text s => exact ⟨_, rfl, by simp⟩
  | typed _ _ _ => exact ⟨_, rfl, by simp⟩

theorem TypedForm.head {ts : List Token} {v : Value} (h : TypedForm ts v) :
    ∃ tag us, ts = startOf tag :: us ∧ tag.isValueType = true := by
  cases h with
  | @scalar tag _ _ _ ht => exact ⟨tag, _, rfl, (isValueType_iff tag).mpr (.inl ht)⟩
  | array => exact ⟨.array, _, rfl, rfl⟩
  | struct => exact ⟨.struct, _, rfl, rfl⟩

/-- The reader accepts every value shorter than its fuel. -/
def ValueComplete (fuel : Nat) : Prop :=
  ∀ (w ts : List Token) (v : Value) (st : Stream), Blanks w → ValueForm ts v → ts.length < fuel →
    Accepts (readValue fuel) (w ++ ts) v st

def ItemsComplete (fuel : Nat) : Prop :=
  ∀ (ts w : List Token) (vs : List Value) (tag : Tag) (st : Stream), ItemsForm ts vs → Blanks w →
    st.1.head? = some (endOf tag) → ts.length + 1 < fuel → Accepts (readItems fuel) (ts ++ w) vs st

def MembersComplete (fuel : Nat) : Prop :=
  ∀ (ts w : List Token) (ms : List Member) (tag : Tag) (st : Stream), MembersForm ts ms →
    Blanks w → st.1.head? = some (endOf tag) → ts.length + 1 < fuel →
    Accepts (readMembers fuel) (ts ++ w) ms st

variable {fuel : Nat}

theorem itemsComplete_succ (hv : ValueComplete fuel) (hi : ItemsComplete fuel) :
    ItemsComplete (fuel + 1) := by
  intro ts w vs tag st h hw hst hlt
  rw [readItems]
  cases h with
  | nil =>
      refine Accepts.map (accepts_trim hw hst rfl) ?_
      exact Accepts.peek (g := fun _ => pure []) (accepts_pure [] st) rfl hst
  | @cons w₁ ts us v vs hw₁ hts hus =>
      obtain ⟨ts', rfl, -⟩ := hts.head
      simp only [List.length_append, List.length_cons] at hlt
      have hlen : (startOf .value :: ts').length < fuel := by
        simp only [List.length_cons]
        omega
      have hread := hv [] _ v (st.after (us ++ w)) blanks_nil hts hlen
      have hrest := hi us w vs tag st hus hw hst (by omega)
      simp only [List.append_assoc]
      refine Accepts.bind (accepts_trim hw₁.blanks rfl rfl) ?_
      refine Accepts.peek (t := startOf .value) ?_ (if_pos rfl) rfl
      exact Accepts.bind hread (Accepts.map hrest (accepts_pure _ st))

theorem membersComplete_succ (hv : ValueComplete fuel) (hm : MembersComplete fuel) :
    MembersComplete (fuel + 1) := by
  intro ts w ms tag st h hw hst hlt
  rw [readMembers]
  cases h with
  | nil =>
      rw [List.nil_append, ← List.append_nil w]
      exact .notStarted hw hst rfl endOf_ne_startOf (accepts_pure [] st)
  | @cons w₁ w₂ w₃ ts w₄ us name v ms hw₁ hw₂ hw₃ hts hw₄ hus =>
      simp only [List.length_append, List.length_cons] at hlt
      have hread := hv w₃ ts v
      have hrest := hm us w ms tag st hus hw hst (by omega)
      simp only [List.append_assoc, List.cons_append]
      refine .started hw₁.blanks (.start hw₂.blanks (.text (.close blanks_nil ?_)))
      rw [← List.append_assoc]
      refine .bind (hread _ hw₃.blanks hts (by omega)) (.close hw₄.blanks ?_)
      exact .map hrest (accepts_pure _ st)

theorem accepts_readTyped (hi : ItemsComplete fuel) (hm : MembersComplete fuel) {tag : Tag}
    {ts : List Token} {v : Value} {st : Stream} (h : TypedForm (startOf tag :: ts) v)
    (hlt : ts.length < fuel) : Accepts (readTyped fuel tag) ts v st := by
  generalize hus : startOf tag :: ts = us at h
  cases h with
  | @scalar tag' us s v ht hus' hv =>
      obtain ⟨htag, rfl⟩ := List.cons.inj hus
      cases startOf_inj htag
      rw [readTyped_scalar fuel ht]
      exact accepts_readScalar hus' hv st
  | @array w₁ us w₂ w₃ vs hw₁ hus' hw₂ hw₃ =>
      obtain ⟨htag, rfl⟩ := List.cons.inj hus
      cases startOf_inj htag
      simp only [List.length_append, List.length_cons] at hlt
      have hitems := hi us w₂ vs .data
        (st.after (endOf .data :: (w₃ ++ [endOf .array]))) hus' hw₂.blanks rfl (by omega)
      rw [← List.append_assoc us]
      refine .start hw₁.blanks (.bind hitems ?_)
      exact .close blanks_nil (.close hw₃.blanks (accepts_pure _ st))
  | @struct us w ms hus' hw =>
      obtain ⟨htag, rfl⟩ := List.cons.inj hus
      cases startOf_inj htag
      simp only [List.length_append, List.length_cons] at hlt
      have hmembers := hm us w ms .struct (st.after [endOf .struct]) hus' hw.blanks rfl (by omega)
      rw [← List.append_assoc us]
      exact .bind hmembers (.close blanks_nil (accepts_pure _ st))

theorem valueComplete_succ (hi : ItemsComplete fuel) (hm : MembersComplete fuel) :
    ValueComplete (fuel + 1) := by
  intro w ts v st hw h hlt
  rw [readValue_succ]
  cases h with
  | nil =>
      refine .start hw (.noText rfl (by simp [endOf]) (.token ?_))
      rw [endOf, readBody, if_pos rfl]
      exact accepts_pure _ st
  | text s =>
      refine .start hw (.text (.token ?_))
      rw [endOf, readBody, if_pos rfl]
      exact accepts_pure _ st
  | @typed w₁ us w₂ v hw₁ hus hw₂ =>
      obtain ⟨tag, us', rfl, htag⟩ := hus.head
      simp only [List.length_append, List.length_cons] at hlt
      have htyped : Accepts (readTyped fuel tag) us' v (st.after (w₂ ++ [endOf .value])) :=
        accepts_readTyped hi hm hus (by omega)
      have hbody {text : Option String} (hb : Blank.isBlank (text.getD "").toList = true) :
          Accepts (next >>= readBody fuel text) (startOf tag :: (us' ++ (w₂ ++ [endOf .value])))
            v st := by
        refine .token (.lifted (typeOf_label hb htag) ?_)
        exact .bind htyped (.close hw₂.blanks (accepts_pure v st))
      cases hw₁ with
      | none => exact .start hw (.noText rfl (by simp [startOf]) (hbody rfl))
      | blank hb => exact .start hw (.text (hbody hb))

/-- By induction on the fuel, all three readers at once. -/
theorem readers_complete (fuel : Nat) :
    ValueComplete fuel ∧ ItemsComplete fuel ∧ MembersComplete fuel := by
  induction fuel with
  | zero =>
      refine ⟨?_, ?_, ?_⟩
      · intro w ts v st _ _ hlt
        exact absurd hlt (Nat.not_lt_zero _)
      · intro ts w vs tag st _ _ _ hlt
        exact absurd hlt (Nat.not_lt_zero _)
      · intro ts w ms tag st _ _ _ hlt
        exact absurd hlt (Nat.not_lt_zero _)
  | succ fuel ih =>
      obtain ⟨hv, hi, hm⟩ := ih
      exact ⟨valueComplete_succ hi hm, itemsComplete_succ hv hi, membersComplete_succ hv hm⟩

/-! ## Envelopes -/

variable {β : Type} {st : Stream}

/-- Before a root, a header of blanks ends where the root begins. -/
theorem accepts_readHeader {w : List Token} {tag : Tag} (hw : Blanks w)
    (ht : st.1.head? = some (startOf tag)) : Accepts readHeader w () st := by
  refine Accepts.map (accepts_trim hw ht rfl) ?_
  intro r hr
  obtain ⟨ts, hts⟩ := List.head?_eq_some_iff.mp ht
  obtain ⟨r₁, hr₁, ht₁, hp₁⟩ := TokenReader.read_of_tokens_cons
    (show r.tokens = (startOf tag :: ts, st.2) from hr.trans (Prod.ext hts rfl))
  obtain ⟨r₂, hr₂, ht₂⟩ := TokenReader.tokens_unread hp₁ (startOf tag)
  have hread : read r = .ok (some (startOf tag)) r₁ := by simp only [read, hr₁]
  refine ⟨r₂, ?_, ?_⟩
  · rw [bind_of_ok hread]
    show unread (startOf tag) r₁ = _
    simp only [unread, hr₂]
  · rw [ht₂, ht₁]
    exact Prod.ext hts.symm rfl

theorem accepts_readHeader_declaration {w : List Token} (hw : Blanks w) (st : Stream) :
    Accepts readHeader (w ++ [.declaration]) () st := by
  refine Accepts.bind (accepts_trim hw rfl rfl) ?_
  intro r hr
  obtain ⟨r₁, hr₁, ht₁, -⟩ := TokenReader.read_of_tokens_cons hr
  have hread : read r = .ok (some .declaration) r₁ := by simp only [read, hr₁]
  exact ⟨r₁, bind_of_ok hread, ht₁⟩

/-- Blanks are left for the root only behind a declaration. -/
theorem Accepts.header {f : Unit → Reading β} {hs us : List Token} {b : β} {tag : Tag}
    (hh : HeaderForm hs) (ht : (us ++ st.1).head? = some (startOf tag))
    (hf : ∀ w, Blanks w → Accepts (f ()) (w ++ us) b st) :
    Accepts (readHeader >>= f) (hs ++ us) b st := by
  cases hh with
  | @bare w₁ w₂ hw₁ hw₂ =>
      exact .bind (accepts_readHeader (hw₁.blanks.append hw₂.blanks) ht) (hf [] blanks_nil)
  | @declared w₁ w₂ hw₁ hw₂ =>
      have h := Accepts.bind (accepts_readHeader_declaration hw₁.blanks _) (hf w₂ hw₂.blanks)
      simpa using h

theorem accepts_readParamList {valueFuel : Nat} (ts : List Token) :
    ∀ (fuel : Nat) (vs : Params) (w : List Token) (tag : Tag), ParamListForm ts vs → Blanks w →
      st.1.head? = some (endOf tag) → ts.length < valueFuel → ts.length < fuel →
      Accepts (readParamList valueFuel fuel) (ts ++ w) vs st := by
  intro fuel
  induction fuel generalizing ts with
  | zero =>
      intro vs w tag _ _ _ _ hlt
      exact absurd hlt (Nat.not_lt_zero _)
  | succ fuel ih =>
      intro vs w tag h hw hst hlv hlt
      rw [readParamList]
      cases h with
      | nil =>
          rw [List.nil_append, ← List.append_nil w]
          exact .notStarted hw hst rfl endOf_ne_startOf (accepts_pure [] st)
      | @cons w₁ w₂ ts w₃ us v vs hw₁ hw₂ hts hw₃ hus =>
          simp only [List.length_append, List.length_cons] at hlv hlt
          have hread := (readers_complete valueFuel).1 w₂ ts v
          have hrest := ih us vs w tag hus hw hst (by omega) (by omega)
          simp only [List.append_assoc, List.cons_append]
          refine .started hw₁.blanks ?_
          rw [← List.append_assoc]
          refine .bind (hread _ hw₂.blanks hts (by omega)) (.close hw₃.blanks ?_)
          exact .map hrest (accepts_pure _ st)

theorem accepts_readParams {fuel : Nat} {ts : List Token} {vs : Params}
    (h : ParamsForm (startOf .params :: ts) vs) (hlt : ts.length < fuel) :
    Accepts (readParams fuel) ts vs st := by
  cases h with
  | @mk us w vs hus hw =>
      simp only [List.length_append, List.length_cons] at hlt
      have hlist : Accepts (readParamList fuel fuel) (us ++ w) vs (st.after [endOf .params]) :=
        accepts_readParamList us fuel vs w .params hus hw.blanks rfl (by omega) (by omega)
      rw [← List.append_assoc]
      exact .bind hlist (.close blanks_nil (accepts_pure vs st))

theorem ParamsForm.head {ts : List Token} {vs : Params} (h : ParamsForm ts vs) :
    ∃ us, ts = startOf .params :: us := by
  cases h with
  | mk => exact ⟨_, rfl⟩

/-- Where parameters are missing, the blanks that could come before them are
gone. -/
theorem Accepts.optionalParams {f : Params → Reading β} {fuel : Nat} {ts w us : List Token}
    {vs : Params} {tag : Tag} {b : β} (h : OptionalParams ts vs) (hw : Blanks w)
    (hlt : ts.length < fuel) (ht : (us ++ st.1).head? = some (endOf tag))
    (hf : ∀ w', Blanks w' → Accepts (f vs) (w' ++ us) b st) :
    Accepts (readOptionalParams fuel >>= f) (ts ++ (w ++ us)) b st := by
  rw [readOptionalParams, bind_assoc]
  cases h with
  | none =>
      rw [List.nil_append]
      exact .notStarted hw ht rfl endOf_ne_startOf (hf [] blanks_nil)
  | @params w₁ ts vs hw₁ hts =>
      obtain ⟨ts', rfl⟩ := hts.head
      simp only [List.length_append, List.length_cons] at hlt
      rw [List.append_assoc]
      exact .started hw₁.blanks (.bind (accepts_readParams hts (by omega)) (hf w hw))

/-! ## Documents -/

theorem accepts_readBareValue {fuel : Nat} {ts : List Token} {v : Value}
    (h : DocumentForm ValueForm ts v) (hlt : ts.length < fuel) :
    Accepts (readBareValue fuel) ts v st := by
  cases h with
  | @mk hs ts v hh hts =>
      obtain ⟨us, rfl, -⟩ := hts.head
      rw [List.length_append] at hlt
      refine .header hh rfl ?_
      intro w hw
      exact (readers_complete fuel).1 w _ v st hw hts (by omega)

theorem accepts_readCall {fuel : Nat} {ts : List Token} {c : Call}
    (h : DocumentForm CallForm ts c) (hlt : ts.length < fuel) :
    Accepts (readCall fuel) ts c st := by
  rw [readCall_eq]
  cases h with
  | @mk hs ts c hh hts =>
    cases hts with
    | @mk w₁ name ps w₂ method params hw₁ hname hps hw₂ =>
        simp only [List.length_append, List.length_cons] at hlt
        refine .header hh rfl fun w hw => .start hw (.start hw₁.blanks ?_)
        have hend {method : Option String} : Accepts (readOptionalParams fuel >>= fun params =>
            expectEnd .methodCall >>= fun _ => pure (⟨method.getD "", params⟩ : Call))
            (ps ++ (w₂ ++ [endOf .methodCall])) ⟨method.getD "", params⟩ st := by
          refine .optionalParams hps hw₂.blanks (by omega) rfl ?_
          intro w' hw'
          exact .close hw' (accepts_pure _ st)
        cases hname with
        | none => exact .noText rfl (by simp [endOf]) (.close blanks_nil hend)
        | text s => exact .text (.close blanks_nil hend)

theorem accepts_readResponse {fuel : Nat} {ts : List Token} {a : Response}
    (h : DocumentForm ResponseForm ts a) (hlt : ts.length < fuel) :
    Accepts (readResponse fuel) ts a st := by
  rw [readResponse_eq]
  cases h with
  | @mk hs ts a hh hts =>
    cases hts with
    | @params w₁ ts w₂ vs hw₁ hts hw₂ =>
        obtain ⟨us, rfl⟩ := hts.head
        simp only [List.length_append, List.length_cons] at hlt
        refine .header hh rfl fun w hw => .start hw ?_
        rw [readResult, bind_assoc]
        refine .started hw₁.blanks ?_
        simp only [if_true, bind_assoc, pure_bind]
        refine .bind (accepts_readParams hts (by omega)) ?_
        exact .close hw₂.blanks (accepts_pure _ st)
    | @fault w₁ w₂ ts w₃ w₄ v hw₁ hw₂ hts hv hw₃ hw₄ =>
        simp only [List.length_append, List.length_cons] at hlt
        refine .header hh rfl fun w hw => .start hw ?_
        rw [readResult, bind_assoc]
        refine .notStarted hw₁.blanks rfl rfl (by decide) ?_
        simp only [Bool.false_eq_true, if_false, readFault, bind_assoc]
        refine Accepts.start blanks_nil ?_
        rw [← List.append_assoc]
        refine .bind ((readers_complete fuel).1 w₂ ts v _ hw₂.blanks hts (by omega)) ?_
        simp only [if_pos hv, bind_assoc, pure_bind]
        exact .close hw₃.blanks (.close hw₄.blanks (accepts_pure _ st))

/-! ## Sources -/

theorem run_of_ok {α : Type} {reading : Nat → Reading α} {s : Source} {a : α} {r' : TokenReader}
    (h : reading ((TokenReader.ofSource s).size + 1) (TokenReader.ofSource s) = .ok a r') :
    run reading s = .ok a := by
  rw [TokenReader.ofSource] at h
  rw [run, runWith]
  simp only [h]

theorem run_error {α : Type} {reading : Nat → Reading α} {s : Source} {p : Problem}
    (h : ∃ r', reading ((TokenReader.ofSource s).size + 1) (TokenReader.ofSource s)
      = .error p r') : run reading s = .error p := by
  obtain ⟨r', h⟩ := h
  rw [TokenReader.ofSource] at h
  rw [run, runWith]
  simp only [h]

theorem run_eq_ok {α : Type} {reading : Nat → Reading α} {s : Source} {a : α} :
    run reading s = .ok a ↔ ∃ r', reading ((TokenReader.ofSource s).size + 1)
      (TokenReader.ofSource s) = .ok a r' := by
  constructor
  · intro h
    cases hm : reading ((TokenReader.ofSource s).size + 1) (TokenReader.ofSource s) with
    | ok a' r' =>
        rw [run_of_ok hm] at h
        cases h
        exact ⟨r', rfl⟩
    | error p r' =>
        rw [run_error ⟨r', hm⟩] at h
        cases h
  · rintro ⟨r', h⟩
    exact run_of_ok h

theorem run_eq_error {α : Type} {reading : Nat → Reading α} {s : Source} {p : Problem} :
    run reading s = .error p ↔ ∃ r', reading ((TokenReader.ofSource s).size + 1)
      (TokenReader.ofSource s) = .error p r' := by
  refine ⟨?_, run_error⟩
  intro h
  cases hm : reading ((TokenReader.ofSource s).size + 1) (TokenReader.ofSource s) with
  | ok a r' =>
      rw [run_of_ok hm] at h
      cases h
  | error q r' =>
      rw [run_error ⟨r', hm⟩] at h
      cases h
      exact ⟨r', rfl⟩

/-- A sound and complete reader of documents finds just the documents at the
beginning of a source. -/
theorem run_iff {α : Type} {reading : Nat → Reading α} {Root : List Token → α → Prop}
    (hsound : ∀ (fuel : Nat) (r : TokenReader) (a : α) (r' : TokenReader),
      Markup.Separate r.tokens.1 → reading fuel r = .ok a r' →
      ∃ ts, DocumentForm Root ts a ∧ r.tokens = Stream.after ts r'.tokens)
    (hcomplete : ∀ (fuel : Nat) (ts : List Token) (a : α) (st : Stream),
      DocumentForm Root ts a → ts.length < fuel → Accepts (reading fuel) ts a st)
    (s : Source) (a : α) :
    run reading s = .ok a ↔
      ∃ ts, ts <+: (TokenReader.ofSource s).tokens.1 ∧ DocumentForm Root ts a := by
  rw [run_eq_ok]
  constructor
  · rintro ⟨r', h⟩
    obtain ⟨ts, hts, ht⟩ := hsound _ _ a r' (Markup.separate_tokens_ofSource s) h
    exact ⟨ts, ht ▸ List.prefix_append ts _, hts⟩
  · rintro ⟨ts, ⟨us, hus⟩, hts⟩
    have hlen : ts.length ≤ (TokenReader.ofSource s).size := by
      refine Nat.le_trans ?_ (TokenReader.length_tokens_le (TokenReader.ofSource s))
      rw [← hus, List.length_append]
      exact Nat.le_add_right _ _
    obtain ⟨r', h, -⟩ := hcomplete ((TokenReader.ofSource s).size + 1) ts a
      (us, (TokenReader.ofSource s).tokens.2) hts (Nat.lt_succ_of_le hlen)
      (TokenReader.ofSource s) (Prod.ext hus.symm rfl)
    exact ⟨r', h⟩

theorem value_iff {source : Source} {v : Value} :
    Value.ofSource source = .ok v ↔
      ∃ ts, ts <+: (TokenReader.ofSource source).tokens.1 ∧ DocumentForm ValueForm ts v :=
  run_iff (fun _ _ _ _ => readBareValue_sound) (fun _ _ _ _ => accepts_readBareValue) source v

theorem call_iff {source : Source} {c : Call} :
    Call.ofSource source = .ok c ↔
      ∃ ts, ts <+: (TokenReader.ofSource source).tokens.1 ∧ DocumentForm CallForm ts c :=
  run_iff (fun _ _ _ _ => readCall_sound) (fun _ _ _ _ => accepts_readCall) source c

theorem response_iff {source : Source} {r : Response} :
    Response.ofSource source = .ok r ↔
      ∃ ts, ts <+: (TokenReader.ofSource source).tokens.1 ∧ DocumentForm ResponseForm ts r :=
  run_iff (fun _ _ _ _ => readResponse_sound) (fun _ _ _ _ => accepts_readResponse) source r

/-- A source holds a value, a call or a response exactly if its tokens begin
with a document that denotes it. -/
theorem ofSource_iff (s : Source) :
    (∀ v, Value.ofSource s = .ok v ↔
      ∃ ts, ts <+: (TokenReader.ofSource s).tokens.1 ∧ DocumentForm ValueForm ts v) ∧
    (∀ c, Call.ofSource s = .ok c ↔
      ∃ ts, ts <+: (TokenReader.ofSource s).tokens.1 ∧ DocumentForm CallForm ts c) ∧
    (∀ r, Response.ofSource s = .ok r ↔
      ∃ ts, ts <+: (TokenReader.ofSource s).tokens.1 ∧ DocumentForm ResponseForm ts r) := by
  refine ⟨?_, ?_, ?_⟩
  · exact run_iff (fun _ _ _ _ => readBareValue_sound) (fun _ _ _ _ => accepts_readBareValue) s
  · exact run_iff (fun _ _ _ _ => readCall_sound) (fun _ _ _ _ => accepts_readCall) s
  · exact run_iff (fun _ _ _ _ => readResponse_sound) (fun _ _ _ _ => accepts_readResponse) s

end Document

end XmlRpc
