/-
# Values read back

What is read from the document of a value:

    every member has a name    the value `reread`
    some member has none       a fault for an invalid request

All is kept but the numbers that texts round.  A finite double becomes the one
that its text denotes, and a moment the one that its text denotes, which is
the moment as its figures show it where the clock shows UTC and four digits
hold the year (`ofSource_document`).

That is the moment cut to whole seconds, but for a leap second inside a minute:
a text has no figures for it, and shows the second after
(`ofSource_document_leapInside`).
-/
import XmlRpc.Proofs.Calendar
import XmlRpc.Proofs.Document.Completeness
import XmlRpc.Proofs.Document.Writing
import XmlRpc.Proofs.Value

namespace XmlRpc

/-! ## Numbers that texts round -/

/-- The moment that is read where this one was written. -/
def DateTime.reread (d : DateTime) : DateTime :=
  Document.moment (String.ofList (Calendar.compactText d))

/-- Whether the compact layout holds a moment: four digits of a year, and no
offset. -/
def DateTime.IsCompact (d : DateTime) : Prop :=
  d.offset = 0 ∧ 0 ≤ d.date.year ∧ d.date.year ≤ 9999

namespace Value

/-- The value that is read where this one was written. -/
def reread (v : Value) : Value := v.replace Binary.reread DateTime.reread

/-- A value with its moments as their figures show them and its doubles as
they stand in their texts. -/
def settled (v : Value) : Value := v.replace Binary.reread DateTime.asShown

/-- A value with its moments cut to whole seconds and its doubles as they
stand in their texts. -/
def inWholeSeconds (v : Value) : Value := v.replace Binary.reread DateTime.wholeSeconds

end Value

namespace Document

open Markup (Token TokenReader Stream)

theorem reread_of_isCompact {d : DateTime} (h : d.IsCompact) : d.reread = d.asShown := by
  rw [DateTime.reread, moment, String.toList_ofList, Calendar.read?_compactText h.1 h.2]

theorem reread_eq_settled {v : Value} (h : v.AllDates DateTime.IsCompact) :
    v.reread = v.settled :=
  Value.replace_congr (fun _ => reread_of_isCompact) v h

theorem settled_eq_inWholeSeconds {v : Value} (h : v.AllDates fun d => d.time.LeapsLast) :
    v.settled = v.inWholeSeconds :=
  Value.replace_congr (fun _ => DateTime.asShown_of_leapsLast) v h

/-! ## Scalars -/

theorem scalar_int (i : Int64) :
    scalar .int (String.ofList (Numeral.ofInt i.toInt)) = .ok (.int i) := by
  have hi : int? (String.ofList (Numeral.ofInt i.toInt)) = some i := by
    rw [int?, String.toList_ofList, Numeral.signed?_ofInt]
    exact Numeral.toInt64?_toInt i
  rw [scalar, hi]

theorem scalar_boolean (b : Bool) :
    scalar .boolean (String.ofList [if b then '1' else '0']) = .ok (.boolean b) := by
  cases b <;> rfl

theorem scalar_double (x : Double) :
    scalar .double (String.ofList x.toText) = .ok (.double x.reread) := by
  have hx : double? (String.ofList x.toText) = some x.reread := by
    rw [double?, String.toList_ofList]
    exact Binary.ofText?_toText x
  rw [scalar, hx]

theorem scalar_base64 (o : Octets) :
    scalar .base64 (String.ofList (Base64.encodeText o)) = .ok (.base64 o) := by
  have ho : octets (String.ofList (Base64.encodeText o)) = .ok o := by
    rw [octets, String.toList_ofList, Base64.filter_encodeText, Base64.encode_encodeText]
    exact Base64.decode_encode o
  rw [scalar, ho]

theorem optionalText_textTokens (body : List Char) :
    OptionalText (textTokens body) (String.ofList body) := by
  cases body with
  | nil => exact .none
  | cons c cs => exact .text _

theorem textTokens_of_ne_empty {s : String} (h : s ≠ "") : textTokens s.toList = [.text s] := by
  match hs : s.toList with
  | [] => exact absurd (String.toList_eq_nil_iff.mp hs) h
  | c :: cs => rw [textTokens, ← hs, String.ofList_toList]

/-! ## Values with names -/

theorem valueForm_element {s : Step} {v : Value} (h : TypedForm s.tokens v) :
    ValueForm (Step.element .value [s]).tokens v := by
  have hv := ValueForm.typed .none h .none
  simpa [Step.tokens, tokensOf] using hv

theorem valueForm_scalar {tag : Tag} {s : Step} {body : List Char} {v : Value}
    (hs : s.tokens = startOf tag :: (textTokens body ++ [endOf tag])) (ht : tag ∈ scalarTags)
    (hv : scalar tag (String.ofList body) = .ok v) :
    ValueForm (Step.element .value [s]).tokens v := by
  refine valueForm_element ?_
  rw [hs]
  exact .scalar ht (optionalText_textTokens body) hv

mutual

theorem valueForm_valueStep (v : Value) (h : v.Named) :
    ValueForm (valueStep v).tokens v.reread := by
  cases v with
  | nil => exact .nil
  | boolean b => exact valueForm_scalar rfl (by decide) (scalar_boolean b)
  | int i => exact valueForm_scalar rfl (by decide) (scalar_int i)
  | double x => exact valueForm_scalar rfl (by decide) (scalar_double x)
  | dateTime d => exact valueForm_scalar rfl (by decide) rfl
  | base64 o => exact valueForm_scalar rfl (by decide) (scalar_base64 o)
  | string s =>
      have hs : scalar .string (String.ofList s.toList) = .ok (.string s) := by
        rw [String.ofList_toList]
        rfl
      exact valueForm_scalar rfl (by decide) hs
  | array items =>
      have hitems := TypedForm.array .none (itemsForm_itemSteps items h) .none .none
      refine valueForm_element ?_
      simpa [Step.tokens, tokensOf, Value.reread, Value.replace] using hitems
  | struct members =>
      have hmembers := TypedForm.struct (membersForm_memberSteps members h) .none
      refine valueForm_element ?_
      simpa [Step.tokens, tokensOf, Value.reread, Value.replace] using hmembers

theorem itemsForm_itemSteps (vs : List Value) (h : Value.NamedItems vs) :
    ItemsForm (tokensOf (itemSteps vs)) (Value.replaceItems Binary.reread DateTime.reread vs) := by
  cases vs with
  | nil => exact .nil
  | cons v vs => exact .cons .none (valueForm_valueStep v h.1) (itemsForm_itemSteps vs h.2)

theorem membersForm_memberSteps (ms : List Member) (h : Value.NamedMembers ms) :
    MembersForm (tokensOf (memberSteps ms))
      (Value.replaceMembers Binary.reread DateTime.reread ms) := by
  cases ms with
  | nil => exact .nil
  | cons m ms =>
      cases m with
      | mk name v =>
          obtain ⟨hname, hv, hms⟩ := h
          have hmember := @MembersForm.cons [] [] [] _ [] _ name _ _ .none .none .none
            (valueForm_valueStep v hv) .none (membersForm_memberSteps ms hms)
          have htext := textTokens_of_ne_empty hname
          simpa [memberSteps, Step.tokens, tokensOf, htext, Value.reread, Value.replaceMembers]
            using hmember

end

/-! ## Values without names -/

section Refusals

variable {β : Type} {fuel : Nat} {p : Problem} {stop : Option Markup.Problem} {us : List Token}

theorem Refuses.typed {tag : Tag} (ht : tag.isValueType = true)
    (h : Refuses (readTyped fuel tag) p (us, stop)) :
    Refuses (readValue (fuel + 1)) p (startOf .value :: startOf tag :: us, stop) := by
  rw [readValue_succ]
  refine .start (.noText (by simp [startOf]) ?_)
  have htag : Accepts (liftM (typeOf none tag.label)) [] tag (us, stop) :=
    accepts_lift (typeOf_label rfl ht) _
  exact .token (Refuses.later htag h.bind)

/-- A value whose members all have names is taken before the rest is
refused. -/
theorem Refuses.value {f : Value → Reading β} {v : Value} (hv : v.Named)
    (hlt : (valueStep v).tokens.length < fuel) (hf : Refuses (f v.reread) p (us, stop)) :
    Refuses (readValue fuel >>= f) p ((valueStep v).tokens ++ us, stop) := by
  have hread := (readers_complete fuel).1 [] _ v.reread (us, stop) blanks_nil
    (valueForm_valueStep v hv) hlt
  exact Refuses.later hread hf

end Refusals

theorem exists_tokens_valueStep (v : Value) :
    ∃ us, (valueStep v).tokens = startOf .value :: us ∧ us ≠ [] := by
  cases v <;> exact ⟨_, rfl, by simp⟩

mutual

theorem refuses_valueStep (v : Value) (h : ¬ v.Named) (fuel : Nat) (us : List Token)
    (stop : Option Markup.Problem) (hlt : (valueStep v).tokens.length < fuel) :
    Refuses (readValue fuel) .namelessMember ((valueStep v).tokens ++ us, stop) := by
  cases fuel with
  | zero => exact absurd hlt (Nat.not_lt_zero _)
  | succ fuel =>
      cases v with
      | array items =>
          simp only [valueStep, Step.tokens, tokensOf, List.append_nil, List.cons_append,
            List.append_assoc, List.length_cons, List.length_append] at hlt ⊢
          refine .typed rfl (.start ?_)
          exact (refuses_itemSteps items h fuel _ stop (by omega)).bind
      | struct members =>
          simp only [valueStep, Step.tokens, tokensOf, List.append_nil, List.cons_append,
            List.append_assoc, List.length_cons, List.length_append] at hlt ⊢
          refine .typed rfl ?_
          exact (refuses_memberSteps members h fuel _ stop (by omega)).bind
      | _ => exact absurd trivial h

theorem refuses_itemSteps (vs : List Value) (h : ¬ Value.NamedItems vs) (fuel : Nat)
    (us : List Token) (stop : Option Markup.Problem)
    (hlt : (tokensOf (itemSteps vs)).length + 1 < fuel) :
    Refuses (readItems fuel) .namelessMember (tokensOf (itemSteps vs) ++ us, stop) := by
  cases fuel with
  | zero => exact absurd hlt (Nat.not_lt_zero _)
  | succ fuel =>
      cases vs with
      | nil => exact absurd trivial h
      | cons v vs =>
          rw [itemSteps, tokensOf, List.append_assoc]
          rw [itemSteps, tokensOf, List.length_append] at hlt
          obtain ⟨ts, hts, hne⟩ := exists_tokens_valueStep v
          have hpos : 0 < ts.length := List.length_pos_iff.mpr hne
          have hhead : ((valueStep v).tokens ++ (tokensOf (itemSteps vs) ++ us)).head?
              = some (startOf .value) := by
            rw [hts]
            rfl
          have hlen : (valueStep v).tokens.length = ts.length + 1 := by
            rw [hts, List.length_cons]
          have htrim : Accepts trim [] ()
              ((valueStep v).tokens ++ (tokensOf (itemSteps vs) ++ us), stop) :=
            accepts_trim blanks_nil hhead rfl
          refine Refuses.later htrim ?_
          refine Refuses.peek (t := startOf .value) ?_ (if_pos rfl) hhead
          by_cases hv : v.Named
          · have hvs : ¬ Value.NamedItems vs := fun hvs => h ⟨hv, hvs⟩
            have hrest := refuses_itemSteps vs hvs fuel us stop (by omega)
            exact .value hv (by omega) hrest.bind
          · exact (refuses_valueStep v hv fuel _ stop (by omega)).bind

theorem refuses_memberSteps (ms : List Member) (h : ¬ Value.NamedMembers ms) (fuel : Nat)
    (us : List Token) (stop : Option Markup.Problem)
    (hlt : (tokensOf (memberSteps ms)).length + 1 < fuel) :
    Refuses (readMembers fuel) .namelessMember (tokensOf (memberSteps ms) ++ us, stop) := by
  cases fuel with
  | zero => exact absurd hlt (Nat.not_lt_zero _)
  | succ fuel =>
      cases ms with
      | nil => exact absurd trivial h
      | cons m ms =>
          cases m with
          | mk name v =>
              simp only [memberSteps, Step.tokens, tokensOf, List.append_nil, List.cons_append,
                List.append_assoc, List.nil_append, List.length_cons, List.length_append] at hlt ⊢
              refine .started (.start ?_)
              by_cases hname : name = ""
              · subst hname
                exact .noText (by simp [endOf]) (refuses_throw _ _)
              · rw [textTokens_of_ne_empty hname]
                refine .text (.close ?_)
                by_cases hv : v.Named
                · have hms : ¬ Value.NamedMembers ms := fun hms => h ⟨hname, hv, hms⟩
                  have hrest := refuses_memberSteps ms hms fuel us stop (by omega)
                  exact .value hv (by omega) (.close hrest.bind)
                · exact (refuses_valueStep v hv fuel _ stop (by omega)).bind

end

/-! ## Documents of values -/

/-- A value whose members all have names is read as itself, but for the
numbers that texts round. -/
theorem ofSource_of_named {v : Value} (h : v.Named) :
    Value.ofSource (.ofOctets v.document) = .ok v.reread := by
  refine value_iff.mpr ⟨(valueStep v).tokens, ?_, ?_⟩
  · exact congrArg Prod.fst (tokens_document v) ▸ List.prefix_refl _
  · exact .mk (.bare .none .none) (valueForm_valueStep v h)

theorem ofSource_of_not_named {v : Value} (h : ¬ v.Named) :
    Value.ofSource (.ofOctets v.document) = .error .namelessMember := by
  have htokens := tokens_document v
  have hlen := TokenReader.length_tokens_le (TokenReader.ofSource (.ofOctets v.document))
  rw [htokens] at hlen
  have hvalue := refuses_valueStep v h _ [] none (Nat.lt_succ_of_le hlen)
  rw [List.append_nil] at hvalue
  obtain ⟨ts, hts, -⟩ := exists_tokens_valueStep v
  have hheader : Accepts readHeader [] () ((valueStep v).tokens, none) :=
    accepts_readHeader blanks_nil (by rw [hts]; rfl)
  exact run_error (Refuses.later hheader hvalue _ htokens)

/-- What is written as a value is read as that value, with moments as they are
shown and doubles as they stand in their texts, if every member has a name;
else it is an invalid request.  Moments are only cut to whole seconds if every
leap second is the last of its minute. -/
theorem ofSource_document (v : Value) (hd : v.AllDates DateTime.IsCompact) :
    (v.Named → Value.ofSource (.ofOctets v.document) = .ok v.settled) ∧
    (v.AllDates (fun d => d.time.LeapsLast) → v.settled = v.inWholeSeconds) ∧
    (¬ v.Named → ∃ p f, Value.ofSource (.ofOctets v.document) = .error p ∧
      p.toError = .fault f ∧ f.code = FaultCode.invalidRequest.number) := by
  refine ⟨?_, settled_eq_inWholeSeconds, ?_⟩
  · intro h
    rw [ofSource_of_named h, reread_eq_settled hd]
  · intro h
    exact ⟨_, _, ofSource_of_not_named h, rfl, rfl⟩

/-- A leap second inside a minute is not cut to its whole second: it is read as
the ordinary second after. -/
theorem ofSource_document_leapInside :
    let v := Value.dateTime (.utc ⟨2020, 1, 1, by decide, by decide⟩
      ⟨12, 0, 30, 1200000000, by decide, by decide, by decide, by decide⟩)
    v.AllDates DateTime.IsCompact ∧ v.Named ∧
    Value.ofSource (.ofOctets v.document)
      = .ok (.dateTime (.utc ⟨2020, 1, 1, by decide, by decide⟩
          ⟨12, 0, 31, 0, by decide, by decide, by decide, by decide⟩)) ∧
    v.inWholeSeconds
      = .dateTime (.utc ⟨2020, 1, 1, by decide, by decide⟩
          ⟨12, 0, 30, 1000000000, by decide, by decide, by decide, by decide⟩) ∧
    Value.ofSource (.ofOctets v.document) ≠ .ok v.inWholeSeconds := by
  intro v
  have hd : v.AllDates DateTime.IsCompact := ⟨rfl, by decide, by decide⟩
  have hn : v.Named := trivial
  have hread : Value.ofSource (.ofOctets v.document) = .ok v.settled := by
    rw [ofSource_of_named hn, reread_eq_settled hd]
  refine ⟨hd, hn, hread, rfl, ?_⟩
  rw [hread]
  intro h
  injection h with h
  injection h with h
  exact absurd (congrArg (fun d => d.time.second) h) (by decide)

/-- A leap second stays one, and a member without a name is refused wherever
it stands. -/
theorem ofSource_document_leapSecond :
    Value.ofSource (.ofOctets (Value.document (.struct
        [⟨"at", .dateTime (.utc ⟨2016, 12, 31, by decide, by decide⟩
          ⟨23, 59, 59, 1500000000, by decide, by decide, by decide, by decide⟩)⟩,
          ⟨"at", .array [.string " \r\x01<", .string "", .nil]⟩])))
      = .ok (.struct
        [⟨"at", .dateTime (.utc ⟨2016, 12, 31, by decide, by decide⟩
          ⟨23, 59, 59, 1000000000, by decide, by decide, by decide, by decide⟩)⟩,
          ⟨"at", .array [.string " \r\x01<", .string "", .nil]⟩]) ∧
    ∃ p f, Value.ofSource (.ofOctets (Value.document (.array [.nil, .struct [⟨"", .nil⟩]])))
      = .error p ∧ p.toError = .fault f ∧ f.code = FaultCode.invalidRequest.number := by
  refine ⟨(ofSource_document _ ?_).1 ?_, (ofSource_document _ ?_).2.2 ?_⟩
  · exact ⟨⟨rfl, by decide, by decide⟩, ⟨trivial, trivial, trivial, trivial⟩, trivial⟩
  · exact ⟨by decide, trivial, by decide, ⟨trivial, trivial, trivial, trivial⟩, trivial⟩
  · exact ⟨trivial, ⟨trivial, trivial⟩, trivial⟩
  · exact fun h => h.2.1.1 rfl

end Document

end XmlRpc
