/-
# Documents sent on

A value that was received is written again as it is, unless a member of it has
no name.  Such a member is read where its name is a CDATA section without
content, and is refused where it is written (`ofSource_relay`):

    names given         the value read back stays what it is from then on,
                        and so does its document
    a name missing      the document is an invalid request

A moment that four digits of a year hold, and a double, are written as what is
read back of them is, so even the first document is the one that stays.
-/
import XmlRpc.Proofs.Binary.Settling
import XmlRpc.Proofs.Document.Moments
import XmlRpc.Proofs.Markup.EmptyText

namespace XmlRpc

namespace Value

/-! ## Values that were read back -/

theorem reread_reread (v : Value) : v.reread.reread = v.reread :=
  replace_replace Binary.reread_reread DateTime.reread_reread v

theorem named_reread {v : Value} : v.reread.Named ↔ v.Named := named_replace v

/-- What is read where a value is written, read and written so many times. -/
def relay : Nat → Value → Except Document.Problem Value
  | 0, v => .ok v
  | n + 1, v => do
    let back ← Value.ofSource (.ofOctets v.document)
    relay n back

theorem relay_of_named {v : Value} (h : v.Named) (n : Nat) : v.relay (n + 1) = .ok v.reread := by
  induction n generalizing v with
  | zero =>
      rw [relay, Document.ofSource_of_named h]
      rfl
  | succ n ih =>
      rw [relay, Document.ofSource_of_named h]
      show v.reread.relay (n + 1) = _
      rw [ih (named_reread.mpr h), reread_reread]

end Value

namespace Document

open Markup (Token TokenReader emptySection)

/-! ## Documents of what is read back -/

mutual

theorem valueStep_reread (v : Value) (h : v.AllDates DateTime.InFourDigits) :
    valueStep v.reread = valueStep v := by
  cases v with
  | double x =>
      show Step.element .value [.raw .double x.reread.toText] = _
      rw [Binary.toText_reread]
      rfl
  | dateTime d =>
      show Step.element .value [.raw .dateTime (Calendar.compactText d.reread)] = _
      rw [DateTime.compactText_reread h]
      rfl
  | array items =>
      exact congrArg (fun ss => Step.element .value [.element .array [.element .data ss]])
        (itemSteps_reread items h)
  | struct members =>
      exact congrArg (fun ss => Step.element .value [.element .struct ss])
        (memberSteps_reread members h)
  | _ => rfl

theorem itemSteps_reread (vs : List Value) (h : Value.AllDatesItems DateTime.InFourDigits vs) :
    itemSteps (Value.replaceItems Binary.reread DateTime.reread vs) = itemSteps vs := by
  cases vs with
  | nil => rfl
  | cons v vs => exact congrArg₂ List.cons (valueStep_reread v h.1) (itemSteps_reread vs h.2)

theorem memberSteps_reread (ms : List Member)
    (h : Value.AllDatesMembers DateTime.InFourDigits ms) :
    memberSteps (Value.replaceMembers Binary.reread DateTime.reread ms) = memberSteps ms := by
  cases ms with
  | nil => rfl
  | cons m ms =>
      cases m with
      | mk name v =>
          rw [Value.replaceMembers, memberSteps, memberSteps, memberSteps_reread ms h.2]
          exact congrArg
            (fun s => Step.element .member [.text .name name.toList, s] :: memberSteps ms)
            (valueStep_reread v h.1)

end

theorem document_reread {v : Value} (h : v.AllDates DateTime.InFourDigits) :
    v.reread.document = v.document := by
  rw [Value.document, Value.document, valueStep_reread v h]

/-! ## Names of nothing -/

theorem named_of_scalar {tag : Tag} {text : String} {v : Value} (h : scalar tag text = .ok v) :
    v.Named := by
  unfold scalar at h
  split at h
  · cases h
    trivial
  · split at h <;> cases h
    trivial
  · split at h <;> cases h
    trivial
  · split at h <;> cases h
    trivial
  · split at h <;> cases h
    trivial
  · split at h <;> cases h
    trivial
  · cases h
    trivial
  · cases h

mutual

/-- A value has all its names if it is read where no text of nothing is. -/
theorem ValueForm.named (v : Value) {ts : List Token} (h : ValueForm ts v)
    (hts : Token.text "" ∉ ts) : v.Named := by
  cases v with
  | array items =>
      cases h with
      | typed _ htyped _ =>
          cases htyped with
          | scalar _ _ hscalar => exact named_of_scalar hscalar
          | array _ hitems _ _ => exact hitems.named items fun h => hts (by simp [h])
  | struct members =>
      cases h with
      | typed _ htyped _ =>
          cases htyped with
          | scalar _ _ hscalar => exact named_of_scalar hscalar
          | struct hmembers _ => exact hmembers.named members fun h => hts (by simp [h])
  | _ => trivial

theorem ItemsForm.named (vs : List Value) {ts : List Token} (h : ItemsForm ts vs)
    (hts : Token.text "" ∉ ts) : Value.NamedItems vs := by
  cases vs with
  | nil => trivial
  | cons v vs =>
      cases h with
      | cons _ hv hvs =>
          exact ⟨hv.named v fun h => hts (by simp [h]), hvs.named vs fun h => hts (by simp [h])⟩

theorem MembersForm.named (ms : List Member) {ts : List Token} (h : MembersForm ts ms)
    (hts : Token.text "" ∉ ts) : Value.NamedMembers ms := by
  cases ms with
  | nil => trivial
  | cons m ms =>
      cases h with
      | @cons _ _ _ _ _ _ name v _ _ _ _ hv _ hms =>
          refine ⟨?_, hv.named v fun h => hts (by simp [h]),
            hms.named ms fun h => hts (by simp [h])⟩
          rintro rfl
          exact hts (by simp)

end

theorem named_of_ofSource {source : Source} {v : Value} (h : Value.ofSource source = .ok v)
    (hempty : ¬ emptySection <:+: source.octets) : v.Named := by
  obtain ⟨_, htaken, hform⟩ := value_iff.mp h
  cases hform with
  | mk _ hv =>
      refine hv.named v ?_
      intro hmem
      exact hempty (Markup.emptySection_of_mem_tokens
        (htaken.subset (List.mem_append_right _ hmem)))

/-! ## Values sent on -/

/-- What is read is written so that it is read again, and stays what is read then,
if every member has a name; else it is written as an invalid request.  It has
its names unless a CDATA section without content stands in the source. -/
theorem ofSource_relay {source : Source} {v : Value} (h : Value.ofSource source = .ok v) :
    (¬ emptySection <:+: source.octets → v.Named) ∧
    (v.Named → ∃ back, (∀ n, v.relay (n + 1) = .ok back) ∧
      (v.AllDates DateTime.InFourDigits → back.document = v.document)) ∧
    (¬ v.Named → ∃ p f, Value.ofSource (.ofOctets v.document) = .error p ∧
      p.toError = .fault f ∧ f.code = FaultCode.invalidRequest.number) := by
  refine ⟨named_of_ofSource h, ?_, ?_⟩
  · intro hnamed
    exact ⟨v.reread, Value.relay_of_named hnamed, document_reread⟩
  · intro hnamed
    exact ⟨_, _, ofSource_of_not_named hnamed, rfl, rfl⟩

/-- A member whose name is a section without content is read, and refused where it
is sent on. -/
theorem ofSource_relay_nameless :
    let source := Source.ofOctets (Utf8.encode ("<value><struct><member>".toList ++
      "<name><![CDATA[]]></name><value></value></member></struct></value>".toList))
    let v : Value := .struct [⟨"", .nil⟩]
    Value.ofSource source = .ok v ∧
      ∃ p f, Value.ofSource (.ofOctets v.document) = .error p ∧
        p.toError = .fault f ∧ f.code = FaultCode.invalidRequest.number := by
  intro source v
  let closing : List Token := [endOf .name, startOf .value, endOf .value, endOf .member,
    endOf .struct, endOf .value]
  let tokens : List Token := startOf .value :: startOf .struct :: startOf .member ::
    startOf .name :: .text "" :: closing
  have hname : Markup.TextRenders "".toList "<![CDATA[]]>".toList :=
    .one (@Markup.PartRenders.cdata [] (by decide))
  have hclosing := renders_close .name (renders_open .value (renders_close .value
    (renders_close .member (renders_close .struct (renders_close .value .nil)))))
  have hrenders := renders_open .value (renders_open .struct (renders_open .member
    (renders_open .name (.text hname hclosing))))
  have hseparate : Markup.Separate tokens := by
    have hclosing : Markup.Separate closing := by
      intro s t h
      exact absurd (h.subset List.mem_cons_self) (by simp [closing, startOf, endOf])
    have htext : Markup.Separate (.text "" :: closing) :=
      separate_cons_startsApart hclosing (by simp [StartsApart, closing, endOf])
    exact Markup.separate_cons_of_ne (by simp [startOf]) (Markup.separate_cons_of_ne
      (by simp [startOf]) (Markup.separate_cons_of_ne (by simp [startOf])
        (Markup.separate_cons_of_ne (by simp [startOf]) htext)))
  have hnested : Markup.WellNested [] tokens := ⟨rfl, rfl, rfl, rfl, rfl, trivial⟩
  have hsource : (TokenReader.ofSource source).tokens = (tokens, none) :=
    (Markup.tokens_encode (by decide)).trans
      (Markup.tokens_renders hrenders [] none hnested hseparate (by simp))
  have hform : DocumentForm ValueForm tokens v := .mk (.bare .none .none)
    (.typed .none (.struct (.cons .none .none .none .nil .none .nil) .none) .none)
  have hread : Value.ofSource source = .ok v :=
    (run_iff (fun _ _ _ _ => readBareValue_sound) (fun _ _ _ _ => accepts_readBareValue)
      _ _).mpr ⟨tokens, by rw [hsource], hform⟩
  exact ⟨hread, (ofSource_relay hread).2.2 fun h => h.1 rfl⟩

end Document

end XmlRpc
