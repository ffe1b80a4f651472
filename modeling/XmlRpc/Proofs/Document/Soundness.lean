/-
# What is read is in the grammar

Whenever a reader succeeds, the tokens it has taken have the form that the
grammar prescribes, and its result is what they denote.  The readers of lists
stop behind blanks that belong to what comes next, so their statements give
these blanks too.

That texts are as long as they can be is what makes the blanks of two
neighbouring steps one text at most.
-/
import Mathlib.Data.List.TakeWhile
import XmlRpc.Proofs.Document.Steps

namespace XmlRpc

namespace Document

open Markup (Token TokenReader Stream Separate)

variable {r r' : TokenReader}

theorem Ws.append {w₁ w₂ : List Token} (h₁ : Ws w₁) (h₂ : Ws w₂) (hs : Separate (w₁ ++ w₂)) :
    Ws (w₁ ++ w₂) := (h₁.blanks.append h₂.blanks).ws hs

theorem Ws.eq_nil_of_text {s : String} {w : List Token} (h : Ws w)
    (hs : Separate (.text s :: w)) : w = [] := by
  cases h with
  | none => rfl
  | blank _ => exact absurd ⟨[], [], rfl⟩ (hs s _)

theorem Ws.eq_nil_of_head {w : List Token} {ts : List Token} (h : Ws w)
    (ht : ∀ s, (w ++ ts).head? ≠ some (.text s)) : w = [] := by
  cases h with
  | none => rfl
  | blank _ => exact absurd rfl (ht _)

theorem separate_rest {ts : List Token} (hs : Separate r.tokens.1)
    (h : r.tokens = Stream.after ts r'.tokens) : Separate r'.tokens.1 :=
  hs.of_infix (by rw [h]; exact (List.suffix_append ts _).isInfix)

theorem separate_taken {ts us : List Token} (hs : Separate r.tokens.1)
    (h : r.tokens = Stream.after (ts ++ us) r'.tokens) : Separate ts := by
  refine hs.of_infix ⟨[], us ++ r'.tokens.1, ?_⟩
  rw [h]
  simp

theorem separate_inside {ts us vs : List Token} (hs : Separate r.tokens.1)
    (h : r.tokens = Stream.after (us ++ (ts ++ vs)) r'.tokens) : Separate ts := by
  refine hs.of_infix ⟨us, vs ++ r'.tokens.1, ?_⟩
  rw [h]
  simp

/-! ## Scalars -/

theorem isBlank_of_trim {cs : List Char} (h : (Blank.trim cs).isEmpty = true) :
    Blank.isBlank cs = true := by
  rw [List.isEmpty_iff, Blank.trim, List.reverse_eq_nil_iff, List.dropWhile_eq_nil_iff] at h
  rw [Blank.isBlank, List.all_eq_true]
  intro c hc
  have hall := List.all_takeWhile (p := Blank.isUnicode) (l := cs)
  rw [List.all_eq_true] at hall
  rw [← List.takeWhile_append_dropWhile (p := Blank.isUnicode) (l := cs), List.mem_append] at hc
  rcases hc with hc | hc
  · exact hall c hc
  · exact h c (List.mem_reverse.mpr hc)

theorem label_of_ofLabel? {name : String} {tag : Tag} (h : Tag.ofLabel? name = some tag) :
    name = tag.label := by
  have := List.find?_some h
  exact (beq_iff_eq.mp this).symm

theorem typeOf_sound {text : Option String} {name : String} {tag : Tag}
    (h : typeOf text name = .ok tag) :
    Blank.isBlank (text.getD "").toList = true ∧ name = tag.label ∧ tag.isValueType = true := by
  simp only [typeOf] at h
  split at h
  · rename_i hb
    refine ⟨isBlank_of_trim hb, ?_⟩
    split at h
    · rename_i tag' ht
      cases h
      obtain ⟨hl, hv⟩ := Option.filter_eq_some_iff.mp ht
      exact ⟨label_of_ofLabel? hl, hv⟩
    · cases h
  · cases h

theorem isValueType_iff (tag : Tag) :
    tag.isValueType = true ↔ tag ∈ scalarTags ∨ tag = .array ∨ tag = .struct := by
  cases tag <;> decide

theorem readTyped_scalar (fuel : Nat) {tag : Tag} (h : tag ∈ scalarTags) :
    readTyped fuel tag = readScalar tag := by
  cases tag with
  | array => exact absurd h (by decide)
  | struct => exact absurd h (by decide)
  | _ => rfl

/-- A text that may be missing, and the end tag behind it.  There are no
blanks of their own between them. -/
theorem optionalText_sound {tag : Tag} {text : Option String} {r₁ : TokenReader}
    (hs : Separate r.tokens.1) (h₁ : readText r = .ok text r₁)
    (h₂ : expectEnd tag r₁ = .ok () r') :
    ∃ ts, OptionalText ts (text.getD "") ∧
      r.tokens = Stream.after (ts ++ [endOf tag]) r'.tokens := by
  cases text with
  | some s =>
      have ht₁ := readText_some_sound h₁
      obtain ⟨w, hw, ht₂⟩ := expectEnd_sound (separate_rest hs ht₁) h₂
      rw [ht₂, Stream.after_after] at ht₁
      have hnil := hw.eq_nil_of_text (separate_taken hs ht₁)
      subst hnil
      exact ⟨[.text s], .text s, ht₁⟩
  | none =>
      obtain ⟨ht₁, hhead⟩ := readText_none_sound h₁
      obtain ⟨w, hw, ht₂⟩ := expectEnd_sound (ht₁ ▸ hs) h₂
      rw [ht₁] at ht₂
      rw [ht₂, Stream.after_fst, List.append_assoc] at hhead
      have hnil := hw.eq_nil_of_head hhead
      subst hnil
      exact ⟨[], .none, ht₂⟩

theorem readScalar_sound {tag : Tag} {v : Value} (hs : Separate r.tokens.1)
    (h : readScalar tag r = .ok v r') :
    ∃ ts s, OptionalText ts s ∧ scalar tag s = .ok v ∧
      r.tokens = Stream.after (ts ++ [endOf tag]) r'.tokens := by
  obtain ⟨text, r₁, h₁, h⟩ := bind_eq_ok h
  obtain ⟨_, r₂, h₂, h⟩ := bind_eq_ok h
  obtain ⟨hv, rfl⟩ := lift_eq_ok h
  obtain ⟨ts, hts, ht⟩ := optionalText_sound hs h₁ h₂
  exact ⟨ts, _, hts, hv, ht⟩

/-! ## Values -/

/-- A reader of values takes only values. -/
def ValueSound (m : Reading Value) : Prop :=
  ∀ r v r', Separate r.tokens.1 → m r = .ok v r' →
    ∃ w ts, Ws w ∧ ValueForm ts v ∧ r.tokens = Stream.after (w ++ ts) r'.tokens

def ItemsSound (m : Reading (List Value)) : Prop :=
  ∀ r vs r', Separate r.tokens.1 → m r = .ok vs r' →
    ∃ ts w, ItemsForm ts vs ∧ Ws w ∧ r.tokens = Stream.after (ts ++ w) r'.tokens

def MembersSound (m : Reading (List Member)) : Prop :=
  ∀ r ms r', Separate r.tokens.1 → m r = .ok ms r' →
    ∃ ts w, MembersForm ts ms ∧ Ws w ∧ r.tokens = Stream.after (ts ++ w) r'.tokens

variable {fuel : Nat}

theorem itemsSound_succ (hv : ValueSound (readValue fuel)) (hi : ItemsSound (readItems fuel)) :
    ItemsSound (readItems (fuel + 1)) := by
  intro r vs r' hs h
  rw [readItems] at h
  obtain ⟨w, t, r₁, hw, ht₁, hp, h⟩ := trim_next_sound hs h
  split at h
  · split at h
    · obtain ⟨_, r₂, h₂, h⟩ := bind_eq_ok h
      obtain ⟨v, r₃, h₃, h⟩ := bind_eq_ok h
      obtain ⟨us, r₄, h₄, h⟩ := bind_eq_ok h
      obtain ⟨rfl, rfl⟩ := pure_eq_ok h
      -- the start tag is back in place, with blanks before it
      have ht₂ : r.tokens = Stream.after w r₂.tokens := by
        rw [ht₁, unread_sound hp h₂, Stream.after_after]
      have hs₂ := separate_rest hs ht₂
      obtain ⟨w', ts, hw', hts, ht₃⟩ := hv r₂ v r₃ hs₂ h₃
      obtain ⟨us', w₂, hus, hw₂, ht₄⟩ := hi r₃ us r₄ (separate_rest hs₂ ht₃) h₄
      have ht : r.tokens = Stream.after ((w ++ w') ++ (ts ++ us' ++ w₂)) r₄.tokens := by
        rw [ht₂, ht₃, ht₄]
        simp [Stream.after_after]
      have hww := hw.append hw' (separate_taken hs ht)
      exact ⟨w ++ w' ++ (ts ++ us'), w₂, .cons hww hts hus, hw₂, ht.trans (by simp)⟩
    · cases h
  · obtain ⟨_, r₂, h₂, h⟩ := bind_eq_ok h
    obtain ⟨rfl, rfl⟩ := pure_eq_ok h
    refine ⟨[], w, .nil, hw, ?_⟩
    rw [ht₁, unread_sound hp h₂, Stream.after_after]
    rfl

theorem membersSound_succ (hv : ValueSound (readValue fuel))
    (hm : MembersSound (readMembers fuel)) : MembersSound (readMembers (fuel + 1)) := by
  intro r ms r' hs h
  rw [readMembers] at h
  obtain ⟨b, r₁, h₁, h⟩ := bind_eq_ok h
  cases b with
  | false =>
      obtain ⟨rfl, rfl⟩ := pure_eq_ok h
      obtain ⟨w, hw, ht₁⟩ := nextStartIs_false_sound hs h₁
      exact ⟨[], w, .nil, hw, ht₁⟩
  | true =>
      obtain ⟨w₁, hw₁, ht₁⟩ := nextStartIs_true_sound hs h₁
      have hs₁ := separate_rest hs ht₁
      obtain ⟨_, r₂, h₂, h⟩ := bind_eq_ok h
      obtain ⟨w₂, hw₂, ht₂⟩ := expectStart_sound hs₁ h₂
      have hs₂ := separate_rest hs₁ ht₂
      obtain ⟨text, r₃, h₃, h⟩ := bind_eq_ok h
      cases text with
      | none => cases h
      | some name =>
          have ht₃ := readText_some_sound h₃
          have hs₃ := separate_rest hs₂ ht₃
          obtain ⟨_, r₄, h₄, h⟩ := bind_eq_ok h
          obtain ⟨w, hw, ht₄⟩ := expectEnd_sound hs₃ h₄
          have hs₄ := separate_rest hs₃ ht₄
          obtain ⟨v, r₅, h₅, h⟩ := bind_eq_ok h
          obtain ⟨w₃, ts, hw₃, hts, ht₅⟩ := hv r₄ v r₅ hs₄ h₅
          have hs₅ := separate_rest hs₄ ht₅
          obtain ⟨_, r₆, h₆, h⟩ := bind_eq_ok h
          obtain ⟨w₄, hw₄, ht₆⟩ := expectEnd_sound hs₅ h₆
          obtain ⟨ms', r₇, h₇, h⟩ := bind_eq_ok h
          obtain ⟨rfl, rfl⟩ := pure_eq_ok h
          obtain ⟨us, w₅, hus, hw₅, ht₇⟩ := hm r₆ ms' r₇ (separate_rest hs₅ ht₆) h₇
          -- no blanks behind the name, which is a text itself
          rw [ht₄, Stream.after_after] at ht₃
          have hnil := hw.eq_nil_of_text (separate_taken hs₂ ht₃)
          subst hnil
          refine ⟨_, w₅, .cons hw₁ hw₂ hw₃ hts hw₄ hus, hw₅, ?_⟩
          rw [ht₁, ht₂, ht₃, ht₅, ht₆, ht₇]
          simp [Stream.after_after]

theorem typed_sound (hi : ItemsSound (readItems fuel)) (hm : MembersSound (readMembers fuel))
    {tag : Tag} (ht : tag.isValueType = true) {v : Value} (hs : Separate r.tokens.1)
    (h : readTyped fuel tag r = .ok v r') :
    ∃ ts, TypedForm (startOf tag :: ts) v ∧ r.tokens = Stream.after ts r'.tokens := by
  rcases (isValueType_iff tag).mp ht with htag | rfl | rfl
  · rw [readTyped_scalar fuel htag] at h
    obtain ⟨ts, s, hts, hv, ht₁⟩ := readScalar_sound hs h
    exact ⟨_, .scalar htag hts hv, ht₁⟩
  · obtain ⟨_, r₁, h₁, h⟩ := bind_eq_ok h
    obtain ⟨w₁, hw₁, ht₁⟩ := expectStart_sound hs h₁
    have hs₁ := separate_rest hs ht₁
    obtain ⟨vs, r₂, h₂, h⟩ := bind_eq_ok h
    obtain ⟨ts, w₂, hts, hw₂, ht₂⟩ := hi r₁ vs r₂ hs₁ h₂
    have hs₂ := separate_rest hs₁ ht₂
    obtain ⟨_, r₃, h₃, h⟩ := bind_eq_ok h
    obtain ⟨w₂', hw₂', ht₃⟩ := expectEnd_sound hs₂ h₃
    obtain ⟨_, r₄, h₄, h⟩ := bind_eq_ok h
    obtain ⟨w₃, hw₃, ht₄⟩ := expectEnd_sound (separate_rest hs₂ ht₃) h₄
    obtain ⟨rfl, rfl⟩ := pure_eq_ok h
    have hr₁ : r₁.tokens = Stream.after (ts ++ (w₂ ++ w₂' ++ [endOf .data])) r₃.tokens := by
      rw [ht₂, ht₃]
      simp [Stream.after_after]
    have hww := hw₂.append hw₂' (separate_inside hs₁ hr₁)
    refine ⟨_, .array hw₁ hts hww hw₃, ?_⟩
    rw [ht₁, hr₁, ht₄]
    simp [Stream.after_after]
  · obtain ⟨ms, r₁, h₁, h⟩ := bind_eq_ok h
    obtain ⟨ts, w, hts, hw, ht₁⟩ := hm r ms r₁ hs h₁
    obtain ⟨_, r₂, h₂, h⟩ := bind_eq_ok h
    obtain ⟨w', hw', ht₂⟩ := expectEnd_sound (separate_rest hs ht₁) h₂
    obtain ⟨rfl, rfl⟩ := pure_eq_ok h
    have hr : r.tokens = Stream.after (ts ++ (w ++ w' ++ [endOf .struct])) r₂.tokens := by
      rw [ht₁, ht₂]
      simp [Stream.after_after]
    have hww := hw.append hw' (separate_inside hs hr)
    exact ⟨_, .struct hts hww, hr⟩

theorem body_sound (hi : ItemsSound (readItems fuel)) (hm : MembersSound (readMembers fuel))
    {text : Option String} {ts : List Token} {t : Token} {v : Value}
    (htext : text = none ∧ ts = [] ∨ ∃ s, text = some s ∧ ts = [.text s])
    (hs : Separate r.tokens.1) (h : readBody fuel text t r = .ok v r') :
    ∃ us, ValueForm (startOf .value :: (ts ++ t :: us)) v ∧
      r.tokens = Stream.after us r'.tokens := by
  cases t with
  | endTag name =>
      by_cases hname : name = Tag.value.label
      · rw [readBody, if_pos hname] at h
        subst hname
        rcases htext with ⟨rfl, rfl⟩ | ⟨s, rfl, rfl⟩
        · cases h
          exact ⟨[], .nil, rfl⟩
        · cases h
          exact ⟨[], .text s, rfl⟩
      · rw [readBody, if_neg hname] at h
        cases h
  | startTag name =>
      obtain ⟨tag, r₁, h₁, hrest⟩ := bind_eq_ok h
      obtain ⟨htype, rfl⟩ := lift_eq_ok h₁
      obtain ⟨hb, rfl, htag⟩ := typeOf_sound htype
      have hw₁ : Ws ts := by
        rcases htext with ⟨rfl, rfl⟩ | ⟨s, rfl, rfl⟩
        · exact .none
        · exact .blank hb
      obtain ⟨v', r₂, h₂, hrest⟩ := bind_eq_ok hrest
      obtain ⟨us, hus, ht₂⟩ := typed_sound hi hm htag hs h₂
      obtain ⟨_, r₃, h₃, hrest⟩ := bind_eq_ok hrest
      obtain ⟨w₂, hw₂, ht₃⟩ := expectEnd_sound (separate_rest hs ht₂) h₃
      obtain ⟨rfl, rfl⟩ := pure_eq_ok hrest
      refine ⟨us ++ (w₂ ++ [endOf .value]), .typed hw₁ hus hw₂, ?_⟩
      rw [ht₂, ht₃, Stream.after_after]
  | text s => cases h
  | declaration => cases h

theorem valueSound_succ (hi : ItemsSound (readItems fuel)) (hm : MembersSound (readMembers fuel)) :
    ValueSound (readValue (fuel + 1)) := by
  intro r v r' hs h
  rw [readValue_succ] at h
  obtain ⟨_, r₁, h₁, h⟩ := bind_eq_ok h
  obtain ⟨w, hw, ht₁⟩ := expectStart_sound hs h₁
  have hs₁ := separate_rest hs ht₁
  obtain ⟨text, r₂, h₂, h⟩ := bind_eq_ok h
  have htext : ∃ ts, r₁.tokens = Stream.after ts r₂.tokens ∧
      (text = none ∧ ts = [] ∨ ∃ s, text = some s ∧ ts = [.text s]) := by
    cases text with
    | none => exact ⟨[], (readText_none_sound h₂).1.symm, .inl ⟨rfl, rfl⟩⟩
    | some s => exact ⟨[.text s], readText_some_sound h₂, .inr ⟨s, rfl, rfl⟩⟩
  obtain ⟨ts, ht₂, htext⟩ := htext
  have hs₂ := separate_rest hs₁ ht₂
  obtain ⟨t, r₃, h₃, h⟩ := bind_eq_ok h
  have ht₃ := (next_sound h₃).1
  obtain ⟨us, hus, ht₄⟩ := body_sound hi hm htext (separate_rest hs₂ ht₃) h
  refine ⟨w, _, hw, hus, ?_⟩
  rw [ht₁, ht₂, ht₃, ht₄]
  simp [Stream.after_after]

/-- By induction on the fuel, all three readers at once. -/
theorem readers_sound (fuel : Nat) :
    ValueSound (readValue fuel) ∧ ItemsSound (readItems fuel) ∧
      MembersSound (readMembers fuel) := by
  induction fuel with
  | zero =>
      refine ⟨?_, ?_, ?_⟩
      all_goals
        intro r a r' _ h
        cases h
  | succ fuel ih =>
      obtain ⟨hv, hi, hm⟩ := ih
      exact ⟨valueSound_succ hi hm, itemsSound_succ hv hi, membersSound_succ hv hm⟩

/-! ## Envelopes -/

theorem readHeader_sound (hs : Separate r.tokens.1) (h : readHeader r = .ok () r') :
    ∃ w, Ws w ∧ (r.tokens = Stream.after w r'.tokens ∨
      r.tokens = Stream.after (w ++ [.declaration]) r'.tokens) := by
  obtain ⟨_, r₁, h₁, h⟩ := bind_eq_ok h
  obtain ⟨w, hw, ht₁⟩ := trim_sound hs h₁
  obtain ⟨o, r₂, h₂, h⟩ := bind_eq_ok h
  refine ⟨w, hw, ?_⟩
  split at h
  · obtain ⟨-, rfl⟩ := pure_eq_ok h
    obtain ⟨he₁, he₂⟩ := read_none_sound h₂
    exact .inl (by rw [ht₁, he₁, he₂])
  · obtain ⟨-, rfl⟩ := pure_eq_ok h
    exact .inr (by rw [ht₁, (read_sound h₂).1, Stream.after_after])
  · obtain ⟨ht₂, hp₂⟩ := read_sound h₂
    exact .inl (by rw [ht₁, ht₂, unread_sound hp₂ h])

theorem document_sound {α : Type} {Root : List Token → α → Prop} {a : α} {r₀ r₁ : TokenReader}
    {w ts : List Token} (hs : Separate r₀.tokens.1) (h₀ : readHeader r₀ = .ok () r)
    (hw : Ws w) (hts : Root ts a) (hr : r.tokens = Stream.after (w ++ ts) r₁.tokens) :
    ∃ us, DocumentForm Root us a ∧ r₀.tokens = Stream.after us r₁.tokens := by
  obtain ⟨w₀, hw₀, ht | ht⟩ := readHeader_sound hs h₀
  · refine ⟨_, .mk (.bare hw₀ hw) hts, ?_⟩
    rw [ht, hr]
    simp [Stream.after_after]
  · refine ⟨_, .mk (.declared hw₀ hw) hts, ?_⟩
    rw [ht, hr]
    simp [Stream.after_after]

theorem readBareValue_sound {v : Value} (hs : Separate r.tokens.1)
    (h : readBareValue fuel r = .ok v r') :
    ∃ ts, DocumentForm ValueForm ts v ∧ r.tokens = Stream.after ts r'.tokens := by
  obtain ⟨_, r₁, h₁, h⟩ := bind_eq_ok h
  have hs₁ : Separate r₁.tokens.1 := by
    obtain ⟨w, -, ht | ht⟩ := readHeader_sound hs h₁
    · exact separate_rest hs ht
    · exact separate_rest hs ht
  obtain ⟨w, ts, hw, hts, ht⟩ := (readers_sound fuel).1 r₁ v r' hs₁ h
  exact document_sound hs h₁ hw hts ht

theorem readParamList_sound (valueFuel : Nat) :
    ∀ (fuel : Nat) (r : TokenReader) (vs : Params) (r' : TokenReader), Separate r.tokens.1 →
      readParamList valueFuel fuel r = .ok vs r' →
      ∃ ts w, ParamListForm ts vs ∧ Ws w ∧ r.tokens = Stream.after (ts ++ w) r'.tokens := by
  intro fuel
  induction fuel with
  | zero =>
      intro r vs r' _ h
      cases h
  | succ fuel ih =>
      intro r vs r' hs h
      rw [readParamList] at h
      obtain ⟨b, r₁, h₁, h⟩ := bind_eq_ok h
      cases b with
      | false =>
          obtain ⟨rfl, rfl⟩ := pure_eq_ok h
          obtain ⟨w, hw, ht₁⟩ := nextStartIs_false_sound hs h₁
          exact ⟨[], w, .nil, hw, ht₁⟩
      | true =>
          obtain ⟨w₁, hw₁, ht₁⟩ := nextStartIs_true_sound hs h₁
          have hs₁ := separate_rest hs ht₁
          obtain ⟨v, r₂, h₂, h⟩ := bind_eq_ok h
          obtain ⟨w₂, ts, hw₂, hts, ht₂⟩ := (readers_sound valueFuel).1 r₁ v r₂ hs₁ h₂
          have hs₂ := separate_rest hs₁ ht₂
          obtain ⟨_, r₃, h₃, h⟩ := bind_eq_ok h
          obtain ⟨w₃, hw₃, ht₃⟩ := expectEnd_sound hs₂ h₃
          obtain ⟨vs', r₄, h₄, h⟩ := bind_eq_ok h
          obtain ⟨rfl, rfl⟩ := pure_eq_ok h
          obtain ⟨us, w₄, hus, hw₄, ht₄⟩ := ih r₃ vs' r₄ (separate_rest hs₂ ht₃) h₄
          refine ⟨_, w₄, .cons hw₁ hw₂ hts hw₃ hus, hw₄, ?_⟩
          rw [ht₁, ht₂, ht₃, ht₄]
          simp [Stream.after_after]

theorem readParams_sound {vs : Params} (hs : Separate r.tokens.1)
    (h : readParams fuel r = .ok vs r') :
    ∃ ts, ParamsForm (startOf .params :: ts) vs ∧ r.tokens = Stream.after ts r'.tokens := by
  obtain ⟨vs', r₁, h₁, h⟩ := bind_eq_ok h
  obtain ⟨ts, w, hts, hw, ht₁⟩ := readParamList_sound fuel fuel r vs' r₁ hs h₁
  obtain ⟨_, r₂, h₂, h⟩ := bind_eq_ok h
  obtain ⟨w', hw', ht₂⟩ := expectEnd_sound (separate_rest hs ht₁) h₂
  obtain ⟨rfl, rfl⟩ := pure_eq_ok h
  have hr : r.tokens = Stream.after (ts ++ (w ++ w' ++ [endOf .params])) r₂.tokens := by
    rw [ht₁, ht₂]
    simp [Stream.after_after]
  exact ⟨_, .mk hts (hw.append hw' (separate_inside hs hr)), hr⟩

theorem readOptionalParams_sound {vs : Params} (hs : Separate r.tokens.1)
    (h : readOptionalParams fuel r = .ok vs r') :
    ∃ ts w, OptionalParams ts vs ∧ Ws w ∧ r.tokens = Stream.after (ts ++ w) r'.tokens := by
  obtain ⟨b, r₁, h₁, h⟩ := bind_eq_ok h
  cases b with
  | false =>
      obtain ⟨rfl, rfl⟩ := pure_eq_ok h
      obtain ⟨w, hw, ht₁⟩ := nextStartIs_false_sound hs h₁
      exact ⟨[], w, .none, hw, ht₁⟩
  | true =>
      obtain ⟨w, hw, ht₁⟩ := nextStartIs_true_sound hs h₁
      obtain ⟨ts, hts, ht₂⟩ := readParams_sound (separate_rest hs ht₁) h
      refine ⟨_, [], .params hw hts, .none, ?_⟩
      rw [ht₁, ht₂]
      simp [Stream.after_after]

theorem readCall_sound {c : Call} (hs : Separate r.tokens.1)
    (h : readCall fuel r = .ok c r') :
    ∃ ts, DocumentForm CallForm ts c ∧ r.tokens = Stream.after ts r'.tokens := by
  rw [readCall_eq] at h
  obtain ⟨_, r₀, h₀, h⟩ := bind_eq_ok h
  have hs₀ : Separate r₀.tokens.1 := by
    obtain ⟨w, -, ht | ht⟩ := readHeader_sound hs h₀
    · exact separate_rest hs ht
    · exact separate_rest hs ht
  obtain ⟨_, r₁, h₁, h⟩ := bind_eq_ok h
  obtain ⟨w, hw, ht₁⟩ := expectStart_sound hs₀ h₁
  have hs₁ := separate_rest hs₀ ht₁
  obtain ⟨_, r₂, h₂, h⟩ := bind_eq_ok h
  obtain ⟨w₁, hw₁, ht₂⟩ := expectStart_sound hs₁ h₂
  have hs₂ := separate_rest hs₁ ht₂
  obtain ⟨method, r₃, h₃, h⟩ := bind_eq_ok h
  obtain ⟨_, r₄, h₄, h⟩ := bind_eq_ok h
  obtain ⟨ts, hts, ht₄⟩ := optionalText_sound hs₂ h₃ h₄
  have hs₄ := separate_rest hs₂ ht₄
  obtain ⟨params, r₅, h₅, h⟩ := bind_eq_ok h
  obtain ⟨ps, w₂, hps, hw₂, ht₅⟩ := readOptionalParams_sound hs₄ h₅
  obtain ⟨_, r₆, h₆, h⟩ := bind_eq_ok h
  obtain ⟨w₂', hw₂', ht₆⟩ := expectEnd_sound (separate_rest hs₄ ht₅) h₆
  obtain ⟨rfl, rfl⟩ := pure_eq_ok h
  have hr₄ : r₄.tokens = Stream.after (ps ++ (w₂ ++ w₂' ++ [endOf .methodCall])) r₆.tokens := by
    rw [ht₅, ht₆]
    simp [Stream.after_after]
  have hww := hw₂.append hw₂' (separate_inside hs₄ hr₄)
  refine document_sound hs h₀ hw (.mk hw₁ hts hps hww) ?_
  rw [ht₁, ht₂, ht₄, hr₄]
  simp [Stream.after_after]

theorem readFault_sound {a : Response} (hs : Separate r.tokens.1)
    (h : readFault fuel r = .ok a r') :
    ∃ w₁ w₂ ts w₃ v, a = ⟨[], v⟩ ∧ v.kind = .struct ∧ Ws w₁ ∧ Ws w₂ ∧ ValueForm ts v ∧ Ws w₃ ∧
      r.tokens = Stream.after (w₁ ++ startOf .fault :: (w₂ ++ (ts ++ (w₃ ++ [endOf .fault]))))
        r'.tokens := by
  obtain ⟨_, r₁, h₁, h⟩ := bind_eq_ok h
  obtain ⟨w₁, hw₁, ht₁⟩ := expectStart_sound hs h₁
  have hs₁ := separate_rest hs ht₁
  obtain ⟨v, r₂, h₂, h⟩ := bind_eq_ok h
  obtain ⟨w₂, ts, hw₂, hts, ht₂⟩ := (readers_sound fuel).1 r₁ v r₂ hs₁ h₂
  split at h
  · rename_i hv
    obtain ⟨_, r₃, h₃, h⟩ := bind_eq_ok h
    obtain ⟨w₃, hw₃, ht₃⟩ := expectEnd_sound (separate_rest hs₁ ht₂) h₃
    obtain ⟨rfl, rfl⟩ := pure_eq_ok h
    refine ⟨w₁, w₂, ts, w₃, v, rfl, hv, hw₁, hw₂, hts, hw₃, ?_⟩
    rw [ht₁, ht₂, ht₃]
    simp [Stream.after_after]
  · cases h

theorem readResponse_sound {a : Response} (hs : Separate r.tokens.1)
    (h : readResponse fuel r = .ok a r') :
    ∃ ts, DocumentForm ResponseForm ts a ∧ r.tokens = Stream.after ts r'.tokens := by
  rw [readResponse_eq] at h
  obtain ⟨_, r₀, h₀, h⟩ := bind_eq_ok h
  have hs₀ : Separate r₀.tokens.1 := by
    obtain ⟨w, -, ht | ht⟩ := readHeader_sound hs h₀
    · exact separate_rest hs ht
    · exact separate_rest hs ht
  obtain ⟨_, r₁, h₁, h⟩ := bind_eq_ok h
  obtain ⟨w, hw, ht₁⟩ := expectStart_sound hs₀ h₁
  have hs₁ := separate_rest hs₀ ht₁
  obtain ⟨a', r₂, h₂, h⟩ := bind_eq_ok h
  obtain ⟨b, r₃, h₃, h₂⟩ := bind_eq_ok h₂
  obtain ⟨_, r₄, h₄, h⟩ := bind_eq_ok h
  obtain ⟨rfl, rfl⟩ := pure_eq_ok h
  cases b with
  | true =>
      obtain ⟨w₁, hw₁, ht₃⟩ := nextStartIs_true_sound hs₁ h₃
      have hs₃ := separate_rest hs₁ ht₃
      obtain ⟨vs, r₅, h₅, h₂⟩ := bind_eq_ok h₂
      obtain ⟨rfl, rfl⟩ := pure_eq_ok h₂
      obtain ⟨ts, hts, ht₅⟩ := readParams_sound hs₃ h₅
      obtain ⟨w₂, hw₂, ht₄⟩ := expectEnd_sound (separate_rest hs₃ ht₅) h₄
      refine document_sound hs h₀ hw (.params hw₁ hts hw₂) ?_
      rw [ht₁, ht₃, ht₅, ht₄]
      simp [Stream.after_after]
  | false =>
      obtain ⟨w', hw', ht₃⟩ := nextStartIs_false_sound hs₁ h₃
      have hs₃ := separate_rest hs₁ ht₃
      obtain ⟨w₁, w₂, ts, w₃, v, rfl, hv, hw₁, hw₂, hts, hw₃, ht₂⟩ := readFault_sound hs₃ h₂
      obtain ⟨w₄, hw₄, ht₄⟩ := expectEnd_sound (separate_rest hs₃ ht₂) h₄
      have hr₁ : r₁.tokens = Stream.after ((w' ++ w₁) ++ startOf .fault :: (w₂ ++ (ts ++
          (w₃ ++ endOf .fault :: (w₄ ++ [endOf .methodResponse]))))) r₄.tokens := by
        rw [ht₃, ht₂, ht₄]
        simp [Stream.after_after]
      have hww := hw'.append hw₁ (separate_taken hs₁ hr₁)
      refine document_sound hs h₀ hw (.fault hww hw₂ hts hv hw₃ hw₄) ?_
      rw [ht₁, hr₁]
      simp [Stream.after_after]

end Document

end XmlRpc
