/-
# Scalars in documents

A source that begins with a value of one scalar element denotes what the
element's type makes of its text, be it a value or a refusal
(`ofSource_of_holdsScalar`).  Blanks and a declaration may stand where the
grammar has them, and the text may be written in any way that gives that text.
-/
import XmlRpc.Proofs.Document.RoundTrip

namespace XmlRpc

namespace Document

open Markup (Token TokenReader Stream)

variable {source : Source} {tag : Tag} {text : String} {p : Problem}
  {stop : Option Markup.Problem} {w w₁ hs ts us : List Token}

/-- Whether a source begins with a value that is one scalar element with that
text. -/
inductive HoldsScalar (source : Source) (tag : Tag) (text : String) : Prop where
  | mk {hs w₁ ts w₂ : List Token} : HeaderForm hs → Ws w₁ → OptionalText ts text → Ws w₂ →
      hs ++ startOf .value :: (w₁ ++ (startOf tag :: (ts ++ [endOf tag]) ++ (w₂ ++ [endOf .value])))
        <+: (TokenReader.ofSource source).tokens.1 →
      HoldsScalar source tag text

/-! ## Refusals -/

theorem refuses_lift {α : Type} {x : Except Problem α} (h : x = .error p) (st : Stream) :
    Refuses (liftM x) p st := by
  intro r _
  cases h
  exact ⟨r, rfl⟩

theorem refuses_readScalar (hts : OptionalText ts text) (h : scalar tag text = .error p) :
    Refuses (readScalar tag) p (ts ++ endOf tag :: us, stop) := by
  cases hts with
  | none => exact .noText (by simp [endOf]) (.close (refuses_lift h _))
  | text s => exact .text (.close (refuses_lift h _))

theorem refuses_readValue_scalar (fuel : Nat) (ht : tag ∈ scalarTags) (hw : Blanks w)
    (hw₁ : Ws w₁) (hts : OptionalText ts text) (h : scalar tag text = .error p) :
    Refuses (readValue (fuel + 1)) p
      (w ++ startOf .value :: (w₁ ++ startOf tag :: (ts ++ endOf tag :: us)), stop) := by
  rw [readValue_succ]
  have hbody {text : Option String} (hb : Blank.isBlank (text.getD "").toList = true) :
      Refuses (next >>= readBody fuel text) p (startOf tag :: (ts ++ endOf tag :: us), stop) := by
    have htype := accepts_lift (typeOf_label hb ((isValueType_iff tag).mpr (.inl ht)))
      (ts ++ endOf tag :: us, stop)
    refine .token (Refuses.later htype ?_)
    rw [readTyped_scalar fuel ht]
    exact (refuses_readScalar hts h).bind
  have hstart : Accepts (expectStart .value) (w ++ [startOf .value]) ()
      (w₁ ++ startOf tag :: (ts ++ endOf tag :: us), stop) :=
    accepts_trim_next hw rfl (if_pos rfl) _
  rw [List.append_cons w]
  refine Refuses.later hstart ?_
  cases hw₁ with
  | none => exact .noText (by simp [startOf]) (hbody rfl)
  | blank hb => exact .text (hbody hb)

/-- Behind a header a refusal stays one, whatever blanks are left of it. -/
theorem Refuses.header {β : Type} {f : Unit → Reading β} (hh : HeaderForm hs)
    (hus : us.head? = some (startOf tag)) (hf : ∀ w, Blanks w → Refuses (f ()) p (w ++ us, stop)) :
    Refuses (readHeader >>= f) p (hs ++ us, stop) := by
  cases hh with
  | @bare w₁ w₂ hw₁ hw₂ =>
      exact Refuses.later (accepts_readHeader (hw₁.blanks.append hw₂.blanks) hus) (hf [] blanks_nil)
  | @declared w₁ w₂ hw₁ hw₂ =>
      rw [List.append_cons w₁, List.append_assoc _ w₂]
      exact Refuses.later (accepts_readHeader_declaration hw₁.blanks _) (hf w₂ hw₂.blanks)

/-! ## Sources -/

theorem ofSource_of_holdsScalar (ht : tag ∈ scalarTags) (h : HoldsScalar source tag text) :
    Value.ofSource source = scalar tag text := by
  cases h with
  | @mk hs w₁ ts w₂ hh hw₁ hts hw₂ hbegins =>
      cases hv : scalar tag text with
      | ok v => exact value_iff.mpr ⟨_, hbegins, .mk hh (.typed hw₁ (.scalar ht hts hv) hw₂)⟩
      | error p =>
          obtain ⟨us, hus⟩ := hbegins
          have htokens : (TokenReader.ofSource source).tokens = (hs ++ startOf .value :: (w₁ ++
              startOf tag :: (ts ++ endOf tag :: (w₂ ++ endOf .value :: us))),
              (TokenReader.ofSource source).tokens.2) := by
            refine Prod.ext ?_ rfl
            rw [← hus]
            simp
          refine run_error (Refuses.header hh rfl ?_ _ htokens)
          intro w hw
          exact refuses_readValue_scalar _ ht hw hw₁ hts hv

theorem holdsScalar_render (tag : Tag) (text : String) :
    HoldsScalar (.ofOctets (render [.element .value [.text tag text.toList]])) tag text := by
  have htokens := @tokens_render [.element .value [.text tag text.toList]]
    ⟨⟨trivial, trivial⟩, trivial⟩
  have htext := optionalText_textTokens text.toList
  rw [String.ofList_toList] at htext
  refine .mk (.bare .none .none) .none htext .none ?_
  rw [htokens]
  simp [tokensOf, Step.tokens]

end Document

end XmlRpc
