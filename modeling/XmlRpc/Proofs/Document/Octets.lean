/-
# Octets in documents

A Base64 element is read as some octets exactly if its text, with all blanks
left out, is what writing these octets writes between the two tags
(`WrittenAs`).  Every other text makes an invalid request of the document.

    aGVs bG8=     aGVsbG8=     five octets, the same ones
    aGVsbG8       aGVsbG9=     refused: a sign missing, a bit set at the end

So a text says nothing but its octets, and the octets fix it up to blanks.
-/
import XmlRpc.Proofs.Base64.Canonical
import XmlRpc.Proofs.Document.Scalars

namespace XmlRpc

namespace Document

open Markup (Token)

variable {tag : Tag} {text : String} {o : Octets} {body : List Char}

/-! ## Scalar elements wherever they stand -/

/-- Whether an element with that text is read with that result, inside any
document and as a document of its own. -/
structure ElementReads (tag : Tag) (text : String) (x : Except Problem Value) : Prop where
  accepted : ∀ v, x = .ok v → ∀ ts, OptionalText ts text → ∀ st,
    Accepts (readScalar tag) (ts ++ [endOf tag]) v st
  refused : ∀ p, x = .error p → ∀ ts, OptionalText ts text → ∀ us stop,
    Refuses (readScalar tag) p (ts ++ endOf tag :: us, stop)
  alone : ∀ source, HoldsScalar source tag text → Value.ofSource source = x

/-- An element is read as what its type makes of its text, and as nothing else. -/
theorem elementReads_iff (ht : tag ∈ scalarTags) {x : Except Problem Value} :
    ElementReads tag text x ↔ scalar tag text = x := by
  constructor
  · intro h
    have hholds := holdsScalar_render tag text
    rw [← ofSource_of_holdsScalar ht hholds]
    exact h.alone _ hholds
  · rintro rfl
    refine ⟨?_, ?_, ?_⟩
    · intro v hv ts hts st
      exact accepts_readScalar hts hv st
    · intro p hp ts hts us stop
      exact refuses_readScalar hts hp
    · intro source hholds
      exact ofSource_of_holdsScalar ht hholds

/-! ## Base64 bodies -/

/-- The body of a Base64 element without the blanks that may stand in it. -/
def compactBody (text : String) : List Char := text.toList.filter (!Blank.isAscii ·)

/-- Whether that is the body which is written for some octets. -/
def WrittenAs (o : Octets) (body : List Char) : Prop :=
  (Value.base64 o).document
    = Utf8.encodeString "<value><base64>" ++ Utf8.encode body
      ++ Utf8.encodeString "</base64></value>"

theorem document_base64 (o : Octets) :
    (Value.base64 o).document
      = Utf8.encodeString "<value><base64>" ++ Utf8.encode (Base64.encodeText o)
        ++ Utf8.encodeString "</base64></value>" := by
  rw [Value.document, render, flatten_piecesOf]
  simp only [charsOf, valueStep, Step.chars, Utf8.encode_append, List.append_nil, List.append_assoc]
  have hopen : Utf8.encodeString "<value><base64>"
      = Utf8.encodeString Tag.value.openTag ++ Utf8.encodeString Tag.base64.openTag := by decide
  have hclose : Utf8.encodeString "</base64></value>"
      = Utf8.encodeString Tag.base64.closeTag ++ Utf8.encodeString Tag.value.closeTag := by decide
  rw [hopen, hclose]
  simp [Utf8.encodeString]

theorem writtenAs_iff : WrittenAs o body ↔ body = Base64.encodeText o := by
  rw [WrittenAs, document_base64, List.append_left_inj, List.append_right_inj, Utf8.encode_inj,
    eq_comm]

theorem writtenAs_iff_encode : WrittenAs o body ↔ Utf8.encode body = Base64.encode o := by
  rw [writtenAs_iff, ← Base64.encode_encodeText, Utf8.encode_inj]

theorem octets_eq_ok_iff : octets text = .ok o ↔ WrittenAs o (compactBody text) := by
  rw [octets, Base64.decode_eq_ok_iff, writtenAs_iff_encode]
  rfl

theorem scalar_base64_eq_ok_iff {v : Value} :
    scalar .base64 text = .ok v ↔ ∃ o, WrittenAs o (compactBody text) ∧ v = .base64 o := by
  constructor
  · intro h
    rw [scalar] at h
    split at h
    · rename_i o ho
      cases h
      exact ⟨o, octets_eq_ok_iff.mp ho, rfl⟩
    · cases h
  · rintro ⟨o, ho, rfl⟩
    rw [scalar, octets_eq_ok_iff.mpr ho]

theorem scalar_base64_error (h : ¬ ∃ o, WrittenAs o (compactBody text)) :
    ∃ p f, scalar .base64 text = .error p ∧ p.toError = .fault f ∧
      f.code = FaultCode.invalidRequest.number := by
  cases ho : octets text with
  | ok o => exact absurd ⟨o, octets_eq_ok_iff.mp ho⟩ h
  | error p =>
      refine ⟨.badBase64 p, _, ?_, rfl, rfl⟩
      rw [scalar, ho]

theorem exists_writtenAs_iff :
    (∃ o, WrittenAs o body) ↔ Base64.Canonical (Utf8.encode body) := by
  rw [Base64.canonical_iff]
  simp only [writtenAs_iff_encode]

/-- A blank more changes nothing, wherever it stands. -/
theorem scalar_base64_blank {l r : List Char} {c : Char} (hc : Blank.isAscii c = true) :
    scalar .base64 (String.ofList (l ++ c :: r)) = scalar .base64 (String.ofList (l ++ r)) := by
  have hcompact : (l ++ c :: r).filter (!Blank.isAscii ·) = (l ++ r).filter (!Blank.isAscii ·) := by
    simp [hc]
  simp only [scalar, octets, String.toList_ofList, hcompact]

/-- A Base64 element is read as octets exactly if its text without blanks is the
one that is written for them, which is one for all octets; and it is refused if
that is written for none.  Blanks may be put in anywhere. -/
theorem base64_exact (text : String) :
    (∀ o, ElementReads .base64 text (.ok (.base64 o)) ↔ WrittenAs o (compactBody text)) ∧
    ((¬ ∃ o, WrittenAs o (compactBody text)) →
      ∃ p f, ElementReads .base64 text (.error p) ∧ p.toError = .fault f ∧
        f.code = FaultCode.invalidRequest.number) ∧
    ((∃ o, WrittenAs o (compactBody text)) ↔ Base64.Canonical (Utf8.encode (compactBody text))) ∧
    (∀ o text', ElementReads .base64 text (.ok (.base64 o)) →
      ElementReads .base64 text' (.ok (.base64 o)) → compactBody text = compactBody text') ∧
    (∀ l r c x, Blank.isAscii c = true → ElementReads .base64 (String.ofList (l ++ r)) x →
      ElementReads .base64 (String.ofList (l ++ c :: r)) x) := by
  have hreads {text : String} {x : Except Problem Value} :
      ElementReads .base64 text x ↔ scalar .base64 text = x := elementReads_iff (by decide)
  have hwritten {text : String} {o : Octets} :
      ElementReads .base64 text (.ok (.base64 o)) ↔ WrittenAs o (compactBody text) := by
    rw [hreads, scalar_base64_eq_ok_iff]
    simp
  refine ⟨fun o => hwritten, ?_, exists_writtenAs_iff, ?_, ?_⟩
  · intro h
    obtain ⟨p, f, hp, hf, hcode⟩ := scalar_base64_error h
    exact ⟨p, f, hreads.mpr hp, hf, hcode⟩
  · intro o text' h h'
    have heq := writtenAs_iff.mp (hwritten.mp h)
    have heq' := writtenAs_iff.mp (hwritten.mp h')
    exact heq.trans heq'.symm
  · intro l r c x hc h
    rw [hreads, scalar_base64_blank hc]
    exact hreads.mp h

/-- Five octets in two lines; and their text with a bit set at its end, which is
the text of none. -/
theorem base64_exact_hello :
    ElementReads .base64 "aGVs\n bG8=" (.ok (.base64 (Utf8.encodeString "hello"))) ∧
    ∃ p f, ElementReads .base64 "aGVsbG9=" (.error p) ∧ p.toError = .fault f ∧
      f.code = -32600 := by
  constructor
  · apply ((base64_exact _).1 _).mpr
    exact writtenAs_iff.mpr (by decide)
  · apply (base64_exact _).2.1
    rintro ⟨o, ho⟩
    have hrefused : octets "aGVsbG9=" = .error (.lastSymbol 57 6) := by decide
    have hread := octets_eq_ok_iff.mpr ho
    rw [hrefused] at hread
    cases hread

end Document

end XmlRpc
