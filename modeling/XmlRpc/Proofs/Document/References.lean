/-
# References in documents

What a reader makes of a reference that is met in a document:

    it stands for a character    the character joins the text, and reading goes
                                 on behind it
    it stands for nothing        reading fails, and says which reference it was

The references that stand for something are those of markup, and the same with
one plus sign in front of their digits: `&#+65;` is read as `&#65;` is
(`references_exact_plus`).

A reader that fails because of a reference has met it (`ReferenceLaw.blamed`),
and inside of a document it fails for no other reason first
(`ReferenceLaw.exact`).  Where what stands in front is the beginning of no
document, that may be what is refused, but no other fault of the markup is
(`ReferenceLaw.final`).
-/
import XmlRpc.Proofs.Document.Failures
import XmlRpc.Proofs.Markup.References

namespace XmlRpc

namespace Document

open Markup (Token TokenReader Scanner Stream Truncated Met Meets Names plusAllowed)

def unknownReference (r : List Char) : Problem :=
  .markup (.unknownReference (String.ofList r))

/-- Whether tokens are the first ones of a document, and not all of them. -/
def Opens {α : Type} (Root : List Token → α → Prop) (us : List Token) : Prop :=
  ∃ ts a, DocumentForm Root ts a ∧ Truncated us ts

/-- What the references of a source do to one sort of documents. -/
structure ReferenceLaw {α : Type} (ofSource : Source → Except Problem α)
    (Root : List Token → α → Prop) (s : Source) : Prop where
  /-- A reference is to blame only if it is met and stands for nothing. -/
  blamed (r : List Char) : ofSource s = .error (unknownReference r) →
    (∃ m, Meets (Scanner.ofSource s) none m ∧ m.reference = r) ∧ ∀ c, ¬ Names plusAllowed r c
  /-- Inside of a document it is to blame. -/
  exact (m : Met) : Meets (Scanner.ofSource s) none m → Opens Root m.before →
    (ofSource s = .error (unknownReference m.reference) ↔ ∀ c, ¬ Names plusAllowed m.reference c)
  /-- No other problem of the markup comes up behind it. -/
  final (m : Met) : Meets (Scanner.ofSource s) none m →
    (∀ c, ¬ Names plusAllowed m.reference c) → ∀ p, ofSource s = .error p →
      p = unknownReference m.reference ∨ p.OfContent

variable {α : Type} {s : Source} {m : Met}

theorem resolve?_eq_none_iff {r : List Char} :
    Reference.resolve? r = none ↔ ∀ c, ¬ Names plusAllowed r c := by
  rw [Option.eq_none_iff_forall_ne_some]
  exact forall_congr' fun c => not_congr Markup.resolve?_eq_some_iff

theorem tokens_of_names {c : Char} (h : Meets (Scanner.ofSource s) none m)
    (hc : Names plusAllowed m.reference c) :
    (TokenReader.ofSource s).tokens = Stream.after m.before (m.goOn s.ending c) := by
  rw [Markup.tokens_ofSource_eq, h.tokens, Markup.resolve?_eq_some_iff.mpr hc]
  rfl

theorem tokens_of_not_names (h : Meets (Scanner.ofSource s) none m)
    (hc : ∀ c, ¬ Names plusAllowed m.reference c) :
    (TokenReader.ofSource s).tokens
      = (m.before, some (.unknownReference (String.ofList m.reference))) := by
  rw [Markup.tokens_ofSource_eq, h.tokens, resolve?_eq_none_iff.mpr hc]

theorem referenceLaw_run {reading : Nat → Reading α} {Root : List Token → α → Prop}
    (horderly : ∀ fuel, Orderly (reading fuel))
    (hfails : ∀ fuel ts a us stop, DocumentForm Root ts a → Truncated us ts → us.length < fuel →
      Fails (reading fuel) (us, stop)) (s : Source) : ReferenceLaw (run reading) Root s := by
  have hblamed (r : List Char) (h : run reading s = .error (unknownReference r)) :
      (∃ m, Meets (Scanner.ofSource s) none m ∧ m.reference = r) ∧
        ∀ c, ¬ Names plusAllowed r c := by
    rcases stops_of_run horderly h with hcontent | ⟨q, hq, htokens⟩
    · exact absurd hcontent id
    · cases hq
      rw [Markup.tokens_ofSource_eq] at htokens
      obtain ⟨m, hmeets, hname, hnone⟩ := (Markup.blamed_iff rfl).mp htokens
      cases String.ofList_injective hname
      exact ⟨⟨m, hmeets, rfl⟩, resolve?_eq_none_iff.mp hnone⟩
  refine ⟨hblamed, ?_, ?_⟩
  · rintro m hmeets ⟨ts, a, hdocument, htruncated⟩
    refine ⟨fun h => (hblamed _ h).2, ?_⟩
    intro hc
    have htokens := tokens_of_not_names hmeets hc
    have hlen := TokenReader.length_tokens_le (TokenReader.ofSource s)
    rw [htokens] at hlen
    exact run_error (hfails _ ts a _ _ hdocument htruncated (Nat.lt_succ_of_le hlen) _ htokens)
  · intro m hmeets hc p h
    rcases stops_of_run horderly h with hcontent | ⟨q, rfl, htokens⟩
    · exact .inr hcontent
    · rw [tokens_of_not_names hmeets hc] at htokens
      cases htokens
      exact .inl rfl

/-- Which references of a source are read, and what becomes of all others.  Those of
markup are read as markup has it; but so are the same with a plus sign in front
of their digits, and those only. -/
theorem references_exact (s : Source) :
    (∀ r c, Names [[]] r c ↔ Names plusAllowed r c ∧ '+' ∉ r) ∧
    (∀ m, Meets (Scanner.ofSource s) none m →
      (∀ c, Names plusAllowed m.reference c →
        (TokenReader.ofSource s).tokens = Stream.after m.before (m.goOn s.ending c)) ∧
      ((∀ c, ¬ Names plusAllowed m.reference c) → (TokenReader.ofSource s).tokens
        = (m.before, some (.unknownReference (String.ofList m.reference))))) ∧
    ReferenceLaw Value.ofSource ValueForm s ∧ ReferenceLaw Call.ofSource CallForm s ∧
    ReferenceLaw Response.ofSource ResponseForm s ∧
    ∀ r, (unknownReference r).toError = .fault (FaultCode.malformedInput.fault
      ("unknown character reference '&" ++ String.ofList r ++ ";'")) := by
  refine ⟨fun _ _ => Markup.names_markup_iff, ?_, ?_, ?_, ?_, fun _ => rfl⟩
  · intro m h
    exact ⟨fun c => tokens_of_names h, tokens_of_not_names h⟩
  · exact referenceLaw_run compositional_orderly.readBareValue
      (fun _ _ _ _ _ => fails_readBareValue) s
  · exact referenceLaw_run compositional_orderly.readCall (fun _ _ _ _ _ => fails_readCall) s
  · exact referenceLaw_run compositional_orderly.readResponse
      (fun _ _ _ _ _ => fails_readResponse) s

/-- `&#+65;` is no reference of markup and is read as a letter all the same, and a
reference to a surrogate is refused. -/
theorem references_exact_plus :
    let plus : Source :=
      ⟨Utf8.encode "<value><string>&#+65;</string></value>".toList, .endOfInput⟩
    let surrogate : Source := ⟨Utf8.encode "<value>&#xD800;</value>".toList, .endOfInput⟩
    ¬ Names [[]] ['#', '+', '6', '5'] 'A' ∧
      (TokenReader.ofSource plus).tokens = ([.startTag "value", .startTag "string", .text "A",
        .endTag "string", .endTag "value"], none) ∧
      Value.ofSource surrogate = .error (unknownReference ['#', 'x', 'D', '8', '0', '0']) := by
  intro plus surrogate
  obtain ⟨hmarkup, htokens, -⟩ := references_exact plus
  obtain ⟨-, -, hvalue, -⟩ := references_exact surrogate
  let value : Octets := Utf8.encode ['v', 'a', 'l', 'u', 'e']
  let string : Octets := Utf8.encode ['s', 't', 'r', 'i', 'n', 'g']
  let a : Met := ⟨['#', '+', '6', '5'], [.startTag "value", .startTag "string"], none,
    [string, value], [0x3C, 0x2F] ++ string ++ [0x3E, 0x3C, 0x2F] ++ value ++ [0x3E]⟩
  let b : Met := ⟨['#', 'x', 'D', '8', '0', '0'], [.startTag "value"], none,
    [value], [0x3C, 0x2F] ++ value ++ [0x3E]⟩
  have hplus : plus = ⟨[0x3C] ++ value ++ [0x3E, 0x3C] ++ string ++ [0x3E, 0x26]
      ++ Utf8.encode a.reference ++ [0x3B] ++ a.rest, .endOfInput⟩ :=
    congrArg (Source.mk · .endOfInput) (by decide +kernel)
  have hsurrogate : surrogate = ⟨[0x3C] ++ value ++ [0x3E, 0x26] ++ Utf8.encode b.reference
      ++ [0x3B] ++ b.rest, .endOfInput⟩ :=
    congrArg (Source.mk · .endOfInput) (by decide +kernel)
  have ha : Meets (Scanner.ofSource plus) none a := by
    rw [hplus]
    exact ⟨by simp [a], .token rfl rfl (.token rfl rfl (.here rfl))⟩
  have hb : Meets (Scanner.ofSource surrogate) none b := by
    rw [hsurrogate]
    exact ⟨by simp [b], .token rfl rfl (.here rfl)⟩
  refine ⟨?_, ?_, ?_⟩
  · intro h
    exact absurd ((hmarkup _ _).mp h).2 (by decide)
  · have hnames : Names plusAllowed a.reference 'A' := Markup.resolve?_eq_some_iff.mp rfl
    rw [(htokens a ha).1 'A' hnames]
    decide +kernel
  · have hopens : Opens ValueForm b.before :=
      ⟨_, _, .mk (.bare .none .none) .nil, .cons .here⟩
    exact (hvalue.exact b hb hopens).mpr (resolve?_eq_none_iff.mp rfl)

end Document

end XmlRpc
