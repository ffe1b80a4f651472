/-
# Why reading fails

Whatever the octets of a source are and however it ends, a reader that fails
says one of two things:

    fault     the document is malformed, holds a character that is none, or is
              no valid request; there are words for what is wrong
    stream    the stream has failed with just that message, and what it had
              delivered before neither holds a document nor settles anything

Nothing else is ever reported: no token is pushed back on another one, no
scalar is asked for in an element that is none, and no element is met that has
not been expanded into two tags.  That is so because a reader ends with what
stops the tokens or with a problem of what they hold (`Ends`), which is a
property of the steps that readers are made of, and because the scanner of a
source gives no event for an empty element (`ne_emptyTag_of_next`).
-/
import XmlRpc.Proofs.Document.Compound
import XmlRpc.Proofs.Document.Truncation
import XmlRpc.Proofs.Markup.Advance

namespace XmlRpc

namespace Document

open Markup (Token TokenReader Stream EndsInTag)

variable {α β : Type}

/-! ## Ends of readers -/

/-- How reading may end where `stop` is what stops the tokens: with the same
ahead, with that, or with a problem of what was read. -/
inductive Ends (stop : Option Markup.Problem) : EStateM.Result Problem TokenReader α → Prop
  | ok {a : α} {r : TokenReader} : r.tokens.2 = stop → Ends stop (.ok a r)
  | markup {p : Markup.Problem} {r : TokenReader} : stop = some p → Ends stop (.error (.markup p) r)
  | content {p : Problem} {r : TokenReader} : p.OfContent → Ends stop (.error p r)

/-- Whether a reader ends so wherever it begins. -/
def Orderly (m : Reading α) : Prop := ∀ r : TokenReader, Ends r.tokens.2 (m r)

theorem Ends.bind {m : Reading α} {f : α → Reading β} {r : TokenReader}
    (hm : Ends r.tokens.2 (m r)) (hf : ∀ a r', m r = .ok a r' → Ends r'.tokens.2 (f a r')) :
    Ends r.tokens.2 ((m >>= f) r) := by
  rw [bind_apply]
  cases hr : m r with
  | ok a r' =>
      rw [hr] at hm
      cases hm with
      | ok hstop => exact hstop ▸ hf a r' hr
  | error p r' =>
      rw [hr] at hm
      cases hm with
      | markup hstop => exact .markup hstop
      | content hp => exact .content hp

/-- Blanks are passed over up to another token, which is back in place, to the
end or to what stops the tokens. -/
theorem trim_problem {r r' : TokenReader} {p : Markup.Problem} (h : r.trim = (.error p, r')) :
    r.tokens.2 = some p := by
  have hp := r.read_pushedBack
  match hr : r.read with
  | (.error q, r₁) =>
      rw [trim_of_problem hr] at h
      cases h
      rw [TokenReader.tokens_of_read_error hr]
  | (.ok none, r₁) =>
      rw [trim_of_end hr] at h
      cases h
  | (.ok (some t), r₁) =>
      have hlt : r₁.size < r.size := by
        have := TokenReader.read_size_lt (congrArg Prod.fst hr)
        rwa [hr] at this
      rw [hr] at hp
      cases ht : t.isBlank with
      | true =>
          rw [trim_of_blank hr ht] at h
          rw [TokenReader.tokens_of_read_some hr, Stream.after_snd]
          exact trim_problem h
      | false =>
          obtain ⟨r₂, hr₂, -⟩ := TokenReader.tokens_unread hp t
          rw [trim_of_not_blank hr ht hr₂] at h
          cases h
termination_by r.size

theorem orderly_trim : Orderly trim := by
  intro r
  match ht : r.trim with
  | (.ok (), r') =>
      obtain ⟨w, -, htokens⟩ := trim_blanks ht
      rw [htokens, Stream.after_snd, trim, ht]
      exact .ok rfl
  | (.error p, r') =>
      rw [trim, ht]
      exact .markup (trim_problem ht)

theorem ends_of_continues {t : Token} {m : Reading α} (h : Continues (fun _ m => Orderly m) t m)
    {r : TokenReader} (hr : r.pushedBack = none) : Ends r.tokens.2 (m r) := by
  cases h with
  | on hm => exact hm r
  | @back m hm =>
      obtain ⟨r', hunread, htokens⟩ := TokenReader.tokens_unread hr t
      have hok : unread t r = .ok () r' := by simp only [unread, hunread]
      have hends := hm r'
      rw [bind_of_ok hok]
      rwa [htokens, Stream.after_snd] at hends

theorem orderly_read {f : Option Token → Reading α} (hnone : Orderly (f none))
    (hsome : ∀ t, Continues (fun _ m => Orderly m) t (f (some t))) : Orderly (read >>= f) := by
  intro r
  have hp := r.read_pushedBack
  match hr : r.read with
  | (.error p, r') =>
      have herror : read r = .error (.markup p) r' := by simp only [read, hr]
      rw [bind_of_error herror, TokenReader.tokens_of_read_error hr]
      exact .markup rfl
  | (.ok none, r') =>
      have hok : read r = .ok none r' := by simp only [read, hr]
      have hends := hnone r'
      rw [TokenReader.tokens_of_end hr] at hends
      rwa [bind_of_ok hok, TokenReader.tokens_of_read_none hr]
  | (.ok (some t), r') =>
      have hok : read r = .ok (some t) r' := by simp only [read, hr]
      rw [hr] at hp
      rw [bind_of_ok hok, TokenReader.tokens_of_read_some hr, Stream.after_snd]
      exact ends_of_continues (hsome t) hp

theorem compositional_orderly : Compositional fun _ m => Orderly m where
  pure _ _ := .ok rfl
  refuse hp _ := .content hp
  lifted := by
    intro α β x f hx hf r
    cases x with
    | error p => exact .content (hx p rfl)
    | ok a => exact hf a rfl r
  bind := by
    intro α β m f hm hf r
    exact (hm r).bind fun a r' _ => hf a r'
  trim := orderly_trim
  read := orderly_read

/-! ## Words -/

/-- A fault for a document that cannot be read: one of three codes, and words,
but none of those for what does not happen. -/
structure Blames (f : Fault) : Prop where
  code : ∃ c ∈ [FaultCode.malformedInput, .invalidCharacter, .invalidRequest], f.code = c.number
  wordy : f.message ≠ ""
  noEmptyElement : ∀ name, f.message ≠ "unexpected empty element '" ++ name ++ "'"
  noUnhandledTag : ∀ name, f.message ≠ "unhandled tag '" ++ name ++ "'"

/-- Whether a message is not empty, and does not begin as the two do that are
never given. -/
def Begins (message : String) : Prop :=
  message ≠ "" ∧ ¬ "unexpected empty".toList <+: message.toList ∧
    ¬ "unhandled tag".toList <+: message.toList

theorem blames_fault {c : FaultCode} {message : String}
    (hc : c ∈ [FaultCode.malformedInput, .invalidCharacter, .invalidRequest])
    (hm : Begins message) : Blames (c.fault message) := by
  obtain ⟨hne, hempty, hunhandled⟩ := hm
  have hmessage : (c.fault message).message = message :=
    if_neg fun h => hne (String.isEmpty_iff.mp h)
  refine ⟨⟨c, hc, rfl⟩, ?_, ?_, ?_⟩
  · rw [hmessage]
    exact hne
  · intro name h
    rw [hmessage] at h
    apply hempty
    rw [h]
    simp
  · intro name h
    rw [hmessage] at h
    apply hunhandled
    rw [h]
    simp

theorem toError_of_ofContent {p : Problem} (hp : p.OfContent) :
    ∃ f, p.toError = .fault f ∧ Blames f := by
  cases p with
  | markup p => exact absurd hp id
  | unhandled tag => exact absurd hp id
  | _ => exact ⟨_, rfl, blames_fault (by simp) (by simp [Begins])⟩

theorem blames_syntaxFault (message : String) : Blames (Markup.Problem.syntaxFault message) :=
  blames_fault (by simp) (by simp [Begins])

theorem blames_illFormedFault (message : String) :
    Blames (Markup.Problem.illFormedFault message) :=
  blames_fault (by simp) (by simp [Begins])

theorem toError_of_arises {p : Markup.Problem} {d : Ending} (hp : p.Arises d) :
    (∃ f, p.toError = .fault f ∧ Blames f) ∨
      ∃ message, p.toError = .stream message ∧ d = .broken message := by
  cases p with
  | stream message => exact .inr ⟨message, rfl, hp⟩
  | unexpectedEmpty name => exact absurd hp id
  | pushedBackTwice => exact absurd hp id
  | unknownMarkup | unclosedInstruction | unclosedComment | unclosedDoctype | unclosedCdata
  | unclosedTag => exact .inl ⟨_, rfl, blames_syntaxFault _⟩
  | mismatchedEnd | unmatchedEnd | namelessDoctype | unclosedReference =>
      exact .inl ⟨_, rfl, blames_illFormedFault _⟩
  | _ => exact .inl ⟨_, rfl, blames_fault (by simp) (by simp [Begins])⟩

/-! ## Sources -/

/-- What is read from some octets is read whatever comes behind them, and however
the source ends. -/
theorem ofSource_append {ofSource : Source → Except Problem α} {Root : List Token → α → Prop}
    (hiff : ∀ {s a}, ofSource s = .ok a ↔
      ∃ ts, ts <+: (TokenReader.ofSource s).tokens.1 ∧ DocumentForm Root ts a)
    (hend : ∀ {ts a}, Root ts a → EndsInTag ts) {o : Octets} {d : Ending} {a : α}
    (h : ofSource ⟨o, d⟩ = .ok a) (c : Octets) (d' : Ending) : ofSource ⟨o ++ c, d'⟩ = .ok a := by
  obtain ⟨ts, hts, hdocument⟩ := hiff.mp h
  have htag : EndsInTag ts := by
    cases hdocument with
    | mk _ hroot => exact endsInTag_append (hend hroot)
  obtain ⟨u, ⟨v, rfl⟩, hwhole, -⟩ := Markup.exists_cut ⟨o, d⟩ hts htag
  rw [List.append_assoc]
  exact hiff.mpr ⟨ts, hwhole (v ++ c) d', hdocument⟩

/-- What an error tells of a source that cannot be read. -/
inductive Tells (ofSource : Source → Except Problem α) (s : Source) : Error → Prop
  /-- The octets are to blame. -/
  | fault {f : Fault} : Blames f → Tells ofSource s (.fault f)
  /-- The stream has failed before there was a document, and before anything else
  was settled. -/
  | stream {message : String} : s.ending = .broken message →
      (∀ d a, ofSource ⟨s.octets, d⟩ ≠ .ok a) →
      (¬ ∃ x, ∀ c d, ofSource ⟨s.octets ++ c, d⟩ = x) → Tells ofSource s (.stream message)

/-- Whether whatever cannot be read is told so, and neither an assertion fails nor
a branch is taken that is there for nothing. -/
def FailsRightly (ofSource : Source → Except Problem α) : Prop :=
  ∀ s p, ofSource s = .error p →
    p ≠ .markup .pushedBackTwice ∧ (∀ name, p ≠ .markup (.unexpectedEmpty name)) ∧
      (∀ tag, p ≠ .unhandled tag) ∧ Tells ofSource s p.toError

section Runs

variable {reading : Nat → Reading α} {s : Source} {p : Problem} {message : String}

theorem stops_of_run (horderly : ∀ fuel, Orderly (reading fuel)) (h : run reading s = .error p) :
    p.OfContent ∨ ∃ q, p = .markup q ∧ (TokenReader.ofSource s).tokens.2 = some q := by
  obtain ⟨r', hr'⟩ := run_eq_error.mp h
  have hends := horderly ((TokenReader.ofSource s).size + 1) (TokenReader.ofSource s)
  rw [hr'] at hends
  cases hends with
  | markup hstop => exact .inr ⟨_, rfl, hstop⟩
  | content hp => exact .inl hp

theorem cause_of_run (horderly : ∀ fuel, Orderly (reading fuel)) (h : run reading s = .error p) :
    p.OfContent ∨ ∃ q : Markup.Problem, p = .markup q ∧ q.Arises s.ending := by
  rcases stops_of_run horderly h with hp | ⟨q, rfl, hstop⟩
  · exact .inl hp
  · exact .inr ⟨q, rfl, Markup.arises_of_tokens_ofSource hstop⟩

/-- A problem of the markup that ends a run is one that comes up in the source. -/
theorem arises_of_run {q : Markup.Problem} (horderly : ∀ fuel, Orderly (reading fuel))
    (h : run reading s = .error (.markup q)) : q.Arises s.ending := by
  rcases cause_of_run horderly h with hcontent | ⟨_, hq, harises⟩
  · exact absurd hcontent id
  · cases hq
    exact harises

theorem ne_unhandled_of_run (horderly : ∀ fuel, Orderly (reading fuel))
    (h : run reading s = .error p) (tag : Tag) : p ≠ .unhandled tag := by
  rintro rfl
  rcases cause_of_run horderly h with hcontent | ⟨_, hq, -⟩
  · exact hcontent
  · cases hq

theorem toError_of_run (horderly : ∀ fuel, Orderly (reading fuel)) (h : run reading s = .error p) :
    (∃ f, p.toError = .fault f ∧ Blames f) ∨
      ∃ message, p.toError = .stream message ∧ s.ending = .broken message := by
  rcases cause_of_run horderly h with hcontent | ⟨q, rfl, hq⟩
  · exact .inl (toError_of_ofContent hcontent)
  · exact toError_of_arises hq

/-- The octets before a failure of the stream could have been the last ones, and
then there would have been no such failure. -/
theorem unsettled_of_run (horderly : ∀ fuel, Orderly (reading fuel)) (h : run reading s = .error p)
    (hp : p.toError = .stream message) :
    ¬ ∃ x, ∀ c d, run reading ⟨s.octets ++ c, d⟩ = x := by
  rintro ⟨x, hx⟩
  have hbroke := hx [] s.ending
  have hended := hx [] .endOfInput
  rw [List.append_nil] at hbroke hended
  have hx : x = .error p := hbroke.symm.trans h
  rw [hx] at hended
  rcases toError_of_run horderly hended with ⟨f, hf, -⟩ | ⟨_, -, hbroken⟩
  · rw [hf] at hp
    cases hp
  · cases hbroken

theorem failsRightly_run {Root : List Token → α → Prop}
    (hiff : ∀ {s a}, run reading s = .ok a ↔
      ∃ ts, ts <+: (TokenReader.ofSource s).tokens.1 ∧ DocumentForm Root ts a)
    (hend : ∀ {ts a}, Root ts a → EndsInTag ts) (horderly : ∀ fuel, Orderly (reading fuel)) :
    FailsRightly (run reading) := by
  intro s p h
  refine ⟨?_, ?_, ne_unhandled_of_run horderly h, ?_⟩
  · rintro rfl
    exact arises_of_run horderly h
  · rintro name rfl
    exact arises_of_run horderly h
  · rcases toError_of_run horderly h with ⟨f, hf, hblames⟩ | ⟨message, hmessage, hbroken⟩
    · rw [hf]
      exact .fault hblames
    · have hunsettled := unsettled_of_run horderly h hmessage
      rw [hmessage]
      refine .stream hbroken ?_ hunsettled
      intro d a hok
      exact hunsettled ⟨.ok a, ofSource_append hiff hend hok⟩

end Runs

/-- A value, a call or a response is read, or there is a fault of one of three
codes with words of its own, or the stream has failed before enough of it was
there.  No other failure is reached, whatever the source holds. -/
theorem fails_rightly :
    FailsRightly Value.ofSource ∧ FailsRightly Call.ofSource ∧ FailsRightly Response.ofSource := by
  refine ⟨?_, ?_, ?_⟩
  · exact failsRightly_run value_iff ValueForm.endsInTag compositional_orderly.readBareValue
  · exact failsRightly_run call_iff CallForm.endsInTag compositional_orderly.readCall
  · exact failsRightly_run response_iff ResponseForm.endsInTag compositional_orderly.readResponse

/-- A stream that fails in a text, and one that fails behind a number that is
none. -/
theorem fails_rightly_broken :
    let cut : Source := ⟨Utf8.encode "<value>a".toList, .broken "gone"⟩
    let bad : Source := ⟨Utf8.encode "<value><i4>x</i4><".toList, .broken "gone"⟩
    Value.ofSource cut = .error (.markup (.stream "gone")) ∧
      Tells Value.ofSource cut (.stream "gone") ∧
    Value.ofSource bad = .error (.badInt "x") ∧
      Tells Value.ofSource bad (.fault ⟨-32600, "error reading int 'x'"⟩) := by
  intro cut bad
  have herror {s : Source} {p : Problem} (h : (Value.ofSource s).map (fun _ => ()) = .error p) :
      Value.ofSource s = .error p := by
    cases hv : Value.ofSource s with
    | ok v =>
        rw [hv] at h
        cases h
    | error q =>
        rw [hv] at h
        cases h
        rfl
  have hcut : Value.ofSource cut = .error (.markup (.stream "gone")) := herror (by decide +kernel)
  have hbad : Value.ofSource bad = .error (.badInt "x") := herror (by decide +kernel)
  exact ⟨hcut, (fails_rightly.1 cut _ hcut).2.2.2, hbad, (fails_rightly.1 bad _ hbad).2.2.2⟩

end Document

end XmlRpc
