/-
# What holds of every reader

Readers of documents are made of few steps:

    pure, throw    a result, and a problem of what the document holds
    lift           what needs no tokens, and has such a problem or none
    trim           blank texts are passed over
    read           a token is taken, and may be pushed back at once
    >>=            one reader after the other

What holds of these steps (`Compositional`) holds of every reader.  A token is
pushed back only where it has just been read, and a scalar is read only inside
the element of one; no property needs more than that.
-/
import XmlRpc.Proofs.Document.Soundness

namespace XmlRpc

namespace Document

open Markup (Token TokenReader)

/-! ## Problems of content -/

/-- Whether a problem is one of what a document holds, and not of its markup. -/
def Problem.OfContent : Problem → Prop
  | .markup _ => False
  | .unhandled _ => False
  | _ => True

theorem ofContent_of_typeOf {text : Option String} {element : String} {p : Problem}
    (h : typeOf text element = .error p) : p.OfContent := by
  simp only [typeOf] at h
  split at h
  · split at h <;> cases h
    trivial
  · cases h
    trivial

theorem ofContent_of_scalar {tag : Tag} {text : String} {p : Problem} (ht : tag ∈ scalarTags)
    (h : scalar tag text = .error p) : p.OfContent := by
  unfold scalar at h
  split at h
  · cases h
  · split at h <;> cases h
    trivial
  · split at h <;> cases h
    trivial
  · split at h <;> cases h
    trivial
  · split at h <;> cases h
    trivial
  · split at h <;> cases h
    trivial
  · cases h
  · rename_i hstring hboolean hint hi4 hdouble hbase64 hdateTime
    simp only [scalarTags, List.mem_cons, List.not_mem_nil, or_false] at ht
    rcases ht with ht | ht | ht | ht | ht | ht | ht
    all_goals contradiction

/-! ## Steps -/

variable {α β : Type}

/-- Whether a reader has a property once a token has been read: it goes on, or
pushes the token back first. -/
inductive Continues (P : (α : Type) → Reading α → Prop) (t : Token) : Reading α → Prop
  | on {m : Reading α} : P α m → Continues P t m
  | back {m : Reading α} : P α m → Continues P t (unread t >>= fun _ => m)

/-- Whether a property holds of the steps that readers are made of. -/
structure Compositional (P : (α : Type) → Reading α → Prop) : Prop where
  pure {α : Type} (a : α) : P α (pure a)
  refuse {α : Type} {p : Problem} : p.OfContent → P α (throw p)
  lifted {α β : Type} {x : Except Problem α} {f : α → Reading β} :
    (∀ p, x = .error p → p.OfContent) → (∀ a, x = .ok a → P β (f a)) → P β (liftM x >>= f)
  bind {α β : Type} {m : Reading α} {f : α → Reading β} :
    P α m → (∀ a, P β (f a)) → P β (m >>= f)
  trim : P Unit trim
  read {α : Type} {f : Option Token → Reading α} :
    P α (f none) → (∀ t, Continues P t (f (some t))) → P α (read >>= f)

variable {P : (α : Type) → Reading α → Prop}

theorem holds_ite {p : Prop} [Decidable p] {m n : Reading α} (hm : P α m) (hn : P α n) :
    P α (if p then m else n) := by
  split
  · exact hm
  · exact hn

theorem Continues.unread {t : Token} (h : P Unit (Pure.pure ())) : Continues P t (unread t) := by
  have hback : Continues P t (Document.unread t >>= fun _ => Pure.pure ()) := .back h
  rwa [bind_pure] at hback

namespace Compositional

variable (h : Compositional P)

include h

theorem andThen {m : Reading α} {n : Reading β} (hm : P α m) (hn : P β n) :
    P β (m >>= fun _ => n) := h.bind hm fun _ => hn

theorem lift {x : Except Problem α} (hx : ∀ p, x = .error p → p.OfContent) :
    P α (liftM x) := by
  have hbind := h.lifted hx fun a _ => h.pure a
  rwa [bind_pure] at hbind

theorem next {f : Token → Reading α} (hf : ∀ t, Continues P t (f t)) :
    P α (Document.next >>= f) := by
  have heq : Document.next >>= f = Document.read >>= fun o =>
      o.elim (throw Problem.unexpectedEnd) f := by
    rw [Document.next, bind_assoc]
    refine bind_congr ?_
    intro o
    cases o with
    | none => rfl
    | some t => exact pure_bind t f
  rw [heq]
  exact h.read (h.refuse trivial) hf

/-! ## Tokens -/

theorem readText : P _ readText := by
  refine h.next ?_
  intro t
  cases t with
  | text s => exact .on (h.pure _)
  | _ => exact .back (h.pure _)

theorem nextStartIs (tag : Tag) : P _ (nextStartIs tag) := by
  refine h.andThen h.trim (h.next ?_)
  intro t
  split
  · exact .on (h.pure _)
  · exact .back (h.pure _)

theorem expectStart (tag : Tag) : P _ (expectStart tag) := by
  refine h.andThen h.trim (h.next ?_)
  intro t
  exact .on (holds_ite (h.pure _) (h.refuse trivial))

theorem expectEnd (tag : Tag) : P _ (expectEnd tag) := by
  refine h.andThen h.trim (h.next ?_)
  intro t
  exact .on (holds_ite (h.pure _) (h.refuse trivial))

/-! ## Values -/

theorem readScalar {tag : Tag} (ht : tag ∈ scalarTags) : P _ (readScalar tag) := by
  refine h.bind h.readText ?_
  intro text
  exact h.andThen (h.expectEnd tag) (h.lift fun _ => ofContent_of_scalar ht)

variable {fuel : Nat}

theorem readTyped (hitems : P _ (readItems fuel)) (hmembers : P _ (readMembers fuel)) {tag : Tag}
    (ht : tag.isValueType = true) : P _ (readTyped fuel tag) := by
  rcases (isValueType_iff tag).mp ht with hscalar | rfl | rfl
  · rw [readTyped_scalar fuel hscalar]
    exact h.readScalar hscalar
  · refine h.andThen (h.expectStart _) (h.bind hitems ?_)
    intro items
    exact h.andThen (h.expectEnd _) (h.andThen (h.expectEnd _) (h.pure _))
  · refine h.bind hmembers ?_
    intro members
    exact h.andThen (h.expectEnd _) (h.pure _)

theorem readBody (hitems : P _ (readItems fuel)) (hmembers : P _ (readMembers fuel))
    (text : Option String) (t : Token) : P _ (readBody fuel text t) := by
  cases t with
  | endTag name => exact holds_ite (h.pure _) (h.refuse trivial)
  | startTag name =>
      refine h.lifted (fun _ => ofContent_of_typeOf) ?_
      intro tag htype
      obtain ⟨-, -, htag⟩ := typeOf_sound htype
      refine h.bind (h.readTyped hitems hmembers htag) ?_
      intro v
      exact h.andThen (h.expectEnd _) (h.pure _)
  | _ => exact h.refuse trivial

theorem readValue_succ (hitems : P _ (readItems fuel)) (hmembers : P _ (readMembers fuel)) :
    P _ (readValue (fuel + 1)) := by
  rw [Document.readValue_succ]
  refine h.andThen (h.expectStart _) (h.bind h.readText ?_)
  intro text
  refine h.next ?_
  intro t
  exact .on (h.readBody hitems hmembers text t)

theorem readItems_succ (hvalue : P _ (readValue fuel)) (hitems : P _ (readItems fuel)) :
    P _ (readItems (fuel + 1)) := by
  rw [readItems]
  refine h.andThen h.trim (h.next ?_)
  intro t
  cases t with
  | startTag name =>
      dsimp only
      split
      · refine .back (h.bind hvalue ?_)
        intro v
        refine h.bind hitems ?_
        intro vs
        exact h.pure _
      · exact .on (h.refuse trivial)
  | _ => exact .back (h.pure _)

theorem readMembers_succ (hvalue : P _ (readValue fuel)) (hmembers : P _ (readMembers fuel)) :
    P _ (readMembers (fuel + 1)) := by
  rw [readMembers]
  refine h.bind (h.nextStartIs _) ?_
  intro started
  refine holds_ite (h.andThen (h.expectStart _) (h.bind h.readText ?_)) (h.pure _)
  intro name
  cases name with
  | none => exact h.refuse trivial
  | some name =>
      refine h.andThen (h.expectEnd _) (h.bind hvalue ?_)
      intro v
      refine h.andThen (h.expectEnd _) (h.bind hmembers ?_)
      intro ms
      exact h.pure _

/-- By induction on the fuel, values, items and members together. -/
theorem readers (fuel : Nat) :
    P _ (readValue fuel) ∧ P _ (readItems fuel) ∧ P _ (readMembers fuel) := by
  induction fuel with
  | zero => exact ⟨h.refuse trivial, h.refuse trivial, h.refuse trivial⟩
  | succ fuel ih =>
      obtain ⟨hvalue, hitems, hmembers⟩ := ih
      exact ⟨h.readValue_succ hitems hmembers, h.readItems_succ hvalue hitems,
        h.readMembers_succ hvalue hmembers⟩

theorem readValue (fuel : Nat) : P _ (readValue fuel) := (h.readers fuel).1

/-! ## Envelopes -/

theorem readHeader : P _ readHeader := by
  refine h.andThen h.trim (h.read (h.pure _) ?_)
  intro t
  cases t with
  | declaration => exact .on (h.pure _)
  | _ => exact .unread (h.pure _)

theorem readParamList (valueFuel fuel : Nat) : P _ (readParamList valueFuel fuel) := by
  induction fuel with
  | zero => exact h.refuse trivial
  | succ fuel ih =>
      rw [Document.readParamList]
      refine h.bind (h.nextStartIs _) ?_
      intro started
      refine holds_ite (h.bind (h.readValue valueFuel) ?_) (h.pure _)
      intro v
      refine h.andThen (h.expectEnd _) (h.bind ih ?_)
      intro vs
      exact h.pure _

theorem readParams (fuel : Nat) : P _ (readParams fuel) := by
  refine h.bind (h.readParamList fuel fuel) ?_
  intro vs
  exact h.andThen (h.expectEnd _) (h.pure _)

theorem readOptionalParams (fuel : Nat) : P _ (readOptionalParams fuel) := by
  refine h.bind (h.nextStartIs _) ?_
  intro started
  exact holds_ite (h.readParams fuel) (h.pure _)

theorem readFault (fuel : Nat) : P _ (readFault fuel) := by
  refine h.andThen (h.expectStart _) (h.bind (h.readValue fuel) ?_)
  intro v
  exact holds_ite (h.andThen (h.expectEnd _) (h.pure _)) (h.refuse trivial)

theorem readResult (fuel : Nat) : P _ (readResult fuel) := by
  refine h.bind (h.nextStartIs _) ?_
  intro started
  refine holds_ite (h.bind (h.readParams fuel) ?_) (h.readFault fuel)
  intro params
  exact h.pure _

theorem readBareValue (fuel : Nat) : P _ (readBareValue fuel) :=
  h.andThen h.readHeader (h.readValue fuel)

theorem readCall (fuel : Nat) : P _ (readCall fuel) := by
  rw [readCall_eq]
  refine h.andThen h.readHeader (h.andThen (h.expectStart _) ?_)
  refine h.andThen (h.expectStart _) (h.bind h.readText ?_)
  intro method
  refine h.andThen (h.expectEnd _) (h.bind (h.readOptionalParams fuel) ?_)
  intro params
  exact h.andThen (h.expectEnd _) (h.pure _)

theorem readResponse (fuel : Nat) : P _ (readResponse fuel) := by
  rw [readResponse_eq]
  refine h.andThen h.readHeader (h.andThen (h.expectStart _) (h.bind (h.readResult fuel) ?_))
  intro response
  exact h.andThen (h.expectEnd _) (h.pure _)

end Compositional

end Document

end XmlRpc
