/-
# Faults exchanged

A fault takes one way over the wire, whoever writes it: a bare fault, one in
boxes, one that is an error, one inside an error.  It is received as an error
with its code and its message, and the slot stays as it was.

    written                      received
    a fault                      that fault
    an error without a fault     an internal error in the words of the error
    any other datum              a response that is no fault

A source that carries a fault where parameters could stand is received as an
error (`readResponse_carriesFault`), but for one: a fault without members
passes for a response without parameters.
-/
import XmlRpc.Proofs.Codec.Exchange

namespace XmlRpc

/-! ## Causes -/

def Cause.fault? : Cause → Option Fault
  | .fault f => some f
  | .error e => e.fault?
  | .other _ => none

def Cause.display : Cause → String
  | .fault f => f.display
  | .error e => e.display
  | .other message => message

theorem Response.ofCause_of_none {e : Cause} (h : e.fault? = none) :
    ofCause e = failure (FaultCode.internalError.fault e.display) := by
  cases e with
  | fault g => cases h
  | error e =>
      cases e with
      | fault g => cases h
      | _ => rfl
  | other m => rfl

/-! ## Responses that are faults -/

theorem Native.asFault?_boxes (n : Nat) (x : Native) :
    (Nat.iterate Native.boxed n x).asFault? = x.asFault? := by
  induction n generalizing x with
  | zero => rfl
  | succ n ih => exact ih (.boxed x)

theorem Response.reply_of_some {x : Native} {f : Fault} (h : x.asFault? = some f) :
    reply x = failure f := by
  rw [reply, h]

theorem Response.ofSource_failure (f : Fault) :
    Response.ofSource (.ofOctets (failure f).document) = .ok (failure f) := by
  have hnamed : (failure f).fault.Named := ⟨by decide, trivial, by decide, trivial, trivial⟩
  exact Document.ofSource_response (Document.documentForm_fault rfl hnamed)

/-- A struct with members is projected into a fault as some fault, or is a
misfit. -/
theorem Native.project_members (Γ : Schema) {ms : List Member} (h : ms ≠ []) (x : Native) :
    ∃ f m, project Γ (.struct ms) .fault x = ⟨.fault f, m⟩ := by
  cases ms with
  | nil => exact absurd rfl h
  | cons m ms => exact ⟨_, _, rfl⟩

theorem Response.toFault_of_isFault {r : Response} (h : r.isFault = true) :
    (∃ m, r.toFault = .error m) ∨ ∃ f, r.toFault = .ok (some f) := by
  rw [toFault, if_pos h]
  rw [isFault] at h
  split at h
  · rename_i ms hms
    have hne : ms ≠ [] := by
      rintro rfl
      cases h
    obtain ⟨f, m, hproject⟩ := Native.project_members [] hne (.fault .blank)
    simp only [hms, hproject]
    cases m with
    | some m => exact .inl ⟨m, rfl⟩
    | none => exact .inr ⟨f, rfl⟩
  · cases h

theorem Response.toFault_failure (f : Fault) : (failure f).toFault = .ok (some f) := by
  have hfault : (failure f).isFault = true := rfl
  rw [toFault, if_pos hfault]
  simp only [failure, Native.project_fault]
  rfl

/-! ## Sources that carry faults -/

def Markup.Token.opened? : Markup.Token → Option String
  | .startTag name => some name
  | _ => none

/-- Whether the first element of a source is a response, and the first inside
it a fault. -/
def Source.CarriesFault (source : Source) : Prop :=
  [Tag.methodResponse.label, Tag.fault.label] <+:
    (Markup.TokenReader.ofSource source).tokens.1.filterMap Markup.Token.opened?

namespace Document

open Markup (Token)

theorem Ws.opened {w : List Token} (h : Ws w) : w.filterMap Token.opened? = [] := by
  cases h <;> rfl

theorem HeaderForm.opened {hs : List Token} (h : HeaderForm hs) :
    hs.filterMap Token.opened? = [] := by
  cases h with
  | bare h₁ h₂ => rw [List.filterMap_append, h₁.opened, h₂.opened, List.nil_append]
  | declared h₁ h₂ =>
      rw [List.filterMap_append, h₁.opened, List.nil_append]
      exact h₂.opened

/-- What opens a fault in a response holds a struct and no parameters. -/
theorem response_of_opened {ts us : List Token} {r : Response}
    (h : DocumentForm ResponseForm ts r)
    (hf : [Tag.methodResponse.label, Tag.fault.label] <+: (ts ++ us).filterMap Token.opened?) :
    ∃ ms, r = ⟨[], .struct ms⟩ := by
  cases h with
  | mk hheader hroot =>
      cases hroot with
      | params hw hparams _ =>
          -- the second element opened is that of the parameters
          cases hparams with
          | mk _ _ =>
              simp only [List.append_assoc, List.cons_append, List.filterMap_append,
                List.filterMap_cons, hheader.opened, hw.opened, startOf, Token.opened?,
                List.nil_append, List.cons_prefix_cons] at hf
              exact absurd hf.2.1 (by decide)
      | @fault _ _ _ _ _ v _ _ _ hkind _ _ =>
          cases v with
          | struct ms => exact ⟨ms, rfl⟩
          | _ => cases hkind

end Document

/-! ## Codecs -/

namespace Codec

open Native (Schema Shape)

variable {Γ : Schema} {s : Shape} {slot : Native} {source : Source}

theorem readResponse_failure {f : Fault} (h : Response.ofSource source = .ok (.failure f)) :
    readResponse Γ source s slot = (.error (.fault f), slot) := by
  rw [readResponse, h]
  simp only [responseInto, received, Except.mapError, Response.toFault_failure]

theorem readResponse_isFault {r : Response} (h : Response.ofSource source = .ok r)
    (hr : r.isFault = true) : ∃ e, readResponse Γ source s slot = (.error e, slot) := by
  rw [readResponse, h]
  rcases Response.toFault_of_isFault hr with ⟨m, hm⟩ | ⟨f, hf⟩
  · exact ⟨m.toError, by simp only [responseInto, received, Except.mapError, hm]⟩
  · exact ⟨.fault f, by simp only [responseInto, received, Except.mapError, hf]⟩

/-- A fault is received as it was sent, and all ways to send it are one; an
error without a fault is received as an internal error; and a datum is sent as
a fault just if it is one. -/
theorem fault_exchange :
    (∀ f : Fault, ∃ o, (∀ c : Codec, Delivers (c.writeFault f .unlimited) o) ∧
      ∀ (Γ : Schema) (s : Shape) (slot : Native),
        readResponse Γ (.ofOctets o) s slot = (.error (.fault f), slot)) ∧
    (∀ (f : Fault) (c : Codec) (sink : Sink),
      (∀ n, c.writeResponse (Nat.iterate .boxed n (.fault f)) sink = c.writeFault f sink) ∧
      c.writeError (.fault f) sink = c.writeFault f sink ∧
      c.writeError (.error (.fault f)) sink = c.writeFault f sink) ∧
    (∀ e : Cause, e.fault? = none →
      ∃ o, (∀ c : Codec, Delivers (c.writeError e .unlimited) o) ∧
        ∀ (Γ : Schema) (s : Shape) (slot : Native), readResponse Γ (.ofOctets o) s slot
          = (.error (.fault ⟨FaultCode.internalError.number,
              if e.display = "" then FaultCode.internalError.defaultMessage else e.display⟩),
            slot)) ∧
    (∀ x : Native, x.toValue.Named →
      ∃ o, (∀ c : Codec, Delivers (c.writeResponse x .unlimited) o) ∧
        ∃ r, Response.ofSource (.ofOctets o) = .ok r ∧ r.toFault = .ok x.asFault? ∧
          (r.isFault = true ↔ ∃ f, x.asFault? = some f)) := by
  refine ⟨?_, ?_, ?_, ?_⟩
  · intro f
    refine ⟨(Response.failure f).document, fun c => delivers_write c _, ?_⟩
    intro Γ s slot
    exact readResponse_failure (Response.ofSource_failure f)
  · intro f c sink
    refine ⟨?_, rfl, rfl⟩
    intro n
    have hboxes := Native.asFault?_boxes n (.fault f)
    rw [writeResponse, Response.reply_of_some hboxes]
    rfl
  · intro e he
    refine ⟨(Response.ofCause e).document, fun c => delivers_write c _, ?_⟩
    intro Γ s slot
    rw [Response.ofCause_of_none he, readResponse_failure (Response.ofSource_failure _)]
    simp only [FaultCode.fault, String.isEmpty_iff]
  · intro x hx
    refine ⟨(Response.reply x).document, fun c => delivers_write c _, ?_⟩
    cases hf : x.asFault? with
    | some f =>
        rw [Response.reply_of_some hf]
        refine ⟨.failure f, Response.ofSource_failure f, Response.toFault_failure f, ?_⟩
        exact ⟨fun _ => ⟨f, rfl⟩, fun _ => rfl⟩
    | none =>
        rw [Response.reply_of_none hf]
        refine ⟨.success x.toValue.reread, Response.ofSource_success hx, rfl, nofun, ?_⟩
        rintro ⟨f, h⟩
        cases h

/-- An error without words is received in those of its code, and a map with
the members of a fault is no fault. -/
theorem fault_exchange_wordless :
    (∃ o, (∀ c : Codec, Delivers (c.writeError (.other "") .unlimited) o) ∧
      readResponse [] (.ofOctets o) .unit .unit
        = (.error (.fault ⟨FaultCode.internalError.number, "internal xml-rpc error"⟩), .unit)) ∧
    ∃ o, (∀ c : Codec, Delivers (c.writeResponse lookalike .unlimited) o) ∧
      ∃ r, Response.ofSource (.ofOctets o) = .ok r ∧ r.isFault = false := by
  obtain ⟨-, -, herror, hreply⟩ := fault_exchange
  refine ⟨?_, ?_⟩
  · obtain ⟨o, ho, hread⟩ := herror (.other "") rfl
    exact ⟨o, ho, hread [] .unit .unit⟩
  · obtain ⟨o, ho, r, hr, -, hfault⟩ :=
      hreply lookalike ⟨by decide, trivial, by decide, trivial, trivial⟩
    refine ⟨o, ho, r, hr, ?_⟩
    rw [Bool.eq_false_iff, ne_eq, hfault]
    rintro ⟨f, h⟩
    cases h

/-- What carries a fault leaves the slot as it is, and is received as an error
unless the fault has no members. -/
theorem readResponse_carriesFault (h : source.CarriesFault) :
    (readResponse Γ source s slot).2 = slot ∧
      ((readResponse Γ source s slot).1 = .ok () ↔
        Response.ofSource source = .ok ⟨[], .struct []⟩) := by
  cases hr : Response.ofSource source with
  | error p =>
      rw [readResponse, hr]
      refine ⟨rfl, ?_, ?_⟩
      all_goals
        intro hok
        cases hok
  | ok r =>
      obtain ⟨ts, ⟨us, hus⟩, hts⟩ := Document.response_iff.mp hr
      rw [Source.CarriesFault, ← hus] at h
      obtain ⟨ms, rfl⟩ := Document.response_of_opened hts h
      cases ms with
      | nil =>
          rw [readResponse, hr]
          exact ⟨rfl, fun _ => rfl, fun _ => rfl⟩
      | cons m ms =>
          have hread : ∃ e, readResponse Γ source s slot = (.error e, slot) :=
            readResponse_isFault hr rfl
          obtain ⟨e, he⟩ := hread
          rw [he]
          refine ⟨rfl, ?_, ?_⟩
          all_goals
            intro hok
            cases hok

/-- A fault without members passes for a success. -/
theorem readResponse_carriesFault_memberless :
    Source.CarriesFault (.ofOctets (Utf8.encodeString
        "<methodResponse><fault><value><struct></struct></value></fault></methodResponse>")) ∧
      readResponse [] (.ofOctets (Utf8.encodeString
        "<methodResponse><fault><value><struct></struct></value></fault></methodResponse>"))
        (.int .i32) (.int 7) = (.ok (), .int 7) := by
  have hrender : Utf8.encodeString
      "<methodResponse><fault><value><struct></struct></value></fault></methodResponse>"
      = Document.render [.element .methodResponse [.element .fault
          [Document.valueStep (.struct [])]]] := rfl
  have hfit : Document.FitAll [.element .methodResponse [.element .fault
      [Document.valueStep (.struct [])]]] :=
    ⟨⟨⟨Document.fit_valueStep _, trivial⟩, trivial⟩, trivial⟩
  have htokens := Document.tokens_render hfit
  have hresponse := Document.ResponseForm.fault .none .none
    (Document.valueForm_valueStep (.struct []) trivial) rfl .none .none
  rw [hrender]
  have hcarries : Source.CarriesFault (.ofOctets (Document.render
      [.element .methodResponse [.element .fault [Document.valueStep (.struct [])]]])) := by
    rw [Source.CarriesFault, htokens]
    exact ⟨[Tag.value.label, Tag.struct.label], rfl⟩
  obtain ⟨hslot, hok⟩ := @readResponse_carriesFault [] (.int .i32) (.int 7) _ hcarries
  refine ⟨hcarries, Prod.ext (hok.mpr ?_) hslot⟩
  refine Document.response_iff.mpr ⟨_, ?_, .mk (.bare .none .none) hresponse⟩
  exact Document.prefix_tokens_render hfit

end Codec

end XmlRpc
