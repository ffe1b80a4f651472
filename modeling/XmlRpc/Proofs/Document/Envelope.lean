/-
# Calls and responses read back

Calls and responses are written around the documents of values, and read back
around them.  What comes back

    of a call       its method, and each parameter as it is read alone
    of a fault      no parameters, and the fault as it is read alone
    of a response   each parameter as it is read alone, and no fault

A response is written as a fault if its fault slot holds members, and only
then; whatever stands in the other slot is not written.
-/
import Mathlib.Data.List.Forall2
import XmlRpc.Proofs.Document.RoundTrip

namespace XmlRpc

/-! ## What is read of a value that stands alone -/

/-- What reading gives where this value was written as a document of its
own. -/
def Value.ReadsAs (v w : Value) : Prop := Value.ofSource (.ofOctets v.document) = .ok w

/-- Whether every member that is written has a name: those of the fault if the
response is one, and otherwise those of the parameters. -/
def Response.WrittenNamed (r : Response) : Prop :=
  (r.isFault = true → r.fault.Named) ∧ (r.isFault = false → ∀ v ∈ r.params, v.Named)

namespace Document

open Markup (TokenReader)

theorem readsAs_reread {v : Value} (h : v.Named) : v.ReadsAs v.reread := ofSource_of_named h

theorem forall₂_readsAs {vs : Params} (h : ∀ v ∈ vs, v.Named) :
    List.Forall₂ Value.ReadsAs vs (vs.map Value.reread) := by
  refine List.forall₂_map_right_iff.mpr (List.forall₂_same.mpr ?_)
  intro v hv
  exact readsAs_reread (h v hv)

theorem isFault_reread (ps qs : Params) (v : Value) :
    Response.isFault ⟨ps, v.reread⟩ = Response.isFault ⟨qs, v⟩ := by
  cases v with
  | struct members =>
      cases members with
      | nil => rfl
      | cons m ms => cases m with | mk name v => rfl
  | _ => rfl

/-! ## The tokens of envelopes -/

theorem fit_paramsStep (vs : Params) : (paramsStep vs).Fit := by
  show FitAll (vs.map fun v => .element .param [valueStep v])
  induction vs with
  | nil => exact trivial
  | cons v vs ih => exact ⟨⟨fit_valueStep v, trivial⟩, ih⟩

theorem headerForm_declaration : HeaderForm (Step.tokens .declaration) :=
  @HeaderForm.declared [] [.text "\n"] .none (.blank rfl)

theorem paramListForm_steps {vs : Params} (h : ∀ v ∈ vs, v.Named) :
    ParamListForm (tokensOf (vs.map fun v => .element .param [valueStep v]))
      (vs.map Value.reread) := by
  induction vs with
  | nil => exact .nil
  | cons v vs ih =>
      have hv := valueForm_valueStep v (h v List.mem_cons_self)
      have hvs := ih fun u hu => h u (List.mem_cons_of_mem v hu)
      have hparam := ParamListForm.cons .none .none hv .none hvs
      simpa [Step.tokens, tokensOf] using hparam

theorem paramsForm_paramsStep {vs : Params} (h : ∀ v ∈ vs, v.Named) :
    ParamsForm (paramsStep vs).tokens (vs.map Value.reread) := by
  have hparams := ParamsForm.mk (paramListForm_steps h) .none
  simpa [paramsStep, Step.tokens] using hparams

theorem documentForm_callSteps {c : Call} (h : ∀ v ∈ c.params, v.Named) :
    DocumentForm CallForm (tokensOf (callSteps c)) ⟨c.method, c.params.map Value.reread⟩ := by
  have hname := optionalText_textTokens c.method.toList
  rw [String.ofList_toList] at hname
  have hcall := CallForm.mk .none hname (.params .none (paramsForm_paramsStep h)) .none
  have hdocument := DocumentForm.mk headerForm_declaration hcall
  simpa [callSteps, Step.tokens, tokensOf] using hdocument

theorem documentForm_params {r : Response} (hr : r.isFault = false)
    (h : ∀ v ∈ r.params, v.Named) :
    DocumentForm ResponseForm (tokensOf (responseSteps r)) ⟨r.params.map Value.reread, .nil⟩ := by
  have hresponse := ResponseForm.params .none (paramsForm_paramsStep h) .none
  have hdocument := DocumentForm.mk headerForm_declaration hresponse
  simpa [responseSteps, hr, Step.tokens, tokensOf] using hdocument

theorem documentForm_fault {r : Response} (hr : r.isFault = true) (h : r.fault.Named) :
    DocumentForm ResponseForm (tokensOf (responseSteps r)) ⟨[], r.fault.reread⟩ := by
  have hkind : r.fault.reread.kind = .struct := by
    rw [Response.isFault] at hr
    split at hr
    · rename_i members hmembers
      rw [hmembers]
      rfl
    · cases hr
  have hvalue := valueForm_valueStep r.fault h
  have hresponse := ResponseForm.fault .none .none hvalue hkind .none .none
  have hdocument := DocumentForm.mk headerForm_declaration hresponse
  simpa [responseSteps, hr, Step.tokens, tokensOf] using hdocument

/-! ## Documents of calls and responses -/

theorem prefix_tokens_render {ss : List Step} (h : FitAll ss) :
    tokensOf ss <+: (TokenReader.ofSource (.ofOctets (render ss))).tokens.1 :=
  congrArg Prod.fst (tokens_render h) ▸ List.prefix_refl _

theorem ofSource_call {c : Call} (h : ∀ v ∈ c.params, v.Named) :
    Call.ofSource (.ofOctets c.document) = .ok ⟨c.method, c.params.map Value.reread⟩ := by
  have hfit : FitAll (callSteps c) :=
    ⟨trivial, ⟨trivial, fit_paramsStep c.params, trivial⟩, trivial⟩
  exact call_iff.mpr ⟨_, prefix_tokens_render hfit, documentForm_callSteps h⟩

theorem ofSource_response {r a : Response}
    (h : DocumentForm ResponseForm (tokensOf (responseSteps r)) a) :
    Response.ofSource (.ofOctets r.document) = .ok a := by
  have hfit : FitAll (responseSteps r) := by
    refine ⟨trivial, ⟨?_, trivial⟩, trivial⟩
    split
    · exact ⟨fit_valueStep r.fault, trivial⟩
    · exact fit_paramsStep r.params
  exact response_iff.mpr ⟨_, prefix_tokens_render hfit, h⟩

/-- What is written as a call is read as that call, and what is written as a
response as that response less what is not written: the method is kept
exactly, and each value is what it would be in a document of its own. -/
theorem ofSource_envelope :
    (∀ c : Call, (∀ v ∈ c.params, v.Named) →
      ∃ vs, List.Forall₂ Value.ReadsAs c.params vs ∧
        Call.ofSource (.ofOctets c.document) = .ok ⟨c.method, vs⟩) ∧
    (∀ r : Response, r.WrittenNamed →
      ∃ back, Response.ofSource (.ofOctets r.document) = .ok back ∧ back.isFault = r.isFault ∧
        (r.isFault = true → back.params = [] ∧ r.fault.ReadsAs back.fault) ∧
        (r.isFault = false →
          List.Forall₂ Value.ReadsAs r.params back.params ∧ back.fault = .nil)) := by
  refine ⟨?_, ?_⟩
  · intro c h
    exact ⟨_, forall₂_readsAs h, ofSource_call h⟩
  · rintro r ⟨hfault, hparams⟩
    cases hr : r.isFault with
    | true =>
        refine ⟨_, ofSource_response (documentForm_fault hr (hfault hr)), ?_, ?_, nofun⟩
        · rw [isFault_reread [] r.params]
          exact hr
        · exact fun _ => ⟨rfl, readsAs_reread (hfault hr)⟩
    | false =>
        refine ⟨_, ofSource_response (documentForm_params hr (hparams hr)), rfl, nofun, ?_⟩
        exact fun _ => ⟨forall₂_readsAs (hparams hr), rfl⟩

/-- A blank method without parameters comes back, and so does a fault without
the nameless member among the parameters beside it. -/
theorem ofSource_envelope_blank :
    (∃ vs, List.Forall₂ Value.ReadsAs [] vs ∧
      Call.ofSource (.ofOctets (Call.document ⟨" \n", []⟩)) = .ok ⟨" \n", vs⟩) ∧
    ∃ back, Response.ofSource (.ofOctets (Response.document
        ⟨[.struct [⟨"", .nil⟩]], .struct [⟨"reason", .string "<&>"⟩]⟩)) = .ok back ∧
      back.isFault = true ∧ back.params = [] := by
  refine ⟨ofSource_envelope.1 ⟨" \n", []⟩ (by simp), ?_⟩
  obtain ⟨back, hback, hfault, hkept, -⟩ := ofSource_envelope.2
    ⟨[.struct [⟨"", .nil⟩]], .struct [⟨"reason", .string "<&>"⟩]⟩
    ⟨fun _ => ⟨by decide, trivial, trivial⟩, nofun⟩
  exact ⟨back, hback, hfault, (hkept rfl).1⟩

end Document

end XmlRpc
