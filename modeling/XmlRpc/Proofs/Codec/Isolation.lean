/-
# Codecs without a past

What a codec did before makes no difference to what it does next.  A document
is staged in a buffer that has been emptied, and events are read from one that
is emptied before each of them, so that every operation is answered as by a
codec that has done nothing yet (`run_answer`).

A pool hands codecs on from one holder to the next.  Of what it is asked, the
answers tell who holds a codec and no more: they are those of a *ledger*,
which has the names of the holders and no codecs at all.
-/
import XmlRpc.Codec.Lending
import XmlRpc.Proofs.Document.Scratch

namespace XmlRpc

open Native (Schema Shape)

variable {Γ : Schema}

/-! ## Codecs -/

namespace Codec

/-- What an operation is answered by a codec that has done nothing yet. -/
def fresh (Γ : Schema) (o : Operation) : Answer := ((new .standard).run Γ o).1

theorem parse_result {α : Type} {reading : Nat → Document.Reading α}
    (h : ∀ fuel, Document.Agrees (reading fuel)) (c : Codec) (source : Source) :
    (c.parse reading source).1 = Document.run reading source :=
  Document.runWith_eq_run h source c.scratch

theorem parse_call (c : Codec) (source : Source) :
    (c.parse Document.readCall source).1 = Call.ofSource source :=
  parse_result Document.compositional_agrees.readCall c source

theorem parse_response (c : Codec) (source : Source) :
    (c.parse Document.readResponse source).1 = Response.ofSource source :=
  parse_result Document.compositional_agrees.readResponse c source

theorem parse_value (c : Codec) (source : Source) :
    (c.parse Document.readBareValue source).1 = Value.ofSource source :=
  parse_result Document.compositional_agrees.readBareValue c source

/-- What is read is what the source alone tells. -/
theorem run_reading (c : Codec) (source : Source) (s : Shape) (slot : Native) :
    (c.run Γ (.readRequest source)).1 = .request (readRequest source) ∧
    (c.run Γ (.readRequestInto source s slot)).1
      = .requestInto (readRequestInto Γ source s slot).1 (readRequestInto Γ source s slot).2 ∧
    (c.run Γ (.readResponse source s slot)).1
      = .received (readResponse Γ source s slot).1 (readResponse Γ source s slot).2 ∧
    (c.run Γ (.readValue source s slot)).1
      = .received (readValue Γ source s slot).1 (readValue Γ source s slot).2 := by
  have hcall := c.parse_call source
  have hresponse := c.parse_response source
  have hvalue := c.parse_value source
  refine ⟨?_, ?_, ?_, ?_⟩
  · show Answer.request (requestOf (c.parse Document.readCall source).1) = _
    rw [hcall]
    rfl
  · show Answer.requestInto
        (requestInto Γ (requestOf (c.parse Document.readCall source).1) s slot).1
        (requestInto Γ (requestOf (c.parse Document.readCall source).1) s slot).2 = _
    rw [hcall]
    rfl
  · show Answer.received
        (responseInto Γ (c.parse Document.readResponse source).1 s slot).1
        (responseInto Γ (c.parse Document.readResponse source).1 s slot).2 = _
    rw [hresponse]
    rfl
  · show Answer.received
        (valueInto Γ (c.parse Document.readBareValue source).1 s slot).1
        (valueInto Γ (c.parse Document.readBareValue source).1 s slot).2 = _
    rw [hvalue]
    rfl

theorem run_answer (c d : Codec) (o : Operation) : (c.run Γ o).1 = (d.run Γ o).1 := by
  cases o with
  | readRequest source =>
      rw [(c.run_reading source .unit .unit).1, (d.run_reading source .unit .unit).1]
  | readRequestInto source s slot =>
      rw [(c.run_reading source s slot).2.1, (d.run_reading source s slot).2.1]
  | readResponse source s slot =>
      rw [(c.run_reading source s slot).2.2.1, (d.run_reading source s slot).2.2.1]
  | readValue source s slot =>
      rw [(c.run_reading source s slot).2.2.2, (d.run_reading source s slot).2.2.2]
  | _ => rfl

theorem runAll_answers (c : Codec) (os : List Operation) :
    (c.runAll Γ os).1 = os.map (fresh Γ) := by
  induction os generalizing c with
  | nil => rfl
  | cons o os ih =>
      have hrest := ih (c.run Γ o).2
      have hfirst := c.run_answer (Γ := Γ) (new .standard) o
      show (c.run Γ o).1 :: ((c.run Γ o).2.runAll Γ os).1 = _
      rw [hrest, hfirst]
      rfl

end Codec

/-! ## Pools -/

namespace Lending

variable {l : Lending} {holder : String}

/-- The names under which codecs are on loan. -/
def holders (l : Lending) : List String := l.loans.map (·.1)

theorem isSome_loan? : (l.loan? holder).isSome = true ↔ holder ∈ l.holders := by
  rw [loan?, Option.isSome_map, List.find?_isSome, holders, List.mem_map]
  simp only [beq_iff_eq]

theorem not_mem_of_loan? (h : l.loan? holder = none) : holder ∉ l.holders := by
  rw [← isSome_loan?, h]
  exact Bool.false_ne_true

theorem holders_settle : (l.settle holder).holders = l.holders.filter (· != holder) := by
  rw [settle]
  cases h : l.loan? holder with
  | some c =>
      rw [holders, holders, List.filter_map]
      rfl
  | none =>
      refine (List.filter_eq_self.mpr ?_).symm
      intro name hname
      refine bne_iff_ne.mpr ?_
      rintro rfl
      exact not_mem_of_loan? h hname

theorem holders_acquire :
    (l.acquire holder).holders = holder :: l.holders.filter (· != holder) := by
  have hsettled := @holders_settle { l with pool := l.pool.acquire.2 } holder
  exact congrArg (holder :: ·) hsettled

theorem use_outcome (o : Operation) : (l.use Γ holder o).1
    = if holder ∈ l.holders then .answered (Codec.fresh Γ o) else .noLoan := by
  rw [use]
  cases h : l.loan? holder with
  | some c =>
      have hmem : holder ∈ l.holders := isSome_loan?.mp (by rw [h]; rfl)
      rw [if_pos hmem]
      exact congrArg Outcome.answered (c.codec.run_answer _ o)
  | none => rw [if_neg (not_mem_of_loan? h)]

theorem holders_use (o : Operation) : (l.use Γ holder o).2.holders = l.holders := by
  rw [use]
  cases l.loan? holder with
  | some c => exact List.map_map
  | none => rfl

theorem lend_answer (o : Operation) : (l.lend Γ o).1 = Codec.fresh Γ o :=
  l.pool.acquire.1.codec.run_answer _ o

end Lending

namespace Ledger

open Lending (Request Outcome)

mutual

/-- Answers what is asked of a pool, by the names of those who hold codecs. -/
def step (Γ : Schema) (held : List String) : Request → Outcome × List String
  | .acquire holder => (.done, holder :: held.filter (· != holder))
  | .release holder =>
      (if holder ∈ held then .done else .noLoan, held.filter (· != holder))
  | .use holder o =>
      (if holder ∈ held then .answered (Codec.fresh Γ o) else .noLoan, held)
  | .lend o => (.answered (Codec.fresh Γ o), held)
  | .abandon => (.done, held)
  | .within holder body =>
      let (outcomes, held) := run Γ (holder :: held.filter (· != holder)) body
      (.within outcomes, held.filter (· != holder))
termination_by structural r => r

def run (Γ : Schema) (held : List String) : List Request → List Outcome × List String
  | [] => ([], held)
  | r :: rs =>
      let (o, held) := step Γ held r
      let (os, held) := run Γ held rs
      (o :: os, held)
termination_by structural rs => rs

end

end Ledger

namespace Lending

/-- Whether a pool has answered as a ledger has, and is left with its
holders. -/
def Keeps {α : Type} (x : α × Lending) (y : α × List String) : Prop :=
  x.1 = y.1 ∧ x.2.holders = y.2

mutual

theorem step_keeps (l : Lending) : ∀ r, Keeps (l.step Γ r) (Ledger.step Γ l.holders r)
  | .acquire holder => ⟨rfl, holders_acquire⟩
  | .release holder => by
      refine ⟨?_, holders_settle⟩
      show (if (l.loan? holder).isSome = true then _ else _) = _
      simp only [isSome_loan?]
      rfl
  | .use holder o => ⟨use_outcome o, holders_use o⟩
  | .lend o => ⟨congrArg Outcome.answered (lend_answer o), rfl⟩
  | .abandon => ⟨rfl, rfl⟩
  | .within holder body => by
      obtain ⟨houtcomes, hholders⟩ := run_keeps (l.acquire holder) body
      rw [holders_acquire] at houtcomes hholders
      refine ⟨congrArg Outcome.within houtcomes, ?_⟩
      show (settle _ holder).holders = _
      rw [holders_settle, hholders]
      rfl

theorem run_keeps (l : Lending) : ∀ rs, Keeps (l.run Γ rs) (Ledger.run Γ l.holders rs)
  | [] => ⟨rfl, rfl⟩
  | r :: rs => by
      obtain ⟨hfirst, hheld⟩ := step_keeps l r
      obtain ⟨hrest, hholders⟩ := run_keeps (l.step Γ r).2 rs
      rw [hheld] at hrest hholders
      refine ⟨?_, hholders⟩
      show (l.step Γ r).1 :: ((l.step Γ r).2.run Γ rs).1 = _
      rw [hfirst, hrest]
      rfl

end

/-- Every operation is answered as by a codec that has done nothing yet,
whatever was done before with the codec, with another one of its pool, or with
the pool. -/
theorem answers_fresh (Γ : Schema) :
    (∀ (c : Codec) (os : List Operation), (c.runAll Γ os).1 = os.map (Codec.fresh Γ)) ∧
    ∀ (l : Lending) (rs : List Request), (l.run Γ rs).1 = (Ledger.run Γ l.holders rs).1 := by
  refine ⟨?_, ?_⟩
  · intro c os
    exact c.runAll_answers os
  · intro l rs
    exact (run_keeps l rs).1

end Lending

end XmlRpc
