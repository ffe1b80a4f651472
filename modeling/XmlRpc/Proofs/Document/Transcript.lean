/-
# Transcripts

Readers that write down what they do.  They go the same way as the readers of
documents, step by step, and note two things:

    entry     the reader of values is entered
    round     a round of one of the three loops is completed, over items, members
              or parameters; with the tokens ahead before it and after it

Without the notes they are those readers (`Erases`).  They tell apart what a reader
of documents does not: that the fuel is used up is no problem of the document
(`Stop`).  More fuel changes nothing about a run that has not used it up
(`Outlasts`).
-/
import XmlRpc.Proofs.Document.Compound

namespace XmlRpc

namespace Document

open Markup (Token TokenReader Stream)

/-! ## Notes -/

inductive Mark where
  | entry
  | round (before after : Stream)

/-- Why a reader that notes what it does has not come to a result. -/
inductive Stop where
  | problem (p : Problem)
  | starved

/-- What such a reader works on: the tokens, and what has been noted. -/
abbrev Desk := TokenReader × List Mark

abbrev Noting (α : Type) := EStateM Stop Desk α

variable {α β : Type}

/-- A reader that has nothing to note. -/
def quiet (m : Reading α) : Noting α := fun (r, ms) =>
  match m r with
  | .ok a r' => .ok a (r', ms)
  | .error p r' => .error (.problem p) (r', ms)

def note (mark : Mark) : Noting Unit := fun (r, ms) => .ok () (r, ms ++ [mark])

def ahead : Noting Stream := fun (r, ms) => .ok r.tokens (r, ms)

def noteRound (before : Stream) : Noting Unit := fun (r, ms) =>
  .ok () (r, ms ++ [.round before r.tokens])

/-! ## Values -/

/-- Looks whether a value comes next, and leaves it there.  No other element may
come. -/
def nextIsValue : Reading Bool := do
  trim
  match ← next with
  | .startTag name =>
    if name = Tag.value.label then
      unread (.startTag name)
      return true
    else throw (.strayElement name)
  | other =>
    unread other
    return false

section Inside

variable (items : Noting (List Value)) (members : Noting (List Member))

def noteTyped : Tag → Noting Value
  | .array => do
    quiet (expectStart .data)
    let vs ← items
    quiet (expectEnd .data)
    quiet (expectEnd .array)
    return .array vs
  | .struct => do
    let ms ← members
    quiet (expectEnd .struct)
    return .struct ms
  | tag => quiet (readScalar tag)

def noteBody (text : Option String) : Token → Noting Value
  | .endTag name =>
    if name = Tag.value.label then return text.elim .nil .string
    else throw (.problem (.misplaced Tag.value.closeTag (.endTag name)))
  | .startTag name => do
    let tag ← quiet (liftM (typeOf text name))
    let v ← noteTyped items members tag
    quiet (expectEnd .value)
    return v
  | other => throw (.problem (.misplaced Tag.value.closeTag other))

end Inside

mutual

def noteValue : Nat → Noting Value
  | 0 => throw .starved
  | fuel + 1 => do
    note .entry
    quiet (expectStart .value)
    let text ← quiet readText
    let t ← quiet next
    noteBody (noteItems fuel) (noteMembers fuel) text t

def noteItems : Nat → Noting (List Value)
  | 0 => throw .starved
  | fuel + 1 => do
    let before ← ahead
    if ← quiet nextIsValue then
      let v ← noteValue fuel
      noteRound before
      let vs ← noteItems fuel
      return v :: vs
    else return []

def noteMembers : Nat → Noting (List Member)
  | 0 => throw .starved
  | fuel + 1 => do
    let before ← ahead
    if ← quiet (nextStartIs .member) then
      quiet (expectStart .name)
      match ← quiet readText with
      | none => throw (.problem .namelessMember)
      | some name =>
        quiet (expectEnd .name)
        let v ← noteValue fuel
        quiet (expectEnd .member)
        noteRound before
        let ms ← noteMembers fuel
        return ⟨name, v⟩ :: ms
    else return []

end

/-! ## Envelopes -/

def noteParamList (valueFuel : Nat) : Nat → Noting Params
  | 0 => throw .starved
  | fuel + 1 => do
    let before ← ahead
    if ← quiet (nextStartIs .param) then
      let v ← noteValue valueFuel
      quiet (expectEnd .param)
      noteRound before
      let vs ← noteParamList valueFuel fuel
      return v :: vs
    else return []

def noteParams (fuel : Nat) : Noting Params := do
  let vs ← noteParamList fuel fuel
  quiet (expectEnd .params)
  return vs

def noteOptionalParams (fuel : Nat) : Noting Params := do
  if ← quiet (nextStartIs .params) then noteParams fuel else return []

def noteCall (fuel : Nat) : Noting Call := do
  quiet readHeader
  quiet (expectStart .methodCall)
  quiet (expectStart .methodName)
  let method ← quiet readText
  quiet (expectEnd .methodName)
  let params ← noteOptionalParams fuel
  quiet (expectEnd .methodCall)
  return ⟨method.getD "", params⟩

def noteFault (fuel : Nat) : Noting Response := do
  quiet (expectStart .fault)
  let v ← noteValue fuel
  if v.kind = .struct then
    quiet (expectEnd .fault)
    return ⟨[], v⟩
  else throw (.problem (.faultNotStruct v.kind))

def noteResult (fuel : Nat) : Noting Response := do
  if ← quiet (nextStartIs .params) then
    let params ← noteParams fuel
    return ⟨params, .nil⟩
  else noteFault fuel

def noteResponse (fuel : Nat) : Noting Response := do
  quiet readHeader
  quiet (expectStart .methodResponse)
  let response ← noteResult fuel
  quiet (expectEnd .methodResponse)
  return response

def noteBareValue (fuel : Nat) : Noting Value := do
  quiet readHeader
  noteValue fuel

/-! ## Without the notes -/

/-- An outcome without the notes.  A reader of documents that has used up its fuel
says that the input ends. -/
def erase : EStateM.Result Stop Desk α → EStateM.Result Problem TokenReader α
  | .ok a (r, _) => .ok a r
  | .error (.problem p) (r, _) => .error p r
  | .error .starved (r, _) => .error .unexpectedEnd r

/-- Whether a reader that notes what it does is that one without the notes. -/
def Erases (m : Noting α) (n : Reading α) : Prop := ∀ x : Desk, erase (m x) = n x.1

theorem noting_bind_apply (m : Noting α) (f : α → Noting β) (x : Desk) :
    (m >>= f) x = match m x with
      | .ok a y => f a y
      | .error p y => .error p y := by
  change EStateM.bind m f x = _
  rw [EStateM.bind]
  cases m x <;> rfl

theorem erases_quiet (m : Reading α) : Erases (quiet m) m := by
  rintro ⟨r, ms⟩
  rw [quiet]
  cases m r <;> rfl

theorem erases_pure (a : α) : Erases (pure a) (pure a) := fun _ => rfl

theorem erases_throw (p : Problem) : Erases (throw (.problem p) : Noting α) (throw p) :=
  fun _ => rfl

theorem erases_starved : Erases (throw .starved : Noting α) (throw .unexpectedEnd) := fun _ => rfl

theorem Erases.bind {m : Noting α} {n : Reading α} {f : α → Noting β} {g : α → Reading β}
    (hm : Erases m n) (hf : ∀ a, Erases (f a) (g a)) : Erases (m >>= f) (n >>= g) := by
  intro x
  have hx := hm x
  rw [noting_bind_apply, bind_apply, ← hx]
  match m x with
  | .ok a y => exact hf a y
  | .error (.problem p) y => rfl
  | .error .starved y => rfl

theorem Erases.noted {mark : Mark} {f : Unit → Noting β} {n : Reading β} (hf : Erases (f ()) n) :
    Erases (note mark >>= f) n := fun x => hf (x.1, x.2 ++ [mark])

theorem Erases.looked {f : Stream → Noting β} {n : Reading β} (hf : ∀ st, Erases (f st) n) :
    Erases (ahead >>= f) n := fun x => hf x.1.tokens x

theorem Erases.roundNoted {before : Stream} {f : Unit → Noting β} {n : Reading β}
    (hf : Erases (f ()) n) : Erases (noteRound before >>= f) n :=
  fun x => hf (x.1, x.2 ++ [Mark.round before x.1.tokens])

theorem Erases.ite {p : Prop} [Decidable p] {m m' : Noting α} {n n' : Reading α}
    (h : Erases m n) (h' : Erases m' n') : Erases (if p then m else m') (if p then n else n') := by
  split
  · exact h
  · exact h'

theorem readItems_succ (fuel : Nat) : readItems (fuel + 1) = (do
    if ← nextIsValue then
      let v ← readValue fuel
      let vs ← readItems fuel
      return v :: vs
    else return []) := by
  rw [readItems, nextIsValue, bind_assoc]
  refine bind_congr ?_
  intro _
  rw [bind_assoc]
  refine bind_congr ?_
  intro t
  cases t with
  | startTag name =>
      dsimp only
      split
      · rw [bind_assoc]
        rfl
      · rfl
  | _ => rw [bind_assoc]; rfl

section Inside

variable {fuel : Nat} {items : Noting (List Value)} {members : Noting (List Member)}

theorem erases_noteTyped (hi : Erases items (readItems fuel))
    (hm : Erases members (readMembers fuel)) (tag : Tag) :
    Erases (noteTyped items members tag) (readTyped fuel tag) := by
  cases tag with
  | array =>
      refine (erases_quiet _).bind fun _ => hi.bind fun vs => ?_
      exact (erases_quiet _).bind fun _ => (erases_quiet _).bind fun _ => erases_pure _
  | struct =>
      refine hm.bind fun ms => ?_
      exact (erases_quiet _).bind fun _ => erases_pure _
  | _ => exact erases_quiet _

theorem erases_noteBody (hi : Erases items (readItems fuel))
    (hm : Erases members (readMembers fuel)) (text : Option String) (t : Token) :
    Erases (noteBody items members text t) (readBody fuel text t) := by
  cases t with
  | endTag name => exact (erases_pure _).ite (erases_throw _)
  | startTag name =>
      refine (erases_quiet _).bind fun tag => (erases_noteTyped hi hm tag).bind fun v => ?_
      exact (erases_quiet _).bind fun _ => erases_pure _
  | _ => exact erases_throw _

end Inside

/-- By induction on the fuel, values, items and members together. -/
theorem erases_readers (fuel : Nat) : Erases (noteValue fuel) (readValue fuel) ∧
    Erases (noteItems fuel) (readItems fuel) ∧ Erases (noteMembers fuel) (readMembers fuel) := by
  induction fuel with
  | zero => exact ⟨erases_starved, erases_starved, erases_starved⟩
  | succ fuel ih =>
      obtain ⟨hv, hi, hm⟩ := ih
      refine ⟨?_, ?_, ?_⟩
      · rw [noteValue, readValue_succ]
        refine .noted ((erases_quiet _).bind fun _ => (erases_quiet _).bind fun text => ?_)
        exact (erases_quiet _).bind fun t => erases_noteBody hi hm text t
      · rw [noteItems, readItems_succ]
        refine .looked fun before => (erases_quiet _).bind fun started => ?_
        refine .ite (hv.bind fun v => .roundNoted (hi.bind fun vs => ?_)) (erases_pure _)
        exact erases_pure _
      · rw [noteMembers, readMembers]
        refine .looked fun before => (erases_quiet _).bind fun started => .ite ?_ (erases_pure _)
        refine (erases_quiet _).bind fun _ => (erases_quiet _).bind fun name => ?_
        cases name with
        | none => exact erases_throw _
        | some name =>
            refine (erases_quiet _).bind fun _ => hv.bind fun v => (erases_quiet _).bind fun _ => ?_
            exact .roundNoted (hm.bind fun ms => erases_pure _)

theorem erases_noteValue (fuel : Nat) : Erases (noteValue fuel) (readValue fuel) :=
  (erases_readers fuel).1

theorem erases_noteParamList (valueFuel fuel : Nat) :
    Erases (noteParamList valueFuel fuel) (readParamList valueFuel fuel) := by
  induction fuel with
  | zero => exact erases_starved
  | succ fuel ih =>
      rw [noteParamList, readParamList]
      refine .looked fun before => (erases_quiet _).bind fun started => .ite ?_ (erases_pure _)
      refine (erases_noteValue valueFuel).bind fun v => (erases_quiet _).bind fun _ => ?_
      exact .roundNoted (ih.bind fun vs => erases_pure _)

theorem erases_noteParams (fuel : Nat) : Erases (noteParams fuel) (readParams fuel) := by
  refine (erases_noteParamList fuel fuel).bind fun vs => ?_
  exact (erases_quiet _).bind fun _ => erases_pure _

theorem erases_noteOptionalParams (fuel : Nat) :
    Erases (noteOptionalParams fuel) (readOptionalParams fuel) :=
  (erases_quiet _).bind fun _ => (erases_noteParams fuel).ite (erases_pure _)

theorem erases_noteCall (fuel : Nat) : Erases (noteCall fuel) (readCall fuel) := by
  rw [readCall_eq]
  refine (erases_quiet _).bind fun _ => (erases_quiet _).bind fun _ => ?_
  refine (erases_quiet _).bind fun _ => (erases_quiet _).bind fun method => ?_
  refine (erases_quiet _).bind fun _ => (erases_noteOptionalParams fuel).bind fun params => ?_
  exact (erases_quiet _).bind fun _ => erases_pure _

theorem erases_noteFault (fuel : Nat) : Erases (noteFault fuel) (readFault fuel) := by
  refine (erases_quiet _).bind fun _ => (erases_noteValue fuel).bind fun v => ?_
  exact .ite ((erases_quiet _).bind fun _ => erases_pure _) (erases_throw _)

theorem erases_noteResult (fuel : Nat) : Erases (noteResult fuel) (readResult fuel) := by
  refine (erases_quiet _).bind fun started => .ite ?_ (erases_noteFault fuel)
  exact (erases_noteParams fuel).bind fun params => erases_pure _

theorem erases_noteResponse (fuel : Nat) : Erases (noteResponse fuel) (readResponse fuel) := by
  rw [readResponse_eq]
  refine (erases_quiet _).bind fun _ => (erases_quiet _).bind fun _ => ?_
  refine (erases_noteResult fuel).bind fun response => ?_
  exact (erases_quiet _).bind fun _ => erases_pure _

theorem erases_noteBareValue (fuel : Nat) : Erases (noteBareValue fuel) (readBareValue fuel) :=
  (erases_quiet _).bind fun _ => erases_noteValue fuel

/-! ## More fuel -/

/-- Whether a reader does what another one does wherever that has fuel enough. -/
def Outlasts (m' m : Noting α) : Prop :=
  ∀ x, (∀ y, m x ≠ .error .starved y) → m' x = m x

theorem Outlasts.refl (m : Noting α) : Outlasts m m := fun _ _ => rfl

theorem outlasts_starved (m : Noting α) : Outlasts m (throw .starved) :=
  fun x h => absurd rfl (h x)

theorem Outlasts.trans {m m' m'' : Noting α} (h' : Outlasts m'' m') (h : Outlasts m' m) :
    Outlasts m'' m := by
  intro x hx
  have heq := h x hx
  rw [← heq] at hx ⊢
  exact h' x hx

theorem Outlasts.bind {m m' : Noting α} {f f' : α → Noting β} (hm : Outlasts m' m)
    (hf : ∀ a, Outlasts (f' a) (f a)) : Outlasts (m' >>= f') (m >>= f) := by
  intro x hx
  rw [noting_bind_apply] at hx
  have hfirst : ∀ y, m x ≠ .error .starved y := by
    intro y hy
    rw [hy] at hx
    exact hx y rfl
  rw [noting_bind_apply, noting_bind_apply, hm x hfirst]
  match hmx : m x with
  | .ok a y =>
      rw [hmx] at hx
      exact hf a y hx
  | .error p y => rfl

theorem Outlasts.then (m : Noting α) {f f' : α → Noting β} (hf : ∀ a, Outlasts (f' a) (f a)) :
    Outlasts (m >>= f') (m >>= f) := (Outlasts.refl m).bind hf

theorem Outlasts.ite {p : Prop} [Decidable p] {m m' n n' : Noting α} (hm : Outlasts m' m)
    (hn : Outlasts n' n) : Outlasts (if p then m' else n') (if p then m else n) := by
  split
  · exact hm
  · exact hn

section Inside

variable {items items' : Noting (List Value)} {members members' : Noting (List Member)}

theorem outlasts_noteTyped (hi : Outlasts items' items) (hm : Outlasts members' members)
    (tag : Tag) : Outlasts (noteTyped items' members' tag) (noteTyped items members tag) := by
  cases tag with
  | array => exact .then _ fun _ => hi.bind fun vs => .refl _
  | struct => exact hm.bind fun ms => .refl _
  | _ => exact .refl _

theorem outlasts_noteBody (hi : Outlasts items' items) (hm : Outlasts members' members)
    (text : Option String) (t : Token) :
    Outlasts (noteBody items' members' text t) (noteBody items members text t) := by
  cases t with
  | startTag name => exact .then _ fun tag => (outlasts_noteTyped hi hm tag).bind fun v => .refl _
  | _ => exact .refl _

end Inside

/-- By induction on the fuel, values, items and members together. -/
theorem outlasts_readers (fuel : Nat) : Outlasts (noteValue (fuel + 1)) (noteValue fuel) ∧
    Outlasts (noteItems (fuel + 1)) (noteItems fuel) ∧
    Outlasts (noteMembers (fuel + 1)) (noteMembers fuel) := by
  induction fuel with
  | zero => exact ⟨outlasts_starved _, outlasts_starved _, outlasts_starved _⟩
  | succ fuel ih =>
      obtain ⟨hv, hi, hm⟩ := ih
      refine ⟨?_, ?_, ?_⟩
      · rw [noteValue, noteValue]
        refine .then _ fun _ => .then _ fun _ => .then _ fun text => .then _ fun t => ?_
        exact outlasts_noteBody hi hm text t
      · rw [noteItems, noteItems]
        refine .then _ fun before => .then _ fun started => .ite (hv.bind fun v => ?_) (.refl _)
        exact .then _ fun _ => hi.bind fun vs => .refl _
      · rw [noteMembers, noteMembers]
        refine .then _ fun before => .then _ fun started => .ite ?_ (.refl _)
        refine .then _ fun _ => .then _ fun name => ?_
        cases name with
        | none => exact .refl _
        | some name =>
            refine .then _ fun _ => hv.bind fun v => .then _ fun _ => .then _ fun _ => ?_
            exact hm.bind fun ms => .refl _

theorem outlasts_noteValue (fuel : Nat) : Outlasts (noteValue (fuel + 1)) (noteValue fuel) :=
  (outlasts_readers fuel).1

/-- A list of parameters has fuel of its own, besides that for each of them. -/
theorem outlasts_noteParamList {valueFuel valueFuel' : Nat}
    (hv : Outlasts (noteValue valueFuel') (noteValue valueFuel)) (fuel : Nat) :
    Outlasts (noteParamList valueFuel' (fuel + 1)) (noteParamList valueFuel fuel) := by
  induction fuel with
  | zero => exact outlasts_starved _
  | succ fuel ih =>
      rw [noteParamList, noteParamList]
      refine .then _ fun before => .then _ fun started => .ite (hv.bind fun v => ?_) (.refl _)
      exact .then _ fun _ => .then _ fun _ => ih.bind fun vs => .refl _

theorem outlasts_noteParams (fuel : Nat) : Outlasts (noteParams (fuel + 1)) (noteParams fuel) :=
  (outlasts_noteParamList (outlasts_noteValue fuel) fuel).bind fun _ => .refl _

theorem outlasts_noteCall (fuel : Nat) : Outlasts (noteCall (fuel + 1)) (noteCall fuel) := by
  refine .then _ fun _ => .then _ fun _ => .then _ fun _ => .then _ fun method => ?_
  refine .then _ fun _ => .bind (.then _ fun started => ?_) fun params => .refl _
  exact (outlasts_noteParams fuel).ite (.refl _)

theorem outlasts_noteFault (fuel : Nat) : Outlasts (noteFault (fuel + 1)) (noteFault fuel) :=
  .then _ fun _ => (outlasts_noteValue fuel).bind fun _ => .refl _

theorem outlasts_noteResponse (fuel : Nat) :
    Outlasts (noteResponse (fuel + 1)) (noteResponse fuel) := by
  refine .then _ fun _ => .then _ fun _ => .bind (.then _ fun started => ?_) fun response => .refl _
  exact .ite ((outlasts_noteParams fuel).bind fun params => .refl _) (outlasts_noteFault fuel)

theorem outlasts_noteBareValue (fuel : Nat) :
    Outlasts (noteBareValue (fuel + 1)) (noteBareValue fuel) :=
  .then _ fun _ => outlasts_noteValue fuel

end Document

end XmlRpc
