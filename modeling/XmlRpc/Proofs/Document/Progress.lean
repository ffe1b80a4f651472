/-
# Readers get on

A reader of documents ends, and how much it does is bounded by the octets of the
source, whether it succeeds or fails:

    tokens     no more than octets
    entries    the reader of values is entered once for every value that is read,
               and never more often than there are octets, and once more
    rounds     every round of a loop that is completed has taken a token

An entry is paid for by the start tag that is read there; only the last one of a
run that fails may not be paid.  The reader of items pushes the token back that it
has looked at, so its round is paid for by the value it reads.  The fuel is no
part of that: any amount above the octets gives the same run, with the same notes.
-/
import XmlRpc.Proofs.Document.Completeness
import XmlRpc.Proofs.Document.Transcript
import XmlRpc.Proofs.Document.Rounds

namespace XmlRpc

/-! ## How many values there are -/

namespace Value

mutual

/-- A value, and all values in it. -/
def values : Value → Nat
  | .array items => 1 + valuesItems items
  | .struct members => 1 + valuesMembers members
  | _ => 1
termination_by structural v => v

def valuesItems : List Value → Nat
  | [] => 0
  | v :: vs => values v + valuesItems vs
termination_by structural vs => vs

def valuesMembers : List Member → Nat
  | [] => 0
  | ⟨_, v⟩ :: ms => values v + valuesMembers ms
termination_by structural ms => ms

end

theorem one_le_values (v : Value) : 1 ≤ v.values := by
  cases v with
  | array items => exact Nat.le_add_right 1 _
  | struct members => exact Nat.le_add_right 1 _
  | _ => exact Nat.le_refl 1

end Value

def Call.values (c : Call) : Nat := Value.valuesItems c.params

/-- The values among the parameters of a response, or in its fault.  A nil in the
slot of the fault stands for none. -/
def Response.values (r : Response) : Nat :=
  Value.valuesItems r.params + if r.fault.kind = .struct then r.fault.values else 0

namespace Document

open Markup (Lexer Scanner Stream Token TokenReader)

variable {α β : Type}

/-! ## Tokens that are taken -/

/-- Whether a token reader stands behind another one, by so many tokens at
least. -/
def Past (k : Nat) (r r' : TokenReader) : Prop :=
  ∃ ts, k ≤ ts.length ∧ r.tokens = Stream.after ts r'.tokens

variable {k l : Nat} {r r' r'' : TokenReader}

theorem past_self (r : TokenReader) : Past 0 r r := ⟨[], Nat.le_refl 0, rfl⟩

theorem Past.trans (h : Past k r r') (h' : Past l r' r'') : Past (k + l) r r'' := by
  obtain ⟨ts, hts, ht⟩ := h
  obtain ⟨us, hus, hu⟩ := h'
  refine ⟨ts ++ us, ?_, ?_⟩
  · rw [List.length_append]
    exact Nat.add_le_add hts hus
  · rw [ht, hu, Stream.after_after]

theorem Past.waiting_le (h : Past k r r') : k + r'.waiting ≤ r.waiting := by
  obtain ⟨ts, hts, ht⟩ := h
  rw [TokenReader.waiting_of_after ht]
  exact Nat.add_le_add_right hts _

/-- Whether a reader that succeeds takes so many tokens at least. -/
def Takes (k : Nat) (m : Reading α) : Prop := ∀ r a r', m r = .ok a r' → Past k r r'

/-- No reader puts more back than it has taken. -/
theorem compositional_takes : Compositional fun _ m => Takes 0 m where
  pure a r b r' h := by
    cases h
    exact past_self r
  refuse _ r a r' h := by cases h
  lifted := by
    intro α β x f _ hf r b r' h
    obtain ⟨a, r₁, hlift, h⟩ := bind_eq_ok h
    obtain ⟨hok, rfl⟩ := lift_eq_ok hlift
    exact hf a hok r b r' h
  bind := by
    intro α β m f hm hf r b r' h
    obtain ⟨a, r₁, h₁, h⟩ := bind_eq_ok h
    exact (hm r a r₁ h₁).trans (hf a r₁ b r' h)
  trim := by
    intro r a r' h
    obtain ⟨w, -, ht⟩ := trim_blanks (trim_eq_ok h)
    exact ⟨w, Nat.zero_le _, ht⟩
  read := by
    intro α f hnone hsome r a r' h
    obtain ⟨o, r₁, h₁, h⟩ := bind_eq_ok h
    cases o with
    | none =>
        obtain ⟨ht, ht₁⟩ := read_none_sound h₁
        have hpast : Past 0 r r₁ := ⟨[], Nat.le_refl 0, ht.trans ht₁.symm⟩
        exact hpast.trans (hnone r₁ a r' h)
    | some t =>
        obtain ⟨ht, hp⟩ := read_sound h₁
        generalize hm : f (some t) = m at h
        have hcontinues := hsome t
        rw [hm] at hcontinues
        cases hcontinues with
        | on hon =>
            have hpast : Past 0 r r₁ := ⟨[t], Nat.zero_le _, ht⟩
            exact hpast.trans (hon r₁ a r' h)
        | back hback =>
            obtain ⟨_, r₂, h₂, h⟩ := bind_eq_ok h
            have hpast : Past 0 r r₂ := ⟨[], Nat.le_refl 0, ht.trans (unread_sound hp h₂).symm⟩
            exact hpast.trans (hback r₂ a r' h)

theorem past_of_trim_next {f : Token → Reading α} {a : α}
    (h : (trim >>= fun _ => next >>= f) r = .ok a r') :
    ∃ t r₁, Past 1 r r₁ ∧ f t r₁ = .ok a r' := by
  obtain ⟨_, r₁, h₁, h⟩ := bind_eq_ok h
  obtain ⟨w, -, ht₁⟩ := trim_blanks (trim_eq_ok h₁)
  obtain ⟨t, r₂, h₂, h⟩ := bind_eq_ok h
  refine ⟨t, r₂, ⟨w ++ [t], ?_, ?_⟩, h⟩
  · rw [List.length_append]
    exact Nat.le_add_left _ _
  · rw [ht₁, (next_sound h₂).1, Stream.after_after]

theorem takes_next : Takes 1 next := fun _ t _ h => ⟨[t], Nat.le_refl 1, (next_sound h).1⟩

theorem takes_expectStart (tag : Tag) : Takes 1 (expectStart tag) := by
  intro r a r' h
  obtain ⟨t, r₁, hpast, h⟩ := past_of_trim_next h
  split at h
  · cases h
    exact hpast
  · cases h

theorem past_of_nextStartIs {tag : Tag} (h : nextStartIs tag r = .ok true r') : Past 1 r r' := by
  obtain ⟨t, r₁, hpast, h⟩ := past_of_trim_next h
  split at h
  · cases h
    exact hpast
  · obtain ⟨_, r₂, -, h⟩ := bind_eq_ok h
    cases h

theorem takes_nextIsValue : Takes 0 nextIsValue := by
  refine compositional_takes.andThen compositional_takes.trim (compositional_takes.next ?_)
  intro t
  cases t with
  | startTag name =>
      dsimp only
      split
      · exact .back (compositional_takes.pure _)
      · exact .on (compositional_takes.refuse trivial)
  | _ => exact .back (compositional_takes.pure _)

/-! ## Runs -/

def waiting (x : Desk) : Nat := x.1.waiting

def Mark.isEntry : Mark → Bool
  | .entry => true
  | .round _ _ => false

def entries (ms : List Mark) : Nat := ms.countP Mark.isEntry

/-- Whether every round that is completed has taken a token. -/
def Advancing (ms : List Mark) : Prop :=
  ∀ st st', Mark.round st st' ∈ ms → ∃ t ts, st = Stream.after (t :: ts) st'

theorem Advancing.snoc {ms : List Mark} {mark : Mark} (h : Advancing ms)
    (hmark : ∀ st st', mark = .round st st' → ∃ t ts, st = Stream.after (t :: ts) st') :
    Advancing (ms ++ [mark]) := by
  intro st st' hround
  rcases List.mem_append.mp hround with hround | hround
  · exact h st st' hround
  · exact hmark st st' (List.mem_singleton.mp hround).symm

/-- What a reader has done between two desks, where nothing has failed: it has taken
`k` tokens at least, and `n` entries are paid for by them. -/
structure Paid (k n : Nat) (x y : Desk) : Prop where
  past : Past k x.1 y.1
  paid : n ≤ k
  entries_eq : entries y.2 = entries x.2 + n
  advancing : Advancing x.2 → Advancing y.2

/-- How a reader that has begun at a desk may end: with entries that are paid for, as
many as there are values in its result; or with a problem, and one more entry than
there were tokens.  It does not starve. -/
inductive Settles (values : α → Nat) (x : Desk) : EStateM.Result Stop Desk α → Prop
  | ok {k : Nat} {a : α} {y : Desk} : Paid k (values a) x y → Settles values x (.ok a y)
  | problem {p : Problem} {y : Desk} : entries y.2 ≤ entries x.2 + waiting x + 1 →
      (Advancing x.2 → Advancing y.2) → Settles values x (.error (.problem p) y)

variable {n m : Nat} {x y z : Desk}

theorem paid_self (x : Desk) : Paid 0 0 x x := ⟨past_self x.1, Nat.le_refl 0, rfl, id⟩

theorem Paid.waiting_le (h : Paid k n x y) : k + waiting y ≤ waiting x := h.past.waiting_le

theorem Paid.trans (h : Paid k n x y) (h' : Paid l m y z) : Paid (k + l) (n + m) x z where
  past := h.past.trans h'.past
  paid := Nat.add_le_add h.paid h'.paid
  entries_eq := by rw [h'.entries_eq, h.entries_eq, Nat.add_assoc]
  advancing hx := h'.advancing (h.advancing hx)

/-! ## Steps of a run -/

section Steps

variable {values : α → Nat} {values' : β → Nat}

theorem settles_pure {a : α} (h : Paid k n x y) (ha : values a = n) :
    Settles values x ((pure a : Noting α) y) := by
  subst ha
  exact .ok h

theorem Paid.problem (h : Paid k n x y) (p : Problem) (r : TokenReader) :
    Settles values x (.error (.problem p) (r, y.2)) := by
  refine .problem ?_ h.advancing
  have hpaid := h.paid
  have hwaiting := h.waiting_le
  change entries y.2 ≤ _
  rw [h.entries_eq]
  omega

/-- A reader that begins later pays on its own. -/
theorem Settles.later {R : EStateM.Result Stop Desk α} (hR : Settles values y R)
    (h : Paid k n x y) : Settles (fun a => n + values a) x R := by
  cases hR with
  | ok hpaid => exact .ok (h.trans hpaid)
  | problem hentries hadvancing =>
      refine .problem ?_ (hadvancing ∘ h.advancing)
      have hfirst := h.entries_eq
      have hpaid := h.paid
      have hwaiting := h.waiting_le
      omega

theorem Paid.last {R : EStateM.Result Stop Desk α} (h : Paid k 0 x y) (hR : Settles values y R) :
    Settles values x R := by
  have hlater := hR.later h
  simpa only [Nat.zero_add] using hlater

theorem Settles.bind {m : Noting α} {f : α → Noting β} (hm : Settles values x (m y))
    (hf : ∀ {a z k}, Paid k (values a) x z → Settles values' x (f a z)) :
    Settles values' x ((m >>= f) y) := by
  rw [noting_bind_apply]
  generalize m y = R at hm
  cases hm with
  | ok hpaid => exact hf hpaid
  | problem hentries hadvancing => exact .problem hentries hadvancing

theorem Paid.after {m : Noting α} {f : α → Noting β} (h : Paid k n x y)
    (hm : Settles values y (m y))
    (hf : ∀ {a z k}, Paid k (n + values a) x z → Settles values' x (f a z)) :
    Settles values' x ((m >>= f) y) := (hm.later h).bind hf

/-- A step that notes nothing, and may take more tokens with one result than with
another. -/
theorem Paid.stepBy {m : Reading α} {f : α → Noting β} (l : α → Nat) (h : Paid k n x y)
    (hm : ∀ {a r'}, m y.1 = .ok a r' → Past (l a) y.1 r')
    (hf : ∀ {a z}, m y.1 = .ok a z.1 → Paid (k + l a) n x z → Settles values' x (f a z)) :
    Settles values' x ((quiet m >>= f) y) := by
  obtain ⟨r, ms⟩ := y
  rw [noting_bind_apply, quiet]
  cases hr : m r with
  | ok a r' =>
      have hstep : Paid (l a) 0 (r, ms) (r', ms) := ⟨hm hr, Nat.zero_le _, rfl, id⟩
      exact @hf a (r', ms) hr (h.trans hstep)
  | error p r' => exact h.problem p r'

@[inherit_doc Paid.stepBy]
theorem Paid.step {m : Reading α} {f : α → Noting β} (h : Paid k n x y) (hm : Takes l m)
    (hf : ∀ {a z}, m y.1 = .ok a z.1 → Paid (k + l) n x z → Settles values' x (f a z)) :
    Settles values' x ((quiet m >>= f) y) := h.stepBy (fun _ => l) (fun hr => hm _ _ _ hr) hf

theorem Paid.started {tag : Tag} {f : Bool → Noting β} (h : Paid k n x y)
    (hf : ∀ {b z}, Paid (k + b.toNat) n x z → Settles values' x (f b z)) :
    Settles values' x ((quiet (nextStartIs tag) >>= f) y) := by
  refine h.stepBy Bool.toNat ?_ fun _ => hf
  intro b r' hr
  cases b with
  | false => exact compositional_takes.nextStartIs tag y.1 false r' hr
  | true => exact past_of_nextStartIs hr

/-- The reader of values is entered, and the start tag pays for that. -/
theorem settles_entered {f : Unit → Noting β}
    (hf : ∀ {z}, Paid 1 1 x z → Settles values' x (f () z)) :
    Settles values' x ((note .entry >>= fun _ => quiet (expectStart .value) >>= f) x) := by
  obtain ⟨r, ms⟩ := x
  have hentries : entries (ms ++ [.entry]) = entries ms + 1 := List.countP_append
  have hadvancing (h : Advancing ms) : Advancing (ms ++ [.entry]) := by
    refine h.snoc ?_
    intro st st' hmark
    cases hmark
  change Settles values' (r, ms) ((quiet (expectStart .value) >>= f) (r, ms ++ [.entry]))
  rw [noting_bind_apply, quiet]
  cases hr : expectStart .value r with
  | ok _ r' =>
      exact hf ⟨takes_expectStart .value r () r' hr, Nat.le_refl 1, hentries, hadvancing⟩
  | error p r' =>
      refine .problem ?_ hadvancing
      change entries (ms ++ [.entry]) ≤ entries ms + waiting (r, ms) + 1
      omega

theorem settles_looked {f : Stream → Noting β} (hf : Settles values' x (f x.1.tokens x)) :
    Settles values' x ((ahead >>= f) x) := hf

/-- A round is completed.  A value has been read in it, and its tokens were taken. -/
theorem Paid.round {f : Unit → Noting β} (h : Paid k n x y) (hn : 1 ≤ n)
    (hf : ∀ {z}, Paid k n x z → Settles values' x (f () z)) :
    Settles values' x ((noteRound x.1.tokens >>= f) y) := by
  refine @hf (y.1, y.2 ++ [.round x.1.tokens y.1.tokens]) ⟨h.past, h.paid, ?_, ?_⟩
  · rw [entries, List.countP_append]
    exact h.entries_eq
  · intro hx
    refine (h.advancing hx).snoc ?_
    intro st st' hround
    cases hround
    obtain ⟨ts, hts, ht⟩ := h.past
    cases ts with
    | nil => exact absurd (Nat.le_trans hn (Nat.le_trans h.paid hts)) (by decide)
    | cons t ts => exact ⟨t, ts, ht⟩

end Steps

/-! ## Values -/

section Inside

variable {fuel : Nat}

theorem values_of_scalar {tag : Tag} {text : String} {v : Value} (h : scalar tag text = .ok v) :
    v.values = 1 := by
  unfold scalar at h
  split at h
  · cases h
    rfl
  · split at h <;> cases h
    rfl
  · split at h <;> cases h
    rfl
  · split at h <;> cases h
    rfl
  · split at h <;> cases h
    rfl
  · split at h <;> cases h
    rfl
  · cases h
    rfl
  · cases h

theorem values_of_readScalar {tag : Tag} {v : Value} {r r' : TokenReader}
    (h : readScalar tag r = .ok v r') : v.values = 1 := by
  obtain ⟨text, r₁, -, h⟩ := bind_eq_ok h
  obtain ⟨_, r₂, -, h⟩ := bind_eq_ok h
  exact values_of_scalar (lift_eq_ok h).1

variable {items : Noting (List Value)} {members : Noting (List Member)}

theorem settles_noteTyped (hi : ∀ {y}, waiting y + 1 < fuel → Settles Value.valuesItems y (items y))
    (hm : ∀ {y}, waiting y < fuel → Settles Value.valuesMembers y (members y)) {tag : Tag}
    (ht : tag.isValueType = true) {k : Nat} {x y : Desk} (h : Paid (k + 1) 1 x y)
    (hfuel : waiting x < fuel + 1) : Settles Value.values x (noteTyped items members tag y) := by
  rcases (isValueType_iff tag).mp ht with hscalar | rfl | rfl
  · have heq : noteTyped items members tag = quiet (readScalar tag) >>= pure := by
      rw [bind_pure]
      cases tag with
      | array => exact absurd hscalar (by decide)
      | struct => exact absurd hscalar (by decide)
      | _ => rfl
    rw [heq]
    refine h.step (compositional_takes.readScalar hscalar) ?_
    intro v z hr hz
    exact settles_pure hz (values_of_readScalar hr)
  · refine h.step (takes_expectStart .data) ?_
    intro _ y₁ _ h₁
    have hwaiting := h₁.waiting_le
    refine Settles.bind ((hi (by omega)).later h₁) ?_
    intro vs y₂ _ h₂
    refine h₂.step (compositional_takes.expectEnd _) ?_
    intro _ y₃ _ h₃
    refine h₃.step (compositional_takes.expectEnd _) ?_
    intro _ y₄ _ h₄
    exact settles_pure h₄ rfl
  · have hwaiting := h.waiting_le
    refine Settles.bind ((hm (by omega)).later h) ?_
    intro ms y₁ _ h₁
    refine h₁.step (compositional_takes.expectEnd _) ?_
    intro _ y₂ _ h₂
    exact settles_pure h₂ rfl

theorem settles_noteBody (hi : ∀ {y}, waiting y + 1 < fuel → Settles Value.valuesItems y (items y))
    (hm : ∀ {y}, waiting y < fuel → Settles Value.valuesMembers y (members y))
    (text : Option String) (t : Token) {k : Nat} {x y : Desk} (h : Paid (k + 1) 1 x y)
    (hfuel : waiting x < fuel + 1) : Settles Value.values x (noteBody items members text t y) := by
  cases t with
  | endTag name =>
      rw [noteBody]
      split
      · exact settles_pure h (by cases text <;> rfl)
      · exact h.problem _ _
  | startTag name =>
      have hlift : Takes 0 (liftM (typeOf text name)) :=
        compositional_takes.lift fun _ => ofContent_of_typeOf
      refine h.step hlift ?_
      intro tag y₁ hr h₁
      obtain ⟨-, -, htag⟩ := typeOf_sound (lift_eq_ok hr).1
      refine Settles.bind (settles_noteTyped hi hm htag h₁ hfuel) ?_
      intro v y₂ _ h₂
      refine h₂.step (compositional_takes.expectEnd _) ?_
      intro _ y₃ _ h₃
      exact settles_pure h₃ rfl
  | _ => exact h.problem _ _

theorem settles_noteValue_succ
    (hi : ∀ {y}, waiting y + 1 < fuel → Settles Value.valuesItems y (noteItems fuel y))
    (hm : ∀ {y}, waiting y < fuel → Settles Value.valuesMembers y (noteMembers fuel y)) {x : Desk}
    (hfuel : waiting x < fuel + 1) : Settles Value.values x (noteValue (fuel + 1) x) := by
  rw [noteValue]
  refine settles_entered ?_
  intro y h
  refine h.step compositional_takes.readText ?_
  intro text y₁ _ h₁
  refine h₁.step takes_next ?_
  intro t y₂ _ h₂
  exact settles_noteBody hi hm text t h₂ hfuel

theorem settles_noteItems_succ
    (hv : ∀ {y}, waiting y < fuel → Settles Value.values y (noteValue fuel y))
    (hi : ∀ {y}, waiting y + 1 < fuel → Settles Value.valuesItems y (noteItems fuel y)) {x : Desk}
    (hfuel : waiting x < fuel) : Settles Value.valuesItems x (noteItems (fuel + 1) x) := by
  rw [noteItems]
  refine settles_looked ((paid_self x).step takes_nextIsValue ?_)
  intro started y _ h
  cases started with
  | false => exact settles_pure h rfl
  | true =>
      have hwaiting := h.waiting_le
      refine h.after (hv (by omega)) ?_
      intro v y₁ _ h₁
      -- the value pays for the round, and leaves the fuel for those behind it
      have hone := v.one_le_values
      refine h₁.round (by omega) ?_
      intro y₂ h₂
      have hpaid := h₂.paid
      have hwaiting₂ := h₂.waiting_le
      refine h₂.after (hi (by omega)) ?_
      intro vs y₃ _ h₃
      exact settles_pure h₃ (by rw [Value.valuesItems, Nat.zero_add])

theorem settles_noteMembers_succ
    (hv : ∀ {y}, waiting y < fuel → Settles Value.values y (noteValue fuel y))
    (hm : ∀ {y}, waiting y < fuel → Settles Value.valuesMembers y (noteMembers fuel y)) {x : Desk}
    (hfuel : waiting x < fuel + 1) : Settles Value.valuesMembers x (noteMembers (fuel + 1) x) := by
  rw [noteMembers]
  refine settles_looked ((paid_self x).started ?_)
  intro started y h
  cases started with
  | false => exact settles_pure h rfl
  | true =>
      refine h.step (compositional_takes.expectStart _) ?_
      intro _ y₁ _ h₁
      refine h₁.step compositional_takes.readText ?_
      intro name y₂ _ h₂
      cases name with
      | none => exact h₂.problem _ _
      | some name =>
          refine h₂.step (compositional_takes.expectEnd _) ?_
          intro _ y₃ _ h₃
          -- the start tag of the member has been taken, so the fuel is enough for the value
          have htag : true.toNat = 1 := rfl
          have hwaiting := h₃.waiting_le
          refine h₃.after (hv (by omega)) ?_
          intro v y₄ _ h₄
          refine h₄.step (compositional_takes.expectEnd _) ?_
          intro _ y₅ _ h₅
          have hone := v.one_le_values
          refine h₅.round (by omega) ?_
          intro y₆ h₆
          have hpaid := h₆.paid
          have hwaiting₆ := h₆.waiting_le
          refine h₆.after (hm (by omega)) ?_
          intro ms y₇ _ h₇
          exact settles_pure h₇ (by rw [Value.valuesMembers, Nat.zero_add])

end Inside

/-- By induction on the fuel, values, items and members together.  A reader needs more
fuel than there are tokens ahead, and that of items one more: it looks for the start
tag of a value and does not take it. -/
theorem settles_readers (fuel : Nat) :
    (∀ {x}, waiting x < fuel → Settles Value.values x (noteValue fuel x)) ∧
    (∀ {x}, waiting x + 1 < fuel → Settles Value.valuesItems x (noteItems fuel x)) ∧
    ∀ {x}, waiting x < fuel → Settles Value.valuesMembers x (noteMembers fuel x) := by
  induction fuel with
  | zero =>
      refine ⟨?_, ?_, ?_⟩
      all_goals
        intro x hfuel
        exact absurd hfuel (Nat.not_lt_zero _)
  | succ fuel ih =>
      obtain ⟨hv, hi, hm⟩ := ih
      exact ⟨settles_noteValue_succ hi hm,
        fun hfuel => settles_noteItems_succ hv hi (Nat.lt_of_succ_lt_succ hfuel),
        settles_noteMembers_succ hv hm⟩

/-! ## Envelopes -/

section Envelopes

variable {fuel : Nat} {x y : Desk}

theorem settles_noteValue (h : waiting x < fuel) : Settles Value.values x (noteValue fuel x) :=
  (settles_readers fuel).1 h

theorem settles_noteParamList {valueFuel : Nat} (hle : fuel ≤ valueFuel)
    (hfuel : waiting x < fuel) : Settles Value.valuesItems x (noteParamList valueFuel fuel x) := by
  induction fuel generalizing x with
  | zero => exact absurd hfuel (Nat.not_lt_zero _)
  | succ fuel ih =>
      rw [noteParamList]
      refine settles_looked ((paid_self x).started ?_)
      intro started y h
      cases started with
      | false => exact settles_pure h rfl
      | true =>
          have hwaiting := h.waiting_le
          refine h.after (settles_noteValue (by omega)) ?_
          intro v y₁ _ h₁
          refine h₁.step (compositional_takes.expectEnd _) ?_
          intro _ y₂ _ h₂
          have hone := v.one_le_values
          refine h₂.round (by omega) ?_
          intro y₃ h₃
          have hpaid := h₃.paid
          have hwaiting₃ := h₃.waiting_le
          refine h₃.after (ih (by omega) (by omega)) ?_
          intro vs y₄ _ h₄
          exact settles_pure h₄ (by rw [Value.valuesItems, Nat.zero_add])

theorem settles_noteParams (hfuel : waiting x < fuel) :
    Settles Value.valuesItems x (noteParams fuel x) := by
  refine (settles_noteParamList (Nat.le_refl fuel) hfuel).bind ?_
  intro vs y _ h
  refine h.step (compositional_takes.expectEnd _) ?_
  intro _ z _ hz
  exact settles_pure hz rfl

theorem settles_noteOptionalParams (hfuel : waiting x < fuel) :
    Settles Value.valuesItems x (noteOptionalParams fuel x) := by
  refine (paid_self x).started ?_
  intro started y h
  cases started with
  | false => exact settles_pure h rfl
  | true =>
      have hwaiting := h.waiting_le
      exact h.last (settles_noteParams (by omega))

theorem settles_noteCall (hfuel : waiting x < fuel) : Settles Call.values x (noteCall fuel x) := by
  refine (paid_self x).step compositional_takes.readHeader ?_
  intro _ y₁ _ h₁
  refine h₁.step (compositional_takes.expectStart _) ?_
  intro _ y₂ _ h₂
  refine h₂.step (compositional_takes.expectStart _) ?_
  intro _ y₃ _ h₃
  refine h₃.step compositional_takes.readText ?_
  intro method y₄ _ h₄
  refine h₄.step (compositional_takes.expectEnd _) ?_
  intro _ y₅ _ h₅
  have hwaiting := h₅.waiting_le
  refine h₅.after (settles_noteOptionalParams (by omega)) ?_
  intro params y₆ _ h₆
  refine h₆.step (compositional_takes.expectEnd _) ?_
  intro _ y₇ _ h₇
  exact settles_pure h₇ (Nat.zero_add _).symm

theorem settles_noteFault (h : Paid k 0 x y) (hfuel : waiting x < fuel) :
    Settles Response.values x (noteFault fuel y) := by
  refine h.step (compositional_takes.expectStart _) ?_
  intro _ y₁ _ h₁
  have hwaiting := h₁.waiting_le
  refine h₁.after (settles_noteValue (by omega)) ?_
  intro v y₂ _ h₂
  split
  · rename_i hkind
    refine h₂.step (compositional_takes.expectEnd _) ?_
    intro _ y₃ _ h₃
    exact settles_pure h₃ (by rw [Response.values, if_pos hkind, Value.valuesItems])
  · exact h₂.problem _ _

theorem settles_noteResult (h : Paid k 0 x y) (hfuel : waiting x < fuel) :
    Settles Response.values x (noteResult fuel y) := by
  refine h.started ?_
  intro started y₁ h₁
  cases started with
  | false => exact settles_noteFault h₁ hfuel
  | true =>
      have hwaiting := h₁.waiting_le
      refine h₁.after (settles_noteParams (by omega)) ?_
      intro params y₂ _ h₂
      exact settles_pure h₂ (Nat.zero_add _).symm

theorem settles_noteResponse (hfuel : waiting x < fuel) :
    Settles Response.values x (noteResponse fuel x) := by
  refine (paid_self x).step compositional_takes.readHeader ?_
  intro _ y₁ _ h₁
  refine h₁.step (compositional_takes.expectStart _) ?_
  intro _ y₂ _ h₂
  refine (settles_noteResult h₂ hfuel).bind ?_
  intro response y₃ _ h₃
  refine h₃.step (compositional_takes.expectEnd _) ?_
  intro _ y₄ _ h₄
  exact settles_pure h₄ rfl

theorem settles_noteBareValue (hfuel : waiting x < fuel) :
    Settles Value.values x (noteBareValue fuel x) := by
  refine (paid_self x).step compositional_takes.readHeader ?_
  intro _ y _ h
  have hwaiting := h.waiting_le
  exact h.last (settles_noteValue (by omega))

end Envelopes

/-! ## Sources -/

/-- What a reader has come to on a source, and what it has noted. -/
def transcript (m : Noting α) (s : Source) : Except Stop α × List Mark :=
  match m (TokenReader.ofSource s, []) with
  | .ok a (_, ms) => (.ok a, ms)
  | .error p (_, ms) => (.error p, ms)

/-- Whether these are the notes about a reading of a source that comes to `x`, whatever
fuel it is given above the octets of the source. -/
structure Noted (x : Except Problem α) (values : α → Nat) (noting : Nat → Noting α) (s : Source)
    (ms : List Mark) : Prop where
  transcript_eq : ∀ fuel, s.octets.length < fuel →
    transcript (noting fuel) s = (x.mapError .problem, ms)
  entries_le : entries ms ≤ s.octets.length + 1
  entries_eq : ∀ a, x = .ok a → entries ms = values a
  advancing : Advancing ms

theorem outlasts_of_le {noting : Nat → Noting α}
    (h : ∀ fuel, Outlasts (noting (fuel + 1)) (noting fuel)) {fuel fuel' : Nat}
    (hle : fuel ≤ fuel') : Outlasts (noting fuel') (noting fuel) := by
  induction hle with
  | refl => exact .refl _
  | step _ ih => exact (h _).trans ih

theorem length_le_size_ofSource (s : Source) : s.octets.length ≤ (TokenReader.ofSource s).size := by
  change s.octets.length ≤ 2 * s.octets.length + 1 + 0 + 0
  omega

/-- A reader that ends by itself leaves the same notes with any fuel that is enough. -/
theorem noted_of_settles {reading : Nat → Reading α} {noting : Nat → Noting α} {values : α → Nat}
    (herases : ∀ fuel, Erases (noting fuel) (reading fuel))
    (houtlasts : ∀ fuel, Outlasts (noting (fuel + 1)) (noting fuel))
    (hsettles : ∀ {fuel x}, waiting x < fuel → Settles values x (noting fuel x)) (s : Source) :
    ∃ ms, Noted (run reading s) values noting s ms := by
  let x : Desk := (TokenReader.ofSource s, [])
  have hlength : waiting x ≤ s.octets.length := Markup.waiting_ofSource_le s
  have hend : Settles values x (noting (s.octets.length + 1) x) :=
    hsettles (Nat.lt_succ_of_le hlength)
  have hsame {fuel : Nat} (hfuel : s.octets.length < fuel) :
      noting fuel x = noting (s.octets.length + 1) x := by
    refine outlasts_of_le houtlasts hfuel x ?_
    intro y hy
    rw [hy] at hend
    cases hend
  have hrun : erase (noting (s.octets.length + 1) x)
      = reading ((TokenReader.ofSource s).size + 1) (TokenReader.ofSource s) := by
    rw [← hsame (Nat.lt_succ_of_le (length_le_size_ofSource s))]
    exact herases _ x
  have hadvancing : Advancing x.2 := fun st st' h => absurd h List.not_mem_nil
  generalize noting (s.octets.length + 1) x = R at hend hsame hrun
  cases hend with
  | @ok k a y hpaid =>
      have hentries : entries y.2 = 0 + values a := hpaid.entries_eq
      refine ⟨y.2, ?_, ?_, ?_, hpaid.advancing hadvancing⟩
      · intro fuel hfuel
        rw [transcript, hsame hfuel, run_of_ok hrun.symm]
        rfl
      · have hpaid_le := hpaid.paid
        have hwaiting := hpaid.waiting_le
        omega
      · intro b hb
        rw [run_of_ok hrun.symm] at hb
        cases hb
        omega
  | @problem p y hentries hadvances =>
      have hzero : entries x.2 = 0 := rfl
      refine ⟨y.2, ?_, by omega, ?_, hadvances hadvancing⟩
      · intro fuel hfuel
        rw [transcript, hsame hfuel, run_error ⟨y.1, hrun.symm⟩]
        rfl
      · intro b hb
        rw [run_error ⟨y.1, hrun.symm⟩] at hb
        cases hb

/-- On a source of `n` octets there are no more than `n` tokens.  From wherever they
begin, gathering and trimming go round no more than `n` times, and then do not go on.
The readers of values, calls and responses end by themselves, after no more than `n + 1`
entries of the reader of values, and a token is taken in every round that they
complete. -/
theorem reading_ends (s : Source) :
    (TokenReader.ofSource s).tokens.1.length ≤ s.octets.length ∧
    (∀ c, Relation.ReflTransGen Scanner.Goes (.ofSource s) c →
      (∀ n last, Rounds Scanner.Joins n c last → n ≤ s.octets.length) ∧
      ∀ acc b, ∃ n last acc' b', Rounds Scanner.Joins n c last ∧ (∀ c', ¬ last.Joins c') ∧
        Lexer.gather acc c b = Lexer.gather acc' last b') ∧
    (∀ ts r, (TokenReader.ofSource s).tokens = Stream.after ts r.tokens →
      (∀ n last, Rounds TokenReader.Skips n r last → n ≤ s.octets.length) ∧
      ∃ n last, Rounds TokenReader.Skips n r last ∧ (∀ r', ¬ last.Skips r') ∧
        r.trim = last.trim) ∧
    (∃ ms, Noted (Value.ofSource s) Value.values noteBareValue s ms) ∧
    (∃ ms, Noted (Call.ofSource s) Call.values noteCall s ms) ∧
    ∃ ms, Noted (Response.ofSource s) Response.values noteResponse s ms := by
  refine ⟨Markup.waiting_ofSource_le s, ?_, ?_, ?_, ?_, ?_⟩
  · intro c hc
    exact Markup.gathering_ends hc
  · intro ts r hr
    exact Markup.trimming_ends hr
  · exact noted_of_settles erases_noteBareValue outlasts_noteBareValue settles_noteBareValue s
  · exact noted_of_settles erases_noteCall outlasts_noteCall settles_noteCall s
  · exact noted_of_settles erases_noteResponse outlasts_noteResponse settles_noteResponse s

/-- An array behind blanks, which take two rounds to gather and one to pass over.  The
reader of values is entered for the array and for its only value. -/
theorem reading_ends_array :
    let s := Source.ofOctets
      (Utf8.encode " &#32;<value><array><data><value/></data></array></value>".toList)
    let c := Scanner.ofSource s
    let r := TokenReader.ofSource s
    Rounds Scanner.Joins 2 c c.next.2.next.2 ∧ Rounds TokenReader.Skips 1 r r.read.2 ∧
      2 ≤ s.octets.length ∧ 1 ≤ s.octets.length ∧
      ∃ ms, Noted (Value.ofSource s) Value.values noteBareValue s ms ∧ entries ms = 2 := by
  intro s c r
  have hfirst : c.Joins c.next.2 :=
    ⟨.text [0x20], [' '], Prod.ext (by decide +kernel) rfl, rfl⟩
  have hsecond : c.next.2.Joins c.next.2.next.2 :=
    ⟨.reference [0x23, 0x33, 0x32], [' '], Prod.ext (by decide +kernel) rfl, rfl⟩
  have hskips : r.Skips r.read.2 := ⟨.text "  ", Prod.ext (by decide +kernel) rfl, by decide⟩
  have hjoined : Rounds Scanner.Joins 2 c c.next.2.next.2 := .more hfirst (.more hsecond (.none _))
  have hskipped : Rounds TokenReader.Skips 1 r r.read.2 := .more hskips (.none _)
  obtain ⟨-, hgather, htrim, ⟨ms, hms⟩, -⟩ := reading_ends s
  have hjoins := (hgather c .refl).1 2 _ hjoined
  have hskips := (htrim [] r rfl).1 1 _ hskipped
  refine ⟨hjoined, hskipped, hjoins, hskips, ms, hms, ?_⟩
  have hnotes : (transcript (noteBareValue 100) s).2 = ms := by
    rw [hms.transcript_eq 100 (by decide +kernel)]
  rw [← hnotes]
  decide +kernel

-- the bound on the entries is reached where there is nothing to read
example : entries (transcript (noteBareValue 1) (Source.ofOctets [])).2 = 1 := by decide +kernel

end Document

end XmlRpc
