/-
# How often loops go round

Two loops stand under all reading, and neither can go on for ever:

    gather    events that are characters join a text, up to one that is not
    trim      blank texts are passed over, up to a token that is none

A round of the first takes an octet at least, and a round of the second a token; a
token takes an octet, too.  The second tag of an empty element is not in the octets,
so it has one put aside for it (`Scanner.room`).
-/
import Mathlib.Logic.Relation
import XmlRpc.Proofs.Document.Steps
import XmlRpc.Proofs.Markup.Advance

namespace XmlRpc

/-! ## Rounds -/

/-- Whether so many rounds lead from one place to another one. -/
inductive Rounds {α : Type} (R : α → α → Prop) : Nat → α → α → Prop
  | none (a : α) : Rounds R 0 a a
  | more {n : Nat} {a b c : α} : R a b → Rounds R n b c → Rounds R (n + 1) a c

section Rounds

variable {α : Type} {R : α → α → Prop} {n : Nat} {a b : α} (f : α → Nat)

theorem Rounds.add_le (hR : ∀ a b, R a b → f b < f a) (h : Rounds R n a b) :
    n + f b ≤ f a := by
  induction h with
  | none a => exact Nat.le_of_eq (Nat.zero_add _)
  | more hab _ ih =>
      have hlt := hR _ _ hab
      omega

/-- By induction on that number: the rounds come to a place where no other one
begins. -/
theorem exists_rounds (hR : ∀ a b, R a b → f b < f a) (a : α) :
    ∃ n b, Rounds R n a b ∧ ∀ c, ¬ R b c := by
  induction hfa : f a using Nat.strongRecOn generalizing a with
  | ind m ih =>
      by_cases hmore : ∃ b, R a b
      · obtain ⟨b, hab⟩ := hmore
        obtain ⟨n, c, hrounds, hlast⟩ := ih (f b) (hfa ▸ hR a b hab) b rfl
        exact ⟨n + 1, c, .more hab hrounds, hlast⟩
      · exact ⟨0, a, .none a, fun c hc => hmore ⟨c, hc⟩⟩

end Rounds

namespace Markup

/-! ## Tokens -/

theorem Token.one_le_cost (t : Token) : 1 ≤ t.cost := by
  cases t with
  | text s => exact Nat.le_max_left _ _
  | _ => exact Nat.le_refl 1

theorem length_le_cost (ts : List Token) : ts.length ≤ cost ts := by
  induction ts with
  | nil => exact Nat.le_refl 0
  | cons t ts ih =>
      have hone := t.one_le_cost
      rw [List.length_cons, cost_cons]
      omega

def TokenReader.waiting (r : TokenReader) : Nat := r.tokens.1.length

theorem TokenReader.waiting_of_after {r r' : TokenReader} {ts : List Token}
    (h : r.tokens = Stream.after ts r'.tokens) : r.waiting = ts.length + r'.waiting := by
  rw [waiting, h, Stream.after_fst, List.length_append, waiting]

theorem waiting_ofSource_le (s : Source) : (TokenReader.ofSource s).waiting ≤ s.octets.length :=
  Nat.le_trans (length_le_cost _) (cost_tokens_ofSource s)

/-! ## Gathering -/

theorem Event.one_le_cost {e : Event} (he : e ≠ .endOfInput) : 1 ≤ e.cost := by
  cases e with
  | text o => exact Nat.le_max_left _ _
  | cdata o | reference o => exact Nat.le_add_left _ _
  | endOfInput => exact absurd rfl he
  | _ => exact Nat.le_refl 1

namespace Scanner

/-- Whether an event is scanned that is not the end. -/
def Goes (s s' : Scanner) : Prop := ∃ e, s.next = (.ok e, s') ∧ e ≠ .endOfInput

/-- Whether characters are scanned, so that gathering goes on. -/
def Joins (s s' : Scanner) : Prop := ∃ e cs, s.next = (.ok e, s') ∧ e.piece = .ok (.chars cs)

variable {s s' : Scanner}

theorem Joins.goes (h : s.Joins s') : s.Goes s' := by
  obtain ⟨e, cs, hnext, hpiece⟩ := h
  exact ⟨e, hnext, Event.ne_endOfInput_of_chars hpiece⟩

theorem Goes.room_lt (h : s.Goes s') : s'.room < s.room := by
  obtain ⟨e, hnext, he⟩ := h
  have hone := Event.one_le_cost he
  have hspends := (advances_of_next hnext).spends
  omega

theorem room_le_of_goes (h : Relation.ReflTransGen Goes s s') : s'.room ≤ s.room := by
  induction h with
  | refl => exact Nat.le_refl _
  | tail _ hlast ih => exact Nat.le_trans (Nat.le_of_lt hlast.room_lt) ih

end Scanner

theorem gather_of_rounds {n : Nat} {c last : Scanner} (h : Rounds Scanner.Joins n c last)
    (acc : Option (List Char)) (b : Buffer) :
    ∃ acc' b', Lexer.gather acc c b = Lexer.gather acc' last b' := by
  induction h generalizing acc b with
  | none => exact ⟨acc, b, rfl⟩
  | more hjoins _ ih =>
      obtain ⟨e, cs, hnext, hpiece⟩ := hjoins
      obtain ⟨b₁, h₁⟩ := Lexer.gather_chars acc cs hnext hpiece b
      obtain ⟨acc', b', h'⟩ := ih (some (acc.getD [] ++ cs)) b₁
      exact ⟨acc', b', h₁.trans h'⟩

/-- However far a source is scanned, gathering goes round no more often than it has
octets, and comes to an event with which it does not go on. -/
theorem gathering_ends {s : Source} {c : Scanner}
    (hc : Relation.ReflTransGen Scanner.Goes (.ofSource s) c) :
    (∀ n last, Rounds Scanner.Joins n c last → n ≤ s.octets.length) ∧
    ∀ acc b, ∃ n last acc' b', Rounds Scanner.Joins n c last ∧ (∀ c', ¬ last.Joins c') ∧
      Lexer.gather acc c b = Lexer.gather acc' last b' := by
  have hless (s s' : Scanner) (h : s.Joins s') : s'.room < s.room := h.goes.room_lt
  have hroom : c.room ≤ s.octets.length := Scanner.room_le_of_goes hc
  refine ⟨?_, ?_⟩
  · intro n last hrounds
    have hle := hrounds.add_le Scanner.room hless
    omega
  · intro acc b
    obtain ⟨n, last, hrounds, hlast⟩ := exists_rounds Scanner.room hless c
    obtain ⟨acc', b', heq⟩ := gather_of_rounds hrounds acc b
    exact ⟨n, last, acc', b', hrounds, hlast, heq⟩

/-! ## Trimming -/

/-- Whether a blank text is read, so that trimming goes on. -/
def TokenReader.Skips (r r' : TokenReader) : Prop :=
  ∃ t, r.read = (.ok (some t), r') ∧ t.isBlank = true

theorem TokenReader.Skips.waiting_lt {r r' : TokenReader} (h : r.Skips r') :
    r'.waiting < r.waiting := by
  obtain ⟨t, hread, -⟩ := h
  rw [waiting_of_after (tokens_of_read_some hread), List.length_singleton]
  omega

theorem trim_of_rounds {n : Nat} {r last : TokenReader} (h : Rounds TokenReader.Skips n r last) :
    r.trim = last.trim := by
  induction h with
  | none => rfl
  | more hskips _ ih =>
      obtain ⟨t, hread, ht⟩ := hskips
      rw [Document.trim_of_blank hread ht, ih]

/-- However far a source is read, trimming goes round no more often than it has octets,
and comes to a token with which it does not go on. -/
theorem trimming_ends {s : Source} {r : TokenReader} {ts : List Token}
    (hr : (TokenReader.ofSource s).tokens = Stream.after ts r.tokens) :
    (∀ n last, Rounds TokenReader.Skips n r last → n ≤ s.octets.length) ∧
    ∃ n last, Rounds TokenReader.Skips n r last ∧ (∀ r', ¬ last.Skips r') ∧
      r.trim = last.trim := by
  have hless (r r' : TokenReader) (h : r.Skips r') : r'.waiting < r.waiting := h.waiting_lt
  refine ⟨?_, ?_⟩
  · intro n last hrounds
    have hall := waiting_ofSource_le s
    have hahead := TokenReader.waiting_of_after hr
    have hle := hrounds.add_le TokenReader.waiting hless
    omega
  · obtain ⟨n, last, hrounds, hlast⟩ := exists_rounds TokenReader.waiting hless r
    exact ⟨n, last, hrounds, hlast, trim_of_rounds hrounds⟩

end Markup

end XmlRpc
