/-
# Nesting

The tokens of a source are the beginning of tokens in which every element that
begins ends, whatever its octets are and however it ends:

    Balanced      every start tag has its end tag, with balanced tokens between
    WellNested    every end tag closes the innermost element still open

The scanner compares the names of tags as they are written, and tokens have
local names; equal names have equal local names, so the elements that are open
in the scanner are open among the tokens, too.  An element without content is
two events and two tokens.
-/
import Mathlib.Data.List.Forall2
import XmlRpc.Proofs.Markup.Advance
import XmlRpc.Proofs.Markup.Rendering

namespace XmlRpc

namespace Markup

/-! ## Balanced tokens -/

/-- Tokens in which every element that begins ends. -/
inductive Balanced : List Token → Prop where
  | nil : Balanced []
  | text (s : String) {ts : List Token} : Balanced ts → Balanced (.text s :: ts)
  | declaration {ts : List Token} : Balanced ts → Balanced (.declaration :: ts)
  | element (name : String) {ts us : List Token} : Balanced ts → Balanced us →
      Balanced (.startTag name :: (ts ++ .endTag name :: us))

/-- Tokens that end the open elements, the innermost first. -/
inductive Closes : List String → List Token → Prop where
  | nil {ts : List Token} : Balanced ts → Closes [] ts
  | cons {name : String} {names : List String} {ts us : List Token} : Balanced ts →
      Closes names us → Closes (name :: names) (ts ++ .endTag name :: us)

theorem Balanced.append {ts us : List Token} (h : Balanced ts) (hu : Balanced us) :
    Balanced (ts ++ us) := by
  induction h with
  | nil => exact hu
  | text s _ ih => exact .text s ih
  | declaration _ ih => exact .declaration ih
  | element name hts _ _ ih =>
      rw [List.cons_append, List.append_assoc]
      exact .element name hts ih

theorem Closes.behind {names : List String} {ts us : List Token} (h : Closes names us)
    (hb : Balanced ts) : Closes names (ts ++ us) := by
  cases h with
  | nil hu => exact .nil (hb.append hu)
  | cons hu h =>
      rw [← List.append_assoc]
      exact .cons (hb.append hu) h

theorem Closes.opened {name : String} {names : List String} {ts : List Token}
    (h : Closes (name :: names) ts) : Closes names (.startTag name :: ts) := by
  cases h with
  | @cons _ _ us vs hu h =>
      have helement : Balanced (.startTag name :: (us ++ [.endTag name])) := .element name hu .nil
      have hbehind := h.behind helement
      rwa [List.cons_append, List.append_assoc] at hbehind

theorem closes_endTags (names : List String) : Closes names (names.map .endTag) := by
  induction names with
  | nil => exact .nil .nil
  | cons name names ih => exact .cons .nil ih

/-- What is well nested so far can be continued until all is closed. -/
theorem exists_closes {names : List String} {ts : List Token} (h : WellNested names ts) :
    ∃ us, Closes names (ts ++ us) := by
  induction ts generalizing names with
  | nil => exact ⟨names.map .endTag, closes_endTags names⟩
  | cons t ts ih =>
      cases t with
      | startTag name =>
          rw [WellNested] at h
          obtain ⟨us, hus⟩ := ih h
          exact ⟨us, hus.opened⟩
      | endTag name =>
          cases names with
          | nil => exact absurd h id
          | cons opened names =>
              obtain ⟨rfl, h⟩ := h
              obtain ⟨us, hus⟩ := ih h
              exact ⟨us, .cons .nil hus⟩
      | text s =>
          rw [WellNested] at h
          obtain ⟨us, hus⟩ := ih h
          have htext : Balanced [.text s] := .text s .nil
          exact ⟨us, hus.behind htext⟩
      | declaration =>
          rw [WellNested] at h
          obtain ⟨us, hus⟩ := ih h
          have hdeclaration : Balanced [.declaration] := .declaration .nil
          exact ⟨us, hus.behind hdeclaration⟩

theorem exists_balanced {ts : List Token} (h : WellNested [] ts) : ∃ us, Balanced (ts ++ us) := by
  obtain ⟨us, hus⟩ := exists_closes h
  cases hus with
  | nil hb => exact ⟨us, hb⟩

/-! ## Open elements -/

def LocalNames (opened : List Octets) (names : List String) : Prop :=
  List.Forall₂ (fun o name => decodeName o = .ok name) opened names

theorem wellNested_gathered {names : List String} (acc : Option (List Char)) {ts : List Token}
    (h : WellNested names ts) : WellNested names (gathered acc ++ ts) := by
  cases acc with
  | none => exact h
  | some cs =>
      rw [gathered, List.singleton_append, WellNested]
      exact h

/-- A tag or a declaration does to the open elements what its token does to
their names. -/
theorem wellNested_token {e : Event} {t : Token} {opened opened' : List Octets}
    {names : List String} {ts : List Token} (hnests : e.Nests opened opened')
    (he : e.piece = .ok (.token t)) (hnames : LocalNames opened names)
    (hrest : ∀ names', LocalNames opened' names' → WellNested names' ts) :
    WellNested names (t :: ts) := by
  cases Event.gives_of_piece he with
  | startTag ho =>
      cases hnests
      rw [WellNested]
      exact hrest _ (.cons ho hnames)
  | endTag ho =>
      cases hnests
      cases hnames with
      | cons ho' hnames =>
          have hsame := ho.symm.trans ho'
          cases hsame
          exact ⟨rfl, hrest _ hnames⟩
  | instruction =>
      cases hnests
      rw [WellNested]
      exact hrest _ hnames

theorem eq_of_nests_chars {e : Event} {cs : List Char} {opened opened' : List Octets}
    (hnests : e.Nests opened opened') (he : e.piece = .ok (.chars cs)) : opened' = opened := by
  cases Event.gives_of_piece he <;> exact hnests

theorem Scanner.wellNested_tokens (acc : Option (List Char)) (s : Scanner) :
    ∀ names, LocalNames s.opened names → WellNested names (s.tokens acc).1 := by
  refine tokens_induction
    (motive := fun _ s st => ∀ names, LocalNames s.opened names → WellNested names st.1)
    ?_ ?_ ?_ ?_ ?_ acc s
  · intro _ _ _ _ _ names _
    rw [WellNested]
    trivial
  · intro _ _ _ _ _ _ _ names _
    rw [WellNested]
    trivial
  · intro acc s e cs s' h he ih names hnames
    have hsame := eq_of_nests_chars (advances_of_next h).nests he
    exact ih names (hsame ▸ hnames)
  · intro acc s e t s' h he ih names hnames
    have hnests := (advances_of_next h).nests
    rw [Stream.after_fst, List.append_assoc]
    exact wellNested_gathered acc (wellNested_token hnests he hnames ih)
  · intro acc s s' _ names _
    have hnil : WellNested names [] := by rw [WellNested]; trivial
    have hgathered := wellNested_gathered acc hnil
    rwa [List.append_nil] at hgathered

/-- Whatever the octets of a source are and however it ends, its tokens are the
beginning of balanced ones: every end tag has the name of the innermost element
still open, and there is one.  No two texts stand next to each other. -/
theorem nested_tokens_ofSource (s : Source) :
    let ts := (TokenReader.ofSource s).tokens.1
    (∃ us, Balanced (ts ++ us)) ∧ WellNested [] ts ∧ Separate ts := by
  intro ts
  have hnested : WellNested [] ts := by
    show WellNested [] (TokenReader.ofSource s).tokens.1
    rw [tokens_ofSource_eq]
    exact Scanner.wellNested_tokens none (Scanner.ofSource s) [] .nil
  exact ⟨exists_balanced hnested, hnested, separate_tokens_ofSource s⟩

end Markup

end XmlRpc
