/-
# Sources cut short

A scanner does not look past what it takes, texts apart: these end in front
of the next `<` or `&`.  So for tokens up to an end tag there is a place in the
source with two properties:

    behind it     whatever comes, the tokens are there
    before it     wherever the source is cut, some of the tokens are missing,
                  and what stops them is the cut itself

`CutAt` says this of a place, and `exists_cutAt` finds the place event by
event.  A cut inside a text may leave a part of the text (`Truncated`).
-/
import Mathlib.Data.List.TakeWhile
import XmlRpc.Proofs.Markup.Delimiter
import XmlRpc.Proofs.Markup.Stream
import XmlRpc.Proofs.Text.Utf8

namespace XmlRpc

namespace Markup

/-! ## Truncated tokens -/

/-- Tokens of which the last ones are missing. -/
inductive Truncated : List Token → List Token → Prop where
  | here {t : Token} {ts : List Token} : Truncated [] (t :: ts)
  | inText {s s' : String} {ts : List Token} : s'.toList <+: s.toList →
      Truncated [.text s'] (.text s :: ts)
  | cons {t : Token} {us ts : List Token} : Truncated us ts → Truncated (t :: us) (t :: ts)

theorem not_truncated_nil {us : List Token} : ¬ Truncated us [] := fun h => by cases h

/-- A token that is no text is there or is not. -/
theorem Truncated.of_cons {t : Token} {us ts : List Token} (h : Truncated us (t :: ts))
    (ht : ∀ s, t ≠ .text s) : us = [] ∨ ∃ us', us = t :: us' ∧ Truncated us' ts := by
  cases h with
  | here => exact .inl rfl
  | inText => exact absurd rfl (ht _)
  | cons h => exact .inr ⟨_, rfl, h⟩

theorem Truncated.of_append {ts₁ ts₂ us : List Token} (h : Truncated us (ts₁ ++ ts₂)) :
    Truncated us ts₁ ∨ ∃ us', us = ts₁ ++ us' ∧ Truncated us' ts₂ := by
  induction ts₁ generalizing us with
  | nil => exact .inr ⟨us, rfl, h⟩
  | cons t ts₁ ih =>
      cases h with
      | here => exact .inl .here
      | inText hs => exact .inl (.inText hs)
      | cons h =>
          rcases ih h with hl | ⟨us', rfl, hr⟩
          · exact .inl (.cons hl)
          · exact .inr ⟨us', rfl, hr⟩

theorem Truncated.append {us ts : List Token} (h : Truncated us ts) (zs : List Token) :
    Truncated (zs ++ us) (zs ++ ts) := by
  induction zs with
  | nil => exact h
  | cons z zs ih => exact .cons ih

theorem truncated_behind (zs : List Token) (t : Token) (ts : List Token) :
    Truncated zs (zs ++ t :: ts) := by
  induction zs with
  | nil => exact .here
  | cons z zs ih => exact .cons ih

/-! ## What a cut leads to -/

/-- The problems that an end of the input in the wrong place leads to. -/
def Problem.isCut : Problem → Bool
  | .unknownMarkup | .unclosedInstruction | .unclosedComment | .unclosedDoctype
  | .unclosedCdata | .unclosedTag | .unclosedReference | .undecodable _ => true
  | _ => false

/-- What stops the tokens where octets are missing: nothing else or a problem
due to the cut if the input ends there, and the failure of the stream if that
broke. -/
def Halts : Ending → Option Problem → Prop
  | .endOfInput, none => True
  | .endOfInput, some p => p.isCut = true
  | .broken message, stop => stop = some (.stream message)

theorem unfinished_halts {s : Scanner} {p : Problem} (hp : p.isCut = true) :
    ∃ q s', s.unfinished p = (.error q, s') ∧ Halts s.ending (some q) := by
  unfold Scanner.unfinished
  cases hd : s.ending with
  | endOfInput => exact ⟨p, s.finish, rfl, hp⟩
  | broken message => exact ⟨.stream message, s.finish, rfl, rfl⟩

/-! ## Whole events -/

/-- The octets `u` are one event whatever comes behind them, and fewer of them
are none. -/
structure Whole (names : List Octets) (u : Octets) (e : Event) (place : Place)
    (names' : List Octets) : Prop where
  ne_nil : u ≠ []
  next : ∀ d c, (Scanner.between d names (u ++ c)).next = (.ok e, ⟨place, c, d, names', true⟩)
  short : ∀ u', u' <+: u → u' ≠ [] → u' ≠ u → ∀ d,
    ∃ p s, (Scanner.between d names u').next = (.error p, s) ∧ Halts d (some p)

theorem prefix_of_short {a b : UInt8} {x u : Octets} (hu : u <+: a :: (x ++ [b])) (hne : u ≠ [])
    (hne' : u ≠ a :: (x ++ [b])) : ∃ v, u = a :: v ∧ v <+: x := by
  cases u with
  | nil => exact absurd rfl hne
  | cons c v =>
      obtain ⟨rfl, hv⟩ := List.cons_prefix_cons.mp hu
      rcases List.prefix_concat_iff.mp hv with rfl | hv
      · exact absurd rfl hne'
      · exact ⟨v, rfl, hv⟩

theorem whole_reference {names : List Octets} {x : Octets}
    (hx : ∀ b ∈ x, (b != 0x3B && b != 0x26 && b != 0x3C) = true) :
    Whole names (0x26 :: (x ++ [0x3B])) (.reference x) .content names where
  ne_nil := by simp
  next d c := by
    have hc : ∀ b ∈ (0x3B :: c).head?, (b != 0x3B && b != 0x26 && b != 0x3C) = false := by
      intro b hb
      cases hb
      rfl
    show Scanner.reference _ (x ++ [0x3B] ++ c) = _
    rw [List.append_assoc]
    show Scanner.reference _ (x ++ 0x3B :: c) = _
    rw [Scanner.reference, dropWhile_run hx hc, takeWhile_run hx hc]
    rfl
  short u' hu hne hne' d := by
    obtain ⟨v, rfl, hv⟩ := prefix_of_short hu hne hne'
    have hnil : v.dropWhile (fun b => b != 0x3B && b != 0x26 && b != 0x3C) = [] :=
      List.dropWhile_eq_nil_iff.mpr fun b hb => hx b (hv.subset hb)
    show ∃ p s, Scanner.reference _ v = _ ∧ _
    rw [Scanner.reference, hnil]
    exact unfinished_halts rfl

theorem bang_cdata (s : Scanner) {r : Octets} (h : r.head? = some 0x5B) :
    s.bang r = match cut [0x5D, 0x5D, 0x3E] r with
      | none => s.unfinished .unclosedCdata
      | some (before, after) =>
        if [0x5B, 0x43, 0x44, 0x41, 0x54, 0x41, 0x5B].isPrefixOf before then
          (.ok (.cdata (before.drop 7)), s.goOn after)
        else (.error .unclosedCdata, s.finish) := by
  cases r with
  | nil => cases h
  | cons b r =>
      cases h
      rfl

theorem head_of_isPrefix {b : UInt8} {u v : Octets} (hu : u <+: v) (hne : u ≠ [])
    (hv : v.head? = some b) : u.head? = some b := by
  obtain ⟨w, rfl⟩ := hu
  cases u with
  | nil => exact absurd rfl hne
  | cons a u => exact hv

theorem whole_cdata {names : List Octets} {before : Octets}
    (hpre : [0x5B, 0x43, 0x44, 0x41, 0x54, 0x41, 0x5B].isPrefixOf before = true)
    (hcut : ∀ c, cut [0x5D, 0x5D, 0x3E] (before ++ ([0x5D, 0x5D, 0x3E] ++ c)) = some (before, c))
    (hnone : ∀ u, u <+: before ++ [0x5D, 0x5D, 0x3E] → u ≠ before ++ [0x5D, 0x5D, 0x3E] →
      cut [0x5D, 0x5D, 0x3E] u = none) :
    Whole names (0x3C :: 0x21 :: (before ++ [0x5D, 0x5D, 0x3E])) (.cdata (before.drop 7))
      .content names where
  ne_nil := by simp
  next d c := by
    have hhead : (before ++ ([0x5D, 0x5D, 0x3E] ++ c)).head? = some 0x5B := by
      obtain ⟨x, rfl⟩ := List.isPrefixOf_iff_prefix.mp hpre
      rfl
    show Scanner.bang _ (before ++ [0x5D, 0x5D, 0x3E] ++ c) = _
    rw [List.append_assoc, bang_cdata _ hhead, hcut]
    simp only [hpre, if_true]
    rfl
  short u' hu hne hne' d := by
    have hhead : (before ++ [0x5D, 0x5D, 0x3E]).head? = some 0x5B := by
      obtain ⟨x, rfl⟩ := List.isPrefixOf_iff_prefix.mp hpre
      rfl
    match u' with
    | [] => exact absurd rfl hne
    | [a] =>
        obtain ⟨rfl, -⟩ := List.cons_prefix_cons.mp hu
        exact unfinished_halts (p := .unclosedTag) rfl
    | [a, b] =>
        obtain ⟨rfl, hb⟩ := List.cons_prefix_cons.mp hu
        obtain ⟨rfl, -⟩ := List.cons_prefix_cons.mp hb
        exact unfinished_halts (p := .unknownMarkup) rfl
    | a :: b :: e :: v =>
        obtain ⟨rfl, hb⟩ := List.cons_prefix_cons.mp hu
        obtain ⟨rfl, hv⟩ := List.cons_prefix_cons.mp hb
        have hcutv := hnone (e :: v) hv fun he => hne' (by rw [he])
        show ∃ p s, Scanner.bang _ (e :: v) = _ ∧ _
        rw [bang_cdata _ (head_of_isPrefix hv (List.cons_ne_nil e v) hhead), hcutv]
        exact unfinished_halts rfl

theorem markup_instruction (s : Scanner) {r : Octets} (h : r.head? = some 0x3F) :
    s.markup r = match cut [0x3F, 0x3E] r with
      | none => s.unfinished .unclosedInstruction
      | some (before, after) =>
        if before = [] then (.error .unclosedInstruction, s.finish)
        else (.ok .instruction, s.goOn after) := by
  cases r with
  | nil => cases h
  | cons b r =>
      cases h
      rfl

theorem whole_instruction {names : List Octets} {before : Octets} (hne : before ≠ [])
    (hhead : before.head? = some 0x3F)
    (hcut : ∀ c, cut [0x3F, 0x3E] (before ++ ([0x3F, 0x3E] ++ c)) = some (before, c))
    (hnone : ∀ u, u <+: before ++ [0x3F, 0x3E] → u ≠ before ++ [0x3F, 0x3E] →
      cut [0x3F, 0x3E] u = none) :
    Whole names (0x3C :: (before ++ [0x3F, 0x3E])) .instruction .content names where
  ne_nil := by simp
  next d c := by
    have hhead' : (before ++ ([0x3F, 0x3E] ++ c)).head? = some 0x3F := by
      rw [List.head?_append, hhead]
      rfl
    show Scanner.markup _ (before ++ [0x3F, 0x3E] ++ c) = _
    rw [List.append_assoc, markup_instruction _ hhead', hcut]
    simp only [hne, if_false]
    rfl
  short u' hu hne hne' d := by
    have hhead' : (before ++ [0x3F, 0x3E]).head? = some 0x3F := by
      rw [List.head?_append, hhead]
      rfl
    match u' with
    | [] => exact absurd rfl hne
    | [a] =>
        obtain ⟨rfl, -⟩ := List.cons_prefix_cons.mp hu
        exact unfinished_halts (p := .unclosedTag) rfl
    | a :: b :: v =>
        obtain ⟨rfl, hv⟩ := List.cons_prefix_cons.mp hu
        have hcutv := hnone (b :: v) hv fun he => hne' (by rw [he])
        show ∃ p s, Scanner.markup _ (b :: v) = _ ∧ _
        rw [markup_instruction _ (head_of_isPrefix hv (List.cons_ne_nil b v) hhead'), hcutv]
        exact unfinished_halts rfl

theorem markup_endTag (s : Scanner) (r : Octets) :
    s.markup (0x2F :: r) = match cutTag .outside r with
      | none => s.unfinished .unclosedTag
      | some (content, after) => s.endTag content after := rfl

theorem whole_endTag {names : List Octets} {opened content : Octets}
    (hname : endName content = opened)
    (hcut : ∀ c, cutTag .outside (content ++ 0x3E :: c) = some (content, c))
    (hnone : ∀ u, u <+: content → cutTag .outside u = none) :
    Whole (opened :: names) (0x3C :: (0x2F :: content ++ [0x3E])) (.endTag opened) .content
      names where
  ne_nil := by simp
  next d c := by
    show Scanner.markup _ (0x2F :: (content ++ [0x3E] ++ c)) = _
    rw [List.append_assoc, List.singleton_append, markup_endTag, hcut]
    simp only [Scanner.endTag, Scanner.between, hname, if_true]
    rfl
  short u' hu hne hne' d := by
    obtain ⟨v, rfl, hv⟩ := prefix_of_short hu hne hne'
    cases v with
    | nil => exact unfinished_halts (p := .unclosedTag) rfl
    | cons b v =>
        obtain ⟨rfl, hv'⟩ := List.cons_prefix_cons.mp hv
        show ∃ p s, Scanner.markup _ (0x2F :: v) = _ ∧ _
        rw [markup_endTag, hnone v hv']
        exact unfinished_halts rfl

theorem markup_startTag (s : Scanner) {b : UInt8} {r : Octets} (hb : b ≠ 0x21 ∧ b ≠ 0x2F ∧ b ≠ 0x3F)
    (h : r.head? = some b) :
    s.markup r = match cutTag .outside r with
      | none => s.unfinished .unclosedTag
      | some (content, after) => s.startTag content after := by
  cases r with
  | nil => cases h
  | cons a r =>
      cases h
      exact (if_neg hb.1).trans ((if_neg hb.2.1).trans (if_neg hb.2.2))

/-- Where a start tag leads: to its end tag if it has a slash at its end. -/
theorem whole_startTag {names : List Octets} {b : UInt8} {content : Octets}
    (hb : b ≠ 0x21 ∧ b ≠ 0x2F ∧ b ≠ 0x3F) (hhead : (content ++ [0x3E]).head? = some b)
    (hcut : ∀ c, cutTag .outside (content ++ 0x3E :: c) = some (content, c))
    (hnone : ∀ u, u <+: content → cutTag .outside u = none) :
    ∃ name place names', (place = .content ∨ place = .selfClosed name) ∧
      (∀ d c, Scanner.startTag (Scanner.between d names (0x3C :: (content ++ 0x3E :: c))) content c
        = (.ok (.startTag name), ⟨place, c, d, names', true⟩)) ∧
      Whole names (0x3C :: (content ++ [0x3E])) (.startTag name) place names' := by
  have hnext (d : Ending) (c : Octets) :
      (Scanner.between d names (0x3C :: (content ++ [0x3E]) ++ c)).next
        = Scanner.startTag (Scanner.between d names (0x3C :: (content ++ 0x3E :: c)))
            content c := by
    have hhead' : (content ++ 0x3E :: c).head? = some b := by
      rw [← List.singleton_append, ← List.append_assoc, List.head?_append, hhead]
      rfl
    show Scanner.markup _ (content ++ [0x3E] ++ c) = _
    rw [List.append_assoc, List.singleton_append, markup_startTag _ hb hhead', hcut]
    rfl
  have hshort : ∀ u', u' <+: 0x3C :: (content ++ [0x3E]) → u' ≠ [] →
      u' ≠ 0x3C :: (content ++ [0x3E]) → ∀ d,
      ∃ p s, (Scanner.between d names u').next = (.error p, s) ∧ Halts d (some p) := by
    intro u' hu hne hne' d
    obtain ⟨v, rfl, hv⟩ := prefix_of_short hu hne hne'
    by_cases hvn : v = []
    · subst hvn
      exact unfinished_halts (p := .unclosedTag) rfl
    · have hv' := hv.trans (List.prefix_append content [0x3E])
      show ∃ p s, Scanner.markup _ v = _ ∧ _
      rw [markup_startTag _ hb (head_of_isPrefix hv' hvn hhead), hnone v hv]
      exact unfinished_halts rfl
  by_cases hs : content.getLast? = some 0x2F
  · refine ⟨tagName content.dropLast, .selfClosed (tagName content.dropLast), names, .inr rfl,
      ?_, ?_⟩
    · intro d c
      rw [Scanner.startTag, if_pos hs]
      rfl
    · refine ⟨by simp, ?_, hshort⟩
      intro d c
      rw [hnext, Scanner.startTag, if_pos hs]
      rfl
  · refine ⟨tagName content, .content, tagName content :: names, .inl rfl, ?_, ?_⟩
    · intro d c
      rw [Scanner.startTag, if_neg hs]
      rfl
    · refine ⟨by simp, ?_, hshort⟩
      intro d c
      rw [hnext, Scanner.startTag, if_neg hs]
      rfl

/-! ## Finding the octets of an event -/

theorem unfinished_ne_ok {s s' : Scanner} {p : Problem} {e : Event} :
    s.unfinished p ≠ (.ok e, s') := by
  unfold Scanner.unfinished
  split <;> simp

theorem bang_eq_ok {s s' : Scanner} {r : Octets} {e : Event} (h : s.bang r = (.ok e, s')) :
    e = .comment ∨ e = .doctype ∨ ∃ before after, cut [0x5D, 0x5D, 0x3E] r = some (before, after) ∧
      [0x5B, 0x43, 0x44, 0x41, 0x54, 0x41, 0x5B].isPrefixOf before = true ∧
      e = .cdata (before.drop 7) ∧ s' = s.goOn after := by
  unfold Scanner.bang at h
  split at h
  · exact absurd h unfinished_ne_ok
  · split at h
    · split at h
      · exact absurd h unfinished_ne_ok
      · rename_i before after hcut
        split at h
        · rename_i hpre
          cases h
          exact .inr (.inr ⟨before, after, hcut, hpre, rfl, rfl⟩)
        · cases h
    · split at h
      · split at h
        · exact absurd h unfinished_ne_ok
        · split at h
          · cases h
            exact .inl rfl
          · cases h
      · split at h
        · split at h
          · exact absurd h unfinished_ne_ok
          · dsimp only at h
            split at h
            · split at h
              · cases h
              · cases h
                exact .inr (.inl rfl)
            · cases h
        · cases h

/-- What a scanner takes between events, texts apart: octets that are an event
of their own. -/
def TakesWhole (d : Ending) (names : List Octets) (o : Octets) (e : Event) (s : Scanner) : Prop :=
  ∃ u c place names', o = u ++ c ∧ s = ⟨place, c, d, names', true⟩ ∧
    (place = .content ∨ ∃ name, place = .selfClosed name) ∧ Whole names u e place names'

variable {d : Ending} {names : List Octets} {r : Octets} {e : Event} {s : Scanner}

theorem takesWhole_bang {x : Piece} (hx : e.piece = .ok x)
    (h : (Scanner.between d names (0x3C :: 0x21 :: r)).bang r = (.ok e, s)) :
    TakesWhole d names (0x3C :: 0x21 :: r) e s := by
  rcases bang_eq_ok h with rfl | rfl | ⟨before, after, hcut, hpre, rfl, rfl⟩
  · cases hx
  · cases hx
  · obtain ⟨hr, hext, hnone⟩ := cut_eq_some (by decide) hcut
    refine ⟨_, after, .content, names, ?_, rfl, .inl rfl, whole_cdata hpre hext hnone⟩
    rw [hr]
    simp

theorem takesWhole_endTag {content after : Octets}
    (hcut : cutTag .outside r = some (content, after))
    (h : (Scanner.between d names (0x3C :: 0x2F :: r)).endTag content after = (.ok e, s)) :
    TakesWhole d names (0x3C :: 0x2F :: r) e s := by
  obtain ⟨hr, hext, hnone⟩ := cutTag_eq_some hcut
  cases names with
  | nil => cases h
  | cons opened names =>
      simp only [Scanner.endTag, Scanner.between] at h
      split at h
      · rename_i hname
        cases h
        rw [hname]
        refine ⟨_, after, .content, names, ?_, rfl, .inl rfl, whole_endTag hname hext hnone⟩
        rw [hr]
        simp
      · cases h

theorem takesWhole_instruction {before after : Octets} (hhead : r.head? = some 0x3F)
    (hne : before ≠ []) (hcut : cut [0x3F, 0x3E] r = some (before, after)) :
    TakesWhole d names (0x3C :: r) .instruction (Scanner.between d names after) := by
  obtain ⟨hr, hext, hnone⟩ := cut_eq_some (by decide) hcut
  have hhead' : before.head? = some 0x3F :=
    head_of_isPrefix ⟨_, hr.symm⟩ hne hhead
  refine ⟨_, after, .content, names, ?_, rfl, .inl rfl, whole_instruction hne hhead' hext hnone⟩
  rw [hr]
  simp

theorem takesWhole_startTag {b : UInt8} {content after : Octets}
    (hb : b ≠ 0x21 ∧ b ≠ 0x2F ∧ b ≠ 0x3F) (hhead : r.head? = some b)
    (hcut : cutTag .outside r = some (content, after))
    (h : (Scanner.between d names (0x3C :: r)).startTag content after = (.ok e, s)) :
    TakesWhole d names (0x3C :: r) e s := by
  obtain ⟨hr, hext, hnone⟩ := cutTag_eq_some hcut
  have hhead' : (content ++ [0x3E]).head? = some b := by
    refine head_of_isPrefix ⟨after, ?_⟩ (by simp) hhead
    rw [hr]
    simp
  obtain ⟨name, place, names', hplace, hstart, hwhole⟩ := whole_startTag hb hhead' hext hnone
  rw [hr, hstart] at h
  cases h
  refine ⟨_, after, place, names', ?_, rfl, hplace.imp_right fun hp => ⟨name, hp⟩, hwhole⟩
  rw [hr]
  simp

theorem takesWhole_markup {x : Piece} (hx : e.piece = .ok x)
    (h : (Scanner.between d names (0x3C :: r)).markup r = (.ok e, s)) :
    TakesWhole d names (0x3C :: r) e s := by
  cases r with
  | nil => exact absurd h unfinished_ne_ok
  | cons b r =>
      by_cases h₁ : b = 0x21
      · subst h₁
        exact takesWhole_bang hx h
      · by_cases h₂ : b = 0x2F
        · subst h₂
          rw [markup_endTag] at h
          split at h
          · exact absurd h unfinished_ne_ok
          · rename_i content after hcut
            exact takesWhole_endTag hcut h
        · by_cases h₃ : b = 0x3F
          · subst h₃
            rw [markup_instruction _ rfl] at h
            split at h
            · exact absurd h unfinished_ne_ok
            · rename_i before after hcut
              split at h
              · cases h
              · rename_i hne
                cases h
                exact takesWhole_instruction rfl hne hcut
          · rw [markup_startTag _ ⟨h₁, h₂, h₃⟩ rfl] at h
            split at h
            · exact absurd h unfinished_ne_ok
            · rename_i content after hcut
              exact takesWhole_startTag ⟨h₁, h₂, h₃⟩ rfl hcut h

theorem takesWhole_reference
    (h : (Scanner.between d names (0x26 :: r)).reference r = (.ok e, s)) :
    TakesWhole d names (0x26 :: r) e s := by
  let p : UInt8 → Bool := fun b => b != 0x3B && b != 0x26 && b != 0x3C
  have hsplit : r = r.takeWhile p ++ r.dropWhile p := List.takeWhile_append_dropWhile.symm
  have hrun : ∀ b ∈ r.takeWhile p, p b = true := by
    intro b hb
    have hall := List.all_takeWhile (p := p) (l := r)
    rw [List.all_eq_true] at hall
    exact hall b hb
  rw [Scanner.reference] at h
  split at h
  · exact absurd h unfinished_ne_ok
  · rename_i b after hdrop
    split at h
    · rename_i hb
      subst hb
      cases h
      refine ⟨_, after, .content, names, ?_, rfl, .inl rfl, whole_reference hrun⟩
      have hd : r.dropWhile p = 0x3B :: after := hdrop
      rw [hd] at hsplit
      exact congrArg (List.cons 0x26) (hsplit.trans (List.append_cons _ _ _))
    · cases h

/-! ## Tokens before a cut -/

theorem tokens_gathered (a : List Char) (s : Scanner) :
    (s.tokens (some a)).1 = [] ∨
      ∃ t ts, (s.tokens (some a)).1 = .text t :: ts ∧ a <+: t.toList := by
  suffices hall : ∀ (acc : Option (List Char)) (s : Scanner) (a : List Char), acc = some a →
      (s.tokens acc).1 = [] ∨ ∃ t ts, (s.tokens acc).1 = .text t :: ts ∧ a <+: t.toList from
    hall (some a) s a rfl
  intro acc s
  refine Scanner.tokens_induction (motive := fun acc _ st =>
    ∀ a, acc = some a → st.1 = [] ∨ ∃ t ts, st.1 = .text t :: ts ∧ a <+: t.toList)
    ?_ ?_ ?_ ?_ ?_ acc s
  · intro _ _ _ _ _ _ _
    exact .inl rfl
  · intro _ _ _ _ _ _ _ _ _
    exact .inl rfl
  · rintro _ _ _ cs _ _ _ ih a rfl
    rcases ih (a ++ cs) rfl with hnil | ⟨t, ts, hts, ht⟩
    · exact .inl hnil
    · exact .inr ⟨t, ts, hts, (List.prefix_append a cs).trans ht⟩
  · rintro _ _ _ t _ _ _ _ a rfl
    exact .inr ⟨String.ofList a, _, rfl, by simp⟩
  · rintro _ _ _ _ a rfl
    exact .inr ⟨String.ofList a, [], rfl, by simp⟩

/-- The text gathered before is all there is of the tokens where nothing comes
behind it. -/
theorem truncated_gathered {acc : Option (List Char)} {s : Scanner} {ts : List Token}
    (h : ts <+: (s.tokens acc).1) (hne : ts ≠ []) : Truncated (gathered acc) ts := by
  obtain ⟨t, ts, rfl⟩ := List.exists_cons_of_ne_nil hne
  cases acc with
  | none => exact .here
  | some a =>
      rcases tokens_gathered a s with hnil | ⟨t', ts', hts, ht⟩
      · rw [hnil] at h
        exact absurd (List.prefix_nil.mp h) hne
      · rw [hts] at h
        obtain ⟨rfl, -⟩ := List.cons_prefix_cons.mp h
        exact .inText (by rw [String.toList_ofList]; exact ht)

/-- What a cut source delivers: some of the tokens, and they end because of the
cut. -/
def CutShort (d : Ending) (st : Stream) (ts : List Token) : Prop :=
  Truncated st.1 ts ∧ Halts d st.2

/-- The octets `u` hold those tokens whatever comes behind them, and any part
of them is cut short. -/
structure CutAt (acc : Option (List Char)) (place : Place) (names : List Octets) (u : Octets)
    (ts : List Token) : Prop where
  whole : ∀ d c, ts <+: (Scanner.tokens acc ⟨place, u ++ c, d, names, true⟩).1
  short : ∀ u', u' <+: u → u' ≠ u → ∀ d,
    CutShort d (Scanner.tokens acc ⟨place, u', d, names, true⟩) ts

variable {acc : Option (List Char)} {place : Place} {names names' : List Octets}
  {u v : Octets} {ts : List Token}

theorem cutAt_nil : CutAt acc place names [] [] where
  whole _ _ := List.nil_prefix
  short _ hu hne := absurd (List.prefix_nil.mp hu) hne

theorem cutShort_nil {s : Scanner} (h : ts <+: (s.tokens acc).1) (hne : ts ≠ []) (d : Ending) :
    CutShort d ((Scanner.between d names []).tokens acc) ts := by
  cases d with
  | endOfInput =>
      rw [Scanner.tokens_stop rfl]
      exact ⟨truncated_gathered h hne, trivial⟩
  | broken message =>
      rw [Scanner.tokens_problem rfl]
      obtain ⟨t, ts, rfl⟩ := List.exists_cons_of_ne_nil hne
      exact ⟨.here, rfl⟩

theorem prefix_append_cases {w : Octets} (h : w <+: u ++ v) (hne : w ≠ u ++ v) :
    (w <+: u ∧ w ≠ u) ∨ ∃ x, w = u ++ x ∧ x <+: v ∧ x ≠ v := by
  by_cases hu : w <+: u ∧ w ≠ u
  · exact .inl hu
  · have huw : u <+: w := by
      rcases List.prefix_or_prefix_of_prefix h (List.prefix_append u v) with hw | hw
      · by_cases he : w = u
        · exact he ▸ List.prefix_refl w
        · exact absurd ⟨hw, he⟩ hu
      · exact hw
    obtain ⟨x, rfl⟩ := huw
    refine .inr ⟨x, rfl, (List.prefix_append_right_inj u).mp h, ?_⟩
    rintro rfl
    exact hne rfl

theorem cutAt_token {e : Event} {t : Token} (hw : Whole names u e place names')
    (he : e.piece = .ok (.token t)) (h : CutAt none place names' v ts) :
    CutAt acc .content names (u ++ v) (gathered acc ++ t :: ts) where
  whole d c := by
    show _ <+: ((Scanner.between d names (u ++ v ++ c)).tokens acc).1
    rw [List.append_assoc, Scanner.tokens_token (hw.next d (v ++ c)) he]
    have hv := h.whole d c
    rw [Stream.after_fst, List.append_assoc, List.singleton_append]
    exact (List.prefix_append_right_inj _).mpr (List.cons_prefix_cons.mpr ⟨rfl, hv⟩)
  short w hwp hne d := by
    show CutShort d ((Scanner.between d names w).tokens acc) _
    rcases prefix_append_cases hwp hne with ⟨hu, hne'⟩ | ⟨x, rfl, hx, hne'⟩
    · by_cases hnil : w = []
      · subst hnil
        cases d with
        | endOfInput =>
            rw [Scanner.tokens_stop rfl]
            exact ⟨truncated_behind _ _ _, trivial⟩
        | broken message =>
            rw [Scanner.tokens_problem rfl]
            exact ⟨by cases acc <;> exact .here, rfl⟩
      · obtain ⟨p, s, hn, hp⟩ := hw.short w hu hnil hne' d
        rw [Scanner.tokens_problem hn]
        exact ⟨by cases acc <;> exact .here, hp⟩
    · rw [Scanner.tokens_token (hw.next d x) he]
      obtain ⟨ht, hs⟩ := h.short x hx hne' d
      refine ⟨?_, hs⟩
      rw [Stream.after_fst, List.append_assoc, List.singleton_append]
      exact (Truncated.cons ht).append _

theorem cutAt_chars {e : Event} {cs : List Char} (hw : Whole names u e place names')
    (he : e.piece = .ok (.chars cs)) (hne : ts ≠ [])
    (h : CutAt (some (acc.getD [] ++ cs)) place names' v ts) :
    CutAt acc .content names (u ++ v) ts where
  whole d c := by
    show _ <+: ((Scanner.between d names (u ++ v ++ c)).tokens acc).1
    rw [List.append_assoc, Scanner.tokens_chars (hw.next d (v ++ c)) he]
    exact h.whole d c
  short w hwp hne' d := by
    show CutShort d ((Scanner.between d names w).tokens acc) _
    have hts : ts <+: ((Scanner.between d names (u ++ v)).tokens acc).1 := by
      rw [Scanner.tokens_chars (hw.next d v) he]
      have := h.whole d []
      rwa [List.append_nil] at this
    rcases prefix_append_cases hwp hne' with ⟨hu, hne''⟩ | ⟨x, rfl, hx, hne''⟩
    · by_cases hnil : w = []
      · subst hnil
        exact cutShort_nil hts hne d
      · obtain ⟨p, s, hn, hp⟩ := hw.short w hu hnil hne'' d
        rw [Scanner.tokens_problem hn]
        obtain ⟨t, ts, rfl⟩ := List.exists_cons_of_ne_nil hne
        exact ⟨.here, hp⟩
    · rw [Scanner.tokens_chars (hw.next d x) he]
      exact h.short x hx hne'' d

/-- A text cut short at the end of the input is still a text if no character
was cut. -/
theorem cutShort_text {x w : Octets} {cs : List Char} (hx : ∀ b ∈ x, isPlainText b = true)
    (hcs : Utf8.decode x = .ok cs) (hne : ts ≠ []) (hw : w <+: x) (hwne : w ≠ []) {s : Scanner}
    (h : ts <+: (s.tokens (some (acc.getD [] ++ cs))).1) (d : Ending) :
    CutShort d ((Scanner.between d names w).tokens acc) ts := by
  obtain ⟨t, ts, rfl⟩ := List.exists_cons_of_ne_nil hne
  have hw' : ∀ b ∈ w, isPlainText b = true := fun b hb => hx b (hw.subset hb)
  cases d with
  | broken message =>
      rw [Scanner.tokens_problem (next_text_broken hwne hw' names message)]
      exact ⟨.here, rfl⟩
  | endOfInput =>
      have hnext := next_text_end hwne hw' names
      cases hdec : Utf8.decode w with
      | error p =>
          have hpiece : (Event.text w).piece = .error (.undecodable p) := by
            simp [Event.piece, decodeText, hdec, Except.map]
          rw [Scanner.tokens_badPiece hnext hpiece]
          exact ⟨.here, rfl⟩
      | ok cs' =>
          have hpiece : (Event.text w).piece = .ok (.chars cs') := by
            simp [Event.piece, decodeText, hdec, Except.map]
          rw [Scanner.tokens_chars hnext hpiece, Scanner.tokens_stop rfl]
          refine ⟨?_, trivial⟩
          obtain ⟨v, rfl⟩ := hw
          have hcs' : cs' <+: cs := Utf8.decode_prefix hdec hcs
          rcases tokens_gathered (acc.getD [] ++ cs) s with hnil | ⟨t', ts', hts, ht⟩
          · rw [hnil] at h
            exact absurd (List.prefix_nil.mp h) hne
          · rw [hts] at h
            obtain ⟨rfl, -⟩ := List.cons_prefix_cons.mp h
            refine .inText ?_
            rw [String.toList_ofList]
            exact ((List.prefix_append_right_inj _).mpr hcs').trans ht

theorem cutAt_text {x : Octets} {a : UInt8} {cs : List Char} (hxne : x ≠ [])
    (hx : ∀ b ∈ x, isPlainText b = true) (hcs : Utf8.decode x = .ok cs) (hne : ts ≠ [])
    (hv : v.head? = some a) (ha : isPlainText a = false)
    (h : CutAt (some (acc.getD [] ++ cs)) .content names v ts) :
    CutAt acc .content names (x ++ v) ts := by
  have hpiece : (Event.text x).piece = .ok (.chars cs) := by
    simp [Event.piece, decodeText, hcs, Except.map]
  have htokens {y : Octets} (hy : y.head? = some a) (d : Ending) :
      (Scanner.between d names (x ++ y)).tokens acc
        = (Scanner.between d names y).tokens (some (acc.getD [] ++ cs)) := by
    obtain ⟨y, rfl⟩ := List.head?_eq_some_iff.mp hy
    exact Scanner.tokens_chars (next_text hxne hx ha d names) hpiece
  have hvc (c : Octets) : (v ++ c).head? = some a := by
    rw [List.head?_append, hv]
    rfl
  refine ⟨?_, ?_⟩
  · intro d c
    show _ <+: ((Scanner.between d names (x ++ v ++ c)).tokens acc).1
    rw [List.append_assoc, htokens (hvc c)]
    exact h.whole d c
  · intro w hw hne' d
    show CutShort d ((Scanner.between d names w).tokens acc) _
    have hts := h.whole d []
    have htext (hwx : w <+: x) : CutShort d ((Scanner.between d names w).tokens acc) ts := by
      by_cases hnil : w = []
      · subst hnil
        refine cutShort_nil (s := Scanner.between d names (x ++ (v ++ []))) ?_ hne d
        rw [htokens (hvc [])]
        exact hts
      · exact cutShort_text hx hcs hne hwx hnil hts d
    rcases prefix_append_cases hw hne' with ⟨hwx, -⟩ | ⟨y, rfl, hy, hyne⟩
    · exact htext hwx
    · by_cases hynil : y = []
      · subst hynil
        rw [List.append_nil] at htext ⊢
        exact htext (List.prefix_refl x)
      · rw [htokens (head_of_isPrefix hy hynil hv)]
        exact h.short y hy hyne d

/-- The end tag of an element without content takes no octets. -/
theorem cutAt_selfClosed {name : Octets} {t : Token}
    (he : (Event.endTag name).piece = .ok (.token t)) (h : CutAt none .content names v ts) :
    CutAt acc (.selfClosed name) names v (gathered acc ++ t :: ts) := by
  have htokens (y : Octets) (d : Ending) :
      (Scanner.mk (.selfClosed name) y d names true).tokens acc
        = Stream.after (gathered acc ++ [t]) ((Scanner.between d names y).tokens none) :=
    Scanner.tokens_token rfl he
  refine ⟨?_, ?_⟩
  · intro d c
    rw [htokens, Stream.after_fst, List.append_assoc, List.singleton_append]
    exact (List.prefix_append_right_inj _).mpr (List.cons_prefix_cons.mpr ⟨rfl, h.whole d c⟩)
  · intro w hw hne d
    obtain ⟨ht, hs⟩ := h.short w hw hne d
    rw [htokens]
    refine ⟨?_, hs⟩
    rw [Stream.after_fst, List.append_assoc, List.singleton_append]
    exact (Truncated.cons ht).append _

/-! ## Finding the place -/

def EndsInTag (ts : List Token) : Prop := ∃ name, ts.getLast? = some (.endTag name)

theorem EndsInTag.ne_nil (h : EndsInTag ts) : ts ≠ [] := by
  rintro rfl
  obtain ⟨name, h⟩ := h
  cases h

theorem EndsInTag.not_gathered (h : EndsInTag ts) : ¬ ts <+: gathered acc := by
  intro hp
  obtain ⟨name, h⟩ := h
  have hmem := hp.subset (List.mem_of_getLast? h)
  cases acc with
  | none => cases hmem
  | some a => cases List.mem_singleton.mp hmem

theorem EndsInTag.split {t : Token} {zs : List Token} (h : EndsInTag ts)
    (hp : ts <+: gathered acc ++ t :: zs) :
    ∃ us, ts = gathered acc ++ t :: us ∧ us <+: zs ∧ (us = [] ∨ EndsInTag us) := by
  rcases List.prefix_or_prefix_of_prefix hp (List.prefix_append _ _) with hg | ⟨x, rfl⟩
  · exact absurd hg h.not_gathered
  · have hx := (List.prefix_append_right_inj _).mp hp
    cases x with
    | nil =>
        rw [List.append_nil] at h
        exact absurd (List.prefix_refl _) h.not_gathered
    | cons t' us =>
        obtain ⟨rfl, hus⟩ := List.cons_prefix_cons.mp hx
        refine ⟨us, rfl, hus, ?_⟩
        cases us with
        | nil => exact .inl rfl
        | cons u us =>
            obtain ⟨name, h⟩ := h
            refine .inr ⟨name, ?_⟩
            rw [List.getLast?_append, List.getLast?_cons_cons] at h
            cases hl : (u :: us).getLast? with
            | none => simp at hl
            | some l => rw [hl] at h; exact h

/-- Texts end in front of `<`, of `&` and of the end. -/
theorem next_of_plain {b : UInt8} {r : Octets} (hb : isPlainText b = true) :
    ∃ x c, b :: r = x ++ c ∧ x ≠ [] ∧ (∀ a ∈ x, isPlainText a = true) ∧
      ∀ a ∈ c.head?, isPlainText a = false := by
  refine ⟨(b :: r).takeWhile isPlainText, (b :: r).dropWhile isPlainText,
    List.takeWhile_append_dropWhile.symm, ?_, ?_, ?_⟩
  · rw [List.takeWhile_cons_of_pos hb]
    exact List.cons_ne_nil _ _
  · intro a ha
    have hall := List.all_takeWhile (p := isPlainText) (l := b :: r)
    rw [List.all_eq_true] at hall
    exact hall a ha
  · have hhead := List.head?_dropWhile_not isPlainText (b :: r)
    intro a ha
    rw [ha] at hhead
    simpa using hhead

theorem exists_cutAt_whole {o : Octets} {e : Event} {x : Piece} {s : Scanner}
    (hto : TakesWhole d names o e s) (hx : e.piece = .ok x) (he : e ≠ .endOfInput)
    (hts : ts <+: ((Scanner.between d names o).tokens acc).1) (hend : EndsInTag ts)
    (ih : ∀ acc' ts', ts' <+: (s.tokens acc').1 → EndsInTag ts' →
      ∃ v, v <+: s.rest ∧ CutAt acc' s.place s.openNames v ts') :
    ∃ u, u <+: o ∧ CutAt acc .content names u ts := by
  obtain ⟨u, c, place, names', rfl, rfl, -, hw⟩ := hto
  cases x with
  | stop => exact absurd (Event.eq_endOfInput_of_stop hx) he
  | chars cs =>
      rw [Scanner.tokens_chars (hw.next d c) hx] at hts
      obtain ⟨v, hv, hcut⟩ := ih _ ts hts hend
      exact ⟨u ++ v, (List.prefix_append_right_inj u).mpr hv, cutAt_chars hw hx hend.ne_nil hcut⟩
  | token t =>
      rw [Scanner.tokens_token (hw.next d c) hx, Stream.after_fst, List.append_assoc] at hts
      obtain ⟨us, rfl, hus, hnil | hend'⟩ := hend.split hts
      · subst hnil
        exact ⟨u ++ [], (List.prefix_append_right_inj u).mpr List.nil_prefix,
          cutAt_token hw hx cutAt_nil⟩
      · obtain ⟨v, hv, hcut⟩ := ih none us hus hend'
        exact ⟨u ++ v, (List.prefix_append_right_inj u).mpr hv, cutAt_token hw hx hcut⟩

theorem exists_cutAt_text {b : UInt8} {r : Octets} (hb : isPlainText b = true)
    (hts : ts <+: ((Scanner.between d names (b :: r)).tokens acc).1) (hend : EndsInTag ts)
    (ih : ∀ acc' c, c.length ≤ r.length →
      ts <+: ((Scanner.between d names c).tokens acc').1 →
      ∃ v, v <+: c ∧ CutAt acc' .content names v ts) :
    ∃ u, u <+: b :: r ∧ CutAt acc .content names u ts := by
  obtain ⟨x, c, hsplit, hxne, hx, hc⟩ := next_of_plain (r := r) hb
  rw [hsplit] at hts ⊢
  have hlen : c.length ≤ r.length := by
    have hl := congrArg List.length hsplit
    have hpos := List.length_pos_iff.mpr hxne
    rw [List.length_cons, List.length_append] at hl
    omega
  have hpiece : (Event.text x).piece = (decodeText x).map .chars := rfl
  cases c with
  | nil =>
      rw [List.append_nil] at hts
      cases d with
      | broken message =>
          rw [Scanner.tokens_problem (next_text_broken hxne hx names message)] at hts
          exact absurd (List.prefix_nil.mp hts) hend.ne_nil
      | endOfInput =>
          cases hdec : Utf8.decode x with
          | error p =>
              simp only [decodeText, hdec, Except.map] at hpiece
              rw [Scanner.tokens_badPiece (next_text_end hxne hx names) hpiece] at hts
              exact absurd (List.prefix_nil.mp hts) hend.ne_nil
          | ok cs =>
              simp only [decodeText, hdec, Except.map] at hpiece
              rw [Scanner.tokens_chars (next_text_end hxne hx names) hpiece,
                Scanner.tokens_stop rfl] at hts
              change ts <+: gathered (some (acc.getD [] ++ cs)) at hts
              exact absurd hts hend.not_gathered
  | cons a c =>
      have hnext := next_text hxne hx (hc a rfl) d names (c := c)
      cases hdec : Utf8.decode x with
      | error p =>
          simp only [decodeText, hdec, Except.map] at hpiece
          rw [Scanner.tokens_badPiece hnext hpiece] at hts
          exact absurd (List.prefix_nil.mp hts) hend.ne_nil
      | ok cs =>
          simp only [decodeText, hdec, Except.map] at hpiece
          rw [Scanner.tokens_chars hnext hpiece] at hts
          obtain ⟨v, hv, hcut⟩ := ih _ (a :: c) hlen hts
          have hvne : v ≠ [] := by
            rintro rfl
            have hnil := hcut.whole .endOfInput []
            have hstop : (Scanner.mk .content ([] ++ []) .endOfInput names true).tokens
                (some (acc.getD [] ++ cs)) = (gathered _, none) := Scanner.tokens_stop rfl
            rw [hstop] at hnil
            change ts <+: gathered (some (acc.getD [] ++ cs)) at hnil
            exact hend.not_gathered hnil
          exact ⟨x ++ v, (List.prefix_append_right_inj x).mpr hv,
            cutAt_text hxne hx hdec hend.ne_nil (head_of_isPrefix hv hvne rfl) (hc a rfl) hcut⟩

theorem takesWhole_of_next {b : UInt8} {r : Octets} {e : Event} {x : Piece} {s : Scanner}
    (hb : b = 0x3C ∨ b = 0x26) (h : (Scanner.between d names (b :: r)).next = (.ok e, s))
    (hx : e.piece = .ok x) : TakesWhole d names (b :: r) e s := by
  rcases hb with rfl | rfl
  · exact takesWhole_markup hx h
  · exact takesWhole_reference h

theorem next_ne_end {b : UInt8} {r : Octets} {e : Event} {s : Scanner} (hb : b = 0x3C ∨ b = 0x26)
    (h : (Scanner.between d names (b :: r)).next = (.ok e, s)) : e ≠ .endOfInput := by
  rintro rfl
  have h₁ := congrArg Prod.fst h
  rcases hb with rfl | rfl
  · exact absurd h₁ (Scanner.markup_ne_end _ r)
  · exact absurd h₁ (Scanner.reference_ne_end _ r)

theorem exists_cutAt_markup {b : UInt8} {r : Octets} (hb : b = 0x3C ∨ b = 0x26)
    (hts : ts <+: ((Scanner.between d names (b :: r)).tokens acc).1) (hend : EndsInTag ts)
    (ih : ∀ (acc' : Option (List Char)) (s : Scanner) (ts' : List Token),
      s.size < (Scanner.between d names (b :: r)).size →
      (s.place = .content ∨ ∃ name, s.place = .selfClosed name) → s.expandsEmpty = true →
      ts' <+: (s.tokens acc').1 → EndsInTag ts' →
      ∃ v, v <+: s.rest ∧ CutAt acc' s.place s.openNames v ts') :
    ∃ u, u <+: b :: r ∧ CutAt acc .content names u ts := by
  cases hn : (Scanner.between d names (b :: r)).next with
  | mk res s =>
    cases res with
    | error p =>
        rw [Scanner.tokens_problem hn] at hts
        exact absurd (List.prefix_nil.mp hts) hend.ne_nil
    | ok e =>
      cases hx : e.piece with
      | error p =>
          rw [Scanner.tokens_badPiece hn hx] at hts
          exact absurd (List.prefix_nil.mp hts) hend.ne_nil
      | ok x =>
          have he : e ≠ .endOfInput := next_ne_end hb hn
          have hto := takesWhole_of_next hb hn hx
          have hgoing : (s.place = .content ∨ ∃ name, s.place = .selfClosed name) ∧
              s.expandsEmpty = true := by
            obtain ⟨u, c, place, names', -, rfl, hplace, -⟩ := hto
            exact ⟨hplace, rfl⟩
          have hlt : s.size < (Scanner.between d names (b :: r)).size := by
            have := Scanner.next_size_lt (congrArg Prod.fst hn) he
            rwa [hn] at this
          refine exists_cutAt_whole hto hx he hts hend ?_
          intro acc' ts' hts' hend'
          exact ih acc' s ts' hlt hgoing.1 hgoing.2 hts' hend'

theorem exists_cutAt_selfClosed {name o : Octets}
    (hts : ts <+: ((Scanner.mk (.selfClosed name) o d names true).tokens acc).1)
    (hend : EndsInTag ts)
    (ih : ∀ us, us <+: ((Scanner.between d names o).tokens none).1 → EndsInTag us →
      ∃ v, v <+: o ∧ CutAt none .content names v us) :
    ∃ u, u <+: o ∧ CutAt acc (.selfClosed name) names u ts := by
  have hn : (Scanner.mk (.selfClosed name) o d names true).next
      = (.ok (.endTag name), Scanner.between d names o) := rfl
  cases hx : (Event.endTag name).piece with
  | error p =>
      rw [Scanner.tokens_badPiece hn hx] at hts
      exact absurd (List.prefix_nil.mp hts) hend.ne_nil
  | ok x =>
    cases x with
    | stop => cases Event.eq_endOfInput_of_stop hx
    | chars cs => cases Event.gives_of_piece hx
    | token t =>
        rw [Scanner.tokens_token hn hx, Stream.after_fst, List.append_assoc] at hts
        obtain ⟨us, rfl, hus, hnil | hend'⟩ := hend.split hts
        · subst hnil
          exact ⟨[], List.nil_prefix, cutAt_selfClosed hx cutAt_nil⟩
        · obtain ⟨v, hv, hcut⟩ := ih us hus hend'
          exact ⟨v, hv, cutAt_selfClosed hx hcut⟩

/-- Tokens up to an end tag are held by some of the octets ahead, and these
cannot be cut without loss.  The induction follows the events. -/
theorem exists_cutAt (n : Nat) (acc : Option (List Char)) (s : Scanner) (ts : List Token)
    (hsize : s.size = n) (hplace : s.place = .content ∨ ∃ name, s.place = .selfClosed name)
    (hexpands : s.expandsEmpty = true) (h : ts <+: (s.tokens acc).1) (hend : EndsInTag ts) :
    ∃ u, u <+: s.rest ∧ CutAt acc s.place s.openNames u ts := by
  induction n using Nat.strongRecOn generalizing acc s ts with
  | ind n ih =>
  obtain ⟨place, o, d, names, expands⟩ := s
  change expands = true at hexpands
  subst hexpands
  rcases hplace with hcontent | ⟨name, hself⟩
  · change place = .content at hcontent
    subst hcontent
    change ts <+: ((Scanner.between d names o).tokens acc).1 at h
    cases o with
    | nil =>
        cases d with
        | endOfInput =>
            rw [Scanner.tokens_stop rfl] at h
            exact absurd h hend.not_gathered
        | broken message =>
            rw [Scanner.tokens_problem rfl] at h
            exact absurd (List.prefix_nil.mp h) hend.ne_nil
    | cons b r =>
        have hnext (acc' : Option (List Char)) (s : Scanner) (ts' : List Token)
            (hlt : s.size < (Scanner.between d names (b :: r)).size) :
            (s.place = .content ∨ ∃ name, s.place = .selfClosed name) → s.expandsEmpty = true →
            ts' <+: (s.tokens acc').1 → EndsInTag ts' →
            ∃ v, v <+: s.rest ∧ CutAt acc' s.place s.openNames v ts' :=
          ih s.size (hsize ▸ hlt) acc' s ts' rfl
        cases hb : isPlainText b with
        | true =>
            refine exists_cutAt_text hb h hend ?_
            intro acc' c hc hts
            have hlt : (Scanner.between d names c).size
                < (Scanner.between d names (b :: r)).size := by
              simp only [Scanner.size, Scanner.between, List.length_cons]
              omega
            exact hnext acc' (Scanner.between d names c) ts hlt (.inl rfl) rfl hts hend
        | false =>
            have hb' : b = 0x3C ∨ b = 0x26 := by
              simpa [isPlainText, Decidable.or_iff_not_imp_left] using hb
            exact exists_cutAt_markup hb' h hend hnext
  · change place = .selfClosed name at hself
    subst hself
    refine exists_cutAt_selfClosed h hend ?_
    intro us hus hend'
    have hlt : (Scanner.between d names o).size < n := by
      rw [← hsize]
      simp only [Scanner.size, Scanner.between]
      omega
    exact ih _ hlt none (Scanner.between d names o) us rfl (.inl rfl) rfl hus hend'

/-! ## Sources -/

/-- The octets that are dropped at the beginning. -/
def mark : Octets := [0xEF, 0xBB, 0xBF]

theorem dropMark_mark (r : Octets) : Scanner.dropMark (mark ++ r) = r := rfl

theorem dropMark_of_not {o : Octets} (h : ¬ mark <+: o) : Scanner.dropMark o = o := by
  unfold Scanner.dropMark
  split
  · rename_i r
    exact absurd ⟨r, rfl⟩ h
  · rfl

/-- Part of the mark is part of a character, and no token comes of it. -/
theorem tokens_part_of_mark {w : Octets} (hw : w <+: mark) (hne : w ≠ []) (hne' : w ≠ mark)
    (d : Ending) : ∃ p, (Scanner.between d [] w).tokens none = ([], some p) ∧ Halts d (some p) := by
  have hplain : ∀ b ∈ w, isPlainText b = true := fun b hb =>
    List.all_eq_true.mp (show mark.all isPlainText = true from rfl) b (hw.subset hb)
  cases d with
  | broken message =>
      exact ⟨_, Scanner.tokens_problem (next_text_broken hne hplain [] message), rfl⟩
  | endOfInput =>
      have hbad : ∃ p, Utf8.decode w = .error p := by
        match w with
        | [] => exact absurd rfl hne
        | [a] =>
            obtain ⟨rfl, -⟩ := List.cons_prefix_cons.mp hw
            exact ⟨_, rfl⟩
        | [a, b] =>
            obtain ⟨rfl, hb⟩ := List.cons_prefix_cons.mp hw
            obtain ⟨rfl, -⟩ := List.cons_prefix_cons.mp hb
            exact ⟨_, rfl⟩
        | a :: b :: c :: v =>
            have hl : v = [] := by
              have := hw.length_le
              simp only [mark, List.length_cons, List.length_nil] at this
              exact List.eq_nil_of_length_eq_zero (by omega)
            subst hl
            exact absurd (hw.eq_of_length rfl) hne'
      obtain ⟨p, hp⟩ := hbad
      have hpiece : (Event.text w).piece = .error (.undecodable p) := by
        simp [Event.piece, decodeText, hp, Except.map]
      exact ⟨_, Scanner.tokens_badPiece (next_text_end hne hplain []) hpiece, rfl⟩

theorem cutShort_mark {w : Octets} (hw : w <+: mark) (hne : w ≠ []) (hne' : w ≠ mark)
    (hts : ts ≠ []) (d : Ending) : CutShort d ((Scanner.between d [] w).tokens none) ts := by
  obtain ⟨p, ht, hp⟩ := tokens_part_of_mark hw hne hne' d
  obtain ⟨t, ts, rfl⟩ := List.exists_cons_of_ne_nil hts
  rw [ht]
  exact ⟨.here, hp⟩

theorem tokens_source (o : Octets) (d : Ending) :
    (TokenReader.ofSource ⟨o, d⟩).tokens
      = (Scanner.between d [] (Scanner.dropMark o)).tokens none := by
  rw [tokens_ofSource_eq, Scanner.tokens_ofSource]

/-- Tokens of a source up to an end tag are held by some octets at its
beginning, and these cannot be cut without loss. -/
theorem exists_cut (s : Source) (h : ts <+: (TokenReader.ofSource s).tokens.1)
    (hend : EndsInTag ts) :
    ∃ u, u <+: s.octets ∧
      (∀ c d, ts <+: (TokenReader.ofSource ⟨u ++ c, d⟩).tokens.1) ∧
      ∀ w, w <+: u → w ≠ u → ∀ d, CutShort d (TokenReader.ofSource ⟨w, d⟩).tokens ts := by
  obtain ⟨o, d⟩ := s
  rw [tokens_source] at h
  simp only [tokens_source]
  by_cases hm : mark <+: o
  · obtain ⟨r, rfl⟩ := hm
    rw [dropMark_mark] at h
    obtain ⟨v, hv, hcut⟩ :=
      exists_cutAt _ none (Scanner.between d [] r) ts rfl (.inl rfl) rfl h hend
    refine ⟨mark ++ v, (List.prefix_append_right_inj mark).mpr hv, ?_, ?_⟩
    · intro c d
      rw [List.append_assoc, dropMark_mark]
      exact hcut.whole d c
    · intro w hw hne d
      rcases prefix_append_cases hw hne with ⟨hwm, hne'⟩ | ⟨x, rfl, hx, hne'⟩
      · have hnot : ¬ mark <+: w := fun hmw => hne' (hwm.eq_of_length_le hmw.length_le)
        rw [dropMark_of_not hnot]
        by_cases hnil : w = []
        · subst hnil
          exact cutShort_nil h hend.ne_nil d
        · exact cutShort_mark hwm hnil hne' hend.ne_nil d
      · rw [dropMark_mark]
        exact hcut.short x hx hne' d
  · rw [dropMark_of_not hm] at h
    obtain ⟨u, hu, hcut⟩ :=
      exists_cutAt _ none (Scanner.between d [] o) ts rfl (.inl rfl) rfl h hend
    refine ⟨u, hu, ?_, ?_⟩
    · intro c d
      have hnot : ¬ mark <+: u ++ c := by
        intro hmu
        -- then `u` is a part of the mark, which holds no token
        have hum : u <+: mark ∧ u ≠ mark := by
          rcases List.prefix_or_prefix_of_prefix hmu (List.prefix_append u c) with hmu | hum
          · exact absurd (hmu.trans hu) hm
          · refine ⟨hum, ?_⟩
            rintro rfl
            exact hm hu
        have hwhole := hcut.whole .endOfInput []
        rw [List.append_nil] at hwhole
        by_cases hnil : u = []
        · subst hnil
          change ts <+: ((Scanner.between .endOfInput [] []).tokens none).1 at hwhole
          rw [Scanner.tokens_stop rfl] at hwhole
          exact hend.ne_nil (List.prefix_nil.mp hwhole)
        · obtain ⟨p, ht, -⟩ := tokens_part_of_mark hum.1 hnil hum.2 .endOfInput
          change ts <+: ((Scanner.between .endOfInput [] u).tokens none).1 at hwhole
          rw [ht] at hwhole
          exact hend.ne_nil (List.prefix_nil.mp hwhole)
      rw [dropMark_of_not hnot]
      exact hcut.whole d c
    · intro w hw hne d
      have hnot : ¬ mark <+: w := fun hmw => hm (hmw.trans (hw.trans hu))
      rw [dropMark_of_not hnot]
      exact hcut.short w hw hne d

end Markup

end XmlRpc
