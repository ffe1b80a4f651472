/-
# Steps of a scanner

What one step does, for whatever octets are ahead.  A step gives an event or a
problem, and for either there is one account of it:

    an event     the open elements change as the event says, and the octets
                 it is made of are taken from those that were left
    a problem    the stream has failed if that is the problem, and the failure
                 is the one that the stream ends with

A scanner that expands empty elements goes on to do so, and gives no event for
one (`ne_emptyTag_of_next`).

`Steps` is the account, `steps_next` that every step of a scanner gives one.
An empty element counts as open between its two tags, and the second of them
has an octet of its own (`opened`, `room`).
-/
import XmlRpc.Proofs.Markup.Stream
import XmlRpc.Proofs.Text.Utf8

namespace XmlRpc

namespace Markup

/-! ## Accounts -/

/-- What an event does to the names of the open elements, the innermost
first. -/
def Event.Nests : Event → List Octets → List Octets → Prop
  | .startTag name, names, names' => names' = name :: names
  | .endTag name, names, names' => names = name :: names'
  | _, names, names' => names' = names

/-- How many octets an event is made of, at least. -/
def Event.cost : Event → Nat
  | .text o => max 1 o.length
  | .cdata o => o.length + 3
  | .reference o => o.length + 2
  | .endOfInput => 0
  | _ => 1

/-- Whether a scanner gives an event, according to whether it expands empty
elements. -/
def Event.Suits (expands : Bool) : Event → Prop
  | .emptyTag _ => expands = false
  | _ => True

/-- Whether a problem can come up in a source that ends so. -/
def Problem.Arises (d : Ending) : Problem → Prop
  | .stream message => d = .broken message
  | .unexpectedEmpty _ | .pushedBackTwice => False
  | _ => True

namespace Scanner

/-- The names of the open elements, the innermost first.  An empty element is
open until its end tag is scanned. -/
def opened (s : Scanner) : List Octets :=
  match s.place with
  | .selfClosed name => name :: s.openNames
  | _ => s.openNames

/-- How many octets are left, with one for the end tag of an empty element. -/
def room (s : Scanner) : Nat :=
  s.rest.length +
    match s.place with
    | .selfClosed _ => 1
    | _ => 0

/-- What an event does where those elements are open and so many octets are
left. -/
structure Advances (d : Ending) (names : List Octets) (expands : Bool) (n : Nat) (e : Event)
    (s' : Scanner) : Prop where
  ending : s'.ending = d
  nests : e.Nests names s'.opened
  spends : e.cost + s'.room ≤ n
  suits : e.Suits expands
  setting : s'.expandsEmpty = expands

def Steps (d : Ending) (names : List Octets) (expands : Bool) (n : Nat) : Scanned → Prop
  | (.ok e, s') => Advances d names expands n e s'
  | (.error p, _) => p.Arises d

/-! ## One account for every step -/

variable {s : Scanner} {n : Nat}

theorem steps_unfinished {p : Problem} (hp : ∀ d, p.Arises d) :
    Steps s.ending s.openNames s.expandsEmpty n (s.unfinished p) := by
  rw [unfinished]
  cases h : s.ending with
  | endOfInput => exact hp _
  | broken message => exact rfl

theorem steps_startTag {content after : Octets} (hn : content.length + after.length + 2 ≤ n) :
    Steps s.ending s.openNames s.expandsEmpty n (s.startTag content after) := by
  rw [startTag]
  split
  · rename_i hslash
    have hne : content ≠ [] := by
      rintro rfl
      cases hslash
    have hpos := List.length_pos_iff.mpr hne
    dsimp only
    split
    · refine ⟨rfl, rfl, ?_, trivial, rfl⟩
      show 1 + (after.length + 1) ≤ n
      omega
    · rename_i hexpands
      refine ⟨rfl, rfl, ?_, Bool.eq_false_iff.mpr hexpands, rfl⟩
      show 1 + after.length ≤ n
      omega
  · refine ⟨rfl, rfl, ?_, trivial, rfl⟩
    show 1 + after.length ≤ n
    omega

theorem steps_endTag {content after : Octets} (hn : after.length + 1 ≤ n) :
    Steps s.ending s.openNames s.expandsEmpty n (s.endTag content after) := by
  rw [endTag]
  cases hnames : s.openNames with
  | nil => trivial
  | cons opened names =>
      dsimp only
      split
      · rename_i hname
        refine ⟨rfl, ?_, ?_, trivial, rfl⟩
        · rw [hname]
          rfl
        · show 1 + after.length ≤ n
          omega
      · trivial

theorem steps_bang {r : Octets} (hn : r.length + 2 ≤ n) :
    Steps s.ending s.openNames s.expandsEmpty n (s.bang r) := by
  unfold bang
  cases r with
  | nil => exact steps_unfinished fun _ => trivial
  | cons b r =>
      dsimp only
      split
      · split
        · exact steps_unfinished fun _ => trivial
        · rename_i before after hcut
          have hlen := length_cut hcut
          split
          · rename_i hsection
            have hseven := (List.isPrefixOf_iff_prefix.mp hsection).length_le
            refine ⟨rfl, rfl, ?_, trivial, rfl⟩
            show (before.drop 7).length + 3 + after.length ≤ n
            rw [List.length_drop]
            simp only [List.length_cons, List.length_nil] at hlen hseven hn
            omega
          · trivial
      · split
        · split
          · exact steps_unfinished fun _ => trivial
          · rename_i before after hcut
            have hlen := length_cut hcut
            split
            · refine ⟨rfl, rfl, ?_, trivial, rfl⟩
              show 1 + after.length ≤ n
              rw [List.length_drop] at hlen
              omega
            · trivial
        · split
          · split
            · exact steps_unfinished fun _ => trivial
            · rename_i before after hcut
              have hlen := length_cutBalanced hcut
              split
              · split
                · trivial
                · refine ⟨rfl, rfl, ?_, trivial, rfl⟩
                  show 1 + after.length ≤ n
                  omega
              · trivial
          · trivial

theorem steps_markup {r : Octets} (hn : r.length + 1 ≤ n) :
    Steps s.ending s.openNames s.expandsEmpty n (s.markup r) := by
  unfold markup
  cases r with
  | nil => exact steps_unfinished fun _ => trivial
  | cons b r =>
      rw [List.length_cons] at hn
      dsimp only
      split
      · exact steps_bang hn
      · split
        · split
          · exact steps_unfinished fun _ => trivial
          · rename_i content after hcut
            have hlen := length_cutTag hcut
            exact steps_endTag (by omega)
        · split
          · split
            · exact steps_unfinished fun _ => trivial
            · rename_i before after hcut
              have hlen := length_cut hcut
              rw [List.length_cons] at hlen
              split
              · trivial
              · refine ⟨rfl, rfl, ?_, trivial, rfl⟩
                show 1 + after.length ≤ n
                omega
          · split
            · exact steps_unfinished fun _ => trivial
            · rename_i content after hcut
              have hlen := length_cutTag hcut
              rw [List.length_cons] at hlen
              exact steps_startTag (by omega)

theorem steps_reference {r : Octets} (hn : r.length + 1 ≤ n) :
    Steps s.ending s.openNames s.expandsEmpty n (s.reference r) := by
  rw [reference]
  split
  · exact steps_unfinished fun _ => trivial
  · rename_i b after hdrop
    split
    · have hsplit := congrArg List.length (List.takeWhile_append_dropWhile
        (p := fun b => b != 0x3B && b != 0x26 && b != 0x3C) (l := r))
      rw [hdrop, List.length_append, List.length_cons] at hsplit
      refine ⟨rfl, rfl, ?_, trivial, rfl⟩
      show _ + 2 + after.length ≤ n
      omega
    · trivial

theorem steps_text {b : UInt8} {r : Octets} (hn : r.length + 1 ≤ n) :
    Steps s.ending s.openNames s.expandsEmpty n (s.text b r) := by
  have hsplit := congrArg List.length (List.takeWhile_append_dropWhile
    (p := fun b => b != 0x3C && b != 0x26) (l := r))
  rw [List.length_append] at hsplit
  have hcost : ∀ rest : Octets, rest.length
      ≤ (r.dropWhile fun b => b != 0x3C && b != 0x26).length →
      (Event.text (b :: r.takeWhile fun b => b != 0x3C && b != 0x26)).cost + rest.length ≤ n := by
    intro rest hrest
    simp only [Event.cost, List.length_cons]
    omega
  rw [text]
  split
  · cases hd : s.ending with
    | endOfInput => exact ⟨hd, rfl, hcost [] (Nat.zero_le _), trivial, rfl⟩
    | broken message => exact rfl
  · exact ⟨rfl, rfl, hcost _ (Nat.le_refl _), trivial, rfl⟩

theorem steps_content {o : Octets} (hn : o.length ≤ n) :
    Steps s.ending s.openNames s.expandsEmpty n (s.content o) := by
  unfold content
  cases o with
  | nil =>
      cases hd : s.ending with
      | endOfInput => exact ⟨hd, rfl, Nat.zero_le _, trivial, rfl⟩
      | broken message => exact rfl
  | cons b r =>
      rw [List.length_cons] at hn
      dsimp only
      split
      · exact steps_markup hn
      · split
        · exact steps_reference hn
        · exact steps_text hn

theorem steps_next (s : Scanner) : Steps s.ending s.opened s.expandsEmpty s.room s.next := by
  obtain ⟨place, o, d, names, expands⟩ := s
  cases place with
  | content => exact steps_content (s := ⟨.content, o, d, names, expands⟩) (Nat.le_refl _)
  | selfClosed name =>
      refine ⟨rfl, rfl, ?_, trivial, rfl⟩
      show 1 + o.length ≤ o.length + 1
      omega
  | finished =>
      refine ⟨rfl, rfl, ?_, trivial, rfl⟩
      show 0 + o.length ≤ o.length
      omega
  | start =>
      rw [next]
      dsimp only
      split
      · exact rfl
      · exact steps_content (s := ⟨.start, o, d, names, expands⟩) (length_dropMark o)

theorem advances_of_next {e : Event} {s' : Scanner} (h : s.next = (.ok e, s')) :
    Advances s.ending s.opened s.expandsEmpty s.room e s' := by
  have hsteps := s.steps_next
  rw [h] at hsteps
  exact hsteps

/-- A scanner that expands empty elements gives no event for one. -/
theorem ne_emptyTag_of_next (hexpands : s.expandsEmpty = true) {e : Event} {s' : Scanner}
    (h : s.next = (.ok e, s')) (name : Octets) : e ≠ .emptyTag name := by
  rintro rfl
  cases hexpands.symm.trans (advances_of_next h).suits

theorem arises_of_next {p : Problem} {s' : Scanner} (h : s.next = (.error p, s')) :
    p.Arises s.ending := by
  have hsteps := s.steps_next
  rw [h] at hsteps
  exact hsteps

end Scanner

/-! ## Pieces -/

theorem decodeText_eq_ok {o : Octets} {cs : List Char} (h : decodeText o = .ok cs) :
    Utf8.Spelled o cs := by
  rw [decodeText] at h
  split at h
  · rename_i hdecode
    cases h
    exact Utf8.spelled_of_decodeFrom hdecode
  · cases h

theorem resolve_eq_ok {o : Octets} {cs : List Char} (h : resolve o = .ok cs) :
    ∃ name c, decodeText o = .ok name ∧ Reference.resolve? name = some c ∧ cs = [c] := by
  unfold resolve at h
  cases hname : decodeText o with
  | error p => rw [hname] at h; cases h
  | ok name =>
      rw [hname] at h
      dsimp only [bind, Except.bind] at h
      cases hchar : Reference.resolve? name with
      | none => rw [hchar] at h; cases h
      | some c =>
          rw [hchar] at h
          cases h
          exact ⟨name, c, rfl, hchar, rfl⟩

/-- A name has two characters at least, and a number its sign and a digit. -/
theorem two_le_length_of_resolve? {name : List Char} {c : Char}
    (h : Reference.resolve? name = some c) : 2 ≤ name.length := by
  match name with
  | [] => cases h
  | [d] =>
      unfold Reference.resolve? at h
      split at h
      · rename_i hname
        cases hname
      · rename_i hname
        cases hname
        cases h
      · unfold Reference.ofName? at h
        split at h <;> simp_all
  | _ :: _ :: name => exact Nat.le_add_left 2 name.length

/-- How many octets a piece takes, at least: as many as its characters have in
UTF-8, and one for a text of nothing and for a token. -/
def Piece.cost : Piece → Nat
  | .chars cs => max 1 (Utf8.encode cs).length
  | .token _ => 1
  | .stop => 0

theorem Event.cost_piece {e : Event} {x : Piece} (h : e.piece = .ok x) : x.cost ≤ e.cost := by
  cases gives_of_piece h with
  | text hcs | cdata hcs =>
      simp only [Piece.cost, cost, (decodeText_eq_ok hcs).eq_encode]
      omega
  | reference hcs =>
      obtain ⟨name, c, hname, hc, rfl⟩ := resolve_eq_ok hcs
      -- the name and the two octets around it are four, as many as a character has at most
      have hlong := two_le_length_of_resolve? hc
      have hspelled := congrArg List.length (decodeText_eq_ok hname).eq_encode
      have hchars := Utf8.length_le_length_encode name
      have hfour := Utf8.length_utf8EncodeChar_le c
      simp only [Piece.cost, cost, Utf8.encode_cons, Utf8.encode_nil, List.append_nil]
      omega
  | startTag | endTag | instruction | endOfInput => exact Nat.le_refl _

theorem arises_of_decodeText {o : Octets} {p : Problem} (h : decodeText o = .error p)
    (d : Ending) : p.Arises d := by
  rw [decodeText] at h
  split at h
  · cases h
  · cases h
    trivial

theorem arises_of_resolve {o : Octets} {p : Problem} (h : resolve o = .error p) (d : Ending) :
    p.Arises d := by
  unfold resolve at h
  cases hname : decodeText o with
  | error q =>
      rw [hname] at h
      cases h
      exact arises_of_decodeText hname d
  | ok name =>
      rw [hname] at h
      dsimp only [bind, Except.bind] at h
      split at h
      · cases h
      · cases h
        trivial

theorem arises_of_decodeName {o : Octets} {p : Problem} (h : decodeName o = .error p)
    (d : Ending) : p.Arises d := by
  rw [decodeName] at h
  split at h
  · cases h
  · cases h
    trivial

/-- What an event fails to be read for has nothing to do with the stream. -/
theorem Event.arises_of_piece {e : Event} {p : Problem} (hne : ∀ name, e ≠ .emptyTag name)
    (h : e.piece = .error p) (d : Ending) : p.Arises d := by
  have hmap {α : Type} {x : Except Problem α} {f : α → Piece} (h : x.map f = .error p) :
      x = .error p := by
    cases x with
    | ok a => cases h
    | error q =>
        cases h
        rfl
  cases e with
  | text o => exact arises_of_decodeText (hmap h) d
  | cdata o => exact arises_of_decodeText (hmap h) d
  | reference o => exact arises_of_resolve (hmap h) d
  | startTag o => exact arises_of_decodeName (hmap h) d
  | endTag o => exact arises_of_decodeName (hmap h) d
  | emptyTag o => exact absurd rfl (hne o)
  | comment | doctype =>
      cases h
      trivial
  | instruction | endOfInput => cases h

theorem Event.piece_ne_pushedBackTwice (e : Event) : e.piece ≠ .error .pushedBackTwice := by
  intro h
  cases e with
  | emptyTag o => cases h
  | _ =>
      refine arises_of_piece ?_ h .endOfInput
      exact nofun

/-! ## Tokens -/

def Token.cost : Token → Nat
  | .text s => max 1 (Utf8.encodeString s).length
  | _ => 1

def cost : List Token → Nat
  | [] => 0
  | t :: ts => t.cost + cost ts

@[simp] theorem cost_nil : cost [] = 0 := rfl

@[simp] theorem cost_cons (t : Token) (ts : List Token) : cost (t :: ts) = t.cost + cost ts := rfl

@[simp] theorem cost_append (ts us : List Token) : cost (ts ++ us) = cost ts + cost us := by
  induction ts with
  | nil => exact (Nat.zero_add _).symm
  | cons t ts ih =>
      rw [List.cons_append, cost_cons, cost_cons, ih, Nat.add_assoc]

theorem cost_gathered_append (acc : Option (List Char)) (cs : List Char) :
    cost (gathered (some (acc.getD [] ++ cs))) ≤ cost (gathered acc) + (Piece.chars cs).cost := by
  cases acc with
  | none =>
      simp only [gathered, Option.getD_none, List.nil_append, cost_cons, cost_nil, Token.cost,
        Utf8.encodeString, String.toList_ofList, Piece.cost]
      omega
  | some a =>
      simp only [gathered, Option.getD_some, cost_cons, cost_nil, Token.cost, Utf8.encodeString,
        String.toList_ofList, Piece.cost, Utf8.encode_append, List.length_append]
      omega

theorem cost_token {e : Event} {t : Token} (h : e.piece = .ok (.token t)) : t.cost = 1 := by
  cases t with
  | text s => exact absurd rfl (Event.not_text_of_token h s)
  | _ => rfl

theorem Scanner.cost_tokens_le (acc : Option (List Char)) (s : Scanner) :
    cost (s.tokens acc).1 ≤ cost (gathered acc) + s.room := by
  refine tokens_induction (motive := fun acc s st => cost st.1 ≤ cost (gathered acc) + s.room)
    ?_ ?_ ?_ ?_ ?_ acc s
  · intro _ _ _ _ _
    exact Nat.zero_le _
  · intro _ _ _ _ _ _ _
    exact Nat.zero_le _
  · intro acc s e cs s' h he ih
    have hspends := (advances_of_next h).spends
    have hpiece := Event.cost_piece he
    have hjoined := cost_gathered_append acc cs
    omega
  · intro acc s e t s' h he ih
    have hspends := (advances_of_next h).spends
    have hpiece := Event.cost_piece he
    have hone := cost_token he
    simp only [Stream.after_fst, cost_append, cost_cons, cost_nil, gathered, Piece.cost] at *
    omega
  · intro acc s s' _
    exact Nat.le_add_right _ _

theorem cost_tokens_ofSource (s : Source) :
    cost (TokenReader.ofSource s).tokens.1 ≤ s.octets.length := by
  rw [tokens_ofSource_eq]
  exact Nat.le_trans (Scanner.cost_tokens_le none _) (Nat.le_of_eq (Nat.zero_add _))

/-- What stops the tokens has to do with the ending of the source only if the stream has failed,
and then it is that failure. -/
theorem Scanner.arises_of_tokens (acc : Option (List Char)) (s : Scanner) :
    s.expandsEmpty = true → ∀ p, (s.tokens acc).2 = some p → p.Arises s.ending := by
  refine tokens_induction
    (motive := fun _ s st => s.expandsEmpty = true → ∀ p, st.2 = some p → p.Arises s.ending)
    ?_ ?_ ?_ ?_ ?_ acc s
  · intro acc s p s' h _ q hq
    cases hq
    exact arises_of_next h
  · intro acc s e p s' h he hs q hq
    cases hq
    exact Event.arises_of_piece (ne_emptyTag_of_next hs h) he _
  · intro acc s e cs s' h he ih hs
    have hstep := advances_of_next h
    rw [← hstep.ending]
    exact ih (hstep.setting.trans hs)
  · intro acc s e t s' h he ih hs
    have hstep := advances_of_next h
    rw [← hstep.ending]
    exact ih (hstep.setting.trans hs)
  · intro acc s s' _ _ p hp
    cases hp

theorem arises_of_tokens_ofSource {s : Source} {p : Problem}
    (h : (TokenReader.ofSource s).tokens.2 = some p) : p.Arises s.ending := by
  rw [tokens_ofSource_eq] at h
  exact Scanner.arises_of_tokens none (Scanner.ofSource s) rfl p h

end Markup

end XmlRpc
