/-
# The tokens of a source, event by event

What a token reader delivers is a list of tokens and what stops it: the end
of the input or a problem.  Here that list is computed from the events alone,
without the slots for pending tokens and tokens pushed back:

    event              tokens
    characters         join the text gathered so far
    a tag, a header    the gathered text, the token, and what follows
    the end            the gathered text, and no more
    a problem          no more, and the gathered text is lost

The cursor of a token reader moves along this list: `read` takes its head,
`unread` puts a token in front (`read_of_tokens_cons`, `tokens_unread`).
-/
import XmlRpc.Proofs.Markup.Scratch

namespace XmlRpc

namespace Markup

/-- Tokens, and the problem that stops them if it is not the end. -/
abbrev Stream := List Token × Option Problem

def Stream.after (ts : List Token) (st : Stream) : Stream := (ts ++ st.1, st.2)

@[simp] theorem Stream.after_nil (st : Stream) : st.after [] = st := rfl

@[simp] theorem Stream.after_fst (ts : List Token) (st : Stream) :
    (st.after ts).1 = ts ++ st.1 := rfl

@[simp] theorem Stream.after_snd (ts : List Token) (st : Stream) :
    (st.after ts).2 = st.2 := rfl

theorem Stream.after_after (ts us : List Token) (st : Stream) :
    (st.after us).after ts = st.after (ts ++ us) := by
  simp [Stream.after]

/-! ## The cursor -/

namespace TokenReader

theorem tokens_of_read_some {r r' : TokenReader} {t : Token} (h : r.read = (.ok (some t), r')) :
    r.tokens = Stream.after [t] r'.tokens := by
  rw [tokens]
  split <;> rename_i h' <;> rw [h] at h' <;> cases h'
  rfl

theorem tokens_of_read_none {r r' : TokenReader} (h : r.read = (.ok none, r')) :
    r.tokens = ([], none) := by
  rw [tokens]
  split <;> rename_i h' <;> rw [h] at h' <;> cases h'

theorem tokens_of_read_error {r r' : TokenReader} {p : Problem} (h : r.read = (.error p, r')) :
    r.tokens = ([], some p) := by
  rw [tokens]
  split <;> rename_i h' <;> rw [h] at h' <;> cases h'
  rfl

theorem read_pushedBack (r : TokenReader) : r.read.2.pushedBack = none := by
  unfold read
  split <;> rfl

theorem read_of_tokens_cons {r : TokenReader} {t : Token} {ts : List Token}
    {stop : Option Problem} (h : r.tokens = (t :: ts, stop)) :
    ∃ r', r.read = (.ok (some t), r') ∧ r'.tokens = (ts, stop) ∧ r'.pushedBack = none := by
  have hp := r.read_pushedBack
  match hr : r.read with
  | (.error p, r') => rw [tokens_of_read_error hr] at h; cases h
  | (.ok none, r') => rw [tokens_of_read_none hr] at h; cases h
  | (.ok (some u), r') =>
      rw [tokens_of_read_some hr] at h
      rw [hr] at hp
      cases h
      exact ⟨r', rfl, rfl, hp⟩

theorem read_of_tokens_problem {r : TokenReader} {p : Problem} (h : r.tokens = ([], some p)) :
    ∃ r', r.read = (.error p, r') := by
  match hr : r.read with
  | (.error q, r') => rw [tokens_of_read_error hr] at h; cases h; exact ⟨r', rfl⟩
  | (.ok none, r') => rw [tokens_of_read_none hr] at h; cases h
  | (.ok (some u), r') => rw [tokens_of_read_some hr] at h; cases h

theorem tokens_of_pushedBack {r : TokenReader} {t : Token} (h : r.pushedBack = some t) :
    r.tokens = Stream.after [t] (TokenReader.mk r.lexer none).tokens :=
  tokens_of_read_some (by simp only [read, h])

theorem tokens_unread {r : TokenReader} (h : r.pushedBack = none) (t : Token) :
    ∃ r', r.unread t = .ok r' ∧ r'.tokens = Stream.after [t] r.tokens := by
  refine ⟨{ r with pushedBack := some t }, by simp only [unread, h], ?_⟩
  rw [tokens_of_pushedBack rfl]
  obtain ⟨l, p⟩ := r
  cases h
  rfl

theorem Alike.tokens {r q : TokenReader} (h : r.Alike q) : r.tokens = q.tokens := by
  match hr : r.read with
  | (.error p, r') =>
      obtain ⟨q', hq, -⟩ := h.read_eq hr
      rw [tokens_of_read_error hr, tokens_of_read_error hq]
  | (.ok none, r') =>
      obtain ⟨q', hq, -⟩ := h.read_eq hr
      rw [tokens_of_read_none hr, tokens_of_read_none hq]
  | (.ok (some t), r') =>
      have hlt : r'.size < r.size := by
        have := read_size_lt (congrArg Prod.fst hr)
        rwa [hr] at this
      obtain ⟨q', hq, halike⟩ := h.read_eq hr
      rw [tokens_of_read_some hr, tokens_of_read_some hq, halike.tokens]
termination_by r.size

end TokenReader

/-! ## From events -/

/-- What events add to the tokens.  Empty elements, comments and document types are
not among them. -/
inductive Event.Gives : Event → Piece → Prop
  | text {o : Octets} {cs : List Char} : decodeText o = .ok cs → Gives (.text o) (.chars cs)
  | cdata {o : Octets} {cs : List Char} : decodeText o = .ok cs → Gives (.cdata o) (.chars cs)
  | reference {o : Octets} {cs : List Char} : resolve o = .ok cs → Gives (.reference o) (.chars cs)
  | startTag {o : Octets} {name : String} : decodeName o = .ok name →
      Gives (.startTag o) (.token (.startTag name))
  | endTag {o : Octets} {name : String} : decodeName o = .ok name →
      Gives (.endTag o) (.token (.endTag name))
  | instruction : Gives .instruction (.token .declaration)
  | endOfInput : Gives .endOfInput .stop

theorem Event.gives_of_piece {e : Event} {x : Piece} (h : e.piece = .ok x) : e.Gives x := by
  have hmap {α : Type} {y : Except Problem α} {f : α → Piece} (h : y.map f = .ok x) :
      ∃ a, y = .ok a ∧ x = f a := by
    cases y with
    | error p => cases h
    | ok a =>
        cases h
        exact ⟨a, rfl, rfl⟩
  cases e with
  | text o =>
      obtain ⟨cs, hcs, rfl⟩ := hmap h
      exact .text hcs
  | cdata o =>
      obtain ⟨cs, hcs, rfl⟩ := hmap h
      exact .cdata hcs
  | reference o =>
      obtain ⟨cs, hcs, rfl⟩ := hmap h
      exact .reference hcs
  | startTag o =>
      obtain ⟨name, hname, rfl⟩ := hmap h
      exact .startTag hname
  | endTag o =>
      obtain ⟨name, hname, rfl⟩ := hmap h
      exact .endTag hname
  | instruction =>
      cases h
      exact .instruction
  | endOfInput =>
      cases h
      exact .endOfInput
  | emptyTag | comment | doctype => cases h

theorem Event.eq_endOfInput_of_stop {e : Event} (h : e.piece = .ok .stop) : e = .endOfInput := by
  cases gives_of_piece h
  rfl

theorem Event.not_text_of_token {e : Event} {t : Token} (h : e.piece = .ok (.token t))
    (s : String) : t ≠ .text s := by
  rintro rfl
  cases gives_of_piece h

/-- The token of the text gathered so far, if a text has begun. -/
def gathered : Option (List Char) → List Token
  | none => []
  | some cs => [.text (String.ofList cs)]

/-- What a lexer delivers from now on. -/
def Lexer.tokens (l : Lexer) : Stream := (TokenReader.mk l none).tokens

/-- What is delivered from a scanner on, with the text gathered before it. -/
def Scanner.tokens (acc : Option (List Char)) (s : Scanner) : Stream :=
  match Lexer.gather acc s (.new 0) with
  | (.error p, _) => ([], some p)
  | (.ok none, _) => ([], none)
  | (.ok (some t), l) => Stream.after [t] l.tokens

theorem Lexer.tokens_pending (s : Scanner) (t : Token) (b : Buffer) :
    Lexer.tokens ⟨s, some t, b⟩ = Stream.after [t] (Lexer.tokens ⟨s, none, b⟩) :=
  TokenReader.tokens_of_read_some rfl

theorem Lexer.tokens_scanner (s : Scanner) (b : Buffer) :
    Lexer.tokens ⟨s, none, b⟩ = s.tokens none := by
  have halike : (TokenReader.mk ⟨s, none, b⟩ none).Alike ⟨⟨s, none, .new 0⟩, none⟩ :=
    ⟨⟨rfl, rfl⟩, rfl⟩
  have hr : (TokenReader.mk ⟨s, none, .new 0⟩ none).read
      = ((gather none s (.new 0)).1, ⟨(gather none s (.new 0)).2, none⟩) := rfl
  refine halike.tokens.trans ?_
  unfold Scanner.tokens
  split <;> rename_i h <;> rw [h] at hr
  · exact TokenReader.tokens_of_read_error hr
  · exact TokenReader.tokens_of_read_none hr
  · exact TokenReader.tokens_of_read_some hr

theorem tokens_ofSource_eq (s : Source) :
    (TokenReader.ofSource s).tokens = (Scanner.ofSource s).tokens none :=
  Lexer.tokens_scanner _ _

namespace Scanner

@[simp] theorem unfinished_ne_end (s : Scanner) (p : Problem) :
    (s.unfinished p).1 ≠ .ok .endOfInput := by
  unfold unfinished
  split <;> simp

/-- Whether a step can come of markup: it is no text, no reference and not the end,
and no problem of what a reference stands for. -/
def OfMarkup : Except Problem Event → Bool
  | .ok (.text _) | .ok (.reference _) | .ok .endOfInput => false
  | .error (.unknownReference _) => false
  | _ => true

theorem ofMarkup_unfinished (s : Scanner) {p : Problem} (hp : OfMarkup (.error p) = true) :
    OfMarkup (s.unfinished p).1 = true := by
  unfold unfinished
  split
  · exact hp
  · rfl

theorem ofMarkup_startTag (s : Scanner) (content after : Octets) :
    OfMarkup (s.startTag content after).1 = true := by
  unfold startTag
  split
  · dsimp only
    split <;> rfl
  · rfl

theorem ofMarkup_endTag (s : Scanner) (content after : Octets) :
    OfMarkup (s.endTag content after).1 = true := by
  unfold endTag
  split
  · rfl
  · dsimp only
    split <;> rfl

theorem ofMarkup_bang (s : Scanner) (r : Octets) : OfMarkup (s.bang r).1 = true := by
  unfold bang
  split
  · exact ofMarkup_unfinished s rfl
  · split
    · split
      · exact ofMarkup_unfinished s rfl
      · split <;> rfl
    · split
      · split
        · exact ofMarkup_unfinished s rfl
        · split <;> rfl
      · split
        · split
          · exact ofMarkup_unfinished s rfl
          · dsimp only
            split
            · split <;> rfl
            · rfl
        · rfl

theorem ofMarkup_markup (s : Scanner) (r : Octets) : OfMarkup (s.markup r).1 = true := by
  unfold markup
  split
  · exact ofMarkup_unfinished s rfl
  · split
    · exact ofMarkup_bang s _
    · split
      · split
        · exact ofMarkup_unfinished s rfl
        · exact ofMarkup_endTag s _ _
      · split
        · split
          · exact ofMarkup_unfinished s rfl
          · split <;> rfl
        · split
          · exact ofMarkup_unfinished s rfl
          · exact ofMarkup_startTag s _ _

theorem markup_ne_end (s : Scanner) (r : Octets) : (s.markup r).1 ≠ .ok .endOfInput := by
  intro h
  have hmarkup := ofMarkup_markup s r
  rw [h] at hmarkup
  cases hmarkup

@[simp] theorem reference_ne_end (s : Scanner) (r : Octets) :
    (s.reference r).1 ≠ .ok .endOfInput := by
  unfold reference
  split
  · simp
  · split <;> simp

@[simp] theorem text_ne_end (s : Scanner) (b : UInt8) (r : Octets) :
    (s.text b r).1 ≠ .ok .endOfInput := by
  unfold text
  dsimp only
  split
  · split <;> simp
  · simp

theorem content_of_end {s s' : Scanner} {o : Octets} (h : s.content o = (.ok .endOfInput, s')) :
    s' = s.finish := by
  have h₁ : (s.content o).1 = .ok .endOfInput := congrArg Prod.fst h
  cases o with
  | nil =>
      unfold content at h
      cases he : s.ending <;> simp only [he] at h <;> cases h
      rfl
  | cons b r =>
      unfold content at h₁
      dsimp only at h₁
      split at h₁
      · exact absurd h₁ (markup_ne_end s r)
      · split at h₁
        · exact absurd h₁ (reference_ne_end s r)
        · exact absurd h₁ (text_ne_end s b r)

theorem next_of_end {s s' : Scanner} (h : s.next = (.ok .endOfInput, s')) :
    s'.next = (.ok .endOfInput, s') := by
  have hf (t : Scanner) : t.finish.next = (.ok .endOfInput, t.finish) := rfl
  cases hp : s.place with
  | finished =>
      have : s' = s := by
        simp only [next, hp, Prod.mk.injEq] at h
        exact h.2.symm
      exact this ▸ h
  | selfClosed name =>
      simp only [next, hp] at h
      cases h
  | content =>
      simp only [next, hp] at h
      rw [content_of_end h]
      exact hf s
  | start =>
      simp only [next, hp] at h
      split at h
      · cases h
      · rw [content_of_end h]
        exact hf s

variable {s s' : Scanner} {e : Event} {acc : Option (List Char)}

theorem tokens_problem {p : Problem} (h : s.next = (.error p, s')) :
    s.tokens acc = ([], some p) := by
  obtain ⟨b, hg⟩ := Lexer.gather_problem acc h (.new 0)
  rw [tokens, hg]

theorem tokens_badPiece {p : Problem} (h : s.next = (.ok e, s')) (he : e.piece = .error p) :
    s.tokens acc = ([], some p) := by
  obtain ⟨b, hg⟩ := Lexer.gather_badPiece acc h he (.new 0)
  rw [tokens, hg]

/-- What is gathered with another buffer is what is delivered, too. -/
theorem tokens_gather (acc : Option (List Char)) (s : Scanner) (b : Buffer) :
    s.tokens acc = match Lexer.gather acc s b with
      | (.error p, _) => ([], some p)
      | (.ok none, _) => ([], none)
      | (.ok (some t), l) => Stream.after [t] l.tokens := by
  obtain ⟨hdelivery, halike⟩ := Lexer.gather_alike acc s (.new 0) b
  rw [tokens]
  match hl : Lexer.gather acc s (.new 0), hm : Lexer.gather acc s b with
  | (d, l), (c, m) =>
      rw [hl, hm] at hdelivery halike
      cases hdelivery
      match d with
      | .error p => rfl
      | .ok none => rfl
      | .ok (some t) =>
          have htokens : l.tokens = m.tokens :=
            TokenReader.Alike.tokens (r := ⟨l, none⟩) (q := ⟨m, none⟩) ⟨halike, rfl⟩
          exact congrArg (Stream.after [t]) htokens

theorem tokens_chars {cs : List Char} (h : s.next = (.ok e, s')) (he : e.piece = .ok (.chars cs)) :
    s.tokens acc = s'.tokens (some (acc.getD [] ++ cs)) := by
  obtain ⟨b, hg⟩ := Lexer.gather_chars acc cs h he (.new 0)
  rw [tokens, hg, tokens_gather _ s' b]

theorem tokens_token {t : Token} (h : s.next = (.ok e, s')) (he : e.piece = .ok (.token t)) :
    s.tokens acc = Stream.after (gathered acc ++ [t]) (s'.tokens none) := by
  cases acc with
  | none =>
      obtain ⟨b, hg⟩ := Lexer.gather_token_none h he (.new 0)
      rw [tokens, hg]
      exact congrArg (Stream.after [t]) (Lexer.tokens_scanner s' b)
  | some cs =>
      obtain ⟨b, hg⟩ := Lexer.gather_token_some cs h he (.new 0)
      rw [tokens, hg]
      show Stream.after _ (Lexer.tokens ⟨s', some t, b⟩) = _
      rw [Lexer.tokens_pending, Lexer.tokens_scanner, Stream.after_after]
      rfl

theorem tokens_stop (h : s.next = (.ok .endOfInput, s')) :
    s.tokens acc = (gathered acc, none) := by
  have hnone {s s' : Scanner} (h : s.next = (.ok .endOfInput, s')) :
      s.tokens none = ([], none) := by
    obtain ⟨b, hg⟩ := Lexer.gather_stop none h rfl (.new 0)
    rw [tokens, hg]
    rfl
  cases acc with
  | none => exact hnone h
  | some cs =>
      obtain ⟨b, hg⟩ := Lexer.gather_stop (some cs) h rfl (.new 0)
      rw [tokens, hg]
      show Stream.after _ (Lexer.tokens ⟨s', none, b⟩) = _
      rw [Lexer.tokens_scanner, hnone (next_of_end h)]
      rfl

/-- What is delivered, by induction on the events that are left: what stops
the tokens, what joins the text gathered so far, and what ends it. -/
@[elab_as_elim]
theorem tokens_induction {motive : Option (List Char) → Scanner → Stream → Prop}
    (problem : ∀ {acc s p s'}, s.next = (.error p, s') → motive acc s ([], some p))
    (badPiece : ∀ {acc s e p s'}, s.next = (.ok e, s') → e.piece = .error p →
      motive acc s ([], some p))
    (chars : ∀ {acc s e cs s'}, s.next = (.ok e, s') → e.piece = .ok (.chars cs) →
      motive (some (acc.getD [] ++ cs)) s' (s'.tokens (some (acc.getD [] ++ cs))) →
      motive acc s (s'.tokens (some (acc.getD [] ++ cs))))
    (token : ∀ {acc s e t s'}, s.next = (.ok e, s') → e.piece = .ok (.token t) →
      motive none s' (s'.tokens none) →
      motive acc s (Stream.after (gathered acc ++ [t]) (s'.tokens none)))
    (stop : ∀ {acc s s'}, s.next = (.ok .endOfInput, s') → motive acc s (gathered acc, none))
    (acc : Option (List Char)) (s : Scanner) : motive acc s (s.tokens acc) := by
  match h : s.next with
  | (.error p, s') =>
      rw [tokens_problem h]
      exact problem h
  | (.ok e, s') =>
    match he : e.piece with
    | .error p =>
        rw [tokens_badPiece h he]
        exact badPiece h he
    | .ok (.chars cs) =>
        have hlt : s'.size < s.size := by
          have := s.next_size_lt (congrArg Prod.fst h) (Event.ne_endOfInput_of_chars he)
          rwa [h] at this
        rw [tokens_chars h he]
        exact chars h he (tokens_induction problem badPiece chars token stop _ s')
    | .ok (.token t) =>
        have hlt : s'.size < s.size := by
          have := s.next_size_lt (congrArg Prod.fst h) (Event.ne_endOfInput_of_token he)
          rwa [h] at this
        rw [tokens_token h he]
        exact token h he (tokens_induction problem badPiece chars token stop none s')
    | .ok .stop =>
        cases Event.eq_endOfInput_of_stop he
        rw [tokens_stop h]
        exact stop h
termination_by s.size

/-! ## Between events -/

def between (d : Ending) (names : List Octets) (o : Octets) : Scanner :=
  ⟨.content, o, d, names, true⟩

@[simp] theorem between_next (d : Ending) (names : List Octets) (o : Octets) :
    (between d names o).next = (between d names o).content o := rfl

/-- What is delivered depends on a scanner's next step alone. -/
theorem tokens_congr {s t : Scanner} (h : s.next = t.next) (acc : Option (List Char)) :
    s.tokens acc = t.tokens acc := by
  match ht : t.next with
  | (.error p, t') => rw [tokens_problem (h.trans ht), tokens_problem ht]
  | (.ok e, t') =>
    match he : e.piece with
    | .error p => rw [tokens_badPiece (h.trans ht) he, tokens_badPiece ht he]
    | .ok (.chars cs) => rw [tokens_chars (h.trans ht) he, tokens_chars ht he]
    | .ok (.token k) => rw [tokens_token (h.trans ht) he, tokens_token ht he]
    | .ok .stop =>
        cases Event.eq_endOfInput_of_stop he
        rw [tokens_stop (h.trans ht), tokens_stop ht]

/-- The beginning of a source is no different from a place between events,
once the byte order mark is off. -/
theorem tokens_ofSource (s : Source) :
    (ofSource s).tokens none = (between s.ending [] (dropMark s.octets)).tokens none := by
  obtain ⟨o, d⟩ := s
  by_cases h : o = [] ∧ ∃ m, d = .broken m
  · obtain ⟨rfl, m, rfl⟩ := h
    rw [tokens_problem (s := ofSource ⟨[], .broken m⟩) rfl, tokens_problem rfl]
  · refine tokens_congr ?_ none
    cases o with
    | cons b r => rfl
    | nil =>
        cases d with
        | endOfInput => rfl
        | broken m => exact absurd ⟨rfl, m, rfl⟩ h

end Scanner

/-! ## After the last token -/

theorem Lexer.gather_none {acc : Option (List Char)} {s : Scanner} {b : Buffer} {l : Lexer}
    (h : Lexer.gather acc s b = (.ok none, l)) :
    l.pending = none ∧ l.scanner.next = (.ok .endOfInput, l.scanner) := by
  fun_induction Lexer.gather acc s b with
  | case3 acc s b e s' b' hn cs hp hlt ih => exact ih h
  | case6 s b e s' b' hn hp =>
      cases h
      cases Event.eq_endOfInput_of_stop hp
      have hn := (s.nextInto_clear b).symm.trans (congrArg Prod.fst hn)
      exact ⟨rfl, Scanner.next_of_end hn⟩
  | _ => cases h

theorem TokenReader.tokens_of_end {r r' : TokenReader} (h : r.read = (.ok none, r')) :
    r'.tokens = ([], none) := by
  obtain ⟨⟨c, pending, b⟩, pushedBack⟩ := r
  cases pushedBack with
  | some t => cases h
  | none =>
    cases pending with
    | some t => cases h
    | none =>
      match hg : Lexer.gather none c b with
      | (d, l) =>
          have hr : (TokenReader.mk ⟨c, none, b⟩ none).read = (d, ⟨l, none⟩) := by
            rw [show (d, TokenReader.mk l none)
              = ((Lexer.gather none c b).1, ⟨(Lexer.gather none c b).2, none⟩) by rw [hg]]
            rfl
          rw [hr] at h
          cases h
          obtain ⟨hl, hn⟩ := Lexer.gather_none hg
          obtain ⟨c', q, b'⟩ := l
          cases hl
          show Lexer.tokens ⟨c', none, b'⟩ = ([], none)
          rw [Lexer.tokens_scanner, Scanner.tokens_stop hn]
          rfl

theorem TokenReader.read_of_tokens_nil {r : TokenReader} (h : r.tokens = ([], none)) :
    ∃ r', r.read = (.ok none, r') ∧ r'.tokens = ([], none) ∧ r'.pushedBack = none := by
  have hp := r.read_pushedBack
  match hr : r.read with
  | (.error p, r') => rw [tokens_of_read_error hr] at h; cases h
  | (.ok (some u), r') => rw [tokens_of_read_some hr] at h; cases h
  | (.ok none, r') =>
      rw [hr] at hp
      exact ⟨r', rfl, tokens_of_end hr, hp⟩

theorem TokenReader.length_tokens_le (r : TokenReader) : r.tokens.1.length ≤ r.size := by
  match hr : r.read with
  | (.error p, r') => rw [tokens_of_read_error hr]; exact Nat.zero_le _
  | (.ok none, r') => rw [tokens_of_read_none hr]; exact Nat.zero_le _
  | (.ok (some t), r') =>
      have hlt : r'.size < r.size := by
        have := read_size_lt (congrArg Prod.fst hr)
        rwa [hr] at this
      have := length_tokens_le r'
      rw [tokens_of_read_some hr]
      simp only [Stream.after_fst, List.singleton_append, List.length_cons]
      omega
termination_by r.size

/-! ## Texts are as long as can be -/

/-- No two texts stand next to each other. -/
def Separate (ts : List Token) : Prop := ∀ s t, ¬ [Token.text s, Token.text t] <:+: ts

theorem Separate.of_infix {ts us : List Token} (h : Separate ts) (hu : us <:+: ts) : Separate us :=
  fun s t ht => h s t (ht.trans hu)

theorem separate_nil : Separate [] := fun s t h => by
  have := h.length_le
  simp at this

theorem separate_singleton (t : Token) : Separate [t] := fun s u h => by
  have := h.length_le
  simp at this

theorem separate_cons_cons {t u : Token} {ts : List Token}
    (htu : ∀ s s', t = .text s → u ≠ .text s') (h : Separate (u :: ts)) :
    Separate (t :: u :: ts) := by
  intro s s' hi
  rcases List.infix_cons_iff.mp hi with hp | hi
  · simp only [List.cons_prefix_cons] at hp
    exact htu s s' hp.1.symm hp.2.1.symm
  · exact h s s' hi

theorem separate_cons_of_ne {t : Token} {ts : List Token} (ht : ∀ s, t ≠ .text s)
    (h : Separate ts) : Separate (t :: ts) := by
  cases ts with
  | nil => exact separate_singleton t
  | cons u ts => exact separate_cons_cons (fun s _ hs => absurd hs (ht s)) h

theorem Scanner.separate_tokens (acc : Option (List Char)) (s : Scanner) :
    Separate (s.tokens acc).1 := by
  refine tokens_induction (motive := fun _ _ st => Separate st.1) ?_ ?_ ?_ ?_ ?_ acc s
  · intro _ _ _ _ _
    exact separate_nil
  · intro _ _ _ _ _ _ _
    exact separate_nil
  · intro _ _ _ _ _ _ _ ih
    exact ih
  · intro acc _ _ t _ _ he ih
    have ht := Event.not_text_of_token he
    have hs := separate_cons_of_ne ht ih
    cases acc with
    | none => exact hs
    | some cs => exact separate_cons_cons (fun _ s' _ => ht s') hs
  · intro acc _ _ _
    cases acc with
    | none => exact separate_nil
    | some cs => exact separate_singleton _

theorem separate_tokens_ofSource (s : Source) : Separate (TokenReader.ofSource s).tokens.1 := by
  rw [tokens_ofSource_eq]
  exact Scanner.separate_tokens none _

end Markup

end XmlRpc
