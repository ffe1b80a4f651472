/-
# What is written is a document

The tokens that steps write, and that reading the octets of the steps gives
just these tokens (`tokens_render`).

    declaration       the declaration and the line end behind it
    raw, text         a start tag, the body unless it is empty, an end tag
    element           a start tag, the tokens of the body, an end tag

Bodies that are written as they are must not hold markup.  The numerals,
dates and Base64 texts of values do not.
-/
import XmlRpc.Document.Writer
import XmlRpc.Proofs.Base64
import XmlRpc.Proofs.Binary
import XmlRpc.Proofs.Document.Grammar
import XmlRpc.Proofs.Markup.Rendering

namespace XmlRpc

namespace Document

open Markup (Token TokenReader Renders TextRenders PartRenders WellNested Separate IsName)

/-! ## Tokens and characters of steps -/

/-- The token of a text, unless the text is empty. -/
def textTokens : List Char → List Token
  | [] => []
  | c :: cs => [.text (String.ofList (c :: cs))]

mutual

def Step.tokens : Step → List Token
  | .declaration => [.declaration, .text "\n"]
  | .raw tag body => startOf tag :: (textTokens body ++ [endOf tag])
  | .text tag body => startOf tag :: (textTokens body ++ [endOf tag])
  | .element tag body => startOf tag :: (tokensOf body ++ [endOf tag])

def tokensOf : List Step → List Token
  | [] => []
  | s :: ss => s.tokens ++ tokensOf ss

end

mutual

def Step.chars : Step → List Char
  | .declaration => header.toList
  | .raw tag body => tag.openTag.toList ++ (body ++ tag.closeTag.toList)
  | .text tag body => tag.openTag.toList ++ (textBody body ++ tag.closeTag.toList)
  | .element tag body => tag.openTag.toList ++ (charsOf body ++ tag.closeTag.toList)

def charsOf : List Step → List Char
  | [] => []
  | s :: ss => s.chars ++ charsOf ss

end

mutual

theorem Step.flatten_pieces (s : Step) : s.pieces.flatten = Utf8.encode s.chars := by
  cases s with
  | declaration => exact List.append_nil _
  | raw tag body => simp [Step.pieces, rawPieces, Step.chars, Utf8.encodeString]
  | text tag body => simp [Step.pieces, rawPieces, Step.chars, Utf8.encodeString]
  | element tag body =>
      have hbody := flatten_piecesOf body
      simp [Step.pieces, Step.chars, Utf8.encodeString, hbody]

theorem flatten_piecesOf (ss : List Step) : (piecesOf ss).flatten = Utf8.encode (charsOf ss) := by
  cases ss with
  | nil => rfl
  | cons s ss =>
      have hs := Step.flatten_pieces s
      have hss := flatten_piecesOf ss
      simp [piecesOf, charsOf, hs, hss]

end

/-! ## Nesting -/

theorem wellNested_textTokens {names : List String} {ts : List Token} (body : List Char)
    (h : WellNested names ts) : WellNested names (textTokens body ++ ts) := by
  cases body with
  | nil => exact h
  | cons c cs => cases names <;> exact h

theorem wellNested_element {names : List String} {ts us : List Token} {tag : Tag}
    (hus : ∀ {names ts}, WellNested names ts → WellNested names (us ++ ts))
    (h : WellNested names ts) :
    WellNested names (startOf tag :: (us ++ [endOf tag]) ++ ts) := by
  have hend : WellNested (tag.label :: names) (endOf tag :: ts) := ⟨rfl, h⟩
  have hbody := hus hend
  rw [List.cons_append, List.append_assoc]
  cases names <;> exact hbody

mutual

theorem Step.wellNested (s : Step) {names : List String} {ts : List Token}
    (h : WellNested names ts) : WellNested names (s.tokens ++ ts) := by
  cases s with
  | declaration => cases names <;> exact h
  | raw tag body => exact wellNested_element (wellNested_textTokens body) h
  | text tag body => exact wellNested_element (wellNested_textTokens body) h
  | element tag body => exact wellNested_element (wellNested_tokensOf body) h

theorem wellNested_tokensOf (ss : List Step) {names : List String} {ts : List Token}
    (h : WellNested names ts) : WellNested names (tokensOf ss ++ ts) := by
  cases ss with
  | nil => exact h
  | cons s ss =>
      rw [tokensOf, List.append_assoc]
      exact Step.wellNested s (wellNested_tokensOf ss h)

end

/-! ## Texts stand apart -/

/-- Tokens that do not begin with a text. -/
def StartsApart (ts : List Token) : Prop := ∀ s, ts.head? ≠ some (.text s)

theorem separate_cons_startsApart {t : Token} {ts : List Token} (h : Separate ts)
    (ha : StartsApart ts) : Separate (t :: ts) := by
  cases ts with
  | nil => exact Markup.separate_singleton t
  | cons u us =>
      refine Markup.separate_cons_cons ?_ h
      intro _ s _ hu
      exact ha s (congrArg some hu)

theorem separate_textTokens {ts : List Token} (body : List Char) (h : Separate ts)
    (ha : StartsApart ts) : Separate (textTokens body ++ ts) := by
  cases body with
  | nil => exact h
  | cons c cs => exact separate_cons_startsApart h ha

theorem separate_element {ts us : List Token} {tag : Tag}
    (hus : ∀ {ts}, Separate ts → StartsApart ts → Separate (us ++ ts)) (h : Separate ts)
    (ha : StartsApart ts) : Separate (startOf tag :: (us ++ [endOf tag]) ++ ts) := by
  have hend : Separate (endOf tag :: ts) := separate_cons_startsApart h ha
  have hbody : Separate (us ++ endOf tag :: ts) := hus hend fun _ hs => by cases hs
  rw [List.cons_append, List.append_assoc]
  exact Markup.separate_cons_of_ne (by simp [startOf]) hbody

theorem Step.startsApart (s : Step) (ts : List Token) : StartsApart (s.tokens ++ ts) := by
  cases s <;> exact fun _ hs => by cases hs

theorem startsApart_tokensOf (ss : List Step) {ts : List Token} (h : StartsApart ts) :
    StartsApart (tokensOf ss ++ ts) := by
  cases ss with
  | nil => exact h
  | cons s ss =>
      rw [tokensOf, List.append_assoc]
      exact Step.startsApart s _

mutual

theorem Step.separate (s : Step) {ts : List Token} (h : Separate ts) (ha : StartsApart ts) :
    Separate (s.tokens ++ ts) := by
  cases s with
  | declaration =>
      exact Markup.separate_cons_of_ne (by simp) (separate_cons_startsApart h ha)
  | raw tag body => exact separate_element (separate_textTokens body) h ha
  | text tag body => exact separate_element (separate_textTokens body) h ha
  | element tag body => exact separate_element (separate_tokensOf body) h ha

theorem separate_tokensOf (ss : List Step) {ts : List Token} (h : Separate ts)
    (ha : StartsApart ts) : Separate (tokensOf ss ++ ts) := by
  cases ss with
  | nil => exact h
  | cons s ss =>
      rw [tokensOf, List.append_assoc]
      exact Step.separate s (separate_tokensOf ss h ha) (startsApart_tokensOf ss ha)

end

/-! ## Texts as they are written -/

/-- Characters that stand for themselves in text. -/
def IsPlain (cs : List Char) : Prop := ∀ c ∈ cs, c ≠ '<' ∧ c ≠ '&'

theorem textRenders_plain {cs : List Char} (hne : cs ≠ []) (h : IsPlain cs) : TextRenders cs cs :=
  .one (.run hne h)

theorem mem_entities_of_name? {c : Char} {n : List Char} (h : Reference.name? c = some n) :
    (n, c) ∈ Markup.entities := by
  unfold Reference.name? at h
  split at h <;> cases h <;> decide

theorem partRenders_escapeChar (c : Char) : PartRenders [c] (Reference.escapeChar c) := by
  rw [Reference.escapeChar]
  match h : Reference.name? c with
  | some n => exact .entity (mem_entities_of_name? h)
  | none =>
      refine .run (List.cons_ne_nil c []) ?_
      intro d hd
      rw [List.mem_singleton.mp hd]
      refine ⟨?_, ?_⟩
      all_goals
        rintro rfl
        cases h

theorem textRenders_escape {cs : List Char} (h : cs ≠ []) :
    TextRenders cs (Reference.escape cs) := by
  induction cs with
  | nil => exact absurd rfl h
  | cons c cs ih =>
      have hc := partRenders_escapeChar c
      cases cs with
      | nil =>
          have hone : Reference.escape [c] = Reference.escapeChar c := List.append_nil _
          rw [hone]
          exact .one hc
      | cons d ds => exact .cons hc (ih (List.cons_ne_nil d ds))

theorem textBody_eq (cs : List Char) : textBody cs = Reference.escape cs := by
  rw [textBody]
  split
  · rfl
  · rename_i h
    have hnone : ∀ c ∈ cs, Reference.escapeChar c = [c] := by
      intro c hc
      have hspecial : ¬ Reference.isSpecial c = true := fun hs =>
        h (List.any_eq_true.mpr ⟨c, hc, hs⟩)
      rw [Reference.isSpecial, Option.not_isSome_iff_eq_none] at hspecial
      rw [Reference.escapeChar, hspecial]
    clear h
    induction cs with
    | nil => rfl
    | cons c cs ih =>
        have hcs := ih fun d hd => hnone d (List.mem_cons_of_mem c hd)
        rw [Reference.escape, List.flatMap_cons, hnone c List.mem_cons_self]
        exact congrArg (c :: ·) hcs

/-! ## Elements as they are written -/

variable {ts : List Token} {cs : List Char} (tag : Tag)

theorem isName_label : IsName tag.label.toList := by
  cases tag <;> exact ⟨_, _, rfl, rfl, List.all_eq_true.mp rfl⟩

theorem renders_open (h : Renders ts cs) :
    Renders (startOf tag :: ts) (tag.openTag.toList ++ cs) := by
  have hr := @Renders.startTag tag.label [] [] cs ts (isName_label tag) .nil Markup.isBlanks_nil h
  have heq : tag.openTag.toList ++ cs = '<' :: tag.label.toList ++ [] ++ [] ++ '>' :: cs := by
    simp [Tag.openTag]
  rw [heq]
  exact hr

theorem renders_close (h : Renders ts cs) :
    Renders (endOf tag :: ts) (tag.closeTag.toList ++ cs) := by
  have hr := @Renders.endTag tag.label [] cs ts (isName_label tag) Markup.isBlanks_nil h
  have heq : tag.closeTag.toList ++ cs = '<' :: '/' :: tag.label.toList ++ [] ++ '>' :: cs := by
    simp [Tag.closeTag]
  rw [heq]
  exact hr

theorem renders_textTokens {body written : List Char} (ht : body ≠ [] → TextRenders body written)
    (hn : body = [] → written = []) (h : Renders ts cs) :
    Renders (textTokens body ++ ts) (written ++ cs) := by
  cases body with
  | nil =>
      rw [hn rfl]
      exact h
  | cons c body =>
      refine .text ?_ h
      rw [String.toList_ofList]
      exact ht (List.cons_ne_nil c body)

theorem renders_element {us : List Token} {written : List Char}
    (hus : ∀ {ts cs}, Renders ts cs → Renders (us ++ ts) (written ++ cs)) (h : Renders ts cs) :
    Renders (startOf tag :: (us ++ [endOf tag]) ++ ts)
      (tag.openTag.toList ++ (written ++ tag.closeTag.toList) ++ cs) := by
  have hbody := renders_open tag (hus (renders_close tag h))
  simpa only [List.cons_append, List.append_assoc, List.nil_append] using hbody

theorem renders_header (h : Renders ts cs) :
    Renders (.declaration :: .text "\n" :: ts) (header.toList ++ cs) := by
  have hname : IsName ['x', 'm', 'l'] := Markup.isName_cons rfl rfl
  have hend : TextRenders "\n".toList ['\n'] := textRenders_plain (by simp) (by simp [IsPlain])
  exact @Renders.declaration _ " version=\"1.0\" encoding=\"UTF-8\"".toList _ _ hname (by simp)
    (.text hend h)

mutual

/-- Bodies that are written as they are hold no markup. -/
def Step.Fit : Step → Prop
  | .declaration => True
  | .raw _ body => IsPlain body
  | .text _ _ => True
  | .element _ body => FitAll body

@[inherit_doc Step.Fit]
def FitAll : List Step → Prop
  | [] => True
  | s :: ss => s.Fit ∧ FitAll ss

end

mutual

theorem Step.renders (s : Step) (hs : s.Fit) {ts : List Token} {cs : List Char}
    (h : Renders ts cs) : Renders (s.tokens ++ ts) (s.chars ++ cs) := by
  cases s with
  | declaration => exact renders_header h
  | raw tag body =>
      exact renders_element tag (renders_textTokens (fun hne => textRenders_plain hne hs) id) h
  | text tag body =>
      refine renders_element tag (renders_textTokens ?_ ?_) h
      · intro hne
        rw [textBody_eq]
        exact textRenders_escape hne
      · rintro rfl
        rfl
  | element tag body => exact renders_element tag (renders_tokensOf body hs) h

theorem renders_tokensOf (ss : List Step) (hs : FitAll ss) {ts : List Token} {cs : List Char}
    (h : Renders ts cs) : Renders (tokensOf ss ++ ts) (charsOf ss ++ cs) := by
  cases ss with
  | nil => exact h
  | cons s ss =>
      rw [tokensOf, charsOf, List.append_assoc, List.append_assoc]
      exact Step.renders s hs.1 (renders_tokensOf ss hs.2 h)

end

/-! ## Documents -/

theorem head_charsOf (ss : List Step) : (charsOf ss).head? ≠ some '\uFEFF' := by
  cases ss with
  | nil => decide
  | cons s ss =>
      have hopen (tag : Tag) (cs : List Char) :
          (tag.openTag.toList ++ cs).head? ≠ some '\uFEFF' := by
        simp [Tag.openTag]
      cases s with
      | declaration => simp [charsOf, Step.chars, header]
      | _ =>
          rw [charsOf, Step.chars, List.append_assoc]
          exact hopen _ _

/-- Reading what steps have written gives their tokens. -/
theorem tokens_render {ss : List Step} (h : FitAll ss) :
    (TokenReader.ofSource (.ofOctets (render ss))).tokens = (tokensOf ss, none) := by
  have hrenders := renders_tokensOf ss h .nil
  have hnested := wellNested_tokensOf ss (show WellNested [] [] from trivial)
  have hseparate := separate_tokensOf ss Markup.separate_nil fun _ hs => by cases hs
  rw [List.append_nil] at hrenders hnested hseparate
  rw [List.append_nil] at hrenders
  rw [render, flatten_piecesOf, Markup.tokens_encode (head_charsOf ss)]
  exact Markup.tokens_renders hrenders [] none hnested hseparate (by simp)

/-! ## Values -/

theorem isPlain_of_isDigit {cs : List Char} (h : ∀ c ∈ cs, c.isDigit = true) : IsPlain cs := by
  intro c hc
  refine ⟨?_, ?_⟩
  all_goals
    rintro rfl
    exact absurd (h _ hc) (by decide)

theorem IsPlain.append {as bs : List Char} (ha : IsPlain as) (hb : IsPlain bs) :
    IsPlain (as ++ bs) := by
  intro c hc
  rcases List.mem_append.mp hc with hc | hc
  · exact ha c hc
  · exact hb c hc

theorem IsPlain.cons {c : Char} {cs : List Char} (hc : c ≠ '<' ∧ c ≠ '&') (h : IsPlain cs) :
    IsPlain (c :: cs) := by
  intro d hd
  rcases List.mem_cons.mp hd with rfl | hd
  · exact hc
  · exact h d hd

theorem isPlain_nil : IsPlain [] := fun _ hc => by cases hc

theorem isPlain_padded (w n : Nat) : IsPlain (Numeral.padded w n) :=
  isPlain_of_isDigit (Numeral.isDigit_padded w n)

theorem isPlain_ofInt (i : Int) : IsPlain (Numeral.ofInt i) := by
  cases i with
  | ofNat n => exact isPlain_of_isDigit (Numeral.isDigit_ofNat n)
  | negSucc n => exact .cons (by decide) (isPlain_of_isDigit (Numeral.isDigit_ofNat (n + 1)))

theorem isPlain_toText {f : Format} (x : Binary f) : IsPlain x.toText := by
  have hsign (s : Bool) : IsPlain (Binary.signText s) := by
    cases s with
    | true => exact .cons (by decide) isPlain_nil
    | false => exact isPlain_nil
  cases x with
  | nan =>
      rw [Binary.toText_nan]
      exact .cons (by decide) (.cons (by decide) (.cons (by decide) isPlain_nil))
  | infinity s =>
      rw [Binary.toText_infinity]
      exact (hsign s).append (.cons (by decide) (.cons (by decide) (.cons (by decide) isPlain_nil)))
  | finite s code =>
      rw [Binary.toText_finite]
      refine (hsign s).append (.append ?_ (.cons (by decide) ?_))
      · exact isPlain_of_isDigit (Numeral.isDigit_ofNat _)
      · exact isPlain_of_isDigit (Binary.isDigit_fractionDigits _)

theorem isPlain_compactText (d : DateTime) : IsPlain (Calendar.compactText d) := by
  have hyear : IsPlain (Calendar.yearText d.date.year) := by
    rw [Calendar.yearText]
    split
    · exact isPlain_padded 4 _
    · refine .cons ?_ (isPlain_padded 4 _)
      split <;> decide
  have hdate := (hyear.append (isPlain_padded 2 d.date.month)).append (isPlain_padded 2 d.date.day)
  have hhour := hdate.append (.cons (c := 'T') (by decide) (isPlain_padded 2 d.time.hour))
  have hminute := hhour.append (.cons (c := ':') (by decide) (isPlain_padded 2 d.time.minute))
  exact hminute.append
    (.cons (c := ':') (by decide) (isPlain_padded 2 (Calendar.shownSecond d.time)))

theorem isPlain_encodeText (o : Octets) : IsPlain (Base64.encodeText o) :=
  Base64.of_mem_encodeText (by decide) (by decide)

mutual

theorem fit_valueStep (v : Value) : (valueStep v).Fit := by
  cases v with
  | nil => exact trivial
  | boolean b =>
      refine ⟨.cons ?_ isPlain_nil, trivial⟩
      cases b <;> decide
  | int i => exact ⟨isPlain_ofInt i.toInt, trivial⟩
  | double x => exact ⟨isPlain_toText x, trivial⟩
  | dateTime d => exact ⟨isPlain_compactText d, trivial⟩
  | base64 o => exact ⟨isPlain_encodeText o, trivial⟩
  | string s => exact ⟨trivial, trivial⟩
  | array items => exact ⟨⟨fitAll_itemSteps items, trivial⟩, trivial⟩
  | struct members => exact ⟨fitAll_memberSteps members, trivial⟩

theorem fitAll_itemSteps (vs : List Value) : FitAll (itemSteps vs) := by
  cases vs with
  | nil => exact trivial
  | cons v vs => exact ⟨fit_valueStep v, fitAll_itemSteps vs⟩

theorem fitAll_memberSteps (ms : List Member) : FitAll (memberSteps ms) := by
  cases ms with
  | nil => exact trivial
  | cons m ms =>
      cases m with
      | mk name v => exact ⟨⟨trivial, fit_valueStep v, trivial⟩, fitAll_memberSteps ms⟩

end

theorem tokens_document (v : Value) :
    (TokenReader.ofSource (.ofOctets v.document)).tokens = ((valueStep v).tokens, none) := by
  have hfit : FitAll [valueStep v] := ⟨fit_valueStep v, trivial⟩
  have h := tokens_render hfit
  rw [tokensOf, tokensOf, List.append_nil] at h
  exact h

end Document

end XmlRpc
