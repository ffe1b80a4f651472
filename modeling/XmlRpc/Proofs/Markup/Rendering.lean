/-
# Ways to write tokens

One list of tokens can be written in many ways.  `Renders ts cs`: the text
`cs` is one of them.

    start tag     <name attributes blanks>
    end tag       </name blanks>
    both at once  <name attributes blanks/>
    declaration   <?name …?>
    text          runs, CDATA sections and references, one or more

`tokens_of_renders`: whichever way is chosen, reading gives back the tokens,
provided that end tags close the innermost open element and no two texts
stand next to each other.
-/
import XmlRpc.Proofs.Markup.Delimiter
import XmlRpc.Proofs.Markup.Stream
import XmlRpc.Proofs.Text.Utf8

namespace XmlRpc

namespace Markup

/-! ## The parts of a tag -/

def isNameChar (c : Char) : Bool :=
  c.isAlpha || c.isDigit || c == '.' || c == '-' || c == '_'

/-- Names: a letter, and characters of names behind it. -/
def IsName (cs : List Char) : Prop :=
  ∃ c r, cs = c :: r ∧ c.isAlpha = true ∧ ∀ d ∈ r, isNameChar d = true

def IsBlanks (cs : List Char) : Prop := ∀ c ∈ cs, c ∈ [' ', '\t', '\r', '\n']

/-- Attributes, each behind blanks and with its value in double quotes. -/
inductive Attributes : List Char → Prop where
  | nil : Attributes []
  | cons {blanks name value more : List Char} :
      blanks ≠ [] → IsBlanks blanks → IsName name →
      (∀ c ∈ value, c ≠ '"' ∧ c ≠ '<' ∧ c ≠ '>') → Attributes more →
      Attributes (blanks ++ name ++ '=' :: '"' :: value ++ '"' :: more)

/-! ## The parts of a text -/

def entities : List (List Char × Char) :=
  [(['l', 't'], '<'), (['g', 't'], '>'), (['a', 'm', 'p'], '&'), (['a', 'p', 'o', 's'], '\''),
    (['q', 'u', 'o', 't'], '"')]

def digitValue (c : Char) : Nat :=
  if c.isDigit then c.toNat - '0'.toNat
  else if c.isUpper then c.toNat - 'A'.toNat + 10
  else c.toNat - 'a'.toNat + 10

def number (base : Nat) (ds : List Char) : Nat :=
  ds.foldl (fun n d => n * base + digitValue d) 0

def isHexDigit (c : Char) : Bool :=
  c.isDigit || ('a' ≤ c && c ≤ 'f') || ('A' ≤ c && c ≤ 'F')

/-- A part of a text, and one way to write it. -/
inductive PartRenders : List Char → List Char → Prop where
  | run {cs : List Char} : cs ≠ [] → (∀ c ∈ cs, c ≠ '<' ∧ c ≠ '&') → PartRenders cs cs
  | cdata {cs : List Char} : ¬ [']', ']', '>'] <:+: cs →
      PartRenders cs
        (['<', '!', '[', 'C', 'D', 'A', 'T', 'A', '['] ++ cs ++ [']', ']', '>'])
  | entity {name : List Char} {c : Char} : (name, c) ∈ entities →
      PartRenders [c] ('&' :: name ++ [';'])
  | decimal {ds : List Char} {c : Char} : ds ≠ [] → (∀ d ∈ ds, d.isDigit = true) →
      number 10 ds = c.toNat → PartRenders [c] ('&' :: '#' :: ds ++ [';'])
  | hex {ds : List Char} {c : Char} : ds ≠ [] → (∀ d ∈ ds, isHexDigit d = true) →
      number 16 ds = c.toNat → PartRenders [c] ('&' :: '#' :: 'x' :: ds ++ [';'])

/-- A text, and one way to write it: one part or more. -/
inductive TextRenders : List Char → List Char → Prop where
  | one {t cs : List Char} : PartRenders t cs → TextRenders t cs
  | cons {t u cs ds : List Char} : PartRenders t cs → TextRenders u ds →
      TextRenders (t ++ u) (cs ++ ds)

/-! ## Tokens -/

inductive Renders : List Token → List Char → Prop where
  | nil : Renders [] []
  | startTag {name : String} {attributes blanks cs : List Char} {ts : List Token} :
      IsName name.toList → Attributes attributes → IsBlanks blanks → Renders ts cs →
      Renders (.startTag name :: ts)
        ('<' :: name.toList ++ attributes ++ blanks ++ '>' :: cs)
  | endTag {name : String} {blanks cs : List Char} {ts : List Token} :
      IsName name.toList → IsBlanks blanks → Renders ts cs →
      Renders (.endTag name :: ts) ('<' :: '/' :: name.toList ++ blanks ++ '>' :: cs)
  | selfClosed {name : String} {attributes blanks cs : List Char} {ts : List Token} :
      IsName name.toList → Attributes attributes → IsBlanks blanks → Renders ts cs →
      Renders (.startTag name :: .endTag name :: ts)
        ('<' :: name.toList ++ attributes ++ blanks ++ '/' :: '>' :: cs)
  | declaration {name body cs : List Char} {ts : List Token} :
      IsName name → (∀ c ∈ body, c ≠ '?' ∧ c ≠ '>') → Renders ts cs →
      Renders (.declaration :: ts) ('<' :: '?' :: name ++ body ++ '?' :: '>' :: cs)
  | text {s : String} {cs ds : List Char} {ts : List Token} :
      TextRenders s.toList cs → Renders ts ds → Renders (.text s :: ts) (cs ++ ds)

/-- Whether every end tag closes the innermost open element, where `names`
are open at the beginning.  Elements may be left open at the end. -/
def WellNested : List String → List Token → Prop
  | _, [] => True
  | names, .startTag name :: ts => WellNested (name :: names) ts
  | opened :: names, .endTag name :: ts => name = opened ∧ WellNested names ts
  | [], .endTag _ :: _ => False
  | names, .text _ :: ts => WellNested names ts
  | names, .declaration :: ts => WellNested names ts

/-! ## Octets of the parts -/

open Utf8 (encode encode_append encode_cons mem_encode_iff)

theorem not_mem_encode {b : UInt8} {cs : List Char} (hb : b.toNat < 0x80)
    (h : Char.ofNat b.toNat ∉ cs) : b ∉ encode cs := fun hm => h ((mem_encode_iff hb).mp hm)

theorem isName_cons {c : Char} {r : List Char} (hc : c.isAlpha = true)
    (hr : r.all isNameChar = true) : IsName (c :: r) :=
  ⟨c, r, rfl, hc, List.all_eq_true.mp hr⟩

theorem isBlanks_nil : IsBlanks [] := fun _ hc => by cases hc

theorem IsName.ne_nil {cs : List Char} (h : IsName cs) : cs ≠ [] := by
  obtain ⟨c, r, rfl, -, -⟩ := h
  exact List.cons_ne_nil c r

theorem IsName.isNameChar {cs : List Char} (h : IsName cs) : ∀ c ∈ cs, isNameChar c = true := by
  obtain ⟨c, r, rfl, hc, hr⟩ := h
  intro d hd
  rcases List.mem_cons.mp hd with rfl | hd
  · simp [Markup.isNameChar, hc]
  · exact hr d hd

theorem IsName.not_mem {cs : List Char} (h : IsName cs) {b : UInt8} (hb : b.toNat < 0x80)
    (hc : Markup.isNameChar (Char.ofNat b.toNat) = false) : b ∉ encode cs :=
  not_mem_encode hb fun hm => by simp [h.isNameChar _ hm] at hc

theorem isUpper_iff {c : Char} : c.isUpper = true ↔ 'A' ≤ c ∧ c ≤ 'Z' := decide_eq_true_iff

theorem isLower_iff {c : Char} : c.isLower = true ↔ 'a' ≤ c ∧ c ≤ 'z' :=
  Bool.and_eq_true_iff.trans (and_congr decide_eq_true_iff decide_eq_true_iff)

theorem toNat_lt_of_isAlpha {c : Char} (h : c.isAlpha = true) : c.toNat < 0x80 := by
  have h' : (c.isUpper || c.isLower) = true := h
  rcases Bool.or_eq_true_iff.mp h' with hu | hl
  · have hle : c.toNat ≤ 90 := UInt32.le_iff_toNat_le.mp (isUpper_iff.mp hu).2
    omega
  · have hle : c.toNat ≤ 122 := UInt32.le_iff_toNat_le.mp (isLower_iff.mp hl).2
    omega

theorem IsName.head {cs : List Char} (h : IsName cs) :
    ∃ b r, encode cs = b :: r ∧ (Char.ofNat b.toNat).isAlpha = true := by
  obtain ⟨c, r, rfl, hc, -⟩ := h
  have hlt := toNat_lt_of_isAlpha hc
  have hb : (UInt8.ofNat c.toNat).toNat = c.toNat := by
    simp
    omega
  exact ⟨UInt8.ofNat c.toNat, encode r, by rw [encode_cons, Utf8.utf8EncodeChar_of_lt hlt]; rfl,
    by rw [hb, Char.ofNat_toNat]; exact hc⟩

theorem encode_isXml {cs : List Char} (h : IsBlanks cs) :
    ∀ b ∈ encode cs, Blank.isXml b = true := by
  induction cs with
  | nil => intro b hb; simp at hb
  | cons c cs ih =>
      intro b hb
      rw [encode_cons, List.mem_append] at hb
      rcases hb with hb | hb
      · have := h c List.mem_cons_self
        simp only [List.mem_cons, List.not_mem_nil, or_false] at this
        rcases this with rfl | rfl | rfl | rfl
        all_goals
          rw [Utf8.utf8EncodeChar_of_lt (by decide), List.mem_singleton] at hb
          subst hb
          decide
      · exact ih (fun d hd => h d (List.mem_cons_of_mem _ hd)) b hb

theorem plain_name {cs : List Char} (h : IsName cs) : Plain (encode cs) := by
  intro b hb
  refine ⟨?_, ?_, ?_⟩
  all_goals
    rintro rfl
    exact absurd hb (h.not_mem (by decide) (by decide))

theorem plain_blanks {cs : List Char} (h : IsBlanks cs) : Plain (encode cs) := by
  intro b hb
  have := encode_isXml h b hb
  refine ⟨?_, ?_, ?_⟩
  all_goals
    rintro rfl
    exact absurd this (by decide)

theorem name_not_isXml {cs : List Char} (h : IsName cs) :
    ∀ b ∈ encode cs, Blank.isXml b = false := by
  intro b hb
  rw [Bool.eq_false_iff]
  intro hx
  simp only [Blank.isXml, Bool.or_eq_true, beq_iff_eq] at hx
  rcases hx with ((rfl | rfl) | rfl) | rfl
  all_goals exact absurd hb (h.not_mem (by decide) (by decide))

theorem cutTag_attributes {as : List Char} (h : Attributes as) {r before after : Octets}
    (hr : cutTag .outside r = some (before, after)) :
    cutTag .outside (encode as ++ r) = some (encode as ++ before, after) := by
  induction h with
  | nil => exact hr
  | @cons blanks name value more _ hb hn hv _ ih =>
      have hvalue : (0x22 : UInt8) ∉ encode value :=
        not_mem_encode (by decide) fun hm => (hv _ hm).1 rfl
      have heq : Plain [0x3D] := by
        intro b hb
        rw [List.mem_singleton] at hb
        subst hb
        decide
      have := cutTag_plain (plain_blanks hb)
        (cutTag_plain (plain_name hn) (cutTag_plain heq (cutTag_quoted hvalue ih)))
      simpa [encode_append, encode_cons, Utf8.utf8EncodeChar_of_lt] using this

/-! ## The content of a tag -/

theorem attributes_blanks_head {as blanks : List Char} (ha : Attributes as)
    (hb : IsBlanks blanks) : ∀ b ∈ (encode (as ++ blanks)).head?, Blank.isXml b = true := by
  have hblank {cs : List Char} (h : IsBlanks cs) :
      ∀ b ∈ (encode cs).head?, Blank.isXml b = true := fun b hm =>
    encode_isXml h b (List.mem_of_mem_head? hm)
  cases ha with
  | nil => exact hblank hb
  | @cons ws name value more hne hws _ _ _ =>
      intro b hm
      refine hblank hws b ?_
      have hne' : encode ws ≠ [] := fun h => hne (Utf8.encode_eq_nil_iff.mp h)
      simp only [encode_append, List.append_assoc] at hm
      cases hw : encode ws with
      | nil => exact absurd hw hne'
      | cons c r =>
          rw [hw] at hm
          exact hm

theorem tagName_content {name as blanks : List Char} (hn : IsName name) (ha : Attributes as)
    (hb : IsBlanks blanks) : tagName (encode name ++ encode (as ++ blanks)) = encode name :=
  takeWhile_run (fun b hm => by simp [name_not_isXml hn b hm])
    fun b hm => by simp [attributes_blanks_head ha hb b hm]

theorem getLast_append_ne {x y : Octets} {b : UInt8} (hx : x.getLast? ≠ some b)
    (hy : y.getLast? ≠ some b) : (x ++ y).getLast? ≠ some b := by
  rw [List.getLast?_append]
  intro h
  rcases Option.or_eq_some_iff.mp h with h | ⟨-, h⟩
  · exact hy h
  · exact hx h

theorem getLast_ne_of_not_mem {x : Octets} {b : UInt8} (h : b ∉ x) : x.getLast? ≠ some b :=
  fun hb => h (List.mem_of_getLast? hb)

theorem getLast_attributes {as : List Char} (h : Attributes as) :
    (encode as).getLast? ≠ some 0x2F := by
  induction h with
  | nil => simp
  | @cons blanks name value more _ _ _ _ _ ih =>
      have hq : ([0x22] ++ encode more).getLast? ≠ some 0x2F := getLast_append_ne (by decide) ih
      have hsplit : encode (blanks ++ name ++ '=' :: '"' :: value ++ '"' :: more)
          = encode (blanks ++ name ++ '=' :: '"' :: value) ++ ([0x22] ++ encode more) := by
        rw [encode_append, encode_cons, Utf8.utf8EncodeChar_of_lt (c := '"') (by decide)]
        rfl
      rw [hsplit, List.getLast?_append]
      cases hl : ([0x22] ++ encode more).getLast? with
      | none => simp at hl
      | some b => exact hl ▸ hq

/-- A tag that is not closed at once does not end in a slash. -/
theorem getLast_content {name as blanks : List Char} (hn : IsName name) (ha : Attributes as)
    (hb : IsBlanks blanks) :
    (encode name ++ encode (as ++ blanks)).getLast? ≠ some 0x2F := by
  rw [encode_append]
  have hname := getLast_ne_of_not_mem (hn.not_mem (b := 0x2F) (by decide) (by decide))
  have hblanks := getLast_ne_of_not_mem (b := 0x2F) fun h =>
    absurd (encode_isXml hb _ h) (by decide)
  exact getLast_append_ne hname (getLast_append_ne (getLast_attributes ha) hblanks)

/-! ## Steps -/

variable {d : Ending} {names : List Octets} {r : Octets}

theorem cutTag_content {name as blanks : List Char} (hn : IsName name) (ha : Attributes as)
    (hb : IsBlanks blanks) {r before after : Octets}
    (hr : cutTag .outside r = some (before, after)) :
    cutTag .outside (encode name ++ (encode (as ++ blanks) ++ r))
      = some (encode name ++ (encode (as ++ blanks) ++ before), after) := by
  have := cutTag_plain (plain_name hn) (cutTag_attributes ha (cutTag_plain (plain_blanks hb) hr))
  simpa [encode_append] using this

theorem content_tag {name : List Char} (hn : IsName name) {o content : Octets}
    (hcut : cutTag .outside (encode name ++ o) = some (content, r)) (s : Scanner) :
    s.content (0x3C :: (encode name ++ o)) = s.startTag content r := by
  obtain ⟨b, x, hx, hb⟩ := hn.head
  rw [hx] at hcut ⊢
  have h₁ : b ≠ 0x21 := by rintro rfl; exact absurd hb (by decide)
  have h₂ : b ≠ 0x2F := by rintro rfl; exact absurd hb (by decide)
  have h₃ : b ≠ 0x3F := by rintro rfl; exact absurd hb (by decide)
  show s.markup (b :: (x ++ o)) = _
  rw [List.cons_append] at hcut
  simp only [Scanner.markup, h₁, h₂, h₃, if_false, hcut]

theorem next_startTag {name as blanks : List Char} (hn : IsName name) (ha : Attributes as)
    (hb : IsBlanks blanks) :
    (Scanner.between d names
        (0x3C :: (encode name ++ (encode (as ++ blanks) ++ 0x3E :: r)))).next
      = (.ok (.startTag (encode name)), Scanner.between d (encode name :: names) r) := by
  rw [Scanner.between_next, content_tag hn (cutTag_content hn ha hb (cutTag_here r)),
    List.append_nil, Scanner.startTag, if_neg (getLast_content hn ha hb),
    tagName_content hn ha hb]
  rfl

theorem next_selfClosed {name as blanks : List Char} (hn : IsName name) (ha : Attributes as)
    (hb : IsBlanks blanks) :
    (Scanner.between d names
        (0x3C :: (encode name ++ (encode (as ++ blanks) ++ 0x2F :: 0x3E :: r)))).next
      = (.ok (.startTag (encode name)), ⟨.selfClosed (encode name), r, d, names, true⟩) := by
  have hslash : Plain [0x2F] := by
    intro b hm
    rw [List.mem_singleton] at hm
    subst hm
    decide
  have hcut := cutTag_content hn ha hb (cutTag_plain hslash (cutTag_here r))
  rw [Scanner.between_next]
  show Scanner.content _ (0x3C :: (encode name ++ (encode (as ++ blanks) ++ ([0x2F] ++ 0x3E :: r))))
    = _
  rw [content_tag hn hcut, List.append_nil,
    ← List.append_assoc (encode name) (encode (as ++ blanks)) [0x2F], Scanner.startTag,
    if_pos (by simp), List.dropLast_concat, tagName_content hn ha hb]
  rfl

theorem endName_content {name blanks : List Char} (hn : IsName name) (hb : IsBlanks blanks) :
    endName (encode name ++ encode blanks) = encode name := by
  have hrun : (encode name ++ encode blanks).reverse.dropWhile Blank.isXml
      = (encode name).reverse := by
    rw [List.reverse_append]
    refine dropWhile_run (fun b hm => encode_isXml hb b (List.mem_reverse.mp hm)) ?_
    intro b hm
    exact name_not_isXml hn b (List.mem_reverse.mp (List.mem_of_mem_head? hm))
  rw [endName, hrun, List.reverse_reverse]
  split
  · rename_i h
    exact absurd (Utf8.encode_eq_nil_iff.mp h) hn.ne_nil
  · rfl

theorem next_endTag {name blanks : List Char} (hn : IsName name) (hb : IsBlanks blanks) :
    (Scanner.between d (encode name :: names)
        (0x3C :: 0x2F :: (encode name ++ (encode blanks ++ 0x3E :: r)))).next
      = (.ok (.endTag (encode name)), Scanner.between d names r) := by
  have hcut := cutTag_plain (plain_name hn) (cutTag_plain (plain_blanks hb) (cutTag_here r))
  rw [Scanner.between_next]
  show Scanner.markup _ (0x2F :: _) = _
  rw [List.append_nil] at hcut
  simp only [Scanner.markup, if_neg (show ¬ (0x2F : UInt8) = 0x21 by decide), if_true, hcut,
    Scanner.endTag, Scanner.between, endName_content hn hb]
  rfl

theorem next_declaration {name body : List Char} (hn : IsName name)
    (hbody : ∀ c ∈ body, c ≠ '?' ∧ c ≠ '>') :
    (Scanner.between d names
        (0x3C :: 0x3F :: (encode name ++ (encode body ++ 0x3F :: 0x3E :: r)))).next
      = (.ok .instruction, Scanner.between d names r) := by
  have hname := hn.not_mem (b := 0x3F) (by decide) (by decide)
  have hb : (0x3F : UInt8) ∉ encode body := not_mem_encode (by decide) fun h => (hbody _ h).1 rfl
  have hin := cut_append hname (cut_append hb (cut_here [0x3F, 0x3E] r (by decide)))
  have hcut : cut [0x3F, 0x3E] (0x3F :: (encode name ++ (encode body ++ 0x3F :: 0x3E :: r)))
      = some (0x3F :: (encode name ++ (encode body ++ [])), r) := by
    refine cut_cons ?_ hin
    obtain ⟨b, x, hx, ha⟩ := hn.head
    have : b ≠ 0x3E := by rintro rfl; exact absurd ha (by decide)
    rw [hx]
    simp [List.isPrefixOf, Ne.symm this]
  rw [Scanner.between_next]
  show Scanner.markup _ (0x3F :: _) = _
  simp only [Scanner.markup, if_neg (show ¬ (0x3F : UInt8) = 0x21 by decide),
    if_neg (show ¬ (0x3F : UInt8) = 0x2F by decide), if_true, hcut]
  rfl

theorem next_reference {x : Octets} (hx : ∀ b ∈ x, b ≠ 0x3B ∧ b ≠ 0x26 ∧ b ≠ 0x3C) :
    (Scanner.between d names (0x26 :: (x ++ 0x3B :: r))).next
      = (.ok (.reference x), Scanner.between d names r) := by
  have hp : ∀ b ∈ x, (b != 0x3B && b != 0x26 && b != 0x3C) = true := fun b hb => by
    obtain ⟨h₁, h₂, h₃⟩ := hx b hb
    simp [h₁, h₂, h₃]
  have hr : ∀ b ∈ (0x3B :: r).head?, (b != 0x3B && b != 0x26 && b != 0x3C) = false := by
    intro b hb
    cases hb
    rfl
  rw [Scanner.between_next]
  show Scanner.reference _ (x ++ 0x3B :: r) = _
  rw [Scanner.reference, dropWhile_run hp hr, takeWhile_run hp hr]
  rfl

theorem cons_prefix_encode {b : UInt8} {p y : Octets} {c : Char} {cs : List Char}
    (hb : b.toNat < 0x80) (h : b :: p <+: encode (c :: cs) ++ y) :
    c = Char.ofNat b.toNat ∧ p <+: encode cs ++ y := by
  rw [encode_cons, List.append_assoc] at h
  have hc : c = Char.ofNat b.toNat := by
    rw [← Utf8.mem_utf8EncodeChar_iff hb]
    cases hu : String.utf8EncodeChar c with
    | nil => exact absurd hu String.utf8EncodeChar_ne_nil
    | cons a u =>
        rw [hu, List.cons_append, List.cons_prefix_cons] at h
        rw [h.1]
        exact List.mem_cons_self
  have hn : c.toNat = b.toNat := by rw [hc, Utf8.toNat_ofNat (.inl (by omega))]
  rw [Utf8.utf8EncodeChar_of_lt (by omega), List.singleton_append, List.cons_prefix_cons] at h
  exact ⟨hc, h.2⟩

/-- The end of a CDATA section does not begin inside it. -/
theorem cut_cdata {cs : List Char} (h : ¬ [']', ']', '>'] <:+: cs) :
    cut [0x5D, 0x5D, 0x3E] (encode cs ++ 0x5D :: 0x5D :: 0x3E :: r) = some (encode cs, r) := by
  induction cs with
  | nil => exact cut_here [0x5D, 0x5D, 0x3E] r (by decide)
  | cons c cs ih =>
      have hcs : ¬ [']', ']', '>'] <:+: cs := fun hi =>
        h (hi.trans (List.suffix_cons c cs).isInfix)
      by_cases hc : c = ']'
      · subst hc
        rw [encode_cons, Utf8.utf8EncodeChar_of_lt (by decide)]
        refine cut_cons ?_ (ih hcs)
        rw [← Bool.not_eq_true, List.isPrefixOf_iff_prefix]
        intro hp
        have hp : [0x5D, 0x3E] <+: encode cs ++ 0x5D :: 0x5D :: 0x3E :: r :=
          (List.cons_prefix_cons.mp hp).2
        match cs with
        | [] => simp at hp
        | [c] =>
            have := (cons_prefix_encode (by decide) hp).2
            simp at this
        | c :: c' :: cs =>
            obtain ⟨hc, hp⟩ := cons_prefix_encode (by decide) hp
            obtain ⟨hc', -⟩ := cons_prefix_encode (by decide) hp
            exact h ⟨[], cs, by rw [hc, hc']; rfl⟩
      · have hm : (0x5D : UInt8) ∉ String.utf8EncodeChar c := fun hm =>
          hc ((Utf8.mem_utf8EncodeChar_iff (by decide)).mp hm)
        rw [encode_cons, List.append_assoc]
        exact cut_append hm (ih hcs)

theorem next_cdata {cs : List Char} (h : ¬ [']', ']', '>'] <:+: cs) :
    (Scanner.between d names (0x3C :: 0x21 :: ([0x5B, 0x43, 0x44, 0x41, 0x54, 0x41, 0x5B]
        ++ (encode cs ++ 0x5D :: 0x5D :: 0x3E :: r)))).next
      = (.ok (.cdata (encode cs)), Scanner.between d names r) := by
  have hopen : (0x5D : UInt8) ∉ ([0x5B, 0x43, 0x44, 0x41, 0x54, 0x41, 0x5B] : Octets) := by decide
  have hcut := cut_append hopen (cut_cdata (r := r) h)
  simp only [List.cons_append, List.nil_append] at hcut
  rw [Scanner.between_next]
  show Scanner.bang _ (0x5B :: 0x43 :: 0x44 :: 0x41 :: 0x54 :: 0x41 :: 0x5B
    :: (encode cs ++ 0x5D :: 0x5D :: 0x3E :: r)) = _
  simp only [Scanner.bang, if_true, hcut]
  rfl

/-! ## Texts -/

theorem isPlainText_encode {cs : List Char} (h : ∀ c ∈ cs, c ≠ '<' ∧ c ≠ '&') :
    ∀ b ∈ encode cs, isPlainText b = true := by
  intro b hb
  have h₁ : b ≠ 0x3C := by
    rintro rfl
    exact (h _ ((mem_encode_iff (by decide)).mp hb)).1 rfl
  have h₂ : b ≠ 0x26 := by
    rintro rfl
    exact (h _ ((mem_encode_iff (by decide)).mp hb)).2 rfl
  simp [isPlainText, h₁, h₂]

theorem tokens_run {cs : List Char} (hne : cs ≠ []) (h : ∀ c ∈ cs, c ≠ '<' ∧ c ≠ '&')
    (hr : ∀ b ∈ r.head?, isPlainText b = false) (acc : Option (List Char)) :
    (Scanner.between .endOfInput names (encode cs ++ r)).tokens acc
      = (Scanner.between .endOfInput names r).tokens (some (acc.getD [] ++ cs)) := by
  have hx := isPlainText_encode h
  have hne' : encode cs ≠ [] := fun he => hne (Utf8.encode_eq_nil_iff.mp he)
  have hpiece : (Event.text (encode cs)).piece = .ok (.chars cs) := by
    simp [Event.piece, decodeText, Except.map]
  cases r with
  | nil =>
      rw [List.append_nil, Scanner.tokens_chars (next_text_end hne' hx names) hpiece,
        Scanner.tokens_stop rfl, Scanner.tokens_stop rfl]
  | cons a r => exact Scanner.tokens_chars (next_text hne' hx (hr a rfl) _ names) hpiece

/-- Characters that stand for themselves join the text, whatever follows
them. -/
theorem tokens_raw {cs ds : List Char} (hne : cs ≠ []) (h : ∀ c ∈ cs, c ≠ '<' ∧ c ≠ '&')
    (acc : Option (List Char)) :
    (Scanner.between .endOfInput names (encode (cs ++ ds))).tokens acc
      = (Scanner.between .endOfInput names (encode ds)).tokens (some (acc.getD [] ++ cs)) := by
  let p : Char → Bool := fun c => c != '<' && c != '&'
  have hsplit : ds = ds.takeWhile p ++ ds.dropWhile p := List.takeWhile_append_dropWhile.symm
  have hrun : ∀ c ∈ ds.takeWhile p, c ≠ '<' ∧ c ≠ '&' := by
    intro c hc
    have := List.all_takeWhile (p := p) (l := ds)
    rw [List.all_eq_true] at this
    simpa [p] using this c hc
  have hrest : ∀ b ∈ (encode (ds.dropWhile p)).head?, isPlainText b = false := by
    have hd := List.head?_dropWhile_not p ds
    intro b hb
    cases hc : ds.dropWhile p with
    | nil => rw [hc] at hb; cases hb
    | cons c rest =>
        rw [hc] at hd hb
        have hc' : c = '<' ∨ c = '&' := by
          simpa [p, Decidable.or_iff_not_imp_left] using hd
        rcases hc' with rfl | rfl
        all_goals
          rw [encode_cons, Utf8.utf8EncodeChar_of_lt (by decide)] at hb
          cases hb
          rfl
  generalize ds.takeWhile p = run at hsplit hrun
  generalize ds.dropWhile p = rest at hsplit hrest
  subst hsplit
  by_cases hrun' : run = []
  · subst hrun'
    rw [List.nil_append, encode_append]
    exact tokens_run hne h hrest acc
  · have hboth : ∀ c ∈ cs ++ run, c ≠ '<' ∧ c ≠ '&' := by
      intro c hc
      rcases List.mem_append.mp hc with hc | hc
      · exact h c hc
      · exact hrun c hc
    rw [← List.append_assoc, encode_append (cs ++ run), tokens_run (by simp [hne]) hboth hrest,
      encode_append run, tokens_run hrun' hrun hrest]
    simp

/-! ## References -/

theorem digits?_eq_number {base : Nat} {digit? : Char → Option Nat} {ds : List Char}
    (h : ∀ d ∈ ds, digit? d = some (digitValue d)) (acc : Nat) :
    Numeral.digits? base digit? acc ds
      = some (ds.foldl (fun n d => n * base + digitValue d) acc) := by
  induction ds generalizing acc with
  | nil => rfl
  | cons d ds ih =>
      rw [Numeral.digits?, h d List.mem_cons_self]
      exact ih (fun e he => h e (List.mem_cons_of_mem _ he)) _

theorem decimalDigit?_of_isDigit {d : Char} (h : d.isDigit = true) :
    Numeral.decimalDigit? d = some (digitValue d) := by
  have h' : ('0' ≤ d && d ≤ '9') = true := h
  rw [Numeral.decimalDigit?, if_pos h', digitValue, if_pos h]

theorem hexDigit?_of_isHexDigit {d : Char} (h : isHexDigit d = true) :
    Numeral.hexDigit? d = some (digitValue d) := by
  by_cases hd : d.isDigit = true
  · have h' : ('0' ≤ d && d ≤ '9') = true := hd
    rw [Numeral.hexDigit?, if_pos h', digitValue, if_pos hd]
  · have h' : ¬ ('0' ≤ d && d ≤ '9') = true := hd
    rw [Numeral.hexDigit?, if_neg h', digitValue, if_neg hd]
    by_cases hl : ('a' ≤ d && d ≤ 'f') = true
    · have hu : ¬ d.isUpper = true := by
        intro hu
        simp only [Bool.and_eq_true, decide_eq_true_eq] at hl
        exact absurd (Char.le_trans hl.1 (isUpper_iff.mp hu).2) (by decide)
      rw [if_pos hl, if_neg hu]
    · have hA : ('A' ≤ d && d ≤ 'F') = true := by
        simp only [isHexDigit, Bool.or_eq_true, hd, hl] at h
        simpa using h
      have hu : d.isUpper = true := by
        simp only [Bool.and_eq_true, decide_eq_true_eq] at hA
        exact isUpper_iff.mpr ⟨hA.1, Char.le_trans hA.2 (by decide)⟩
      rw [if_neg hl, if_pos hA, if_pos hu]

theorem decimal?_eq_number {ds : List Char} (hne : ds ≠ []) (h : ∀ d ∈ ds, d.isDigit = true) :
    Numeral.decimal? ds = some (number 10 ds) := by
  cases ds with
  | nil => exact absurd rfl hne
  | cons d ds => exact digits?_eq_number (fun e he => decimalDigit?_of_isDigit (h e he)) 0

theorem hex?_eq_number {ds : List Char} (hne : ds ≠ []) (h : ∀ d ∈ ds, isHexDigit d = true) :
    Numeral.hex? ds = some (number 16 ds) := by
  cases ds with
  | nil => exact absurd rfl hne
  | cons d ds => exact digits?_eq_number (fun e he => hexDigit?_of_isHexDigit (h e he)) 0

theorem scalar?_toNat (c : Char) : Reference.scalar? c.toNat = some c := by
  have h : c.toNat.isValidChar := c.valid
  have hc := Char.ofNat_toNat c
  rw [Char.ofNat, dif_pos h] at hc
  rw [Reference.scalar?, dif_pos h, hc]

theorem resolve?_entity {name : List Char} {c : Char} (h : (name, c) ∈ entities) :
    Reference.resolve? name = some c := by
  simp only [entities, List.mem_cons, Prod.mk.injEq, List.not_mem_nil, or_false] at h
  rcases h with ⟨rfl, rfl⟩ | ⟨rfl, rfl⟩ | ⟨rfl, rfl⟩ | ⟨rfl, rfl⟩ | ⟨rfl, rfl⟩ <;> rfl

theorem dropPlus_of_ne {ds : List Char} (h : '+' ∉ ds) : Numeral.dropPlus ds = ds := by
  unfold Numeral.dropPlus
  split
  · exact absurd List.mem_cons_self h
  · rfl

theorem resolve?_decimal {ds : List Char} {c : Char} (hne : ds ≠ [])
    (h : ∀ d ∈ ds, d.isDigit = true) (hc : number 10 ds = c.toNat) :
    Reference.resolve? ('#' :: ds) = some c := by
  have hplus : '+' ∉ ds := fun hm => absurd (h _ hm) (by decide)
  have hx : ∀ r, ds ≠ 'x' :: r := by
    rintro r rfl
    exact absurd (h _ List.mem_cons_self) (by decide)
  rw [Reference.resolve?.eq_2 _ hx, dropPlus_of_ne hplus, decimal?_eq_number hne h, hc]
  exact scalar?_toNat c

theorem resolve?_hex {ds : List Char} {c : Char} (hne : ds ≠ [])
    (h : ∀ d ∈ ds, isHexDigit d = true) (hc : number 16 ds = c.toNat) :
    Reference.resolve? ('#' :: 'x' :: ds) = some c := by
  have hplus : '+' ∉ ds := fun hm => absurd (h _ hm) (by decide)
  rw [Reference.resolve?, dropPlus_of_ne hplus, hex?_eq_number hne h, hc]
  exact scalar?_toNat c

theorem ne_of_mem_encode_name {name : List Char} (h : ∀ d ∈ name, d ≠ ';' ∧ d ≠ '&' ∧ d ≠ '<') :
    ∀ b ∈ encode name, b ≠ 0x3B ∧ b ≠ 0x26 ∧ b ≠ 0x3C := by
  intro b hb
  refine ⟨?_, ?_, ?_⟩
  all_goals rintro rfl
  · exact (h _ ((mem_encode_iff (by decide)).mp hb)).1 rfl
  · exact (h _ ((mem_encode_iff (by decide)).mp hb)).2.1 rfl
  · exact (h _ ((mem_encode_iff (by decide)).mp hb)).2.2 rfl

/-- A reference joins the text with its one character, whatever follows it. -/
theorem tokens_resolved {ending : Ending} {name : List Char} {c : Char}
    (hname : ∀ d ∈ name, d ≠ ';' ∧ d ≠ '&' ∧ d ≠ '<') (hc : Reference.resolve? name = some c)
    (acc : Option (List Char)) (r : Octets) :
    (Scanner.between ending names (0x26 :: (encode name ++ 0x3B :: r))).tokens acc
      = (Scanner.between ending names r).tokens (some (acc.getD [] ++ [c])) := by
  have hpiece : (Event.reference (encode name)).piece = .ok (.chars [c]) := by
    simp [Event.piece, resolve, decodeText, hc, bind, Except.bind, pure, Except.pure, Except.map]
  exact Scanner.tokens_chars (next_reference (ne_of_mem_encode_name hname)) hpiece

theorem tokens_reference {name : List Char} {c : Char}
    (hname : ∀ d ∈ name, d ≠ ';' ∧ d ≠ '&' ∧ d ≠ '<') (hc : Reference.resolve? name = some c)
    (acc : Option (List Char)) (ds : List Char) :
    (Scanner.between d names (encode ('&' :: name ++ [';'] ++ ds))).tokens acc
      = (Scanner.between d names (encode ds)).tokens (some (acc.getD [] ++ [c])) := by
  have hsplit : encode ('&' :: name ++ [';'] ++ ds)
      = 0x26 :: (encode name ++ 0x3B :: encode ds) := by
    simp [encode_append, encode_cons, Utf8.utf8EncodeChar_of_lt]
  rw [hsplit]
  exact tokens_resolved hname hc acc (encode ds)

/-! ## All tokens -/

theorem tokens_part {t cs : List Char} (h : PartRenders t cs) (ds : List Char)
    (acc : Option (List Char)) :
    (Scanner.between .endOfInput names (encode (cs ++ ds))).tokens acc
      = (Scanner.between .endOfInput names (encode ds)).tokens (some (acc.getD [] ++ t)) := by
  cases h with
  | run hne h => exact tokens_raw hne h acc
  | cdata h =>
      have hpiece : (Event.cdata (encode t)).piece = .ok (.chars t) := by
        simp [Event.piece, decodeText, Except.map]
      have hsplit :
          encode (['<', '!', '[', 'C', 'D', 'A', 'T', 'A', '['] ++ t ++ [']', ']', '>'] ++ ds)
          = 0x3C :: 0x21 :: ([0x5B, 0x43, 0x44, 0x41, 0x54, 0x41, 0x5B]
            ++ (encode t ++ 0x5D :: 0x5D :: 0x3E :: encode ds)) := by
        simp [encode_append, encode_cons, Utf8.utf8EncodeChar_of_lt]
      rw [hsplit]
      exact Scanner.tokens_chars (next_cdata h) hpiece
  | @entity name c h =>
      refine tokens_reference ?_ (resolve?_entity h) acc ds
      simp only [entities, List.mem_cons, Prod.mk.injEq, List.not_mem_nil, or_false] at h
      rcases h with ⟨rfl, rfl⟩ | ⟨rfl, rfl⟩ | ⟨rfl, rfl⟩ | ⟨rfl, rfl⟩ | ⟨rfl, rfl⟩ <;> simp
  | @decimal ds' c hne h hc =>
      refine tokens_reference ?_ (resolve?_decimal hne h hc) acc ds
      intro e he
      rcases List.mem_cons.mp he with rfl | he
      · decide
      · refine ⟨?_, ?_, ?_⟩ <;> (rintro rfl; exact absurd (h _ he) (by decide))
  | @hex ds' c hne h hc =>
      refine tokens_reference ?_ (resolve?_hex hne h hc) acc ds
      intro e he
      rcases List.mem_cons.mp he with rfl | he
      · decide
      · rcases List.mem_cons.mp he with rfl | he
        · decide
        · refine ⟨?_, ?_, ?_⟩ <;> (rintro rfl; exact absurd (h _ he) (by decide))

theorem tokens_text {t cs : List Char} (h : TextRenders t cs) (ds : List Char)
    (acc : Option (List Char)) :
    (Scanner.between .endOfInput names (encode (cs ++ ds))).tokens acc
      = (Scanner.between .endOfInput names (encode ds)).tokens (some (acc.getD [] ++ t)) := by
  induction h generalizing acc with
  | one h => exact tokens_part h ds acc
  | cons h _ ih =>
      rw [List.append_assoc, tokens_part h, ih]
      simp

theorem localName_encode {name : List Char} (h : IsName name) :
    localName (encode name) = encode name := by
  have hcolon : ∀ b ∈ encode name, (b != 0x3A) = true := by
    intro b hb
    rw [bne_iff_ne]
    rintro rfl
    exact absurd hb (h.not_mem (by decide) (by decide))
  have := dropWhile_run (r := []) hcolon (by simp)
  rw [List.append_nil] at this
  rw [localName, this]

theorem decodeName_encode {name : String} (h : IsName name.toList) :
    decodeName (encode name.toList) = .ok name := by
  simp [decodeName, localName_encode h]

theorem piece_startTag {name : String} (h : IsName name.toList) :
    (Event.startTag (encode name.toList)).piece = .ok (.token (.startTag name)) := by
  rw [Event.piece, decodeName_encode h]
  rfl

theorem piece_endTag {name : String} (h : IsName name.toList) :
    (Event.endTag (encode name.toList)).piece = .ok (.token (.endTag name)) := by
  rw [Event.piece, decodeName_encode h]
  rfl

/-- The tokens of a text inside elements of those names, the innermost
first. -/
def tokensIn (names : List String) (acc : Option (List Char)) (cs : List Char) : Stream :=
  (Scanner.between .endOfInput (names.map Utf8.encodeString) (encode cs)).tokens acc

section TokensIn

variable {name : String} {attributes blanks cs : List Char} (hn : IsName name.toList)
  (ha : Attributes attributes) (hb : IsBlanks blanks) (names : List String)
  (acc : Option (List Char))

include hn hb

include ha in
theorem tokensIn_startTag :
    tokensIn names acc ('<' :: name.toList ++ attributes ++ blanks ++ '>' :: cs)
      = Stream.after (gathered acc ++ [.startTag name]) (tokensIn (name :: names) none cs) := by
  have hsplit : encode ('<' :: name.toList ++ attributes ++ blanks ++ '>' :: cs)
      = 0x3C :: (encode name.toList ++ (encode (attributes ++ blanks) ++ 0x3E :: encode cs)) := by
    simp [encode_append, encode_cons, Utf8.utf8EncodeChar_of_lt]
  rw [tokensIn, hsplit]
  exact Scanner.tokens_token (next_startTag hn ha hb) (piece_startTag hn)

theorem tokensIn_endTag :
    tokensIn (name :: names) acc ('<' :: '/' :: name.toList ++ blanks ++ '>' :: cs)
      = Stream.after (gathered acc ++ [.endTag name]) (tokensIn names none cs) := by
  have hsplit : encode ('<' :: '/' :: name.toList ++ blanks ++ '>' :: cs)
      = 0x3C :: 0x2F :: (encode name.toList ++ (encode blanks ++ 0x3E :: encode cs)) := by
    simp [encode_append, encode_cons, Utf8.utf8EncodeChar_of_lt]
  rw [tokensIn, hsplit]
  exact Scanner.tokens_token (next_endTag hn hb) (piece_endTag hn)

include ha in
/-- The end tag comes without any octets of its own. -/
theorem tokensIn_selfClosed :
    tokensIn names acc ('<' :: name.toList ++ attributes ++ blanks ++ '/' :: '>' :: cs)
      = Stream.after (gathered acc ++ [.startTag name])
        (Stream.after [.endTag name] (tokensIn names none cs)) := by
  have hsplit : encode ('<' :: name.toList ++ attributes ++ blanks ++ '/' :: '>' :: cs)
      = 0x3C :: (encode name.toList
        ++ (encode (attributes ++ blanks) ++ 0x2F :: 0x3E :: encode cs)) := by
    simp [encode_append, encode_cons, Utf8.utf8EncodeChar_of_lt]
  have hend : (Scanner.mk (.selfClosed (encode name.toList)) (encode cs) .endOfInput
        (names.map Utf8.encodeString) true).next
      = (.ok (.endTag (encode name.toList)),
        Scanner.between .endOfInput (names.map Utf8.encodeString) (encode cs)) := rfl
  rw [tokensIn, hsplit, Scanner.tokens_token (next_selfClosed hn ha hb) (piece_startTag hn),
    Scanner.tokens_token hend (piece_endTag hn)]
  rfl

end TokensIn

theorem tokensIn_declaration {name body cs : List Char} (hn : IsName name)
    (hbody : ∀ c ∈ body, c ≠ '?' ∧ c ≠ '>') (names : List String) (acc : Option (List Char)) :
    tokensIn names acc ('<' :: '?' :: name ++ body ++ '?' :: '>' :: cs)
      = Stream.after (gathered acc ++ [.declaration]) (tokensIn names none cs) := by
  have hsplit : encode ('<' :: '?' :: name ++ body ++ '?' :: '>' :: cs)
      = 0x3C :: 0x3F :: (encode name ++ (encode body ++ 0x3F :: 0x3E :: encode cs)) := by
    simp [encode_append, encode_cons, Utf8.utf8EncodeChar_of_lt]
  rw [tokensIn, hsplit]
  exact Scanner.tokens_token (next_declaration hn hbody) rfl

theorem after_gathered (acc : Option (List Char)) (t : Token) (ts : List Token) :
    Stream.after (gathered acc ++ [t]) (gathered none ++ ts, none)
      = (gathered acc ++ t :: ts, none) := by
  simp [Stream.after, gathered]

/-- Text gathered before comes first, unless a text follows, which it would
join. -/
theorem tokens_renders {ts : List Token} {cs : List Char} (h : Renders ts cs) :
    ∀ (names : List String) (acc : Option (List Char)), WellNested names ts → Separate ts →
      (acc ≠ none → ∀ s, ts.head? ≠ some (.text s)) →
      tokensIn names acc cs = (gathered acc ++ ts, none) := by
  induction h with
  | nil =>
      intro names acc _ _ _
      rw [tokensIn, Scanner.tokens_stop rfl, List.append_nil]
  | @startTag name attributes blanks cs ts hn ha hb _ ih =>
      intro names acc hw hs _
      have hts : Separate ts := hs.of_infix (List.suffix_cons _ ts).isInfix
      rw [tokensIn_startTag hn ha hb, ih (name :: names) none hw hts (by simp)]
      exact after_gathered acc _ ts
  | @endTag name blanks cs ts hn hb _ ih =>
      intro names acc hw hs _
      cases names with
      | nil => exact hw.elim
      | cons opened names =>
          obtain ⟨rfl, hw⟩ := hw
          have hts : Separate ts := hs.of_infix (List.suffix_cons _ ts).isInfix
          rw [tokensIn_endTag hn hb, ih names none hw hts (by simp)]
          exact after_gathered acc _ ts
  | @selfClosed name attributes blanks cs ts hn ha hb _ ih =>
      intro names acc hw hs _
      have hts : Separate ts :=
        hs.of_infix ((List.suffix_cons _ ts).trans (List.suffix_cons _ _)).isInfix
      rw [tokensIn_selfClosed hn ha hb, ih names none hw.2 hts (by simp)]
      exact after_gathered acc _ (.endTag name :: ts)
  | @declaration name body cs ts hn hbody _ ih =>
      intro names acc hw hs _
      have hts : Separate ts := hs.of_infix (List.suffix_cons _ ts).isInfix
      have hw' : WellNested names ts := by cases names <;> exact hw
      rw [tokensIn_declaration hn hbody, ih names none hw' hts (by simp)]
      exact after_gathered acc _ ts
  | @text s cs ds ts ht _ ih =>
      intro names acc hw hs hacc
      have hnone : acc = none := by
        cases acc with
        | none => rfl
        | some t => exact absurd rfl (hacc (Option.some_ne_none t) s)
      have hnext : ∀ s', ts.head? ≠ some (.text s') := by
        intro s' hs'
        obtain ⟨us, rfl⟩ := List.head?_eq_some_iff.mp hs'
        exact hs s s' ⟨[], us, rfl⟩
      have hts : Separate ts := hs.of_infix (List.suffix_cons _ ts).isInfix
      have hw' : WellNested names ts := by cases names <;> exact hw
      have hrest := ih names (some s.toList) hw' hts fun _ => hnext
      rw [tokensIn, tokens_text ht, hnone]
      exact hrest.trans (by simp [gathered])

theorem dropMark_encode {cs : List Char} (h : cs.head? ≠ some '\uFEFF') :
    Scanner.dropMark (encode cs) = encode cs := by
  unfold Scanner.dropMark
  split
  · rename_i r hr
    have hd : Utf8.decode (encode ['\uFEFF'] ++ r) = .ok cs := by
      rw [← Utf8.decode_encode cs, hr]
      rfl
    obtain ⟨ds, rfl⟩ := Utf8.decode_prefix (Utf8.decode_encode ['\uFEFF']) hd
    exact absurd rfl h
  · rfl

theorem tokens_encode {cs : List Char} (h : cs.head? ≠ some '\uFEFF') :
    (TokenReader.ofSource (.ofOctets (encode cs))).tokens = tokensIn [] none cs := by
  rw [tokens_ofSource_eq, Scanner.tokens_ofSource]
  show (Scanner.between .endOfInput [] (Scanner.dropMark (encode cs))).tokens none = _
  rw [dropMark_encode h]
  rfl

/-- Reading gives back the tokens, whichever way they are written. -/
theorem tokens_of_renders {ts : List Token} {cs : List Char} (h : Renders ts cs)
    (hw : WellNested [] ts) (hs : Separate ts) (hm : cs.head? ≠ some '\uFEFF') :
    (TokenReader.ofSource (.ofOctets (encode cs))).tokens = (ts, none) := by
  rw [tokens_ofSource_eq, Scanner.tokens_ofSource]
  show (Scanner.between .endOfInput [] (Scanner.dropMark (encode cs))).tokens none = _
  rw [dropMark_encode hm]
  exact tokens_renders h [] none hw hs (by simp)

/-- A declaration, an attribute, all parts of a text and an empty element. -/
theorem tokens_of_renders_mixed :
    (TokenReader.ofSource (.ofOctets (encode
        "<?xml version=\"1.0\"?><a k=\"1\" >x&lt;&#65;&#x4b;<![CDATA[<b]]><b\t/></a\n>".toList))).tokens
      = ([.declaration, .startTag "a", .text "x<AK<b", .startTag "b", .endTag "b", .endTag "a"],
        none) := by
  have ha : IsName "a".toList := @isName_cons 'a' [] rfl rfl
  have hb : IsName "b".toList := @isName_cons 'b' [] rfl rfl
  have hxml : IsName "xml".toList := @isName_cons 'x' ['m', 'l'] rfl rfl
  have hk : Attributes " k=\"1\"".toList :=
    @Attributes.cons [' '] ['k'] ['1'] [] (by simp) (by simp [IsBlanks])
      (@isName_cons 'k' [] rfl rfl) (by simp) .nil
  have htext : TextRenders "x<AK<b".toList "x&lt;&#65;&#x4b;<![CDATA[<b]]>".toList :=
    .cons (@PartRenders.run ['x'] (by simp) (by simp))
      (.cons (@PartRenders.entity ['l', 't'] '<' (by simp [entities]))
        (.cons (@PartRenders.decimal ['6', '5'] 'A' (by simp) (by simp) rfl)
          (.cons (@PartRenders.hex ['4', 'b'] 'K' (by simp) (by simp [isHexDigit]) rfl)
            (.one (@PartRenders.cdata ['<', 'b'] (by decide))))))
  have hend := @Renders.endTag "a" ['\n'] [] [] ha (by simp [IsBlanks]) .nil
  have hempty := @Renders.selfClosed "b" [] ['\t'] _ _ hb .nil (by simp [IsBlanks]) hend
  have hstart := @Renders.startTag "a" _ [' '] _ _ ha hk (by simp [IsBlanks]) (.text htext hempty)
  have h := @Renders.declaration _ " version=\"1.0\"".toList _ _ hxml (by simp) hstart
  refine tokens_of_renders h ⟨rfl, rfl, trivial⟩ ?_ (by decide)
  refine separate_cons_of_ne (by simp) (separate_cons_of_ne (by simp) ?_)
  refine separate_cons_cons (by simp) (separate_cons_of_ne (by simp) ?_)
  exact separate_cons_of_ne (by simp) (separate_singleton _)

end Markup

end XmlRpc
