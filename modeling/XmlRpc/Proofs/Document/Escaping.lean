/-
# Texts in documents

The strings, the names of members and the names of methods are the texts of a
document, and nothing else is (`Value.texts`).  A text that holds none of the
five characters is written as it is, without being escaped.  That cannot be seen
from outside: what is written is the escaped text in any case, from which the
text is read again, and which no other text has.
-/
import XmlRpc.Proofs.Document.Writing
import XmlRpc.Proofs.Text.Escaping

namespace XmlRpc

namespace Document

/-! ## The scan for special characters -/

/-- Whether an octet is one of the five characters with a name. -/
def isSpecialOctet (b : UInt8) : Bool :=
  b == 0x3C || b == 0x3E || b == 0x26 || b == 0x27 || b == 0x22

theorem exists_octet_of_isSpecial {c : Char} (h : Reference.isSpecial c = true) :
    ∃ b : UInt8, b.toNat < 0x80 ∧ isSpecialOctet b = true ∧ Char.ofNat b.toNat = c := by
  unfold Reference.isSpecial Reference.name? at h
  split at h
  · exact ⟨0x3C, by decide, rfl, rfl⟩
  · exact ⟨0x3E, by decide, rfl, rfl⟩
  · exact ⟨0x26, by decide, rfl, rfl⟩
  · exact ⟨0x27, by decide, rfl, rfl⟩
  · exact ⟨0x22, by decide, rfl, rfl⟩
  · cases h

theorem isSpecial_of_octet {b : UInt8} (h : isSpecialOctet b = true) :
    b.toNat < 0x80 ∧ Reference.isSpecial (Char.ofNat b.toNat) = true := by
  simp only [isSpecialOctet, Bool.or_eq_true, beq_iff_eq] at h
  rcases h with (((rfl | rfl) | rfl) | rfl) | rfl
  all_goals exact ⟨by decide, rfl⟩

/-- The five characters are found among the octets of a text, whatever other
characters it holds. -/
theorem needsEscape_eq (cs : List Char) : needsEscape cs = (Utf8.encode cs).any isSpecialOctet := by
  rw [Bool.eq_iff_iff, needsEscape, List.any_eq_true, List.any_eq_true]
  constructor
  · rintro ⟨c, hc, hspecial⟩
    obtain ⟨b, hlt, hb, rfl⟩ := exists_octet_of_isSpecial hspecial
    exact ⟨b, (Utf8.mem_encode_iff hlt).mpr hc, hb⟩
  · rintro ⟨b, hb, hspecial⟩
    obtain ⟨hlt, hc⟩ := isSpecial_of_octet hspecial
    exact ⟨_, (Utf8.mem_encode_iff hlt).mp hb, hc⟩

/-! ## Texts and steps -/

mutual

/-- The texts that a step writes, with the elements they stand in. -/
def Step.texts : Step → List (Tag × List Char)
  | .declaration => []
  | .raw _ _ => []
  | .text tag body => [(tag, body)]
  | .element _ body => textsOf body

def textsOf : List Step → List (Tag × List Char)
  | [] => []
  | s :: ss => s.texts ++ textsOf ss

end

mutual

/-- A step that writes each text as escaped characters. -/
def Step.escaped : Step → Step
  | .declaration => .declaration
  | .raw tag body => .raw tag body
  | .text tag body => .raw tag (Reference.escape body)
  | .element tag body => .element tag (escapedAll body)

def escapedAll : List Step → List Step
  | [] => []
  | s :: ss => s.escaped :: escapedAll ss

end

mutual

theorem Step.pieces_escaped (s : Step) : s.escaped.pieces = s.pieces := by
  cases s with
  | declaration => rfl
  | raw tag body => rfl
  | text tag body => rw [Step.escaped, Step.pieces, Step.pieces, textBody_eq]
  | element tag body =>
      have hbody := piecesOf_escapedAll body
      rw [Step.escaped, Step.pieces, Step.pieces, hbody]

/-- Whether the texts are escaped cannot be seen in what is written. -/
theorem piecesOf_escapedAll (ss : List Step) : piecesOf (escapedAll ss) = piecesOf ss := by
  cases ss with
  | nil => rfl
  | cons s ss =>
      have hs := Step.pieces_escaped s
      have hss := piecesOf_escapedAll ss
      rw [escapedAll, piecesOf, piecesOf, hs, hss]

end

end Document

/-! ## The texts of messages -/

namespace Value

open Document

mutual

/-- The strings inside a value and the names of its members, in the order in
which they are written. -/
def texts : Value → List (Tag × List Char)
  | .string s => [(.string, s.toList)]
  | .array items => textsOfItems items
  | .struct members => textsOfMembers members
  | _ => []
termination_by structural v => v

@[inherit_doc texts]
def textsOfItems : List Value → List (Tag × List Char)
  | [] => []
  | v :: vs => texts v ++ textsOfItems vs
termination_by structural vs => vs

@[inherit_doc texts]
def textsOfMembers : List Member → List (Tag × List Char)
  | [] => []
  | ⟨name, v⟩ :: ms => (.name, name.toList) :: (texts v ++ textsOfMembers ms)
termination_by structural ms => ms

end

end Value

namespace Document

open Markup (TokenReader)

mutual

theorem texts_valueStep (v : Value) : (valueStep v).texts = v.texts := by
  cases v with
  | array items =>
      have hitems := textsOf_itemSteps items
      simp only [valueStep, Step.texts, textsOf, List.append_nil, hitems, Value.texts]
  | struct members =>
      have hmembers := textsOf_memberSteps members
      simp only [valueStep, Step.texts, textsOf, List.append_nil, hmembers, Value.texts]
  | _ => rfl

theorem textsOf_itemSteps (vs : List Value) : textsOf (itemSteps vs) = Value.textsOfItems vs := by
  cases vs with
  | nil => rfl
  | cons v vs =>
      have hv := texts_valueStep v
      have hvs := textsOf_itemSteps vs
      rw [itemSteps, textsOf, Value.textsOfItems, hv, hvs]

theorem textsOf_memberSteps (ms : List Member) :
    textsOf (memberSteps ms) = Value.textsOfMembers ms := by
  cases ms with
  | nil => rfl
  | cons m ms =>
      cases m with
      | mk name v =>
          have hv := texts_valueStep v
          have hms := textsOf_memberSteps ms
          rw [memberSteps, textsOf, Value.textsOfMembers, hms]
          simp [Step.texts, textsOf, hv]

end

theorem texts_paramsStep (params : Params) :
    (paramsStep params).texts = params.flatMap Value.texts := by
  rw [paramsStep, Step.texts]
  induction params with
  | nil => rfl
  | cons v vs ih =>
      have hv := texts_valueStep v
      rw [List.map_cons, textsOf, ih, List.flatMap_cons, Step.texts, textsOf, textsOf, hv,
        List.append_nil]

theorem textsOf_callSteps (c : Call) :
    textsOf (callSteps c) = (.methodName, c.method.toList) :: c.params.flatMap Value.texts := by
  have hparams := texts_paramsStep c.params
  simp [callSteps, textsOf, Step.texts, hparams]

theorem textsOf_responseSteps (r : Response) :
    textsOf (responseSteps r)
      = if r.isFault then r.fault.texts else r.params.flatMap Value.texts := by
  have hparams := texts_paramsStep r.params
  have hfault := texts_valueStep r.fault
  rw [responseSteps]
  split
  · simp [textsOf, Step.texts, hfault]
  · simp [textsOf, Step.texts, hparams]

/-! ## Texts as they are written -/

/-- How a text is written between two tags, as seen from outside. -/
structure SafelyWritten (tag : Tag) (s : List Char) : Prop where
  /-- A scan of the octets tells whether the text is escaped. -/
  scanned : needsEscape s = (Utf8.encode s).any isSpecialOctet
  /-- What is written is the escaped text in any case. -/
  escaped : (Step.text tag s).pieces = (Step.raw tag (Reference.escape s)).pieces
  /-- It is so wherever the pieces go, also if not all of them are taken. -/
  put : ∀ (σ : Type) (put : σ → Octets → Progress σ) (sink : σ),
    (Step.text tag s).putTo put sink = (Step.raw tag (Reference.escape s)).putTo put sink
  /-- There are no tags and no quotes in it. -/
  bare : ∀ c ∈ textBody s, c ≠ '<' ∧ c ≠ '>' ∧ c ≠ '"' ∧ c ≠ '\''
  /-- An ampersand begins one of the five references. -/
  references : ∀ l r, textBody s = l ++ '&' :: r →
    ∃ n c rest, (n, c) ∈ Markup.entities ∧ r = n ++ ';' :: rest
  /-- It says that text and no other. -/
  reads : ∀ t, Reference.Reads (textBody s) t ↔ t = s
  /-- The reader of tokens finds that text in it. -/
  tokens : (TokenReader.ofSource (.ofOctets (render [.text tag s]))).tokens
    = (startOf tag :: (textTokens s ++ [endOf tag]), none)
  /-- No other text is written so. -/
  injective : ∀ t, Utf8.encode (textBody s) = Utf8.encode (textBody t) ↔ s = t

theorem safelyWritten (tag : Tag) (s : List Char) : SafelyWritten tag s where
  scanned := needsEscape_eq s
  escaped := by rw [Step.pieces, Step.pieces, textBody_eq]
  put := by
    intro σ put sink
    rw [Step.putTo, Step.putTo, textBody_eq]
  bare := by
    intro c hc
    rw [textBody_eq] at hc
    have hne {d : Char} (hd : Reference.isSpecial d = true) (hand : d ≠ '&') : c ≠ d := by
      rintro rfl
      exact hand (Reference.eq_of_mem_escape hc hd)
    exact ⟨hne rfl (by decide), hne rfl (by decide), hne rfl (by decide), hne rfl (by decide)⟩
  references := by
    intro l r h
    rw [textBody_eq] at h
    obtain ⟨c, n, rest, hname, hr⟩ := Reference.reference_of_escape h
    exact ⟨n, c, rest, mem_entities_of_name? hname, hr⟩
  reads := by
    intro t
    rw [textBody_eq]
    exact Reference.reads_escape_iff
  tokens := by
    have htokens := @tokens_render [.text tag s] ⟨trivial, trivial⟩
    rw [htokens, tokensOf, tokensOf, List.append_nil, Step.tokens]
  injective := by
    intro t
    rw [Utf8.encode_inj, textBody_eq, textBody_eq, Reference.escape_inj]

/-- Every text is written safely, and the texts of a message are its strings, the
names of its members and the name of its method.  It makes no difference to any
document whether only those texts are escaped that need it. -/
theorem texts_safely_written :
    (∀ tag s, SafelyWritten tag s) ∧
    (∀ ss, piecesOf (escapedAll ss) = piecesOf ss) ∧
    (∀ v, textsOf [valueStep v] = v.texts) ∧
    (∀ c, textsOf (callSteps c) = (.methodName, c.method.toList) :: c.params.flatMap Value.texts) ∧
    (∀ r, textsOf (responseSteps r)
      = if r.isFault then r.fault.texts else r.params.flatMap Value.texts) := by
  refine ⟨safelyWritten, piecesOf_escapedAll, ?_, textsOf_callSteps, textsOf_responseSteps⟩
  intro v
  rw [textsOf, textsOf, List.append_nil, texts_valueStep]

/-- A text that looks like a reference, and the end of a section. -/
example : textBody "&lt; ]]>".toList = "&amp;lt; ]]&gt;".toList := by decide

end Document

end XmlRpc
