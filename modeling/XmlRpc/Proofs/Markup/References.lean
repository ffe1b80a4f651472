/-
# References

What a reference in text stands for:

    &lt; &gt; &amp; &apos; &quot;    one of five characters
    &#⟨digits⟩;                      the character of a decimal number
    &#x⟨digits⟩;                     the character of a hexadecimal number

There is at least one digit, and any number of them, and the number is that of a
character.  Here a plus sign may stand before the digits, which no reference of
markup has; otherwise the references that are resolved are just those
(`resolve?_eq_some_iff`, `names_markup_iff`).

A reference is met where scanning comes to it between events (`Meets`), that is
in text and not in a tag or a section.  Then either its character joins the text
and scanning goes on behind it, or there are no further tokens, and the problem
is that reference (`Meets.tokens`).  A reference is to blame exactly if it is met
and stands for nothing (`blamed_iff`).
-/
import XmlRpc.Proofs.Markup.Advance
import XmlRpc.Proofs.Markup.Rendering
import XmlRpc.Proofs.Text.Digits

namespace XmlRpc

namespace Markup

/-! ## What references stand for -/

/-- What a reference stands for if its digits may have those signs before
them. -/
inductive Names (signs : List (List Char)) : List Char → Char → Prop where
  | entity {name : List Char} {c : Char} : (name, c) ∈ entities → Names signs name c
  | decimal {sign ds : List Char} {c : Char} : sign ∈ signs → ds ≠ [] →
      (∀ d ∈ ds, d.isDigit = true) → number 10 ds = c.toNat → Names signs ('#' :: (sign ++ ds)) c
  | hex {sign ds : List Char} {c : Char} : sign ∈ signs → ds ≠ [] →
      (∀ d ∈ ds, isHexDigit d = true) → number 16 ds = c.toNat →
      Names signs ('#' :: 'x' :: (sign ++ ds)) c

/-- No sign, or a plus sign. -/
def plusAllowed : List (List Char) := [[], ['+']]

variable {r ds : List Char} {c d : Char} {n acc : Nat}

theorem mem_plusAllowed : r ∈ plusAllowed ↔ r = [] ∨ r = ['+'] := by
  simp [plusAllowed]

theorem of_decimalDigit? (h : Numeral.decimalDigit? d = some n) :
    d.isDigit = true ∧ digitValue d = n := by
  by_cases hd : d.isDigit = true
  · rw [decimalDigit?_of_isDigit hd] at h
    exact ⟨hd, Option.some.inj h⟩
  · rw [Numeral.decimalDigit?_of_not_isDigit hd] at h
    cases h

theorem of_hexDigit? (h : Numeral.hexDigit? d = some n) :
    isHexDigit d = true ∧ digitValue d = n := by
  by_cases hd : isHexDigit d = true
  · rw [hexDigit?_of_isHexDigit hd] at h
    exact ⟨hd, Option.some.inj h⟩
  · simp only [isHexDigit, Bool.or_eq_true, not_or] at hd
    obtain ⟨⟨hdigit, hlower⟩, hupper⟩ := hd
    have hnone : ¬ ('0' ≤ d && d ≤ '9') = true := hdigit
    rw [Numeral.hexDigit?, if_neg hnone, if_neg hlower, if_neg hupper] at h
    cases h

theorem of_digits? {base : Nat} {digit? : Char → Option Nat} {P : Char → Prop}
    (hdigit : ∀ d n, digit? d = some n → P d ∧ digitValue d = n)
    (h : Numeral.digits? base digit? acc ds = some n) :
    (∀ d ∈ ds, P d) ∧ ds.foldl (fun n d => n * base + digitValue d) acc = n := by
  induction ds generalizing acc with
  | nil =>
      cases h
      exact ⟨List.forall_mem_nil _, rfl⟩
  | cons d ds ih =>
      rw [Numeral.digits?] at h
      cases hd : digit? d with
      | none =>
          rw [hd] at h
          cases h
      | some m =>
          rw [hd] at h
          obtain ⟨hp, rfl⟩ := hdigit d m hd
          obtain ⟨hall, hfold⟩ := ih h
          exact ⟨List.forall_mem_cons.mpr ⟨hp, hall⟩, hfold⟩

theorem of_decimal? (h : Numeral.decimal? ds = some n) :
    ds ≠ [] ∧ (∀ d ∈ ds, d.isDigit = true) ∧ number 10 ds = n := by
  cases ds with
  | nil => cases h
  | cons d ds => exact ⟨List.cons_ne_nil d ds, of_digits? (fun _ _ => of_decimalDigit?) h⟩

theorem of_hex? (h : Numeral.hex? ds = some n) :
    ds ≠ [] ∧ (∀ d ∈ ds, isHexDigit d = true) ∧ number 16 ds = n := by
  cases ds with
  | nil => cases h
  | cons d ds => exact ⟨List.cons_ne_nil d ds, of_digits? (fun _ _ => of_hexDigit?) h⟩

theorem toNat_of_scalar? (h : Reference.scalar? n = some c) : n = c.toNat := by
  by_cases hn : n.isValidChar
  · have hnumber := Utf8.toNat_ofNat hn
    rw [Char.ofNat, dif_pos hn] at hnumber
    rw [Reference.scalar?, dif_pos hn] at h
    rw [← Option.some.inj h, hnumber]
  · rw [Reference.scalar?, dif_neg hn] at h
    cases h

theorem exists_sign (r : List Char) : ∃ sign ∈ plusAllowed, r = sign ++ Numeral.dropPlus r := by
  unfold Numeral.dropPlus
  split
  · exact ⟨['+'], mem_plusAllowed.mpr (.inr rfl), rfl⟩
  · exact ⟨[], mem_plusAllowed.mpr (.inl rfl), rfl⟩

theorem names_of_resolve? (h : Reference.resolve? r = some c) : Names plusAllowed r c := by
  unfold Reference.resolve? at h
  split at h
  · rename_i r
    obtain ⟨n, hn, hc⟩ := Option.bind_eq_some_iff.mp h
    obtain ⟨hne, hdigits, hnumber⟩ := of_hex? hn
    obtain ⟨sign, hsign, hr⟩ := exists_sign r
    rw [hr]
    exact .hex hsign hne hdigits (hnumber.trans (toNat_of_scalar? hc))
  · rename_i r _
    obtain ⟨n, hn, hc⟩ := Option.bind_eq_some_iff.mp h
    obtain ⟨hne, hdigits, hnumber⟩ := of_decimal? hn
    obtain ⟨sign, hsign, hr⟩ := exists_sign r
    rw [hr]
    exact .decimal hsign hne hdigits (hnumber.trans (toNat_of_scalar? hc))
  · unfold Reference.ofName? at h
    split at h <;> cases h <;> exact .entity (by simp [entities])

theorem resolve?_of_names (h : Names plusAllowed r c) : Reference.resolve? r = some c := by
  cases h with
  | entity hmem => exact resolve?_entity hmem
  | @decimal sign ds c hsign hne hdigits hnumber =>
      rcases mem_plusAllowed.mp hsign with rfl | rfl
      · exact resolve?_decimal hne hdigits hnumber
      · show (Numeral.decimal? ds).bind Reference.scalar? = some c
        rw [decimal?_eq_number hne hdigits, hnumber]
        exact scalar?_toNat c
  | @hex sign ds c hsign hne hdigits hnumber =>
      rcases mem_plusAllowed.mp hsign with rfl | rfl
      · exact resolve?_hex hne hdigits hnumber
      · show (Numeral.hex? ds).bind Reference.scalar? = some c
        rw [hex?_eq_number hne hdigits, hnumber]
        exact scalar?_toNat c

theorem resolve?_eq_some_iff : Reference.resolve? r = some c ↔ Names plusAllowed r c :=
  ⟨names_of_resolve?, resolve?_of_names⟩

theorem not_mem_plus {p : Char → Bool} (hp : p '+' = false) (h : ∀ d ∈ ds, p d = true) :
    '+' ∉ ds := by
  intro hm
  rw [h _ hm] at hp
  cases hp

/-- The references of markup are those in which there is no plus sign. -/
theorem names_markup_iff : Names [[]] r c ↔ Names plusAllowed r c ∧ '+' ∉ r := by
  constructor
  · intro h
    cases h with
    | @entity name c hmem =>
        have hplus : ∀ e ∈ entities, '+' ∉ e.1 := by decide
        exact ⟨.entity hmem, hplus _ hmem⟩
    | decimal hsign hne hdigits hnumber =>
        cases List.mem_singleton.mp hsign
        refine ⟨.decimal (mem_plusAllowed.mpr (.inl rfl)) hne hdigits hnumber, ?_⟩
        simpa using not_mem_plus rfl hdigits
    | hex hsign hne hdigits hnumber =>
        cases List.mem_singleton.mp hsign
        refine ⟨.hex (mem_plusAllowed.mpr (.inl rfl)) hne hdigits hnumber, ?_⟩
        simpa using not_mem_plus rfl hdigits
  · rintro ⟨h, hplus⟩
    cases h with
    | entity hmem => exact .entity hmem
    | decimal hsign hne hdigits hnumber =>
        rcases mem_plusAllowed.mp hsign with rfl | rfl
        · exact .decimal (List.mem_singleton.mpr rfl) hne hdigits hnumber
        · exact absurd (by simp) hplus
    | hex hsign hne hdigits hnumber =>
        rcases mem_plusAllowed.mp hsign with rfl | rfl
        · exact .hex (List.mem_singleton.mpr rfl) hne hdigits hnumber
        · exact absurd (by simp) hplus

/-! ## Where references are met -/

/-- Whether scanning comes from one place to another, and by which tokens, with
the text gathered at either.  Places with the same next step are no different. -/
inductive Scans : Scanner → Option (List Char) → List Token → Scanner → Option (List Char) → Prop
  | here {s t : Scanner} {acc : Option (List Char)} : s.next = t.next → Scans s acc [] t acc
  | chars {s s' t : Scanner} {acc acc' : Option (List Char)} {e : Event} {cs : List Char}
      {ts : List Token} : s.next = (.ok e, s') → e.piece = .ok (.chars cs) →
      Scans s' (some (acc.getD [] ++ cs)) ts t acc' → Scans s acc ts t acc'
  | token {s s' t : Scanner} {acc acc' : Option (List Char)} {e : Event} {k : Token}
      {ts : List Token} : s.next = (.ok e, s') → e.piece = .ok (.token k) →
      Scans s' none ts t acc' → Scans s acc (gathered acc ++ [k] ++ ts) t acc'

theorem Scans.tokens {s t : Scanner} {acc acc' : Option (List Char)} {ts : List Token}
    (h : Scans s acc ts t acc') : s.tokens acc = Stream.after ts (t.tokens acc') := by
  induction h with
  | here hnext => rw [Stream.after_nil, Scanner.tokens_congr hnext]
  | chars hnext hpiece _ ih => rw [Scanner.tokens_chars hnext hpiece, ih]
  | token hnext hpiece _ ih =>
      rw [Scanner.tokens_token hnext hpiece, ih, Stream.after_after]

/-- A reference that is met: what is between its signs, the tokens before it and
the text gathered since, and what is left behind it. -/
structure Met where
  reference : List Char
  before : List Token
  text : Option (List Char)
  openNames : List Octets
  rest : Octets

/-- Whether scanning comes to a reference. -/
structure Meets (s : Scanner) (acc : Option (List Char)) (m : Met) : Prop where
  plain : ∀ c ∈ m.reference, c ≠ ';' ∧ c ≠ '&' ∧ c ≠ '<'
  scans : Scans s acc m.before
    (Scanner.between s.ending m.openNames (0x26 :: (Utf8.encode m.reference ++ 0x3B :: m.rest)))
    m.text

/-- What is delivered behind a reference that stands for a character. -/
def Met.goOn (m : Met) (d : Ending) (c : Char) : Stream :=
  (Scanner.between d m.openNames m.rest).tokens (some (m.text.getD [] ++ [c]))

variable {s : Scanner} {acc : Option (List Char)} {m : Met}

/-- The character of a reference joins the text, and a reference that stands for
nothing is the last that is scanned. -/
theorem Meets.tokens (h : Meets s acc m) :
    s.tokens acc = match Reference.resolve? m.reference with
      | some c => Stream.after m.before (m.goOn s.ending c)
      | none => (m.before, some (.unknownReference (String.ofList m.reference))) := by
  rw [h.scans.tokens]
  cases hc : Reference.resolve? m.reference with
  | some c => exact congrArg _ (tokens_resolved h.plain hc m.text m.rest)
  | none =>
      have hpiece : (Event.reference (Utf8.encode m.reference)).piece
          = .error (.unknownReference (String.ofList m.reference)) := by
        simp [Event.piece, resolve, decodeText, hc, bind, Except.bind, throw, throwThe,
          MonadExceptOf.throw, Except.map]
      rw [Scanner.tokens_badPiece (next_reference (ne_of_mem_encode_name h.plain)) hpiece]
      exact congrArg (·, _) (List.append_nil _)

theorem Meets.chars {s' : Scanner} {e : Event} {cs : List Char} (hnext : s.next = (.ok e, s'))
    (hpiece : e.piece = .ok (.chars cs)) (h : Meets s' (some (acc.getD [] ++ cs)) m) :
    Meets s acc m where
  plain := h.plain
  scans := .chars hnext hpiece ((Scanner.advances_of_next hnext).ending ▸ h.scans)

theorem Meets.token {s' : Scanner} {e : Event} {k : Token} (hnext : s.next = (.ok e, s'))
    (hpiece : e.piece = .ok (.token k)) (h : Meets s' none m) :
    Meets s acc { m with before := gathered acc ++ [k] ++ m.before } where
  plain := h.plain
  scans := .token hnext hpiece ((Scanner.advances_of_next hnext).ending ▸ h.scans)

/-! ## Steps at references -/

/-- Whether a step has to do with a reference: it is one, or a problem of one. -/
def Refers : Except Problem Event → Bool
  | .ok (.reference _) => true
  | .error (.unknownReference _) => true
  | _ => false

namespace Scanner

theorem refers_of_ofMarkup {x : Except Problem Event} (h : OfMarkup x = true) :
    Refers x = false := by
  unfold Refers
  split
  · cases h
  · cases h
  · rfl

theorem refers_text (s : Scanner) (b : UInt8) (r : Octets) : Refers (s.text b r).1 = false := by
  rw [text]
  split
  · split <;> rfl
  · rfl

inductive AtReference : Octets → Prop
  | mk {x r : Octets} : (∀ b ∈ x, b ≠ 0x3B ∧ b ≠ 0x26 ∧ b ≠ 0x3C) →
      AtReference (0x26 :: (x ++ 0x3B :: r))

theorem atReference_of_reference {s : Scanner} {r : Octets} (h : Refers (s.reference r).1 = true) :
    AtReference (0x26 :: r) := by
  have hsplit := List.takeWhile_append_dropWhile
    (p := fun b => b != 0x3B && b != 0x26 && b != 0x3C) (l := r)
  rw [reference] at h
  split at h
  · rw [refers_of_ofMarkup (ofMarkup_unfinished s rfl)] at h
    cases h
  · rename_i b after hdrop
    split at h
    · rename_i hb
      rw [hdrop, hb] at hsplit
      rw [← hsplit]
      refine .mk ?_
      intro b hb
      have hplain := List.all_eq_true.mp List.all_takeWhile b hb
      simpa [and_assoc] using hplain
    · cases h

theorem atReference_of_content {s : Scanner} {o : Octets} (h : Refers (s.content o).1 = true) :
    AtReference o := by
  unfold content at h
  split at h
  · split at h <;> cases h
  · split at h
    · rw [refers_of_ofMarkup (ofMarkup_markup s _)] at h
      cases h
    · split at h
      · rename_i b r _ hb
        rw [hb]
        exact atReference_of_reference h
      · rw [refers_text] at h
        cases h

/-- A step has to do with a reference only if that stands in front, and then it
is the step between events. -/
theorem atReference_of_next {s : Scanner} (hexpands : s.expandsEmpty = true)
    (h : Refers s.next.1 = true) :
    ∃ o, AtReference o ∧ s.next = (between s.ending s.openNames o).next := by
  obtain ⟨place, o, d, names, expands⟩ := s
  change expands = true at hexpands
  subst hexpands
  cases place with
  | content => exact ⟨o, atReference_of_content h, rfl⟩
  | selfClosed name => cases h
  | finished => cases h
  | start =>
      rw [next] at h ⊢
      dsimp only at h ⊢
      split at h
      · cases h
      · have hat := atReference_of_content h
        refine ⟨dropMark o, hat, ?_⟩
        generalize dropMark o = u at hat ⊢
        cases hat
        rfl

end Scanner

/-! ## Blame -/

theorem reference_of_piece {e : Event} {name : String}
    (h : e.piece = .error (.unknownReference name)) :
    ∃ cs, e = .reference (Utf8.encode cs) ∧ String.ofList cs = name ∧
      Reference.resolve? cs = none := by
  have hmap {α : Type} {x : Except Problem α} {f : α → Piece}
      (h : x.map f = .error (.unknownReference name)) : x = .error (.unknownReference name) := by
    cases x with
    | error p =>
        cases h
        rfl
    | ok a => cases h
  have htext (o : Octets) : decodeText o ≠ .error (.unknownReference name) := by
    unfold decodeText
    split <;> simp
  have hname (o : Octets) : decodeName o ≠ .error (.unknownReference name) := by
    unfold decodeName
    split <;> simp
  cases e with
  | text o => exact absurd (hmap h) (htext o)
  | cdata o => exact absurd (hmap h) (htext o)
  | startTag o => exact absurd (hmap h) (hname o)
  | endTag o => exact absurd (hmap h) (hname o)
  | reference o =>
      have hresolve := hmap h
      unfold resolve at hresolve
      cases hd : decodeText o with
      | error p =>
          rw [hd] at hresolve
          exact absurd (hd.trans hresolve) (htext o)
      | ok cs =>
          rw [hd] at hresolve
          dsimp only [bind, Except.bind] at hresolve
          cases hc : Reference.resolve? cs with
          | some c =>
              rw [hc] at hresolve
              cases hresolve
          | none =>
              rw [hc] at hresolve
              cases hresolve
              exact ⟨cs, by rw [(decodeText_eq_ok hd).eq_encode], rfl, hc⟩
  | emptyTag | instruction | comment | doctype | endOfInput => cases h

theorem next_of_refers {s : Scanner} (hexpands : s.expandsEmpty = true)
    (h : Refers s.next.1 = true) :
    ∃ x r, (∀ b ∈ x, b ≠ 0x3B ∧ b ≠ 0x26 ∧ b ≠ 0x3C) ∧
      s.next = (Scanner.between s.ending s.openNames (0x26 :: (x ++ 0x3B :: r))).next ∧
      s.next = (.ok (.reference x), Scanner.between s.ending s.openNames r) := by
  obtain ⟨o, hat, hnext⟩ := Scanner.atReference_of_next hexpands h
  cases hat with
  | @mk x r hx => exact ⟨x, r, hx, hnext, hnext.trans (next_reference hx)⟩

theorem plain_of_encode {cs : List Char}
    (h : ∀ b ∈ Utf8.encode cs, b ≠ 0x3B ∧ b ≠ 0x26 ∧ b ≠ 0x3C) :
    ∀ c ∈ cs, c ≠ ';' ∧ c ≠ '&' ∧ c ≠ '<' := by
  intro c hc
  refine ⟨?_, ?_, ?_⟩
  all_goals rintro rfl
  · exact (h 0x3B ((Utf8.mem_encode_iff (by decide)).mpr hc)).1 rfl
  · exact (h 0x26 ((Utf8.mem_encode_iff (by decide)).mpr hc)).2.1 rfl
  · exact (h 0x3C ((Utf8.mem_encode_iff (by decide)).mpr hc)).2.2 rfl

/-- By induction on the events left. -/
theorem exists_met {name : String} (acc : Option (List Char)) (s : Scanner)
    (hexpands : s.expandsEmpty = true) (h : (s.tokens acc).2 = some (.unknownReference name)) :
    ∃ m, Meets s acc m ∧ String.ofList m.reference = name ∧
      Reference.resolve? m.reference = none := by
  revert hexpands h
  refine Scanner.tokens_induction (motive := fun acc s st => s.expandsEmpty = true →
    st.2 = some (.unknownReference name) → ∃ m, Meets s acc m ∧
      String.ofList m.reference = name ∧ Reference.resolve? m.reference = none) ?_ ?_ ?_ ?_ ?_ acc s
  · intro acc s p s' hnext hexpands hp
    cases hp
    obtain ⟨x, r, -, -, hok⟩ := next_of_refers hexpands (by rw [hnext]; rfl)
    rw [hok] at hnext
    cases hnext
  · intro acc s e p s' hnext hpiece hexpands hp
    cases hp
    obtain ⟨cs, rfl, hname, hnone⟩ := reference_of_piece hpiece
    obtain ⟨x, r, hx, hbetween, hok⟩ := next_of_refers hexpands (by rw [hnext]; rfl)
    rw [hok] at hnext
    cases hnext
    have hmeets : Meets s acc ⟨cs, [], acc, s.openNames, r⟩ :=
      ⟨plain_of_encode hx, .here hbetween⟩
    exact ⟨_, hmeets, hname, hnone⟩
  · intro acc s e cs s' hnext hpiece ih hexpands hp
    have hstep := Scanner.advances_of_next hnext
    obtain ⟨m, hmeets, hblamed⟩ := ih (hstep.setting.trans hexpands) hp
    exact ⟨m, hmeets.chars hnext hpiece, hblamed⟩
  · intro acc s e k s' hnext hpiece ih hexpands hp
    have hstep := Scanner.advances_of_next hnext
    obtain ⟨m, hmeets, hblamed⟩ := ih (hstep.setting.trans hexpands) hp
    exact ⟨_, hmeets.token hnext hpiece, hblamed⟩
  · intro acc s s' _ _ hp
    cases hp

/-- A reference is to blame exactly if it is met and stands for nothing. -/
theorem blamed_iff {name : String} (hexpands : s.expandsEmpty = true) :
    (s.tokens acc).2 = some (.unknownReference name) ↔
      ∃ m, Meets s acc m ∧ String.ofList m.reference = name ∧
        Reference.resolve? m.reference = none := by
  refine ⟨exists_met acc s hexpands, ?_⟩
  rintro ⟨m, hmeets, rfl, hnone⟩
  rw [hmeets.tokens, hnone]

end Markup

end XmlRpc
