/-
# Texts of nothing

A text of nothing is a token like any other, and there is one way to write it:

    a run of text         holds an octet at least, and so a character
    a reference           is a character
    `<![CDATA[` … `]]>`   may hold nothing at all

So where a text of nothing is delivered, a CDATA section without content stands
in the source (`emptySection_of_mem_tokens`).
-/
import XmlRpc.Proofs.Markup.Advance
import XmlRpc.Proofs.Markup.Cut

namespace XmlRpc

namespace Markup

/-- What a CDATA section begins with, behind `<!`. -/
def sectionOpening : Octets := [0x5B, 0x43, 0x44, 0x41, 0x54, 0x41, 0x5B]

def sectionClosing : Octets := [0x5D, 0x5D, 0x3E]

def emptySection : Octets := 0x3C :: 0x21 :: (sectionOpening ++ sectionClosing)

/-! ## Events without characters -/

theorem eq_nil_of_decodeText {o : Octets} (h : decodeText o = .ok []) : o = [] := by
  cases decodeText_eq_ok h
  rfl

theorem ne_nil_of_resolve {o : Octets} {cs : List Char} (h : resolve o = .ok cs) : cs ≠ [] := by
  obtain ⟨name, c, -, -, rfl⟩ := resolve_eq_ok h
  exact List.cons_ne_nil c []

/-- Without characters are only texts and sections without octets. -/
theorem Event.eq_of_chars_nil {e : Event} (h : e.piece = .ok (.chars [])) :
    e = .text [] ∨ e = .cdata [] := by
  cases gives_of_piece h with
  | text hcs => exact .inl (congrArg Event.text (eq_nil_of_decodeText hcs))
  | cdata hcs => exact .inr (congrArg Event.cdata (eq_nil_of_decodeText hcs))
  | reference hcs => exact absurd rfl (ne_nil_of_resolve hcs)

/-! ## What begins with a delimiter -/

section Steps

variable {s s' : Scanner} {content after r : Octets} {e : Event}

theorem startTag_eq_ok (h : s.startTag content after = (.ok e, s')) :
    ∃ name, e = .startTag name ∨ e = .emptyTag name := by
  unfold Scanner.startTag at h
  split at h
  · dsimp only at h
    split at h
    · cases h
      exact ⟨_, .inl rfl⟩
    · cases h
      exact ⟨_, .inr rfl⟩
  · cases h
    exact ⟨_, .inl rfl⟩

theorem endTag_eq_ok (h : s.endTag content after = (.ok e, s')) : ∃ name, e = .endTag name := by
  unfold Scanner.endTag at h
  split at h
  · cases h
  · dsimp only at h
    split at h
    · cases h
      exact ⟨_, rfl⟩
    · cases h

theorem markup_eq_ok (h : s.markup r = (.ok e, s')) :
    (∃ r', r = 0x21 :: r' ∧ s.bang r' = (.ok e, s')) ∨ (∃ name, e = .endTag name) ∨
      e = .instruction ∨ ∃ name, e = .startTag name ∨ e = .emptyTag name := by
  unfold Scanner.markup at h
  split at h
  · exact absurd h unfinished_ne_ok
  · split at h
    · rename_i hb
      exact .inl ⟨_, congrArg (· :: _) hb, h⟩
    · split at h
      · split at h
        · exact absurd h unfinished_ne_ok
        · exact .inr (.inl (endTag_eq_ok h))
      · split at h
        · split at h
          · exact absurd h unfinished_ne_ok
          · split at h
            · cases h
            · cases h
              exact .inr (.inr (.inl rfl))
        · split at h
          · exact absurd h unfinished_ne_ok
          · exact .inr (.inr (.inr (startTag_eq_ok h)))

theorem reference_eq_ok (h : s.reference r = (.ok e, s')) : ∃ o, e = .reference o := by
  unfold Scanner.reference at h
  split at h
  · exact absurd h unfinished_ne_ok
  · split at h
    · cases h
      exact ⟨_, rfl⟩
    · cases h

theorem markup_nil (h : s.markup r = (.ok e, s')) (he : e.piece = .ok (.chars [])) :
    emptySection <+: 0x3C :: r := by
  rcases markup_eq_ok h with ⟨r', rfl, hbang⟩ | ⟨name, rfl⟩ | rfl | ⟨name, rfl | rfl⟩
  · rcases bang_eq_ok hbang with rfl | rfl | ⟨before, after, hcut, hpre, rfl, -⟩
    · cases he
    · cases he
    · obtain ⟨content, rfl⟩ := List.isPrefixOf_iff_prefix.mp hpre
      obtain ⟨rfl, -, -⟩ := cut_eq_some (by decide) hcut
      rcases Event.eq_of_chars_nil he with h | h
      · cases h
      · have hcontent : content = [] := Event.cdata.inj h
        rw [hcontent]
        exact ⟨after, rfl⟩
  · rcases Event.eq_of_chars_nil he with h | h <;> cases h
  · cases he
  · rcases Event.eq_of_chars_nil he with h | h <;> cases h
  · cases he

end Steps

/-! ## Tokens -/

/-- An event leaves a rest of the octets, and if it has no characters, it is a
section without content. -/
theorem next_between {d : Ending} {names : List Octets} {o : Octets} {e : Event} {x : Piece}
    {s : Scanner} (h : (Scanner.between d names o).next = (.ok e, s)) (hx : e.piece = .ok x) :
    s.place ≠ .start ∧ s.rest <:+ o ∧ (x = .chars [] → emptySection <:+: o) := by
  have hcontent : Place.content ≠ .start := Place.noConfusion
  have hfinished : Place.finished ≠ .start := Place.noConfusion
  cases o with
  | nil =>
      cases d with
      | broken message => cases h
      | endOfInput =>
          cases h
          cases hx
          refine ⟨hfinished, List.suffix_refl _, ?_⟩
          intro hnil
          cases hnil
  | cons b r =>
      cases hb : isPlainText b with
      | true =>
          obtain ⟨run, c, hsplit, hne, hplain, hc⟩ := next_of_plain (r := r) hb
          rw [hsplit, next_plain hne hplain hc] at h
          have hrun : x = .chars [] → e ≠ .text run := by
            rintro rfl rfl
            rcases Event.eq_of_chars_nil hx with h | h
            · exact hne (Event.text.inj h)
            · cases h
          cases c with
          | nil =>
              cases d with
              | broken message => cases h
              | endOfInput =>
                  cases h
                  exact ⟨hfinished, List.nil_suffix, fun hnil => absurd rfl (hrun hnil)⟩
          | cons a c =>
              cases h
              exact ⟨hcontent, ⟨run, hsplit.symm⟩, fun hnil => absurd rfl (hrun hnil)⟩
      | false =>
          have hb : b = 0x3C ∨ b = 0x26 := by
            simpa [isPlainText, Decidable.or_iff_not_imp_left] using hb
          obtain ⟨u, c, place, names', ho, rfl, hplace, -⟩ := takesWhole_of_next hb h hx
          refine ⟨?_, ⟨u, ho.symm⟩, ?_⟩
          · rcases hplace with rfl | ⟨name, rfl⟩
            · exact hcontent
            · exact Place.noConfusion
          · rintro rfl
            rcases hb with rfl | rfl
            · exact (markup_nil h hx).isInfix
            · obtain ⟨name, rfl⟩ := reference_eq_ok h
              rcases Event.eq_of_chars_nil hx with h | h <;> cases h

@[inherit_doc next_between]
theorem next_rest {s s' : Scanner} {e : Event} {x : Piece} (hplace : s.place ≠ .start)
    (hexpands : s.expandsEmpty = true) (h : s.next = (.ok e, s')) (hx : e.piece = .ok x) :
    s'.place ≠ .start ∧ s'.rest <:+ s.rest ∧ (x = .chars [] → emptySection <:+: s.rest) := by
  obtain ⟨place, o, d, names, expands⟩ := s
  change expands = true at hexpands
  subst hexpands
  cases place with
  | start => exact absurd rfl hplace
  | content => exact next_between h hx
  | selfClosed name =>
      cases h
      refine ⟨nofun, List.suffix_refl _, ?_⟩
      rintro rfl
      rcases Event.eq_of_chars_nil hx with h | h <;> cases h
  | finished =>
      cases h
      cases hx
      exact ⟨nofun, List.suffix_refl _, nofun⟩

theorem eq_of_mem_gathered {acc : Option (List Char)} (h : Token.text "" ∈ gathered acc) :
    acc = some [] := by
  cases acc with
  | none => cases h
  | some cs =>
      have hcs := Token.text.inj (List.mem_singleton.mp h)
      rw [String.ofList_eq_empty_iff.mp hcs.symm]

/-- A text of nothing is the one that has begun without characters, or a section
without content stands ahead. -/
theorem Scanner.mem_tokens_empty (acc : Option (List Char)) (s : Scanner) :
    s.place ≠ .start → s.expandsEmpty = true → Token.text "" ∈ (s.tokens acc).1 →
      acc = some [] ∨ emptySection <:+: s.rest := by
  refine tokens_induction (motive := fun acc s st => s.place ≠ .start → s.expandsEmpty = true →
    Token.text "" ∈ st.1 → acc = some [] ∨ emptySection <:+: s.rest) ?_ ?_ ?_ ?_ ?_ acc s
  · intro _ _ _ _ _ _ _ h
    cases h
  · intro _ _ _ _ _ _ _ _ _ h
    cases h
  · intro _ _ _ cs _ hn he ih hplace hexpands h
    obtain ⟨hplace', hrest, hempty⟩ := next_rest hplace hexpands hn he
    rcases ih hplace' ((advances_of_next hn).setting.trans hexpands) h with hacc | hahead
    · have hcs := (List.append_eq_nil_iff.mp (Option.some.inj hacc)).2
      exact .inr (hempty (congrArg Piece.chars hcs))
    · exact .inr (hahead.trans hrest.isInfix)
  · intro _ _ _ t _ hn he ih hplace hexpands h
    obtain ⟨hplace', hrest, -⟩ := next_rest hplace hexpands hn he
    rw [Stream.after_fst, List.append_assoc] at h
    rcases List.mem_append.mp h with h | h
    · exact .inl (eq_of_mem_gathered h)
    · rcases List.mem_cons.mp h with ht | h
      · exact absurd ht.symm (Event.not_text_of_token he _)
      · rcases ih hplace' ((advances_of_next hn).setting.trans hexpands) h with hnone | hahead
        · cases hnone
        · exact .inr (hahead.trans hrest.isInfix)
  · intro _ _ _ _ _ _ h
    exact .inl (eq_of_mem_gathered h)

theorem emptySection_of_mem_tokens {s : Source}
    (h : Token.text "" ∈ (TokenReader.ofSource s).tokens.1) : emptySection <:+: s.octets := by
  rw [tokens_ofSource_eq, Scanner.tokens_ofSource] at h
  have hplace : (Scanner.between s.ending [] (Scanner.dropMark s.octets)).place ≠ .start := nofun
  have hmark : Scanner.dropMark s.octets <:+ s.octets := by
    by_cases hm : mark <+: s.octets
    · obtain ⟨r, hr⟩ := hm
      rw [← hr, dropMark_mark]
      exact List.suffix_append mark r
    · exact (dropMark_of_not hm).symm ▸ List.suffix_refl s.octets
  rcases Scanner.mem_tokens_empty none _ hplace rfl h with hnone | hahead
  · cases hnone
  · exact hahead.trans hmark.isInfix

end Markup

end XmlRpc
