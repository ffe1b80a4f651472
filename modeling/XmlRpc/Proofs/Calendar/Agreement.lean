/-
# Layouts never disagree

A text that fits two layouts denotes one moment in both, so the order in which
the layouts are tried does not matter for the moment (`layouts_agree`):

    compact            alone: no other layout has a fifth digit
    hyphenatedLocal    alone: the others end with an offset, or have no hyphens
    rfc3339            share the texts with a `T`, a numeric offset and no
    hyphenatedOffset   fraction, where both take the same figures

Only the layout that is reported depends on the order, and only for texts that
two layouts share.
-/
import XmlRpc.Proofs.Calendar.Figures

namespace XmlRpc

namespace Calendar

variable {cs r : List Char} {d e : DateTime}

/-! ## Offsets -/

theorem skipColons_padded {m : Nat} (r : List Char) :
    skipColons (':' :: (Numeral.padded 2 m ++ r)) = Numeral.padded 2 m ++ r := by
  obtain ⟨c, cs, hcs, hc⟩ := head_padded 2 m r
  have hne : c ≠ ':' := by
    rintro rfl
    exact absurd hc (by decide)
  rw [hcs, skipColons, List.dropWhile_cons_of_pos (by decide),
    List.dropWhile_cons_of_neg (by simp [hne, not_isUnicode_of_isDigit hc])]

/-- An offset with one colon is the same offset where colons may be missing. -/
theorem takeOffset?_skipColons {p : Int × List Char} (h : takeOffset? (takeChar? ':') cs = some p) :
    takeOffset? (fun r => some (skipColons r)) cs = some p := by
  rw [takeOffset?] at h ⊢
  obtain ⟨⟨negative, r₁⟩, hsign, h⟩ := Option.bind_eq_some_iff.mp h
  obtain ⟨⟨hours, r₂⟩, hhours, h⟩ := Option.bind_eq_some_iff.mp h
  obtain ⟨r₃, hcolon, h⟩ := of_bind_takeChar? h
  obtain ⟨minutes, r₄, -, hminutes, -⟩ := of_bind_takeFixed? h
  have hskip : skipColons r₂ = r₃ := by rw [hcolon, hminutes, skipColons_padded]
  exact Option.bind_eq_some_iff.mpr ⟨_, hsign, Option.bind_eq_some_iff.mpr ⟨_, hhours,
    Option.bind_eq_some_iff.mpr ⟨r₃, congrArg some hskip, h⟩⟩⟩

/-- An offset that both layouts take begins with its sign: blanks are for one of
them, a fraction and `Z` for the other. -/
theorem isSign_of_takeZone? {c : Char} {n : Nat × List Char} {z p : Int × List Char}
    (hn : takeNanoseconds? (c :: r) = some n) (hz : takeZone? n.2 = some z)
    (hp : takeOffset? (fun r => some (skipColons r)) (Blank.trimStart (c :: r)) = some p) :
    IsSign c := by
  by_cases hb : Blank.isUnicode c = true
  · have hne : c ≠ '.' ∧ c ≠ 'Z' ∧ c ≠ 'z' := by
      refine ⟨?_, ?_, ?_⟩ <;>
      · rintro rfl
        exact absurd hb (by decide)
    rw [takeNanoseconds?_cons_of_ne hne.1] at hn
    cases hn
    rw [takeZone?_cons_of_ne hne.2] at hz
    exact isSign_of_takeOffset? (Option.filter_eq_some_iff.mp hz).1
  · rw [Blank.trimStart, List.dropWhile_cons_of_neg hb] at hp
    exact isSign_of_takeOffset? hp

theorem readOffset?_of_readRfc3339? {f : Figures} {c : Char} (hc : IsSign c)
    (h : readRfc3339? (f.stamp 'T' (c :: r)) = some d) :
    readOffset? (f.stamp 'T' (c :: r)) = some d := by
  rw [readRfc3339?_stamp f _ (.inl rfl), takeNanoseconds?_cons_of_ne hc.ne.1, Option.bind_some,
    takeZone?_cons_of_ne hc.ne.2] at h
  obtain ⟨z, hz, hd⟩ := Option.bind_eq_some_iff.mp h
  rw [readOffset?_stamp, trimStart_cons_of_isSign hc,
    takeOffset?_skipColons (Option.filter_eq_some_iff.mp hz).1]
  exact hd

/-! ## Two layouts -/

theorem eq_compact_of_read? {l : Layout} (hd : Layout.compact.read? cs = some d)
    (he : l.read? cs = some e) : l = .compact := by
  by_contra hl
  rw [(fifthDigit_of_readCompact? hd).read? l hl] at he
  cases he

/-- A text of RFC 3339 that is taken as a hyphenated one has a `T`. -/
theorem exists_stamp (hd : readRfc3339? cs = some d) {p : (Date × Time) × List Char}
    (hp : takeHyphenated? cs = some p) : ∃ (f : Figures) (r : List Char), cs = f.stamp 'T' r := by
  obtain ⟨f, separator, r, -, rfl⟩ := stamp_of_readRfc3339? hd
  by_cases hT : separator = 'T'
  · exact ⟨f, r, by rw [hT]⟩
  · rw [takeHyphenated?_stamp_of_ne f r hT] at hp
    cases hp

theorem eq_hyphenatedLocal_of_read? {l : Layout}
    (hd : Layout.hyphenatedLocal.read? cs = some d) (he : l.read? cs = some e) :
    l = .hyphenatedLocal := by
  obtain ⟨p, hp, hend⟩ := Option.bind_eq_some_iff.mp hd
  cases l with
  | compact => exact (eq_compact_of_read? he hd).symm
  | rfc3339 =>
      obtain ⟨f, r, rfl⟩ := exists_stamp he hp
      have hd' : readLocal? (f.stamp 'T' r) = some d := hd
      have he' : readRfc3339? (f.stamp 'T' r) = some e := he
      rw [readLocal?_stamp] at hd'
      rw [readRfc3339?_stamp f r (.inl rfl)] at he'
      -- one wants nothing behind the second, and the other something
      cases r with
      | nil => cases he'
      | cons c r => cases hd'
  | hyphenatedOffset =>
      obtain ⟨q, hq, hoffset⟩ := Option.bind_eq_some_iff.mp he
      cases hq.symm.trans hp
      obtain ⟨⟨date, time⟩, r⟩ := p
      cases r with
      | nil => cases hoffset
      | cons c r => cases hend
  | hyphenatedLocal => rfl

theorem eq_of_readOffset? (hd : readRfc3339? cs = some d) (he : readOffset? cs = some e) :
    d = e := by
  obtain ⟨p, hp, -⟩ := Option.bind_eq_some_iff.mp he
  obtain ⟨f, r, rfl⟩ := exists_stamp hd hp
  have hzone := hd
  have hoffset := he
  rw [readRfc3339?_stamp f r (.inl rfl)] at hzone
  rw [readOffset?_stamp] at hoffset
  cases r with
  | nil => cases hzone
  | cons c r =>
      obtain ⟨n, hn, hzone⟩ := Option.bind_eq_some_iff.mp hzone
      obtain ⟨z, hz, -⟩ := Option.bind_eq_some_iff.mp hzone
      obtain ⟨o, ho, -⟩ := Option.bind_eq_some_iff.mp hoffset
      have hsame := readOffset?_of_readRfc3339? (isSign_of_takeZone? hn hz ho) hd
      exact Option.some.inj (hsame.symm.trans he)

def Layout.HasOffset (l : Layout) : Prop := l = .rfc3339 ∨ l = .hyphenatedOffset

theorem hasOffset_of_read? {k l : Layout} (hd : k.read? cs = some d) (he : l.read? cs = some e)
    (hne : k ≠ l) : k.HasOffset := by
  cases k with
  | compact => exact absurd (eq_compact_of_read? hd he).symm hne
  | rfc3339 => exact .inl rfl
  | hyphenatedOffset => exact .inr rfl
  | hyphenatedLocal => exact absurd (eq_hyphenatedLocal_of_read? hd he).symm hne

theorem eq_of_read? {k l : Layout} (hd : k.read? cs = some d) (he : l.read? cs = some e) :
    d = e := by
  by_cases hne : k = l
  · subst hne
    exact Option.some.inj (hd.symm.trans he)
  · rcases hasOffset_of_read? hd he hne with rfl | rfl <;>
      rcases hasOffset_of_read? he hd (Ne.symm hne) with rfl | rfl
    · exact absurd rfl hne
    · exact eq_of_readOffset? hd he
    · exact (eq_of_readOffset? he hd).symm
    · exact absurd rfl hne

/-! ## Orders -/

/-- The first layout of a list that fits a text, and the moment the text denotes
in it. -/
def readIn (order : List Layout) (cs : List Char) : Option (Layout × DateTime) :=
  order.findSome? fun l => (l.read? cs).map (l, ·)

theorem readIn_all (cs : List Char) : readIn Layout.all cs = read? cs := rfl

theorem readIn_eq_none_iff {order : List Layout} :
    readIn order cs = none ↔ ∀ l ∈ order, l.read? cs = none := by
  simp only [readIn, List.findSome?_eq_none_iff, Option.map_eq_none_iff]

theorem Layout.mem_all (l : Layout) : l ∈ all := by
  cases l <;> decide

theorem read?_eq_none_iff : Calendar.read? cs = none ↔ ∀ l : Layout, l.read? cs = none := by
  rw [← readIn_all, readIn_eq_none_iff]
  exact ⟨fun h l => h l l.mem_all, fun h l _ => h l⟩

theorem read?_of_readIn {order : List Layout} {p : Layout × DateTime}
    (h : readIn order cs = some p) : p.1 ∈ order ∧ p.1.read? cs = some p.2 := by
  obtain ⟨l, hl, hp⟩ := List.exists_of_findSome?_eq_some h
  obtain ⟨d, hd, rfl⟩ := Option.map_eq_some_iff.mp hp
  exact ⟨hl, hd⟩

theorem readIn_perm {order order' : List Layout} (h : order.Perm order') (cs : List Char) :
    (readIn order cs).map Prod.snd = (readIn order' cs).map Prod.snd := by
  cases hp : readIn order cs with
  | none =>
      have hnone : readIn order' cs = none := by
        rw [readIn_eq_none_iff] at hp ⊢
        exact fun l hl => hp l (h.mem_iff.mpr hl)
      rw [hnone]
  | some p =>
      obtain ⟨hmem, hread⟩ := read?_of_readIn hp
      cases hq : readIn order' cs with
      | none =>
          rw [readIn_eq_none_iff.mp hq p.1 (h.mem_iff.mp hmem)] at hread
          cases hread
      | some q => exact congrArg some (eq_of_read? hread (read?_of_readIn hq).2)

/-- A text is read as one date, time and offset by whatever layouts read it; so
the moment is the same in every order of the layouts.  Two layouts share a text
only if both take an offset: a text of the compact layout fits no other. -/
theorem layouts_agree (cs : List Char) :
    (∀ (k l : Layout) (d e : DateTime), k.read? cs = some d → l.read? cs = some e →
      d = e ∧ (k ≠ l → k.HasOffset ∧ l.HasOffset)) ∧
    (∀ order : List Layout, order.Perm Layout.all →
      (readIn order cs).map Prod.snd = (read? cs).map Prod.snd) ∧
    (∀ (l : Layout) (d : DateTime), Layout.compact.read? cs = some d → l ≠ .compact →
      l.read? cs = none) := by
  refine ⟨?_, ?_, ?_⟩
  · intro k l d e hd he
    refine ⟨eq_of_read? hd he, ?_⟩
    intro hne
    exact ⟨hasOffset_of_read? hd he hne, hasOffset_of_read? he hd hne.symm⟩
  · intro order h
    rw [← readIn_all]
    exact readIn_perm h cs
  · intro l d hd
    exact (fifthDigit_of_readCompact? hd).read? l

/-- A shared text: the order decides which layout is reported, and not the
moment. -/
theorem layouts_agree_shared :
    let cs := "2004-01-01T14:30:10+02:00".toList
    (∃ d e, Layout.rfc3339.read? cs = some d ∧ Layout.hyphenatedOffset.read? cs = some e ∧ d = e) ∧
    (readIn Layout.all.reverse cs).map Prod.snd = (read? cs).map Prod.snd ∧
    (read? cs).map Prod.fst = some .rfc3339 ∧
    (readIn Layout.all.reverse cs).map Prod.fst = some .hyphenatedOffset ∧
    Layout.rfc3339.read? "20040101T14:30:10".toList = none := by
  intro cs
  have hd : (Layout.rfc3339.read? cs).isSome = true := by decide
  have he : (Layout.hyphenatedOffset.read? cs).isSome = true := by decide
  have hc : (Layout.compact.read? "20040101T14:30:10".toList).isSome = true := by decide
  obtain ⟨d, hd⟩ := Option.isSome_iff_exists.mp hd
  obtain ⟨e, he⟩ := Option.isSome_iff_exists.mp he
  obtain ⟨c, hc⟩ := Option.isSome_iff_exists.mp hc
  refine ⟨⟨d, e, hd, he, ((layouts_agree cs).1 _ _ d e hd he).1⟩,
    (layouts_agree cs).2.1 _ (List.reverse_perm _), by decide, by decide, ?_⟩
  exact (layouts_agree _).2.2 .rfc3339 c hc (by decide)

end Calendar

end XmlRpc
