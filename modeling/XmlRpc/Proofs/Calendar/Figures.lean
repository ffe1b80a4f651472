/-
# Figures of fixed width

The compact layout and RFC 3339 give every figure of a date and of a time its
width, which the hyphenated layouts take as well:

    compact        YYYYMMDDThh:mm:ss
    stamp c rest   YYYY-MM-DDchh:mm:ss, and what follows

What a reader makes of a stamp is one equation each.  RFC 3339 is read from
nothing but a stamp (`stamp_of_readRfc3339?`), and where a stamp has a hyphen
the compact layout has a fifth digit (`FifthDigit`).
-/
import XmlRpc.Proofs.Calendar
import XmlRpc.Proofs.Text.Digits

namespace XmlRpc

namespace Calendar

open Numeral (IsDigits)

variable {α : Type}

/-! ## Digits of a fixed width -/

theorem takeDigits_append (w : Nat) (cs : List Char) :
    (takeDigits w cs).1 ++ (takeDigits w cs).2 = cs := by
  induction w, cs using takeDigits.induct with
  | case1 => rfl
  | case2 w => cases w <;> rfl
  | case3 w c cs hc ds r hds ih =>
      rw [takeDigits, if_pos hc]
      exact congrArg (c :: ·) ih
  | case4 w c cs hc => rw [takeDigits, if_neg hc]; rfl

theorem takeFixed?_eq (w : Nat) (cs : List Char) :
    takeFixed? w cs = if (takeDigits w cs).1.length = w then
      (Numeral.decimal? (takeDigits w cs).1).map fun n => (n, (takeDigits w cs).2) else none := rfl

theorem takeFixed?_padded {w n : Nat} (hw : 0 < w) (h : n < Nat.pow 10 w) (r : List Char) :
    takeFixed? w (Numeral.padded w n ++ r) = some (n, r) := by
  have hlen := Numeral.length_padded hw h
  have hd := takeDigits_of_isDigit (Numeral.isDigit_padded w n) r
  rw [hlen] at hd
  rw [takeFixed?_eq, hd, if_pos hlen, Numeral.decimal?_padded]
  rfl

theorem padded_of_takeFixed? {w n : Nat} {cs r : List Char} (h : takeFixed? w cs = some (n, r)) :
    n < Nat.pow 10 w ∧ cs = Numeral.padded w n ++ r := by
  have happ := takeDigits_append w cs
  rw [takeFixed?_eq] at h
  generalize (takeDigits w cs).1 = ds, (takeDigits w cs).2 = rest at h happ
  by_cases hlen : ds.length = w
  · rw [if_pos hlen] at h
    obtain ⟨m, hm, hp⟩ := Option.map_eq_some_iff.mp h
    cases hp
    obtain ⟨hds, rfl⟩ := Numeral.decimal?_eq_some_iff.mp hm
    have hlt := Numeral.ofDigitChars_lt hds
    have hpadded := Numeral.padded_ofDigitChars hds
    rw [hlen] at hlt hpadded
    rw [hpadded]
    exact ⟨hlt, happ.symm⟩
  · rw [if_neg hlen] at h
    cases h

theorem cons_of_takeChar? {c : Char} {cs r : List Char} (h : takeChar? c cs = some r) :
    cs = c :: r := by
  cases cs with
  | nil => cases h
  | cons d cs =>
      rw [takeChar?] at h
      split at h
      · rename_i hd
        cases h
        rw [hd]
      · cases h

theorem bind_takeFixed? {w n : Nat} (hw : 0 < w) (h : n < Nat.pow 10 w) (r : List Char)
    (k : Nat × List Char → Option α) :
    (takeFixed? w (Numeral.padded w n ++ r) >>= k) = k (n, r) := by
  rw [takeFixed?_padded hw h]
  rfl

theorem bind_takeChar? (c : Char) (r : List Char) (k : List Char → Option α) :
    (takeChar? c (c :: r) >>= k) = k r := by
  rw [takeChar?_cons]
  rfl

theorem of_bind_takeFixed? {w : Nat} {cs : List Char} {k : Nat × List Char → Option α} {a : α}
    (h : (takeFixed? w cs >>= k) = some a) :
    ∃ n r, n < Nat.pow 10 w ∧ cs = Numeral.padded w n ++ r ∧ k (n, r) = some a := by
  obtain ⟨⟨n, r⟩, hn, hk⟩ := Option.bind_eq_some_iff.mp h
  obtain ⟨hlt, hcs⟩ := padded_of_takeFixed? hn
  exact ⟨n, r, hlt, hcs, hk⟩

theorem of_bind_takeChar? {c : Char} {cs : List Char} {k : List Char → Option α} {a : α}
    (h : (takeChar? c cs >>= k) = some a) : ∃ r, cs = c :: r ∧ k r = some a := by
  obtain ⟨r, hr, hk⟩ := Option.bind_eq_some_iff.mp h
  exact ⟨r, cons_of_takeChar? hr, hk⟩

theorem takeChar?_of_ne {c d : Char} (h : d ≠ c) (r : List Char) : takeChar? c (d :: r) = none :=
  if_neg h

/-! ## Signs -/

/-- What begins a numeric offset. -/
def IsSign (c : Char) : Prop := c = '+' ∨ c = '-' ∨ c = '\u2212'

theorem takeSign?_cons {c : Char} (h : IsSign c) (r : List Char) :
    takeSign? (c :: r) = some (c != '+', r) := by
  rcases h with rfl | rfl | rfl <;> rfl

theorem takeSign?_of_not {c : Char} (h : ¬ IsSign c) (r : List Char) :
    takeSign? (c :: r) = none := by
  simp only [IsSign, not_or] at h
  simp [takeSign?, h]

theorem isSign_of_takeOffset? {between : List Char → Option (List Char)} {c : Char} {r : List Char}
    {p : Int × List Char} (h : takeOffset? between (c :: r) = some p) : IsSign c := by
  by_contra hc
  obtain ⟨q, hq, -⟩ := Option.bind_eq_some_iff.mp h
  rw [takeSign?_of_not hc] at hq
  cases hq

theorem trimStart_cons_of_isSign {c : Char} (h : IsSign c) (r : List Char) :
    Blank.trimStart (c :: r) = c :: r := by
  refine List.dropWhile_cons_of_neg ?_
  rcases h with rfl | rfl | rfl <;> decide

/-! ## What follows the second -/

theorem takeNanoseconds?_cons_of_ne {c : Char} (h : c ≠ '.') (r : List Char) :
    takeNanoseconds? (c :: r) = some (0, c :: r) := by
  rw [takeNanoseconds?]
  rintro _ ⟨⟩
  exact h rfl

theorem takeZone?_cons_of_ne {c : Char} (h : c ≠ 'Z' ∧ c ≠ 'z') (r : List Char) :
    takeZone? (c :: r) = (takeOffset? (takeChar? ':') (c :: r)).filter fun p =>
      -86400 < p.1 && p.1 < 86400 :=
  if_neg (by simp [h])

theorem IsSign.ne {c : Char} (h : IsSign c) : c ≠ '.' ∧ c ≠ 'Z' ∧ c ≠ 'z' := by
  rcases h with rfl | rfl | rfl <;> decide

/-! ## Figures -/

/-- Figures of a date and of a time in the width that they have where it is
fixed.  They need not be a day and a time. -/
structure Figures where
  year : Nat
  month : Nat
  day : Nat
  hour : Nat
  minute : Nat
  second : Nat
  year_ok : year < 10000
  month_ok : month < 100
  day_ok : day < 100
  hour_ok : hour < 100
  minute_ok : minute < 100
  second_ok : second < 100

namespace Figures

def compact (f : Figures) : List Char :=
  Numeral.padded 4 f.year ++ (Numeral.padded 2 f.month ++ Numeral.padded 2 f.day)
    ++ clock f.hour f.minute f.second

/-- The figures with hyphens, the separator of date and time, and what
follows. -/
def stamp (f : Figures) (separator : Char) (rest : List Char) : List Char :=
  hyphenated f.year f.month f.day (separator :: clockBefore f.hour f.minute f.second rest)

def date? (f : Figures) : Option Date := Date.of? f.year f.month f.day

def time? (f : Figures) (nanosecond : Nat) : Option Time :=
  timeOf? f.hour f.minute f.second nanosecond

/-- The moment of the figures on a clock with an offset, if there is one. -/
def moment? (f : Figures) (nanosecond : Nat) (offset : Int) : Option DateTime :=
  f.date?.bind fun date => (f.time? nanosecond).bind fun time => momentOf? date time offset

end Figures

section Readers

variable {separator : Char} (f : Figures) (r : List Char)

/-! ## Stamps in the hyphenated layouts -/

theorem takeHyphenated?_stamp :
    takeHyphenated? (f.stamp 'T' r)
      = f.date?.bind fun date => (f.time? 0).map fun time => ((date, time), r) :=
  takeHyphenated?_hyphenated f.year_ok f.month_ok f.day_ok f.hour_ok f.minute_ok f.second_ok r

theorem takeHyphenated?_stamp_of_ne (h : separator ≠ 'T') :
    takeHyphenated? (f.stamp separator r) = none := by
  rw [Figures.stamp, hyphenated, takeHyphenated?, takeYear?_padded f.year_ok]
  simp only [Option.bind_eq_bind, Option.bind_some, takeChar?_cons, takeField?_padded f.month_ok,
    takeField?_padded f.day_ok, takeChar?_of_ne h]
  rfl

theorem readLocal?_stamp :
    readLocal? (f.stamp 'T' r) = if r.isEmpty then f.moment? 0 0 else none := by
  rw [readLocal?, takeHyphenated?_stamp, Figures.moment?]
  cases f.date? <;> cases f.time? 0 <;> simp

theorem readOffset?_stamp :
    readOffset? (f.stamp 'T' r)
      = (takeOffset? (fun r => some (skipColons r)) (Blank.trimStart r)).bind fun p =>
          if p.2.isEmpty then f.moment? 0 p.1 else none := by
  rw [readOffset?, takeHyphenated?_stamp]
  simp only [Figures.moment?]
  cases f.date? <;> cases f.time? 0 <;> simp

/-! ## Stamps of RFC 3339 -/

/-- What may stand between date and time in the layout of RFC 3339. -/
def IsSeparator (c : Char) : Prop := c = 'T' ∨ c = 't' ∨ c = ' '

theorem bind_takeSeparator (h : IsSeparator separator) (k : List Char → Option α) :
    ((takeChar? 'T' (separator :: r) <|> takeChar? 't' (separator :: r)
      <|> takeChar? ' ' (separator :: r)) >>= k) = k r := by
  rcases h with rfl | rfl | rfl <;> rfl

theorem cons_of_takeSeparator {cs r : List Char}
    (h : (takeChar? 'T' cs <|> takeChar? 't' cs <|> takeChar? ' ' cs) = some r) :
    ∃ c, IsSeparator c ∧ cs = c :: r := by
  cases hT : takeChar? 'T' cs with
  | some r' =>
      rw [hT] at h
      cases h
      exact ⟨'T', .inl rfl, cons_of_takeChar? hT⟩
  | none =>
      rw [hT] at h
      cases ht : takeChar? 't' cs with
      | some r' =>
          rw [ht] at h
          cases h
          exact ⟨'t', .inr (.inl rfl), cons_of_takeChar? ht⟩
      | none =>
          rw [ht] at h
          exact ⟨' ', .inr (.inr rfl), cons_of_takeChar? h⟩

theorem readRfc3339?_stamp (h : IsSeparator separator) :
    readRfc3339? (f.stamp separator r)
      = (takeNanoseconds? r).bind fun n => (takeZone? n.2).bind fun z =>
          if z.2.isEmpty then f.moment? n.1 z.1 else none := by
  rw [Figures.stamp, hyphenated, clockBefore, readRfc3339?]
  simp only [↓bind_takeFixed? (w := 4) (by decide) f.year_ok, ↓bind_takeChar?,
    ↓bind_takeFixed? (w := 2) (by decide) f.month_ok,
    ↓bind_takeFixed? (w := 2) (by decide) f.day_ok, ↓bind_takeSeparator _ h,
    ↓bind_takeFixed? (w := 2) (by decide) f.hour_ok,
    ↓bind_takeFixed? (w := 2) (by decide) f.minute_ok,
    ↓bind_takeFixed? (w := 2) (by decide) f.second_ok]
  refine Option.bind_congr fun n _ => Option.bind_congr fun z _ => ?_
  rw [Figures.moment?, Figures.date?, Figures.time?]
  cases Date.of? f.year f.month f.day <;>
    cases timeOf? f.hour f.minute f.second n.1 <;> simp

end Readers

/-- RFC 3339 is read from nothing but a stamp. -/
theorem stamp_of_readRfc3339? {cs : List Char} {d : DateTime} (h : readRfc3339? cs = some d) :
    ∃ (f : Figures) (separator : Char) (r : List Char),
      IsSeparator separator ∧ cs = f.stamp separator r := by
  rw [readRfc3339?] at h
  obtain ⟨year, r₁, year_ok, e₁, h⟩ := of_bind_takeFixed? h
  obtain ⟨r₂, e₂, h⟩ := of_bind_takeChar? h
  obtain ⟨month, r₃, month_ok, e₃, h⟩ := of_bind_takeFixed? h
  obtain ⟨r₄, e₄, h⟩ := of_bind_takeChar? h
  obtain ⟨day, r₅, day_ok, e₅, h⟩ := of_bind_takeFixed? h
  obtain ⟨r₆, hr₆, h⟩ := Option.bind_eq_some_iff.mp h
  obtain ⟨separator, hseparator, e₆⟩ := cons_of_takeSeparator hr₆
  obtain ⟨hour, r₇, hour_ok, e₇, h⟩ := of_bind_takeFixed? h
  obtain ⟨r₈, e₈, h⟩ := of_bind_takeChar? h
  obtain ⟨minute, r₉, minute_ok, e₉, h⟩ := of_bind_takeFixed? h
  obtain ⟨r₁₀, e₁₀, h⟩ := of_bind_takeChar? h
  obtain ⟨second, r, second_ok, e, -⟩ := of_bind_takeFixed? h
  refine ⟨⟨year, month, day, hour, minute, second, year_ok, month_ok, day_ok, hour_ok, minute_ok,
    second_ok⟩, separator, r, hseparator, ?_⟩
  rw [e₁, e₂, e₃, e₄, e₅, e₆, e₇, e₈, e₉, e₁₀, e]
  rfl

/-! ## The fifth character -/

/-- Whether a text goes on with a fifth digit behind four. -/
inductive FifthDigit : List Char → Prop where
  | mk {year : Nat} {c : Char} {r : List Char} : year < 10000 → c.isDigit = true →
      FifthDigit (Numeral.padded 4 year ++ c :: r)

theorem fifthDigit_of_isDigit {ds : List Char} (hlen : 4 < ds.length)
    (h : ∀ c ∈ ds, c.isDigit = true) (r : List Char) : FifthDigit (ds ++ r) := by
  have htake : (ds.take 4).length = 4 := List.length_take_of_le (Nat.le_of_lt hlen)
  have hds : IsDigits (ds.take 4) := by
    refine ⟨List.ne_nil_of_length_pos (by omega), ?_⟩
    intro c hc
    exact h c (List.mem_of_mem_take hc)
  have hpadded := Numeral.padded_ofDigitChars hds
  have hlt := Numeral.ofDigitChars_lt hds
  rw [htake] at hpadded hlt
  have hsplit : ds ++ r = Numeral.padded 4 (Nat.ofDigitChars 10 (ds.take 4) 0)
      ++ ds[4] :: (ds.drop 5 ++ r) := by
    rw [hpadded, ← List.cons_append, List.getElem_cons_drop, ← List.append_assoc,
      List.take_append_drop]
  rw [hsplit]
  exact .mk hlt (h _ (List.getElem_mem hlen))

theorem fifthDigit_compact (f : Figures) : FifthDigit f.compact := by
  obtain ⟨c, cs, hcs, hc⟩ := head_padded 2 f.month
    (Numeral.padded 2 f.day ++ clock f.hour f.minute f.second)
  rw [Figures.compact, List.append_assoc, List.append_assoc, hcs]
  exact .mk f.year_ok hc

theorem not_fifthDigit_stamp (f : Figures) (separator : Char) (r : List Char) :
    ¬ FifthDigit (f.stamp separator r) := by
  generalize hcs : f.stamp separator r = cs
  rintro ⟨hyear, hc⟩
  rw [Figures.stamp, hyphenated] at hcs
  have hlen := (Numeral.length_padded (w := 4) (by decide) f.year_ok).trans
    (Numeral.length_padded (by decide) hyear).symm
  cases (List.append_inj hcs hlen).2
  exact absurd hc (by decide)

theorem FifthDigit.takeHyphenated? {cs : List Char} (h : FifthDigit cs) :
    Calendar.takeHyphenated? cs = none := by
  cases h with
  | @mk year c r hyear hc =>
      have hne : c ≠ '-' := by
        rintro rfl
        exact absurd hc (by decide)
      rw [Calendar.takeHyphenated?, takeYear?_padded hyear]
      simp only [Option.bind_eq_bind, Option.bind_some, takeChar?_of_ne hne]
      rfl

/-- A fifth digit is for the compact layout alone. -/
theorem FifthDigit.read? {cs : List Char} (h : FifthDigit cs) :
    ∀ l : Layout, l ≠ .compact → l.read? cs = none := by
  have htake := h.takeHyphenated?
  intro l hl
  cases l with
  | compact => exact absurd rfl hl
  | rfc3339 =>
      refine Option.eq_none_iff_forall_ne_some.mpr fun d hd => ?_
      obtain ⟨f, separator, r, -, rfl⟩ := stamp_of_readRfc3339? hd
      exact not_fifthDigit_stamp f separator r h
  | hyphenatedOffset =>
      show readOffset? cs = none
      rw [readOffset?, htake]
      rfl
  | hyphenatedLocal =>
      show readLocal? cs = none
      rw [readLocal?, htake]
      rfl

theorem fifthDigit_of_readCompact? {cs : List Char} {d : DateTime}
    (h : readCompact? cs = some d) : FifthDigit cs := by
  rw [readCompact?, List.span_eq_takeWhile_dropWhile] at h
  have happ := List.takeWhile_append_dropWhile (p := (· != 'T')) (l := cs)
  generalize cs.takeWhile (· != 'T') = ds at h happ
  generalize cs.dropWhile (· != 'T') = r at h happ
  subst happ
  dsimp only at h
  rcases Classical.em (r.isEmpty || ds.length != 8
      || ds.any fun c => (Numeral.decimalDigit? c).isNone) with hds | hds
  · rw [if_pos hds] at h
    cases h
  · simp only [Bool.or_eq_true, not_or, bne_iff_ne, not_not, List.any_eq_true, not_exists,
      not_and] at hds
    obtain ⟨⟨-, hlen⟩, hall⟩ := hds
    refine fifthDigit_of_isDigit (by omega) ?_ r
    intro c hc
    rw [← Numeral.isSome_decimalDigit?, ← Option.not_isNone, Bool.not_eq_true']
    exact Bool.eq_false_iff.mpr (hall c hc)

theorem readCompact?_stamp (f : Figures) (separator : Char) (r : List Char) :
    readCompact? (f.stamp separator r) = none := by
  refine Option.eq_none_iff_forall_ne_some.mpr fun d hd => ?_
  exact not_fifthDigit_stamp f separator r (fifthDigit_of_readCompact? hd)

end Calendar

end XmlRpc
