/-
# Instants that compact texts keep

The compact text tells what the clock of a moment shows, and not how far it is
ahead of UTC.  A year that four digits do not hold is written with its sign,
which no layout takes in front of a date without hyphens:

    year 0 to 9999     read as what the clock shows, taken to be UTC
    any other year     not read

So the epoch, which stands for texts that are not read, stands for all moments
of the other years, and is the instant of none of them.
-/
import XmlRpc.Proofs.Calendar

namespace XmlRpc

open Calendar

def DateTime.InFourDigits (d : DateTime) : Prop := 0 ≤ d.date.year ∧ d.date.year ≤ 9999

namespace Calendar

/-! ## Years in four digits -/

/-- The text of a moment denotes what its clock shows, as a moment of UTC. -/
theorem read?_compactText_local {d : DateTime} (h : d.InFourDigits) :
    read? (compactText d) = some (.compact, d.localAsUtc.asShown) :=
  @read?_compactText d.localAsUtc rfl h

/-! ## Years with a sign -/

theorem takeDigits_run {w : Nat} {ds : List Char} (hw : ds.length ≤ w)
    (hds : ∀ c ∈ ds, c.isDigit = true) (r : List Char) :
    takeDigits w (ds ++ 'T' :: r) = (ds, 'T' :: r) := by
  induction ds generalizing w with
  | nil =>
      cases w with
      | zero => rfl
      | succ w => exact if_neg (by decide)
  | cons c ds ih =>
      cases w with
      | zero => exact absurd hw (Nat.not_succ_le_zero _)
      | succ w =>
          have hc : (Numeral.decimalDigit? c).isSome = true := by
            rw [Numeral.isSome_decimalDigit?]
            exact hds c List.mem_cons_self
          rw [List.cons_append, takeDigits, if_pos hc, ih (Nat.le_of_succ_le_succ hw)
            fun e he => hds e (List.mem_cons_of_mem c he)]

theorem takeYear?_signed {sign : Char} (hsign : sign = '-' ∨ sign = '+') {ds : List Char}
    (hds : ∀ c ∈ ds, c.isDigit = true) (r : List Char) :
    ∀ p ∈ takeYear? (sign :: (ds ++ 'T' :: r)), p.2 = 'T' :: r := by
  have hw : ds.length ≤ (ds ++ 'T' :: r).length := by
    rw [List.length_append]
    exact Nat.le_add_right _ _
  have hdigits := takeDigits_run hw hds r
  have hnumber : takeNumber? (ds ++ 'T' :: r).length (ds ++ 'T' :: r)
      = (Numeral.decimal? ds).map fun n => (n, 'T' :: r) := by
    rw [takeNumber?, hdigits]
  intro p hp
  rcases hsign with rfl | rfl
  · have hyear : takeYear? ('-' :: (ds ++ 'T' :: r))
        = (takeNumber? _ (ds ++ 'T' :: r)).map fun q => (-(q.1 : Int), q.2) := rfl
    rw [hyear, hnumber, Option.map_map] at hp
    obtain ⟨n, -, rfl⟩ := Option.map_eq_some_iff.mp hp
    rfl
  · have hyear : takeYear? ('+' :: (ds ++ 'T' :: r))
        = (takeNumber? _ (ds ++ 'T' :: r)).map fun q => ((q.1 : Int), q.2) := rfl
    rw [hyear, hnumber, Option.map_map] at hp
    obtain ⟨n, -, rfl⟩ := Option.map_eq_some_iff.mp hp
    rfl

/-- A date without hyphens fits no layout behind a sign. -/
theorem read?_signed {sign : Char} (hsign : sign = '-' ∨ sign = '+') {ds : List Char}
    (hds : ∀ c ∈ ds, c.isDigit = true) (r : List Char) :
    read? (sign :: (ds ++ 'T' :: r)) = none := by
  have hdigit : Numeral.decimalDigit? sign = none := by
    rcases hsign with rfl | rfl <;> rfl
  have hhyphenated : takeHyphenated? (sign :: (ds ++ 'T' :: r)) = none := by
    rw [takeHyphenated?]
    cases hyear : takeYear? (sign :: (ds ++ 'T' :: r)) with
    | none => rfl
    | some p =>
        obtain ⟨year, rest⟩ := p
        cases takeYear?_signed hsign hds r _ hyear
        rfl
  have hcompact : readCompact? (sign :: (ds ++ 'T' :: r)) = none := by
    have hspan : (sign :: (ds ++ 'T' :: r)).span (· != 'T') = (sign :: ds, 'T' :: r) := by
      refine @Numeral.span_run _ (sign :: ds) ('T' :: r) ?_ ?_
      · intro c hc
        rw [bne_iff_ne]
        rintro rfl
        rcases List.mem_cons.mp hc with rfl | hc
        · exact absurd hsign (by decide)
        · exact absurd (hds _ hc) (by decide)
      · intro c hc
        cases hc
        rfl
    rw [readCompact?, hspan]
    exact if_pos (by simp [hdigit])
  have hrfc3339 : readRfc3339? (sign :: (ds ++ 'T' :: r)) = none := by
    have hyear : takeFixed? 4 (sign :: (ds ++ 'T' :: r)) = none := by
      rw [takeFixed?, takeDigits, hdigit]
      rfl
    rw [readRfc3339?, hyear]
    rfl
  have hoffset : readOffset? (sign :: (ds ++ 'T' :: r)) = none := by
    rw [readOffset?, hhyphenated]
    rfl
  have hlocal : readLocal? (sign :: (ds ++ 'T' :: r)) = none := by
    rw [readLocal?, hhyphenated]
    rfl
  simp only [read?, Layout.all, List.findSome?, Layout.read?, hcompact, hrfc3339, hoffset, hlocal]
  rfl

/-- No layout fits the text of a moment whose year needs more than four
digits. -/
theorem read?_compactText_signed {d : DateTime} (h : ¬ d.InFourDigits) :
    read? (compactText d) = none := by
  have hyear : yearText d.date.year
      = (if d.date.year < 0 then '-' else '+') :: Numeral.padded 4 d.date.year.natAbs :=
    if_neg (by simpa [DateTime.InFourDigits] using h)
  have hsign : (if d.date.year < 0 then '-' else '+') = '-' ∨
      (if d.date.year < 0 then '-' else '+') = '+' := by
    split
    · exact .inl rfl
    · exact .inr rfl
  have hdigits : ∀ c ∈ Numeral.padded 4 d.date.year.natAbs ++
      (Numeral.padded 2 d.date.month ++ Numeral.padded 2 d.date.day), c.isDigit = true := by
    intro c hc
    rcases List.mem_append.mp hc with hc | hc
    · exact Numeral.isDigit_padded _ _ c hc
    · rcases List.mem_append.mp hc with hc | hc
      · exact Numeral.isDigit_padded _ _ c hc
      · exact Numeral.isDigit_padded _ _ c hc
  have hread := read?_signed hsign hdigits (Numeral.padded 2 d.time.hour
    ++ ':' :: Numeral.padded 2 d.time.minute ++ ':' :: Numeral.padded 2 (shownSecond d.time))
  rw [compactText, hyear]
  simpa using hread

end Calendar

namespace DateTime

variable {d : DateTime}

/-! ## Instants -/

theorem sameInstant_epoch_of_not_inFourDigits (h : ¬ d.InFourDigits) :
    epoch.sameInstant d = false := by
  have hm := d.date.month_ok
  have hd := d.date.day_ok
  have hbefore := daysBeforeMonth_le d.date.year d.date.month
  have hlen := daysInMonth_le d.date.year d.date.month
  have ht := d.time.seconds_lt
  have ho := d.offset_ok
  have hepoch : epoch.instant.1 = 62135683200 := by decide
  have hne : epoch.instant.1 ≠ d.instant.1 := by
    rw [hepoch]
    simp only [instant, Date.number]
    rw [InFourDigits] at h
    omega
  rw [sameInstant, beq_eq_false_iff_ne]
  exact fun heq => hne (congrArg Prod.fst heq)

/-- What the clock shows is the same instant in UTC only where the clock shows
UTC. -/
theorem sameInstant_localAsUtc_iff : d.localAsUtc.sameInstant d = true ↔ d.offset = 0 := by
  rw [sameInstant, beq_iff_eq]
  constructor
  · intro h
    have hseconds : d.date.number * 86400 + d.time.seconds - 0
        = d.date.number * 86400 + d.time.seconds - d.offset := congrArg Prod.fst h
    omega
  · intro h
    rw [localAsUtc_self h]

end DateTime

end XmlRpc
