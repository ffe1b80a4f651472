/-
# Figures that are a day and a time

Figures in one of four texts are read exactly if they are a day of the Gregorian
calendar and a time of day or a leap second, and then as what they say:

    compact                 compact             offset 0
    stamp                   hyphenatedLocal     offset 0
    stamp, Z                rfc3339             offset 0
    stamp, numeric offset   rfc3339             that offset

What is read of a text, be it a moment or nothing, is one equation each
(`read?_compact`, `read?_stamp`, `read?_stamp_utc`, `read?_stamp_offset`); they
all go back to `Figures.moment?`.
-/
import XmlRpc.Proofs.Calendar.Agreement

namespace XmlRpc

namespace Calendar

/-! ## Days -/

def IsLeapYear (year : Nat) : Prop := 4 ∣ year ∧ (100 ∣ year → 400 ∣ year)

structure IsDay (year month day : Nat) : Prop where
  month_ok : 1 ≤ month ∧ month ≤ 12
  day_ok : 1 ≤ day ∧ day ≤ 31
  short : month = 4 ∨ month = 6 ∨ month = 9 ∨ month = 11 → day ≤ 30
  february : month = 2 → day ≤ 29
  leap : month = 2 → day = 29 → IsLeapYear year

theorem isLeap_iff (year : Nat) : isLeap year = true ↔ IsLeapYear year := by
  simp only [isLeap, IsLeapYear, Bool.and_eq_true, Bool.or_eq_true, beq_iff_eq, bne_iff_ne]
  omega

theorem isDay_iff {year month day : Nat} :
    IsDay year month day ↔
      (1 ≤ month ∧ month ≤ 12) ∧ 1 ≤ day ∧ day ≤ daysInMonth year month := by
  have hleap := isLeap_iff year
  rw [daysInMonth]
  by_cases h2 : month = 2
  · rw [if_pos h2]
    by_cases hyear : IsLeapYear year
    · rw [if_pos (hleap.mpr hyear)]
      constructor
      · intro h
        exact ⟨h.month_ok, h.day_ok.1, h.february h2⟩
      · rintro ⟨hmonth, hday, hle⟩
        exact ⟨hmonth, by omega, by omega, fun _ => hle, fun _ _ => hyear⟩
    · rw [if_neg (hyear ∘ hleap.mp)]
      constructor
      · intro h
        have hle := h.february h2
        have hne : day ≠ 29 := fun h29 => hyear (h.leap h2 h29)
        exact ⟨h.month_ok, h.day_ok.1, by omega⟩
      · rintro ⟨hmonth, hday, hle⟩
        exact ⟨hmonth, by omega, by omega, by omega, by omega⟩
  · rw [if_neg h2]
    simp only [Bool.or_eq_true, decide_eq_true_eq]
    split
    · rename_i hshort
      constructor
      · intro h
        exact ⟨h.month_ok, h.day_ok.1, h.short (by omega)⟩
      · rintro ⟨hmonth, hday, hle⟩
        exact ⟨hmonth, by omega, by omega, by omega, by omega⟩
    · constructor
      · intro h
        exact ⟨h.month_ok, h.day_ok⟩
      · rintro ⟨hmonth, hday, hle⟩
        exact ⟨hmonth, by omega, by omega, by omega, by omega⟩

instance (year month day : Nat) : Decidable (IsDay year month day) :=
  decidable_of_iff _ isDay_iff.symm

/-- There is a year 0, and it is a leap year; every hundredth year but each fourth
of those is none. -/
example : IsDay 0 2 29 ∧ IsDay 2000 2 29 ∧ ¬ IsDay 1900 2 29 ∧ ¬ IsDay 2001 4 31 := by decide

theorem Date.of?_eq_some_iff {year : Int} {month day : Nat} {date : Date} :
    Date.of? year month day = some date ↔
      date.year = year ∧ date.month = month ∧ date.day = day := by
  constructor
  · intro h
    obtain ⟨_, hd⟩ := Option.dite_none_right_eq_some.mp h
    cases hd
    exact ⟨rfl, rfl, rfl⟩
  · rintro ⟨rfl, rfl, rfl⟩
    exact Date.of?_self date

theorem Time.of?_eq_some_iff {hour minute second nanosecond : Nat} {time : Time} :
    Time.of? hour minute second nanosecond = some time ↔
      time.hour = hour ∧ time.minute = minute ∧ time.second = second ∧
        time.nanosecond = nanosecond := by
  constructor
  · intro h
    obtain ⟨_, ht⟩ := Option.dite_none_right_eq_some.mp h
    cases ht
    exact ⟨rfl, rfl, rfl, rfl⟩
  · rintro ⟨rfl, rfl, rfl, rfl⟩
    exact dif_pos ⟨time.hour_ok, time.minute_ok, time.second_ok, time.nanosecond_ok⟩

namespace Figures

variable {f : Figures} {date : Date} {time : Time}

/-! ## What figures say -/

/-- Whether figures are a day and a time; second 60 is a leap second. -/
structure Valid (f : Figures) : Prop extends IsDay f.year f.month f.day where
  hour_ok : f.hour ≤ 23
  minute_ok : f.minute ≤ 59
  second_ok : f.second ≤ 60

theorem valid_iff : f.Valid ↔
    IsDay f.year f.month f.day ∧ f.hour ≤ 23 ∧ f.minute ≤ 59 ∧ f.second ≤ 60 :=
  ⟨fun h => ⟨h.toIsDay, h.hour_ok, h.minute_ok, h.second_ok⟩,
    fun ⟨hday, hhour, hminute, hsecond⟩ => ⟨hday, hhour, hminute, hsecond⟩⟩

instance (f : Figures) : Decidable f.Valid := decidable_of_iff _ valid_iff.symm

/-- Whether figures say that date and that time.  A leap second is the second it
follows, with a thousand million nanoseconds. -/
structure Say (f : Figures) (date : Date) (time : Time) : Prop where
  year : date.year = f.year
  month : date.month = f.month
  day : date.day = f.day
  hour : time.hour = f.hour
  minute : time.minute = f.minute
  second : if f.second = 60 then time.second = 59 ∧ time.nanosecond = 1000000000
    else time.second = f.second ∧ time.nanosecond = 0

theorem say_iff : f.Say date time ↔ f.date? = some date ∧ f.time? 0 = some time := by
  rw [date?, Date.of?_eq_some_iff, time?, timeOf?]
  by_cases h60 : f.second = 60
  · rw [if_pos h60, Time.of?_eq_some_iff]
    constructor
    · rintro ⟨hyear, hmonth, hday, hhour, hminute, hsecond⟩
      rw [if_pos h60] at hsecond
      exact ⟨⟨hyear, hmonth, hday⟩, hhour, hminute, hsecond⟩
    · rintro ⟨⟨hyear, hmonth, hday⟩, hhour, hminute, hsecond⟩
      exact ⟨hyear, hmonth, hday, hhour, hminute, by rwa [if_pos h60]⟩
  · rw [if_neg h60, Time.of?_eq_some_iff]
    constructor
    · rintro ⟨hyear, hmonth, hday, hhour, hminute, hsecond⟩
      rw [if_neg h60] at hsecond
      exact ⟨⟨hyear, hmonth, hday⟩, hhour, hminute, hsecond⟩
    · rintro ⟨⟨hyear, hmonth, hday⟩, hhour, hminute, hsecond⟩
      exact ⟨hyear, hmonth, hday, hhour, hminute, by rwa [if_neg h60]⟩

theorem Say.valid (h : f.Say date time) : f.Valid := by
  have hday : IsDay f.year f.month f.day := by
    rw [isDay_iff, ← h.year, ← h.month, ← h.day]
    exact ⟨date.month_ok, date.day_ok⟩
  have hhour := time.hour_ok
  have hminute := time.minute_ok
  have hsecond := time.second_ok
  have hsay := h.second
  rw [h.hour] at hhour
  rw [h.minute] at hminute
  refine ⟨hday, by omega, by omega, ?_⟩
  split at hsay <;> omega

theorem Valid.say (h : f.Valid) : ∃ (date : Date) (time : Time), f.Say date time := by
  have hday := isDay_iff.mp h.toIsDay
  have hhour := h.hour_ok
  have hminute := h.minute_ok
  have hsecond := h.second_ok
  refine ⟨⟨f.year, f.month, f.day, hday.1, hday.2⟩, ?_⟩
  by_cases h60 : f.second = 60
  · refine ⟨⟨f.hour, f.minute, 59, 1000000000, by omega, by omega, by omega, by omega⟩,
      rfl, rfl, rfl, rfl, rfl, ?_⟩
    rw [if_pos h60]
    exact ⟨rfl, rfl⟩
  · refine ⟨⟨f.hour, f.minute, f.second, 0, by omega, by omega, by omega, by omega⟩,
      rfl, rfl, rfl, rfl, rfl, ?_⟩
    rw [if_neg h60]
    exact ⟨rfl, rfl⟩

theorem moment?_of_say (h : f.Say date time) {offset : Int}
    (ho : -86400 < offset ∧ offset < 86400) :
    f.moment? 0 offset = some ⟨date, time, offset, ho⟩ := by
  obtain ⟨hdate, htime⟩ := say_iff.mp h
  have hyear : 0 ≤ date.year ∧ date.year ≤ 9999 := by
    have hlt := f.year_ok
    have heq := h.year
    omega
  rw [moment?, hdate, Option.bind_some, htime, Option.bind_some]
  exact momentOf?_self (d := ⟨date, time, offset, ho⟩) (isSupported_of_year hyear)

theorem moment?_of_not_valid (h : ¬ f.Valid) (offset : Int) : f.moment? 0 offset = none := by
  rw [moment?]
  cases hdate : f.date? with
  | none => rfl
  | some date =>
      cases htime : f.time? 0 with
      | none => rfl
      | some time => exact absurd (say_iff.mpr ⟨hdate, htime⟩).valid h

end Figures

/-! ## Offsets -/

/-- A numeric offset: hours and minutes, less than a day, behind a sign. -/
structure Offset where
  sign : Char
  hours : Nat
  minutes : Nat
  sign_ok : IsSign sign
  hours_ok : hours < 24
  minutes_ok : minutes < 60

namespace Offset

def seconds (o : Offset) : Int :=
  if o.sign = '+' then o.hours * 3600 + o.minutes * 60 else -(o.hours * 3600 + o.minutes * 60)

def text (o : Offset) : List Char :=
  o.sign :: (Numeral.padded 2 o.hours ++ ':' :: Numeral.padded 2 o.minutes)

theorem seconds_ok (o : Offset) : -86400 < o.seconds ∧ o.seconds < 86400 := by
  have hh := o.hours_ok
  have hm := o.minutes_ok
  rw [seconds]
  split <;> omega

theorem takeOffset?_text (o : Offset) :
    takeOffset? (takeChar? ':') o.text = some (o.seconds, []) := by
  have hhours : o.hours < 100 := Nat.lt_trans o.hours_ok (by decide)
  have hminutes : o.minutes < 100 := Nat.lt_trans o.minutes_ok (by decide)
  have hlast := takeFixed?_padded (w := 2) (by decide) hminutes []
  rw [List.append_nil] at hlast
  rw [takeOffset?, text, takeSign?_cons o.sign_ok, Option.bind_eq_bind, Option.bind_some]
  simp only [↓bind_takeFixed? (w := 2) (by decide) hhours, ↓bind_takeChar?, hlast,
    Option.bind_eq_bind, Option.bind_some]
  rw [if_pos o.minutes_ok, seconds]
  by_cases hplus : o.sign = '+'
  · simp [hplus]
  · simp [hplus]

theorem takeZone?_text (o : Offset) : takeZone? o.text = some (o.seconds, []) := by
  have hzone := takeZone?_cons_of_ne o.sign_ok.ne.2
    (Numeral.padded 2 o.hours ++ ':' :: Numeral.padded 2 o.minutes)
  rw [← text, takeOffset?_text] at hzone
  rw [hzone]
  exact Option.filter_some_pos (by simpa using o.seconds_ok)

end Offset

/-! ## Four texts -/

section Texts

variable (f : Figures)

theorem read?_compact : read? f.compact = (f.moment? 0 0).map (.compact, ·) := by
  have hcompact : readCompact? f.compact = f.moment? 0 0 := by
    rw [Figures.compact, readCompact?_padded f.year_ok f.month_ok f.day_ok, clock_eq]
    exact readLocal?_stamp f []
  have hothers := (fifthDigit_compact f).read?
  have hrfc3339 := hothers .rfc3339 (by decide)
  have hoffset := hothers .hyphenatedOffset (by decide)
  have hlocal := hothers .hyphenatedLocal (by decide)
  simp only [read?, Layout.all, List.findSome?, hrfc3339, hoffset, hlocal]
  rw [Layout.read?, hcompact]
  cases f.moment? 0 0 <;> rfl

theorem read?_stamp : read? (f.stamp 'T' []) = (f.moment? 0 0).map (.hyphenatedLocal, ·) := by
  have hcompact := readCompact?_stamp f 'T' []
  have hrfc3339 : readRfc3339? (f.stamp 'T' []) = none := readRfc3339?_stamp f [] (.inl rfl)
  have hoffset : readOffset? (f.stamp 'T' []) = none := readOffset?_stamp f []
  have hlocal : readLocal? (f.stamp 'T' []) = f.moment? 0 0 := readLocal?_stamp f []
  simp only [read?, Layout.all, List.findSome?, Layout.read?, hcompact, hrfc3339, hoffset, hlocal]
  cases f.moment? 0 0 <;> rfl

theorem read?_stamp_utc : read? (f.stamp 'T' ['Z']) = (f.moment? 0 0).map (.rfc3339, ·) := by
  have hcompact := readCompact?_stamp f 'T' ['Z']
  have hrfc3339 : readRfc3339? (f.stamp 'T' ['Z']) = f.moment? 0 0 :=
    readRfc3339?_stamp f ['Z'] (.inl rfl)
  have hoffset : readOffset? (f.stamp 'T' ['Z']) = none := readOffset?_stamp f ['Z']
  have hlocal : readLocal? (f.stamp 'T' ['Z']) = none := readLocal?_stamp f ['Z']
  simp only [read?, Layout.all, List.findSome?, Layout.read?, hcompact, hrfc3339, hoffset, hlocal]
  cases f.moment? 0 0 <;> rfl

theorem read?_stamp_offset (o : Offset) :
    read? (f.stamp 'T' o.text) = (f.moment? 0 o.seconds).map (.rfc3339, ·) := by
  have hcompact := readCompact?_stamp f 'T' o.text
  have hrfc3339 : readRfc3339? (f.stamp 'T' o.text) = f.moment? 0 o.seconds := by
    have hnano : takeNanoseconds? o.text = some (0, o.text) :=
      takeNanoseconds?_cons_of_ne o.sign_ok.ne.1 _
    rw [readRfc3339?_stamp f o.text (.inl rfl), hnano, Option.bind_some, o.takeZone?_text]
    rfl
  have hoffset : readOffset? (f.stamp 'T' o.text) = f.moment? 0 o.seconds := by
    have htrim : Blank.trimStart o.text = o.text := trimStart_cons_of_isSign o.sign_ok _
    rw [readOffset?_stamp, htrim, takeOffset?_skipColons o.takeOffset?_text]
    rfl
  have hlocal : readLocal? (f.stamp 'T' o.text) = none := readLocal?_stamp f o.text
  simp only [read?, Layout.all, List.findSome?, Layout.read?, hcompact, hrfc3339, hoffset, hlocal]
  cases f.moment? 0 o.seconds <;> rfl

end Texts

end Calendar

end XmlRpc
