/-
# The compact layout read back

The compact text of a moment on a clock that shows UTC denotes that moment as
its figures show it, for the years that four digits hold:

    nanosecond < 10⁹                  the second itself
    nanosecond ≥ 10⁹, second = 59     the leap second, shown as 60
    nanosecond ≥ 10⁹, second < 59     the second after, an ordinary one

So a leap second loses its fraction and stays a leap second only at the end of
its minute (`Time.asShown_of_leapsLast`).
-/
import XmlRpc.Calendar.Layout
import XmlRpc.Proofs.Text.Numeral

namespace XmlRpc

/-! ## Whole seconds, and seconds as shown -/

theorem Time.zero_ok : 0 < 2000000000 := Nat.zero_lt_succ _

theorem Time.leap_ok : 1000000000 < 2000000000 := by decide

theorem Time.after_ok (t : Time) (h : t.second ≠ 59) : t.second + 1 < 60 := by
  have := t.second_ok
  omega

/-- The time without its fraction of a second; a leap second stays one. -/
def Time.wholeSeconds (t : Time) : Time :=
  if t.nanosecond < 1000000000 then { t with nanosecond := 0, nanosecond_ok := Time.zero_ok }
  else { t with nanosecond := 1000000000, nanosecond_ok := Time.leap_ok }

/-- Whether a leap second, if this is one, is the last second of its minute. -/
def Time.LeapsLast (t : Time) : Prop := t.nanosecond < 1000000000 ∨ t.second = 59

/-- The time that hour, minute and second show.  A leap second behind another
second than 59 shows, and stands for, the ordinary second after. -/
def Time.asShown (t : Time) : Time :=
  if t.nanosecond < 1000000000 then { t with nanosecond := 0, nanosecond_ok := Time.zero_ok }
  else if h : t.second = 59 then { t with nanosecond := 1000000000, nanosecond_ok := Time.leap_ok }
  else
    { t with
      second := t.second + 1, second_ok := t.after_ok h
      nanosecond := 0, nanosecond_ok := Time.zero_ok }

def DateTime.wholeSeconds (d : DateTime) : DateTime := { d with time := d.time.wholeSeconds }

def DateTime.asShown (d : DateTime) : DateTime := { d with time := d.time.asShown }

theorem Time.asShown_of_leapsLast {t : Time} (h : t.LeapsLast) : t.asShown = t.wholeSeconds := by
  rw [asShown, wholeSeconds]
  rcases h with hlt | h59
  · rw [if_pos hlt, if_pos hlt]
  · rw [dif_pos h59]

theorem DateTime.asShown_of_leapsLast {d : DateTime} (h : d.time.LeapsLast) :
    d.asShown = d.wholeSeconds := by
  rw [asShown, wholeSeconds, Time.asShown_of_leapsLast h]

@[simp] theorem Time.hour_asShown (t : Time) : t.asShown.hour = t.hour := by
  rw [Time.asShown]
  split
  · rfl
  · split <;> rfl

@[simp] theorem Time.minute_asShown (t : Time) : t.asShown.minute = t.minute := by
  rw [Time.asShown]
  split
  · rfl
  · split <;> rfl

theorem Time.asShown_cases (t : Time) :
    t.asShown.nanosecond = 0 ∨
      t.asShown.nanosecond = 1000000000 ∧ t.asShown.second = 59 := by
  rw [Time.asShown]
  split
  · exact .inl rfl
  · split
    · rename_i h
      exact .inr ⟨rfl, h⟩
    · exact .inl rfl

theorem Time.asShown_asShown (t : Time) :
    t.asShown.asShown = t.asShown := by
  have hcases := t.asShown_cases
  generalize t.asShown = s at hcases ⊢
  obtain ⟨hour, minute, second, nanosecond, _, _, _, _⟩ := s
  rcases hcases with rfl | ⟨rfl, rfl⟩ <;> rfl

theorem DateTime.asShown_asShown (d : DateTime) :
    d.asShown.asShown = d.asShown := by
  rw [asShown, asShown, Time.asShown_asShown]

/-! ## Clocks that show UTC -/

theorem Time.ofSeconds_seconds (t : Time) :
    Time.ofSeconds t.seconds t.nanosecond t.nanosecond_ok = t := by
  have hh := t.hour_ok
  have hm := t.minute_ok
  have hs := t.second_ok
  have hhour : t.seconds / 3600 % 24 = t.hour := by
    rw [Time.seconds]
    omega
  have hminute : t.seconds / 60 % 60 = t.minute := by
    rw [Time.seconds]
    omega
  have hsecond : t.seconds % 60 = t.second := by
    rw [Time.seconds]
    omega
  simp only [Time.ofSeconds, hhour, hminute, hsecond]

theorem Time.seconds_lt (t : Time) : t.seconds < 86400 := by
  have hh := t.hour_ok
  have hm := t.minute_ok
  have hs := t.second_ok
  rw [Time.seconds]
  omega

theorem DateTime.localAsUtc_self {d : DateTime} (h : d.offset = 0) : d.localAsUtc = d := by
  cases d with
  | mk date time offset ok =>
      cases h
      rfl

theorem DateTime.toUtc_self {d : DateTime} (h : d.offset = 0) : d.toUtc = d := by
  have hlt := d.time.seconds_lt
  rw [DateTime.toUtc, h, Int.sub_zero, if_neg (by omega), if_pos (by omega)]
  simp only [Int.toNat_natCast, Time.ofSeconds_seconds]
  exact DateTime.localAsUtc_self h

theorem DateTime.offset_toUtc (d : DateTime) : d.toUtc.offset = 0 := by
  rw [DateTime.toUtc]
  split
  · rfl
  · split <;> rfl

namespace Calendar

theorem Date.of?_self (d : Date) : Date.of? d.year d.month d.day = some d := by
  rw [Date.of?, dif_pos ⟨d.month_ok, d.day_ok⟩]

theorem timeOf?_shownSecond (t : Time) :
    timeOf? t.hour t.minute (shownSecond t) 0 = some t.asShown := by
  have hs := t.second_ok
  have hn := t.nanosecond_ok
  have hshown : shownSecond t = t.second + t.nanosecond / 1000000000 := rfl
  rw [timeOf?, Time.asShown]
  by_cases hlt : t.nanosecond < 1000000000
  · have hsame : shownSecond t = t.second := by omega
    rw [hsame, if_neg (by omega), if_pos hlt]
    exact dif_pos ⟨t.hour_ok, t.minute_ok, hs, by decide⟩
  · have hafter : shownSecond t = t.second + 1 := by omega
    rw [hafter, if_neg hlt]
    by_cases h59 : t.second = 59
    · rw [if_pos (by omega), dif_pos h59]
      simp only [h59]
      exact dif_pos ⟨t.hour_ok, t.minute_ok, by decide, by decide⟩
    · rw [if_neg (by omega), dif_neg h59]
      exact dif_pos ⟨t.hour_ok, t.minute_ok, by omega, by decide⟩

theorem shownSecond_asShown (t : Time) : shownSecond t.asShown = shownSecond t := by
  have hn := t.nanosecond_ok
  have hshown : shownSecond t = t.second + t.nanosecond / 1000000000 := rfl
  rw [Time.asShown, hshown]
  split
  · show t.second + 0 / 1000000000 = _
    omega
  · split
    · show t.second + 1000000000 / 1000000000 = _
      omega
    · show t.second + 1 + 0 / 1000000000 = _
      omega

/-- The fraction of a second is not written. -/
theorem compactText_asShown (d : DateTime) : compactText d.asShown = compactText d := by
  have hdate : d.asShown.date = d.date := rfl
  have htime : d.asShown.time = d.time.asShown := rfl
  rw [compactText, compactText, hdate, htime, Time.hour_asShown, Time.minute_asShown,
    shownSecond_asShown]

/-! ## Fields -/

theorem takeDigits_of_isDigit {ds : List Char} (h : ∀ c ∈ ds, c.isDigit = true) (r : List Char) :
    takeDigits ds.length (ds ++ r) = (ds, r) := by
  induction ds with
  | nil => cases r <;> rfl
  | cons c ds ih =>
      have hc : (Numeral.decimalDigit? c).isSome = true := by
        rw [Numeral.isSome_decimalDigit?]
        exact h c List.mem_cons_self
      rw [List.length_cons, List.cons_append, takeDigits, if_pos hc,
        ih fun e he => h e (List.mem_cons_of_mem c he)]

theorem takeNumber?_padded {w n : Nat} (hw : 0 < w) (h : n < Nat.pow 10 w) (r : List Char) :
    takeNumber? w (Numeral.padded w n ++ r) = some (n, r) := by
  have hd := takeDigits_of_isDigit (Numeral.isDigit_padded w n) r
  rw [Numeral.length_padded hw h] at hd
  rw [takeNumber?, hd]
  show (Numeral.decimal? (Numeral.padded w n)).map (fun m => (m, r)) = _
  rw [Numeral.decimal?_padded]
  rfl

theorem not_isUnicode_of_isDigit {c : Char} (h : c.isDigit = true) : Blank.isUnicode c = false := by
  have hge : 48 ≤ c.toNat := (Char.isDigit_iff_toNat.mp h).1
  have hle : c.toNat ≤ 57 := (Char.isDigit_iff_toNat.mp h).2
  rw [Bool.eq_false_iff]
  intro hb
  simp only [Blank.isUnicode, Bool.or_eq_true, Bool.and_eq_true, decide_eq_true_eq,
    beq_iff_eq] at hb
  omega

theorem head_padded (w n : Nat) (r : List Char) :
    ∃ c cs, Numeral.padded w n ++ r = c :: cs ∧ c.isDigit = true := by
  match h : Numeral.padded w n with
  | [] => exact absurd h (Numeral.padded_ne_nil w n)
  | c :: cs =>
      refine ⟨c, cs ++ r, rfl, Numeral.isDigit_padded w n c ?_⟩
      rw [h]
      exact List.mem_cons_self

theorem trimStart_padded (w n : Nat) (r : List Char) :
    Blank.trimStart (Numeral.padded w n ++ r) = Numeral.padded w n ++ r := by
  obtain ⟨c, cs, hcs, hc⟩ := head_padded w n r
  rw [hcs, Blank.trimStart, List.dropWhile_cons, not_isUnicode_of_isDigit hc]
  rfl

theorem takeField?_padded {n : Nat} (h : n < 100) (r : List Char) :
    takeField? (Numeral.padded 2 n ++ r) = some (n, r) := by
  rw [takeField?, trimStart_padded]
  exact takeNumber?_padded (by decide) h r

theorem takeYear?_padded {n : Nat} (h : n < 10000) (r : List Char) :
    takeYear? (Numeral.padded 4 n ++ r) = some ((n : Int), r) := by
  have hnum := takeNumber?_padded (w := 4) (by decide) h r
  obtain ⟨c, cs, hcs, hc⟩ := head_padded 4 n r
  rw [takeYear?, trimStart_padded]
  split
  · rename_i heq
    rw [hcs] at heq
    cases heq
    exact absurd hc (by decide)
  · rename_i heq
    rw [hcs] at heq
    cases heq
    exact absurd hc (by decide)
  · rw [hnum]
    rfl

/-! ## Moments -/

theorem daysInMonth_le (year : Int) (month : Nat) : daysInMonth year month ≤ 31 := by
  rw [daysInMonth]
  split
  · split <;> decide
  · split <;> decide

theorem daysBeforeMonth_le (year : Int) (month : Nat) :
    Date.daysBeforeMonth year month ≤ 31 * month := by
  induction month using Date.daysBeforeMonth.induct with
  | case1 => exact Nat.zero_le _
  | case2 => exact Nat.zero_le _
  | case3 month ih =>
      have hlen := daysInMonth_le year (month + 1)
      rw [Date.daysBeforeMonth]
      omega

theorem inCalendar_of_year {d : DateTime} (hy : 0 ≤ d.date.year ∧ d.date.year ≤ 9999) :
    d.inCalendar = true := by
  simp only [DateTime.inCalendar, Bool.and_eq_true, decide_eq_true_eq]
  simp only [DateTime.firstYear, DateTime.lastYear]
  omega

theorem isSupported_of_year {d : DateTime} (hy : 0 ≤ d.date.year ∧ d.date.year ≤ 9999) :
    d.isSupported = true := by
  have ho := d.offset_ok
  have hm := d.date.month_ok
  have hd := d.date.day_ok
  have hbefore := daysBeforeMonth_le d.date.year d.date.month
  have hlen := daysInMonth_le d.date.year d.date.month
  have hhour := d.time.hour_ok
  have hminute := d.time.minute_ok
  have hsecond := d.time.second_ok
  have hfirst : (Date.mk DateTime.firstYear 1 1 (by decide) (by decide)).number = -95746129 := by
    decide
  have hlast : (Date.mk DateTime.lastYear 12 31 (by decide) (by decide)).number = 95745399 := by
    decide
  simp only [DateTime.isSupported, inCalendar_of_year hy, Bool.and_eq_true, Bool.true_and,
    decide_eq_true_eq, hfirst, hlast]
  simp only [DateTime.instant, Date.number, Time.seconds]
  omega

theorem momentOf?_self {d : DateTime} (h : d.isSupported = true) :
    momentOf? d.date d.time d.offset = some d := by
  rw [momentOf?, dif_pos d.offset_ok]
  exact if_pos h

/-! ## The layout -/

section Text

variable {year month day hour minute second : Nat}

def hyphenated (year month day : Nat) (time : List Char) : List Char :=
  Numeral.padded 4 year ++ '-' :: (Numeral.padded 2 month ++ '-' :: (Numeral.padded 2 day ++ time))

/-- The time in all layouts that are not RFC 3339. -/
def clock (hour minute second : Nat) : List Char :=
  'T' :: (Numeral.padded 2 hour ++ ':' :: (Numeral.padded 2 minute ++
    ':' :: Numeral.padded 2 second))

/-- The figures of a time, and what follows. -/
def clockBefore (hour minute second : Nat) (rest : List Char) : List Char :=
  Numeral.padded 2 hour ++ ':' :: (Numeral.padded 2 minute ++
    ':' :: (Numeral.padded 2 second ++ rest))

theorem clock_eq (hour minute second : Nat) :
    clock hour minute second = 'T' :: clockBefore hour minute second [] := by
  rw [clock, clockBefore, List.append_nil]

theorem takeChar?_cons (c : Char) (r : List Char) : takeChar? c (c :: r) = some r := if_pos rfl

theorem takeHyphenated?_hyphenated (hy : year < 10000) (hmo : month < 100) (hd : day < 100)
    (hh : hour < 100) (hmi : minute < 100) (hs : second < 100) (r : List Char) :
    takeHyphenated? (hyphenated year month day ('T' :: clockBefore hour minute second r))
      = (Date.of? year month day).bind fun date =>
          (timeOf? hour minute second 0).map fun time => ((date, time), r) := by
  rw [hyphenated, clockBefore, takeHyphenated?, takeYear?_padded hy]
  simp only [Option.bind_eq_bind, Option.bind_some, takeChar?_cons, takeField?_padded hmo,
    takeField?_padded hd, takeField?_padded hh, takeField?_padded hmi, takeField?_padded hs]
  cases Date.of? year month day <;> cases timeOf? hour minute second 0 <;> rfl

theorem span_digits {ds : List Char} (h : ∀ c ∈ ds, c.isDigit = true) (r : List Char) :
    (ds ++ 'T' :: r).span (· != 'T') = (ds, 'T' :: r) := by
  refine Numeral.span_run ?_ ?_
  · intro c hc
    rw [bne_iff_ne]
    rintro rfl
    exact absurd (h _ hc) (by decide)
  · intro c hc
    cases hc
    rfl

/-- The fields of the compact layout are those of the hyphenated one. -/
theorem readCompact?_padded (hy : year < 10000) (hmo : month < 100) (hd : day < 100)
    (hour minute second : Nat) :
    readCompact? (Numeral.padded 4 year ++ (Numeral.padded 2 month ++ Numeral.padded 2 day)
        ++ clock hour minute second)
      = readLocal? (hyphenated year month day (clock hour minute second)) := by
  have hyl := Numeral.length_padded (w := 4) (by decide) hy
  have hml := Numeral.length_padded (w := 2) (by decide) hmo
  have hdl := Numeral.length_padded (w := 2) (by decide) hd
  have hdigit : ∀ c ∈ Numeral.padded 4 year ++ (Numeral.padded 2 month ++ Numeral.padded 2 day),
      c.isDigit = true := by
    intro c hc
    rcases List.mem_append.mp hc with hc | hc
    · exact Numeral.isDigit_padded 4 year c hc
    · rcases List.mem_append.mp hc with hc | hc
      · exact Numeral.isDigit_padded 2 month c hc
      · exact Numeral.isDigit_padded 2 day c hc
  have hany : (Numeral.padded 4 year ++ (Numeral.padded 2 month ++ Numeral.padded 2 day)).any
      (fun c => (Numeral.decimalDigit? c).isNone) = false := by
    rw [List.any_eq_false]
    intro c hc
    have hsome := hdigit c hc
    rw [← Numeral.isSome_decimalDigit?] at hsome
    simp [Option.isNone_iff_eq_none, Option.isSome_iff_ne_none.mp hsome]
  have hlen : (Numeral.padded 4 year ++ (Numeral.padded 2 month ++ Numeral.padded 2 day)).length
      = 8 := by
    simp [hyl, hml, hdl]
  rw [readCompact?, clock, span_digits hdigit]
  simp only [List.isEmpty_cons, hlen, hany, Bool.or_false]
  rw [if_neg (by decide), hyphenated]
  congr 1
  rw [List.take_left' hyl, List.drop_left' hyl, List.take_left' hml]
  rw [← List.append_assoc, List.drop_left' (by simp [hyl, hml])]

end Text

theorem compactText_eq {d : DateTime} (hy : 0 ≤ d.date.year ∧ d.date.year ≤ 9999) :
    compactText d = Numeral.padded 4 d.date.year.toNat
        ++ (Numeral.padded 2 d.date.month ++ Numeral.padded 2 d.date.day)
        ++ clock d.time.hour d.time.minute (shownSecond d.time) := by
  have hyear : yearText d.date.year = Numeral.padded 4 d.date.year.toNat :=
    if_pos (by simpa using hy)
  simp [compactText, hyear, clock]

/-- The compact text of a moment denotes the moment as it is shown. -/
theorem read?_compactText {d : DateTime} (ho : d.offset = 0)
    (hy : 0 ≤ d.date.year ∧ d.date.year ≤ 9999) :
    read? (compactText d) = some (.compact, d.asShown) := by
  have hm := d.date.month_ok
  have hday := d.date.day_ok
  have hlen := daysInMonth_le d.date.year d.date.month
  have hhour := d.time.hour_ok
  have hminute := d.time.minute_ok
  have hsecond := d.time.second_ok
  have hnano := d.time.nanosecond_ok
  have hshown : shownSecond d.time = d.time.second + d.time.nanosecond / 1000000000 := rfl
  have hyear : ((d.date.year.toNat : Nat) : Int) = d.date.year := Int.toNat_of_nonneg hy.1
  have hdate : Date.of? d.date.year.toNat d.date.month d.date.day = some d.date := by
    rw [hyear]
    exact Date.of?_self d.date
  have htake : takeHyphenated? (hyphenated d.date.year.toNat d.date.month d.date.day
      (clock d.time.hour d.time.minute (shownSecond d.time)))
        = some ((d.date, d.time.asShown), []) := by
    rw [clock_eq, takeHyphenated?_hyphenated (by omega) (by omega) (by omega) (by omega)
      (by omega) (by omega), hdate, timeOf?_shownSecond]
    rfl
  have hsupported : d.asShown.isSupported = true := isSupported_of_year hy
  have hmoment := momentOf?_self hsupported
  rw [show d.asShown.offset = 0 from ho] at hmoment
  have hcompact : readCompact? (compactText d) = some d.asShown := by
    rw [compactText_eq hy, readCompact?_padded (by omega) (by omega) (by omega), readLocal?, htake]
    simp only [Option.bind_eq_bind, Option.bind_some, List.isEmpty_nil, if_true]
    exact hmoment
  simp only [read?, Layout.all, List.findSome?, Layout.read?, hcompact]
  rfl

end Calendar

end XmlRpc
