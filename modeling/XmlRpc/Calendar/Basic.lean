/-
# Dates and times

A moment as a clock on the wall shows it, and how far that clock is ahead of
UTC.  The calendar is the Gregorian one, carried on without end in both
directions; there is a year 0, and it is a leap year.

A leap second is the second it follows, with a thousand million nanoseconds
or more.

Two moments are the same *instant* when they agree after each is taken back
to UTC, whatever their offsets.
-/

namespace XmlRpc

namespace Calendar

def isLeap (year : Int) : Bool :=
  year % 4 == 0 && (year % 100 != 0 || year % 400 == 0)

/-- The length of a month, January being 1. -/
def daysInMonth (year : Int) (month : Nat) : Nat :=
  if month = 2 then (if isLeap year then 29 else 28)
  else if month = 4 || month = 6 || month = 9 || month = 11 then 30
  else 31

theorem one_le_daysInMonth (year : Int) (month : Nat) :
    1 ≤ daysInMonth year month := by
  unfold daysInMonth
  split
  · split <;> decide
  · split <;> decide

end Calendar

open Calendar

structure Date where
  year : Int
  month : Nat
  day : Nat
  month_ok : 1 ≤ month ∧ month ≤ 12
  day_ok : 1 ≤ day ∧ day ≤ daysInMonth year month
  deriving DecidableEq

/-- A time of day. -/
structure Time where
  hour : Nat
  minute : Nat
  second : Nat
  nanosecond : Nat
  hour_ok : hour < 24
  minute_ok : minute < 60
  second_ok : second < 60
  nanosecond_ok : nanosecond < 2000000000
  deriving DecidableEq

namespace Date

def of? (year : Int) (month day : Nat) : Option Date :=
  if h : (1 ≤ month ∧ month ≤ 12) ∧ 1 ≤ day ∧ day ≤ daysInMonth year month then
    some ⟨year, month, day, h.1, h.2⟩
  else none

def next (d : Date) : Date :=
  if h : d.day < daysInMonth d.year d.month then
    ⟨d.year, d.month, d.day + 1, d.month_ok, by omega⟩
  else if hm : d.month < 12 then
    ⟨d.year, d.month + 1, 1, by omega, Nat.le_refl 1, one_le_daysInMonth _ _⟩
  else ⟨d.year + 1, 1, 1, by omega, Nat.le_refl 1, one_le_daysInMonth _ _⟩

def previous (d : Date) : Date :=
  if h : 1 < d.day then
    ⟨d.year, d.month, d.day - 1, d.month_ok, by have := d.day_ok; omega⟩
  else if hm : 1 < d.month then
    ⟨d.year, d.month - 1, daysInMonth d.year (d.month - 1),
      by have := d.month_ok; omega, one_le_daysInMonth _ _, Nat.le_refl _⟩
  else
    ⟨d.year - 1, 12, daysInMonth (d.year - 1) 12, by omega,
      one_le_daysInMonth _ _, Nat.le_refl _⟩

/-- The days of a year before its month `month`. -/
def daysBeforeMonth (year : Int) : (month : Nat) → Nat
  | 0 => 0
  | 1 => 0
  | month + 2 => daysBeforeMonth year (month + 1) + daysInMonth year (month + 1)

/-- The number of a day, counted from the last day of the year 0. -/
def number (d : Date) : Int :=
  let y := d.year - 1
  365 * y + y / 4 - y / 100 + y / 400 + daysBeforeMonth d.year d.month + d.day

end Date

namespace Time

def of? (hour minute second nanosecond : Nat) : Option Time :=
  if h : hour < 24 ∧ minute < 60 ∧ second < 60 ∧ nanosecond < 2000000000 then
    some ⟨hour, minute, second, nanosecond, h.1, h.2.1, h.2.2.1, h.2.2.2⟩
  else none

/-- The seconds of the day before this one. -/
def seconds (t : Time) : Nat := t.hour * 3600 + t.minute * 60 + t.second

/-- The time that many seconds into a day; whole days do not count. -/
def ofSeconds (s nanosecond : Nat) (h : nanosecond < 2000000000) : Time :=
  ⟨s / 3600 % 24, s / 60 % 60, s % 60, nanosecond,
    Nat.mod_lt _ (by decide), Nat.mod_lt _ (by decide), Nat.mod_lt _ (by decide), h⟩

end Time

/-- A moment on a clock that is `offset` seconds ahead of UTC. -/
structure DateTime where
  date : Date
  time : Time
  offset : Int
  offset_ok : -86400 < offset ∧ offset < 86400
  deriving DecidableEq

namespace DateTime

/-- A moment on a clock that shows UTC. -/
def utc (date : Date) (time : Time) : DateTime :=
  ⟨date, time, 0, by decide⟩

def epoch : DateTime :=
  utc ⟨1970, 1, 1, by decide, by decide⟩
    ⟨0, 0, 0, 0, by decide, by decide, by decide, by decide⟩

instance : Inhabited DateTime := ⟨epoch⟩

/-- The instant: seconds of UTC, and the nanoseconds in the last of them. -/
def instant (d : DateTime) : Int × Nat :=
  (d.date.number * 86400 + d.time.seconds - d.offset, d.time.nanosecond)

def sameInstant (a b : DateTime) : Bool := a.instant == b.instant

/-- The same instant on a clock that shows UTC.  An offset is less than a
day, so the date moves by one day at most. -/
def toUtc (d : DateTime) : DateTime :=
  let s : Int := d.time.seconds - d.offset
  let time (s : Int) : Time :=
    Time.ofSeconds s.toNat d.time.nanosecond d.time.nanosecond_ok
  if s < 0 then utc d.date.previous (time (s + 86400))
  else if s < 86400 then utc d.date (time s)
  else utc d.date.next (time (s - 86400))

/-- What the clock shows, taken to be UTC.  The offset may carry it out of the
supported part of the calendar (`inCalendar`). -/
def localAsUtc (d : DateTime) : DateTime := utc d.date d.time

def firstYear : Int := -262143

def lastYear : Int := 262142

/-- Whether the supported part has the date that the clock shows. -/
def inCalendar (d : DateTime) : Bool := firstYear ≤ d.date.year && d.date.year ≤ lastYear

/-- Whether a moment lies in the supported part, both as its own clock shows
it and in UTC. -/
def isSupported (d : DateTime) : Bool :=
  let first := Date.mk firstYear 1 1 (by decide) (by decide)
  let last := Date.mk lastYear 12 31 (by decide) (by decide)
  let s := d.instant.1
  d.inCalendar && first.number * 86400 ≤ s && s < (last.number + 1) * 86400

end DateTime

end XmlRpc
