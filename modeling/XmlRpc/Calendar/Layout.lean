/-
# Layouts of dates

Four layouts are read, in this order; the first that fits a text decides:

    compact            20060102T15:04:05
    rfc3339            2006-01-02T15:04:05Z, or with an offset or a fraction
    hyphenatedOffset   2006-01-02T15:04:05-07:00
    hyphenatedLocal    2006-01-02T15:04:05, taken to be UTC

The compact layout is written.  RFC 3339 fixes the width of every field.  The
hyphenated layouts take numbers as they come: blanks may stand before each,
leading zeros may be missing, and a year with a sign may have any length.

Second 60 is a leap second.
-/
import XmlRpc.Calendar.Basic
import XmlRpc.Text.Blank
import XmlRpc.Text.Numeral

namespace XmlRpc

namespace Calendar

inductive Layout where
  | compact
  | rfc3339
  | hyphenatedOffset
  | hyphenatedLocal
  deriving DecidableEq, Repr

/-! ## Pieces of a text

A reader takes what it wants off the front of a text and gives back what is
left, or refuses. -/

def takeChar? (c : Char) : List Char → Option (List Char)
  | [] => none
  | d :: r => if d = c then some r else none

/-- Takes digits, as many as there are but at most `width`. -/
def takeDigits : (width : Nat) → List Char → List Char × List Char
  | 0, cs => ([], cs)
  | _, [] => ([], [])
  | width + 1, c :: cs =>
    if (Numeral.decimalDigit? c).isSome then
      let (ds, r) := takeDigits width cs
      (c :: ds, r)
    else ([], c :: cs)

/-- Takes a number of at least one and at most `width` digits. -/
def takeNumber? (width : Nat) (cs : List Char) : Option (Nat × List Char) :=
  let (ds, r) := takeDigits width cs
  (Numeral.decimal? ds).map fun n => (n, r)

/-- Takes a number of exactly `width` digits. -/
def takeFixed? (width : Nat) (cs : List Char) : Option (Nat × List Char) :=
  let (ds, r) := takeDigits width cs
  if ds.length = width then (Numeral.decimal? ds).map fun n => (n, r) else none

/-- Takes a number of at most two digits behind blanks. -/
def takeField? (cs : List Char) : Option (Nat × List Char) :=
  takeNumber? 2 (Blank.trimStart cs)

/-- Takes a year behind blanks: four digits at most, or any number of them
behind a sign. -/
def takeYear? (cs : List Char) : Option (Int × List Char) :=
  match Blank.trimStart cs with
  | '-' :: r => (takeNumber? r.length r).map fun (n, r) => (-(n : Int), r)
  | '+' :: r => (takeNumber? r.length r).map fun (n, r) => ((n : Int), r)
  | r => (takeNumber? 4 r).map fun (n, r) => ((n : Int), r)

/-! ## Offsets -/

/-- Takes a sign: `+`, `-`, or the minus sign U+2212.  True is a minus. -/
def takeSign? : List Char → Option (Bool × List Char)
  | [] => none
  | c :: r =>
    if c = '+' then some (false, r)
    else if c = '-' || c = '\u2212' then some (true, r)
    else none

/-- Takes an offset, in seconds: a sign, two digits of hours, whatever
`between` takes, two digits of minutes. -/
def takeOffset? (between : List Char → Option (List Char)) (cs : List Char) :
    Option (Int × List Char) := do
  let (negative, r) ← takeSign? cs
  let (hours, r) ← takeFixed? 2 r
  let r ← between r
  let (minutes, r) ← takeFixed? 2 r
  if minutes < 60 then
    let s : Int := hours * 3600 + minutes * 60
    return (if negative then -s else s, r)
  else none

def skipColons (cs : List Char) : List Char :=
  cs.dropWhile fun c => c == ':' || Blank.isUnicode c

/-! ## Moments -/

/-- The time with those parts, where second 60 is the leap second. -/
def timeOf? (hour minute second nanosecond : Nat) : Option Time :=
  if second = 60 then Time.of? hour minute 59 (1000000000 + nanosecond)
  else Time.of? hour minute second nanosecond

/-- The supported moment with that date, time and offset. -/
def momentOf? (date : Date) (time : Time) (offset : Int) : Option DateTime :=
  if h : -86400 < offset ∧ offset < 86400 then
    let d : DateTime := ⟨date, time, offset, h⟩
    if d.isSupported then some d else none
  else none

/-! ## The layouts -/

def takeHyphenated? (cs : List Char) : Option ((Date × Time) × List Char) := do
  let (year, r) ← takeYear? cs
  let r ← takeChar? '-' r
  let (month, r) ← takeField? r
  let r ← takeChar? '-' r
  let (day, r) ← takeField? r
  let r ← takeChar? 'T' r
  let (hour, r) ← takeField? r
  let r ← takeChar? ':' r
  let (minute, r) ← takeField? r
  let r ← takeChar? ':' r
  let (second, r) ← takeField? r
  let date ← Date.of? year month day
  let time ← timeOf? hour minute second 0
  return ((date, time), r)

/-- A moment in the hyphenated layout without an offset. -/
def readLocal? (cs : List Char) : Option DateTime := do
  let ((date, time), r) ← takeHyphenated? cs
  if r.isEmpty then momentOf? date time 0 else none

/-- A moment in the hyphenated layout with an offset, before which and inside
which blanks may stand. -/
def readOffset? (cs : List Char) : Option DateTime := do
  let ((date, time), r) ← takeHyphenated? cs
  let (offset, r) ← takeOffset? (fun r => some (skipColons r)) (Blank.trimStart r)
  if r.isEmpty then momentOf? date time offset else none

/-- A moment in the compact layout: eight digits, which are cut into fields
of fixed width, before the first `T`. -/
def readCompact? (cs : List Char) : Option DateTime :=
  let (ds, r) := cs.span (· != 'T')
  if r.isEmpty || ds.length != 8
      || ds.any (fun c => (Numeral.decimalDigit? c).isNone) then none
  else
    readLocal?
      (ds.take 4 ++ '-' :: ((ds.drop 4).take 2 ++ '-' :: (ds.drop 6 ++ r)))

/-- Takes a fraction of a second, if there is one, in nanoseconds; digits
behind the ninth do not count. -/
def takeNanoseconds? : List Char → Option (Nat × List Char)
  | '.' :: r =>
      let (ds, r) := takeDigits 9 r
      (Numeral.decimal? ds).map fun n =>
        (n * Nat.pow 10 (9 - ds.length),
          r.dropWhile fun c => (Numeral.decimalDigit? c).isSome)
  | r => some (0, r)

/-- Takes an offset of RFC 3339: `Z`, or less than a day behind a sign. -/
def takeZone? : List Char → Option (Int × List Char)
  | [] => none
  | c :: r =>
    if c = 'Z' || c = 'z' then some (0, r)
    else (takeOffset? (takeChar? ':') (c :: r)).filter fun (offset, _) =>
      -86400 < offset && offset < 86400

def readRfc3339? (cs : List Char) : Option DateTime := do
  let (year, r) ← takeFixed? 4 cs
  let r ← takeChar? '-' r
  let (month, r) ← takeFixed? 2 r
  let r ← takeChar? '-' r
  let (day, r) ← takeFixed? 2 r
  let r ← (takeChar? 'T' r <|> takeChar? 't' r <|> takeChar? ' ' r)
  let (hour, r) ← takeFixed? 2 r
  let r ← takeChar? ':' r
  let (minute, r) ← takeFixed? 2 r
  let r ← takeChar? ':' r
  let (second, r) ← takeFixed? 2 r
  let (nanosecond, r) ← takeNanoseconds? r
  let (offset, r) ← takeZone? r
  let date ← Date.of? year month day
  let time ← timeOf? hour minute second nanosecond
  if r.isEmpty then momentOf? date time offset else none

/-! ## Reading and writing -/

/-- The layouts in the order in which they are tried. -/
def Layout.all : List Layout := [.compact, .rfc3339, .hyphenatedOffset, .hyphenatedLocal]

def Layout.read? : Layout → List Char → Option DateTime
  | .compact => readCompact?
  | .rfc3339 => readRfc3339?
  | .hyphenatedOffset => readOffset?
  | .hyphenatedLocal => readLocal?

/-- The first layout that fits a text, and the moment the text denotes in
it. -/
def read? (cs : List Char) : Option (Layout × DateTime) :=
  Layout.all.findSome? fun l => (l.read? cs).map (l, ·)

/-- A year in four digits, or with its sign where four digits do not hold
it. -/
def yearText (year : Int) : List Char :=
  if 0 ≤ year && year ≤ 9999 then Numeral.padded 4 year.toNat
  else (if year < 0 then '-' else '+') :: Numeral.padded 4 year.natAbs

/-- The second shown, which is 60 in a leap second that follows second 59. -/
def shownSecond (t : Time) : Nat := t.second + t.nanosecond / 1000000000

/-- The compact text of what the clock of a moment shows. -/
def compactText (d : DateTime) : List Char :=
  yearText d.date.year ++ Numeral.padded 2 d.date.month
    ++ Numeral.padded 2 d.date.day ++ 'T' :: Numeral.padded 2 d.time.hour
    ++ ':' :: Numeral.padded 2 d.time.minute
    ++ ':' :: Numeral.padded 2 (shownSecond d.time)

end Calendar

end XmlRpc
