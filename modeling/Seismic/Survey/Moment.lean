import Seismic.Decimal.Digits

/-!
# Moments in time

A moment is a count of seconds since the start of 1970 in universal time, with nanoseconds.
Its text is a date and a time of day in the proleptic Gregorian calendar.

Reading is lenient about the layout: the date and the time may be divided by a blank, blanks
may stand before numbers and divisions, and a year may have a sign and more than four
digits.  Writing always produces one form, with three, six or nine digits of fraction if
there is one.  A sixtieth second is kept as a second that is longer than others.
-/

namespace Seismic

structure Moment where
  /-- Seconds since the start of 1970. -/
  seconds : Int
  /-- Nanoseconds into the second, a thousand million or more within a leap second. -/
  nanoseconds : Nat
  deriving DecidableEq, Repr

namespace Moment

/-- The years a date can have. -/
def firstYear : Int := -262143

def lastYear : Int := 262142

def isLeapYear (year : Int) : Bool :=
  year % 4 == 0 && (year % 100 != 0 || year % 400 == 0)

def daysInMonth (year : Int) (month : Nat) : Nat :=
  match month with
  | 2 => if isLeapYear year then 29 else 28
  | 4 | 6 | 9 | 11 => 30
  | _ => 31

/-- Days from the first of March of the year zero to a date.  Years are counted from March,
so that a leap day is the last day of its year. -/
def daysFromMarch (year : Int) (month day : Nat) : Int :=
  let y := if month ≤ 2 then year - 1 else year
  let m := (month + 9) % 12
  365 * y + y / 4 - y / 100 + y / 400 + ((153 * m + 2) / 5 : Nat) + (day : Int) - 1

/-- Days from the first of January 1970 to a date. -/
def dayNumber (year : Int) (month day : Nat) : Int := daysFromMarch year month day - 719468

/-- Year, month and day of a day number.  The day is split into eras of 400 years, each with
146097 days. -/
def dateOf (days : Int) : Int × Nat × Nat :=
  let z := days + 719468
  let era := z / 146097
  let dayOfEra := (z % 146097).toNat
  let yearOfEra :=
    (dayOfEra - dayOfEra / 1460 + dayOfEra / 36524 - dayOfEra / 146096) / 365
  let dayOfYear := dayOfEra - (365 * yearOfEra + yearOfEra / 4 - yearOfEra / 100)
  let m := (5 * dayOfYear + 2) / 153
  let day := dayOfYear - (153 * m + 2) / 5 + 1
  let month := if m < 10 then m + 3 else m - 9
  let year := yearOfEra + era * 400
  (if month ≤ 2 then year + 1 else year, month, day)

/-! ## Writing -/

def yearText (year : Int) : List Char :=
  if 0 ≤ year ∧ year ≤ 9999 then Digits.padded 4 year.toNat
  else (if year < 0 then '-' else '+') :: Digits.padded 4 year.natAbs

/-- The fraction of a second, with as few groups of three digits as it needs. -/
def fractionText (nanoseconds : Nat) : List Char :=
  if nanoseconds = 0 then []
  else if nanoseconds % 1000000 = 0 then '.' :: Digits.padded 3 (nanoseconds / 1000000)
  else if nanoseconds % 1000 = 0 then '.' :: Digits.padded 6 (nanoseconds / 1000)
  else '.' :: Digits.padded 9 nanoseconds

def text (t : Moment) : String :=
  let (year, month, day) := dateOf (t.seconds / 86400)
  let time := (t.seconds % 86400).toNat
  let leap := t.nanoseconds / 1000000000
  String.ofList
    (yearText year ++ '-' :: Digits.padded 2 month ++ '-' :: Digits.padded 2 day ++ 'T' ::
      Digits.padded 2 (time / 3600) ++ ':' :: Digits.padded 2 (time / 60 % 60) ++ ':' ::
      Digits.padded 2 (time % 60 + leap) ++ fractionText (t.nanoseconds % 1000000000) ++ ['Z'])

/-! ## Reading -/

/-- White space: the characters with the Unicode property of that name. -/
def isBlank (c : Char) : Bool :=
  let n := c.toNat
  (9 ≤ n && n ≤ 13) || n == 32 || n == 0x85 || n == 0xA0 || n == 0x1680 ||
    (0x2000 ≤ n && n ≤ 0x200A) || n == 0x2028 || n == 0x2029 || n == 0x202F ||
    n == 0x205F || n == 0x3000

def skipBlanks (text : List Char) : List Char := text.dropWhile isBlank

/-- A number of one to `width` digits and what follows it. -/
def number? (width : Nat) (text : List Char) : Option (Nat × List Char) :=
  match (text.take width).takeWhile Char.isDigit with
  | [] => none
  | digits => some (Digits.toNat digits, text.drop digits.length)

def field? (width : Nat) (text : List Char) : Option (Nat × List Char) :=
  number? width (skipBlanks text)

def divider? (c : Char) (text : List Char) : Option (List Char) :=
  match skipBlanks text with
  | d :: rest => if d = c then some rest else none
  | [] => none

/-- A year: four digits at most, or any number after a sign. -/
def year? (text : List Char) : Option (Int × List Char) :=
  match skipBlanks text with
  | '-' :: rest => (number? rest.length rest).map fun (n, rest) => (-(n : Int), rest)
  | '+' :: rest => (number? rest.length rest).map fun (n, rest) => ((n : Int), rest)
  | rest => (number? 4 rest).map fun (n, rest) => ((n : Int), rest)

/-- Nanoseconds after a point.  Digits beyond the ninth are dropped. -/
def fraction? (text : List Char) : Option (Nat × List Char) :=
  match text with
  | '.' :: rest =>
    let digits := rest.takeWhile Char.isDigit
    if digits.isEmpty then none
    else
      let kept := digits.take 9
      some (Digits.toNat kept * Digits.placeValue (9 - kept.length), rest.drop digits.length)
  | _ => some (0, text)

/-- The offset from universal time in seconds, of whole minutes. -/
def offset? (text : List Char) : Option (Int × List Char) :=
  let signed (sign : Int) (rest : List Char) : Option (Int × List Char) :=
    match rest with
    | h :: h' :: rest =>
      if h.isDigit ∧ h'.isDigit then
        match rest.dropWhile fun c => c == ':' || isBlank c with
        | m :: m' :: rest =>
          if m.isDigit ∧ m'.isDigit ∧ m.toNat < '6'.toNat then
            some (sign * ((Digits.toNat [h, h'] * 3600 + Digits.toNat [m, m'] * 60 : Nat) : Int), rest)
          else none
        | _ => none
      else none
    | _ => none
  match text with
  | 'Z' :: rest | 'z' :: rest => some (0, rest)
  | '+' :: rest => signed 1 rest
  | '-' :: rest | '−' :: rest => signed (-1) rest
  | a :: b :: c :: rest =>
    if [a, b, c].map Char.toUpper = ['U', 'T', 'C'] then some (0, rest) else none
  | _ => none

def isYear (year : Int) : Bool := decide (firstYear ≤ year) && decide (year ≤ lastYear)

/-- The moment of a date and a time of day at an offset from universal time. -/
def ofFields? (year : Int) (month day hour minute second nanoseconds : Nat) (offset : Int) :
    Option Moment :=
  if isYear year ∧ 1 ≤ month ∧ month ≤ 12 ∧ 1 ≤ day ∧ day ≤ daysInMonth year month ∧
      hour ≤ 23 ∧ minute ≤ 59 ∧ second ≤ 60 ∧ offset.natAbs < 86400 then
    let kept := Min.min second 59
    let seconds := dayNumber year month day * 86400 +
      ((hour * 3600 + minute * 60 + kept : Nat) : Int) - offset
    if isYear (dateOf (seconds / 86400)).1 then
      some ⟨seconds, nanoseconds + (second - kept) * 1000000000⟩
    else none
  else none

def parse? (text : String) : Option Moment := do
  let (year, rest) ← year? text.toList
  let rest ← divider? '-' rest
  let (month, rest) ← field? 2 rest
  let rest ← divider? '-' rest
  let (day, rest) ← field? 2 rest
  let rest ← match rest with
    | 'T' :: rest | 't' :: rest | ' ' :: rest => some rest
    | _ => none
  let (hour, rest) ← field? 2 rest
  let rest ← divider? ':' rest
  let (minute, rest) ← field? 2 rest
  let rest ← divider? ':' rest
  let (second, rest) ← field? 2 rest
  let (nanoseconds, rest) ← fraction? rest
  let (offset, rest) ← offset? (skipBlanks rest)
  if (skipBlanks rest).isEmpty then
    ofFields? year month day hour minute second nanoseconds offset
  else none

end Moment
end Seismic
