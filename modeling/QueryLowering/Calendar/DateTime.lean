import QueryLowering.Text.Scanner

/-!
# Dates with a time of day

A point of the proleptic Gregorian calendar without a zone, to the nanosecond. The second of a minute
may be sixty.
-/

namespace QueryLowering

/-- A date with a time of day. -/
structure DateTime where
  year : Int
  month : Nat
  day : Nat
  hour : Nat
  minute : Nat
  second : Nat
  nanosecond : Nat
deriving DecidableEq, Repr

namespace DateTime

/-- Whether a year has a leap day. -/
def isLeap (year : Int) : Bool := (year % 4 == 0 && year % 100 != 0) || year % 400 == 0

/-- The number of days of a month. -/
def daysIn (year : Int) (month : Nat) : Nat :=
  if month == 2 then (if isLeap year then 29 else 28)
  else if month == 4 || month == 6 || month == 9 || month == 11 then 30
  else 31

/-- Whether the parts name a day and a time that exist, in a year that can be represented. -/
def isValid (d : DateTime) : Bool :=
  -262143 ≤ d.year && d.year ≤ 262142
    && 1 ≤ d.month && d.month ≤ 12
    && 1 ≤ d.day && d.day ≤ daysIn d.year d.month
    && d.hour ≤ 23 && d.minute ≤ 59 && d.second ≤ 60

/-! ## Reading -/

/-- The characters with the white-space property. -/
def isBlank (c : Char) : Bool :=
  let n := c.toNat
  (9 ≤ n && n ≤ 13) || n == 0x20 || n == 0x85 || n == 0xA0 || n == 0x1680
    || (0x2000 ≤ n && n ≤ 0x200A) || n == 0x2028 || n == 0x2029 || n == 0x202F || n == 0x205F
    || n == 0x3000

/-- Skips white space. -/
def blanks : Scanner Unit := discard (Scanner.takeWhile isBlank)

/-- A number of at most `width` digits, after white space. -/
def number (width : Nat) : Scanner Nat := do
  blanks
  match ← Scanner.takeUpTo width Char.isDigit with
  | [] => failure
  | digits => return digitsValue 10 digits

/-- A year: at most four digits, or a sign and any number of them. -/
def yearNumber : Scanner Int := do
  blanks
  match ← Scanner.peek with
  | some '-' =>
    Scanner.char '-'
    return -((digitsValue 10 (← Scanner.takeWhile1 Char.isDigit) : Nat) : Int)
  | some '+' =>
    Scanner.char '+'
    return ((digitsValue 10 (← Scanner.takeWhile1 Char.isDigit) : Nat) : Int)
  | _ => return ((← number 4 : Nat) : Int)

/-- A separator, after white space. -/
def separator (c : Char) : Scanner Unit := do
  blanks
  Scanner.char c

/-- The nanoseconds that the fraction digits write; digits past the ninth do not count. -/
def fraction : Scanner Nat := do
  if ← Scanner.accepts (Scanner.char '.') then
    let digits ← Scanner.takeWhile1 Char.isDigit
    let kept := digits.take 9
    return digitsValue 10 kept * Nat.pow 10 (9 - kept.length)
  else
    return 0

/-- The parts of a date with a time of day. -/
def scan : Scanner DateTime := do
  let year ← yearNumber
  separator '-'
  let month ← number 2
  separator '-'
  let day ← number 2
  separator 'T'
  let hour ← number 2
  separator ':'
  let minute ← number 2
  separator ':'
  let second ← number 2
  let nanosecond ← fraction
  blanks
  let d : DateTime := ⟨year, month, day, hour, minute, second, nanosecond⟩
  Scanner.require d.isValid
  return d

/-- The date and time that a text writes. -/
def parse? (text : String) : Option DateTime := scan.parse? text.toList

/-! ## Writing -/

/-- The year: four digits, with a sign outside of the years 0 to 9999. -/
def yearText (year : Int) : String :=
  if 0 ≤ year ∧ year ≤ 9999 then padded 4 year.toNat
  else (if year < 0 then "-" else "+") ++ padded 4 year.natAbs

/-- The date part. -/
def dateText (d : DateTime) : String :=
  yearText d.year ++ "-" ++ padded 2 d.month ++ "-" ++ padded 2 d.day

/-- The time of day without its fraction. -/
def clockText (d : DateTime) : String :=
  padded 2 d.hour ++ ":" ++ padded 2 d.minute ++ ":" ++ padded 2 d.second

/-- The fraction of the second in the fewest of no, three, six or nine digits. -/
def fractionText (d : DateTime) : String :=
  let n := d.nanosecond
  if n == 0 then ""
  else if n % 1000000 == 0 then "." ++ padded 3 (n / 1000000)
  else if n % 1000 == 0 then "." ++ padded 6 (n / 1000)
  else "." ++ padded 9 n

/-- The fraction of the second in three digits, the rest cut off. -/
def milliText (d : DateTime) : String := "." ++ padded 3 (d.nanosecond / 1000000)

/-- The form with a letter between date and time. -/
def iso (d : DateTime) : String := d.dateText ++ "T" ++ d.clockText ++ d.fractionText

end DateTime

end QueryLowering
