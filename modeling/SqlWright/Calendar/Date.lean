import SqlWright.Text.Blank
import SqlWright.Text.Numeral

/-!
# Dates

Days of the Gregorian calendar, extended to all years of the supported range,
with a year before the year one and a year zero. A date is written
`YYYY-MM-DD`, with a sign in front of years that do not have four digits.
-/

namespace SqlWright.Calendar

/-- Whether a year has a 29th of February. -/
def isLeapYear (year : Int) : Bool :=
  year % 4 == 0 && (year % 100 != 0 || year % 400 == 0)

/-- Number of days of a month; months are counted from one. -/
def daysOfMonth (year : Int) (month : Nat) : Nat :=
  if month = 2 then (if isLeapYear year then 29 else 28)
  else if month = 4 ∨ month = 6 ∨ month = 9 ∨ month = 11 then 30
  else 31

/-- Whether the numbers name a day within the supported years. -/
def isDate (year : Int) (month day : Nat) : Bool :=
  -262143 ≤ year && year ≤ 262142 && 1 ≤ month && month ≤ 12 && 1 ≤ day &&
    day ≤ daysOfMonth year month

/-- A day. -/
structure Date where
  year : Int
  month : Nat
  day : Nat
  valid : isDate year month day = true
  deriving DecidableEq

namespace Date

/-- Day that the numbers name, if there is one. -/
def ofNumbers? (year : Int) (month day : Nat) : Option Date :=
  if h : isDate year month day = true then some ⟨year, month, day, h⟩ else none

/-- Year of at least four digits, signed unless it has exactly four. -/
def yearText (year : Int) : String :=
  if 0 ≤ year ∧ year ≤ 9999 then Text.padded 4 year.toNat
  else (if year < 0 then "-" else "+") ++ Text.padded 4 year.natAbs

/-- Date as `YYYY-MM-DD`. -/
def text (d : Date) : String :=
  yearText d.year ++ "-" ++ Text.padded 2 d.month ++ "-" ++ Text.padded 2 d.day

end Date

/-- Number of one digit up to `most` digits, after optional blanks, and what follows it. -/
def readNumber? (most : Nat) (cs : List Char) : Option (Nat × List Char) :=
  let cs := Text.trimStart cs
  let digits := (cs.take most).takeWhile Char.isDigit
  (Text.digits? digits).map fun n ↦ (n, cs.drop digits.length)

/-- Year of up to four digits, or of any number of digits after a sign. -/
def readYear? (cs : List Char) : Option (Int × List Char) :=
  match Text.trimStart cs with
  | '-' :: rest => (readNumber? rest.length rest).bind fun (n, after) ↦
    if rest.head?.any Char.isDigit then some (-(n : Int), after) else none
  | '+' :: rest => (readNumber? rest.length rest).bind fun (n, after) ↦
    if rest.head?.any Char.isDigit then some ((n : Int), after) else none
  | rest => (readNumber? 4 rest).map fun (n, after) ↦ ((n : Int), after)

/-- What follows the mark, after optional blanks. -/
def readMark? (mark : Char) (cs : List Char) : Option (List Char) :=
  match Text.trimStart cs with
  | c :: rest => if c = mark then some rest else none
  | [] => none

/-- Date at the front, and what follows it. -/
def readDate? (cs : List Char) : Option (Date × List Char) := do
  let (year, cs) ← readYear? cs
  let cs ← readMark? '-' cs
  let (month, cs) ← readNumber? 2 cs
  let cs ← readMark? '-' cs
  let (day, cs) ← readNumber? 2 cs
  let date ← Date.ofNumbers? year month day
  return (date, cs)

/-- Date that a text holds, and nothing but blanks after it. -/
def Date.ofText? (s : String) : Option Date := do
  let (date, rest) ← readDate? s.toList
  if (Text.trimStart rest).isEmpty then some date else none

end SqlWright.Calendar
