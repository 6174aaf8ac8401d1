import SqlWright.Calendar.Date

/-!
# Points in time

A day with a time of day, without a time zone. The second may be the 60th, which
is the leap second, and has a fraction counted in nanoseconds.
-/

namespace SqlWright.Calendar

/-- Whether the numbers name a time of day. -/
def isTime (hour minute second nanosecond : Nat) : Bool :=
  hour < 24 && minute < 60 && second ≤ 60 && nanosecond < 1000000000

/-- A point in time. -/
structure DateTime where
  date : Date
  hour : Nat
  minute : Nat
  second : Nat
  nanosecond : Nat
  valid : isTime hour minute second nanosecond = true
  deriving DecidableEq

namespace DateTime

/-- Hours, minutes and whole seconds with colons between. -/
def clockText (t : DateTime) : String :=
  Text.padded 2 t.hour ++ ":" ++ Text.padded 2 t.minute ++ ":" ++ Text.padded 2 t.second

/-- Point in time with three places of the second, the rest cut off; `mark` stands between
the day and the time. -/
def milliText (mark : String) (t : DateTime) : String :=
  t.date.text ++ mark ++ t.clockText ++ "." ++ Text.padded 3 (t.nanosecond / 1000000)

/-- Fraction of the second in the fewest groups of three places that hold it. -/
def fractionText (t : DateTime) : String :=
  let n := t.nanosecond
  if n = 0 then ""
  else if n % 1000000 = 0 then "." ++ Text.padded 3 (n / 1000000)
  else if n % 1000 = 0 then "." ++ Text.padded 6 (n / 1000)
  else "." ++ Text.padded 9 n

/-- Point in time as `YYYY-MM-DDTHH:MM:SS` with the fraction it needs. -/
def text (t : DateTime) : String := t.date.text ++ "T" ++ t.clockText ++ t.fractionText

/-- Nanoseconds after a point, of which places past the ninth are left out; without a point,
zero. -/
def readFraction? (cs : List Char) : Option (Nat × List Char) :=
  match cs with
  | '.' :: rest =>
    let digits := (rest.take 9).takeWhile Char.isDigit
    (Text.digits? digits).map fun n ↦
      (n * Nat.pow 10 (9 - digits.length), (rest.drop digits.length).dropWhile Char.isDigit)
  | _ => some (0, cs)

/-- Point in time that a text holds, and nothing but blanks after it. -/
def ofText? (s : String) : Option DateTime := do
  let (date, cs) ← readDate? s.toList
  let cs ← readMark? 'T' cs
  let (hour, cs) ← readNumber? 2 cs
  let cs ← readMark? ':' cs
  let (minute, cs) ← readNumber? 2 cs
  let cs ← readMark? ':' cs
  let (second, cs) ← readNumber? 2 cs
  let (nanosecond, cs) ← readFraction? cs
  if (Text.trimStart cs).isEmpty then
    if h : isTime hour minute second nanosecond = true then
      some ⟨date, hour, minute, second, nanosecond, h⟩
    else none
  else none

end DateTime

end SqlWright.Calendar
