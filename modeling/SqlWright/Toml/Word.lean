import SqlWright.Calendar.Date
import SqlWright.Json.Token

/-!
# Words of TOML

Values that are written without quotes: booleans, integers in four bases,
floating point numbers, and points in time. Single underscores may stand between
digits.
-/

namespace SqlWright.Toml

/-- Whether a character may stand in such a value. -/
def isWordChar (c : Char) : Bool :=
  c.isAlphanum || c == '_' || c == '+' || c == '-' || c == '.' || c == ':'

/-- Digits of a numeral without the underscores between them; `expectsDigit` tells whether a
digit has to come next. -/
def digitsOf? (isDigit : Char → Bool) (expectsDigit : Bool) : List Char → Option (List Char)
  | [] => if expectsDigit then none else some []
  | c :: cs =>
    if isDigit c then (digitsOf? isDigit false cs).map (c :: ·)
    else if c = '_' ∧ !expectsDigit then digitsOf? isDigit true cs
    else none

/-- Number of digits in a base up to sixteen. -/
def natural? (base : Nat) (cs : List Char) : Option Nat := do
  let isDigit (c : Char) : Bool := (Json.hexDigit? c).any (· < base)
  let digits ← digitsOf? isDigit true cs
  return digits.foldl (fun n c ↦ n * base + (Json.hexDigit? c).getD 0) 0

/-- Sign at the front, if one is there, and the rest: whether it is a minus. -/
def sign (cs : List Char) : Bool × List Char :=
  match cs with
  | '-' :: rest => (true, rest)
  | '+' :: rest => (false, rest)
  | _ => (false, cs)

/-- Whether a numeral has no superfluous zero in front. -/
def isMinimal : List Char → Bool
  | '0' :: _ :: _ => false
  | _ => true

/-- Integer of 64 bits. The bases other than ten have no sign. -/
def integer? (cs : List Char) : Option Int := do
  let n : Int ← match cs with
    | '0' :: 'x' :: digits => (natural? 16 digits).map Int.ofNat
    | '0' :: 'o' :: digits => (natural? 8 digits).map Int.ofNat
    | '0' :: 'b' :: digits => (natural? 2 digits).map Int.ofNat
    | _ =>
      let (negative, digits) := sign cs
      if isMinimal digits then
        (natural? 10 digits).map fun n ↦ if negative then -(n : Int) else n
      else none
  if Int64.minValue.toInt ≤ n ∧ n ≤ Int64.maxValue.toInt then some n else none

/-- Exponent after its mark, which may have a sign and zeros in front. -/
def exponent? (cs : List Char) : Option Int :=
  let (negative, digits) := sign cs
  (natural? 10 digits).map fun n ↦ if negative then -(n : Int) else n

/-- Floating point number: digits with a fraction, an exponent or both. -/
def decimal? (cs : List Char) : Option JsonNumber := do
  let (negative, cs) := sign cs
  let isMark (c : Char) : Bool := c == 'e' || c == 'E'
  let front := cs.takeWhile (!isMark ·)
  let exponent : Int ← match cs.dropWhile (!isMark ·) with
    | _ :: digits => exponent? digits
    | [] => some 0
  let whole := front.takeWhile (· ≠ '.')
  let fraction := front.dropWhile (· ≠ '.')
  if fraction.isEmpty ∧ front.length = cs.length then none
  else if !isMinimal whole then none
  else
    let wholeDigits ← digitsOf? Char.isDigit true whole
    let places ← match fraction with
      | _ :: digits => digitsOf? Char.isDigit true digits
      | [] => some []
    return {
      negative
      integral := false
      coefficient := Nat.ofDigitChars 10 (wholeDigits ++ places) 0
      exponent := exponent - places.length }

/-- Whether a word stands for an infinity or for no number. -/
def isSpecial (cs : List Char) : Bool :=
  let word := (sign cs).2
  word == ['i', 'n', 'f'] || word == ['n', 'a', 'n']

/-- Number of as many digits as are given. -/
def fixed? (cs : List Char) : Option Nat := Text.digits? cs

/-- Whether the characters are a day. -/
def isDay (cs : List Char) : Bool :=
  cs.length == 10 && cs[4]? == some '-' && cs[7]? == some '-' &&
    match fixed? (cs.take 4), fixed? ((cs.drop 5).take 2), fixed? (cs.drop 8) with
    | some year, some month, some day => Calendar.isDate year month day
    | _, _, _ => false

/-- Whether the characters are a time of day. -/
def isTime (cs : List Char) : Bool :=
  let clock := cs.take 8
  let fraction := cs.drop 8
  clock.length == 8 && clock[2]? == some ':' && clock[5]? == some ':' &&
    (match fixed? (clock.take 2), fixed? ((clock.drop 3).take 2), fixed? (clock.drop 6) with
    | some hour, some minute, some second => hour < 24 && minute < 60 && second ≤ 60
    | _, _, _ => false) &&
    (match fraction with
    | [] => true
    | '.' :: digits => (fixed? digits).isSome
    | _ => false)

/-- Whether the characters are the distance to universal time. -/
def isZone (cs : List Char) : Bool :=
  match cs with
  | ['Z'] | ['z'] => true
  | [s, a, b, ':', c, d] =>
    (s == '+' || s == '-') &&
      match fixed? [a, b], fixed? [c, d] with
      | some hour, some minute => hour < 24 && minute < 60
      | _, _ => false
  | _ => false

/-- Whether the characters are a time of day, perhaps with its distance to universal time. -/
def isZonedTime (cs : List Char) : Bool :=
  let isZoneMark (c : Char) : Bool := c == 'Z' || c == 'z' || c == '+' || c == '-'
  let zone := cs.dropWhile (!isZoneMark ·)
  isTime (cs.takeWhile (!isZoneMark ·)) && (zone.isEmpty || isZone zone)

/-- Whether a word is a day, a time of day, or both. -/
def isMoment (cs : List Char) : Bool :=
  isDay cs || isTime cs ||
    (isDay (cs.take 10) && (cs[10]? == some 'T' || cs[10]? == some 't') &&
      isZonedTime (cs.drop 11))

/-- Point in time, which none of the known settings is. -/
def moment (cs : List Char) : Json := .ofFields [("moment", .ofString (String.ofList cs))]

/-- Value of a word. A positive number may not be too large for every finite value. -/
def word? (cs : List Char) : Option Json :=
  if cs = "true".toList then some (.bool true)
  else if cs = "false".toList then some (.bool false)
  else if isSpecial cs then some (.number ⟨(sign cs).1, false, 0, 0⟩)
  else match integer? cs with
    | some n => some (.ofInt n)
    | none =>
      match decimal? cs with
      | some n => if n.negative || n.binary64.isFinite then some (.number n) else none
      | none => if isMoment cs then some (moment cs) else none

/-- Word at the front, and what follows it. A blank may stand between a day and a time. -/
def takeWord (cs : List Char) : List Char × List Char :=
  let word := cs.takeWhile isWordChar
  match cs.dropWhile isWordChar with
  | ' ' :: c :: rest =>
    if isDay word ∧ c.isDigit then
      (word ++ 'T' :: (c :: rest).takeWhile isWordChar, (c :: rest).dropWhile isWordChar)
    else (word, ' ' :: c :: rest)
  | rest => (word, rest)

end SqlWright.Toml
