import SqlWright.Json.Value
import SqlWright.Text.Numeral

/-!
# JSON tokens

The lexical grammar of JSON: brackets, commas and colons, and the scalars. A text
is cut into tokens from left to right; white space stands between tokens and
nowhere else.
-/

namespace SqlWright.Json

/-- Lexical unit. -/
inductive Token where
  | openArray
  | closeArray
  | openObject
  | closeObject
  | comma
  | colon
  | scalar (value : Json)

/-- White space of the grammar. -/
def isSpace (c : Char) : Bool := c == ' ' || c == '\t' || c == '\n' || c == '\r'

/-- Value of a hexadecimal digit. -/
def hexDigit? (c : Char) : Option Nat :=
  if c.isDigit then some (c.toNat - '0'.toNat)
  else if 'a' ≤ c ∧ c ≤ 'f' then some (c.toNat - 'a'.toNat + 10)
  else if 'A' ≤ c ∧ c ≤ 'F' then some (c.toNat - 'A'.toNat + 10)
  else none

/-- Number that four hexadecimal digits spell. -/
def hexadecimal? (a b c d : Char) : Option Nat :=
  return (((← hexDigit? a) * 16 + (← hexDigit? b)) * 16 + (← hexDigit? c)) * 16 + (← hexDigit? d)

/-- Character that a letter after a backslash stands for. -/
def escape? : Char → Option Char
  | '\x22' => some '\x22'
  | '\\' => some '\\'
  | '/' => some '/'
  | 'b' => some '\x08'
  | 'f' => some '\x0c'
  | 'n' => some '\n'
  | 'r' => some '\r'
  | 't' => some '\t'
  | _ => none

/-- Code points of a string up to its closing quote, surrogates among them, and the number of
characters read, the quote included. Controls must be escaped. -/
def codePoints? : List Char → Option (List Nat × Nat)
  | [] => none
  | '\x22' :: _ => some ([], 1)
  | '\\' :: 'u' :: a :: b :: c :: d :: rest => do
    let n ← hexadecimal? a b c d
    let (points, length) ← codePoints? rest
    return (n :: points, length + 6)
  | '\\' :: e :: rest => do
    let c ← escape? e
    let (points, length) ← codePoints? rest
    return (c.toNat :: points, length + 2)
  | c :: rest =>
    if c.toNat < 0x20 ∨ c = '\\' then none
    else do
      let (points, length) ← codePoints? rest
      return (c.toNat :: points, length + 1)

/-- Whether a code point is the first half of a surrogate pair. -/
def isHighHalf (n : Nat) : Bool := 0xD800 ≤ n && n < 0xDC00

/-- Whether a code point is the second half of a surrogate pair. -/
def isLowHalf (n : Nat) : Bool := 0xDC00 ≤ n && n < 0xE000

/-- Characters of code points in which each surrogate must be one of a pair; `high` is the
first half of a pair that was just read. -/
def characters? (high : Option Nat) : List Nat → Option (List Char)
  | [] => if high.isNone then some [] else none
  | n :: rest =>
    match high with
    | some h =>
      if isLowHalf n then
        (characters? none rest).map
          (Char.ofNat (0x10000 + (h - 0xD800) * 0x400 + (n - 0xDC00)) :: ·)
      else none
    | none =>
      if isHighHalf n then characters? (some n) rest
      else if isLowHalf n then none
      else (characters? none rest).map (Char.ofNat n :: ·)

/-- Digits at the front. -/
def digitsOf (cs : List Char) : List Char := cs.takeWhile Char.isDigit

/-- Digits in front of the point: one zero, or digits of which the first is no zero. -/
def wholeDigits? (cs : List Char) : Option (List Char) :=
  match digitsOf cs with
  | [] => none
  | '0' :: _ :: _ => none
  | digits => some digits

/-- Digits after a point; none without a point. -/
def fractionDigits? : List Char → Option (List Char)
  | '.' :: cs => if digitsOf cs = [] then none else some (digitsOf cs)
  | _ => some []

/-- Exponent and the number of its characters; zero without a mark of one. -/
def exponent? : List Char → Option (Int × Nat)
  | c :: cs =>
    if c = 'e' ∨ c = 'E' then
      let signed := match cs with
        | s :: _ => s == '+' || s == '-'
        | [] => false
      let digits := digitsOf (if signed then cs.drop 1 else cs)
      (Text.digits? digits).map fun n ↦
        (if cs.head? = some '-' then -(n : Int) else n,
          1 + (if signed then 1 else 0) + digits.length)
    else some (0, 0)
  | [] => some (0, 0)

/-- Number at the front, and the number of its characters. -/
def number? (cs : List Char) : Option (JsonNumber × Nat) := do
  let negative := cs.head? = some '-'
  let unsigned := if negative then cs.drop 1 else cs
  let whole ← wholeDigits? unsigned
  let rest := unsigned.drop whole.length
  let fraction ← fractionDigits? rest
  let fractionLength := if fraction = [] then 0 else fraction.length + 1
  let (exponent, exponentLength) ← exponent? (rest.drop fractionLength)
  let n : JsonNumber := {
    negative
    integral := fractionLength = 0 && exponentLength = 0
    coefficient := Nat.ofDigitChars 10 (whole ++ fraction) 0
    exponent := exponent - fraction.length }
  return (n, (if negative then 1 else 0) + whole.length + fractionLength + exponentLength)

/-- Literal name at the front, and the number of its characters. -/
def word? (cs : List Char) : Option (Json × Nat) :=
  if "null".toList.isPrefixOf cs then some (.null, 4)
  else if "true".toList.isPrefixOf cs then some (.bool true, 4)
  else if "false".toList.isPrefixOf cs then some (.bool false, 5)
  else none

/-- Token at the front, which is no white space, and the number of its characters. -/
def token? (cs : List Char) : Option (Token × Nat) :=
  match cs with
  | [] => none
  | '[' :: _ => some (.openArray, 1)
  | ']' :: _ => some (.closeArray, 1)
  | '\x7b' :: _ => some (.openObject, 1)
  | '\x7d' :: _ => some (.closeObject, 1)
  | ',' :: _ => some (.comma, 1)
  | ':' :: _ => some (.colon, 1)
  | '\x22' :: rest => do
    let (points, length) ← codePoints? rest
    return (.scalar (.string ((characters? none points).map String.ofList)), length + 1)
  | c :: _ => do
    let (value, length) ← if c = '-' ∨ c.isDigit then
        (number? cs).map fun (n, length) ↦ (Json.number n, length)
      else word? cs
    return (.scalar value, length)

/-- Tokens of a text, of which the first `skip` characters belong to a token already read. -/
def tokens? : Nat → List Char → Option (List Token)
  | _, [] => some []
  | skip + 1, _ :: cs => tokens? skip cs
  | 0, c :: cs =>
    if isSpace c then tokens? 0 cs
    else do
      let (token, length) ← token? (c :: cs)
      let rest ← tokens? (length - 1) cs
      return token :: rest

end SqlWright.Json
