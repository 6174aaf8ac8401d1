import SqlWright.Json.Value
import SqlWright.Text.Escaped
import SqlWright.Text.Numeral

/-!
# Writing JSON

Values without white space. A string escapes the quote, the backslash and the
controls; a text that is no string is written as null.
-/

namespace SqlWright.Json

/-- Form of one character inside a string. -/
def escapedChar (c : Char) : List Char :=
  match c with
  | '\x22' => ['\\', '\x22']
  | '\\' => ['\\', '\\']
  | '\x08' => ['\\', 'b']
  | '\x0c' => ['\\', 'f']
  | '\n' => ['\\', 'n']
  | '\r' => ['\\', 'r']
  | '\t' => ['\\', 't']
  | _ =>
    if c.toNat < 0x20 then
      let digits := Text.hexadecimal c.toNat
      ['\\', 'u'] ++ List.replicate (4 - digits.length) '0' ++ digits
    else [c]

/-- String between its quotes. -/
def stringText (s : String) : List Char :=
  '\x22' :: (s.toList.flatMap escapedChar ++ ['\x22'])

/-- Digits of which the last `places` stand after the point, and at least one in front of it. -/
def pointed (digits : List Char) (places : Nat) : List Char :=
  let wide := List.replicate (places + 1 - digits.length) '0' ++ digits
  wide.take (wide.length - places) ++ '.' :: wide.drop (wide.length - places)

/-- Digits of which the first alone stands in front of the point, and the exponent then. -/
def scientific (digits : List Char) (exponent : Int) : List Char :=
  digits.take 1 ++ (if digits.length = 1 then [] else '.' :: digits.drop 1) ++
    'e' :: (Text.ofInt exponent).toList

/-- Digits of a number, without a point if it is integral. An exponent is written where the first
digit is far from the point. -/
def numberText (n : JsonNumber) : List Char :=
  let digits := n.coefficient.repr.toList
  let point := digits.length + n.exponent
  (if n.negative then ['-'] else []) ++
    if n.integral then digits
    else if n.exponent < 0 ∧ -5 < point ∧ point ≤ 16 then pointed digits (-n.exponent).toNat
    else scientific digits (point - 1)

mutual

/-- Characters of a value. -/
def characters : Json → List Char
  | null => "null".toList
  | bool true => "true".toList
  | bool false => "false".toList
  | number n => numberText n
  | string (some s) => stringText s
  | string none => "null".toList
  | array [] => ['[', ']']
  | array (j :: rest) => '[' :: (characters j ++ itemsAfter rest)
  | object [] => ['\x7b', '\x7d']
  | object ((key, j) :: rest) =>
    '\x7b' :: (stringText (key.getD "") ++ ':' :: (characters j ++ membersAfter rest))

/-- Items after the first, and the end of the array. -/
def itemsAfter : List Json → List Char
  | [] => [']']
  | j :: rest => ',' :: (characters j ++ itemsAfter rest)

/-- Members after the first, and the end of the object. -/
def membersAfter : List (Option String × Json) → List Char
  | [] => ['\x7d']
  | (key, j) :: rest =>
    ',' :: (stringText (key.getD "") ++ ':' :: (characters j ++ membersAfter rest))

end

/-- Text of a value. -/
def text (j : Json) : String := String.ofList j.characters

end SqlWright.Json
