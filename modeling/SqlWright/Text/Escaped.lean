import SqlWright.Text.Unshown

/-!
# Texts quoted in messages

A text is shown between double quotes. Backslashes and quotes get a backslash
in front, the common controls have short escapes, and every other character that
would not show is written as its code point in braces.
-/

namespace SqlWright.Text

/-- Lower-case hexadecimal digits of a code point, without leading zeros. -/
def hexadecimal (n : Nat) : List Char := Nat.toDigits 16 n

/-- Form of one character inside the quotes. -/
def escapedChar (c : Char) : List Char :=
  match c with
  | '\\' => ['\\', '\\']
  | '\x22' => ['\\', '\x22']
  | '\t' => ['\\', 't']
  | '\r' => ['\\', 'r']
  | '\n' => ['\\', 'n']
  | '\x00' => ['\\', '0']
  | _ =>
    if c.toNat < 0x20 || (0x7F ≤ c.toNat && isUnshown c) then
      ['\\', 'u', '\x7b'] ++ hexadecimal c.toNat ++ ['\x7d']
    else [c]

/-- A text between double quotes, all on one line. -/
def quoted (s : String) : String :=
  String.ofList ('\x22' :: (s.toList.flatMap escapedChar ++ ['\x22']))

/-- Texts between brackets, separated by a comma and a blank. -/
def quotedList (texts : List String) : String :=
  "[" ++ ", ".intercalate (texts.map quoted) ++ "]"

end SqlWright.Text
