/-!
# Quoting

Identifiers and strings stand between delimiters. Inside them the closing
delimiter is written twice, and so is the backslash where it would start an
escape. Strings lose their NUL characters, which no server stores.
-/

namespace SqlWright.Quoting

/-- Text in which the characters of a class are written twice. -/
def doubled (isDoubled : Char → Bool) (cs : List Char) : List Char :=
  cs.flatMap fun c ↦ if isDoubled c then [c, c] else [c]

/-- Text between two delimiters, the characters of a class written twice in it. -/
def enclosed (opening : String) (closing : Char) (isDoubled : Char → Bool) (cs : List Char) :
    String :=
  opening ++ String.ofList (doubled isDoubled cs ++ [closing])

/-- Text without NUL. -/
def withoutNul (s : String) : List Char := s.toList.filter (· ≠ '\x00')

/-- Identifier between double quotes. -/
def doubleQuotes (name : String) : String := enclosed "\x22" '\x22' (· == '\x22') name.toList

/-- Identifier between brackets. -/
def brackets (name : String) : String := enclosed "[" ']' (· == ']') name.toList

/-- String between single quotes. -/
def plainString (value : String) : String :=
  enclosed "\x27" '\x27' (· == '\x27') (withoutNul value)

/-- String between single quotes in which a backslash is an escape. -/
def backslashString (value : String) : String :=
  enclosed "\x27" '\x27' (fun c ↦ c == '\x27' || c == '\\') (withoutNul value)

/-- String marked as one in which a backslash is an escape. -/
def escapeString (value : String) : String := "E" ++ backslashString value

/-- String of the national character set. -/
def nationalString (value : String) : String := "N" ++ plainString value

end SqlWright.Quoting
