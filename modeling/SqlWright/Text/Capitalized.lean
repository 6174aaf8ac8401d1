/-!
# Names of enumerated values

Each value of an enumeration has one name, in small letters with underscores.
Messages write the same words joined, each with a capital.
-/

namespace SqlWright.Text

/-- Letters of the words joined; `start` tells whether a word begins here. -/
def joinWords (start : Bool) : List Char → List Char
  | [] => []
  | c :: cs =>
    if c = '_' then joinWords true cs
    else (if start then c.toUpper else c) :: joinWords false cs

/-- Words of an underscored name joined, each with a capital. -/
def capitalized (name : String) : String := String.ofList (joinWords true name.toList)

end SqlWright.Text
