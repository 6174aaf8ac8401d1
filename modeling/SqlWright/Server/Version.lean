import SqlWright.Error
import SqlWright.Text.Blank
import SqlWright.Text.Numeral
import SqlWright.Text.Split

/-!
# Versions of servers

The major and the minor number of a server's version. Banners are read as well:
what follows the first two numbers is left out.
-/

namespace SqlWright

/-- Version of a server. -/
structure Version where
  major : UInt16
  minor : UInt16
  deriving DecidableEq

namespace Version

/-- Whether `v` is `since` or a later version. -/
def isSince (v since : Version) : Bool :=
  since.major < v.major || (since.major == v.major && since.minor ≤ v.minor)

/-- The two numbers with a point between. -/
def text (v : Version) : String := v.major.toNat.repr ++ "." ++ v.minor.toNat.repr

/-- Parts without a character of their own left out, of the digits and points in front. -/
def numberParts (cs : List Char) : List (List Char) :=
  let front := (Text.trim cs).takeWhile fun c ↦ c.isDigit || c == '.'
  (Text.splitAt (· == '.') front).filter (!·.isEmpty)

/-- Number of a part, which has sixteen bits. -/
def number? (part : List Char) : Option UInt16 :=
  (Text.unsigned? UInt16.size part).map UInt16.ofNat

/-- Version of a list of parts: the first is the major number, the second, if there is one,
the minor. -/
def ofParts? : List (List Char) → Option Version
  | [] => none
  | [major] => (number? major).map fun major ↦ ⟨major, 0⟩
  | major :: minor :: _ => do return ⟨← number? major, ← number? minor⟩

/-- Version that a text begins with. -/
def ofText (s : String) : Except Error Version :=
  match ofParts? (numberParts s.toList) with
  | some v => .ok v
  | none => .error (.invalidVersion s)

end Version

end SqlWright
