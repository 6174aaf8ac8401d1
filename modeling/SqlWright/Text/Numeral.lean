/-!
# Decimal numerals

Numbers are read from decimal digits, within a bound, and with the signs that
the place allows; they are written with as few digits as possible.
-/

namespace SqlWright.Text

/-- Number that the digits spell; none for no digit at all or for any other character. -/
def digits? (cs : List Char) : Option Nat :=
  if cs ≠ [] ∧ cs.all Char.isDigit then some (Nat.ofDigitChars 10 cs 0) else none

/-- Digits with an optional plus sign, for a number below `bound`. -/
def unsigned? (bound : Nat) (cs : List Char) : Option Nat :=
  let digits := match cs with
    | '+' :: rest => rest
    | _ => cs
  (digits? digits).filter (· < bound)

/-- Digits with an optional sign, for a number from `low` to `high`. -/
def signed? (low high : Int) (cs : List Char) : Option Int :=
  let number : Option Int := match cs with
    | '-' :: rest => (digits? rest).map fun n ↦ -(n : Int)
    | '+' :: rest => (digits? rest).map Int.ofNat
    | _ => (digits? cs).map Int.ofNat
  number.filter fun n ↦ low ≤ n && n ≤ high

/-- Decimal text of an integer, with a minus sign below zero. -/
def ofInt : Int → String
  | .ofNat n => n.repr
  | .negSucc n => "-" ++ (n + 1).repr

/-- Decimal text of `n`, with zeros in front up to `width` digits. -/
def padded (width n : Nat) : String :=
  let digits := n.repr
  "".pushn '0' (width - digits.length) ++ digits

/-- Written numbers read back. -/
theorem digits?_repr (n : Nat) : digits? n.repr.toList = some n := by
  have hne : Nat.toDigits 10 n ≠ [] := Nat.toDigits_ne_nil
  have hall : (Nat.toDigits 10 n).all Char.isDigit = true :=
    List.all_eq_true.2 fun c hc ↦ Nat.isDigit_of_mem_toDigits (by decide) (by decide) hc
  simp [digits?, Nat.toList_repr, hne, hall]

end SqlWright.Text
