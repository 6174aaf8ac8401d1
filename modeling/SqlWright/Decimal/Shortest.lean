import SqlWright.Decimal.Binary64

/-!
# Shortest decimals

The decimal written for a finite value has the fewest digits that read back as
the value, and is the nearest to it among those. The real numbers that read back
as `m * 2 ^ q` reach half way to the two neighbouring values; the two ends belong
to them when `m` is even.
-/

namespace SqlWright.Decimal

/-- Real numbers around a value, as multiples of `1 / unit`: the value itself, the two ends
of what reads back as the value, and whether the ends read back too. -/
structure Neighbourhood where
  unit : Nat
  value : Nat
  low : Nat
  high : Nat
  closed : Bool

namespace Neighbourhood

/-- Whether `digits * 10 ^ power` reads back as the value. -/
def holds (v : Neighbourhood) (digits : Nat) (power : Int) : Bool :=
  let point := digits * Nat.pow 10 power.toNat * v.unit
  let low := v.low * Nat.pow 10 (-power).toNat
  let high := v.high * Nat.pow 10 (-power).toNat
  if v.closed then low ≤ point && point ≤ high else low < point && point < high

/-- Power of ten of the first significant digit. -/
def leading (v : Neighbourhood) : Int :=
  if v.unit ≤ v.value then ((v.value / v.unit).repr.length : Int) - 1
  else -(((v.unit + v.value - 1) / v.value - 1).repr.length : Int)

/-- Nearest of the two neighbours of the value on the grid of multiples of `10 ^ power`
that reads back; the upper one when both are equally near. -/
def onGrid? (v : Neighbourhood) (power : Int) : Option Nat :=
  let num := v.value * Nat.pow 10 (-power).toNat
  let den := v.unit * Nat.pow 10 power.toNat
  let below := num / den
  let upperIsNear := den ≤ 2 * (num % den)
  match v.holds below power, v.holds (below + 1) power with
  | true, true => some (if upperIsNear then below + 1 else below)
  | true, false => some below
  | false, true => some (below + 1)
  | false, false => none

/-- First hit on finer and finer grids, of which `tries` come before the last. The last one leaves
eighteen digits. -/
def search (v : Neighbourhood) (leading : Int) : Nat → Nat × Int
  | 0 => ((v.onGrid? (leading - 17)).getD 0, leading - 17)
  | tries + 1 =>
    match v.onGrid? (leading - 16 + tries) with
    | some digits => (digits, leading - 16 + tries)
    | none => v.search leading tries

end Neighbourhood

namespace Binary64

/-- Numbers that read back as a finite value other than zero, its sign left out. -/
def neighbourhood (x : Binary64) : Neighbourhood :=
  let m := x.mantissa
  let q := x.exponent - 2
  let up := Nat.pow 2 q.toNat
  let lowGap := if x.fraction = 0 && 1 < x.exponentField then 1 else 2
  { unit := Nat.pow 2 (-q).toNat
    value := 4 * m * up
    low := (4 * m - lowGap) * up
    high := (4 * m + 2) * up
    closed := m % 2 == 0 }

/-- Digits and power of ten of the shortest decimal of a finite value, its sign left out. The
first grid is above the leading digit, where the value may read back as one unit. -/
def shortest (x : Binary64) : Nat × Int :=
  if x.mantissa = 0 then (0, 0)
  else
    let v := x.neighbourhood
    v.search v.leading 18

end Binary64

/-- Plain text of `digits * 10 ^ power`: no exponent, no zero at the end of a fraction,
a zero in front of the point where no digit is. -/
def positional (digits : Nat) (power : Int) : List Char :=
  let all := digits.repr.toList
  if 0 ≤ power then (if digits = 0 then ['0'] else all ++ List.replicate power.toNat '0')
  else
    let places := (-power).toNat
    let wide := List.replicate (places + 1 - all.length) '0' ++ all
    let whole := wide.take (wide.length - places)
    let fraction := (wide.drop (wide.length - places)).reverse.dropWhile (· == '0')
    if fraction.isEmpty then whole else whole ++ '.' :: fraction.reverse

namespace Binary64

/-- Shortest decimal in plain digits; what is not finite has a word. -/
def text (x : Binary64) : String :=
  if x.isNaN then "NaN"
  else
    let sign := if x.isNegative then "-" else ""
    if x.isFinite then
      let (digits, power) := x.shortest
      sign ++ String.ofList (positional digits power)
    else sign ++ "inf"

end Binary64

end SqlWright.Decimal
