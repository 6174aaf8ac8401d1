import SqlWright.Decimal.Binary64

/-!
# Reading decimals as binary floating point

A decimal `coefficient * 10 ^ exponent` is read as the nearest value, of two
equally near ones as that with the even mantissa, in exact integer arithmetic.
-/

namespace SqlWright.Decimal

/-- Quotient rounded to the nearest integer, a tie to the even one. -/
def roundDiv (num den : Nat) : Nat :=
  let q := num / den
  let r := num % den
  if 2 * r < den then q
  else if den < 2 * r then q + 1
  else q + q % 2

namespace Binary64

/-- Scale at which the mantissa of `num / den` has at most 53 bits, and no less than the
least exponent. -/
def scaleOf (num den : Nat) : Int :=
  let q : Int := (num.log2 : Int) - den.log2 - 53
  let q := if den * Nat.pow 2 (q + 53).toNat ≤ num * Nat.pow 2 (-(q + 53)).toNat then q + 1 else q
  max q (-1074)

/-- Bits below the sign of the value nearest to `num / den`, both positive. -/
def magnitudeOfRatio (num den : Nat) : Nat :=
  let q := scaleOf num den
  let m := roundDiv (num * Nat.pow 2 (-q).toNat) (den * Nat.pow 2 q.toNat)
  let magnitude :=
    if m < leadingBit then m else (q + 1075).toNat * leadingBit + (m - leadingBit)
  min magnitude infinityMagnitude

/-- Value nearest to a decimal. Decimals too large for every finite value give an infinity. -/
def ofDecimal (negative : Bool) (coefficient : Nat) (exponent : Int) : Binary64 :=
  let order := (coefficient.repr.length : Int) + exponent
  if coefficient = 0 ∨ order < -330 then ofMagnitude negative 0
  else if 310 < order then infinity negative
  else
    ofMagnitude negative
      (magnitudeOfRatio (coefficient * Nat.pow 10 exponent.toNat)
        (Nat.pow 10 (-exponent).toNat))

end Binary64

end SqlWright.Decimal
