/-!
# Binary floating point of 64 bits

A value is its bit pattern, so equality is equality of patterns. A finite value
stands for `mantissa * 2 ^ exponent` with a sign; the largest exponent field is
kept for the infinities and for what is no number.
-/

namespace SqlWright.Decimal

/-- Bit pattern of a binary floating point number: a sign bit, eleven exponent bits,
fifty-two fraction bits. -/
structure Binary64 where
  bits : UInt64
  deriving DecidableEq

namespace Binary64

/-- Weight of the sign bit, `2 ^ 63`. -/
def signBit : Nat := Nat.pow 2 63

/-- Weight of the leading bit of normal mantissas, `2 ^ 52`. -/
def leadingBit : Nat := Nat.pow 2 52

/-- Whether the sign bit is set. -/
def isNegative (x : Binary64) : Bool := signBit ≤ x.bits.toNat

/-- Exponent field, from 0 to 2047. -/
def exponentField (x : Binary64) : Nat := x.bits.toNat / leadingBit % 2048

/-- Fraction field, below `2 ^ 52`. -/
def fraction (x : Binary64) : Nat := x.bits.toNat % leadingBit

/-- Whether the value is a number other than the infinities. -/
def isFinite (x : Binary64) : Bool := x.exponentField ≠ 2047

/-- Whether the pattern stands for no number at all. -/
def isNaN (x : Binary64) : Bool := !x.isFinite && x.fraction ≠ 0

/-- Mantissa of a finite value, with the leading bit that normal numbers leave out. -/
def mantissa (x : Binary64) : Nat :=
  if x.exponentField = 0 then x.fraction else leadingBit + x.fraction

/-- Power of two that the mantissa of a finite value is scaled by. -/
def exponent (x : Binary64) : Int :=
  if x.exponentField = 0 then -1074 else (x.exponentField : Int) - 1075

/-- Value with the given sign whose bits below the sign are `magnitude`. -/
def ofMagnitude (negative : Bool) (magnitude : Nat) : Binary64 :=
  ⟨UInt64.ofNat ((if negative then signBit else 0) + magnitude)⟩

/-- Bits below the sign of an infinity. -/
def infinityMagnitude : Nat := 2047 * leadingBit

/-- Infinity of a sign. -/
def infinity (negative : Bool) : Binary64 := ofMagnitude negative infinityMagnitude

/-- Quiet pattern that stands for no number. -/
def nan : Binary64 := ofMagnitude false (infinityMagnitude + Nat.pow 2 51)

end Binary64

end SqlWright.Decimal
