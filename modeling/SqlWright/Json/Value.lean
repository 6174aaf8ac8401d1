import SqlWright.Decimal.Rounded

/-!
# JSON values

A value is kept as it is written: numbers as decimals, members of an object in
their order and with repetitions, and escapes that name half a surrogate pair as
texts that are no strings. Whether such a value can be used is for its reader to
say; `isSound` tells which values hold nothing of that kind.
-/

namespace SqlWright

/-- Number as it is written: `coefficient * 10 ^ exponent` with a sign, integral if it is
written without a point and without an exponent. -/
structure JsonNumber where
  negative : Bool
  integral : Bool
  coefficient : Nat
  exponent : Int
  deriving DecidableEq

/-- JSON value. A text that is no string is `none`. -/
inductive Json where
  | null
  | bool (value : Bool)
  | number (value : JsonNumber)
  | string (value : Option String)
  | array (items : List Json)
  | object (members : List (Option String × Json))
  deriving Inhabited

namespace JsonNumber

/-- Number written with the digits of an integer. -/
def ofInt (n : Int) : JsonNumber := ⟨n < 0, true, n.natAbs, 0⟩

/-- Integer that is written. Minus zero is none. -/
def int? (n : JsonNumber) : Option Int :=
  if n.integral then
    if n.negative then (if n.coefficient = 0 then none else some (-n.coefficient))
    else some n.coefficient
  else none

/-- Floating point number nearest to what is written. -/
def binary64 (n : JsonNumber) : Decimal.Binary64 :=
  .ofDecimal n.negative n.coefficient n.exponent

/-- Integers read back from their digits. -/
theorem int?_ofInt (n : Int) : (ofInt n).int? = some n := by
  by_cases h : n < 0
  · have hne : n.natAbs ≠ 0 := by omega
    have hn : -(n.natAbs : Int) = n := by omega
    simp only [int?, ofInt, h, hne, hn, decide_true, if_true, if_false]
  · have hn : (n.natAbs : Int) = n := by omega
    simp only [int?, ofInt, h, hn, decide_false, Bool.false_eq_true, if_true, if_false]

end JsonNumber

namespace Json

/-- Text. -/
def ofString (s : String) : Json := .string (some s)

/-- Integer. -/
def ofInt (n : Int) : Json := .number (.ofInt n)

/-- Natural number. -/
def ofNat (n : Nat) : Json := ofInt n

/-- Object whose keys are strings. -/
def ofFields (fields : List (String × Json)) : Json :=
  .object (fields.map fun (key, value) ↦ (some key, value))

mutual

/-- Whether all texts are strings, all numbers have a finite floating point number, and arrays
and objects are nested at most `depth` deep. -/
def isSound (depth : Nat) : Json → Bool
  | null | bool _ => true
  | number n => n.binary64.isFinite
  | string s => s.isSome
  | array items =>
    match depth with
    | 0 => false
    | d + 1 => areSound d items
  | object members =>
    match depth with
    | 0 => false
    | d + 1 => membersAreSound d members

/-- Whether each value of a list is sound. -/
def areSound (depth : Nat) : List Json → Bool
  | [] => true
  | j :: rest => isSound depth j && areSound depth rest

/-- Whether each key is a string and each value sound. -/
def membersAreSound (depth : Nat) : List (Option String × Json) → Bool
  | [] => true
  | (key, j) :: rest => key.isSome && isSound depth j && membersAreSound depth rest

end

end Json

end SqlWright
