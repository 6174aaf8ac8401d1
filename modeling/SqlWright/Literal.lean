import SqlWright.Calendar.DateTime
import SqlWright.Decimal.Binary64

/-!
# Literal values

The constants that a statement can hold.
-/

namespace SqlWright

/-- Constant value. -/
inductive Literal where
  | boolean (value : Bool)
  | integer (value : Int64)
  | float (value : Decimal.Binary64)
  | string (value : String)
  | dateTime (value : Calendar.DateTime)
  | date (value : Calendar.Date)
  deriving DecidableEq

end SqlWright
