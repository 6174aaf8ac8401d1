import SqlWright.Text.Capitalized
import SqlWright.Text.Numeral

/-!
# Column types

The types of columns and values, independent of the names that servers give them.
-/

namespace SqlWright

/-- Type of a column or of a value. -/
inductive SqlType where
  | boolean
  | int16
  | int32
  | int64
  | float32
  | float64
  | decimal (precision scale : UInt8)
  | varChar (length : Option UInt32)
  | dateTime
  | date
  | guid
  | binary
  deriving DecidableEq

namespace SqlType

/-- Whether values of the type are numbers. -/
def isNumeric : SqlType → Bool
  | int16 | int32 | int64 | float32 | float64 | decimal _ _ => true
  | _ => false

/-- Name of the type without its sizes. -/
def name : SqlType → String
  | boolean => "boolean"
  | int16 => "int16"
  | int32 => "int32"
  | int64 => "int64"
  | float32 => "float32"
  | float64 => "float64"
  | decimal _ _ => "decimal"
  | varChar _ => "var_char"
  | dateTime => "date_time"
  | date => "date"
  | guid => "guid"
  | binary => "binary"

/-- Types without sizes. -/
def plain : List SqlType :=
  [boolean, int16, int32, int64, float32, float64, dateTime, date, guid, binary]

/-- Type without sizes that has the name. -/
def ofName? (s : String) : Option SqlType := plain.find? (·.name == s)

/-- Form of the type in messages, its sizes included. -/
def description (t : SqlType) : String :=
  let title := Text.capitalized t.name
  match t with
  | decimal precision scale =>
    s!"{title} \x7b precision: {precision.toNat.repr}, scale: {scale.toNat.repr} \x7d"
  | varChar (some length) => s!"{title} \x7b length: Some({length.toNat.repr}) \x7d"
  | varChar none => s!"{title} \x7b length: None \x7d"
  | _ => title

end SqlType

end SqlWright
