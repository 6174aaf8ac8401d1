import SqlWright.Json.Record
import SqlWright.Decimal.Shortest
import SqlWright.Relation.Basic

/-!
# Types, constants and columns in documents

The JSON forms of what queries and tables are made of. A type or a constant is a
choice: its name, with its sizes or its value if it has any.
-/

namespace SqlWright

namespace SqlType

/-- Form of a type. -/
def toJson : SqlType → Json
  | decimal precision scale => .ofFields [("decimal", .ofFields
      [("precision", .ofNat precision.toNat), ("scale", .ofNat scale.toNat)])]
  | varChar length => .ofFields [("var_char", .ofFields
      [("length", match length with
        | some n => .ofNat n.toNat
        | none => .null)])]
  | type => .ofString type.name

/-- Type that sizes are given with. An array of sizes is complete. -/
def sized? (name : String) (sizes : Json) : Option SqlType := do
  match name, sizes with
  | "decimal", _ =>
    match ← sizes.fields? ["precision", "scale"] with
    | [precision, scale] =>
      return decimal (.ofNat (← Json.required? (·.nat? UInt8.size) precision))
        (.ofNat (← Json.required? (·.nat? UInt8.size) scale))
    | _ => none
  | "var_char", .array [] => none
  | "var_char", _ =>
    match ← sizes.fields? ["length"] with
    | [length] =>
      let length ← Json.withDefault? none (Json.nullable? (·.nat? UInt32.size)) length
      return varChar (length.map .ofNat)
    | _ => none
  | _, _ => none

/-- Type of a form; what is given with a type without sizes has to be nothing. -/
def ofJson? (isNothing : Json → Bool) (j : Json) : Option SqlType :=
  j.named? isNothing ofName? <|> (j.choice?).bind fun (name, sizes) ↦ sizes.bind (sized? name)

end SqlType

namespace Literal

/-- Number of a floating point constant, in its shortest digits. Whole numbers of no more than
sixteen digits have a zero after the point. -/
def numberOf (x : Decimal.Binary64) : JsonNumber :=
  let (digits, power) := x.shortest
  if 0 ≤ power ∧ digits.repr.length + power ≤ 16 then
    ⟨x.isNegative, false, digits * Nat.pow 10 (power.toNat + 1), -1⟩
  else ⟨x.isNegative, false, digits, power⟩

/-- Form of a constant. What is no finite number has no form but null. -/
def toJson : Literal → Json
  | boolean b => .ofFields [("boolean", .bool b)]
  | integer i => .ofFields [("integer", .ofInt i.toInt)]
  | float x => .ofFields [("float", if x.isFinite then .number (numberOf x) else .null)]
  | string s => .ofFields [("string", .ofString s)]
  | dateTime t => .ofFields [("date_time", .ofString t.text)]
  | date d => .ofFields [("date", .ofString d.text)]

/-- Constant of a form. -/
def ofJson? (j : Json) : Option Literal := do
  match ← j.choice? with
  | ("boolean", some c) => return boolean (← c.bool?)
  | ("integer", some c) =>
    return integer (.ofInt (← c.int? Int64.minValue.toInt Int64.maxValue.toInt))
  | ("float", some c) => return float (← c.binary64?)
  | ("string", some c) => return string (← c.string?)
  | ("date_time", some c) => return dateTime (← Calendar.DateTime.ofText? (← c.string?))
  | ("date", some c) => return date (← Calendar.Date.ofText? (← c.string?))
  | _ => none

end Literal

namespace Column

/-- Form of a column. -/
def toJson (c : Column) : Json :=
  .ofFields [("name", .ofString c.name), ("type", c.type.toJson), ("nullable", .bool c.nullable)]

/-- Column of a form. -/
def ofJson? (isNothing : Json → Bool) (j : Json) : Option Column := do
  match ← j.fields? ["name", "type", "nullable"] with
  | [name, type, nullable] =>
    return {
      name := ← Json.required? (·.string?) name
      type := ← Json.required? (SqlType.ofJson? isNothing) type
      nullable := ← Json.withDefault? false (·.bool?) nullable }
  | _ => none

end Column

namespace Aggregation

/-- Form of a computed group column. -/
def toJson (a : Aggregation) : Json :=
  .ofFields [("name", .ofString a.name), ("kind", .ofString a.kind.name),
    ("column", match a.column with
      | some i => .ofNat i
      | none => .null),
    ("type", a.type.toJson)]

/-- Computed group column of a form. -/
def ofJson? (j : Json) : Option Aggregation := do
  match ← j.fields? ["name", "kind", "column", "type"] with
  | [name, kind, column, type] =>
    return {
      name := ← Json.required? (·.string?) name
      kind := ← Json.required? (·.named? Json.isVoid AggregateKind.ofName?) kind
      column := ← Json.withDefault? none (Json.nullable? (·.position?)) column
      type := ← Json.required? (SqlType.ofJson? Json.isVoid) type }
  | _ => none

end Aggregation

namespace SortItem

/-- Form of a sort key. -/
def toJson (k : SortItem) : Json :=
  .ofFields [("column", .ofNat k.column), ("ascending", .bool k.ascending)]

/-- Sort key of a form. -/
def ofJson? (j : Json) : Option SortItem := do
  match ← j.fields? ["column", "ascending"] with
  | [column, ascending] =>
    return ⟨← Json.required? (·.position?) column, ← Json.required? (·.bool?) ascending⟩
  | _ => none

end SortItem

end SqlWright
