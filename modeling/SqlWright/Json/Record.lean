import SqlWright.Json.Value

/-!
# Values of a known shape

Readers of JSON values whose shape is known: scalars within a range, lists,
records and tagged choices. A record is an object, of which fields that are not
known are passed over, or an array of its fields in order. No field may be given
twice, and a field that is not given may have a default.
-/

namespace SqlWright.Json

/-- String of a text. -/
def string? : Json → Option String
  | string s => s
  | _ => none

/-- Truth value. -/
def bool? : Json → Option Bool
  | bool b => some b
  | _ => none

/-- Integer from `low` to `high`. -/
def int? (low high : Int) : Json → Option Int
  | number n => n.int?.filter fun i ↦ low ≤ i && i ≤ high
  | _ => none

/-- Natural number below `bound`. -/
def nat? (bound : Nat) (j : Json) : Option Nat := (j.int? 0 (bound - 1)).map Int.toNat

/-- Position in a list, which has 64 bits. -/
def position? (j : Json) : Option Nat := j.nat? UInt64.size

/-- Finite floating point number. -/
def binary64? : Json → Option Decimal.Binary64
  | number n => some n.binary64 |>.filter (·.isFinite)
  | _ => none

/-- Values of a list, all read alike. -/
def list? {α : Type} (read : Json → Option α) : Json → Option (List α)
  | array items => items.mapM read
  | _ => none

/-- Two values in an array. -/
def pair? {α : Type} (read : Json → Option α) : Json → Option (α × α)
  | array [a, b] => return (← read a, ← read b)
  | _ => none

/-- Value that may be null. -/
def nullable? {α : Type} (read : Json → Option α) : Json → Option (Option α)
  | null => some none
  | j => (read j).map some

/-- Values given for a field, in their order. -/
def given (members : List (Option String × Json)) (field : String) : List Json :=
  members.filterMap fun (key, value) ↦ if key = some field then some value else none

/-- Value of each field of a record, none where it is not given. -/
def fields? (names : List String) : Json → Option (List (Option Json))
  | object members =>
    if members.all (·.1.isSome) then
      names.mapM fun name ↦
        match given members name with
        | [] => some none
        | [value] => some (some value)
        | _ => none
    else none
  | array items =>
    if items.length ≤ names.length then
      some (items.map some ++ List.replicate (names.length - items.length) none)
    else none
  | _ => none

/-- Value of a field that must be given. -/
def required? {α : Type} (read : Json → Option α) (field : Option Json) : Option α :=
  field.bind read

/-- Value of a field, a default where it is not given. -/
def withDefault? {α : Type} (default : α) (read : Json → Option α) : Option Json → Option α
  | some value => read value
  | none => some default

/-- Name of a choice and what is given with it: a name alone, or an object whose one field has
the name. -/
def choice? : Json → Option (String × Option Json)
  | string (some name) => some (name, none)
  | object [(some name, value)] => some (name, some value)
  | _ => none

/-- Whether a value is null. -/
def isNull : Json → Bool
  | null => true
  | _ => false

/-- Whether a value is null or an object without fields. -/
def isVoid : Json → Bool
  | null | object [] => true
  | _ => false

/-- Value of a choice among names; whatever is given with it has to be nothing. -/
def named? {α : Type} (isNothing : Json → Bool) (ofName? : String → Option α) (j : Json) :
    Option α := do
  let (name, content) ← j.choice?
  if content.all isNothing then ofName? name else none

end SqlWright.Json
