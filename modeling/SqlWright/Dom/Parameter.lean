/-!
# Values that are settled later

Parameters are bound when a command is executed; placeholders, dynamic filters
and the choice between variants are settled when its text is rendered.
-/

namespace SqlWright

/-- Query parameter. Two parameters are the same exactly if their identities are; the hint is
only shown to people. -/
structure Parameter where
  id : Nat
  hint : String
  deriving DecidableEq

/-- Piece of text that is filled in when a command is rendered. -/
inductive Placeholder where
  /-- Number that stands for a type. -/
  | typeId (type : String)
  /-- Text bound to a key. -/
  | key (key : String)
  deriving DecidableEq

/-- Form of a placeholder in messages. -/
def Placeholder.text : Placeholder → String
  | typeId t => "type:" ++ t
  | key k => k

/-- Condition under which the alternative of a variant is taken. -/
inductive VariantKey where
  /-- The parameter is NULL. -/
  | isNull (parameter : Parameter)
  /-- The name is selected. -/
  | named (name : String)
  deriving DecidableEq

/-- Form of a variant's condition in messages. -/
def VariantKey.text : VariantKey → String
  | isNull p => "null:" ++ p.hint
  | named name => name

end SqlWright
