import SqlWright.Dom.Parameter

/-!
# Bindings

What one execution of a command settles: which alternatives are taken, the texts
of placeholders, the rows of dynamic filters and the numbers of types. What is
bound later counts.
-/

namespace SqlWright

/-- Whether two keys choose the same variants. Parameters are compared by identity. -/
def VariantKey.matches : VariantKey → VariantKey → Bool
  | isNull p, isNull q => p.id == q.id
  | named s, named t => s == t
  | _, _ => false

/-- Settings of one execution. Without a list of type numbers there is no registry of types. -/
structure Bindings where
  alternatives : List VariantKey := []
  placeholders : List (Placeholder × String) := []
  rows : List (String × List (List String)) := []
  typeIds : Option (List (String × Int32)) := none

namespace Bindings

/-- Bindings under which the variants of a key take their alternative. -/
def select (b : Bindings) (key : VariantKey) : Bindings :=
  { b with alternatives := key :: b.alternatives }

/-- Bindings with a text for a placeholder. -/
def bind (b : Bindings) (id : Placeholder) (text : String) : Bindings :=
  { b with placeholders := (id, text) :: b.placeholders }

/-- Bindings with the rows of a dynamic filter; each row has a text for each expression. -/
def bindRows (b : Bindings) (id : String) (rows : List (List String)) : Bindings :=
  { b with rows := (id, rows) :: b.rows }

/-- Bindings with a registry of types, of which the later entries count. -/
def withTypeIds (b : Bindings) (ids : List (String × Int32)) : Bindings :=
  { b with typeIds := some ids.reverse }

/-- Whether the variants of a key take their alternative. -/
def isAlternative (b : Bindings) (key : VariantKey) : Bool := b.alternatives.any key.matches

/-- Rows of a dynamic filter. -/
def rows? (b : Bindings) (id : String) : Option (List (List String)) := b.rows.lookup id

/-- Number of a type. -/
def typeId? (b : Bindings) (type : String) : Option Int32 := b.typeIds.bind (·.lookup type)

/-- Text bound to a placeholder. -/
def placeholder? (b : Bindings) (id : Placeholder) : Option String := b.placeholders.lookup id

end Bindings

end SqlWright
