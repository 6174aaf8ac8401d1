import SqlWright.Plan.Document

/-!
# Plans

A plan is what a document says once its names are resolved: a relation, and the
parameters it speaks of. All mentions of a name are one parameter.
-/

namespace SqlWright

/-- Relation of a document, and its parameters in the order in which they are met first. -/
structure Plan where
  relation : Relation
  parameters : List Parameter

namespace Plan

/-- Parameter that has the name. -/
def parameter? (p : Plan) (name : String) : Option Parameter :=
  p.parameters.find? (·.hint == name)

/-- Names of the parameters in order. -/
def parameterNames (p : Plan) : List String :=
  (p.parameters.map (·.hint)).mergeSort fun a b ↦ !decide (b < a)

/-- Work on a document that collects its parameters. -/
abbrev Interning := StateM (List Parameter)

/-- Parameter of a name, made where the name is met first. -/
def intern (name : String) : Interning Parameter := fun known ↦
  match known.find? (·.hint == name) with
  | some p => (p, known)
  | none =>
    let p : Parameter := ⟨known.length, name⟩
    (p, known ++ [p])

mutual

/-- Expression with its names resolved. -/
def Expr.resolve : Expr → Interning Scalar
  | .column i => return .column i
  | .value v => return .constant v
  | .null => return .null
  | .parameter name => return .parameter (← intern name)
  | .placeholder key => return .placeholder (.key key)
  | .typeIs index type => return .typeIs index type
  | .binary op left right => do
    let left ← left.resolve
    let right ← right.resolve
    return .binary op left right
  | .unary op operand => return .unary op (← operand.resolve)
  | .function f args => return .function f (← Expr.resolveAll args)
  | .inList id columns => return .inList id (← Expr.resolveAll columns)

/-- Expressions with their names resolved. -/
def Expr.resolveAll : List Expr → Interning (List Scalar)
  | [] => return []
  | e :: rest => do
    let e ← e.resolve
    return e :: (← Expr.resolveAll rest)

end

/-- Computed column with its names resolved. -/
def CalculationSpec.resolve (c : CalculationSpec) : Interning Calculation :=
  return ⟨c.name, ← c.expr.resolve, c.type⟩

/-- Table that a description makes. -/
def TableSpec.build (t : TableSpec) : Except Error Table :=
  Table.build t.schema t.name t.columns t.key

/-- Table that has the name; of several the last. -/
def findTable (tables : List Table) (name : String) : Except Error Table :=
  match tables.reverse.find? (·.name == name) with
  | some t => .ok t
  | none => .error (.unknownTable name)

/-- Header of a native query. -/
def headerOf (columns : List Column) : Header :=
  .ofColumns (columns.map fun c ↦ ⟨c.name, c.type⟩)

/-- Relation of a query over some tables. -/
def Query.resolve (tables : List Table) :
    Query → StateT (List Parameter) (Except Error) Relation
  | .index name => return .table (← findTable tables name)
  | .raw sql columns => return .native sql (headerOf columns)
  | .filter source predicate => do
    let source ← source.resolve tables
    return .filter source (← run predicate.resolve)
  | .select source columns => return .project (← source.resolve tables) columns
  | .calculate source columns => do
    let source ← source.resolve tables
    return .extend source (← run (columns.mapM CalculationSpec.resolve))
  | .join left right kind on => do
    let left ← left.resolve tables
    let right ← right.resolve tables
    return .join left right kind on
  | .aggregate source groupBy aggregates =>
    return .aggregate (← source.resolve tables) groupBy aggregates
  | .sort source order => return .sort (← source.resolve tables) order
  | .distinct source => return .distinct (← source.resolve tables)
  | .take source count => do
    let source ← source.resolve tables
    return .take source (← run count.resolve)
  | .skip source count => do
    let source ← source.resolve tables
    return .skip source (← run count.resolve)
  | .paging source leaving taking => do
    let source ← source.resolve tables
    let leaving ← run leaving.resolve
    let taking ← run taking.resolve
    return .page source leaving taking
  | .lock source wanted => return .lock (← source.resolve tables) wanted
where
  /-- Interning that cannot fail, where failures are possible. -/
  run {α : Type} (work : Interning α) : StateT (List Parameter) (Except Error) α :=
    fun known ↦ .ok (work known)

/-- Plan of a document. -/
def Document.build (d : Document) : Except Error Plan := do
  let tables ← d.tables.mapM TableSpec.build
  let (relation, parameters) ← (d.query.resolve tables).run []
  return ⟨relation, parameters⟩

end Plan

end SqlWright
