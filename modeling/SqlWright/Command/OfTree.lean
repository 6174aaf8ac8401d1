import SqlWright.Command.Basic
import SqlWright.Dom.Lockable
import SqlWright.Spelling.Layer

/-!
# Commands of statements

The text of a statement in the spelling of a server. A parameter is named where
it is met first; a binary expression is put in parentheses where the operator
around it would take it apart; a lock that is a hint of tables goes to the tables
in the FROM clause of the locked select and of the selects that clause holds.
-/

namespace SqlWright

/-- How tightly an operator holds its operands. -/
def BinaryOp.precedence : BinaryOp → Nat
  | or => 1
  | and => 2
  | eq | notEq | lt | ltEq | gt | gtEq | like | isIn | notIn => 3
  | plus | minus | concat => 4
  | multiply | divide | modulo => 5

/-- Whether an operand needs parentheses: it holds less tightly than the operator, or just as
tightly on the side where the operators do not group, which for comparisons is either side.
Conjunctions and disjunctions group as they like. -/
def BinaryOp.separates (parent child : BinaryOp) (isRight : Bool) : Bool :=
  let p := parent.precedence
  let c := child.precedence
  c < p || (c == p && parent != .and && parent != .or && (isRight || p == 3))

/-- Spelling in which a statement is written, its names of types, and its mark of
parameters. -/
structure Script where
  spelling : Spelling
  types : TypeNames
  mark : String

/-- Writing names parameters in the order of their first use and may fail. -/
abbrev Writing := StateT (List Parameter) (Except Error)

/-- Part of a statement, and how it is written under a hint for its tables. -/
abbrev Part := Tree × (Option String → Writing Chain)

namespace Script

/-- Name of the parameter at a position. -/
def parameterName (w : Script) (position : Nat) : String := w.mark ++ "p" ++ position.repr

/-- Name of a parameter, which gets the next one where it is met first. -/
def parameter (w : Script) (p : Parameter) : Writing Chain := fun named ↦
  match named.findIdx? (·.id == p.id) with
  | some i => .ok ([Piece.text (w.parameterName i)], named)
  | none => .ok ([Piece.text (w.parameterName named.length)], named ++ [p])

/-- Identifier in quotes. -/
def identifier (w : Script) (name : String) : Writing Chain :=
  return [Piece.text (← w.spelling.quoteIdentifier name)]

/-- Name with the name that qualifies it, if there is one. -/
def qualified (w : Script) (qualifier : Option String) (name : String) : Writing Chain := do
  match qualifier with
  | some q => return (← w.identifier q) ++ [Piece.text "."] ++ (← w.identifier name)
  | none => w.identifier name

/-- Alias of a row source. -/
def aliasClause (w : Script) (name : String) : Writing Chain :=
  return [Piece.text (← w.spelling.tableAlias)] ++ (← w.identifier name)

/-- Expression, in parentheses if it is binary. -/
def grouped (c : Part) (hint : Option String) : Writing Chain :=
  if c.1.binaryOp?.isSome then return [Piece.text "("] ++ (← c.2 hint) ++ [Piece.text ")"] else c.2 hint

/-- Operand of a binary operator. -/
def operand (parent : BinaryOp) (isRight : Bool) (c : Part) (hint : Option String) :
    Writing Chain :=
  if c.1.binaryOp?.any fun op ↦ parent.separates op isRight then grouped c hint else c.2 hint

/-- Chains with a text between any two. -/
def separated (separator : String) : List (Writing Chain) → Writing Chain
  | [] => return []
  | [c] => c
  | c :: rest => return (← c) ++ [Piece.text separator] ++ (← separated separator rest)

/-- Expressions with commas between. -/
def listed (parts : List Part) (hint : Option String) : Writing Chain :=
  separated ", " (parts.map fun c ↦ c.2 hint)

/-- Text in front of an optional part. -/
def clause (text : String) (part : Option Part) (hint : Option String) : Writing Chain :=
  match part with
  | some c => return [Piece.text text] ++ (← c.2 hint)
  | none => return []

/-- Parts of a template, one after the other. -/
def template (parts : List TemplatePart) (arg : Nat → Writing Chain) : Writing Chain :=
  return (← parts.mapM fun
    | .text s => return [Piece.text s]
    | .arg i => arg i).flatten

/-- Place of NULL in an ordering. -/
def nullsPlace (w : Script) (nullsFirst : Option Bool) : Writing Chain := do
  match nullsFirst with
  | none => return []
  | some first =>
    if ← w.spelling.nullsOrdering then
      return [Piece.text (if first then " NULLS FIRST" else " NULLS LAST")]
    else throw (w.spelling.unsupported "NULLS FIRST/LAST ordering")

/-- Sort keys with commas between. -/
def ordering (w : Script) (keys : List (SortKey Part)) (hint : Option String) : Writing Chain :=
  separated ", " (keys.map fun k ↦ do
    let expr ← k.expr.2 hint
    return expr ++ (if k.ascending then [] else [Piece.text " DESC"]) ++ (← w.nullsPlace k.nullsFirst))

/-- Output column with its alias. -/
def outputColumn (w : Script) (c : OutputColumn Part) : Writing Chain := do
  let expr ← c.expr.2 none
  match c.label with
  | some name => return expr ++ [Piece.text " AS "] ++ (← w.identifier name)
  | none => return expr

/-- FROM clause of a select. -/
def source (w : Script) (source : Option Part) (hint : Option String) : Writing Chain := do
  match source with
  | some c => return [Piece.text " FROM "] ++ (← c.2 hint)
  | none =>
    match ← w.spelling.fromless with
    | .table name => return [Piece.text (" FROM " ++ name)]
    | .omitted => return []

/-- ORDER BY clause of a select. An offset written by OFFSET needs one. -/
def orderClause (w : Script) (s : Select Part) (paging : Option PagingClause) :
    Writing Chain := do
  if s.orderBy.isEmpty then
    if paging = some .offsetFetch then return [Piece.text (← w.spelling.offsetOrdering)]
    else return []
  else return [Piece.text " ORDER BY "] ++ (← w.ordering s.orderBy none)

/-- Limits of a select that stand at its end. -/
def pagingClause (s : Select Part) : Option PagingClause → Writing Chain
  | some .limitOffset =>
    return (← clause " LIMIT " s.limit none) ++ (← clause " OFFSET " s.offset none)
  | some .offsetFetch => do
    let offset ← match s.offset with
      | some c => c.2 none
      | none => pure [Piece.text "0"]
    let fetch ← match s.limit with
      | some c => pure ([Piece.text " FETCH NEXT "] ++ (← c.2 none) ++ [Piece.text " ROWS ONLY"])
      | none => pure []
    return [Piece.text " OFFSET "] ++ offset ++ [Piece.text " ROWS"] ++ fetch
  | _ => return []

/-- Clause that limits the rows of a select, if it has limits and the server can write them. -/
def paging? (w : Script) (s : Select Part) : Except Error (Option PagingClause) := do
  if s.isPaged then
    let paging ← w.spelling.paging
    match paging with
    | .unsupported => throw (w.spelling.unsupported "LIMIT/OFFSET clause")
    | .top => if s.offset.isSome then throw (w.spelling.unsupported "OFFSET clause")
    | _ => pure ()
    return some paging
  else return none

/-- Lock of a select, if it has one and its rows can be locked that way. -/
def lock? (w : Script) (s : Select Part) : Except Error (Option LockClause) := do
  match s.lock with
  | none => return none
  | some l =>
    let clause ← w.spelling.lock l
    match clause with
    | .suffix _ =>
      if Tree.lockable (.mk 0 (.select (s.map (·.1)))) then return some clause
      else throw (w.spelling.unsupported
        "row lock over DISTINCT, GROUP BY, aggregate or window results")
    | .tableHint _ => return some clause

/-- Select under a hint for its tables. -/
def select (w : Script) (s : Select Part) (inherited : Option String) : Writing Chain := do
  let paging ← w.paging? s
  let lock ← w.lock? s
  let hint := match lock with
    | some (.tableHint text) => some text
    | _ => inherited
  let suffix : Chain := match lock with
    | some (.suffix text) => [Piece.text text]
    | _ => []
  let top ← if paging = some .top then
      match s.limit with
      | some c => pure ([Piece.text "TOP ("] ++ (← c.2 none) ++ [Piece.text ") "])
      | none => pure []
    else pure []
  let columns ← if s.columns.isEmpty then pure [Piece.text "*"]
    else separated ", " (s.columns.map w.outputColumn)
  let source ← w.source s.source hint
  let filter ← clause " WHERE " s.filter none
  let groups ← if s.groupBy.isEmpty then pure []
    else pure ([Piece.text " GROUP BY "] ++ (← listed s.groupBy none))
  let having ← clause " HAVING " s.having none
  let order ← w.orderClause s paging
  let limits ← pagingClause s paging
  return [Piece.text "SELECT "] ++ (if s.distinct then [Piece.text "DISTINCT "] else []) ++ top ++
    columns ++ source ++ filter ++ groups ++ having ++ order ++ limits ++ suffix

/-- Number of the row in an ordering. -/
def rowNumber (w : Script) (keys : List (SortKey Part)) (hint : Option String) :
    Writing Chain := do
  if ← w.spelling.windowFunctions then
    let order ← if keys.isEmpty then pure []
      else pure ([Piece.text "ORDER BY "] ++ (← w.ordering keys hint))
    return [Piece.text "ROW_NUMBER() OVER ("] ++ order ++ [Piece.text ")"]
  else throw (w.spelling.unsupported "ROW_NUMBER()")

/-- Expression with one operand. -/
def unary (op : UnaryOp) (c : Part) (hint : Option String) : Writing Chain := do
  match op with
  | .negation => return [Piece.text "NOT ("] ++ (← c.2 hint) ++ [Piece.text ")"]
  | .negate => return [Piece.text "-("] ++ (← c.2 hint) ++ [Piece.text ")"]
  | .isNull => return (← grouped c hint) ++ [Piece.text " IS NULL"]
  | .isNotNull => return (← grouped c hint) ++ [Piece.text " IS NOT NULL"]
  | .existence => return [Piece.text "EXISTS "] ++ (← c.2 hint)

/-- Assignment of an update. -/
def assignment (w : Script) (a : String × Part) (hint : Option String) : Writing Chain :=
  return (← w.identifier a.1) ++ [Piece.text " = "] ++ (← a.2.2 hint)

/-- Statement that makes an index. -/
def createIndex (w : Script) (index : Index) : Writing Chain := do
  let name ← w.identifier index.name
  let table ← w.qualified index.tableSchema index.tableName
  let columns ← separated ", " (index.columns.map fun c ↦ do
    return (← w.identifier c.name) ++ (if c.ascending then [] else [Piece.text " DESC"]))
  let fill ← match index.fillFactor with
    | some percent => w.spelling.fillFactor percent
    | none => pure none
  return [Piece.text (if index.unique then "CREATE UNIQUE INDEX " else "CREATE INDEX ")] ++ name ++
    [Piece.text " ON "] ++ table ++ [Piece.text " ("] ++ columns ++ [Piece.text ")"] ++
    (match fill with
      | some clause => [Piece.text clause]
      | none => [])

/-- Text between two joined row sources. -/
def joinText : JoinKind → String
  | .inner => " INNER JOIN "
  | .leftOuter => " LEFT OUTER JOIN "
  | .cross => " CROSS JOIN "

/-- Node whose parts can be written, under a hint for its tables. -/
def node (w : Script) (n : Node Part) (hint : Option String) : Writing Chain := do
  match n with
  | .null => return [Piece.text "NULL"]
  | .literal value => return [Piece.text (← w.spelling.literal value)]
  | .column qualifier name => w.qualified qualifier name
  | .variable name => return [Piece.text (w.mark ++ name)]
  | .parameter p => w.parameter p
  | .placeholder id => return [Piece.placeholder id]
  | .binary op left right =>
    let t ← w.spelling.operatorTemplate op
    template (t.parts 2) fun i ↦
      if i = 0 then operand op false left hint else operand op true right hint
  | .unary op c => unary op c hint
  | .function f args =>
    let t ← w.spelling.functionTemplate f
    template (t.parts args.length) fun i ↦
      match args[i]?, t with
      | some c, .call _ => c.2 hint
      | some c, _ => grouped c hint
      | none, _ => return []
  | .aggregate kind distinct c =>
    let name ← w.spelling.aggregate kind
    let arg ← match c with
      | some c => c.2 hint
      | none => pure [Piece.text "*"]
    return [Piece.text (name ++ "(")] ++ (if distinct then [Piece.text "DISTINCT "] else []) ++ arg ++
      [Piece.text ")"]
  | .cast c type =>
    let name ← w.types.find type
    return [Piece.text "CAST("] ++ (← c.2 hint) ++ [Piece.text (" AS " ++ name ++ ")")]
  | .case branches otherwise =>
    let cases ← branches.mapM fun (condition, value) ↦
      return [Piece.text " WHEN "] ++ (← condition.2 hint) ++ [Piece.text " THEN "] ++ (← value.2 hint)
    return [Piece.text "CASE"] ++ cases.flatten ++ (← clause " ELSE " otherwise hint) ++
      [Piece.text " END"]
  | .row items => return [Piece.text "("] ++ (← listed items hint) ++ [Piece.text ")"]
  | .dynamicFilter id first others =>
    let expressions ← (first :: others).mapM fun c ↦ return Chain.normalized (← c.2 hint)
    return [Piece.dynamicFilter id expressions]
  | .subquery query => return [Piece.text "("] ++ (← query.2 hint) ++ [Piece.text ")"]
  | .variant key main alternative =>
    let main ← main.2 hint
    let alternative ← alternative.2 hint
    return [Piece.variant key main.normalized alternative.normalized]
  | .rowNumber keys => w.rowNumber keys hint
  | .native text => return [Piece.text text]
  | .table schema name tableAlias =>
    let table ← w.qualified schema name
    let label ← match tableAlias with
      | some a => w.aliasClause a
      | none => pure []
    return table ++ label ++ [Piece.text (hint.getD "")]
  | .queryRef query name =>
    return [Piece.text "("] ++ (← query.2 hint) ++ [Piece.text ")"] ++ (← w.aliasClause name)
  | .join kind left right on =>
    let left ← left.2 hint
    let right ← right.2 hint
    return left ++ [Piece.text (joinText kind)] ++ right ++ (← clause " ON " on hint)
  | .select s => w.select s hint
  | .insert target columns values =>
    let target ← target.2 hint
    let names ← separated ", " (columns.map w.identifier)
    return [Piece.text "INSERT INTO "] ++ target ++ [Piece.text " ("] ++ names ++ [Piece.text ") VALUES ("] ++
      (← listed values hint) ++ [Piece.text ")"]
  | .update target assignments filter =>
    let target ← target.2 hint
    let changes ← separated ", " (assignments.map fun a ↦ w.assignment a hint)
    return [Piece.text "UPDATE "] ++ target ++ [Piece.text " SET "] ++ changes ++
      (← clause " WHERE " filter hint)
  | .delete target filter =>
    return [Piece.text "DELETE FROM "] ++ (← target.2 hint) ++ (← clause " WHERE " filter hint)
  | .createIndex index => w.createIndex index

/-- Tree as a chain that may still have neighbouring texts. -/
def tree (w : Script) (t : Tree) : Option String → Writing Chain := t.fold w.node

end Script

/-- Command of a statement in the spelling of a server. -/
def Tree.command (t : Tree) (spelling : Spelling) (types : TypeNames) : Except Error Command := do
  let script : Script := ⟨spelling, types, ← spelling.parameterMark⟩
  let (chain, parameters) ← (script.tree t none).run []
  return Command.ofChain chain (parameters.mapIdx fun i p ↦ (p, script.parameterName i))

end SqlWright
