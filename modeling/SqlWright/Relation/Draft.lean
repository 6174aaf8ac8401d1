import SqlWright.Dom.Graph.Basic
import SqlWright.Relation.Basic

/-!
# Drafts of statements

A statement is drafted node by node: each new node goes into a graph, which gives
it its identity, and the draft goes on with the tree it makes. Aliases of row
sources are `t0`, `t1` and so on.
-/

namespace SqlWright

/-- Nodes made so far, and number of aliases given. -/
structure Draft where
  graph : Graph := .empty
  aliases : Nat := 0

/-- Drafting of a statement, which may fail. -/
abbrev Drafting := StateT Draft (Except Error)

namespace Draft

/-- Tree of a new node. -/
def node (n : Node Tree) : Drafting Tree := fun d ↦
  let (r, graph) := d.graph.add (n.map Tree.id)
  .ok (.mk r n, { d with graph })

/-- Alias of a number. -/
def aliasName (i : Nat) : String := "t" ++ i.repr

/-- Alias that was not given before. -/
def nextAlias : Drafting String := fun d ↦
  .ok (aliasName d.aliases, { d with aliases := d.aliases + 1 })

/-- Column of the row source with the alias. -/
def column (qualifier name : String) : Drafting Tree := node (.column (some qualifier) name)

/-- Integer constant. -/
def integer (value : Int64) : Drafting Tree := node (.literal (.integer value))

/-- Conjunction with what there is already. -/
def conjunction (existing : Option Tree) (condition : Tree) : Drafting Tree :=
  match existing with
  | some e => node (.binary .and e condition)
  | none => return condition

/-- Expression at a position. -/
def columnAt (columns : List Tree) (index : Nat) : Except Error Tree :=
  match columns[index]? with
  | some c => .ok c
  | none => .error (.columnOutOfRange index columns.length)

/-- Comparison of a value with a parameter, or the test for NULL where the parameter is
NULL. -/
def nullAware (op : BinaryOp) (value parameterNode : Tree) (p : Parameter) : Drafting Tree := do
  let comparison ← node (.binary op value parameterNode)
  let test ← node (.unary (if op = .eq then .isNull else .isNotNull) value)
  node (.variant (.isNull p) comparison test)

/-- Binary expression. Equality and its negation with a parameter take NULL into account; of
two parameters the right one counts. -/
def binary (op : BinaryOp) (left right : Scalar) (l r : Tree) : Drafting Tree :=
  if op = .eq ∨ op = .notEq then
    match left, right with
    | _, .parameter p => nullAware op l r p
    | .parameter p, _ => nullAware op r l p
    | _, _ => node (.binary op l r)
  else node (.binary op l r)

mutual

/-- Expression over source columns whose expressions are given; these are shared, not
copied. -/
def scalar (columns : List Tree) : Scalar → Drafting Tree
  | .column index => columnAt columns index
  | .constant value => node (.literal value)
  | .null => return .null
  | .parameter p => node (.parameter p)
  | .placeholder id => node (.placeholder id)
  | .typeIs column type => do
    let c ← columnAt columns column
    node (.binary .eq c (← node (.placeholder (.typeId type))))
  | .binary op left right => do
    let l ← scalar columns left
    let r ← scalar columns right
    binary op left right l r
  | .unary op operand => do node (.unary op (← scalar columns operand))
  | .function f args => do node (.function f (← scalars columns args))
  | .inList id exprs => do
    match ← scalars columns exprs with
    | first :: others => node (.dynamicFilter id first others)
    | [] => throw (.emptyDynamicFilter id)

/-- Expressions one after the other. -/
def scalars (columns : List Tree) : List Scalar → Drafting (List Tree)
  | [] => return []
  | e :: rest => do
    let t ← scalar columns e
    return t :: (← scalars columns rest)

end

end Draft

end SqlWright
