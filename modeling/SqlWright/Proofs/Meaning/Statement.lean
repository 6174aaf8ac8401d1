import Mathlib.Data.List.Dedup
import SqlWright.Dom.Tree
import SqlWright.Proofs.Meaning.Interpretation

/-!
# Meaning of statements

What a tree of a statement denotes: an expression has a value at each place of a select, a
row source has rows, a query has records. The clauses of a select take effect in the order
FROM, WHERE, GROUP BY, HAVING, row numbers, select list, DISTINCT, ORDER BY, OFFSET, LIMIT.
The order of a derived table's query says which rows it has, not how they come out of it.
Subqueries see nothing of the rows around them.
-/

namespace SqlWright

variable {V : Type}

/-- Row of a row source: the record under each of its aliases. -/
abbrev Scope (V : Type) := List (String × Record V)

/-- Row, or group of rows with one that stands for it. -/
structure Point (V : Type) where
  row : Scope V
  group : List (Scope V) := []

/-- Where an expression is evaluated: a point and, for the number of the row, all points of
the select and the position among them. -/
structure Place (V : Type) extends Point V where
  peers : List (Point V) := []
  position : Nat := 0

/-- Place of a single row. -/
def Place.ofRow (row : Scope V) : Place V := { row }

/-- Value of the column under an alias, or NULL. -/
def Scope.get (I : Interpretation V) (row : Scope V) (label name : String) : V :=
  ((row.lookup label).map (·.get I name)).getD I.null

/-- Value of the column of that name of the first record that has one, or NULL. -/
def Scope.find (I : Interpretation V) (row : Scope V) (name : String) : V :=
  (row.findSome? fun r ↦ r.2.lookup name).getD I.null

/-- What a tree denotes. -/
structure Meaning (V : Type) where
  /-- Value as an expression. -/
  value : Place V → V
  /-- Whether an aggregate function of the select around it stands in it. -/
  aggregates : Bool := false
  /-- Name of its own, which a column has. -/
  name? : Option String := none
  /-- Rows as a row source. -/
  scopes : List (Scope V) := []
  /-- Records as a query. -/
  records : List (Record V) := []

namespace Meaning

variable [DecidableEq V] (I : Interpretation V)

/-- Keys of an ordering with their values at a place. -/
def keysAt (keys : List (SortKey (Meaning V))) (p : Place V) : List (SortKey V) :=
  keys.map (·.map (·.value p))

/-- Number of the row at a place in an ordering of its peers, which begins with one. -/
def rowNumber (keys : List (SortKey (Meaning V))) (p : Place V) : Nat :=
  let keysOf (i : Nat) : List (SortKey V) :=
    (p.peers[i]?.map fun q ↦ keysAt keys { q with }).getD []
  ((List.range p.peers.length).mergeSort fun i j ↦ I.orderLe (keysOf i) (keysOf j)).idxOf
    p.position + 1

/-- Value of the first branch whose condition holds, else the last value. -/
def caseAt (branches : List (Meaning V × Meaning V)) (otherwise : Option (Meaning V))
    (p : Place V) : V :=
  match branches.find? fun b ↦ I.holds (b.1.value p) with
  | some b => b.2.value p
  | none => (otherwise.map (·.value p)).getD I.null

/-- Value of an aggregate function in the group of a place. -/
def aggregateAt (kind : AggregateKind) (distinct : Bool) (operand : Option (Meaning V))
    (p : Place V) : V :=
  match operand with
  | none => I.rows kind p.group.length
  | some m =>
    let values := p.group.map fun row ↦ m.value (.ofRow row)
    I.aggregate kind (if distinct then values.dedup else values)

/-- Whether a condition, if there is one, holds of a row. -/
def keeps (condition : Option (Meaning V)) (row : Scope V) : Bool :=
  condition.all fun m ↦ I.holds (m.value (.ofRow row))

/-- Rows of two joined sources. A left row that matches nothing stays in a left outer join,
where the columns of the right side read NULL. -/
def joined (kind : JoinKind) (left right : List (Scope V)) (on : Option (Meaning V)) :
    List (Scope V) :=
  left.flatMap fun l ↦
    let found := (right.map (l ++ ·)).filter (keeps I on)
    if kind = .leftOuter ∧ found = [] then [l] else found

end Meaning

namespace Select

variable [DecidableEq V] (I : Interpretation V) (s : Select (Meaning V))

/-- Rows that the WHERE clause keeps. -/
def kept : List (Scope V) :=
  ((s.source.map (·.scopes)).getD [[]]).filter (Meaning.keeps I s.filter)

/-- Whether the rows are put together in groups, by clauses or by an aggregate function. -/
def hasGroups : Bool :=
  s.isGrouped || s.exprs.any (·.aggregates) || s.orderBy.any (·.expr.aggregates)

/-- Values of the GROUP BY clause for a row. -/
def groupKey (row : Scope V) : List V := s.groupBy.map (·.value (.ofRow row))

/-- Rows of each group; without a GROUP BY clause there is one group. -/
def groups : List (List (Scope V)) :=
  if s.groupBy.isEmpty then [s.kept I]
  else ((s.kept I).map s.groupKey).dedup.map fun key ↦
    (s.kept I).filter fun row ↦ s.groupKey row = key

/-- Rows or groups that the select list is computed for. -/
def points : List (Point V) :=
  if s.hasGroups then
    ((s.groups I).map fun group ↦ ⟨group.headD [], group⟩).filter fun q ↦
      s.having.all fun m ↦ I.holds (m.value { q with })
  else (s.kept I).map (⟨·, []⟩)

/-- Places that the select list is computed at. -/
def places : List (Place V) :=
  (s.points I).mapIdx fun i q ↦ { q with peers := s.points I, position := i }

/-- Record of the select list at a place; without columns it has all there are. -/
def record (p : Place V) : Record V :=
  if s.columns.isEmpty then p.row.flatMap (·.2)
  else s.columns.map fun c ↦ ((c.label <|> c.expr.name?).getD "", c.expr.value p)

/-- Records and their keys before the ordering; of equal records DISTINCT keeps one. -/
def entries : List (Record V × List (SortKey V)) :=
  let all := (s.places I).map fun p ↦ (s.record p, Meaning.keysAt s.orderBy p)
  if s.distinct then all.pwFilter fun a b ↦ a.1.values ≠ b.1.values else all

/-- Records in the order of the ORDER BY clause. -/
def ordered : List (Record V) :=
  ((s.entries I).mergeSort fun a b ↦ I.orderLe a.2 b.2).map (·.1)

/-- Number that a count comes to. -/
def count? (count : Option (Meaning V)) : Option Nat :=
  count.bind fun m ↦ I.count? (m.value (.ofRow []))

/-- Records that a select gives. -/
def records : List (Record V) :=
  let rest := (s.ordered I).drop ((count? I s.offset).getD 0)
  match count? I s.limit with
  | some n => rest.take n
  | none => rest

end Select

namespace Meaning

variable [DecidableEq V] (I : Interpretation V) (db : Database V)

/-- Meaning of an expression of some others. -/
def ofExpression (parts : List (Meaning V)) (value : Place V → V) : Meaning V where
  value := value
  aggregates := parts.any (·.aggregates)

/-- Meaning of a row source. -/
def ofSource (scopes : List (Scope V)) : Meaning V where
  value := fun _ ↦ I.null
  scopes := scopes

/-- Meaning of a query. -/
def ofQuery (records : List (Record V)) : Meaning V where
  value := fun _ ↦ I.query (records.map Record.values)
  records := records

/-- Meaning of a node from those of its children. Changes of tables have none. -/
def ofNode (n : Node (Meaning V)) : Meaning V :=
  match n with
  | .null => ofExpression [] fun _ ↦ I.null
  | .literal value => ofExpression [] fun _ ↦ I.literal value
  | .column none name =>
    { ofExpression [] fun p ↦ p.row.find I name with name? := some name }
  | .column (some label) name =>
    { ofExpression [] fun p ↦ p.row.get I label name with name? := some name }
  | .variable name => ofExpression [] fun _ ↦ I.serverVariable name
  | .parameter p => ofExpression [] fun _ ↦ I.parameter p.id
  | .placeholder id => ofExpression [] fun _ ↦ I.placeholder id
  | .binary op left right =>
    ofExpression n.children fun p ↦ I.binary op (left.value p) (right.value p)
  | .unary op operand => ofExpression n.children fun p ↦ I.unary op (operand.value p)
  | .function f args => ofExpression n.children fun p ↦ I.function f (args.map (·.value p))
  | .aggregate kind distinct operand =>
    { ofExpression n.children (aggregateAt I kind distinct operand) with aggregates := true }
  | .cast operand type => ofExpression n.children fun p ↦ I.cast type (operand.value p)
  | .case branches otherwise => ofExpression n.children (caseAt I branches otherwise)
  | .row items => ofExpression n.children fun p ↦ I.row (items.map (·.value p))
  | .dynamicFilter id first others =>
    ofExpression n.children fun p ↦ I.dynamicFilter id ((first :: others).map (·.value p))
  | .subquery query => ofQuery I query.records
  | .variant key main alternative =>
    ofExpression n.children fun p ↦ (if I.isChosen key then alternative else main).value p
  | .rowNumber keys => ofExpression n.children fun p ↦ I.integer (rowNumber I keys p)
  | .native text => ofQuery I (db.native text)
  | .table schema name label =>
    ofSource I ((db.table schema name).map fun record ↦ [(label.getD name, record)])
  | .queryRef query label =>
    ofSource I ((db.arranged label query.records).map fun record ↦ [(label, record)])
  | .join kind left right on => ofSource I (joined I kind left.scopes right.scopes on)
  | .select s => ofQuery I (s.records I)
  | .insert _ _ _ | .update _ _ _ | .delete _ _ | .createIndex _ => ofSource I []

end Meaning

namespace Tree

variable [DecidableEq V] (I : Interpretation V) (db : Database V)

/-- What a tree denotes. -/
def meaning (t : Tree) : Meaning V := t.fold fun n ↦ .ofNode I db (n.map (·.2))

/-- The meaning of a tree comes from those of its children. -/
theorem meaning_eq (t : Tree) : t.meaning I db = .ofNode I db (t.node.map (meaning I db)) := by
  obtain ⟨i, n⟩ := t
  rw [meaning, fold_mk, Node.map_map]
  rfl

/-- Records that a tree denotes as a query. -/
def records (t : Tree) : List (Record V) := (t.meaning I db).records

end Tree

end SqlWright
