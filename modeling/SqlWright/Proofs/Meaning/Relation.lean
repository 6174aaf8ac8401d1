import Mathlib.Data.List.Dedup
import SqlWright.Proofs.Meaning.Interpretation
import SqlWright.Proofs.Relation.WellFormed

/-!
# Meaning of relations

The rows of a relation, computed operation by operation from the rows of its sources. A
stored table comes in the order of its key, and every operation keeps what order it can;
the rows of an aggregation come in no particular order.
-/

namespace SqlWright

variable {V : Type}

/-- Value at a position of a row, or NULL. -/
def Interpretation.at (I : Interpretation V) (row : List V) (i : Nat) : V := row.getD i I.null

namespace Scalar

variable (I : Interpretation V)

/-- Comparison with a parameter, or the test for NULL where the parameter is NULL. -/
def nullAwareValue (op : BinaryOp) (value : V) (p : Parameter) : V :=
  if I.isNull (I.parameter p.id) then I.unary (if op = .eq then .isNull else .isNotNull) value
  else I.binary op value (I.parameter p.id)

/-- Value of a binary expression from those of its sides. Equality and its negation with a
parameter take NULL into account; of two parameters the right one counts. -/
def binaryValue (op : BinaryOp) (left right : Scalar) (l r : V) : V :=
  if op = .eq ∨ op = .notEq then
    match left, right with
    | _, .parameter p => nullAwareValue I op l p
    | .parameter p, _ => nullAwareValue I op r p
    | _, _ => I.binary op l r
  else I.binary op l r

mutual

/-- Value of an expression in a row. -/
def value (row : List V) : Scalar → V
  | .column i => I.at row i
  | .constant c => I.literal c
  | .null => I.null
  | .parameter p => I.parameter p.id
  | .placeholder id => I.placeholder id
  | .typeIs i type => I.binary .eq (I.at row i) (I.placeholder (.typeId type))
  | .binary op left right => binaryValue I op left right (value row left) (value row right)
  | .unary op operand => I.unary op (value row operand)
  | .function f args => I.function f (values row args)
  | .inList id exprs => I.dynamicFilter id (values row exprs)

/-- Values of expressions in a row. -/
def values (row : List V) : List Scalar → List V
  | [] => []
  | e :: rest => value row e :: values row rest

end

/-- Number of rows that an expression without columns stands for, if it limits them. -/
def count? (e : Scalar) : Option Nat := I.count? (e.value I [])

end Scalar

/-- Type that an aggregate over columns of the types is cast to. -/
def Aggregation.cast? (a : Aggregation) (types : List SqlType) : Option SqlType :=
  Compiled.aggregateCast a { columns := types.map (⟨"", ·⟩) }

/-- Value of an aggregate in a group of rows whose columns have the types. -/
def Aggregation.value (I : Interpretation V) (types : List SqlType) (a : Aggregation)
    (rows : List (List V)) : V :=
  let call := match a.column with
    | some i => I.aggregate a.kind (rows.map (I.at · i))
    | none => I.rows a.kind rows.length
  match a.cast? types with
  | some type => I.cast type call
  | none => call

/-- An aggregate does not depend on the order of the rows. -/
theorem Aggregation.value_perm {I : Interpretation V} {rows rows' : List (List V)}
    (h : rows.Perm rows') (types : List SqlType) (a : Aggregation) :
    a.value I types rows = a.value I types rows' := by
  unfold Aggregation.value
  cases a.column with
  | none => simp only [h.length_eq]
  | some i => simp only [Multiset.coe_eq_coe.2 (h.map (I.at · i))]

/-- Row with computed columns, one after the other. -/
def Calculation.extendRow (I : Interpretation V) (row : List V) (columns : List Calculation) :
    List V :=
  columns.foldl (fun row c ↦ row ++ [c.expr.value I row]) row

/-- Keys of a row in an order of its columns. -/
def SortItem.keysOf (I : Interpretation V) (order : List SortItem) (row : List V) :
    List (SortKey V) :=
  order.map fun item ↦ .of (I.at row item.column) item.ascending

namespace Relation

variable [DecidableEq V] (I : Interpretation V) (db : Database V)

/-- Types of the columns. -/
def types : Relation → List SqlType
  | table t => t.columns.map (·.type)
  | native _ header => header.columns.map (·.type)
  | project r columns => columns.filterMap (r.types[·]?)
  | extend r columns => r.types ++ columns.map (·.type)
  | join a b _ _ => a.types ++ b.types
  | aggregate r groupBy aggregates =>
    groupBy.filterMap (r.types[·]?) ++ aggregates.map (·.type)
  | filter r _ | sort r _ | distinct r | take r _ | skip r _ | page r _ _ | lock r _ => r.types

/-- Rows in an order of their columns. -/
def sorted (order : List SortItem) (rows : List (List V)) : List (List V) :=
  rows.mergeSort fun a b ↦ I.orderLe (SortItem.keysOf I order a) (SortItem.keysOf I order b)

/-- Whether the columns of each pair are equal. -/
def pairsHold (pairs : List (Nat × Nat)) (left right : List V) : Bool :=
  pairs.all fun p ↦ I.holds (I.binary .eq (I.at left p.1) (I.at right p.2))

/-- Rows of a join. A left row that matches nothing stays in a left outer join, with NULL for
the columns of the right side. -/
def joinedRows (type : JoinType) (pairs : List (Nat × Nat)) (width : Nat)
    (left right : List (List V)) : List (List V) :=
  left.flatMap fun l ↦
    let found := (right.filter (pairsHold I pairs l)).map (l ++ ·)
    if type = .leftOuter ∧ found = [] then [l ++ List.replicate width I.null] else found

/-- Rows of an aggregation: for each key that rows have, the key and the aggregates of the
rows that have it. Without columns to group by there is one group. -/
def aggregatedRows (types : List SqlType) (groupBy : List Nat) (aggregates : List Aggregation)
    (rows : List (List V)) : List (List V) :=
  let key (row : List V) := groupBy.map (I.at row)
  let keys := if groupBy.isEmpty then [[]] else (rows.map key).dedup
  keys.map fun k ↦ k ++ aggregates.map (·.value I types (rows.filter (key · = k)))

/-- Rows after some and up to some number. -/
def pageOf (leaving taking : Option Nat) (rows : List (List V)) : List (List V) :=
  let rest := rows.drop (leaving.getD 0)
  match taking with
  | some n => rest.take n
  | none => rest

/-- Rows of a relation. -/
def rows : Relation → List (List V)
  | table t =>
    sorted I (t.key.map (⟨·, true⟩))
      ((db.table t.schema t.name).map fun record ↦ t.columns.map (record.get I ·.name))
  | native sql header => (db.native sql).map fun record ↦ header.names.map (record.get I)
  | filter r e => r.rows.filter fun row ↦ I.holds (e.value I row)
  | project r columns => r.rows.map fun row ↦ columns.map (I.at row)
  | extend r columns => r.rows.map (Calculation.extendRow I · columns)
  | join a b type pairs => joinedRows I type pairs b.width a.rows b.rows
  | aggregate r groupBy aggregates => aggregatedRows I r.types groupBy aggregates r.rows
  | sort r order => sorted I order r.rows
  | distinct r => r.rows.dedup
  | take r count => pageOf none (count.count? I) r.rows
  | skip r count => pageOf (count.count? I) none r.rows
  | page r leaving taking => pageOf (leaving.count? I) (taking.count? I) r.rows
  | lock r _ => r.rows

/-! ### Rows in another order -/

variable {I} {rows rows' left left' right right' : List (List V)}

/-- Rows in another order have the same groups. -/
theorem aggregatedRows_perm (h : rows.Perm rows') (types : List SqlType) (groupBy : List Nat)
    (aggregates : List Aggregation) : (aggregatedRows I types groupBy aggregates rows).Perm
      (aggregatedRows I types groupBy aggregates rows') := by
  let key (row : List V) := groupBy.map (I.at row)
  have keys : (if groupBy.isEmpty then [[]] else (rows.map key).dedup).Perm
      (if groupBy.isEmpty then [[]] else (rows'.map key).dedup) := by
    split
    · exact .refl _
    · exact (h.map key).dedup
  have aggregated (k : List V) : aggregates.map (·.value I types (rows.filter (key · = k))) =
      aggregates.map (·.value I types (rows'.filter (key · = k))) :=
    List.map_congr_left fun a _ ↦ a.value_perm (h.filter _) types
  refine (keys.map _).trans (.of_eq (List.map_congr_left fun k _ ↦ ?_))
  exact congrArg (k ++ ·) (aggregated k)

omit [DecidableEq V] in
/-- Rows in another order have the same pairs in a join. -/
theorem joinedRows_perm (hl : left.Perm left') (hr : right.Perm right') (type : JoinType)
    (pairs : List (Nat × Nat)) (width : Nat) :
    (joinedRows I type pairs width left right).Perm
      (joinedRows I type pairs width left' right') := by
  refine hl.flatMap fun l _ ↦ ?_
  have found : ((right.filter (pairsHold I pairs l)).map (l ++ ·)).Perm
      ((right'.filter (pairsHold I pairs l)).map (l ++ ·)) := (hr.filter _).map _
  by_cases h : (right.filter (pairsHold I pairs l)).map (l ++ ·) = []
  · have h' := h ▸ found
    rw [List.nil_perm] at h'
    simp only [h, h', List.Perm.refl]
  · have h' : (right'.filter (pairsHold I pairs l)).map (l ++ ·) ≠ [] :=
      fun e ↦ h (List.perm_nil.1 (e ▸ found))
    simp only [h, h', and_false, if_false]
    exact found

end Relation

end SqlWright
