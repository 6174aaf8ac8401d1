import Mathlib.Algebra.BigOperators.Group.Multiset.Basic
import Mathlib.Data.Multiset.Sort
import SqlWright.Dom.Node

/-!
# Interpretations

What the words of a statement stand for: the values of constants and parameters, the
operators and functions, the order of values and the rows of the stored tables. Values are
of any type. A condition is true, false or unknown, and a row is kept if it is true. The rows of
a derived table are read in an order of the server's choice.
-/

namespace SqlWright

/-- Three-valued conjunction: false decides, and unknown is what is left open. -/
def conjunction3 : Option Bool → Option Bool → Option Bool
  | some false, _ | _, some false => some false
  | some true, some true => some true
  | _, _ => none

/-- A conjunction is true exactly if both sides are. -/
@[simp]
theorem conjunction3_eq_true {a b : Option Bool} :
    conjunction3 a b = some true ↔ a = some true ∧ b = some true := by
  rcases a with _ | _ | _ <;> rcases b with _ | _ | _ <;> simp [conjunction3]

/-- What values there are and what the words of a statement make of them. -/
structure Interpretation (V : Type) where
  null : V
  isNull : V → Bool
  literal : Literal → V
  integer : Int → V
  integer? : V → Option Int
  serverVariable : String → V
  /-- Values that are bound to parameters, by identity. -/
  parameter : Nat → V
  placeholder : Placeholder → V
  /-- Whether the alternative of the variants of a name is selected. -/
  selected : String → Bool
  binary : BinaryOp → V → V → V
  unary : UnaryOp → V → V
  function : ScalarFunction → List V → V
  cast : SqlType → V → V
  row : List V → V
  dynamicFilter : String → List V → V
  query : List (List V) → V
  /-- Aggregate of the values that a column has in a group. -/
  aggregate : AggregateKind → Multiset V → V
  /-- Aggregate of the rows of a group themselves. -/
  rows : AggregateKind → Nat → V
  /-- Truth of a condition; none if it is unknown. -/
  truth : V → Option Bool
  /-- Ascending order, which says where NULL stands as well. -/
  le : V → V → Bool
  truth_and : ∀ a b, truth (binary .and a b) = conjunction3 (truth a) (truth b)

namespace Interpretation

variable {V : Type} (I : Interpretation V)

/-- Whether a row that gives the condition this value is kept. -/
def holds (v : V) : Bool := I.truth v = some true

/-- A conjunction holds exactly if both sides do. -/
@[simp]
theorem holds_and (a b : V) : I.holds (I.binary .and a b) = (I.holds a && I.holds b) := by
  simp [holds, I.truth_and]

/-- Whether the alternative of a variant is taken. -/
def isChosen : VariantKey → Bool
  | .isNull p => I.isNull (I.parameter p.id)
  | .named name => I.selected name

/-- Number of rows that a count stands for; none if it does not limit them. -/
def count? (v : V) : Option Nat := (I.integer? v).map Int.toNat

/-- Whether one value comes before another or beside it under a key. -/
def keyLe (a b : SortKey V) : Bool :=
  let plain := if a.ascending then I.le a.expr b.expr else I.le b.expr a.expr
  match a.nullsFirst with
  | none => plain
  | some first =>
    match I.isNull a.expr, I.isNull b.expr with
    | true, true => true
    | true, false => first
    | false, true => !first
    | false, false => plain

/-- Whether a row with these keys comes before another or beside it: the first keys that
differ decide. -/
def orderLe : List (SortKey V) → List (SortKey V) → Bool
  | a :: as, b :: bs => I.keyLe a b && (!I.keyLe b a || orderLe as bs)
  | _, _ => true

/-- Integer that a truth value is written as; unknown is NULL. -/
def ofTruth (t : Option Bool) : Option Int := t.map fun b ↦ if b then 1 else 0

/-- Truth value that an integer stands for. -/
def truthOf (v : Option Int) : Option Bool := v.map (· ≠ 0)

@[simp]
theorem truthOf_ofTruth (t : Option Bool) : truthOf (ofTruth t) = t := by
  rcases t with _ | _ | _ <;> rfl

/-- Binary operator on integers, where NULL on a side gives NULL. -/
def integerBinary (op : BinaryOp) (a b : Option Int) : Option Int :=
  let compared (test : Int → Int → Bool) : Option Int := ofTruth (do return test (← a) (← b))
  match op with
  | .eq => compared fun a b ↦ a = b
  | .notEq => compared fun a b ↦ a ≠ b
  | .lt => compared fun a b ↦ a < b
  | .ltEq => compared fun a b ↦ a ≤ b
  | .gt => compared fun a b ↦ a > b
  | .gtEq => compared fun a b ↦ a ≥ b
  | .and => ofTruth (conjunction3 (truthOf a) (truthOf b))
  | .or => ofTruth ((conjunction3 ((truthOf a).map not) ((truthOf b).map not)).map not)
  | .plus => do return (← a) + (← b)
  | .minus => do return (← a) - (← b)
  | .multiply => do return (← a) * (← b)
  | .divide => do return (← a) / (← b)
  | .modulo => do return (← a) % (← b)
  | .concat | .like | .isIn | .notIn => none

/-- Operator with one operand on integers. -/
def integerUnary (op : UnaryOp) (a : Option Int) : Option Int :=
  match op with
  | .negation => ofTruth ((truthOf a).map not)
  | .negate => a.map (- ·)
  | .isNull => ofTruth (some a.isNone)
  | .isNotNull => ofTruth (some a.isSome)
  | .existence => none

/-- Aggregate of integers, which leaves out NULL. -/
def integerAggregate (kind : AggregateKind) (values : Multiset (Option Int)) : Option Int :=
  let given := values.filterMap id
  match kind with
  | .count => some given.card
  | .sum => if given = 0 then none else some given.sum
  | .avg => if given = 0 then none else some (given.sum / given.card)
  | .min => (given.sort (· ≤ ·)).head?
  | .max => (given.sort (· ≤ ·)).getLast?

/-- Values are integers and NULL, which comes first. Words that are not about integers give
NULL. -/
def integers (parameter : Nat → Option Int) : Interpretation (Option Int) where
  null := none
  isNull := Option.isNone
  literal
    | .integer n => some n.toInt
    | .boolean b => ofTruth (some b)
    | _ => none
  integer := some
  integer? := id
  serverVariable _ := none
  parameter := parameter
  placeholder _ := none
  selected _ := false
  binary := integerBinary
  unary := integerUnary
  function _ _ := none
  cast _ v := v
  row _ := none
  dynamicFilter _ _ := none
  query rows := rows.head?.bind fun row ↦ row.head?.join
  aggregate := integerAggregate
  rows _ n := some n
  truth := truthOf
  le
    | none, _ => true
    | some _, none => false
    | some a, some b => a ≤ b
  truth_and _ _ := truthOf_ofTruth _

end Interpretation

/-- Row with the names of its columns. -/
abbrev Record (V : Type) := List (String × V)

namespace Record

variable {V : Type}

/-- Values in the order of the columns. -/
def values (r : Record V) : List V := r.map (·.2)

/-- Value under a name, or NULL. -/
def get (I : Interpretation V) (r : Record V) (name : String) : V := (r.lookup name).getD I.null

/-- A record is read in full by the names of its columns, if these differ. -/
theorem map_get {I : Interpretation V} {r : Record V} (hn : (r.map (·.1)).Nodup) :
    (r.map (·.1)).map (r.get I) = r.values := by
  rw [values, List.map_map]
  refine List.map_congr_left fun c hc ↦ ?_
  have found : r.lookup c.1 = some c.2 := by
    rw [List.lookup_eq_some_iff]
    obtain ⟨before, after, rfl⟩ := List.append_of_mem hc
    refine ⟨before, after, rfl, fun p hp ↦ ?_⟩
    rw [List.map_append, List.map_cons, List.nodup_append] at hn
    simpa using (hn.2.2 p.1 (List.mem_map_of_mem hp) c.1 List.mem_cons_self).symm
  rw [Function.comp_apply, get, found, Option.getD_some]

end Record

/-- Rows of the stored tables, and of queries in the server's own words. -/
structure Database (V : Type) where
  table : Option String → String → List (Record V)
  native : String → List (Record V)
  /-- Order in which the rows of the derived table with an alias are read. Whatever its query is
  ordered by, no order of them is promised. -/
  arranged : String → List (Record V) → List (Record V) := fun _ rows ↦ rows
  arranged_perm : ∀ label rows, (arranged label rows).Perm rows := by exact fun _ _ ↦ .refl _

/-- Tables without rows. -/
def Database.empty {V : Type} : Database V where
  table _ _ := []
  native _ := []

end SqlWright
