import SqlWright.Proofs.Drafting.Outcome
import SqlWright.Proofs.Meaning.Expression

/-!
# Null-safe comparisons

Equality with a parameter that is NULL asks whether the other operand is NULL. The tree of a
comparison has a variant for that, whose key is one parameter. So a comparison of two parameters
is null-safe only on the side of its key: the tree of an expression has its null-safe value
where the left one of two compared parameters is NULL only if the right one is.
-/

namespace SqlWright

variable {V : Type} {I : Interpretation V}

/-- Whether the operator is equality or its negation. -/
def BinaryOp.isEquality (op : BinaryOp) : Prop := op = .eq ∨ op = .notEq

/-- Test for NULL that equality with NULL comes to, or the one that its negation comes to. -/
def BinaryOp.nullTest (op : BinaryOp) : UnaryOp := if op = .eq then .isNull else .isNotNull

namespace Interpretation

/-- There is one NULL, and the sides of equality and of its negation can be exchanged. -/
structure IsSymmetric (I : Interpretation V) : Prop where
  null_unique {a b : V} : I.isNull a → I.isNull b → a = b
  comm {op : BinaryOp} : op.isEquality → ∀ a b, I.binary op a b = I.binary op b a

theorem isSymmetric_integers (parameter : Nat → Option Int) :
    (integers parameter).IsSymmetric where
  null_unique ha hb := (Option.isNone_iff_eq_none.1 ha).trans (Option.isNone_iff_eq_none.1 hb).symm
  comm hop a b := by
    rcases hop with rfl | rfl <;> rcases a with _ | a <;> rcases b with _ | b <;>
      simp [integers, integerBinary, eq_comm]

end Interpretation

namespace Scalar

variable (I)

/-- Whether the expression is a parameter that is NULL. -/
def isNullParameter : Scalar → Bool
  | .parameter p => I.isNull (I.parameter p.id)
  | _ => false

@[simp]
theorem isNullParameter_parameter (p : Parameter) :
    (parameter p).isNullParameter I = I.isNull (I.parameter p.id) := rfl

/-- Value of a binary expression in which equality with a parameter that is NULL, on either side,
is the test of the other side for NULL. -/
def nullSafeBinary (op : BinaryOp) (left right : Scalar) (l r : V) : V :=
  if op = .eq ∨ op = .notEq then
    if right.isNullParameter I then I.unary op.nullTest l
    else if left.isNullParameter I then I.unary op.nullTest r
    else I.binary op l r
  else I.binary op l r

mutual

/-- Value of an expression in a row, with null-safe comparisons. -/
def nullSafeValue (row : List V) : Scalar → V
  | .column i => I.at row i
  | .constant c => I.literal c
  | .null => I.null
  | .parameter p => I.parameter p.id
  | .placeholder id => I.placeholder id
  | .typeIs i type => I.binary .eq (I.at row i) (I.placeholder (.typeId type))
  | .binary op left right =>
    nullSafeBinary I op left right (nullSafeValue row left) (nullSafeValue row right)
  | .unary op operand => I.unary op (nullSafeValue row operand)
  | .function f args => I.function f (nullSafeValues row args)
  | .inList id exprs => I.dynamicFilter id (nullSafeValues row exprs)

/-- Values of expressions in a row, with null-safe comparisons. -/
def nullSafeValues (row : List V) : List Scalar → List V
  | [] => []
  | e :: rest => nullSafeValue row e :: nullSafeValues row rest

end

variable {I}

/-- The two parameters, if two parameters are asked to be equal or not. -/
def parameterPair : BinaryOp → Scalar → Scalar → List (Parameter × Parameter)
  | .eq, .parameter p, .parameter q | .notEq, .parameter p, .parameter q => [(p, q)]
  | _, _, _ => []

mutual

/-- Pairs of parameters that are compared with each other in an expression. -/
def parameterPairs : Scalar → List (Parameter × Parameter)
  | .binary op left right =>
    parameterPair op left right ++ left.parameterPairs ++ right.parameterPairs
  | .unary _ operand => operand.parameterPairs
  | .function _ args => parameterPairsOf args
  | .inList _ exprs => parameterPairsOf exprs
  | _ => []

/-- Pairs of parameters that are compared with each other in expressions. -/
def parameterPairsOf : List Scalar → List (Parameter × Parameter)
  | [] => []
  | e :: rest => e.parameterPairs ++ parameterPairsOf rest

end

/-- Of two compared parameters the left one is NULL only if the right one is. -/
def NullsOnRight (I : Interpretation V) (pairs : List (Parameter × Parameter)) : Prop :=
  ∀ p ∈ pairs, I.isNull (I.parameter p.1.id) → I.isNull (I.parameter p.2.id)

theorem nullsOnRight_append {ps qs : List (Parameter × Parameter)} :
    NullsOnRight I (ps ++ qs) ↔ NullsOnRight I ps ∧ NullsOnRight I qs := by
  simp [NullsOnRight, List.mem_append, or_imp, forall_and]

/-- Null-safe equality does not depend on the order of its sides. -/
theorem nullSafeBinary_comm (hI : I.IsSymmetric) {op : BinaryOp} (hop : op.isEquality)
    {left right : Scalar} (row : List V) :
    nullSafeValue I row (.binary op left right) = nullSafeValue I row (.binary op right left) := by
  have null {e : Scalar} (he : e.isNullParameter I) : I.isNull (e.nullSafeValue I row) := by
    cases e with
    | parameter p => exact he
    | _ => cases he
  simp only [nullSafeValue, nullSafeBinary, if_pos (show op = .eq ∨ op = .notEq from hop)]
  by_cases hl : left.isNullParameter I <;> by_cases hr : right.isNullParameter I
  · simp only [hl, hr, if_true, hI.null_unique (null hl) (null hr)]
  · simp [hl, hr]
  · simp [hl, hr]
  · simp [hl, hr, hI.comm hop]

/-- A variant takes NULL into account on the side that its key is from. This is enough if the
other side is NULL only together with it. -/
theorem binaryValue_eq (hI : I.IsSymmetric) {op : BinaryOp} {left right : Scalar} {l r : V}
    (hl : ∀ p, left = .parameter p → l = I.parameter p.id)
    (hr : ∀ p, right = .parameter p → r = I.parameter p.id)
    (nulls : NullsOnRight I (parameterPair op left right)) :
    binaryValue I op left right l r = nullSafeBinary I op left right l r := by
  unfold binaryValue nullSafeBinary
  split
  · next hop =>
    cases right with
    | parameter q =>
      simp only [hr q rfl, nullAwareValue, isNullParameter_parameter, BinaryOp.nullTest]
      by_cases hq : I.isNull (I.parameter q.id)
      · simp [hq]
      · have notNull : left.isNullParameter I = false := by
          rw [Bool.eq_false_iff]
          intro hn
          cases left with
          | parameter p =>
            have pair : parameterPair op (.parameter p) (.parameter q) = [(p, q)] := by
              rcases hop with rfl | rfl <;> rfl
            exact hq (nulls (p, q) (by simp [pair]) hn)
          | _ => cases hn
        simp [hq, notNull]
    | _ =>
      cases left with
      | parameter p =>
        simp only [hl p rfl, nullAwareValue, isNullParameter, BinaryOp.nullTest]
        simp [hI.comm hop]
      | _ => simp [isNullParameter]
  · rfl

mutual

/-- Where nulls are on the right, the value of an expression is the null-safe one. -/
theorem value_eq_nullSafeValue (hI : I.IsSymmetric) (row : List V) {e : Scalar}
    (nulls : NullsOnRight I e.parameterPairs) : e.value I row = e.nullSafeValue I row := by
  cases e with
  | binary op left right =>
    obtain ⟨⟨pair, hl⟩, hr⟩ := (nullsOnRight_append.1 nulls).imp_left nullsOnRight_append.1
    rw [value, nullSafeValue, ← value_eq_nullSafeValue hI row hl, ← value_eq_nullSafeValue hI row hr]
    exact binaryValue_eq hI (by rintro p rfl; rfl) (by rintro p rfl; rfl) pair
  | unary op operand =>
    exact congrArg (I.unary op) (value_eq_nullSafeValue hI row nulls)
  | function f args =>
    rw [value, nullSafeValue, values_eq_nullSafeValues hI row nulls]
  | inList id exprs =>
    rw [value, nullSafeValue, values_eq_nullSafeValues hI row nulls]
  | _ => rfl

theorem values_eq_nullSafeValues (hI : I.IsSymmetric) (row : List V) {es : List Scalar}
    (nulls : NullsOnRight I (parameterPairsOf es)) : values I row es = nullSafeValues I row es := by
  cases es with
  | nil => rfl
  | cons e rest =>
    obtain ⟨first, others⟩ := nullsOnRight_append.1 nulls
    rw [values, nullSafeValues, value_eq_nullSafeValue hI row first,
      values_eq_nullSafeValues hI row others]

end

end Scalar

namespace Draft

variable [DecidableEq V]

/-- The tree of an expression over columns exists and has, at every place, the null-safe value of
the expression, if of two compared parameters the left one is NULL only if the right one is. The
order of the sides of an equality does not matter for this value. -/
theorem scalar_nullSafe (hI : I.IsSymmetric) (db : Database V) {columns : List Tree} {e : Scalar}
    (fits : e.Fits columns.length) (nulls : Scalar.NullsOnRight I e.parameterPairs) (d : Draft) :
    (∃ t d', scalar columns e d = .ok (t, d') ∧ ∀ p : Place V, (t.meaning I db).value p =
      e.nullSafeValue I (columns.map fun c ↦ (c.meaning I db).value p)) ∧
    ∀ (row : List V) (op : BinaryOp) (left right : Scalar), op.isEquality →
      Scalar.nullSafeValue I row (.binary op left right) =
        Scalar.nullSafeValue I row (.binary op right left) := by
  refine ⟨?_, fun row op left right hop ↦ Scalar.nullSafeBinary_comm hI hop row⟩
  rcases h : scalar columns e d with error | ⟨t, d'⟩
  · exact (((decides_scalar columns e d).error h).1 fits).elim
  · refine ⟨t, d', rfl, fun p ↦ ?_⟩
    rw [(computes_scalar h).value, Scalar.value_eq_nullSafeValue hI _ nulls]

/-- The number of a row, compared with a parameter from the left, and two parameters compared
with each other. -/
def rowIsParameter : Scalar :=
  let row : Parameter := ⟨0, "row"⟩
  .binary .and (.binary .eq (.parameter row) (.column 0))
    (.binary .notEq (.parameter row) (.parameter ⟨1, "other"⟩))

/-- Both parameters are NULL: a row without a number would have to differ from NULL. -/
theorem scalar_nullSafe_of_rowIsParameter :
    let I := Interpretation.integers fun _ ↦ none
    I.IsSymmetric ∧ rowIsParameter.Fits 1 ∧ Scalar.NullsOnRight I rowIsParameter.parameterPairs ∧
      ∃ t d', scalar [.mk 1 (.column (some "t0") "id")] rowIsParameter {} = .ok (t, d') ∧
        ∀ p : Place (Option Int), (t.meaning I .empty).value p =
          rowIsParameter.nullSafeValue I [p.row.get I "t0" "id"] := by
  have symmetric := Interpretation.isSymmetric_integers fun _ ↦ none
  have nulls : Scalar.NullsOnRight (.integers fun _ ↦ none) rowIsParameter.parameterPairs :=
    fun _ _ _ ↦ rfl
  have fits : rowIsParameter.Fits 1 := by
    simp [rowIsParameter, Scalar.Fits]
  let columns : List Tree := [.mk 1 (.column (some "t0") "id")]
  have fitsColumns : rowIsParameter.Fits columns.length := fits
  exact ⟨symmetric, fits, nulls,
    (scalar_nullSafe symmetric .empty fitsColumns nulls {}).1⟩

/-- Two parameters of which the left one is NULL are not null-safe: whether they differ is
unknown, though the right one is not NULL. -/
theorem scalar_unsafe_of_leftNull :
    let I := Interpretation.integers fun i ↦ if i = 0 then none else some 7
    let e : Scalar := .binary .notEq (.parameter ⟨0, "a"⟩) (.parameter ⟨1, "b"⟩)
    ∃ t d', scalar [] e {} = .ok (t, d') ∧
      I.truth ((t.meaning I .empty).value (.ofRow [])) = none ∧
      I.truth (e.nullSafeValue I []) = some true :=
  ⟨_, _, rfl, by rfl, by rfl⟩

end Draft

end SqlWright
