import SqlWright.Proofs.Drafting.Expressions

/-!
# Places of aggregate functions

Where SQL allows aggregate functions: not in a WHERE filter, a join condition, a GROUP BY key or
the operand of another aggregate. A select that puts rows into groups reads columns inside
aggregates and keys only. `Compiled.IsPlaced` is what keeps the selects of a draft so: each of
them is plain or covered by its keys.
-/

namespace SqlWright

/-- Whether a query of its own begins at the node. -/
def Node.isQuery {α : Type} : Node α → Bool
  | .select _ | .subquery _ | .queryRef _ _ => true
  | _ => false

namespace Tree

/-- Whether an aggregate function stands in the expression, queries nested in it aside. -/
def hasAggregate (t : Tree) : Bool :=
  fold (fun n ↦ n.kind = .aggregate || !n.isQuery && n.children.any (·.2)) t

/-- Every column of the expression stands in an aggregate function or in one of the keys, queries
nested in it aside. -/
inductive CoveredBy (keys : List Tree) : Tree → Prop where
  | key {t : Tree} : t ∈ keys → CoveredBy keys t
  | aggregate {t : Tree} : t.kind = .aggregate → CoveredBy keys t
  | query {t : Tree} : t.node.isQuery → CoveredBy keys t
  | parts {t : Tree} : t.kind ≠ .column → (∀ c ∈ t.children, CoveredBy keys c) → CoveredBy keys t

end Tree

/-- No aggregate function stands in the filter or in a key. If rows are put into groups, by keys
or by an aggregate function among the columns, the columns and the ordering are covered. -/
structure Select.IsPlaced (s : Select Tree) : Prop where
  filter : ∀ t ∈ s.filter, t.hasAggregate = false
  groupBy : ∀ t ∈ s.groupBy, t.hasAggregate = false
  exprs : s.groupBy ≠ [] ∨ (∃ t ∈ s.exprs, t.hasAggregate) → ∀ t ∈ s.exprs, t.CoveredBy s.groupBy
  orderBy : s.groupBy ≠ [] ∨ (∃ t ∈ s.exprs, t.hasAggregate) →
    ∀ k ∈ s.orderBy, k.expr.CoveredBy s.groupBy

/-- Aggregate functions stand in the expressions of the node only where they may. -/
def Node.IsPlaced : Node Tree → Prop
  | .select s => s.IsPlaced
  | .join _ _ _ on => ∀ t ∈ on, t.hasAggregate = false
  | .aggregate _ _ operand => ∀ t ∈ operand, t.hasAggregate = false
  | _ => True

namespace Tree

/-- Aggregate functions stand only where they may, at every node of the tree. -/
inductive IsPlaced : Tree → Prop where
  | mk {t : Tree} : t.node.IsPlaced → (∀ c ∈ t.children, IsPlaced c) → IsPlaced t

/-- An expression without aggregate functions, but for queries nested in it, where they stand only
where they may. -/
structure IsPlain (t : Tree) : Prop where
  placed : t.IsPlaced
  bare : t.hasAggregate = false

theorem hasAggregate_eq (t : Tree) : t.hasAggregate =
    (t.kind = .aggregate || !t.node.isQuery && t.children.any hasAggregate) := by
  obtain ⟨i, n⟩ := t
  have query (f : Tree → Tree × Bool) : (n.map f).isQuery = n.isQuery := by
    cases n <;> rfl
  rw [hasAggregate, fold_mk, Node.kind_map, query, Node.children_map, List.any_map]
  rfl

/-- A computation of expressions without aggregate functions has none. -/
theorem hasAggregate_computation : IsCompositional fun t ↦ t.hasAggregate = false := by
  intro t ht hc
  have kind : t.kind ≠ .aggregate := by
    unfold Tree.kind
    cases hn : t.node <;> simp_all [Node.isComputation, Node.kind]
  rw [hasAggregate_eq, Bool.or_eq_false_iff, Bool.and_eq_false_iff]
  exact ⟨by simpa using kind, .inr (List.any_eq_false.2 fun c hm ↦ by simp [hc c hm])⟩

theorem isPlaced_computation : IsCompositional IsPlaced := by
  intro t ht hc
  refine .mk ?_ hc
  cases hn : t.node <;> simp_all [Node.isComputation, Node.IsPlaced]

theorem isPlain_computation : IsCompositional IsPlain := fun t ht hc ↦
  ⟨isPlaced_computation t ht fun c hm ↦ (hc c hm).placed,
    hasAggregate_computation t ht fun c hm ↦ (hc c hm).bare⟩

theorem coveredBy_computation (keys : List Tree) :
    IsCompositional fun t ↦ t.IsPlaced ∧ t.CoveredBy keys := by
  intro t ht hc
  refine ⟨isPlaced_computation t ht fun c hm ↦ (hc c hm).1, .parts ?_ fun c hm ↦ (hc c hm).2⟩
  unfold Tree.kind
  cases hn : t.node <;> simp_all [Node.isComputation, Node.kind]

end Tree

end SqlWright
