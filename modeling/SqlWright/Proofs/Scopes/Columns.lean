import SqlWright.Proofs.Aggregates.Placement

/-!
# Scopes of columns

Which aliases a statement gives to its row sources, which of them the columns of an expression
are read from, and where they may be read. An alias that a FROM clause introduces can be used in
the clauses of its select and, in the condition of a join, for the two sides of the join. A
derived table hides what is inside of it.
-/

namespace SqlWright

/-- Alias of the row source at the node. -/
def Node.label? {α : Type} : Node α → Option String
  | .table _ _ label => label
  | .queryRef _ label => some label
  | _ => none

/-- Qualifiers of the column at the node, if it is one. -/
def Node.ownQualifiers {α : Type} : Node α → List (Option String)
  | .column qualifier _ => [qualifier]
  | _ => []

namespace Tree

/-- Aliases of the row sources of the whole tree, one for each place of a source. -/
def sourceLabels (t : Tree) : List String :=
  fold (fun n ↦ n.label?.toList ++ n.children.flatMap (·.2)) t

/-- Aliases that a row source introduces: its own, or those of both sides of a join. -/
def introduced (t : Tree) : List String :=
  fold (fun
    | .join _ left right _ => left.2 ++ right.2
    | n => n.label?.toList) t

/-- Qualifiers of the columns of an expression, queries nested in it aside. -/
def qualifiers (t : Tree) : List (Option String) :=
  fold (fun n ↦ n.ownQualifiers ++ if n.isQuery then [] else n.children.flatMap (·.2)) t

/-- Every column of the expression is qualified by one of the aliases. -/
def ReadsFrom (labels : List String) (t : Tree) : Prop :=
  ∀ q ∈ t.qualifiers, ∃ l ∈ labels, q = some l

/-- A property holds of the content of every node of the tree. -/
inductive Everywhere (p : Node Tree → Prop) : Tree → Prop where
  | mk {t : Tree} : p t.node → (∀ c ∈ t.children, Everywhere p c) → Everywhere p t

theorem Everywhere.mono {p q : Node Tree → Prop} {t : Tree} (h : t.Everywhere p)
    (hpq : ∀ n, p n → q n) : t.Everywhere q := by
  induction h with
  | mk root _ ih => exact .mk (hpq _ root) ih

theorem Everywhere.and {p q : Node Tree → Prop} {t : Tree} (hp : t.Everywhere p)
    (hq : t.Everywhere q) : t.Everywhere fun n ↦ p n ∧ q n := by
  induction hp with
  | mk root _ ih =>
    obtain ⟨root', below⟩ := hq
    exact .mk ⟨root, root'⟩ fun c hc ↦ ih c hc (below c hc)

theorem everywhere_mk {p : Node Tree → Prop} {i : Nat} {n : Node Tree} :
    (mk i n).Everywhere p ↔ p n ∧ ∀ c ∈ n.children, c.Everywhere p :=
  ⟨fun ⟨root, below⟩ ↦ ⟨root, below⟩, fun ⟨root, below⟩ ↦ .mk root below⟩

end Tree

/-- Aliases that the FROM clause of a select introduces. -/
def Select.introduced (s : Select Tree) : List String :=
  (s.source.map Tree.introduced).getD []

/-- Expressions of a select: all links but that to its row source. -/
def Select.expressions (s : Select Tree) : List Tree :=
  s.exprs ++ s.filter.toList ++ s.groupBy ++ s.having.toList ++ s.orderBy.map (·.expr) ++
    s.limit.toList ++ s.offset.toList

/-- Links of a select are expressions and the row source. -/
theorem Tree.Everywhere.select {p : Node Tree → Prop} {s : Select Tree} (i : Nat)
    (root : p (.select s)) (source : ∀ t ∈ s.source, t.Everywhere p)
    (expressions : ∀ t ∈ s.expressions, t.Everywhere p) :
    (Tree.mk i (.select s)).Everywhere p := by
  refine .mk root fun t ht ↦ ?_
  simp only [children, node, Node.children, Select.children, List.mem_append,
    Option.mem_toList] at ht
  simp only [Select.expressions, List.mem_append, Option.mem_toList] at expressions
  grind

/-- Columns that are read at the node are read from row sources in scope. -/
def Node.IsScoped : Node Tree → Prop
  | .select s => ∀ t ∈ s.expressions, t.ReadsFrom s.introduced
  | .join _ left right on => ∀ t ∈ on, t.ReadsFrom (left.introduced ++ right.introduced)
  | _ => True

namespace Tree

variable {t : Tree} {labels labels' : List String}

theorem sourceLabels_eq (t : Tree) :
    t.sourceLabels = t.node.label?.toList ++ t.children.flatMap sourceLabels := by
  obtain ⟨i, n⟩ := t
  have label (f : Tree → Tree × List String) : (n.map f).label? = n.label? := by cases n <;> rfl
  rw [sourceLabels, fold_mk, Node.children_map, List.flatMap_map, label]
  rfl

theorem introduced_join {kind : JoinKind} {left right : Tree} {on : Option Tree}
    (h : t.node = .join kind left right on) :
    t.introduced = left.introduced ++ right.introduced := by
  obtain ⟨i, n⟩ := t
  cases h
  rw [introduced, fold_mk]
  rfl

theorem introduced_of_label {label : String} (h : t.node.label? = some label) :
    t.introduced = [label] := by
  obtain ⟨i, n⟩ := t
  rw [introduced, fold_mk]
  cases n <;> simp_all [Node.map, Node.label?, Tree.node]

theorem qualifiers_eq (t : Tree) : t.qualifiers =
    t.node.ownQualifiers ++ if t.node.isQuery then [] else t.children.flatMap qualifiers := by
  obtain ⟨i, n⟩ := t
  have query (f : Tree → Tree × List (Option String)) : (n.map f).isQuery = n.isQuery := by
    cases n <;> rfl
  have own (f : Tree → Tree × List (Option String)) : (n.map f).ownQualifiers = n.ownQualifiers := by
    cases n <;> rfl
  rw [qualifiers, fold_mk, Node.children_map, List.flatMap_map, query, own]
  rfl

/-- An expression that is scoped, has no row source and reads the aliases. -/
structure IsOver (labels : List String) (t : Tree) : Prop where
  inScope : t.Everywhere Node.IsScoped
  sourceless : t.sourceLabels = []
  reads : t.ReadsFrom labels

namespace IsOver

theorem mono (h : t.IsOver labels) (hl : labels ⊆ labels') : t.IsOver labels' where
  inScope := h.inScope
  sourceless := h.sourceless
  reads q hq := by
    obtain ⟨l, hm, rfl⟩ := h.reads q hq
    exact ⟨l, hl hm, rfl⟩

/-- A column is over the alias that qualifies it. -/
theorem column {label name : String} (h : t.node = .column (some label) name) :
    t.IsOver [label] := by
  have children : t.children = [] := by rw [Tree.children, h]; rfl
  refine ⟨.mk (by rw [h]; trivial) (by simp [children]), ?_, fun q hq ↦ ?_⟩
  · rw [sourceLabels_eq, children, h]
    rfl
  · rw [qualifiers_eq, children, h] at hq
    simpa [Node.ownQualifiers, Node.isQuery] using hq

/-- A node that neither is a column or a row source nor takes other ones into its scope is over
what its children are over. -/
theorem ofChildren (inScope : t.node.IsScoped) (label : t.node.label? = none)
    (own : t.node.ownQualifiers = []) (hc : ∀ c ∈ t.children, c.IsOver labels) :
    t.IsOver labels where
  inScope := .mk inScope fun c hm ↦ (hc c hm).inScope
  sourceless := by
    rw [sourceLabels_eq, label, Option.toList_none, List.nil_append, List.flatMap_eq_nil_iff]
    exact fun c hm ↦ (hc c hm).sourceless
  reads q hq := by
    rw [qualifiers_eq, own, List.nil_append] at hq
    split at hq
    · cases hq
    · obtain ⟨c, hm, hq⟩ := List.mem_flatMap.1 hq
      exact (hc c hm).reads q hq

/-- Expressions over the aliases are closed under computations. -/
theorem computation (labels : List String) : IsCompositional (IsOver labels) := by
  intro t ht hc
  refine ofChildren ?_ ?_ ?_ hc <;>
  · cases hn : t.node <;> simp_all [Node.isComputation, Node.IsScoped, Node.label?,
      Node.ownQualifiers]

end IsOver

end Tree

end SqlWright
