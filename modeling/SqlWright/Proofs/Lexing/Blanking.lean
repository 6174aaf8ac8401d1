import SqlWright.Proofs.Command.Rewriting

/-!
# Statements with their names left blank

Two statements are of the same shape, and differ only in names and in the values of strings, if
they are the same once these are blank. Leaving them blank changes neither what puts an operand in
parentheses nor what lets the rows of a select be locked.
-/

namespace SqlWright

variable {α : Type}

/-- Constant whose text is blank if it is a string. -/
def Literal.blanked : Literal → Literal
  | .string _ => .string ""
  | value => value

/-- Index with blank names. -/
def Index.blanked (index : Index) : Index where
  name := ""
  tableSchema := index.tableSchema.map fun _ ↦ ""
  tableName := ""
  columns := index.columns.map fun c ↦ ⟨"", c.ascending⟩
  unique := index.unique
  fillFactor := index.fillFactor

/-- Select with blank aliases of its columns. -/
def Select.blanked (s : Select α) : Select α :=
  { s with columns := s.columns.map fun c ↦ ⟨c.expr, c.label.map fun _ ↦ ""⟩ }

/-- Node with blank names and strings. -/
def Node.blanked : Node α → Node α
  | .literal value => .literal value.blanked
  | .column qualifier _ => .column (qualifier.map fun _ ↦ "") ""
  | .table schema _ label => .table (schema.map fun _ ↦ "") "" (label.map fun _ ↦ "")
  | .queryRef query _ => .queryRef query ""
  | .select s => .select s.blanked
  | .insert target columns values => .insert target (columns.map fun _ ↦ "") values
  | .update target assignments filter =>
    .update target (assignments.map fun a ↦ ("", a.2)) filter
  | .createIndex index => .createIndex index.blanked
  | n => n

theorem Node.blanked_map {β : Type} (f : α → β) (n : Node α) :
    (n.map f).blanked = n.blanked.map f := by
  cases n <;> simp [map, blanked, Select.map, Select.blanked, OutputColumn.map, Function.comp_def]

namespace Tree

/-- Statement with blank names and strings. -/
def blanked : Tree → Tree := rewritten fun n ↦ mk 0 n.blanked

theorem blanked_mk (i : Nat) (n : Node Tree) :
    (mk i n).blanked = mk 0 (n.blanked.map blanked) := by
  rw [blanked, rewritten_mk, Node.blanked_map]

theorem binaryOp?_blanked (t : Tree) : t.blanked.binaryOp? = t.binaryOp? := by
  obtain ⟨i, n⟩ := t
  rw [blanked_mk]
  cases n <;> rfl

theorem isSome_select?_blanked (t : Tree) : t.blanked.select?.isSome = t.select?.isSome := by
  obtain ⟨i, n⟩ := t
  rw [blanked_mk]
  cases n <;> rfl

theorem computesRows_blanked (t : Tree) : t.blanked.computesRows = t.computesRows := by
  induction t using induction_children with
  | h i n ih =>
    have below : n.blanked.children = n.children := by
      cases n <;> simp [Node.blanked, Node.children, Select.blanked, Select.children, Select.exprs,
        Function.comp_def]
    have kind : n.blanked.kind = n.kind := by
      cases n <;> rfl
    have any : (n.blanked.map blanked).children.any computesRows = n.children.any computesRows := by
      rw [Node.children_map, below, List.any_map, Bool.eq_iff_iff, List.any_eq_true,
        List.any_eq_true]
      apply exists_congr
      intro c
      apply and_congr_right
      intro hc
      rw [← ih c hc]
      rfl
    rw [blanked_mk, computesRows_mk, computesRows_mk, any, Node.kind_map, kind]

theorem lockable_blanked (t : Tree) : t.blanked.lockable = t.lockable := by
  induction t using induction_children with
  | h i n ih =>
    have derived (c : Tree) (hc : c ∈ n.children) :
        derivedLockable (c.blanked, c.blanked.lockable) = derivedLockable (c, c.lockable) := by
      simp only [derivedLockable, ← Option.not_isSome, isSome_select?_blanked, ih c hc]
    have source (c : Tree) (hc : c ∈ n.children) :
        sourceLockable (c.blanked, c.blanked.lockable) = sourceLockable (c, c.lockable) := by
      simp only [sourceLockable, isSome_select?_blanked, ih c hc]
    rw [blanked_mk, lockable_mk, lockable_mk]
    cases n with
    | queryRef query label => exact derived query (by simp [Node.children])
    | join kind left right on =>
      change (_ && _) = (_ && _)
      rw [source left (by simp [Node.children]), source right (by simp [Node.children])]
    | select s =>
      have sources : (s.source.map fun c ↦ (c.blanked, c.blanked.lockable)).all sourceLockable =
          (s.source.map fun t ↦ (t, lockable t)).all sourceLockable := by
        cases hs : s.source with
        | none => rfl
        | some c => exact source c (by simp [Node.children, Select.children, hs])
      simp [selectLockable, Node.blanked, Node.map, Select.blanked, Select.map, Select.isGrouped,
        OutputColumn.map, sources, computesRows_blanked, Function.comp_def]
    | _ => rfl

end Tree

end SqlWright
