import SqlWright.Dom.Node

/-!
# Statement trees

A tree is a node whose links are trees. Each node carries an identity: an
expression that stands at several places of a statement is one node, and the
identity tells it from another node of the same content. `fold` computes a value
from the bottom up, `fold_mk` is its equation, and `induction_children` is
induction over the links.
-/

namespace SqlWright

/-- Statement, or part of one, as a tree. -/
inductive Tree where
  | mk (id : Nat) (node : Node Tree)

namespace Tree

/-- Identity of the root. -/
def id : Tree → Nat
  | mk i _ => i

/-- Content of the root. -/
def node : Tree → Node Tree
  | mk _ n => n

/-- Kind of the root. -/
def kind (t : Tree) : Kind := t.node.kind

/-- The one null node, whose identity is zero. -/
def null : Tree := mk 0 .null

/-- Trees below the root. -/
def children (t : Tree) : List Tree := t.node.children

/-- Operator of a binary expression. -/
def binaryOp? (t : Tree) : Option BinaryOp :=
  match t.node with
  | .binary op _ _ => some op
  | _ => none

/-- Select at the root. -/
def select? (t : Tree) : Option (Select Tree) :=
  match t.node with
  | .select s => some s
  | _ => none

variable {β : Type}

mutual

/-- Value of a tree from its root and the values of the trees below, which stand beside them. -/
def fold (step : Node (Tree × β) → β) : Tree → β
  | mk _ n => step (foldNode step n)

/-- Links of a node beside their values. -/
def foldNode (step : Node (Tree × β) → β) : Node Tree → Node (Tree × β)
  | .null => .null
  | .literal value => .literal value
  | .column qualifier name => .column qualifier name
  | .variable name => .variable name
  | .parameter p => .parameter p
  | .placeholder i => .placeholder i
  | .binary op left right => .binary op (left, fold step left) (right, fold step right)
  | .unary op operand => .unary op (operand, fold step operand)
  | .function g args => .function g (foldList step args)
  | .aggregate kind distinct operand => .aggregate kind distinct (foldOption step operand)
  | .cast operand type => .cast (operand, fold step operand) type
  | .case branches otherwise => .case (foldBranches step branches) (foldOption step otherwise)
  | .row items => .row (foldList step items)
  | .dynamicFilter i first others =>
    .dynamicFilter i (first, fold step first) (foldList step others)
  | .subquery query => .subquery (query, fold step query)
  | .variant key main alternative =>
    .variant key (main, fold step main) (alternative, fold step alternative)
  | .rowNumber orderBy => .rowNumber (foldKeys step orderBy)
  | .native text => .native text
  | .table schema name label => .table schema name label
  | .queryRef query label => .queryRef (query, fold step query) label
  | .join kind left right on =>
    .join kind (left, fold step left) (right, fold step right) (foldOption step on)
  | .select s => .select (foldSelect step s)
  | .insert target columns values =>
    .insert (target, fold step target) columns (foldList step values)
  | .update target assignments filter =>
    .update (target, fold step target) (foldAssignments step assignments)
      (foldOption step filter)
  | .delete target filter => .delete (target, fold step target) (foldOption step filter)
  | .createIndex index => .createIndex index

/-- Links of a select beside their values. -/
def foldSelect (step : Node (Tree × β) → β) : Select Tree → Select (Tree × β)
  | ⟨distinct, columns, source, filter, groupBy, having, orderBy, limit, offset, lock⟩ =>
    ⟨distinct, foldColumns step columns, foldOption step source, foldOption step filter,
      foldList step groupBy, foldOption step having, foldKeys step orderBy,
      foldOption step limit, foldOption step offset, lock⟩

/-- Optional link beside its value. -/
def foldOption (step : Node (Tree × β) → β) : Option Tree → Option (Tree × β)
  | none => none
  | some t => some (t, fold step t)

/-- List of links beside their values. -/
def foldList (step : Node (Tree × β) → β) : List Tree → List (Tree × β)
  | [] => []
  | t :: ts => (t, fold step t) :: foldList step ts

/-- Branches beside their values. -/
def foldBranches (step : Node (Tree × β) → β) :
    List (Tree × Tree) → List ((Tree × β) × (Tree × β))
  | [] => []
  | (a, b) :: ts => ((a, fold step a), (b, fold step b)) :: foldBranches step ts

/-- Assigned expressions beside their values. -/
def foldAssignments (step : Node (Tree × β) → β) :
    List (String × Tree) → List (String × (Tree × β))
  | [] => []
  | (name, t) :: ts => (name, (t, fold step t)) :: foldAssignments step ts

/-- Output columns beside their values. -/
def foldColumns (step : Node (Tree × β) → β) :
    List (OutputColumn Tree) → List (OutputColumn (Tree × β))
  | [] => []
  | ⟨t, label⟩ :: ts => ⟨(t, fold step t), label⟩ :: foldColumns step ts

/-- Sort keys beside their values. -/
def foldKeys (step : Node (Tree × β) → β) : List (SortKey Tree) → List (SortKey (Tree × β))
  | [] => []
  | ⟨t, ascending, nullsFirst⟩ :: ts =>
    ⟨(t, fold step t), ascending, nullsFirst⟩ :: foldKeys step ts

end

section Equations

variable (step : Node (Tree × β) → β)

private theorem foldOption_eq (o : Option Tree) :
    foldOption step o = o.map fun t ↦ (t, fold step t) := by
  cases o <;> simp [foldOption]

private theorem foldList_eq (l : List Tree) :
    foldList step l = l.map fun t ↦ (t, fold step t) := by
  induction l <;> simp_all [foldList]

private theorem foldBranches_eq (l : List (Tree × Tree)) :
    foldBranches step l = l.map fun b ↦ ((b.1, fold step b.1), (b.2, fold step b.2)) := by
  induction l with
  | nil => simp [foldBranches]
  | cons b l ih => obtain ⟨_, _⟩ := b; simp [foldBranches, ih]

private theorem foldAssignments_eq (l : List (String × Tree)) :
    foldAssignments step l = l.map fun a ↦ (a.1, (a.2, fold step a.2)) := by
  induction l with
  | nil => simp [foldAssignments]
  | cons b l ih => obtain ⟨_, _⟩ := b; simp [foldAssignments, ih]

private theorem foldColumns_eq (l : List (OutputColumn Tree)) :
    foldColumns step l = l.map (·.map fun t ↦ (t, fold step t)) := by
  induction l with
  | nil => simp [foldColumns]
  | cons b l ih => obtain ⟨_, _⟩ := b; simp [foldColumns, ih, OutputColumn.map]

private theorem foldKeys_eq (l : List (SortKey Tree)) :
    foldKeys step l = l.map (·.map fun t ↦ (t, fold step t)) := by
  induction l with
  | nil => simp [foldKeys]
  | cons b l ih => obtain ⟨_, _, _⟩ := b; simp [foldKeys, ih, SortKey.map]

private theorem foldNode_eq (n : Node Tree) :
    foldNode step n = n.map fun t ↦ (t, fold step t) := by
  cases n with
  | select s =>
    obtain ⟨_, _, _, _, _, _, _, _, _, _⟩ := s
    simp only [foldNode, foldSelect, Node.map, Select.map, foldColumns_eq, foldOption_eq,
      foldList_eq, foldKeys_eq]
  | _ => simp only [foldNode, Node.map, foldOption_eq, foldList_eq, foldBranches_eq,
      foldAssignments_eq, foldKeys_eq]

/-- The value of a tree comes from its root and from the values of its children. -/
theorem fold_mk (i : Nat) (n : Node Tree) :
    fold step (mk i n) = step (n.map fun t ↦ (t, fold step t)) := by
  simp only [fold, foldNode_eq]

end Equations

private theorem sizeOf_lt_of_mem_children {n : Node Tree} {t : Tree} (h : t ∈ n.children) :
    sizeOf t < sizeOf n := by
  have list {l : List Tree} (hl : t ∈ l) : sizeOf t < sizeOf l := List.sizeOf_lt_of_mem hl
  have option {o : Option Tree} (ho : t ∈ o.toList) : sizeOf t < sizeOf o := by
    cases o <;> simp_all
  have keys {ks : List (SortKey Tree)} (hk : t ∈ ks.map (·.expr)) : sizeOf t < sizeOf ks := by
    obtain ⟨k, mem, rfl⟩ := List.mem_map.1 hk
    have := List.sizeOf_lt_of_mem mem
    obtain ⟨_, _, _⟩ := k
    simp at this ⊢
    omega
  have columns {cs : List (OutputColumn Tree)} (hc : t ∈ cs.map (·.expr)) :
      sizeOf t < sizeOf cs := by
    obtain ⟨c, mem, rfl⟩ := List.mem_map.1 hc
    have := List.sizeOf_lt_of_mem mem
    obtain ⟨_, _⟩ := c
    simp at this ⊢
    omega
  cases n with
  | select s =>
    obtain ⟨_, _, _, _, _, _, _, _, _, _⟩ := s
    simp only [Node.children, Select.children, Select.exprs, List.mem_append] at h
    simp
    rcases h with ((((((h | h) | h) | h) | h) | h) | h) | h <;>
      first
      | have := columns h; omega
      | have := option h; omega
      | have := list h; omega
      | have := keys h; omega
  | case branches otherwise =>
    simp only [Node.children, List.mem_append, List.mem_flatMap] at h
    simp
    rcases h with ⟨b, hb, h⟩ | h
    · have := List.sizeOf_lt_of_mem hb
      obtain ⟨_, _⟩ := b
      simp at this h
      rcases h with rfl | rfl <;> omega
    · have := option h; omega
  | update target assignments filter =>
    simp only [Node.children, List.cons_append, List.mem_cons, List.mem_append,
      List.mem_map] at h
    simp
    rcases h with rfl | ⟨a, ha, rfl⟩ | h
    · omega
    · have := List.sizeOf_lt_of_mem ha
      obtain ⟨_, _⟩ := a
      simp at this ⊢
      omega
    · have := option h; omega
  | rowNumber orderBy => have := keys h; simp; omega
  | aggregate kind distinct operand => have := option h; simp; omega
  | function f args =>
    have : sizeOf t < sizeOf args := list h
    simp
    omega
  | row items =>
    have : sizeOf t < sizeOf items := list h
    simp
    omega
  | dynamicFilter i first others =>
    simp only [Node.children, List.mem_cons] at h
    simp
    rcases h with rfl | h
    · omega
    · have := list h; omega
  | insert target names values =>
    simp only [Node.children, List.mem_cons] at h
    simp
    rcases h with rfl | h
    · omega
    · have := list h; omega
  | delete target filter =>
    simp only [Node.children, List.mem_cons] at h
    simp
    rcases h with rfl | h
    · omega
    · have := option h; omega
  | join kind left right on =>
    simp only [Node.children, List.mem_cons] at h
    simp
    rcases h with rfl | rfl | h
    · omega
    · omega
    · have := option h; omega
  | binary op left right | variant key left right =>
    simp only [Node.children, List.mem_cons, List.not_mem_nil, or_false] at h
    simp
    rcases h with rfl | rfl <;> omega
  | unary op operand | cast operand type | queryRef operand label =>
    simp only [Node.children, List.mem_cons, List.not_mem_nil, or_false] at h
    subst h
    simp only [Node.unary.sizeOf_spec, Node.cast.sizeOf_spec, Node.queryRef.sizeOf_spec]
    omega
  | subquery operand =>
    simp only [Node.children, List.mem_cons, List.not_mem_nil, or_false] at h
    simp [h]
  | _ => simp [Node.children] at h

/-- A statement about trees holds of all if it passes from the children to the tree. -/
theorem induction_children {P : Tree → Prop}
    (h : ∀ i n, (∀ c ∈ n.children, P c) → P (mk i n)) (t : Tree) : P t := by
  match t with
  | mk i n => exact h i n fun c hc ↦ induction_children h c
termination_by sizeOf t
decreasing_by
  have := sizeOf_lt_of_mem_children hc
  simp
  omega

end Tree

end SqlWright
