import SqlWright.Relation.Compile

/-!
# Well-formed relations

A relation is well formed if it uses only columns that its sources have. This and
the number of its columns can be read off the relation, before any server is known.
-/

namespace SqlWright

namespace Scalar

mutual

/-- The expression uses only columns below a number, and every list test tests something. -/
def Fits (width : Nat) : Scalar → Prop
  | .column i | .typeIs i _ => i < width
  | .constant _ | .null | .parameter _ | .placeholder _ => True
  | .binary _ left right => left.Fits width ∧ right.Fits width
  | .unary _ operand => operand.Fits width
  | .function _ args => AllFit width args
  | .inList _ exprs => exprs ≠ [] ∧ AllFit width exprs

/-- Each of the expressions fits. -/
def AllFit (width : Nat) : List Scalar → Prop
  | [] => True
  | e :: rest => e.Fits width ∧ AllFit width rest

end

end Scalar

/-- Computed columns use columns of the source and those computed before. -/
def Calculation.AllFit : Nat → List Calculation → Prop
  | _, [] => True
  | width, c :: rest => c.expr.Fits width ∧ AllFit (width + 1) rest

/-- The aggregate is of a column below a number; all but counting need one. -/
def Aggregation.Fits (width : Nat) (a : Aggregation) : Prop :=
  (∀ i ∈ a.column, i < width) ∧ (a.kind = .count ∨ a.column.isSome)

namespace Relation

/-- Number of columns. -/
def width : Relation → Nat
  | table t => t.columns.length
  | native _ header => header.size
  | project _ columns => columns.length
  | extend r columns => r.width + columns.length
  | join a b _ _ => a.width + b.width
  | aggregate _ groupBy aggregates => groupBy.length + aggregates.length
  | filter r _ | sort r _ | distinct r | take r _ | skip r _ | page r _ _ | lock r _ => r.width

/-- Every position names a column of the source, and counts use none. -/
def WellFormed : Relation → Prop
  | table _ | native _ _ => True
  | filter r e => r.WellFormed ∧ e.Fits r.width
  | project r columns => r.WellFormed ∧ ∀ i ∈ columns, i < r.width
  | extend r columns => r.WellFormed ∧ Calculation.AllFit r.width columns
  | join a b _ pairs =>
    (a.WellFormed ∧ b.WellFormed) ∧ ∀ p ∈ pairs, p.1 < a.width ∧ p.2 < b.width
  | aggregate r groupBy aggregates =>
    r.WellFormed ∧ (∀ i ∈ groupBy, i < r.width) ∧ ∀ a ∈ aggregates, a.Fits r.width
  | sort r order => r.WellFormed ∧ ∀ item ∈ order, item.column < r.width
  | distinct r | lock r _ => r.WellFormed
  | take r count | skip r count => r.WellFormed ∧ count.Fits 0
  | page r leaving taking => r.WellFormed ∧ leaving.Fits 0 ∧ taking.Fits 0

/-- Some strategy pages: natively, if the server has the clauses, or by row numbers, if it
has those. -/
def PageTaken (server : Server) (strategies : List Strategy) (hasClauses : Bool) : Prop :=
  (.native ∈ strategies ∧ hasClauses) ∨ (.numberedPages ∈ strategies ∧ server.rowNumber)

/-- Every operation is taken by one of the strategies. -/
def Taken (server : Server) (strategies : List Strategy) : Relation → Prop
  | table _ | native _ _ => .native ∈ strategies
  | filter r _ | project r _ | extend r _ | aggregate r _ _ | sort r _ | distinct r | lock r _ =>
    .native ∈ strategies ∧ r.Taken server strategies
  | join a b _ _ =>
    .native ∈ strategies ∧ a.Taken server strategies ∧ b.Taken server strategies
  | take r _ => PageTaken server strategies server.limit ∧ r.Taken server strategies
  | skip r _ => PageTaken server strategies server.offset ∧ r.Taken server strategies
  | page r _ _ =>
    PageTaken server strategies (server.limit && server.offset) ∧ r.Taken server strategies

/-- Relations that a relation is made of, itself included. -/
def parts : Relation → List Relation
  | r@(table _) | r@(native _ _) => [r]
  | r@(filter s _) | r@(project s _) | r@(extend s _) | r@(aggregate s _ _) | r@(sort s _)
  | r@(distinct s) | r@(take s _) | r@(skip s _) | r@(page s _ _) | r@(lock s _) => r :: s.parts
  | r@(join a b _ _) => r :: (a.parts ++ b.parts)

/-- Relations that the operation reads. -/
def sources : Relation → List Relation
  | table _ | native _ _ => []
  | filter r _ | project r _ | extend r _ | aggregate r _ _ | sort r _ | distinct r | take r _
  | skip r _ | page r _ _ | lock r _ => [r]
  | join a b _ _ => [a, b]

variable {server : Server} {strategies : List Strategy} {r p : Relation}

theorem mem_parts_self (r : Relation) : r ∈ r.parts := by
  cases r <;> simp [parts]

theorem mem_parts_trans {q : Relation} (hp : p ∈ q.parts) (hq : q ∈ r.parts) :
    p ∈ r.parts := by
  induction r with
  | table _ | native _ _ =>
    rw [parts, List.mem_singleton] at hq
    exact hq ▸ hp
  | join a b _ _ iha ihb =>
    rw [parts, List.mem_cons, List.mem_append] at hq
    rcases hq with rfl | hq | hq
    · exact hp
    · exact List.mem_cons_of_mem _ (List.mem_append_left _ (iha hq))
    · exact List.mem_cons_of_mem _ (List.mem_append_right _ (ihb hq))
  | filter _ _ ih | project _ _ ih | extend _ _ ih | aggregate _ _ _ ih | sort _ _ ih
  | take _ _ ih | skip _ _ ih | page _ _ _ ih | distinct _ ih | lock _ _ ih =>
    rw [parts, List.mem_cons] at hq
    rcases hq with rfl | hq
    · exact hp
    · exact List.mem_cons_of_mem _ (ih hq)

/-- What passes from every operation to the relations that it reads passes to all parts. -/
theorem passes_to_parts {P : Relation → Prop} (passes : ∀ r, P r → ∀ s ∈ r.sources, P s) (h : P r)
    (hp : p ∈ r.parts) : P p := by
  induction r with
  | table _ | native _ _ =>
    rw [parts, List.mem_singleton] at hp
    exact hp ▸ h
  | join a b _ _ iha ihb =>
    rw [parts, List.mem_cons, List.mem_append] at hp
    rcases hp with rfl | hp | hp
    · exact h
    · exact iha (passes _ h a (.head _)) hp
    · exact ihb (passes _ h b (.tail _ (.head _))) hp
  | filter _ _ ih | project _ _ ih | extend _ _ ih | aggregate _ _ _ ih | sort _ _ ih
  | take _ _ ih | skip _ _ ih | page _ _ _ ih | distinct _ ih | lock _ _ ih =>
    rw [parts, List.mem_cons] at hp
    rcases hp with rfl | hp
    · exact h
    · exact ih (passes _ h _ (.head _)) hp

/-- Parts of a well-formed relation are well formed. -/
theorem WellFormed.of_mem_parts (h : r.WellFormed) (hp : p ∈ r.parts) : p.WellFormed := by
  refine passes_to_parts (fun r h ↦ ?_) h hp
  cases r with
  | table _ | native _ _ => exact List.forall_mem_nil _
  | join _ _ _ _ => simpa [sources] using h.1
  | filter _ _ | project _ _ | extend _ _ | aggregate _ _ _ | sort _ _ | take _ _ | skip _ _
  | page _ _ _ => exact List.forall_mem_singleton.2 h.1
  | distinct _ | lock _ _ => exact List.forall_mem_singleton.2 h

/-- Strategies that take every operation of a relation take those of its parts. -/
theorem Taken.of_mem_parts (h : r.Taken server strategies) (hp : p ∈ r.parts) :
    p.Taken server strategies := by
  refine passes_to_parts (P := Taken server strategies) (fun r h ↦ ?_) h hp
  cases r with
  | table _ | native _ _ => exact List.forall_mem_nil _
  | join _ _ _ _ => simpa [sources] using h.2
  | filter _ _ | project _ _ | extend _ _ | aggregate _ _ _ | sort _ _ | take _ _ | skip _ _
  | page _ _ _ | distinct _ | lock _ _ => exact List.forall_mem_singleton.2 h.2

end Relation

end SqlWright
