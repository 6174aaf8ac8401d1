import SqlWright.Dom.Kind
import SqlWright.Dom.Operator
import SqlWright.Dom.Parameter
import SqlWright.Literal
import SqlWright.Schema.Index

/-!
# Nodes of a statement

`Node α` is what one node holds, with links of type `α` to its children. Trees
take nodes for links, graphs take references. `children` lists the links in the
order in which they are written and `map` replaces them; `children_map` and
`map_congr` say that the two go over the same links.
-/

namespace SqlWright

/-- Key of an ordering; without `nullsFirst` the server places NULL as it likes. -/
structure SortKey (α : Type) where
  expr : α
  ascending : Bool
  nullsFirst : Option Bool

/-- Column that a select puts out, under its own name or an alias. -/
structure OutputColumn (α : Type) where
  expr : α
  label : Option String

/-- Select statement. -/
structure Select (α : Type) where
  distinct : Bool := false
  columns : List (OutputColumn α) := []
  source : Option α := none
  filter : Option α := none
  groupBy : List α := []
  having : Option α := none
  orderBy : List (SortKey α) := []
  limit : Option α := none
  offset : Option α := none
  lock : Option Lock := none

/-- Content of a node. -/
inductive Node (α : Type) where
  | null
  | literal (value : Literal)
  | column (table : Option String) (name : String)
  | variable (name : String)
  | parameter (parameter : Parameter)
  | placeholder (id : Placeholder)
  | binary (op : BinaryOp) (left right : α)
  | unary (op : UnaryOp) (operand : α)
  | function (f : ScalarFunction) (args : List α)
  /-- Without an operand the rows themselves are counted. -/
  | aggregate (kind : AggregateKind) (distinct : Bool) (operand : Option α)
  | cast (operand : α) (type : SqlType)
  | case (branches : List (α × α)) (otherwise : Option α)
  | row (items : List α)
  /-- Test of the expressions, of which there is at least one, against rows that are bound
  when the command is rendered. -/
  | dynamicFilter (id : String) (first : α) (others : List α)
  | subquery (query : α)
  /-- The main branch, or the alternative where the key is selected. -/
  | variant (key : VariantKey) (main alternative : α)
  | rowNumber (orderBy : List (SortKey α))
  | native (text : String)
  | table (schema : Option String) (name : String) (label : Option String)
  | queryRef (query : α) (label : String)
  | join (kind : JoinKind) (left right : α) (on : Option α)
  | select (select : Select α)
  | insert (table : α) (columns : List String) (values : List α)
  | update (table : α) (assignments : List (String × α)) (filter : Option α)
  | delete (table : α) (filter : Option α)
  | createIndex (index : Index)

namespace SortKey

/-- Ascending or descending key that leaves NULL to the server. -/
def of {α : Type} (expr : α) (ascending : Bool) : SortKey α := ⟨expr, ascending, none⟩

/-- Key of the same direction on another expression. -/
def map {α β : Type} (f : α → β) (k : SortKey α) : SortKey β :=
  ⟨f k.expr, k.ascending, k.nullsFirst⟩

/-- Key of the same direction on the expression that an action gives. -/
def mapM {α β : Type} {m : Type → Type} [Monad m] (f : α → m β) (k : SortKey α) :
    m (SortKey β) :=
  return ⟨← f k.expr, k.ascending, k.nullsFirst⟩

end SortKey

namespace OutputColumn

/-- Output column of the same alias with another expression. -/
def map {α β : Type} (f : α → β) (c : OutputColumn α) : OutputColumn β :=
  ⟨f c.expr, c.label⟩

/-- Output column of the same alias with the expression that an action gives. -/
def mapM {α β : Type} {m : Type → Type} [Monad m] (f : α → m β) (c : OutputColumn α) :
    m (OutputColumn β) :=
  return ⟨← f c.expr, c.label⟩

end OutputColumn

namespace Select

variable {α β : Type}

/-- Expressions of the output columns. -/
def exprs (s : Select α) : List α := s.columns.map (·.expr)

/-- Links of a select: columns, source, filter, groups, group filter, ordering, limit, offset. -/
def children (s : Select α) : List α :=
  s.exprs ++ s.source.toList ++ s.filter.toList ++ s.groupBy ++ s.having.toList ++
    s.orderBy.map (·.expr) ++ s.limit.toList ++ s.offset.toList

/-- Select with every link replaced. -/
def map (f : α → β) (s : Select α) : Select β where
  distinct := s.distinct
  columns := s.columns.map (·.map f)
  source := s.source.map f
  filter := s.filter.map f
  groupBy := s.groupBy.map f
  having := s.having.map f
  orderBy := s.orderBy.map (·.map f)
  limit := s.limit.map f
  offset := s.offset.map f
  lock := s.lock

/-- Select with every link replaced by the result of an action, from the first link to the
last. -/
def mapM {m : Type → Type} [Monad m] (f : α → m β) (s : Select α) : m (Select β) := do
  let columns ← s.columns.mapM (·.mapM f)
  let source ← s.source.mapM f
  let filter ← s.filter.mapM f
  let groupBy ← s.groupBy.mapM f
  let having ← s.having.mapM f
  let orderBy ← s.orderBy.mapM (·.mapM f)
  let limit ← s.limit.mapM f
  let offset ← s.offset.mapM f
  return { distinct := s.distinct, columns, source, filter, groupBy, having, orderBy, limit,
           offset, lock := s.lock }

/-- Whether the select gives only a part of its rows. -/
def isPaged (s : Select α) : Bool := s.limit.isSome || s.offset.isSome

/-- Whether the select puts rows together in groups. -/
def isGrouped (s : Select α) : Bool := !s.groupBy.isEmpty || s.having.isSome

end Select

namespace Node

variable {α β γ : Type}

/-- Kind of the node. -/
def kind : Node α → Kind
  | null => .null
  | literal _ => .literal
  | column _ _ => .column
  | .variable _ => .variable
  | parameter _ => .parameter
  | placeholder _ => .placeholder
  | binary _ _ _ => .binary
  | unary _ _ => .unary
  | function _ _ => .function
  | aggregate _ _ _ => .aggregate
  | cast _ _ => .cast
  | case _ _ => .case
  | row _ => .row
  | dynamicFilter _ _ _ => .dynamicFilter
  | subquery _ => .subquery
  | variant _ _ _ => .variant
  | rowNumber _ => .rowNumber
  | native _ => .native
  | table _ _ _ => .table
  | queryRef _ _ => .queryRef
  | join _ _ _ _ => .join
  | select _ => .select
  | insert _ _ _ => .insert
  | update _ _ _ => .update
  | delete _ _ => .delete
  | createIndex _ => .createIndex

/-- Links to the children in the order in which they are written. -/
def children : Node α → List α
  | null | literal _ | column _ _ | .variable _ | parameter _ | placeholder _ | native _
  | table _ _ _ | createIndex _ => []
  | binary _ left right => [left, right]
  | unary _ operand => [operand]
  | function _ args => args
  | aggregate _ _ operand => operand.toList
  | cast operand _ => [operand]
  | case branches otherwise => branches.flatMap (fun b ↦ [b.1, b.2]) ++ otherwise.toList
  | row items => items
  | dynamicFilter _ first others => first :: others
  | subquery query => [query]
  | variant _ main alternative => [main, alternative]
  | rowNumber orderBy => orderBy.map (·.expr)
  | queryRef query _ => [query]
  | join _ left right on => left :: right :: on.toList
  | select s => s.children
  | insert target _ values => target :: values
  | update target assignments filter => target :: assignments.map (·.2) ++ filter.toList
  | delete target filter => target :: filter.toList

/-- Node with every link replaced and all else kept. -/
def map (f : α → β) : Node α → Node β
  | null => null
  | literal value => literal value
  | column qualifier name => column qualifier name
  | .variable name => .variable name
  | parameter p => parameter p
  | placeholder id => placeholder id
  | binary op left right => binary op (f left) (f right)
  | unary op operand => unary op (f operand)
  | function g args => function g (args.map f)
  | aggregate kind distinct operand => aggregate kind distinct (operand.map f)
  | cast operand type => cast (f operand) type
  | case branches otherwise =>
    case (branches.map fun b ↦ (f b.1, f b.2)) (otherwise.map f)
  | row items => row (items.map f)
  | dynamicFilter id first others => dynamicFilter id (f first) (others.map f)
  | subquery query => subquery (f query)
  | variant key main alternative => variant key (f main) (f alternative)
  | rowNumber orderBy => rowNumber (orderBy.map (·.map f))
  | native text => native text
  | table schema name label => table schema name label
  | queryRef query label => queryRef (f query) label
  | join kind left right on => join kind (f left) (f right) (on.map f)
  | select s => select (s.map f)
  | insert target columns values => insert (f target) columns (values.map f)
  | update target assignments filter =>
    update (f target) (assignments.map fun a ↦ (a.1, f a.2)) (filter.map f)
  | delete target filter => delete (f target) (filter.map f)
  | createIndex index => createIndex index

/-- Node with every link replaced by the result of an action, from the first link to the last. -/
def mapM {m : Type → Type} [Monad m] (f : α → m β) : Node α → m (Node β)
  | null => return null
  | literal value => return literal value
  | column qualifier name => return column qualifier name
  | .variable name => return .variable name
  | parameter p => return parameter p
  | placeholder id => return placeholder id
  | binary op left right => return binary op (← f left) (← f right)
  | unary op operand => return unary op (← f operand)
  | function g args => return function g (← args.mapM f)
  | aggregate kind distinct operand => return aggregate kind distinct (← operand.mapM f)
  | cast operand type => return cast (← f operand) type
  | case branches otherwise =>
    return case (← branches.mapM fun b ↦ return (← f b.1, ← f b.2)) (← otherwise.mapM f)
  | row items => return row (← items.mapM f)
  | dynamicFilter id first others => return dynamicFilter id (← f first) (← others.mapM f)
  | subquery query => return subquery (← f query)
  | variant key main alternative => return variant key (← f main) (← f alternative)
  | rowNumber orderBy => return rowNumber (← orderBy.mapM (·.mapM f))
  | native text => return native text
  | table schema name label => return table schema name label
  | queryRef query label => return queryRef (← f query) label
  | join kind left right on => return join kind (← f left) (← f right) (← on.mapM f)
  | select s => return select (← s.mapM f)
  | insert target columns values => return insert (← f target) columns (← values.mapM f)
  | update target assignments filter =>
    return update (← f target) (← assignments.mapM fun a ↦ return (a.1, ← f a.2))
      (← filter.mapM f)
  | delete target filter => return delete (← f target) (← filter.mapM f)
  | createIndex index => return createIndex index

/-- Whether the node is the null node. -/
def isNull : Node α → Bool
  | null => true
  | _ => false

/-- Replacing links keeps the kind. -/
@[simp]
theorem kind_map (f : α → β) (n : Node α) : (n.map f).kind = n.kind := by
  cases n <;> rfl

private theorem toList_map (f : α → β) (o : Option α) : (o.map f).toList = o.toList.map f := by
  cases o <;> rfl

private theorem expr_map_keys (f : α → β) (ks : List (SortKey α)) :
    (ks.map (·.map f)).map (·.expr) = (ks.map (·.expr)).map f := by
  simp [SortKey.map]

private theorem expr_map_columns (f : α → β) (cs : List (OutputColumn α)) :
    (cs.map (·.map f)).map (·.expr) = (cs.map (·.expr)).map f := by
  simp [OutputColumn.map]

/-- A case links to the condition and the value of each of its branches. -/
theorem mem_children_of_branch {branches : List (α × α)} {otherwise : Option α} {b : α × α}
    (hb : b ∈ branches) :
    b.1 ∈ (case branches otherwise).children ∧ b.2 ∈ (case branches otherwise).children := by
  have mem (a : α) (ha : a ∈ [b.1, b.2]) : a ∈ (case branches otherwise).children :=
    List.mem_append_left _ (List.mem_flatMap.2 ⟨b, hb, ha⟩)
  exact ⟨mem b.1 (.head _), mem b.2 (.tail _ (.head _))⟩

/-- The links of a node whose links were replaced are the replaced links, in the same order. -/
@[simp]
theorem children_map (f : α → β) (n : Node α) : (n.map f).children = n.children.map f := by
  cases n with
  | case branches otherwise =>
    simp only [map, children, List.map_append, toList_map, List.map_flatMap]
    congr 1
    induction branches <;> simp_all
  | select s =>
    simp only [map, children, Select.children, Select.exprs, Select.map, List.map_append,
      toList_map, expr_map_keys, expr_map_columns]
  | rowNumber orderBy => simp only [map, children, expr_map_keys]
  | update table assignments filter => simp [map, children, toList_map]
  | _ => simp [map, children, toList_map]

private theorem map_congr_option {f g : α → β} {o : Option α} (h : ∀ c ∈ o.toList, f c = g c) :
    o.map f = o.map g := by
  cases o <;> simp_all

private theorem map_congr_list {f g : α → β} {l : List α} (h : ∀ c ∈ l, f c = g c) :
    l.map f = l.map g := List.map_congr_left h

private theorem map_congr_keys {f g : α → β} {l : List (SortKey α)}
    (h : ∀ c ∈ l.map (·.expr), f c = g c) : l.map (·.map f) = l.map (·.map g) :=
  List.map_congr_left fun k hk ↦ by
    simp only [SortKey.map, h k.expr (List.mem_map_of_mem hk)]

private theorem map_congr_columns {f g : α → β} {l : List (OutputColumn α)}
    (h : ∀ c ∈ l.map (·.expr), f c = g c) : l.map (·.map f) = l.map (·.map g) :=
  List.map_congr_left fun c hc ↦ by
    simp only [OutputColumn.map, h c.expr (List.mem_map_of_mem hc)]

/-- Two replacements that agree on the links of a node give the same node. -/
theorem map_congr {f g : α → β} {n : Node α} (h : ∀ c ∈ n.children, f c = g c) :
    n.map f = n.map g := by
  cases n with
  | select s =>
    simp only [children, Select.children, Select.exprs, List.mem_append] at h
    simp only [map, Select.map]
    rw [map_congr_columns (l := s.columns) fun c hc ↦ h c (by simp [hc]),
      map_congr_option (o := s.source) fun c hc ↦ h c (by simp [hc]),
      map_congr_option (o := s.filter) fun c hc ↦ h c (by simp [hc]),
      map_congr_list (l := s.groupBy) fun c hc ↦ h c (by simp [hc]),
      map_congr_option (o := s.having) fun c hc ↦ h c (by simp [hc]),
      map_congr_keys (l := s.orderBy) fun c hc ↦ h c (by simp [hc]),
      map_congr_option (o := s.limit) fun c hc ↦ h c (by simp [hc]),
      map_congr_option (o := s.offset) fun c hc ↦ h c (by simp [hc])]
  | rowNumber orderBy => simpa only [map, rowNumber.injEq] using map_congr_keys h
  | case branches otherwise =>
    simp only [children, List.mem_append, List.mem_flatMap] at h
    simp only [map, case.injEq]
    refine ⟨List.map_congr_left fun b hb ↦ ?_, map_congr_option fun c hc ↦ h c (.inr hc)⟩
    rw [h b.1 (.inl ⟨b, hb, by simp⟩), h b.2 (.inl ⟨b, hb, by simp⟩)]
  | update table assignments filter =>
    simp only [children, List.cons_append, List.mem_cons, List.mem_append, List.mem_map] at h
    simp only [map, update.injEq]
    refine ⟨h _ (.inl rfl), List.map_congr_left fun a ha ↦ ?_,
      map_congr_option fun c hc ↦ h c (.inr (.inr hc))⟩
    rw [h a.2 (.inr (.inl ⟨a, ha, rfl⟩))]
  | aggregate kind distinct operand =>
    simp only [map, aggregate.injEq, true_and]
    exact map_congr_option h
  | join kind left right on =>
    simp only [children, List.mem_cons] at h
    simp only [map, join.injEq, true_and]
    exact ⟨h _ (.inl rfl), h _ (.inr (.inl rfl)), map_congr_option fun c hc ↦ h c (.inr (.inr hc))⟩
  | delete table filter =>
    simp only [children, List.mem_cons] at h
    simp only [map, delete.injEq]
    exact ⟨h _ (.inl rfl), map_congr_option fun c hc ↦ h c (.inr hc)⟩
  | _ => simp_all [map, children]

/-- Links left as they are leave the node as it is. -/
@[simp]
theorem map_id (n : Node α) : n.map id = n := by
  have hk : (fun k : SortKey α ↦ k.map id) = id := funext fun _ ↦ rfl
  have hc : (fun c : OutputColumn α ↦ c.map id) = id := funext fun _ ↦ rfl
  have hp : (fun b : α × α ↦ (id b.1, id b.2)) = id := funext fun _ ↦ rfl
  have ha : (fun b : String × α ↦ (b.1, id b.2)) = id := funext fun _ ↦ rfl
  cases n <;> simp [map, Select.map, hk, hc]

/-- Two replacements one after the other are one replacement. -/
theorem map_map (f : α → β) (g : β → γ) (n : Node α) : (n.map f).map g = n.map (g ∘ f) := by
  have hk : (fun k : SortKey β ↦ k.map g) ∘ (fun k : SortKey α ↦ k.map f) =
      fun k ↦ k.map (g ∘ f) := funext fun _ ↦ rfl
  have hc : (fun k : OutputColumn β ↦ k.map g) ∘ (fun k : OutputColumn α ↦ k.map f) =
      fun k ↦ k.map (g ∘ f) := funext fun _ ↦ rfl
  cases n <;> simp [map, Select.map, hk, hc, Function.comp_def]

end Node

end SqlWright
