import SqlWright.Proofs.Drafting.Runs

/-!
# Drafts that grow

A run only adds to a draft: nodes come after those there are, and aliases are only given.
`Draft.Grows` says so, and every drafting of a select is `Growing`, so aliases that are given
one after the other differ.
-/

namespace SqlWright

variable {α β : Type} {d d' : Draft}

open Drafting

namespace Draft

/-- A draft grows: nodes are added after those there are, and aliases are only given. -/
structure Grows (d d' : Draft) : Prop where
  aliases : d.aliases ≤ d'.aliases
  nodes : d.graph.nodes.toList <+: d'.graph.nodes.toList

namespace Grows

@[refl]
theorem refl (d : Draft) : d.Grows d := ⟨Nat.le_refl _, List.prefix_refl _⟩

theorem trans {d₁ d₂ d₃ : Draft} (h : d₁.Grows d₂) (h' : d₂.Grows d₃) : d₁.Grows d₃ :=
  ⟨Nat.le_trans h.aliases h'.aliases, h.nodes.trans h'.nodes⟩

/-- A node stays where it is when a draft grows. -/
theorem getElem? {r : Ref} {n : Node Ref} (h : d.Grows d') (hr : d.graph.nodes[r]? = some n) :
    d'.graph.nodes[r]? = some n := by
  rw [← Array.getElem?_toList] at hr ⊢
  obtain ⟨added, h⟩ := h.nodes
  rw [← h, List.getElem?_append_left (List.getElem?_eq_some_iff.1 hr).1, hr]

theorem withNode (d : Draft) (n : Node Tree) : d.Grows (d.withNode n) := by
  refine ⟨Nat.le_refl _, ?_⟩
  simp only [Draft.withNode, Graph.add]
  split
  · exact List.prefix_refl _
  · simp

theorem nextAlias (d : Draft) : d.Grows { d with aliases := d.aliases + 1 } :=
  ⟨Nat.le_succ _, List.prefix_refl _⟩

end Grows

end Draft

/-- Drafting that only adds to the draft. -/
structure Drafting.Growing (m : Drafting α) : Prop where
  grows {d : Draft} {a : α} {d' : Draft} : m d = .ok (a, d') → d.Grows d'

namespace Drafting.Growing

theorem pure (a : α) : Growing (pure a : Drafting α) := by
  refine ⟨fun {d _ _} h ↦ ?_⟩
  obtain ⟨-, rfl⟩ := pure_ok.1 h
  exact .refl d

theorem lift (x : Except Error α) : Growing (liftM x : Drafting α) := by
  refine ⟨fun {d _ _} h ↦ ?_⟩
  obtain ⟨-, rfl⟩ := lift_ok.1 h
  exact .refl d

theorem throw (e : Error) : Growing (throw e : Drafting α) := ⟨fun h ↦ (throw_ok h).elim⟩

theorem bind {m : Drafting α} {f : α → Drafting β} (hm : Growing m) (hf : ∀ a, Growing (f a)) :
    Growing (m >>= f) := by
  refine ⟨fun h ↦ ?_⟩
  obtain ⟨a, d₁, h₁, h₂⟩ := bind_ok.1 h
  exact (hm.grows h₁).trans ((hf a).grows h₂)

theorem map {m : Drafting α} (f : α → β) (hm : Growing m) : Growing (f <$> m) := by
  refine ⟨fun h ↦ ?_⟩
  obtain ⟨a, h, -⟩ := map_ok.1 h
  exact hm.grows h

theorem node (n : Node Tree) : Growing (Draft.node n) := by
  refine ⟨fun {d _ _} h ↦ ?_⟩
  obtain ⟨-, rfl⟩ := Draft.node_ok.1 h
  exact .withNode d n

theorem nextAlias : Growing Draft.nextAlias := by
  refine ⟨fun {d _ _} h ↦ ?_⟩
  obtain ⟨-, rfl⟩ := Draft.nextAlias_ok.1 h
  exact .nextAlias d

theorem ite {p : Prop} [Decidable p] {m m' : Drafting α} (hm : Growing m) (hm' : Growing m') :
    Growing (if p then m else m') := by
  split
  · exact hm
  · exact hm'

theorem mapM_list {f : α → Drafting β} (hf : ∀ a, Growing (f a)) :
    ∀ l : List α, Growing (l.mapM f)
  | [] => by rw [List.mapM_nil]; exact pure []
  | a :: l => by
    rw [List.mapM_cons]
    exact (hf a).bind fun b ↦ (mapM_list hf l).bind fun bs ↦ pure (b :: bs)

theorem mapM_option {f : α → Drafting β} (hf : ∀ a, Growing (f a)) (o : Option α) :
    Growing (o.mapM f) := by
  refine ⟨fun {d _ _} h ↦ ?_⟩
  obtain ⟨-, -, rfl⟩ | ⟨a, b, -, -, h⟩ := mapM_option_ok.1 h
  · exact .refl d
  · exact (hf a).grows h

end Drafting.Growing

namespace Draft

theorem growing_conjunction (existing : Option Tree) (condition : Tree) :
    Growing (conjunction existing condition) := by
  unfold conjunction
  split
  · exact .node _
  · exact .pure _

theorem growing_nullAware (op : BinaryOp) (value parameterNode : Tree) (p : Parameter) :
    Growing (nullAware op value parameterNode p) :=
  .bind (.node _) fun _ ↦ .bind (.node _) fun _ ↦ .node _

theorem growing_binary (op : BinaryOp) (left right : Scalar) (l r : Tree) :
    Growing (binary op left right l r) := by
  unfold binary
  split
  · split
    · exact growing_nullAware op l r _
    · exact growing_nullAware op r l _
    · exact .node _
  · exact .node _

mutual

theorem growing_scalar (columns : List Tree) : (e : Scalar) → Growing (scalar columns e)
  | .column _ => .lift _
  | .constant _ | .parameter _ | .placeholder _ => .node _
  | .null => .pure _
  | .typeIs _ _ => .bind (.lift _) fun _ ↦ .bind (.node _) fun _ ↦ .node _
  | .binary _ left right =>
    (growing_scalar columns left).bind fun _ ↦
      (growing_scalar columns right).bind fun _ ↦ growing_binary _ _ _ _ _
  | .unary _ operand => (growing_scalar columns operand).bind fun _ ↦ .node _
  | .function _ args => (growing_scalars columns args).bind fun _ ↦ .node _
  | .inList _ exprs =>
    (growing_scalars columns exprs).bind fun ts ↦ by
      cases ts with
      | nil => exact .throw _
      | cons first others => exact .node _

theorem growing_scalars (columns : List Tree) :
    (es : List Scalar) → Growing (scalars columns es)
  | [] => .pure _
  | e :: rest =>
    (growing_scalar columns e).bind fun _ ↦ (growing_scalars columns rest).bind fun _ ↦ .pure _

end

end Draft

namespace Compiled

open Draft

theorem growing_selectAll (source : Tree) (label : String) (header : Header) :
    Growing (selectAll source label header) :=
  .bind (.mapM_list (fun _ ↦ .bind (.node _) fun _ ↦ .pure _) _) fun _ ↦ .pure _

theorem growing_ofTable (t : Table) : Growing (ofTable t) :=
  .bind .nextAlias fun _ ↦ .bind (.node _) fun _ ↦ (growing_selectAll _ _ _).bind fun _ ↦ .pure _

theorem growing_ofNative (sql : String) (header : Header) : Growing (ofNative sql header) :=
  .bind .nextAlias fun _ ↦ .bind (.node _) fun _ ↦ .bind (.node _) fun _ ↦
    (growing_selectAll _ _ _).bind fun _ ↦ .pure _

theorem growing_wrap (c : Compiled) : Growing c.wrap :=
  .bind .nextAlias fun _ ↦ .bind (.node _) fun _ ↦ .bind (.node _) fun _ ↦
    (growing_selectAll _ _ _).bind fun _ ↦ .pure _

theorem growing_wrapFor (op : Operation) (c : Compiled) : Growing (wrapFor op c) :=
  .ite (growing_wrap c) (.pure c)

theorem growing_filter (c : Compiled) (e : Scalar) : Growing (c.filter e) :=
  (growing_scalar _ e).bind fun _ ↦ (growing_conjunction _ _).bind fun _ ↦ .pure _

theorem growing_extend : (c : Compiled) → (l : List Calculation) → Growing (c.extend l)
  | c, [] => .pure c
  | _, k :: rest => (growing_scalar _ k.expr).bind fun _ ↦ growing_extend _ rest

theorem growing_joinCondition (left right : List Tree) :
    (condition : Option Tree) → (pairs : List (Nat × Nat)) →
      Growing (joinCondition left right condition pairs)
  | condition, [] => .pure condition
  | _, (_, _) :: rest =>
    .bind (.lift _) fun _ ↦ .bind (.lift _) fun _ ↦ .bind (.node _) fun _ ↦
      (growing_conjunction _ _).bind fun _ ↦ growing_joinCondition left right _ rest

/-- Both of two conditions, if there are two. -/
def bothOf (a b : Option Tree) : Drafting (Option Tree) :=
  match a, b with
  | some x, some y => some <$> node (.binary .and x y)
  | x, y => pure (x <|> y)

/-- Condition of an outer join, which always holds if it is none of its own. -/
def outerCondition : Option Tree → Drafting Tree
  | some c => pure c
  | none => do node (.binary .eq (← integer 1) (← integer 1))

/-- Condition that the filter of a side restricts as well. -/
def restrictedBy (filter : Option Tree) (on : Tree) : Drafting Tree :=
  match filter with
  | some f => node (.binary .and on f)
  | none => pure on

theorem joinParts_inner_eq (condition left right : Option Tree) :
    joinParts .inner condition left right = do
      let filter ← bothOf left right
      return (if condition.isSome then .inner else .cross, condition, filter) := by
  rcases left with _ | l
  · rfl
  · cases right <;> rfl

theorem joinParts_leftOuter_eq (condition left right : Option Tree) :
    joinParts .leftOuter condition left right = do
      let on ← restrictedBy right (← outerCondition condition)
      return (.leftOuter, some on, left) := by
  cases condition <;> cases right <;> rfl

theorem growing_bothOf (a b : Option Tree) : Growing (bothOf a b) := by
  unfold bothOf
  split
  · exact .map some (.node _)
  · exact .pure _

theorem growing_outerCondition (condition : Option Tree) : Growing (outerCondition condition) := by
  cases condition with
  | some c => exact .pure c
  | none => exact .bind (.node _) fun _ ↦ .bind (.node _) fun _ ↦ .node _

theorem growing_restrictedBy (filter : Option Tree) (on : Tree) :
    Growing (restrictedBy filter on) := by
  cases filter with
  | some f => exact .node (.binary .and on f)
  | none => exact .pure on

theorem growing_joinParts (type : JoinType) (condition left right : Option Tree) :
    Growing (joinParts type condition left right) := by
  cases type with
  | inner =>
    rw [joinParts_inner_eq]
    exact (growing_bothOf left right).bind fun _ ↦ .pure _
  | leftOuter =>
    rw [joinParts_leftOuter_eq]
    exact (growing_outerCondition condition).bind fun on ↦
      (growing_restrictedBy right on).bind fun _ ↦ .pure _

theorem growing_join (left right : Compiled) (type : JoinType) (pairs : List (Nat × Nat)) :
    Growing (left.join right type pairs) := by
  refine (growing_wrapFor _ left).bind fun l ↦ (growing_wrapFor _ right).bind fun r ↦ ?_
  split
  · exact (growing_joinCondition _ _ _ _).bind fun _ ↦ (growing_joinParts _ _ _ _).bind fun _ ↦
      .bind (.node _) fun _ ↦ .pure _
  · exact .pure none

/-- Aggregate function of an operand, cast where its type asks for that. -/
def aggregateCall (a : Aggregation) (header : Header) (operand : Option Tree) : Drafting Tree := do
  let call ← node (.aggregate a.kind false operand)
  match aggregateCast a header with
  | some type => node (.cast call type)
  | none => return call

theorem growing_aggregateCall (a : Aggregation) (header : Header) (operand : Option Tree) :
    Growing (aggregateCall a header operand) := by
  refine .bind (.node _) fun _ ↦ ?_
  split
  · exact .node _
  · exact .pure _

theorem growing_aggregateExpr (a : Aggregation) (header : Header) (exprs : List Tree) :
    Growing (aggregateExpr a header exprs) := by
  refine Growing.bind (.mapM_option (fun _ ↦ .lift _) a.column) fun operand ↦ ?_
  have call := growing_aggregateCall a header operand
  exact .ite (.bind (.throw _) fun _ ↦ call) call

theorem growing_aggregateColumns (c : Compiled) :
    (groups : Compiled) → (l : List Aggregation) → Growing (c.aggregateColumns groups l)
  | groups, [] => .pure groups
  | _, a :: rest =>
    (growing_aggregateExpr a _ _).bind fun _ ↦ growing_aggregateColumns c _ rest

theorem growing_aggregate (c : Compiled) (groupBy : List Nat) (aggregates : List Aggregation) :
    Growing (c.aggregate groupBy aggregates) :=
  .bind (.lift _) fun _ ↦ (growing_aggregateColumns c _ _).bind fun _ ↦ .pure _

theorem growing_minCount (a b : Tree) : Growing (minCount a b) := by
  unfold minCount
  split
  · exact .node _
  · exact .bind (.node _) fun _ ↦ .node _

theorem growing_sumCounts (a b : Tree) : Growing (sumCounts a b) := by
  unfold sumCounts
  split
  · exact .node _
  · exact .node _

theorem growing_limit (c : Compiled) (count : Tree) (isOrdered : Bool) :
    Growing (c.limit count isOrdered) := by
  simp only [limit]
  split
  · exact (growing_minCount _ _).bind fun _ ↦ .pure _
  · exact .bind (.pure _) fun _ ↦ .pure _

theorem growing_offset (c : Compiled) (count : Tree) (isOrdered : Bool) :
    Growing (c.offset count isOrdered) := by
  simp only [offset]
  split
  · exact (growing_sumCounts _ _).bind fun _ ↦ .pure _
  · exact .bind (.pure _) fun _ ↦ .pure _

/-- Number of the last row taken: the rows left out come before the first one. -/
def lastNumber (skip : Option Tree) (count : Tree) : Drafting Tree :=
  match skip with
  | some s => sumCounts s count
  | none => pure count

theorem numberCondition_eq (row : Tree) (skip take : Option Tree) :
    numberCondition row skip take = (do
      let lower ← skip.mapM fun s ↦ node (.binary .gt row s)
      let upper ← take.mapM fun t ↦ do node (.binary .ltEq row (← lastNumber skip t))
      bothOf lower upper) := by
  cases skip <;> rfl

theorem growing_lastNumber (skip : Option Tree) (count : Tree) :
    Growing (lastNumber skip count) := by
  cases skip with
  | some s => exact growing_sumCounts s count
  | none => exact .pure count

theorem growing_numberCondition (row : Tree) (skip take : Option Tree) :
    Growing (numberCondition row skip take) := by
  rw [numberCondition_eq]
  exact .bind (.mapM_option (fun _ ↦ .node _) skip) fun l ↦
    .bind (.mapM_option (fun t ↦ (growing_lastNumber skip t).bind fun _ ↦ .node _) take) fun u ↦
    growing_bothOf l u

theorem growing_numberedPage (c : Compiled) (skip take : Option Scalar) :
    Growing (c.numberedPage skip take) := by
  have numbered : Growing c.numbered := .bind (.node _) fun _ ↦ .pure _
  exact numbered.bind fun _ ↦ .bind .nextAlias fun _ ↦
    .bind (.node _) fun _ ↦ .bind (.node _) fun _ ↦
    (growing_selectAll _ _ _).bind fun _ ↦ .bind (.node _) fun _ ↦
    .bind (.mapM_option (growing_scalar []) skip) fun _ ↦
    .bind (.mapM_option (growing_scalar []) take) fun _ ↦
    (growing_numberCondition _ _ _).bind fun _ ↦ .pure _

/-! ### Aliases -/

/-- Aliases that were given while a draft grew to another. -/
def Given (d d' : Draft) (labels : List String) : Prop :=
  ∀ l ∈ labels, ∃ i, d.aliases ≤ i ∧ i < d'.aliases ∧ l = aliasName i

variable {labels labels' : List String} {d₁ d₂ : Draft}

theorem Given.mono (h : Given d d' labels) (hd : d₁.aliases ≤ d.aliases)
    (hd' : d'.aliases ≤ d₂.aliases) : Given d₁ d₂ labels := by
  intro l hl
  obtain ⟨i, hi, hi', rfl⟩ := h l hl
  exact ⟨i, hd.trans hi, hi'.trans_le hd', rfl⟩

theorem aliasName_injective : Function.Injective aliasName := by
  intro i j h
  rw [aliasName, aliasName, String.append_right_inj] at h
  exact Nat.repr_injective h

/-- Aliases that are given one after the other differ. -/
theorem Given.disjoint (h : Given d d₁ labels) (h' : Given d₂ d' labels')
    (hd : d₁.aliases ≤ d₂.aliases) : labels.Disjoint labels' := by
  intro l hl hl'
  obtain ⟨i, -, hi, rfl⟩ := h l hl
  obtain ⟨j, hj, -, he⟩ := h' _ hl'
  have := aliasName_injective he
  omega

end Compiled

end SqlWright
