import SqlWright.Proofs.Operators.WholeStatements

/-!
# Tidy expressions

Every expression is written as the text of one. Most are operands: what they are made of stands in
brackets. Operators, tests and variants stand beside their operands, so they are expressions where
these are.
-/

namespace SqlWright

/-- Operands that stand in no brackets of the node. -/
def Node.operands {α : Type} : Node α → List α
  | .unary op x => if op = .existence then [] else [x]
  | .binary _ left right => [left, right]
  | .function _ args => args
  | .variant _ main alternative => [main, alternative]
  | .dynamicFilter _ first others => first :: others
  | _ => []

/-- The node is an expression by itself: it is no row source and no statement, texts of the user
and those that an execution puts in for it are expressions, and rows are looked for in a
subquery. -/
def Node.IsExpression (l : Lexicon) (s : Settled) (mark : String) : Node Tree → Prop
  | .native text => l.IsTidy text
  | .variable name => l.IsTidy (mark ++ name)
  | .placeholder id => ∀ text, s.placeholder id = .ok text → l.IsTidy text
  | .unary .existence x => ∃ query, x.node = .subquery query
  | .table _ _ _ | .queryRef _ _ | .join _ _ _ _ | .select _ | .insert _ _ _ | .update _ _ _
  | .delete _ _ | .createIndex _ => False
  | _ => True

/-- The tree is an expression, and so are the operands that stand beside its operators. -/
inductive Tree.IsExpression (l : Lexicon) (s : Settled) (mark : String) : Tree → Prop where
  | mk {i : Nat} {n : Node Tree} (root : n.IsExpression l s mark)
    (operands : ∀ c ∈ n.operands, IsExpression l s mark c) : IsExpression l s mark (.mk i n)

namespace Script

open Writing WordMode

variable {w : Script} {l : Lexicon} {s : Settled} {hint : Option String} {i : Nat} {x : Tree}
  {n : Node Tree}

theorem IsTidy.isWhole_tree (h : w.IsTidy l s hint x) : IsWhole l s (w.tree x hint) :=
  fun t written ↦ Lexicon.spans_iff_isWhole.2 (h t written).isWhole

theorem isTidy_of_gives
    (h : ∀ t, Gives s (w.node (n.map (partOf id w.tree)) hint) t → l.IsTidy t) :
    w.IsTidy l s hint (.mk i n) := by
  intro t written
  rw [Writes, tree_mk] at written
  exact h t written

theorem isTidy_of_isOperand (h : IsOperand l s (w.node (n.map (partOf id w.tree)) hint)) :
    w.IsTidy l s hint (.mk i n) :=
  isTidy_of_gives fun t given ↦ by
    have operand : l.IsOperand t := h t given
    exact operand.isTidy.1

/-- A text that is written as it is. -/
theorem isTidy_of_text {text : String} (h : l.IsTidy text)
    (node : w.node (n.map (partOf id w.tree)) hint = pure [.text text]) :
    w.IsTidy l s hint (.mk i n) :=
  isTidy_of_gives fun t given ↦ by
    rw [node] at given
    rwa [gives_text given]

/-- A test for rows of a subquery. -/
theorem isTidy_existence {j : Nat} {query : Tree} (h : IsWhole l s (w.tree query hint)) :
    w.IsTidy l s hint (.mk i (.unary .existence (.mk j (.subquery query)))) := by
  have rows : IsOperand l s (w.tree (.mk j (.subquery query)) hint) :=
    (isOperand_parenthesized h).congr (tree_mk j (.subquery query) hint)
  exact isTidy_of_isOperand (isOperand_existence rows)

/-- An operator is written as an expression, between its operands or as a function. -/
theorem isTidy_binary (rules : w.Closes l) (op : BinaryOp) {y : Tree} (hx : w.IsTidy l s hint x)
    (hy : w.IsTidy l s hint y) : w.IsTidy l s hint (.mk i (.binary op x y)) := by
  cases ht : w.spelling.operatorTemplate op with
  | error e =>
    refine isTidy_of_gives fun t given ↦ ?_
    obtain ⟨template, spelled, -⟩ := gives_lift given
    cases ht.symm.trans spelled
  | ok template =>
    obtain encloses | ⟨op', rfl⟩ := rules.spelling.operator op template ht
    · refine isTidy_of_isOperand (.lift fun template' given ↦ ?_)
      cases ht.symm.trans given
      have left : IsWhole l s ((partOf id w.tree x).2 hint) := hx.isWhole_tree
      have right : IsWhole l s ((partOf id w.tree y).2 hint) := hy.isWhole_tree
      exact isOperand_template encloses (isWhole_operands op left right) 2
    · exact hx.binary hy ht

/-- A function is written as an expression: it is an operand, or written as its argument. -/
theorem isTidy_function (rules : w.Closes l) (f : ScalarFunction) {args : List Tree}
    (h : ∀ a ∈ args, w.IsTidy l s hint a) : w.IsTidy l s hint (.mk i (.function f args)) := by
  refine isTidy_of_gives fun t given ↦ ?_
  change Gives s (w.node (.function f (args.map (partOf id w.tree))) hint) t at given
  rw [node_function] at given
  obtain ⟨template, spelled, given⟩ := gives_lift given
  obtain encloses | rfl := rules.spelling.function f template spelled
  · have whole : ∀ c ∈ args.map (partOf id w.tree), IsWhole l s (c.2 hint) :=
      List.forall_mem_map.2 fun a ha ↦ (h a ha).isWhole_tree
    have operand : l.IsOperand t := isOperand_calledFunction encloses whole t given
    exact operand.isTidy.1
  · obtain rfl | ⟨some, argument⟩ := gives_argument given
    · have operand : l.IsOperand "{0}" := Lexicon.spans_text rfl
      exact operand.isTidy.1
    · cases args with
      | nil => cases some
      | cons a args =>
        obtain ⟨u, hu, rfl⟩ := gives_grouped (x := a) argument
        exact (h a List.mem_cons_self u hu).operandText _

/-- A test against rows is written as an expression. -/
theorem isTidy_dynamicFilter {key : String} {first : Tree} {others : List Tree}
    (h : ∀ e ∈ first :: others, w.IsTidy l s hint e)
    (values : ∀ rows, s.bindings.rows? key = some rows →
      ∀ row ∈ rows, ∀ value ∈ row, l.IsWhole value) :
    w.IsTidy l s hint (.mk i (.dynamicFilter key first others)) := by
  refine isTidy_of_gives fun t written ↦ ?_
  change Gives s (w.node (.dynamicFilter key (partOf id w.tree first)
    (others.map (partOf id w.tree))) hint) t at written
  rw [node_dynamicFilter] at written
  obtain ⟨rows, us, bound, given, rfl⟩ := gives_membership written
  unfold Settled.tested
  split
  · have operand : l.IsOperand "(1 = 0)" := Lexicon.spans_text rfl
    exact operand.isTidy.1
  next some =>
    have parts : ∀ part ∈ (first :: others).map (partOf id w.tree), ∀ u,
        Gives s (part.2 hint) u → l.IsTidy u := List.forall_mem_map.2 h
    have texts : ∀ u ∈ us, l.IsTidy u := by
      intro u hu
      obtain ⟨x, hx, gives⟩ := exists_of_mem_forall₂ (given (by simpa using some)) hu
      obtain ⟨part, hp, rfl⟩ := List.mem_map.1 hx
      exact parts part hp u gives
    exact Lexicon.isTidy_test (values rows bound) (Lexicon.isTidy_tupled_of_isTidy texts)

/-- Every expression is written as the text of one. -/
theorem isTidy_tree (rules : w.Closes l) {t : Tree} (h : t.IsExpression l s w.mark)
    (own : t.Everywhere (Node.ClosesOwn l s w.mark)) (outer : HintGoesOn l hint) :
    w.IsTidy l s hint t := by
  induction h with
  | @mk i n root operands ih =>
    obtain ⟨closes, below⟩ := own
    have own (c : Tree) (hc : c ∈ n.children) : c.Everywhere (Node.ClosesOwn l s w.mark) :=
      below c hc
    have whole (c : Tree) (hc : c ∈ n.children) : IsWhole l s (w.tree c hint) :=
      isWhole_tree rules (own c hc) outer
    cases n with
    | null => exact isTidy_of_isOperand (.text rfl)
    | literal value =>
      refine isTidy_of_gives fun t given ↦ ?_
      obtain ⟨text, spelled, given⟩ := gives_lift given
      obtain rfl := gives_text given
      exact rules.spelling.literal value t spelled
    | column qualifier name => exact isTidy_of_isOperand (isOperand_qualified rules qualifier name)
    | «variable» name => exact isTidy_of_text root rfl
    | parameter p => exact isTidy_of_isOperand (isOperand_parameter rules p)
    | placeholder id => exact isTidy_of_gives fun t given ↦ root t (gives_placeholder given)
    | binary op left right =>
      exact isTidy_binary rules op
        (ih left (by simp [Node.operands]) (own left (by simp [Node.children])))
        (ih right (by simp [Node.operands]) (own right (by simp [Node.children])))
    | unary op x =>
      by_cases tests : op = .existence
      · obtain rfl := tests
        obtain ⟨j, node⟩ := x
        obtain ⟨query, rfl⟩ := root
        obtain ⟨-, inner⟩ := own (.mk j (.subquery query)) (by simp [Node.children])
        have nested := inner query (by simp [Tree.children, Tree.node, Node.children])
        exact isTidy_existence (isWhole_tree rules nested outer)
      · exact (ih x (by simp [Node.operands, tests]) (own x (by simp [Node.children]))).unary tests
    | function f args => exact isTidy_function rules f fun a ha ↦ ih a ha (own a ha)
    | aggregate kind distinct operand =>
      refine isTidy_of_isOperand (isOperand_aggregate rules kind distinct fun c hc ↦ ?_)
      obtain ⟨a, ha, rfl⟩ := Option.mem_map.1 hc
      exact whole a (Option.mem_toList.2 ha)
    | cast operand type =>
      exact isTidy_of_isOperand
        (isOperand_cast rules type (whole operand (by simp [Node.children])))
    | case branches otherwise =>
      refine isTidy_of_isOperand
        (isOperand_case (List.forall_mem_map.2 fun b hb ↦ ?_) fun c hc ↦ ?_)
      · exact ⟨whole b.1 (Node.mem_children_of_branch hb).1,
          whole b.2 (Node.mem_children_of_branch hb).2⟩
      · obtain ⟨a, ha, rfl⟩ := Option.mem_map.1 hc
        exact whole a (List.mem_append_right _ (Option.mem_toList.2 ha))
    | row items =>
      exact isTidy_of_isOperand
        (isOperand_parenthesized (isWhole_listed (List.forall_mem_map.2 whole)))
    | dynamicFilter key first others =>
      exact isTidy_dynamicFilter (fun e he ↦ ih e he (own e he)) closes
    | subquery query =>
      exact isTidy_of_isOperand (isOperand_parenthesized (whole query (by simp [Node.children])))
    | «variant» key main alternative =>
      refine isTidy_of_gives fun t given ↦ ?_
      obtain given | given := gives_variant given
      · exact ih main (by simp [Node.operands]) (own main (by simp [Node.children])) t given
      · exact ih alternative (by simp [Node.operands]) (own alternative (by simp [Node.children]))
          t given
    | rowNumber keys =>
      refine isTidy_of_isOperand (isOperand_rowNumber (List.forall_mem_map.2 fun key hk ↦ ?_))
      exact whole key.expr (List.mem_map_of_mem hk)
    | native text => exact isTidy_of_text root rfl
    | table _ _ _ | queryRef _ _ | join _ _ _ _ | select _ | insert _ _ _ | update _ _ _
    | delete _ _ | createIndex _ => exact root.elim

end Script
end SqlWright
