import SqlWright.Proofs.Operators.WholeParts

/-!
# Statements that close their brackets

A node closes the brackets that it opens if its children do, so a whole statement does: brackets
come in pairs in every text of the spelling, and a `CASE` is written with its `END`. Texts of the
user, and those that an execution puts in, have to close their brackets by themselves.
-/

namespace SqlWright

/-- The texts that the node has of its own, and those that an execution puts in for it, close their
brackets. -/
def Node.ClosesOwn {α : Type} (l : Lexicon) (s : Settled) (mark : String) : Node α → Prop
  | .native text => l.IsWhole text
  | .variable name => l.IsWhole (mark ++ name)
  | .placeholder id => ∀ text, s.placeholder id = .ok text → l.IsWhole text
  | .dynamicFilter id _ _ => ∀ rows, s.bindings.rows? id = some rows →
      ∀ row ∈ rows, ∀ text ∈ row, l.IsWhole text
  | _ => True

namespace Script

open Writing WordMode

variable {w : Script} {l : Lexicon} {s : Settled} {c : Part} {cs : List Part} {c? : Option Part}
  {hint : Option String} {x y : Writing Chain} {t : String}

/-! ### Selects -/

section Selects

variable {q : Select Part}

theorem goesOn_orderClause (rules : w.Closes l)
    (h : ∀ key ∈ q.orderBy, IsWhole l s (key.expr.2 none)) (paging : Option PagingClause) :
    GoesOn l s (w.orderClause q paging) := by
  by_cases unordered : q.orderBy.isEmpty
  · by_cases fetches : paging = some .offsetFetch
    · have written : w.orderClause q paging =
          (liftM w.spelling.offsetOrdering >>= fun text ↦ pure [.text text]) := by
        simp_all [orderClause]
      rw [written]
      exact .lift fun text ht ↦ .pure_text (rules.spelling.offsetOrdering text ht)
    · exact Spans.none.congr (by simp_all [orderClause])
  · have parts : GoesOn l s (concat [pure [.text " ORDER BY "], w.ordering q.orderBy none]) :=
      .cons (.text (q := .ground) (k := 0) rfl) <| .single (isWhole_ordering h)
    exact parts.congr (by simp_all [orderClause, concat])

theorem isWhole_skippedRows (h : ∀ c ∈ q.offset, IsWhole l s (c.2 none)) :
    IsWhole l s (skippedRows q) := by
  unfold skippedRows
  cases ho : q.offset with
  | none => exact .text rfl
  | some c => exact h c ho

theorem goesOn_fetchClause (h : ∀ c ∈ q.limit, IsWhole l s (c.2 none)) :
    GoesOn l s (fetchClause q) := by
  unfold fetchClause
  cases hl : q.limit with
  | none => exact .none
  | some c =>
    have parts : GoesOn l s
        (concat [pure [.text " FETCH NEXT "], c.2 none, pure [.text " ROWS ONLY"]]) :=
      .cons (.text (q := .ground) (k := 0) rfl) <| .cons (h c hl) <| .single (.text rfl)
    exact parts.congr (by simp [concat])

theorem goesOn_pagingClause (limit : ∀ c ∈ q.limit, IsWhole l s (c.2 none))
    (offset : ∀ c ∈ q.offset, IsWhole l s (c.2 none)) (paging : Option PagingClause) :
    GoesOn l s (pagingClause q paging) := by
  rcases paging with - | - | - | - | -
  · exact .none
  · exact (goesOn_clause rfl limit).append (goesOn_clause rfl offset)
  · rw [pagingClause_offsetFetch]
    exact .cons (.text (q := .ground) (k := 0) rfl) <| .cons (isWhole_skippedRows offset) <|
      .cons (.text (q := .outside) (k := 0) rfl) <| .single (goesOn_fetchClause limit)
  · exact .none
  · exact .none

theorem spans_topClause (h : ∀ c ∈ q.limit, IsWhole l s (c.2 none))
    (paging : Option PagingClause) :
    Spans l s depthAfter? .ground 0 .ground 0 (topClause q paging) := by
  unfold topClause
  cases hl : q.limit with
  | none => exact .none
  | some c =>
    by_cases top : paging = some .top
    · have parts : Spans l s depthAfter? .ground 0 .ground 0
          (concat [pure [.text "TOP ("], c.2 none, pure [.text ") "]]) :=
        .cons (.text (q := .ground) (k := 1) rfl) <| .cons ((h c hl).within 1) <|
          .single (.text rfl)
      exact parts.congr (by simp [top, concat])
    · exact Spans.none.congr (if_neg top)

theorem isWhole_columnList (rules : w.Closes l)
    (h : ∀ c ∈ q.columns, IsWhole l s (c.expr.2 none)) : IsWhole l s (w.columnList q) := by
  unfold columnList
  split
  · exact .text rfl
  · exact isWhole_separated rfl
      (List.forall_mem_map.2 fun c hc ↦ isWhole_outputColumn rules (h c hc))

theorem goesOn_groupClause (h : ∀ c ∈ q.groupBy, IsWhole l s (c.2 none)) :
    GoesOn l s (groupClause q) := by
  unfold groupClause
  split
  · exact .none
  · exact (Spans.text rfl).append (isWhole_listed h)

theorem goesOn_lockSuffix {lock : Option LockClause} (h : ∀ clause ∈ lock, l.GoesOn clause.text) :
    GoesOn l s (pure (lockSuffix lock)) := by
  rcases lock with - | text | text
  · exact .none
  · exact .pure_text (h _ rfl)
  · exact .none

theorem hintGoesOn_tableHint {lock : Option LockClause}
    (h : ∀ clause ∈ lock, l.GoesOn clause.text) (outer : HintGoesOn l hint) :
    HintGoesOn l (tableHint lock hint) := by
  rcases lock with - | text | text
  · exact outer
  · exact outer
  · exact h _ rfl

theorem isWhole_clauses (rules : w.Closes l) {lock : Option LockClause}
    (locks : ∀ clause ∈ lock, l.GoesOn clause.text) (outer : HintGoesOn l hint)
    (h : ∀ c ∈ q.children, ∀ hint, HintGoesOn l hint → IsWhole l s (c.2 hint))
    (paging : Option PagingClause) : IsWhole l s (w.clauses q paging lock hint) := by
  have plain (c : Part) (hc : c ∈ q.children) := h c hc none hintGoesOn_none
  have inner := hintGoesOn_tableHint locks outer
  simp only [Select.children, Select.exprs, List.mem_append, or_imp, forall_and,
    List.forall_mem_map, Option.mem_toList] at plain h
  obtain ⟨⟨⟨⟨⟨⟨⟨columns, -⟩, filters⟩, groups⟩, havings⟩, keys⟩, limits⟩, offsets⟩ := plain
  obtain ⟨⟨⟨⟨⟨⟨⟨-, sources⟩, -⟩, -⟩, -⟩, -⟩, -⟩, -⟩ := h
  exact .cons (.text (q := .ground) (k := 0) rfl) <| .cons (.optional rfl) <|
    .cons (spans_topClause limits paging) <| .cons (isWhole_columnList rules columns) <|
    .cons (goesOn_source rules fun c hc ↦ sources c hc _ inner) <|
    .cons (goesOn_clause rfl filters) <| .cons (goesOn_groupClause groups) <|
    .cons (goesOn_clause rfl havings) <| .cons (goesOn_orderClause rules keys paging) <|
    .cons (goesOn_pagingClause limits offsets paging) <| .single (goesOn_lockSuffix locks)

theorem isWhole_select (rules : w.Closes l) (outer : HintGoesOn l hint)
    (h : ∀ c ∈ q.children, ∀ hint, HintGoesOn l hint → IsWhole l s (c.2 hint)) :
    IsWhole l s (w.select q hint) := by
  rw [select_eq]
  refine .lift fun paging _ ↦ .lift fun lock hl ↦ ?_
  have locks (clause : LockClause) (hc : clause ∈ lock) : l.GoesOn clause.text := by
    obtain ⟨-, rfl⟩ | ⟨m, _, -, spelled, rfl⟩ := lock?_cases hl
    · cases hc
    · cases hc
      exact rules.spelling.lock m _ spelled
  exact isWhole_clauses rules locks outer h paging

end Selects

/-! ### Operands -/

section Operands

variable (rules : w.Closes l)
include rules

theorem isOperand_parameterName (position : Nat) : l.IsOperand (w.parameterName position) := by
  have plain : (Token.word ('p' :: position.repr.toList)).role = .plain :=
    Token.keywordRole_cons (show 'P' ∉ ['C', 'E', 'A', 'O', 'L', 'I', 'N'] by decide)
      (position.repr.toList.map Char.toUpper)
  have name : l.IsOperand ("p" ++ position.repr) := by
    have read : l.run .ground ("p" ++ position.repr).toList =
        ([], .word ('p' :: position.repr.toList)) := by
      rw [String.toList_append]
      exact Lexicon.run_word (Lexicon.repr_isWordChar position) ['p']
    refine Lexicon.isOperand_of_run read (.word _) ?_
    · change after? operandAfter? 0 [.word ('p' :: position.repr.toList)] = some 1
      rw [after?, plain]
      rfl
  rw [parameterName, String.append_assoc]
  exact rules.mark.append name.again

theorem isOperand_parameter (p : Parameter) : IsOperand l s (w.parameter p) := by
  rintro t ⟨named, c, named', run, rendered⟩
  unfold parameter at run
  split at run
  · cases run
    rw [renderChain_text_ok.1 rendered]
    exact isOperand_parameterName rules _
  · cases run
    rw [renderChain_text_ok.1 rendered]
    exact isOperand_parameterName rules _

/-- An aggregate is an operand. -/
theorem isOperand_aggregate (kind : AggregateKind) (distinct : Bool)
    (h : ∀ c ∈ c?, IsWhole l s (c.2 hint)) :
    IsOperand l s (w.node (.aggregate kind distinct c?) hint) := by
  refine .lift fun name hn ↦ ?_
  have opening : l.Spans operandAfter? .outside 1 .ground 2 "(" := Lexicon.spans_text rfl
  have opens : Spans l s operandAfter? .ground 0 .ground 2 (pure [.text (name ++ "(")]) :=
    .pure_text ((rules.spelling.aggregate kind name hn).append opening)
  cases c? with
  | none =>
    have parts : IsOperand l s (concat [pure [.text (name ++ "(")],
        pure (if distinct then [.text "DISTINCT "] else []), pure [.text "*"], pure [.text ")"]]) :=
      .cons opens <| .cons (.optional rfl) <| .cons (.text (q := .outside) (k := 2) rfl) <|
        .single (.text rfl)
    exact parts.congr (by simp [concat])
  | some c =>
    have parts : IsOperand l s (concat [pure [.text (name ++ "(")],
        pure (if distinct then [.text "DISTINCT "] else []), c.2 hint, pure [.text ")"]]) :=
      .cons opens <| .cons (.optional rfl) <| .cons (h c rfl).enclosed <| .single (.text rfl)
    exact parts.congr (by simp [concat])

/-- A cast is an operand. -/
theorem isOperand_cast (type : SqlType) (h : IsWhole l s (c.2 hint)) :
    IsOperand l s (w.node (.cast c type) hint) := by
  refine .lift fun name hn ↦ ?_
  have before : l.Spans operandAfter? .outside 2 .ground 2 " AS " := Lexicon.spans_text rfl
  have after : l.Spans operandAfter? .outside 2 .outside 1 ")" := Lexicon.spans_text rfl
  have closes : Spans l s operandAfter? .outside 2 .outside 1
      (pure [.text (" AS " ++ name ++ ")")]) :=
    .pure_text ((before.append ((rules.types type name hn).spans 0).enclosed).append after)
  have parts : IsOperand l s
      (concat [pure [.text "CAST("], c.2 hint, pure [.text (" AS " ++ name ++ ")")]]) :=
    .cons (.text (q := .ground) (k := 2) rfl) <| .cons h.enclosed <| .single closes
  exact parts.congr (by simp [concat])

end Operands

/-- A case is an operand. -/
theorem isOperand_case {branches : List (Part × Part)}
    (h : ∀ b ∈ branches, IsWhole l s (b.1.2 hint) ∧ IsWhole l s (b.2.2 hint))
    (ho : ∀ c ∈ c?, IsWhole l s (c.2 hint)) :
    IsOperand l s (w.node (.case branches c?) hint) := by
  let branch (b : Part × Part) : Writing Chain :=
    concat [pure [.text " WHEN "], b.1.2 hint, pure [.text " THEN "], b.2.2 hint]
  have cases : GoesOn l s (concat (branches.map branch)) :=
    .concat (List.forall_mem_map.2 fun b hb ↦
      .cons (.text (q := .ground) (k := 0) rfl) <| .cons (h b hb).1 <|
        .cons (.text (q := .ground) (k := 0) rfl) <| .single (h b hb).2)
  have otherwise : GoesOn l s (clause " ELSE " c? hint) := goesOn_clause rfl ho
  have parts : IsOperand l s (concat [pure [.text "CASE"], concat (branches.map branch),
      clause " ELSE " c? hint, pure [.text " END"]]) :=
    .cons (.text (q := .outside) (k := 2) rfl) <| .cons cases.enclosed <|
      .cons otherwise.enclosed <| .single (.text rfl)
  exact parts.congr (by simp [node, branch, concat, List.mapM_map])

/-! ### Functions and operators -/

theorem isWhole_functionArg (t : Template) (h : ∀ c ∈ c?, IsWhole l s (c.2 hint)) :
    IsWhole l s (functionArg hint t c?) := by
  cases c? with
  | none => exact Spans.none.weaken rfl
  | some c =>
    cases t with
    | call name => exact h c rfl
    | separated operator => exact isWhole_grouped (h c rfl)
    | pattern text => exact isWhole_grouped (h c rfl)

/-- The pattern of nothing but an argument is written as the argument, if there is one. -/
theorem gives_argument {arg : Nat → Writing Chain} {arity : Nat}
    (h : Gives s (template ((Template.pattern "{0}").parts arity) arg) t) :
    t = "{0}" ∨ 0 < arity ∧ Gives s (arg 0) t := by
  have single (x : Writing Chain) : concat [x] = x := by simp [concat]
  rw [template_eq] at h
  cases arity with
  | zero =>
    have parts : (Template.pattern "{0}").parts 0 = [.text "{0}"] := rfl
    rw [parts, List.map_singleton, single] at h
    exact .inl (gives_text h)
  | succ arity =>
    have parts : (Template.pattern "{0}").parts (arity + 1) = [.arg 0] := rfl
    rw [parts, List.map_singleton, single] at h
    exact .inr ⟨arity.succ_pos, h⟩

theorem node_function (f : ScalarFunction) (args : List Part) :
    w.node (.function f args) hint = (liftM (w.spelling.functionTemplate f) >>= fun t ↦
      template (t.parts args.length) fun i ↦ functionArg hint t args[i]?) := rfl

theorem isOperand_calledFunction {t : Template} (encloses : l.encloses t = true)
    (h : ∀ c ∈ cs, IsWhole l s (c.2 hint)) : IsOperand l s
      (template (t.parts cs.length) fun i ↦ functionArg hint t cs[i]?) :=
  isOperand_template encloses
    (fun _ ↦ isWhole_functionArg t fun c hc ↦ h c (List.mem_of_getElem? hc)) _

/-- A function closes its brackets: it is an operand, or written as its argument. -/
theorem isWhole_function (rules : w.Closes l) (f : ScalarFunction)
    (h : ∀ c ∈ cs, IsWhole l s (c.2 hint)) : IsWhole l s (w.node (.function f cs) hint) := by
  rw [node_function]
  refine .lift fun t ht ↦ ?_
  obtain encloses | rfl := rules.spelling.function f t ht
  · exact (isOperand_calledFunction encloses h).of_operand
  · intro u given
    obtain rfl | ⟨-, argument⟩ := gives_argument given
    · exact Lexicon.spans_text rfl
    · exact isWhole_functionArg _ (fun c hc ↦ h c (List.mem_of_getElem? hc)) u argument

theorem spans_between (op : BinaryOp) :
    l.Spans depthAfter? .outside 0 .ground 0 (Lexicon.between op) := by
  obtain ⟨cs, hcs⟩ : ∃ cs, (Lexicon.between op).toList = ' ' :: cs := by
    cases op <;> exact ⟨_, rfl⟩
  have read := Lexicon.run_between (l := l) op
  rw [hcs] at read
  intro m outside
  rw [hcs, Lexicon.run_of_isBreak outside rfl, read]
  refine ⟨⟨rfl, rfl⟩, op.tokens, List.append_nil _, ?_⟩
  exact (after?_depthAfter? 0 op.tokens).trans (balanced_tokens op)

theorem isWhole_operands (op : BinaryOp) {left right : Part} (hl : IsWhole l s (left.2 hint))
    (hr : IsWhole l s (right.2 hint)) (i : Nat) : IsWhole l s
      (if i = 0 then operand op false left hint else operand op true right hint) := by
  split
  · exact isWhole_operand op false hl
  · exact isWhole_operand op true hr

/-- An operator closes its brackets, between its operands or as a function. -/
theorem isWhole_binary (rules : w.Closes l) (op : BinaryOp) {left right : Part}
    (hl : IsWhole l s (left.2 hint)) (hr : IsWhole l s (right.2 hint)) :
    IsWhole l s (w.node (.binary op left right) hint) := by
  refine .lift fun t ht ↦ ?_
  have each := isWhole_operands op hl hr
  obtain encloses | ⟨op', rfl⟩ := rules.spelling.operator op t ht
  · exact (isOperand_template encloses each _).of_operand
  · rw [template_eq, Lexicon.parts_ansiOperator]
    exact .cons (each 0) <| .cons (.pure_text (spans_between op')) <| .single (each 1)

theorem isWhole_unary (op : UnaryOp) (h : IsWhole l s (c.2 hint)) :
    IsWhole l s (unary op c hint) := by
  cases op with
  | negation =>
    have parts : IsWhole l s (concat [pure [.text "NOT ("], c.2 hint, pure [.text ")"]]) :=
      .cons (.text (q := .ground) (k := 1) rfl) <| .cons (h.within 1) <| .single (.text rfl)
    exact parts.congr (by simp [unary, concat])
  | negate =>
    have parts : IsWhole l s (concat [pure [.text "-("], c.2 hint, pure [.text ")"]]) :=
      .cons (.text (q := .ground) (k := 1) rfl) <| .cons (h.within 1) <| .single (.text rfl)
    exact parts.congr (by simp [unary, concat])
  | isNull => exact (isWhole_grouped h).append (.text rfl)
  | isNotNull => exact (isWhole_grouped h).append (.text rfl)
  | existence => exact (Spans.text (q := .ground) (k := 0) rfl).append h

/-- A test for rows is an operand if what has the rows is one. -/
theorem isOperand_existence (h : IsOperand l s (c.2 hint)) :
    IsOperand l s (unary .existence c hint) :=
  (Spans.text (q := .ground) (k := 1) rfl).append h.again

/-! ### What an execution settles -/

theorem gives_variant {key : VariantKey} (h : Gives s (do
    let main ← x
    let alternative ← y
    return [Piece.variant key main.normalized alternative.normalized]) t) :
    Gives s x t ∨ Gives s y t := by
  obtain ⟨named, c, named', run, rendered⟩ := h
  obtain ⟨main, named₁, hx, run⟩ := bind_ok.1 run
  obtain ⟨alternative, named₂, hy, last⟩ := bind_ok.1 run
  cases pure_ok.1 last
  obtain ⟨_, _, chosen, nothing, rfl⟩ := Settled.renderChain_cons_ok.1 rendered
  cases nothing
  rw [String.append_empty]
  rw [Settled.renderPiece] at chosen
  split at chosen
  · rw [Settled.renderChain_normalized_eq] at chosen
    exact .inr ⟨named₁, alternative, _, hy, chosen⟩
  · rw [Settled.renderChain_normalized_eq] at chosen
    exact .inl ⟨named, main, _, hx, chosen⟩

theorem node_dynamicFilter (key : String) (first : Part) (others : List Part) :
    w.node (.dynamicFilter key first others) hint =
      membership key ((first :: others).map fun c ↦ c.2 hint) := by
  simp [node, membership, List.mapM_map, Function.comp_def]

theorem isWhole_membership {key : String} {xs : List (Writing Chain)}
    (h : ∀ x ∈ xs, IsWhole l s x) (values : ∀ rows, s.bindings.rows? key = some rows →
      ∀ row ∈ rows, ∀ value ∈ row, l.IsWhole value) : IsWhole l s (membership key xs) := by
  intro t given
  obtain ⟨rows, us, bound, written, rfl⟩ := gives_membership given
  unfold Settled.tested
  split
  · exact Lexicon.spans_text rfl
  next some =>
    have texts : ∀ u ∈ us, l.IsWhole u := by
      intro u hu
      obtain ⟨x, hx, gives⟩ := exists_of_mem_forall₂ (written (by simpa using some)) hu
      exact Lexicon.spans_iff_isWhole.1 (h x hx u gives)
    have list : l.IsWhole (", ".intercalate (rows.map Settled.tupled)) :=
      (Lexicon.isWhole_list (List.forall_mem_map.2 fun row hr ↦
        Lexicon.isWhole_tupled (values rows bound row hr))).1
    have opens : l.Spans depthAfter? .outside 0 .ground 1 " IN (" := Lexicon.spans_text rfl
    have closes : l.Spans depthAfter? .outside 1 .outside 0 ")" := Lexicon.spans_text rfl
    exact (((Lexicon.isWhole_tupled texts).spans 0).append opens).append (list.spans 1)
      |>.append closes

theorem gives_placeholder {id : Placeholder} (h : Gives s (pure [.placeholder id]) t) :
    s.placeholder id = .ok t := by
  obtain ⟨named, c, named', run, rendered⟩ := h
  cases pure_ok.1 run
  obtain ⟨u, _, given, nothing, rfl⟩ := Settled.renderChain_cons_ok.1 rendered
  cases nothing
  rwa [String.append_empty]

/-! ### Row sources and statements -/

section Statements

variable (rules : w.Closes l)
include rules

theorem isWhole_table (schema : Option String) (name : String) (label : Option String)
    (outer : HintGoesOn l hint) : IsWhole l s (w.node (.table schema name label) hint) := by
  have table : IsWhole l s (w.qualified schema name) :=
    (isOperand_qualified rules schema name).of_operand
  have hinted : GoesOn l s (pure [.text (hint.getD "")]) := .pure_text outer
  cases label with
  | none => exact (table.append hinted).congr (by simp [node])
  | some label =>
    have parts : IsWhole l s (concat [w.qualified schema name, w.aliasClause label,
        pure [.text (hint.getD "")]]) :=
      .cons table <| .cons (goesOn_aliasClause rules label) <| .single hinted
    exact parts.congr (by simp [node, concat])

theorem isWhole_queryRef (label : String) (h : IsWhole l s (c.2 hint)) :
    IsWhole l s (w.node (.queryRef c label) hint) := by
  have parts := (isOperand_parenthesized h).of_operand.append (goesOn_aliasClause rules label)
  exact parts.congr (by simp [node])

omit rules in
theorem isWhole_join (kind : JoinKind) {left right : Part} (hl : IsWhole l s (left.2 hint))
    (hr : IsWhole l s (right.2 hint)) (h : ∀ c ∈ c?, IsWhole l s (c.2 hint)) :
    IsWhole l s (w.node (.join kind left right c?) hint) := by
  have between : Spans l s depthAfter? .outside 0 .ground 0 (pure [.text (joinText kind)]) := by
    cases kind <;> exact .text rfl
  have parts : IsWhole l s (concat [left.2 hint, pure [.text (joinText kind)], right.2 hint,
      clause " ON " c? hint]) :=
    .cons hl <| .cons between <| .cons hr <| .single (goesOn_clause rfl h)
  exact parts.congr (by simp [node, concat])

theorem isWhole_insert {target : Part} (columns : List String)
    (ht : IsWhole l s (target.2 hint)) (h : ∀ c ∈ cs, IsWhole l s (c.2 hint)) :
    IsWhole l s (w.node (.insert target columns cs) hint) := by
  have names : IsWhole l s (separated ", " (columns.map w.identifier)) :=
    isWhole_separated rfl
      (List.forall_mem_map.2 fun name _ ↦ (isOperand_identifier rules name).of_operand)
  have parts : IsWhole l s (concat [pure [.text "INSERT INTO "], target.2 hint,
      pure [.text " ("], separated ", " (columns.map w.identifier), pure [.text ") VALUES ("],
      listed cs hint, pure [.text ")"]]) :=
    .cons (.text (q := .ground) (k := 0) rfl) <| .cons ht <|
      .cons (.text (q := .ground) (k := 1) rfl) <| .cons (names.within 1) <|
      .cons (.text (q := .ground) (k := 1) rfl) <| .cons ((isWhole_listed h).within 1) <|
      .single (.text rfl)
  exact parts.congr (by simp [node, concat])

theorem isWhole_update {target : Part} {assignments : List (String × Part)}
    (ht : IsWhole l s (target.2 hint)) (ha : ∀ a ∈ assignments, IsWhole l s (a.2.2 hint))
    (h : ∀ c ∈ c?, IsWhole l s (c.2 hint)) :
    IsWhole l s (w.node (.update target assignments c?) hint) := by
  have changes : IsWhole l s (separated ", " (assignments.map fun a ↦ w.assignment a hint)) :=
    isWhole_separated rfl (List.forall_mem_map.2 fun a mem ↦ isWhole_assignment rules (ha a mem))
  have parts : IsWhole l s (concat [pure [.text "UPDATE "], target.2 hint, pure [.text " SET "],
      separated ", " (assignments.map fun a ↦ w.assignment a hint), clause " WHERE " c? hint]) :=
    .cons (.text (q := .ground) (k := 0) rfl) <| .cons ht <|
      .cons (.text (q := .ground) (k := 0) rfl) <| .cons changes <| .single (goesOn_clause rfl h)
  exact parts.congr (by simp [node, concat])

omit rules in
theorem isWhole_delete {target : Part} (ht : IsWhole l s (target.2 hint))
    (h : ∀ c ∈ c?, IsWhole l s (c.2 hint)) : IsWhole l s (w.node (.delete target c?) hint) := by
  have parts : IsWhole l s
      (concat [pure [.text "DELETE FROM "], target.2 hint, clause " WHERE " c? hint]) :=
    .cons (.text (q := .ground) (k := 0) rfl) <| .cons ht <| .single (goesOn_clause rfl h)
  exact parts.congr (by simp [node, concat])

end Statements

/-! ### Nodes and trees -/

/-- A node closes its brackets if its children do. -/
theorem isWhole_node (rules : w.Closes l) {n : Node Part} (own : n.ClosesOwn l s w.mark)
    (outer : HintGoesOn l hint)
    (h : ∀ c ∈ n.children, ∀ hint, HintGoesOn l hint → IsWhole l s (c.2 hint)) :
    IsWhole l s (w.node n hint) := by
  have part (c : Part) (hc : c ∈ n.children) : IsWhole l s (c.2 hint) := h c hc hint outer
  cases n with
  | null => exact .text rfl
  | literal value =>
    exact .lift fun text ht ↦
      .pure_text (Lexicon.spans_iff_isWhole.2 (rules.spelling.literal value text ht).isWhole)
  | column qualifier name => exact (isOperand_qualified rules qualifier name).of_operand
  | «variable» name => exact .pure_text (Lexicon.spans_iff_isWhole.2 own)
  | parameter p => exact (isOperand_parameter rules p).of_operand
  | placeholder id =>
    exact fun t given ↦ Lexicon.spans_iff_isWhole.2 (own t (gives_placeholder given))
  | binary op left right =>
    exact isWhole_binary rules op (part left (by simp [Node.children]))
      (part right (by simp [Node.children]))
  | unary op operand => exact isWhole_unary op (part operand (by simp [Node.children]))
  | function f args => exact isWhole_function rules f part
  | aggregate kind distinct operand =>
    exact (isOperand_aggregate rules kind distinct fun c hc ↦
      part c (by simpa [Node.children] using hc)).of_operand
  | cast operand type =>
    exact (isOperand_cast rules type (part operand (by simp [Node.children]))).of_operand
  | case branches otherwise =>
    refine (isOperand_case (fun b hb ↦ ?_) fun c hc ↦ ?_).of_operand
    · exact ⟨part b.1 (Node.mem_children_of_branch hb).1,
        part b.2 (Node.mem_children_of_branch hb).2⟩
    · exact part c (List.mem_append_right _ (Option.mem_toList.mpr hc))
  | row items => exact (isOperand_parenthesized (isWhole_listed part)).of_operand
  | dynamicFilter id first others =>
    rw [node_dynamicFilter]
    exact isWhole_membership (List.forall_mem_map.2 part) own
  | subquery query =>
    exact (isOperand_parenthesized (part query (by simp [Node.children]))).of_operand
  | «variant» key main alternative =>
    intro t given
    obtain given | given := gives_variant given
    · exact part main (by simp [Node.children]) t given
    · exact part alternative (by simp [Node.children]) t given
  | rowNumber keys =>
    exact (isOperand_rowNumber fun key hk ↦ part _ (List.mem_map_of_mem hk)).of_operand
  | native text => exact .pure_text (Lexicon.spans_iff_isWhole.2 own)
  | table schema name label => exact isWhole_table rules schema name label outer
  | queryRef query label =>
    exact isWhole_queryRef rules label (part query (by simp [Node.children]))
  | join kind left right on =>
    exact isWhole_join kind (part left (by simp [Node.children]))
      (part right (by simp [Node.children])) fun c hc ↦ part c (by simp_all [Node.children])
  | select q => exact isWhole_select rules outer h
  | insert target columns values =>
    exact isWhole_insert rules columns (part target (by simp [Node.children])) fun c hc ↦
      part c (by simp [Node.children, hc])
  | update target assignments filter =>
    exact isWhole_update rules (part target (by simp [Node.children]))
      (fun a ha ↦ part a.2 (by simp [Node.children, List.mem_map_of_mem ha]))
      fun c hc ↦ part c (by simp_all [Node.children])
  | delete target filter =>
    exact isWhole_delete (part target (by simp [Node.children])) fun c hc ↦
      part c (by simp_all [Node.children])
  | createIndex index => exact isWhole_createIndex rules index

/-- A statement closes the brackets that it opens, and so does each part of it. -/
theorem isWhole_tree (rules : w.Closes l) {t : Tree}
    (own : t.Everywhere (Node.ClosesOwn l s w.mark)) (outer : HintGoesOn l hint) :
    IsWhole l s (w.tree t hint) := by
  induction t using Tree.induction_children generalizing hint with
  | h i n ih =>
    obtain ⟨root, below⟩ := own
    rw [tree_mk]
    refine isWhole_node rules ?_ outer ?_
    · cases n <;> exact root
    · rw [Node.children_map]
      exact List.forall_mem_map.2 fun c hc hint outer ↦ ih c hc (below c hc) outer

end Script

/-- In every execution the text of a command closes the brackets that it opens. -/
theorem Tree.text_isWhole {d : Dialect} {v : Version} {t : Tree} {c : Command} {b : Bindings}
    {mark text : String} (h : t.command (d.spelling v) (d.typeNames v) = .ok c)
    (marked : (d.spelling v).parameterMark = .ok mark)
    (own : t.Everywhere (Node.ClosesOwn (d.lexicon v) ⟨b, []⟩ mark))
    (given : c.text b = .ok text) : (d.lexicon v).IsWhole text := by
  obtain ⟨mark', chain, parameters, marked', run, rfl⟩ := command_ok.1 h
  obtain rfl := Except.ok.inj (marked.symm.trans marked')
  rw [Command.text_eq] at given
  change Settled.renderChain ⟨b, []⟩ chain.normalized = .ok text at given
  rw [Settled.renderChain_normalized_eq] at given
  exact Lexicon.spans_iff_isWhole.1 <|
    Script.isWhole_tree (Script.closes d v marked) own Script.hintGoesOn_none text
      ⟨[], chain, parameters, run, given⟩

end SqlWright
