import SqlWright.Proofs.Lexing.Writing

/-!
# Nodes that are taken apart alike

A node and the same node with blank names are written alike if their children are, under every hint
that goes on after any token. What an execution puts in has to keep tokens apart by itself.
-/

namespace SqlWright

variable {α : Type}

/-- The node keeps tokens apart by itself: in a text of its own, and in what an execution puts in
for it. -/
def Node.IsClear (l : Lexicon) (s : Settled) (mark : String) : Node α → Prop
  | .native text => l.Passes .ground .outside text
  | .variable name => l.Passes .ground .outside (mark ++ name)
  | .placeholder id => ∀ text, s.placeholder id = .ok text → l.Passes .ground .outside text
  | .dynamicFilter id _ _ => ∀ rows, s.bindings.rows? id = some rows →
      ∀ row ∈ rows, ∀ text ∈ row, l.Passes .ground .outside text
  | _ => True

namespace Script

open Writing

variable {w : Script} {l : Lexicon} {s : Settled} {u : α → Tree} {k k' : Writer α}
  {hint : Option String}

/-- The hint for tables goes on after any token. -/
def HintPasses (l : Lexicon) (hint : Option String) : Prop :=
  l.Passes .outside .outside (hint.getD "")

theorem hintPasses_none : HintPasses l none := Lexicon.Matches.empty

/-! ### Selects -/

section Selects

variable {q : Select α}

theorem alike_orderClause (rules : w.Lexes l)
    (h : ∀ key ∈ q.orderBy, WrittenAlike l s (k key.expr none) (k' key.expr none))
    (paging : Option PagingClause) :
    FollowsAlike l s (w.orderClause (q.map (partOf u k)) paging)
      (w.orderClause (q.map (partOf u k')) paging) := by
  by_cases unordered : q.orderBy.isEmpty
  · by_cases fetches : paging = some .offsetFetch
    · have written (k : Writer α) : w.orderClause (q.map (partOf u k)) paging =
          (liftM w.spelling.offsetOrdering >>= fun text ↦ pure [.text text]) := by
        simp_all [orderClause, Select.map]
      rw [written, written]
      apply Alike.lift_same
      intro text ht
      exact .pure (.text (rules.spelling.offsetOrdering text ht))
    · have written (k : Writer α) : w.orderClause (q.map (partOf u k)) paging = pure [] := by
        simp_all [orderClause, Select.map]
      rw [written, written]
      exact .none
  · have written (k : Writer α) : w.orderClause (q.map (partOf u k)) paging =
        concat [pure [.text " ORDER BY "], w.ordering (q.orderBy.map (·.map (partOf u k))) none] := by
      simp_all [orderClause, Select.map, concat]
    rw [written, written]
    exact .cons (.text (by rfl)) <| .single (alike_ordering h)

theorem alike_skippedRows (h : ∀ a ∈ q.offset, WrittenAlike l s (k a none) (k' a none)) :
    WrittenAlike l s (skippedRows (q.map (partOf u k))) (skippedRows (q.map (partOf u k'))) := by
  cases ho : q.offset with
  | none =>
    simp only [skippedRows, Select.map, ho]
    exact .text (by rfl)
  | some a =>
    simp only [skippedRows, Select.map, ho]
    exact h a ho

theorem alike_fetchClause (h : ∀ a ∈ q.limit, WrittenAlike l s (k a none) (k' a none)) :
    FollowsAlike l s (fetchClause (q.map (partOf u k))) (fetchClause (q.map (partOf u k'))) := by
  cases hl : q.limit with
  | none =>
    simp only [fetchClause, Select.map, hl]
    exact .none
  | some a =>
    have written (k : Writer α) : fetchClause (q.map (partOf u k)) =
        concat [pure [.text " FETCH NEXT "], k a none, pure [.text " ROWS ONLY"]] := by
      simp [fetchClause, Select.map, partOf, hl, concat]
    rw [written, written]
    exact .cons (.text (by rfl)) <| .cons (h a hl) <| .single (.text (by rfl))

theorem alike_pagingClause (limit : ∀ a ∈ q.limit, WrittenAlike l s (k a none) (k' a none))
    (offset : ∀ a ∈ q.offset, WrittenAlike l s (k a none) (k' a none))
    (paging : Option PagingClause) :
    FollowsAlike l s (pagingClause (q.map (partOf u k)) paging)
      (pagingClause (q.map (partOf u k')) paging) := by
  cases paging with
  | none => exact .none
  | some paging =>
    cases paging with
    | limitOffset => exact (alike_clause (by rfl) limit).append (alike_clause (by rfl) offset)
    | offsetFetch =>
      rw [pagingClause_offsetFetch, pagingClause_offsetFetch]
      exact .cons (.text (by rfl)) <| .cons (alike_skippedRows offset) <| .cons (.text (by rfl)) <|
        .single (alike_fetchClause limit)
    | top => exact .none
    | unsupported => exact .none

theorem alike_topClause (h : ∀ a ∈ q.limit, WrittenAlike l s (k a none) (k' a none))
    (paging : Option PagingClause) :
    Alike l s .ground .ground (topClause (q.map (partOf u k)) paging)
      (topClause (q.map (partOf u k')) paging) := by
  cases hl : q.limit with
  | none =>
    simp only [topClause, Select.map, hl]
    exact .none
  | some a =>
    by_cases top : paging = some .top
    · have written (k : Writer α) : topClause (q.map (partOf u k)) paging =
          concat [pure [.text "TOP ("], k a none, pure [.text ") "]] := by
        simp [topClause, Select.map, partOf, hl, top, concat]
      rw [written, written]
      exact .cons (.text (by rfl)) <| .cons (h a hl) <| .single (.text (by rfl))
    · have written (k : Writer α) : topClause (q.map (partOf u k)) paging = pure [] := by
        simp [topClause, Select.map, hl, top]
      rw [written, written]
      exact .none

theorem alike_columnList (rules : w.Lexes l)
    (h : ∀ c ∈ q.columns, WrittenAlike l s (k c.expr none) (k' c.expr none)) :
    WrittenAlike l s (w.columnList (q.map (partOf u k)))
      (w.columnList (q.blanked.map (partOf u k'))) := by
  by_cases all : q.columns.isEmpty
  · have written : w.columnList (q.map (partOf u k)) = pure [.text "*"] := by
      simp_all [columnList, Select.map]
    have written' : w.columnList (q.blanked.map (partOf u k')) = pure [.text "*"] := by
      simp_all [columnList, Select.map, Select.blanked]
    rw [written, written']
    exact .text (by rfl)
  · have written : w.columnList (q.map (partOf u k)) = separated ", "
        (q.columns.map fun c ↦ w.outputColumn ⟨partOf u k c.expr, c.label⟩) := by
      simp_all [columnList, Select.map, OutputColumn.map, Function.comp_def]
    have written' : w.columnList (q.blanked.map (partOf u k')) = separated ", " (q.columns.map
        fun c ↦ w.outputColumn ⟨partOf u k' c.expr, c.label.map fun _ ↦ ""⟩) := by
      simp_all [columnList, Select.map, Select.blanked, OutputColumn.map, Function.comp_def]
    rw [written, written']
    exact alike_separated (by rfl)
      (forall₂_map fun c hc ↦ alike_outputColumn rules c.label (h c hc))

theorem alike_groupClause (h : ∀ a ∈ q.groupBy, WrittenAlike l s (k a none) (k' a none)) :
    FollowsAlike l s (groupClause (q.map (partOf u k))) (groupClause (q.map (partOf u k'))) := by
  by_cases whole : q.groupBy.isEmpty
  · have written (k : Writer α) : groupClause (q.map (partOf u k)) = pure [] := by
      simp_all [groupClause, Select.map]
    rw [written, written]
    exact .none
  · have written (k : Writer α) : groupClause (q.map (partOf u k)) =
        concat [pure [.text " GROUP BY "], listed (q.groupBy.map (partOf u k)) none] := by
      simp_all [groupClause, Select.map, concat]
    rw [written, written]
    exact .cons (.text (by rfl)) <| .single (alike_listed h)

/-- A hint that passes goes on to pass in a select whose lock passes. -/
theorem hintPasses_tableHint {lock : Option LockClause}
    (hl : ∀ clause ∈ lock, l.Passes .outside .outside clause.text) (h : HintPasses l hint) :
    HintPasses l (tableHint lock hint) := by
  cases lock with
  | none => exact h
  | some clause =>
    cases clause with
    | suffix text => exact h
    | tableHint text => exact hl _ rfl

theorem alike_lockSuffix {lock : Option LockClause}
    (h : ∀ clause ∈ lock, l.Passes .outside .outside clause.text) :
    FollowsAlike l s (pure (lockSuffix lock)) (pure (lockSuffix lock)) := by
  cases lock with
  | none => exact .none
  | some clause =>
    cases clause with
    | suffix text => exact .pure (.text (h _ rfl))
    | tableHint text => exact .none

theorem alike_clauses (rules : w.Lexes l) {lock : Option LockClause}
    (hl : ∀ clause ∈ lock, l.Passes .outside .outside clause.text) (passes : HintPasses l hint)
    (h : ∀ a ∈ q.children, ∀ hint, HintPasses l hint → WrittenAlike l s (k a hint) (k' a hint))
    (paging : Option PagingClause) :
    WrittenAlike l s (w.clauses (q.map (partOf u k)) paging lock hint)
      (w.clauses (q.blanked.map (partOf u k')) paging lock hint) := by
  simp only [Select.children, Select.exprs, List.mem_append, or_imp, forall_and,
    List.forall_mem_map, Option.mem_toList] at h
  obtain ⟨⟨⟨⟨⟨⟨⟨columns, sources⟩, filters⟩, groups⟩, havings⟩, keys⟩, limits⟩, offsets⟩ := h
  have list : WrittenAlike l s (w.columnList (q.map (partOf u k)))
      (w.columnList (q.blanked.map (partOf u k'))) :=
    alike_columnList rules fun c hc ↦ columns c hc none hintPasses_none
  have source : FollowsAlike l s
      (w.source (q.source.map (partOf u k)) (tableHint lock hint))
      (w.source (q.source.map (partOf u k')) (tableHint lock hint)) :=
    alike_source rules fun a ha ↦ sources a ha _ (hintPasses_tableHint hl passes)
  have filter : FollowsAlike l s (clause " WHERE " (q.filter.map (partOf u k)) none)
      (clause " WHERE " (q.filter.map (partOf u k')) none) :=
    alike_clause (by rfl) fun a ha ↦ filters a ha none hintPasses_none
  have group : FollowsAlike l s (groupClause (q.map (partOf u k)))
      (groupClause (q.map (partOf u k'))) :=
    alike_groupClause fun a ha ↦ groups a ha none hintPasses_none
  have having' : FollowsAlike l s (clause " HAVING " (q.having.map (partOf u k)) none)
      (clause " HAVING " (q.having.map (partOf u k')) none) :=
    alike_clause (by rfl) fun a ha ↦ havings a ha none hintPasses_none
  have order : FollowsAlike l s (w.orderClause (q.map (partOf u k)) paging)
      (w.orderClause (q.map (partOf u k')) paging) :=
    alike_orderClause rules (fun key hk ↦ keys key hk none hintPasses_none) paging
  have limited (a : α) (ha : a ∈ q.limit) := limits a ha none hintPasses_none
  have skipped (a : α) (ha : a ∈ q.offset) := offsets a ha none hintPasses_none
  exact .cons (.text (by rfl)) <| .cons (.optional (by rfl)) <|
    .cons (alike_topClause limited paging) <| .cons list <| .cons source <| .cons filter <|
    .cons group <| .cons having' <| .cons order <|
    .cons (alike_pagingClause limited skipped paging) <| .single (alike_lockSuffix hl)

end Selects

/-! ### Nodes -/

theorem passes_parameterName (rules : w.Lexes l) (position : Nat) :
    l.Passes .ground .outside (w.parameterName position) := by
  have calm : ("p" ++ position.repr).toList.all Lexicon.isCalm = true := by
    rw [String.toList_append, List.all_append, Lexicon.repr_isCalm]
    rfl
  rw [parameterName, String.append_assoc]
  exact rules.mark.append (Lexicon.passes_of_isCalm calm)

theorem alike_parameter (rules : w.Lexes l) (p : Parameter) :
    WrittenAlike l s (w.parameter p) (w.parameter p) := by
  intro named
  unfold parameter
  split
  · exact .ok ⟨rfl, .text (passes_parameterName rules _)⟩
  · exact .ok ⟨rfl, .text (passes_parameterName rules _)⟩

theorem alike_functionArg {a : Option α} (h : ∀ b ∈ a, WrittenAlike l s (k b hint) (k' b hint))
    (t : Template) :
    WrittenAlike l s (functionArg hint t (a.map (partOf u k)))
      (functionArg hint t (a.map (partOf u k'))) := by
  cases a with
  | none => exact Alike.none.weaken rfl
  | some b =>
    cases t with
    | call name => exact h b rfl
    | separated operator => exact alike_grouped (h b rfl)
    | pattern text => exact alike_grouped (h b rfl)

theorem alike_function (rules : w.Lexes l) (f : ScalarFunction) {args : List α}
    (h : ∀ a ∈ args, WrittenAlike l s (k a hint) (k' a hint)) :
    WrittenAlike l s (w.node (.function f (args.map (partOf u k))) hint)
      (w.node (.function f (args.map (partOf u k'))) hint) := by
  have written (k : Writer α) : w.node (.function f (args.map (partOf u k))) hint =
      (liftM (w.spelling.functionTemplate f) >>= fun t ↦
        template (t.parts args.length) fun i ↦ functionArg hint t (args[i]?.map (partOf u k))) := by
    simp only [node, List.length_map, List.getElem?_map]
    rfl
  rw [written, written]
  apply Alike.lift_same
  intro t ht
  apply alike_template (Lexicon.leadsParts_of_admits (rules.spelling.function f t ht) _)
  intro i
  exact alike_functionArg (fun a ha ↦ h a (List.mem_of_getElem? ha)) t

theorem alike_binary (rules : w.Lexes l) (op : BinaryOp) {left right : α}
    (hl : WrittenAlike l s (k left hint) (k' left hint))
    (hr : WrittenAlike l s (k right hint) (k' right hint)) :
    WrittenAlike l s (w.node (.binary op (partOf u k left) (partOf u k right)) hint)
      (w.node (.binary op (partOf u k' left) (partOf u k' right)) hint) := by
  apply Alike.lift_same
  intro t ht
  apply alike_template (Lexicon.leadsParts_of_admits (rules.spelling.operator op t ht) _)
  intro i
  split
  · exact alike_operand op false hl
  · exact alike_operand op true hr

theorem alike_aggregate (rules : w.Lexes l) (kind : AggregateKind) (distinct : Bool)
    {operand : Option α} (h : ∀ a ∈ operand, WrittenAlike l s (k a hint) (k' a hint)) :
    WrittenAlike l s (w.node (.aggregate kind distinct (operand.map (partOf u k))) hint)
      (w.node (.aggregate kind distinct (operand.map (partOf u k'))) hint) := by
  apply Alike.lift_same
  intro name hn
  have opens : Alike l s .ground .ground (pure [.text (name ++ "(")])
      (pure [.text (name ++ "(")]) :=
    .pure (.text ((rules.spelling.aggregate kind name hn).append
      (Lexicon.matches_of_leads (by rfl))))
  cases operand with
  | none =>
    have parts : WrittenAlike l s
        (concat [pure [.text (name ++ "(")], pure (if distinct then [.text "DISTINCT "] else []),
          pure [.text "*"], pure [.text ")"]])
        (concat [pure [.text (name ++ "(")], pure (if distinct then [.text "DISTINCT "] else []),
          pure [.text "*"], pure [.text ")"]]) :=
      .cons opens <| .cons (.optional (by rfl)) <| .cons (.text (q := .outside) (by rfl)) <|
        .single (.text (by rfl))
    exact parts.congr (by simp [concat]) (by simp [concat])
  | some a =>
    have parts : WrittenAlike l s
        (concat [pure [.text (name ++ "(")], pure (if distinct then [.text "DISTINCT "] else []),
          k a hint, pure [.text ")"]])
        (concat [pure [.text (name ++ "(")], pure (if distinct then [.text "DISTINCT "] else []),
          k' a hint, pure [.text ")"]]) :=
      .cons opens <| .cons (.optional (by rfl)) <| .cons (h a rfl) <| .single (.text (by rfl))
    exact parts.congr (by simp [concat, partOf]) (by simp [concat, partOf])

theorem alike_case {branches : List (α × α)} {otherwise : Option α}
    (h : ∀ b ∈ branches, WrittenAlike l s (k b.1 hint) (k' b.1 hint) ∧
      WrittenAlike l s (k b.2 hint) (k' b.2 hint))
    (ho : ∀ a ∈ otherwise, WrittenAlike l s (k a hint) (k' a hint)) :
    WrittenAlike l s
      (w.node (.case (branches.map fun b ↦ (partOf u k b.1, partOf u k b.2))
        (otherwise.map (partOf u k))) hint)
      (w.node (.case (branches.map fun b ↦ (partOf u k' b.1, partOf u k' b.2))
        (otherwise.map (partOf u k'))) hint) := by
  let branch (k : Writer α) (b : α × α) : Writing Chain :=
    concat [pure [.text " WHEN "], k b.1 hint, pure [.text " THEN "], k b.2 hint]
  have each (b : α × α) (hb : b ∈ branches) : FollowsAlike l s (branch k b) (branch k' b) :=
    .cons (.text (by rfl)) <| .cons (h b hb).1 <| .cons (.text (by rfl)) <| .single (h b hb).2
  have cases : FollowsAlike l s (concat (branches.map (branch k)))
      (concat (branches.map (branch k'))) := by
    clear h
    induction branches with
    | nil => exact .none
    | cons b branches ih =>
      rw [List.forall_mem_cons] at each
      exact .cons each.1 (ih each.2)
  have last : FollowsAlike l s (clause " ELSE " (otherwise.map (partOf u k)) hint)
      (clause " ELSE " (otherwise.map (partOf u k')) hint) := alike_clause (by rfl) ho
  have written (k : Writer α) :
      w.node (.case (branches.map fun b ↦ (partOf u k b.1, partOf u k b.2))
        (otherwise.map (partOf u k))) hint =
      concat [pure [.text "CASE"], concat (branches.map (branch k)),
        clause " ELSE " (otherwise.map (partOf u k)) hint, pure [.text " END"]] := by
    simp [node, branch, concat, partOf, List.mapM_map, Function.comp_def]
  rw [written, written]
  exact .cons (.text (by rfl)) <| .cons cases <| .cons last <| .single (.text (by rfl))

theorem alike_table (rules : w.Lexes l) (schema : Option String) (name : String)
    (label : Option String) (passes : HintPasses l hint) :
    WrittenAlike l s (w.node (.table schema name label) hint)
      (w.node (.table (schema.map fun _ ↦ "") "" (label.map fun _ ↦ "")) hint) := by
  have table : WrittenAlike l s (w.qualified schema name)
      (w.qualified (schema.map fun _ ↦ "") "") :=
    alike_qualified rules Option.isSome_map.symm name ""
  have hinted : FollowsAlike l s (pure [.text (hint.getD "")]) (pure [.text (hint.getD "")]) :=
    .pure (.text passes)
  cases label with
  | none =>
    have parts := table.append hinted
    exact parts.congr (by simp [node]) (by simp [node])
  | some label =>
    have parts := Alike.cons table <| .cons (alike_aliasClause rules label "") <| .single hinted
    exact parts.congr (by simp [node, concat]) (by simp [node, concat])

theorem alike_joinText (kind : JoinKind) :
    Alike l s .outside .ground (pure [.text (joinText kind)]) (pure [.text (joinText kind)]) := by
  cases kind with
  | inner => exact .text (by rfl)
  | leftOuter => exact .text (by rfl)
  | cross => exact .text (by rfl)

theorem alike_join (kind : JoinKind) {left right : α} {on : Option α}
    (hl : WrittenAlike l s (k left hint) (k' left hint))
    (hr : WrittenAlike l s (k right hint) (k' right hint))
    (h : ∀ a ∈ on, WrittenAlike l s (k a hint) (k' a hint)) :
    WrittenAlike l s
      (w.node (.join kind (partOf u k left) (partOf u k right) (on.map (partOf u k))) hint)
      (w.node (.join kind (partOf u k' left) (partOf u k' right) (on.map (partOf u k'))) hint) := by
  have condition : FollowsAlike l s (clause " ON " (on.map (partOf u k)) hint)
      (clause " ON " (on.map (partOf u k')) hint) := alike_clause (by rfl) h
  have parts := Alike.cons hl <| .cons (alike_joinText kind) <| .cons hr <| .single condition
  exact parts.congr (by simp [node, concat, partOf]) (by simp [node, concat, partOf])

theorem alike_insert (rules : w.Lexes l) {target : α} (columns : List String) {values : List α}
    (ht : WrittenAlike l s (k target hint) (k' target hint))
    (h : ∀ a ∈ values, WrittenAlike l s (k a hint) (k' a hint)) :
    WrittenAlike l s (w.node (.insert (partOf u k target) columns (values.map (partOf u k))) hint)
      (w.node (.insert (partOf u k' target) (columns.map fun _ ↦ "") (values.map (partOf u k')))
        hint) := by
  have names : WrittenAlike l s (separated ", " (columns.map w.identifier))
      (separated ", " ((columns.map fun _ ↦ "").map w.identifier)) := by
    rw [List.map_map]
    exact alike_separated (by rfl) (forall₂_map fun c _ ↦ alike_identifier rules c "")
  let written (k : Writer α) (columns : List String) : Writing Chain :=
    concat [pure [.text "INSERT INTO "], k target hint, pure [.text " ("],
      separated ", " (columns.map w.identifier), pure [.text ") VALUES ("],
      listed (values.map (partOf u k)) hint, pure [.text ")"]]
  have parts : WrittenAlike l s (written k columns) (written k' (columns.map fun _ ↦ "")) :=
    .cons (.text (by rfl)) <| .cons ht <| .cons (.text (by rfl)) <| .cons names <|
      .cons (.text (by rfl)) <| .cons (alike_listed h) <| .single (.text (by rfl))
  exact parts.congr (by simp [node, written, concat, partOf]) (by simp [node, written, concat, partOf])

theorem alike_update (rules : w.Lexes l) {target : α} {assignments : List (String × α)}
    {filter : Option α} (ht : WrittenAlike l s (k target hint) (k' target hint))
    (h : ∀ a ∈ assignments, WrittenAlike l s (k a.2 hint) (k' a.2 hint))
    (hf : ∀ a ∈ filter, WrittenAlike l s (k a hint) (k' a hint)) :
    WrittenAlike l s
      (w.node ((Node.update target assignments filter).map (partOf u k)) hint)
      (w.node ((Node.update target assignments filter).blanked.map (partOf u k')) hint) := by
  have changes : WrittenAlike l s
      (separated ", " (assignments.map fun a ↦ w.assignment (a.1, partOf u k a.2) hint))
      (separated ", " (assignments.map fun a ↦ w.assignment ("", partOf u k' a.2) hint)) :=
    alike_separated (by rfl) (forall₂_map fun a ha ↦ alike_assignment rules a.1 "" (h a ha))
  have filtered : FollowsAlike l s (clause " WHERE " (filter.map (partOf u k)) hint)
      (clause " WHERE " (filter.map (partOf u k')) hint) := alike_clause (by rfl) hf
  let written (k : Writer α) (changes : Writing Chain) : Writing Chain :=
    concat [pure [.text "UPDATE "], k target hint, pure [.text " SET "], changes,
      clause " WHERE " (filter.map (partOf u k)) hint]
  have parts : WrittenAlike l s (written k _) (written k' _) :=
    .cons (.text (by rfl)) <| .cons ht <| .cons (.text (by rfl)) <| .cons changes <|
      .single filtered
  exact parts.congr
    (by simp [node, written, Node.map, concat, partOf, Function.comp_def])
    (by simp [node, written, Node.map, Node.blanked, concat, partOf, Function.comp_def])

theorem alike_placeholder {id : Placeholder}
    (h : ∀ text, s.placeholder id = .ok text → l.Passes .ground .outside text) :
    WrittenAlike l s (pure [.placeholder id]) (pure [.placeholder id]) := by
  apply Alike.pure
  apply Lexicon.Renders.piece
  rw [Settled.renderPiece]
  cases ht : s.placeholder id with
  | error e => exact .error e e
  | ok text => exact .ok (h text ht)

theorem alike_variant (key : VariantKey) {x x' y y' : Writing Chain} (h : WrittenAlike l s x x')
    (h' : WrittenAlike l s y y') :
    WrittenAlike l s
      (do return [.variant key (Chain.normalized (← x)) (Chain.normalized (← y))])
      (do return [.variant key (Chain.normalized (← x')) (Chain.normalized (← y'))]) := by
  intro named
  apply (h named).bind
  rintro ⟨c, named₁⟩ ⟨c', named₂⟩ ⟨same, main⟩
  change named₁ = named₂ at same
  subst same
  apply (h' named₁).bind
  rintro ⟨d, named₃⟩ ⟨d', named₄⟩ ⟨same', alternative⟩
  exact .ok ⟨same', main.variant alternative⟩

/-- Expressions of a dynamic filter, one after the other. -/
def expressions (k : Writer α) (as : List α) (hint : Option String) : Writing (List Chain) :=
  as.mapM fun a ↦ return Chain.normalized (← k a hint)

theorem alike_expressions {as : List α} (h : ∀ a ∈ as, WrittenAlike l s (k a hint) (k' a hint))
    (named : List Parameter) :
    Agree (fun r r' ↦ r.2 = r'.2 ∧ List.Forall₂ (l.Renders s .ground .outside) r.1 r'.1)
      (expressions k as hint named) (expressions k' as hint named) := by
  induction as generalizing named with
  | nil => exact .ok ⟨rfl, .nil⟩
  | cons a as ih =>
    rw [List.forall_mem_cons] at h
    have written (k : Writer α) : expressions k (a :: as) hint = do
        let c ← k a hint
        let cs ← expressions k as hint
        return Chain.normalized c :: cs := by
      simp [expressions]
    rw [written, written]
    apply (h.1 named).bind
    rintro ⟨c, named₁⟩ ⟨c', named₂⟩ ⟨same, first⟩
    change named₁ = named₂ at same
    subst same
    apply (ih h.2 named₁).bind
    rintro ⟨cs, named₃⟩ ⟨cs', named₄⟩ ⟨same', rest⟩
    have normal : l.Renders s .ground .outside (Chain.normalized c) (Chain.normalized c') := by
      unfold Lexicon.Renders
      rw [Settled.renderChain_normalized_eq, Settled.renderChain_normalized_eq]
      exact first
    exact .ok ⟨same', .cons normal rest⟩

theorem alike_dynamicFilter {id : String} {first : α} {others : List α}
    (h : ∀ a ∈ first :: others, WrittenAlike l s (k a hint) (k' a hint))
    (clear : (Node.dynamicFilter id first others).IsClear l s w.mark) :
    WrittenAlike l s
      (w.node (.dynamicFilter id (partOf u k first) (others.map (partOf u k))) hint)
      (w.node (.dynamicFilter id (partOf u k' first) (others.map (partOf u k'))) hint) := by
  have written (k : Writer α) :
      w.node (.dynamicFilter id (partOf u k first) (others.map (partOf u k))) hint = do
        return [.dynamicFilter id (← expressions k (first :: others) hint)] := by
    simp [node, expressions, partOf, List.mapM_map, Function.comp_def]
  rw [written, written]
  intro named
  apply (alike_expressions h named).bind
  rintro ⟨cs, named₁⟩ ⟨cs', named₂⟩ ⟨same, all⟩
  exact .ok ⟨same, .dynamicFilter all clear⟩

/-- The lock of a select does not depend on the aliases of its columns. -/
theorem lock?_blanked (q : Select α) :
    w.lock? (q.blanked.map (partOf u k')) = w.lock? (q.map (partOf u k)) := by
  have lockable : Tree.lockable (.mk 0 (.select ((q.blanked.map (partOf u k')).map (·.1)))) =
      Tree.lockable (.mk 0 (.select ((q.map (partOf u k)).map (·.1)))) := by
    rw [Tree.lockable_mk, Tree.lockable_mk]
    simp [Tree.selectLockable, Select.map, Select.blanked, Select.isGrouped, OutputColumn.map,
      partOf, Function.comp_def]
  simp only [lock?, lockable]
  rfl

theorem alike_select (rules : w.Lexes l) {q : Select α} (passes : HintPasses l hint)
    (h : ∀ a ∈ q.children, ∀ hint, HintPasses l hint → WrittenAlike l s (k a hint) (k' a hint)) :
    WrittenAlike l s (w.node (.select (q.map (partOf u k))) hint)
      (w.node (.select (q.blanked.map (partOf u k'))) hint) := by
  change WrittenAlike l s (w.select _ hint) (w.select _ hint)
  have limited : w.paging? (q.blanked.map (partOf u k')) = w.paging? (q.map (partOf u k)) :=
    paging?_map (partOf u k') (partOf u k)
  rw [select_eq, select_eq, limited, lock?_blanked]
  apply Alike.lift_same
  intro paging _
  apply Alike.lift_same
  intro lock hl
  have clauses (clause : LockClause) (hc : clause ∈ lock) :
      l.Passes .outside .outside clause.text := by
    obtain ⟨-, rfl⟩ | ⟨m, _, -, spelled, rfl⟩ := lock?_cases hl
    · cases hc
    · cases hc
      exact rules.spelling.lock m _ spelled
  exact alike_clauses rules clauses passes h paging

/-- A node and the same node with blank names are written alike if their children are. -/
theorem alike_node (rules : w.Lexes l) {n : Node α} (clear : n.IsClear l s w.mark)
    (passes : HintPasses l hint)
    (h : ∀ a ∈ n.children, ∀ hint, HintPasses l hint → WrittenAlike l s (k a hint) (k' a hint)) :
    WrittenAlike l s (w.node (n.map (partOf u k)) hint)
      (w.node (n.blanked.map (partOf u k')) hint) := by
  have part (a : α) (ha : a ∈ n.children) : WrittenAlike l s (k a hint) (k' a hint) :=
    h a ha hint passes
  cases n with
  | null => exact .text (by rfl)
  | literal value => exact .lift (rules.spelling.literal value) fun _ _ text ↦ .pure (.text text)
  | column qualifier name => exact alike_qualified rules Option.isSome_map.symm name ""
  | «variable» name => exact .pure (.text clear)
  | parameter p => exact alike_parameter rules p
  | placeholder id => exact alike_placeholder clear
  | binary op left right =>
    exact alike_binary rules op (part left (by simp [Node.children]))
      (part right (by simp [Node.children]))
  | unary op operand => exact alike_unary op (part operand (by simp [Node.children]))
  | function f args => exact alike_function rules f part
  | aggregate kind distinct operand =>
    exact alike_aggregate rules kind distinct fun a ha ↦ part a (by simpa [Node.children] using ha)
  | cast operand type =>
    apply Alike.lift_same
    intro name hn
    have closes : FollowsAlike l s (pure [.text (" AS " ++ name ++ ")")])
        (pure [.text (" AS " ++ name ++ ")")]) :=
      .pure (.text (((Lexicon.matches_of_leads (by rfl)).append (rules.types type name hn)).append
        (Lexicon.matches_of_leads (by rfl))))
    have opens : Alike l s .ground .ground (pure [.text "CAST("]) (pure [.text "CAST("]) :=
      .text (by rfl)
    have parts := Alike.cons opens <| .cons (part operand (by simp [Node.children])) <|
      .single closes
    exact parts.congr (by simp [concat, partOf]) (by simp [concat, partOf])
  | case branches otherwise =>
    apply alike_case
    · intro b hb
      exact ⟨part b.1 (Node.mem_children_of_branch hb).1,
        part b.2 (Node.mem_children_of_branch hb).2⟩
    · intro a ha
      exact part a (List.mem_append_right _ (Option.mem_toList.mpr ha))
  | row items => exact alike_enclosed (by rfl) (by rfl) (alike_listed part)
  | dynamicFilter id first others => exact alike_dynamicFilter part clear
  | subquery query =>
    exact alike_enclosed (by rfl) (by rfl) (part query (by simp [Node.children]))
  | «variant» key main alternative =>
    exact alike_variant key (part main (by simp [Node.children]))
      (part alternative (by simp [Node.children]))
  | rowNumber keys => exact alike_rowNumber fun key hk ↦ part _ (List.mem_map_of_mem hk)
  | native text => exact .pure (.text clear)
  | table schema name label => exact alike_table rules schema name label passes
  | queryRef query label =>
    have derived : WrittenAlike l s
        (do return [Piece.text "("] ++ (← k query hint) ++ [Piece.text ")"])
        (do return [Piece.text "("] ++ (← k' query hint) ++ [Piece.text ")"]) :=
      alike_enclosed (by rfl) (by rfl) (part query (by simp [Node.children]))
    have parts := derived.append (alike_aliasClause rules label "")
    exact parts.congr (by simp [node, Node.map, partOf])
      (by simp [node, Node.map, Node.blanked, partOf])
  | join kind left right on =>
    exact alike_join kind (part left (by simp [Node.children]))
      (part right (by simp [Node.children])) fun a ha ↦ part a (by simp_all [Node.children])
  | select q => exact alike_select rules passes h
  | insert target columns values =>
    exact alike_insert rules columns (part target (by simp [Node.children])) fun a ha ↦
      part a (by simp [Node.children, ha])
  | update target assignments filter =>
    exact alike_update rules (part target (by simp [Node.children]))
      (fun a ha ↦ part a.2 (by simp [Node.children, List.mem_map_of_mem ha]))
      fun a ha ↦ part a (by simp_all [Node.children])
  | delete target filter =>
    have filtered : FollowsAlike l s (clause " WHERE " (filter.map (partOf u k)) hint)
        (clause " WHERE " (filter.map (partOf u k')) hint) :=
      alike_clause (by rfl) fun a ha ↦ part a (by simp_all [Node.children])
    have opens : Alike l s .ground .ground (pure [.text "DELETE FROM "])
        (pure [.text "DELETE FROM "]) := .text (by rfl)
    have parts := Alike.cons opens <| .cons (part target (by simp [Node.children])) <|
      .single filtered
    exact parts.congr (by simp [node, Node.map, concat, partOf])
      (by simp [node, Node.map, Node.blanked, concat, partOf])
  | createIndex index => exact alike_createIndex rules index

end Script

end SqlWright
