import SqlWright.Proofs.Spelling.Covering

/-!
# Statements in spellings that cover others

A script that covers another one writes a node as that one does if it does so with the children,
and so by induction every tree. The exceptions are the ones that the rules make: a select may be
limited by FETCH in place of TOP, and a date may be written with arguments that the first script
leaves out.
-/

namespace SqlWright

variable {α : Type}

/-- Arguments of a date after its day, which not every template writes. -/
def Node.timeArgs : Node α → List α
  | .function f args => if f = .dateTimeConstruct then args.drop 3 else []
  | _ => []

/-- What dates of a tree have after their days is as the predicate says. -/
inductive Tree.TimesAre (P : Tree → Prop) : Tree → Prop where
  | mk {i : Nat} {n : Node Tree} (own : ∀ a ∈ n.timeArgs, P a)
      (below : ∀ c ∈ n.children, TimesAre P c) : TimesAre P (.mk i n)

namespace Script

/-- The rows of a select are limited in the same way, or by FETCH in place of TOP. -/
def LimitedAlike (q : Demand) (w' : Script) (s : Select α) (p p' : Option PagingClause) : Prop :=
  p' = p ∨ (¬q.same ∧ ∀ rule, q.lacks rule) ∧ p = some .top ∧ p' = some .offsetFetch ∧
    s.offset = none ∧ ∃ text, w'.spelling.offsetOrdering = .ok text

namespace Covers

open Writing

variable {q : Demand} {surplus : Prop} {w w' : Script} {u : α → Tree} {k k' : Writer α}
  {hint hint' : Option String}

/-! ### Selects -/

section Selects

variable {s : Select α}

theorem copies_skippedRows (h : ∀ a ∈ s.offset, q.Copies (k a none) (k' a none)) :
    q.Copies (skippedRows (s.map (partOf u k))) (skippedRows (s.map (partOf u k'))) := by
  cases ho : s.offset with
  | none =>
    simp only [skippedRows, Select.map, ho]
    exact .fixed _
  | some a =>
    simp only [skippedRows, Select.map, ho]
    exact h a ho

theorem copies_fetchClause (h : ∀ a ∈ s.limit, q.Copies (k a none) (k' a none)) :
    q.Copies (fetchClause (s.map (partOf u k))) (fetchClause (s.map (partOf u k'))) := by
  cases hl : s.limit with
  | none =>
    simp only [fetchClause, Select.map, hl]
    exact .fixed _
  | some a =>
    simp only [fetchClause, Select.map, hl]
    exact copies_enclosed " FETCH NEXT " " ROWS ONLY" (h a hl)

theorem copies_pagingClause (limit : ∀ a ∈ s.limit, q.Copies (k a none) (k' a none))
    (offset : ∀ a ∈ s.offset, q.Copies (k a none) (k' a none)) (paging : Option PagingClause) :
    q.Copies (pagingClause (s.map (partOf u k)) paging)
      (pagingClause (s.map (partOf u k')) paging) := by
  cases paging with
  | none => exact .fixed []
  | some paging =>
    cases paging with
    | limitOffset =>
      exact Demand.Copies.append (copies_clause " LIMIT " limit) (copies_clause " OFFSET " offset)
    | offsetFetch =>
      rw [pagingClause_offsetFetch, pagingClause_offsetFetch]
      apply Demand.Copies.concat
      exact .cons (.fixed _) <| .cons (copies_skippedRows offset) <| .cons (.fixed _) <|
        .cons (copies_fetchClause limit) .nil
    | top => exact .fixed []
    | unsupported => exact .fixed []

theorem copies_topClause (h : ∀ a ∈ s.limit, q.Copies (k a none) (k' a none))
    (paging : Option PagingClause) :
    q.Copies (topClause (s.map (partOf u k)) paging) (topClause (s.map (partOf u k')) paging) := by
  cases hl : s.limit with
  | none =>
    simp only [topClause, Select.map, hl]
    exact .fixed []
  | some a =>
    simp only [topClause, Select.map, hl]
    by_cases top : paging = some .top
    · exact (copies_enclosed "TOP (" ") " (h a hl)).congr (if_pos top) (if_pos top)
    · exact (Demand.Follows.fixed []).congr (if_neg top) (if_neg top)

theorem copies_groupClause (h : ∀ a ∈ s.groupBy, q.Copies (k a none) (k' a none)) :
    q.Copies (groupClause (s.map (partOf u k))) (groupClause (s.map (partOf u k'))) := by
  by_cases whole : s.groupBy.isEmpty
  · have written (k : Writer α) : groupClause (s.map (partOf u k)) = pure [] := by
      simp_all [groupClause, Select.map]
    exact (Demand.Follows.fixed []).congr (written k) (written k')
  · have written (k : Writer α) : groupClause (s.map (partOf u k)) =
        (do return [Piece.text " GROUP BY "] ++ (← listed (s.groupBy.map (partOf u k)) none)) := by
      simp_all [groupClause, Select.map]
    exact ((copies_listed h).bind fun _ _ groups ↦
      .pure ((Demand.Matches.refl _).append groups)).congr (written k) (written k')

/-- A limit that is written by TOP is written by FETCH too. -/
theorem succeeds_fetchClause (differ : ¬q.same)
    (h : ∀ a ∈ s.limit, q.Copies (k a none) (k' a none)) {named : List Parameter}
    {r : Chain × List Parameter}
    (top : topClause (s.map (partOf u k)) (some .top) named = .ok r) :
    Succeeds (fetchClause (s.map (partOf u k'))) := by
  cases hl : s.limit with
  | none =>
    simp only [fetchClause, Select.map, hl]
    exact .pure _
  | some a =>
    simp only [topClause, Select.map, hl] at top
    obtain ⟨c, named', written, -⟩ := bind_ok.mp top
    simp only [fetchClause, Select.map, hl]
    exact ((h a hl).succeeds differ written).bind fun _ ↦ .pure _

variable (c : Covers q surplus w w')
include c

theorem copies_orderClause (h : ∀ key ∈ s.orderBy, q.Copies (k key.expr none) (k' key.expr none))
    (paging : Option PagingClause) :
    q.Copies (w.orderClause (s.map (partOf u k)) paging)
      (w'.orderClause (s.map (partOf u k')) paging) := by
  by_cases unordered : s.orderBy.isEmpty
  · by_cases fetches : paging = some .offsetFetch
    · have written (w : Script) (k : Writer α) : w.orderClause (s.map (partOf u k)) paging =
          (liftM w.spelling.offsetOrdering >>= fun text ↦ pure [.text text]) := by
        simp_all [orderClause, Select.map]
      exact ((Demand.Follows.lift c.offsetOrdering).bind fun _ _ text ↦ .text text).congr
        (written w k) (written w' k')
    · have written (w : Script) (k : Writer α) : w.orderClause (s.map (partOf u k)) paging =
          pure [] := by
        simp_all [orderClause, Select.map]
      exact (Demand.Follows.fixed []).congr (written w k) (written w' k')
  · have written (w : Script) (k : Writer α) : w.orderClause (s.map (partOf u k)) paging =
        (do return [Piece.text " ORDER BY "] ++
          (← w.ordering (s.orderBy.map (·.map (partOf u k))) none)) := by
      simp_all [orderClause, Select.map]
    exact ((c.copies_ordering h).bind fun _ _ order ↦
      .pure ((Demand.Matches.refl _).append order)).congr (written w k) (written w' k')

theorem copies_columnList (h : ∀ x ∈ s.columns, q.Copies (k x.expr none) (k' x.expr none)) :
    q.Copies (w.columnList (s.map (partOf u k))) (w'.columnList (s.map (partOf u k'))) := by
  by_cases all : s.columns.isEmpty
  · have written (w : Script) (k : Writer α) : w.columnList (s.map (partOf u k)) =
        pure [.text "*"] := by
      simp_all [columnList, Select.map]
    exact (Demand.Follows.fixed _).congr (written w k) (written w' k')
  · have written (w : Script) (k : Writer α) : w.columnList (s.map (partOf u k)) =
        separated ", " (s.columns.map fun x ↦ w.outputColumn (x.map (partOf u k))) := by
      simp_all [columnList, Select.map, Function.comp_def]
    exact (Demand.Copies.separated_map ", " fun x hx ↦ c.copies_outputColumn (h x hx)).congr
      (written w k) (written w' k')

/-- Where a select has no offset and its limit is written by TOP, its order is written with
FETCH too. -/
theorem succeeds_orderClause_fetch (differ : ¬q.same)
    (h : ∀ key ∈ s.orderBy, q.Copies (k key.expr none) (k' key.expr none))
    (ordered : ∃ text, w'.spelling.offsetOrdering = .ok text) {named : List Parameter}
    {r : Chain × List Parameter}
    (top : w.orderClause (s.map (partOf u k)) (some .top) named = .ok r) :
    Succeeds (w'.orderClause (s.map (partOf u k')) (some .offsetFetch)) := by
  by_cases unordered : s.orderBy.isEmpty
  · have written : w'.orderClause (s.map (partOf u k')) (some .offsetFetch) =
        (liftM w'.spelling.offsetOrdering >>= fun text ↦ pure [.text text]) := by
      simp_all [orderClause, Select.map]
    rw [written]
    exact (Succeeds.lift ordered).bind fun _ ↦ .pure _
  · have same : w'.orderClause (s.map (partOf u k')) (some .offsetFetch) =
        w'.orderClause (s.map (partOf u k')) (some .top) := by
      simp_all [orderClause, Select.map]
    rw [same]
    exact (c.copies_orderClause h (some .top)).succeeds differ top

omit c in
/-- Tables under a select have the same hint if those around it have. -/
theorem matches_tableHint (lock : Option LockClause) (same : q.Matches hint hint') :
    q.Matches (tableHint lock hint) (tableHint lock hint') := by
  rcases lock with - | - | -
  · exact same
  · exact same
  · exact .refl _

theorem copies_clauses (same : q.Matches hint hint')
    (h : ∀ a ∈ s.children, ∀ hint hint', q.Matches hint hint' → q.Copies (k a hint) (k' a hint'))
    {paging paging' : Option PagingClause} (limited : LimitedAlike q w' s paging paging')
    (lock : Option LockClause) :
    q.Copies (w.clauses (s.map (partOf u k)) paging lock hint)
      (w'.clauses (s.map (partOf u k')) paging' lock hint') := by
  simp only [Select.children, Select.exprs, List.mem_append, or_imp, forall_and,
    List.forall_mem_map, Option.mem_toList] at h
  obtain ⟨⟨⟨⟨⟨⟨⟨columns, sources⟩, filters⟩, groups⟩, havings⟩, keys⟩, limits⟩, offsets⟩ := h
  have list : q.Copies (w.columnList (s.map (partOf u k)))
      (w'.columnList (s.map (partOf u k'))) :=
    c.copies_columnList fun x hx ↦ columns x hx none none (.refl none)
  have source : q.Copies (w.source (s.source.map (partOf u k)) (tableHint lock hint))
      (w'.source (s.source.map (partOf u k')) (tableHint lock hint')) :=
    c.copies_source fun a ha ↦ sources a ha _ _ (matches_tableHint lock same)
  have filter : q.Copies (clause " WHERE " (s.filter.map (partOf u k)) none)
      (clause " WHERE " (s.filter.map (partOf u k')) none) :=
    copies_clause " WHERE " fun a ha ↦ filters a ha none none (.refl none)
  have group : q.Copies (groupClause (s.map (partOf u k))) (groupClause (s.map (partOf u k'))) :=
    copies_groupClause fun a ha ↦ groups a ha none none (.refl none)
  have having' : q.Copies (clause " HAVING " (s.having.map (partOf u k)) none)
      (clause " HAVING " (s.having.map (partOf u k')) none) :=
    copies_clause " HAVING " fun a ha ↦ havings a ha none none (.refl none)
  have key (x : SortKey α) (hx : x ∈ s.orderBy) := keys x hx none none (.refl none)
  have limit (a : α) (ha : a ∈ s.limit) := limits a ha none none (.refl none)
  have offset (a : α) (ha : a ∈ s.offset) := offsets a ha none none (.refl none)
  obtain rfl | ⟨⟨differ, known⟩, rfl, rfl, unskipped, ordered⟩ := limited
  · apply Demand.Copies.concat
    exact .cons (.fixed _) <| .cons (.fixed _) <| .cons (copies_topClause limit _) <|
      .cons list <| .cons source <| .cons filter <| .cons group <| .cons having' <|
      .cons (c.copies_orderClause key _) <| .cons (copies_pagingClause limit offset _) <|
      .cons (.fixed _) .nil
  · refine .of_succeeds differ known fun named r written ↦ ?_
    have each := exists_of_concat_ok written
    simp only [List.forall_mem_cons] at each
    obtain ⟨-, -, ⟨_, _, top⟩, ⟨_, _, hc⟩, ⟨_, _, hs⟩, ⟨_, _, hf⟩, ⟨_, _, hg⟩, ⟨_, _, hh⟩,
      ⟨_, _, ho⟩, -⟩ := each
    have skipped : Succeeds (skippedRows (s.map (partOf u k'))) := by
      simp only [skippedRows, Select.map, unskipped]
      exact .pure _
    have fetched : Succeeds (pagingClause (s.map (partOf u k')) (some .offsetFetch)) := by
      rw [pagingClause_offsetFetch]
      apply Succeeds.concat
      simp only [List.forall_mem_cons, List.not_mem_nil, false_imp_iff, implies_true, and_true]
      exact ⟨.pure _, skipped, .pure _, succeeds_fetchClause differ limit top⟩
    have untopped : Succeeds (topClause (s.map (partOf u k')) (some .offsetFetch)) := by
      cases hl : s.limit <;>
      · simp only [topClause, Select.map, hl]
        exact .pure []
    apply Succeeds.concat
    simp only [List.forall_mem_cons, List.not_mem_nil, false_imp_iff, implies_true, and_true]
    exact ⟨.pure _, .pure _, untopped, list.succeeds differ hc, source.succeeds differ hs,
      filter.succeeds differ hf, group.succeeds differ hg, having'.succeeds differ hh,
      c.succeeds_orderClause_fetch differ key ordered ho, fetched, .pure _⟩

theorem meets_paging? : q.Meets (LimitedAlike q w' s) (w.paging? (s.map (partOf u k)))
    (w'.paging? (s.map (partOf u k'))) := by
  unfold paging?
  by_cases paged : s.isPaged
  · have paged' (k : Writer α) : (s.map (partOf u k)).isPaged = true := by
      simpa [Select.isPaged, Select.map] using paged
    rw [if_pos (paged' k), if_pos (paged' k')]
    refine c.paging.bind fun p p' both ↦ ?_
    obtain rfl | ⟨differ, known, older, rfl, ordered⟩ := both
    · cases p' with
      | unsupported => exact .unsupported
      | top =>
        cases ho : s.offset with
        | none =>
          simp only [Select.map, ho]
          exact .pure (.inl rfl)
        | some a =>
          simp only [Select.map, ho]
          exact .unsupported
      | limitOffset => exact .pure (.inl rfl)
      | offsetFetch => exact .pure (.inl rfl)
    · obtain rfl | rfl := older
      · cases ho : s.offset with
        | none =>
          simp only [Select.map, ho]
          exact .pure (.inr ⟨⟨differ, known⟩, rfl, rfl, ho, ordered⟩)
        | some a =>
          simp only [Select.map, ho]
          exact .unsupported
      · exact .unsupported
  · have unpaged (k : Writer α) : ¬(s.map (partOf u k)).isPaged = true := by
      simpa [Select.isPaged, Select.map] using paged
    rw [if_neg (unpaged k), if_neg (unpaged k')]
    exact .pure (.inl rfl)

theorem meets_lock? : q.Meets (fun l l' ↦ l' = l) (w.lock? (s.map (partOf u k)))
    (w'.lock? (s.map (partOf u k'))) := by
  have looks (k : Writer α) :
      Node.select ((s.map (partOf u k)).map (·.1)) = (Node.select s).map u := by
    change ((Node.select s).map (partOf u k)).map (·.1) = _
    rw [Node.map_map]
    rfl
  simp only [lock?, looks]
  cases hl : s.lock with
  | none =>
    simp only [Select.map, hl]
    exact .pure rfl
  | some m =>
    simp only [Select.map, hl]
    refine (c.lock m).bind fun clause clause' same ↦ ?_
    subst same
    cases clause' with
    | suffix text =>
      by_cases locks : Tree.lockable (.mk 0 ((Node.select s).map u))
      · simp only [locks, if_true]
        exact .pure rfl
      · simp only [locks, Bool.false_eq_true, if_false]
        exact .unsupported
    | tableHint text => exact .pure rfl

theorem copies_select (same : q.Matches hint hint')
    (h : ∀ a ∈ s.children, ∀ hint hint', q.Matches hint hint' →
      q.Copies (k a hint) (k' a hint')) :
    q.Copies (w.select (s.map (partOf u k)) hint) (w'.select (s.map (partOf u k')) hint') := by
  rw [select_eq, select_eq]
  refine (Demand.Follows.lift c.meets_paging?).bind fun paging paging' limited ↦ ?_
  refine (Demand.Follows.lift c.meets_lock?).bind fun lock lock' equal ↦ ?_
  subst equal
  exact c.copies_clauses same h limited lock'

end Selects

/-! ### Nodes -/

section Nodes

theorem copies_functionArg {a : Option α} (h : ∀ b ∈ a, q.Copies (k b hint) (k' b hint'))
    (t : Template) :
    q.Copies (functionArg hint t (a.map (partOf u k)))
      (functionArg hint' t (a.map (partOf u k'))) := by
  cases a with
  | none => exact .fixed []
  | some b =>
    cases t with
    | call name => exact h b rfl
    | separated operator => exact copies_grouped (h b rfl)
    | pattern text => exact copies_grouped (h b rfl)

/-- An argument that a template writes is written by itself. -/
theorem exists_of_functionArg_ok {a : α} {t : Template} {named : List Parameter}
    {r : Chain × List Parameter} (h : functionArg hint t (some (partOf u k a)) named = .ok r) :
    ∃ named r, k a hint named = .ok r := by
  have opened (h : grouped (partOf u k a) hint named = .ok r) :
      ∃ named r, k a hint named = .ok r := by
    by_cases binary : (u a).binaryOp?.isSome
    · rw [show grouped (partOf u k a) hint = _ from if_pos binary] at h
      obtain ⟨_, _, inner, -⟩ := bind_ok.mp h
      exact ⟨_, _, inner⟩
    · rw [show grouped (partOf u k a) hint = _ from if_neg binary] at h
      exact ⟨_, _, h⟩
  cases t with
  | call name => exact ⟨_, _, h⟩
  | separated operator => exact opened h
  | pattern text => exact opened h

/-- An argument that can be written can be written by every template. -/
theorem succeeds_functionArg {a : Option α} (h : ∀ b ∈ a, ∀ hint, Succeeds (k b hint))
    (t : Template) : Succeeds (functionArg hint t (a.map (partOf u k))) := by
  cases a with
  | none => exact .pure []
  | some b =>
    cases t with
    | call name => exact h b rfl hint
    | separated operator => exact succeeds_grouped (h b rfl) hint
    | pattern text => exact succeeds_grouped (h b rfl) hint

variable (c : Covers q surplus w w')
include c

theorem copies_function (f : ScalarFunction) {args : List α} (same : q.Matches hint hint')
    (h : ∀ a ∈ args, ∀ hint hint', q.Matches hint hint' → q.Copies (k a hint) (k' a hint'))
    (times : surplus → ∀ a ∈ (Node.function f args).timeArgs, ∀ hint, Succeeds (k' a hint)) :
    q.Copies (w.node (.function f (args.map (partOf u k))) hint)
      (w'.node (.function f (args.map (partOf u k'))) hint') := by
  have written (w : Script) (k : Writer α) (hint : Option String) :
      w.node (.function f (args.map (partOf u k))) hint =
        (liftM (w.spelling.functionTemplate f) >>= fun t ↦
          template (t.parts args.length) fun i ↦
            functionArg hint t (args[i]?.map (partOf u k))) := by
    simp only [node, List.length_map, List.getElem?_map]
    rfl
  rw [written, written]
  refine (Demand.Follows.lift (c.function f)).bind fun t t' both ↦ ?_
  obtain rfl | ⟨differ, known, mentions⟩ := both
  · exact copies_template _ fun i ↦ copies_functionArg
      (fun a ha ↦ h a (List.mem_of_getElem? ha) hint hint' same) t'
  · refine Demand.Copies.of_succeeds differ known fun named r ok ↦ ?_
    rw [template_eq] at ok ⊢
    have each := exists_of_concat_ok ok
    rw [List.forall_mem_map] at each
    apply Succeeds.concat
    rw [List.forall_mem_map]
    intro part mem
    cases part with
    | text s => exact .pure _
    | arg i =>
      refine succeeds_functionArg (fun a ha after ↦ ?_) t'
      have present := List.mem_of_getElem? ha
      obtain old | ⟨more, rfl, late⟩ := mentions args.length i mem
      · obtain ⟨_, _, first⟩ := each _ old
        rw [templatePart, Option.mem_def.mp ha] at first
        obtain ⟨_, _, first⟩ := exists_of_functionArg_ok first
        exact (h a present hint after fun equal ↦ absurd equal differ).succeeds differ first
      · refine times more a ?_ after
        rw [Node.timeArgs, if_pos rfl]
        exact List.mem_of_getElem? (i := i - 3) (by rw [List.getElem?_drop]; simpa [late] using ha)

theorem copies_binary (op : BinaryOp) {left right : α}
    (hl : q.Copies (k left hint) (k' left hint')) (hr : q.Copies (k right hint) (k' right hint')) :
    q.Copies (w.node (.binary op (partOf u k left) (partOf u k right)) hint)
      (w'.node (.binary op (partOf u k' left) (partOf u k' right)) hint') := by
  refine (Demand.Follows.lift (c.operator op)).bind fun t t' equal ↦ ?_
  subst equal
  refine copies_template _ fun i ↦ ?_
  split
  · exact copies_operand op false hl
  · exact copies_operand op true hr

theorem copies_aggregate (kind : AggregateKind) (distinct : Bool) {operand : Option α}
    (h : ∀ a ∈ operand, q.Copies (k a hint) (k' a hint')) :
    q.Copies (w.node (.aggregate kind distinct (operand.map (partOf u k))) hint)
      (w'.node (.aggregate kind distinct (operand.map (partOf u k'))) hint') := by
  refine (Demand.Follows.lift (c.aggregate kind)).bind fun name name' equal ↦ ?_
  have opens : q.Matches [Piece.text (name ++ "(")] [Piece.text (name' ++ "(")] :=
    equal.map fun name ↦ [Piece.text (name ++ "(")]
  cases operand with
  | none => exact .pure (((opens.append (.refl _)).append (.refl _)).append (.refl _))
  | some a =>
    exact (h a rfl).bind fun _ _ arg ↦
      .pure (((opens.append (.refl _)).append arg).append (.refl _))

theorem copies_cast {a : α} (type : SqlType) (h : q.Copies (k a hint) (k' a hint')) :
    q.Copies (w.node (.cast (partOf u k a) type) hint)
      (w'.node (.cast (partOf u k' a) type) hint') :=
  (Demand.Follows.lift (c.type type)).bind fun _ _ name ↦ h.bind fun _ _ inner ↦
    .pure (((Demand.Matches.refl _).append inner).append
      (name.map fun name ↦ [Piece.text (" AS " ++ name ++ ")")]))

omit c in
theorem copies_case {branches : List (α × α)} {otherwise : Option α}
    (h : ∀ b ∈ branches, q.Copies (k b.1 hint) (k' b.1 hint') ∧
      q.Copies (k b.2 hint) (k' b.2 hint'))
    (ho : ∀ a ∈ otherwise, q.Copies (k a hint) (k' a hint')) :
    q.Copies
      (w.node (.case (branches.map fun b ↦ (partOf u k b.1, partOf u k b.2))
        (otherwise.map (partOf u k))) hint)
      (w'.node (.case (branches.map fun b ↦ (partOf u k' b.1, partOf u k' b.2))
        (otherwise.map (partOf u k'))) hint') := by
  let branch (k : Writer α) (hint : Option String) (b : α × α) : Writing Chain := do
    return [Piece.text " WHEN "] ++ (← k b.1 hint) ++ [Piece.text " THEN "] ++ (← k b.2 hint)
  have each (b : α × α) (hb : b ∈ branches) : q.Copies (branch k hint b) (branch k' hint' b) :=
    (h b hb).1.bind fun _ _ condition ↦ (h b hb).2.bind fun _ _ value ↦
      .pure ((((Demand.Matches.refl _).append condition).append (.refl _)).append value)
  have written (w : Script) (k : Writer α) (hint : Option String) :
      w.node (.case (branches.map fun b ↦ (partOf u k b.1, partOf u k b.2))
        (otherwise.map (partOf u k))) hint = (do
      let cases ← branches.mapM (branch k hint)
      return [Piece.text "CASE"] ++ cases.flatten ++
        (← clause " ELSE " (otherwise.map (partOf u k)) hint) ++ [Piece.text " END"]) := by
    rw [node, List.mapM_map]
    rfl
  rw [written, written]
  refine (Demand.Follows.mapM each).bind fun _ _ cases ↦
    (copies_clause " ELSE " ho).bind fun _ _ last ↦ ?_
  exact .pure ((((Demand.Matches.refl _).append
    ((Demand.matches_of_forall₂ cases).map List.flatten)).append last).append (.refl _))

omit c in
theorem copies_variant (key : VariantKey) {x x' y y' : Writing Chain} (h : q.Copies x x')
    (h' : q.Copies y y') :
    q.Copies (do return [.variant key (Chain.normalized (← x)) (Chain.normalized (← y))])
      (do return [.variant key (Chain.normalized (← x')) (Chain.normalized (← y'))]) :=
  h.bind fun _ _ main ↦ h'.bind fun _ _ alternative ↦ .pure fun same ↦ by
    rw [main same, alternative same]

omit c in
theorem copies_dynamicFilter (id : String) {first : α} {others : List α}
    (h : ∀ a ∈ first :: others, q.Copies (k a hint) (k' a hint')) :
    q.Copies (w.node (.dynamicFilter id (partOf u k first) (others.map (partOf u k))) hint)
      (w'.node (.dynamicFilter id (partOf u k' first) (others.map (partOf u k'))) hint') := by
  let expression (k : Writer α) (hint : Option String) (a : α) : Writing Chain := do
    return Chain.normalized (← k a hint)
  have each (a : α) (ha : a ∈ first :: others) :
      q.Copies (expression k hint a) (expression k' hint' a) :=
    (h a ha).bind fun _ _ inner ↦ .pure (inner.map Chain.normalized)
  have written (w : Script) (k : Writer α) (hint : Option String) :
      w.node (.dynamicFilter id (partOf u k first) (others.map (partOf u k))) hint = (do
        return [.dynamicFilter id (← (first :: others).mapM (expression k hint))]) := by
    rw [node, ← List.map_cons, List.mapM_map]
    rfl
  rw [written, written]
  exact (Demand.Follows.mapM each).bind fun _ _ all ↦
    .pure ((Demand.matches_of_forall₂ all).map fun all ↦ [Piece.dynamicFilter id all])

theorem copies_table (schema : Option String) (name : String) (label : Option String)
    (same : q.Matches hint hint') :
    q.Copies (w.node (.table schema name label) hint)
      (w'.node (.table schema name label) hint') := by
  have hinted : q.Matches [Piece.text (hint.getD "")] [Piece.text (hint'.getD "")] :=
    same.map fun hint ↦ [Piece.text (hint.getD "")]
  refine (c.copies_qualified schema name).bind fun _ _ table ↦ ?_
  cases label with
  | none => exact .pure ((table.append (.refl [])).append hinted)
  | some label =>
    exact (c.copies_aliasClause label).bind fun _ _ quoted ↦
      .pure ((table.append quoted).append hinted)

theorem copies_queryRef {a : α} (label : String) (h : q.Copies (k a hint) (k' a hint')) :
    q.Copies (w.node (.queryRef (partOf u k a) label) hint)
      (w'.node (.queryRef (partOf u k' a) label) hint') :=
  h.bind fun _ _ inner ↦ (c.copies_aliasClause label).bind fun _ _ quoted ↦
    .pure ((((Demand.Matches.refl _).append inner).append (.refl _)).append quoted)

omit c in
theorem copies_join (kind : JoinKind) {left right : α} {on : Option α}
    (hl : q.Copies (k left hint) (k' left hint')) (hr : q.Copies (k right hint) (k' right hint'))
    (h : ∀ a ∈ on, q.Copies (k a hint) (k' a hint')) :
    q.Copies
      (w.node (.join kind (partOf u k left) (partOf u k right) (on.map (partOf u k))) hint)
      (w'.node (.join kind (partOf u k' left) (partOf u k' right) (on.map (partOf u k'))) hint') :=
  hl.bind fun _ _ before ↦ hr.bind fun _ _ after ↦
    (copies_clause " ON " h).bind fun _ _ condition ↦
    .pure (((before.append (.refl _)).append after).append condition)

theorem copies_insert {target : α} (columns : List String) {values : List α}
    (ht : q.Copies (k target hint) (k' target hint'))
    (h : ∀ a ∈ values, q.Copies (k a hint) (k' a hint')) :
    q.Copies (w.node (.insert (partOf u k target) columns (values.map (partOf u k))) hint)
      (w'.node (.insert (partOf u k' target) columns (values.map (partOf u k'))) hint') := by
  have names : q.Copies (separated ", " (columns.map w.identifier))
      (separated ", " (columns.map w'.identifier)) :=
    Demand.Copies.separated_map ", " fun name _ ↦ c.copies_identifier name
  exact ht.bind fun _ _ table ↦ names.bind fun _ _ names ↦ (copies_listed h).bind fun _ _ row ↦
    .pure (((((((Demand.Matches.refl _).append table).append (.refl _)).append names).append
      (.refl _)).append row).append (.refl _))

theorem copies_update {target : α} {assignments : List (String × α)} {filter : Option α}
    (ht : q.Copies (k target hint) (k' target hint'))
    (h : ∀ x ∈ assignments, q.Copies (k x.2 hint) (k' x.2 hint'))
    (hf : ∀ a ∈ filter, q.Copies (k a hint) (k' a hint')) :
    q.Copies (w.node ((Node.update target assignments filter).map (partOf u k)) hint)
      (w'.node ((Node.update target assignments filter).map (partOf u k')) hint') := by
  have written (w : Script) (k : Writer α) (hint : Option String) :
      w.node ((Node.update target assignments filter).map (partOf u k)) hint = (do
        let target ← k target hint
        let changes ← separated ", " (assignments.map fun x ↦
          w.assignment (x.1, partOf u k x.2) hint)
        return [Piece.text "UPDATE "] ++ target ++ [Piece.text " SET "] ++ changes ++
          (← clause " WHERE " (filter.map (partOf u k)) hint)) := by
    rw [Node.map, node, List.map_map]
    rfl
  have changes : q.Copies
      (separated ", " (assignments.map fun x ↦ w.assignment (x.1, partOf u k x.2) hint))
      (separated ", " (assignments.map fun x ↦ w'.assignment (x.1, partOf u k' x.2) hint')) :=
    Demand.Copies.separated_map ", " fun x hx ↦ c.copies_assignment x.1 (h x hx)
  rw [written, written]
  exact ht.bind fun _ _ table ↦ changes.bind fun _ _ changes ↦
    (copies_clause " WHERE " hf).bind fun _ _ filtered ↦
    .pure (((((Demand.Matches.refl _).append table).append (.refl _)).append changes).append
      filtered)

/-- A node is written in place of the same node of the first script if its children are. -/
theorem copies_node {n : Node α} (same : q.Matches hint hint')
    (h : ∀ a ∈ n.children, ∀ hint hint', q.Matches hint hint' → q.Copies (k a hint) (k' a hint'))
    (times : surplus → ∀ a ∈ n.timeArgs, ∀ hint, Succeeds (k' a hint)) :
    q.Copies (w.node (n.map (partOf u k)) hint) (w'.node (n.map (partOf u k')) hint') := by
  have part (a : α) (ha : a ∈ n.children) : q.Copies (k a hint) (k' a hint') :=
    h a ha hint hint' same
  cases n with
  | null => exact .fixed _
  | literal value =>
    exact (Demand.Follows.lift (c.literal value)).bind fun _ _ text ↦ .text text
  | column qualifier name => exact c.copies_qualified qualifier name
  | «variable» name => exact .text (c.mark.map (· ++ name))
  | parameter p => exact c.copies_parameter p
  | placeholder id => exact .fixed _
  | binary op left right =>
    exact c.copies_binary op (part left (by simp [Node.children]))
      (part right (by simp [Node.children]))
  | unary op operand => exact copies_unary op (part operand (by simp [Node.children]))
  | function f args => exact c.copies_function f same h times
  | aggregate kind distinct operand =>
    exact c.copies_aggregate kind distinct fun a ha ↦ part a (by simpa [Node.children] using ha)
  | cast operand type => exact c.copies_cast type (part operand (by simp [Node.children]))
  | case branches otherwise =>
    apply copies_case
    · intro b hb
      exact ⟨part b.1 (Node.mem_children_of_branch hb).1,
        part b.2 (Node.mem_children_of_branch hb).2⟩
    · intro a ha
      exact part a (List.mem_append_right _ (Option.mem_toList.mpr ha))
  | row items => exact copies_enclosed "(" ")" (copies_listed part)
  | dynamicFilter id first others => exact copies_dynamicFilter id part
  | subquery query => exact copies_enclosed "(" ")" (part query (by simp [Node.children]))
  | «variant» key main alternative =>
    exact copies_variant key (part main (by simp [Node.children]))
      (part alternative (by simp [Node.children]))
  | rowNumber keys => exact c.copies_rowNumber fun key hk ↦ part _ (List.mem_map_of_mem hk)
  | native text => exact .fixed _
  | table schema name label => exact c.copies_table schema name label same
  | queryRef query label => exact c.copies_queryRef label (part query (by simp [Node.children]))
  | join kind left right on =>
    exact copies_join kind (part left (by simp [Node.children]))
      (part right (by simp [Node.children])) fun a ha ↦ part a (by simp_all [Node.children])
  | select s => exact c.copies_select same h
  | insert target columns values =>
    exact c.copies_insert columns (part target (by simp [Node.children])) fun a ha ↦
      part a (by simp [Node.children, ha])
  | update target assignments filter =>
    exact c.copies_update (part target (by simp [Node.children]))
      (fun x hx ↦ part x.2 (by simp [Node.children, List.mem_map_of_mem hx]))
      fun a ha ↦ part a (by simp_all [Node.children])
  | delete target filter =>
    have filtered : q.Copies (clause " WHERE " (filter.map (partOf u k)) hint)
        (clause " WHERE " (filter.map (partOf u k')) hint') :=
      copies_clause " WHERE " fun a ha ↦ part a (by simp_all [Node.children])
    exact (part target (by simp [Node.children])).bind fun _ _ table ↦
      filtered.bind fun _ _ filtered ↦
      .pure (((Demand.Matches.refl _).append table).append filtered)
  | createIndex index => exact c.copies_createIndex index

end Nodes

/-! ### Trees -/

/-- A tree is written in place of what the first script writes, under a hint of its own if the
texts may differ. Arguments that only the second script writes have to be writable. -/
theorem copies_tree (c : Covers q surplus w w') {t : Tree}
    (times : surplus → t.TimesAre fun a ↦ ∀ hint, Succeeds (w'.tree a hint))
    (same : q.Matches hint hint') : q.Copies (w.tree t hint) (w'.tree t hint') := by
  induction t using Tree.induction_children generalizing hint hint' with
  | h i n ih =>
    rw [tree_mk, tree_mk]
    refine c.copies_node same (fun a ha hint hint' same ↦ ih a ha (fun more ↦ ?_) same) fun more ↦ ?_
    · cases times more with
      | mk own below => exact below a ha
    · cases times more with
      | mk own below => exact own

end Covers

end Script

/-- A spelling gives a command in place of what the first one gives if its scripts cover those of
the first. -/
theorem Tree.meets_command {q : Demand} {surplus : Prop} {s s' : Spelling} {types types' : TypeNames}
    (mark : q.Meets q.Matches s.parameterMark s'.parameterMark)
    (covers : ∀ mark mark', q.Matches mark mark' →
      Script.Covers q surplus ⟨s, types, mark⟩ ⟨s', types', mark'⟩) {t : Tree}
    (times : ∀ mark', surplus → t.TimesAre fun a ↦
      ∀ hint, Writing.Succeeds (Script.tree ⟨s', types', mark'⟩ a hint)) :
    q.Meets q.Matches (t.command s types) (t.command s' types') := by
  refine mark.bind fun mark mark' marked ↦ ?_
  have written := (covers mark mark' marked).copies_tree (times mark') (.refl none)
  refine (written [] [] (.refl [])).bind ?_
  rintro ⟨chain, parameters⟩ ⟨chain', parameters'⟩ ⟨chains, named⟩
  refine .pure fun same ↦ ?_
  have equal : chain' = chain := chains same
  have listed : parameters' = parameters := named same
  rw [equal, listed, marked same]
  rfl

end SqlWright
