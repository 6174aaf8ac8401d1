import SqlWright.Proofs.Command.ItemizedNodes

/-!
# Statements with other nodes

The shape of an operand decides whether it gets parentheses, and the shape of a select whether
its rows can be locked. Beyond that a node is written alike whatever its children look like.
-/

namespace SqlWright

variable {α : Type}

namespace Tree

/-- Statement with each node replaced, from the bottom up. -/
def rewritten (f : Node Tree → Tree) (t : Tree) : Tree := t.fold fun n ↦ f (n.map (·.2))

theorem rewritten_mk (f : Node Tree → Tree) (i : Nat) (n : Node Tree) :
    (mk i n).rewritten f = f (n.map (rewritten f)) := by
  rw [rewritten, fold_mk, Node.map_map]
  rfl

end Tree

/-- The operator would take the expression apart on that side. -/
def BinaryOp.takesApart (op : BinaryOp) (isRight : Bool) (t : Tree) : Bool :=
  t.binaryOp?.any fun child ↦ op.separates child isRight

/-- Two looks of the children of a node put the same of them in parentheses. -/
def Node.GroupsAlike (spelling : Spelling) (u v : α → Tree) : Node α → Prop
  | .binary op left right =>
    op.takesApart false (u left) = op.takesApart false (v left) ∧
      op.takesApart true (u right) = op.takesApart true (v right)
  | .unary .isNull a | .unary .isNotNull a => (u a).binaryOp?.isSome = (v a).binaryOp?.isSome
  | .function f args =>
    (∃ name, spelling.functionTemplate f = .ok (.call name)) ∨
      ∀ a ∈ args, (u a).binaryOp?.isSome = (v a).binaryOp?.isSome
  | _ => True

namespace Script

variable {w : Script} {u v : α → Tree} {k : Writer α}

theorem tree_mk (i : Nat) (n : Node Tree) (hint : Option String) :
    w.tree (.mk i n) hint = w.node (n.map (partOf id w.tree)) hint := by
  rw [tree, Tree.fold_mk]
  rfl

theorem tree_mk_map (i : Nat) (n : Node α) (f : α → Tree) (hint : Option String) :
    w.tree (.mk i (n.map f)) hint = w.node (n.map (partOf f fun a ↦ w.tree (f a))) hint := by
  rw [tree_mk, Node.map_map]
  rfl

theorem grouped_congr {a : α} (h : (u a).binaryOp?.isSome = (v a).binaryOp?.isSome)
    (hint : Option String) : grouped (partOf u k a) hint = grouped (partOf v k a) hint := by
  simp [grouped, partOf, h]

theorem operand_congr {op : BinaryOp} {isRight : Bool} {a : α}
    (h : op.takesApart isRight (u a) = op.takesApart isRight (v a)) (hint : Option String) :
    operand op isRight (partOf u k a) hint = operand op isRight (partOf v k a) hint := by
  have written (u : α → Tree) : operand op isRight (partOf u k a) hint =
      if op.takesApart isRight (u a) then
        (do return [Piece.text "("] ++ (← k a hint) ++ [Piece.text ")"]) else k a hint := by
    cases hb : (u a).binaryOp? <;> simp [operand, grouped, partOf, BinaryOp.takesApart, hb]
  rw [written, written, h]

theorem function_congr {f : ScalarFunction} {args : List α}
    (h : (Node.function f args).GroupsAlike w.spelling u v) (hint : Option String) :
    w.node (.function f (args.map (partOf u k))) hint =
      w.node (.function f (args.map (partOf v k))) hint := by
  cases ht : w.spelling.functionTemplate f with
  | error e =>
    simp only [node, ht]
    rfl
  | ok t =>
    have lift (g : Template → Writing Chain) :
        (liftM (Except.ok t : Except Error Template) : Writing Template) >>= g = g t := rfl
    simp only [node, ht, lift, List.length_map]
    congr 1
    funext i
    cases ha : args[i]? with
    | none => simp [ha]
    | some a =>
      obtain ⟨name, called⟩ | same := h
      · rw [called] at ht
        cases ht
        simp [ha, partOf]
      · have := grouped_congr (k := k) (same a (List.mem_of_getElem? ha)) hint
        cases t with
        | call name => simp [ha, partOf]
        | _ => simp [ha, this]

section Looks

variable (u v) (k : Writer α)

/-! ### What looks alike whatever the children look like -/

theorem listed_congr (as : List α) (hint : Option String) :
    listed (as.map (partOf u k)) hint = listed (as.map (partOf v k)) hint := by
  simp [listed, partOf, Function.comp_def]

theorem clause_congr (text : String) (a? : Option α) (hint : Option String) :
    clause text (a?.map (partOf u k)) hint = clause text (a?.map (partOf v k)) hint := by
  cases a? <;> rfl

theorem ordering_congr (keys : List (SortKey α)) (hint : Option String) :
    w.ordering (keys.map (·.map (partOf u k))) hint =
      w.ordering (keys.map (·.map (partOf v k))) hint := by
  simp [ordering, SortKey.map, partOf, Function.comp_def]

theorem source_congr (a? : Option α) (hint : Option String) :
    w.source (a?.map (partOf u k)) hint = w.source (a?.map (partOf v k)) hint := by
  cases a? <;> rfl

theorem pagingClause_congr (s : Select α) (paging : Option PagingClause) :
    pagingClause (s.map (partOf u k)) paging = pagingClause (s.map (partOf v k)) paging := by
  cases hl : s.limit <;> cases ho : s.offset <;> rcases paging with - | - | - | - | - <;>
    simp [pagingClause, Select.map, clause, partOf, hl, ho]

theorem topClause_congr (s : Select α) (paging : Option PagingClause) :
    topClause (s.map (partOf u k)) paging = topClause (s.map (partOf v k)) paging := by
  cases hl : s.limit <;> simp [topClause, Select.map, partOf, hl]

theorem clauses_congr (s : Select α) (paging : Option PagingClause) (lock : Option LockClause)
    (hint : Option String) :
    w.clauses (s.map (partOf u k)) paging lock hint =
      w.clauses (s.map (partOf v k)) paging lock hint := by
  have columns : w.columnList (s.map (partOf u k)) = w.columnList (s.map (partOf v k)) := by
    simp [columnList, Select.map, OutputColumn.map, outputColumn, partOf, Function.comp_def]
  have groups : groupClause (s.map (partOf u k)) = groupClause (s.map (partOf v k)) := by
    simp only [groupClause, Select.map, listed_congr u v, List.isEmpty_map]
  have order : w.orderClause (s.map (partOf u k)) paging =
      w.orderClause (s.map (partOf v k)) paging := by
    simp only [orderClause, Select.map, ordering_congr u v, List.isEmpty_map]
  have source : w.source (s.map (partOf u k)).source (tableHint lock hint) =
      w.source (s.map (partOf v k)).source (tableHint lock hint) := source_congr u v k _ _
  have filter : clause " WHERE " (s.map (partOf u k)).filter none =
      clause " WHERE " (s.map (partOf v k)).filter none := clause_congr u v k _ _ _
  have having' : clause " HAVING " (s.map (partOf u k)).having none =
      clause " HAVING " (s.map (partOf v k)).having none := clause_congr u v k _ _ _
  simp only [clauses, columns, groups, order, source, filter, having', topClause_congr u v,
    pagingClause_congr u v]
  rfl

end Looks

/-- How a node is written depends on what its children look like only through their parentheses
and through the lock of a select. -/
theorem node_congr {n : Node α} (h : n.GroupsAlike w.spelling u v)
    (locks : ∀ s, n = .select s → w.lock? (s.map (partOf u k)) = w.lock? (s.map (partOf v k)))
    (hint : Option String) :
    w.node (n.map (partOf u k)) hint = w.node (n.map (partOf v k)) hint := by
  cases n with
  | binary op left right => simp only [node, Node.map, operand_congr h.1, operand_congr h.2]
  | unary op a =>
    cases op with
    | isNull | isNotNull =>
      have : grouped (partOf u k a) hint = grouped (partOf v k a) hint := grouped_congr h hint
      simp only [node, Node.map, unary, this]
    | negation | negate | existence => rfl
  | function f args => exact function_congr h hint
  | select s =>
    simp only [node, Node.map, select_eq, locks s rfl, paging?_map (partOf u k) (partOf v k),
      clauses_congr u v]
  | aggregate kind distinct operand => cases operand <;> rfl
  | case branches otherwise =>
    simp only [node, Node.map, clause_congr u v, List.mapM_map]
    rfl
  | row items => simp only [node, Node.map, listed_congr u v]
  | insert target columns values =>
    simp only [node, Node.map, listed_congr u v]
    rfl
  | dynamicFilter id first others =>
    simp only [node, Node.map, List.mapM_cons, List.mapM_map]
    rfl
  | rowNumber keys =>
    simp only [node, Node.map, rowNumber, ordering_congr u v, List.isEmpty_map]
  | join kind left right on | delete left on =>
    simp only [node, Node.map, clause_congr u v]
    rfl
  | update target assignments filter =>
    simp only [node, Node.map, clause_congr u v, List.map_map]
    rfl
  | _ => rfl

end Script

/-! ### Statements with other leaves -/

theorem Node.label_cases (n : Node α) : (∃ p, n = .parameter p) ∨ (∃ id, n = .placeholder id) ∨
    (∀ p, n ≠ .parameter p) ∧ ∀ id, n ≠ .placeholder id := by
  cases n with
  | parameter p => exact .inl ⟨p, rfl⟩
  | placeholder id => exact .inr (.inl ⟨id, rfl⟩)
  | _ => exact .inr (.inr ⟨nofun, nofun⟩)

/-- Node that is a text or leaves one to be settled. -/
def Node.IsText : Node α → Prop
  | .variable _ | .placeholder _ | .native _ => True
  | _ => False

namespace Tree

/-- Node with others for a parameter and for a placeholder. -/
def relabel (parameter : Parameter → Node Tree) (placeholder : Placeholder → Node Tree) :
    Node Tree → Tree
  | .parameter p => mk 0 (parameter p)
  | .placeholder id => mk 0 (placeholder id)
  | n => mk 0 n

/-- Statement with other nodes for its parameters and its placeholders. -/
def relabeled (parameter : Parameter → Node Tree) (placeholder : Placeholder → Node Tree) :
    Tree → Tree := rewritten (relabel parameter placeholder)

theorem relabeled_parameter (parameter : Parameter → Node Tree)
    (placeholder : Placeholder → Node Tree) (i : Nat) (p : Parameter) :
    (mk i (.parameter p)).relabeled parameter placeholder = mk 0 (parameter p) :=
  rewritten_mk _ i _

theorem relabeled_placeholder (parameter : Parameter → Node Tree)
    (placeholder : Placeholder → Node Tree) (i : Nat) (id : Placeholder) :
    (mk i (.placeholder id)).relabeled parameter placeholder = mk 0 (placeholder id) :=
  rewritten_mk _ i _

theorem relabeled_of_ne (parameter : Parameter → Node Tree)
    (placeholder : Placeholder → Node Tree) (i : Nat) {n : Node Tree}
    (hp : ∀ p, n ≠ .parameter p) (hq : ∀ id, n ≠ .placeholder id) :
    (mk i n).relabeled parameter placeholder = mk 0 (n.map (relabeled parameter placeholder)) := by
  rw [relabeled, rewritten_mk]
  cases n with
  | parameter p => exact (hp p rfl).elim
  | placeholder id => exact (hq id rfl).elim
  | _ => rfl

theorem computesRows_mk (i : Nat) (n : Node Tree) : (mk i n).computesRows = match n.kind with
    | .aggregate | .rowNumber => true
    | .subquery | .select => false
    | _ => n.children.any computesRows := by
  have any : (n.map fun t ↦ (t, computesRows t)).children.any (·.2) =
      n.children.any computesRows := by simp [Function.comp_def]
  rw [computesRows, fold_mk]
  cases n with
  | aggregate | rowNumber | subquery | select => rfl
  | _ => exact any

theorem lockable_mk (i : Nat) (n : Node Tree) : (mk i n).lockable = match n with
    | .select s => selectLockable (s.map fun t ↦ (t, lockable t))
    | .queryRef query _ => derivedLockable (query, lockable query)
    | .join _ left right _ =>
      sourceLockable (left, lockable left) && sourceLockable (right, lockable right)
    | _ => true := by
  rw [lockable, fold_mk]
  cases n <;> rfl

end Tree

open SqlWright.Tree in
theorem Node.IsText.looks {n : Node Tree} (h : n.IsText) (i : Nat) :
    (Tree.mk i n).binaryOp? = none ∧ (Tree.mk i n).select? = none ∧
      (Tree.mk i n).computesRows = false ∧ (Tree.mk i n).lockable = true := by
  rw [computesRows_mk, lockable_mk]
  cases n with
  | «variable» | placeholder | native => exact ⟨rfl, rfl, rfl, rfl⟩
  | _ => exact h.elim

namespace Tree

section Relabeled

variable {parameter : Parameter → Node Tree} {placeholder : Placeholder → Node Tree}
  (hp : ∀ p, (parameter p).IsText) (hq : ∀ id, (placeholder id).IsText)

include hp hq

theorem binaryOp?_relabeled (t : Tree) :
    (t.relabeled parameter placeholder).binaryOp? = t.binaryOp? := by
  obtain ⟨i, n⟩ := t
  obtain ⟨p, rfl⟩ | ⟨id, rfl⟩ | ⟨np, nq⟩ := n.label_cases
  · rw [relabeled_parameter]
    exact ((hp p).looks 0).1
  · rw [relabeled_placeholder]
    exact ((hq id).looks 0).1
  · rw [relabeled_of_ne _ _ i np nq]
    cases n <;> rfl

theorem isNone_select?_relabeled (t : Tree) :
    (t.relabeled parameter placeholder).select?.isNone = t.select?.isNone := by
  obtain ⟨i, n⟩ := t
  obtain ⟨p, rfl⟩ | ⟨id, rfl⟩ | ⟨np, nq⟩ := n.label_cases
  · rw [relabeled_parameter, ((hp p).looks 0).2.1]
    rfl
  · rw [relabeled_placeholder, ((hq id).looks 0).2.1]
    rfl
  · rw [relabeled_of_ne _ _ i np nq]
    cases n <;> rfl

theorem computesRows_relabeled (t : Tree) :
    (t.relabeled parameter placeholder).computesRows = t.computesRows := by
  induction t using induction_children with
  | h i n ih =>
    obtain ⟨p, rfl⟩ | ⟨id, rfl⟩ | ⟨np, nq⟩ := n.label_cases
    · rw [relabeled_parameter]
      exact ((hp p).looks 0).2.2.1
    · rw [relabeled_placeholder]
      exact ((hq id).looks 0).2.2.1
    · have any : (n.map (relabeled parameter placeholder)).children.any computesRows =
          n.children.any computesRows := by
        rw [Node.children_map, List.any_map, Bool.eq_iff_iff, List.any_eq_true, List.any_eq_true]
        exact exists_congr fun c ↦ and_congr_right fun hc ↦ by rw [← ih c hc]; rfl
      rw [relabeled_of_ne _ _ i np nq, computesRows_mk, computesRows_mk, any, Node.kind_map]

theorem selectLockable_relabeled {s : Select Tree}
    (source : ∀ c ∈ s.source, sourceLockable (c.relabeled parameter placeholder,
      (c.relabeled parameter placeholder).lockable) = sourceLockable (c, c.lockable)) :
    selectLockable ((s.map (relabeled parameter placeholder)).map fun t ↦ (t, lockable t)) =
      selectLockable (s.map fun t ↦ (t, lockable t)) := by
  have sources : (s.source.map fun c ↦ (c.relabeled parameter placeholder,
        (c.relabeled parameter placeholder).lockable)).all sourceLockable =
      (s.source.map fun t ↦ (t, lockable t)).all sourceLockable := by
    cases hs : s.source with
    | none => rfl
    | some c => exact source c hs
  simp [selectLockable, Select.map, Select.isGrouped, OutputColumn.map, sources,
    computesRows_relabeled hp hq, Function.comp_def]

theorem lockable_relabeled (t : Tree) :
    (t.relabeled parameter placeholder).lockable = t.lockable := by
  induction t using induction_children with
  | h i n ih =>
    obtain ⟨p, rfl⟩ | ⟨id, rfl⟩ | ⟨np, nq⟩ := n.label_cases
    · rw [relabeled_parameter]
      exact ((hp p).looks 0).2.2.2
    · rw [relabeled_placeholder]
      exact ((hq id).looks 0).2.2.2
    have derived (c : Tree) (hc : c ∈ n.children) :
        derivedLockable (c.relabeled parameter placeholder,
          (c.relabeled parameter placeholder).lockable) = derivedLockable (c, c.lockable) := by
      simp only [derivedLockable, isNone_select?_relabeled hp hq, ih c hc]
    have source (c : Tree) (hc : c ∈ n.children) :
        sourceLockable (c.relabeled parameter placeholder,
          (c.relabeled parameter placeholder).lockable) = sourceLockable (c, c.lockable) := by
      simp only [sourceLockable, ← Option.not_isNone, isNone_select?_relabeled hp hq, ih c hc]
    rw [relabeled_of_ne _ _ i np nq, lockable_mk, lockable_mk]
    cases n with
    | queryRef query label => exact derived query (by simp [Node.children])
    | join kind left right on =>
      change (_ && _) = (_ && _)
      rw [source left (by simp [Node.children]), source right (by simp [Node.children])]
    | select s =>
      exact selectLockable_relabeled hp hq fun c hc ↦
        source c (by simp_all [Node.children, Select.children])
    | _ => rfl

end Relabeled

end Tree

/-- A node with other leaves below is written as the node itself. -/
theorem Script.tree_relabeled {w : Script} {parameter : Parameter → Node Tree}
    {placeholder : Placeholder → Node Tree} (hp : ∀ p, (parameter p).IsText)
    (hq : ∀ id, (placeholder id).IsText) (i : Nat) (n : Node Tree) (hint : Option String) :
    w.tree (.mk i (n.map (Tree.relabeled parameter placeholder))) hint =
      w.node (n.map (partOf id fun t ↦ w.tree (t.relabeled parameter placeholder))) hint := by
  have binaryOp? := Tree.binaryOp?_relabeled hp hq
  rw [tree_mk_map]
  refine node_congr ?_ (fun s hs ↦ lock?_congr _ _ ?_) hint
  · cases n with
    | binary op left right => simp [Node.GroupsAlike, BinaryOp.takesApart, binaryOp?]
    | unary op a => cases op <;> simp [Node.GroupsAlike, binaryOp?]
    | function f args => exact .inr fun a _ ↦ by rw [binaryOp?, id]
    | _ => trivial
  · have same := Tree.lockable_relabeled hp hq (.mk 0 (.select s))
    rw [← Tree.relabeled_of_ne parameter placeholder 0 (n := .select s) nofun nofun, same,
      Node.map_id]

/-- A statement has a command if it can be written, with the parameters under the names of their
places. -/
theorem Tree.command_ok {t : Tree} {spelling : Spelling} {types : TypeNames} {c : Command} :
    t.command spelling types = .ok c ↔ ∃ mark chain parameters,
      spelling.parameterMark = .ok mark ∧
      Script.tree ⟨spelling, types, mark⟩ t none [] = .ok (chain, parameters) ∧
      c = Command.ofChain chain
        (parameters.mapIdx fun i p ↦ (p, Script.parameterName ⟨spelling, types, mark⟩ i)) := by
  rw [command]
  cases hm : spelling.parameterMark with
  | error e => exact ⟨nofun, nofun⟩
  | ok mark =>
    change ((Script.tree ⟨spelling, types, mark⟩ t none).run [] >>= _) = _ ↔ _
    cases hw : (Script.tree ⟨spelling, types, mark⟩ t none).run [] with
    | error e =>
      refine ⟨nofun, ?_⟩
      rintro ⟨_, _, _, ⟨⟩, h, -⟩
      cases hw.symm.trans h
    | ok r =>
      constructor
      · rintro ⟨⟩
        exact ⟨mark, r.1, r.2, rfl, hw, rfl⟩
      · rintro ⟨_, _, _, ⟨⟩, h, rfl⟩
        cases hw.symm.trans h
        rfl

end SqlWright
