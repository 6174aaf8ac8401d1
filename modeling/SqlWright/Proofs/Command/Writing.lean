import SqlWright.Command.OfTree
import SqlWright.Proofs.Command.Complete

/-!
# Statements that can be written

A node is writable if the server can do what it asks for. Whether it is does not
depend on its children, and a tree of writable nodes has a text in every complete
spelling.
-/

namespace SqlWright

/-- Constant other than an infinite number or what is no number. -/
def Literal.IsFinite : Literal → Prop
  | .float x => x.isFinite
  | _ => True

/-- Select without a lock that the server can page and order as it says. -/
structure Select.Writable {α : Type} (server : Server) (s : Select α) : Prop where
  lock : s.lock = none
  limit : s.limit.isSome → server.limit
  offset : s.offset.isSome → server.offset
  nulls : ∀ k ∈ s.orderBy, k.nullsFirst = none

namespace Node

variable {α β : Type}

/-- Node that the server can do, whatever its children are. -/
def Writable (server : Server) : Node α → Prop
  | .literal value => value.IsFinite
  | .rowNumber keys => server.rowNumber ∧ ∀ k ∈ keys, k.nullsFirst = none
  | .select s => s.Writable server
  | _ => True

/-- Whether a node is writable does not depend on its links. -/
theorem writable_map {server : Server} {f : α → β} {n : Node α} :
    (n.map f).Writable server ↔ n.Writable server := by
  have keys (ks : List (SortKey α)) : (∀ k ∈ ks.map (·.map f), k.nullsFirst = none) ↔
      ∀ k ∈ ks, k.nullsFirst = none := by
    simp [SortKey.map]
  cases n with
  | rowNumber ks => simp only [map, Writable, keys]
  | select s =>
    constructor
    · rintro ⟨lock, limit, offset, nulls⟩
      exact ⟨lock, by simpa [Select.map] using limit, by simpa [Select.map] using offset,
        (keys s.orderBy).1 nulls⟩
    · rintro ⟨lock, limit, offset, nulls⟩
      exact ⟨lock, by simpa [Select.map] using limit, by simpa [Select.map] using offset,
        (keys s.orderBy).2 nulls⟩
  | _ => rfl

end Node

/-- Every node of the tree is writable. -/
inductive Tree.Writable (server : Server) : Tree → Prop where
  | mk {i : Nat} {n : Node Tree} (root : n.Writable server)
      (below : ∀ c ∈ n.children, c.Writable server) : Writable server (.mk i n)

/-- Writing that never fails. -/
def Writing.Succeeds {α : Type} (m : Writing α) : Prop :=
  ∀ named, ∃ r, m named = .ok r

namespace Writing.Succeeds

variable {α β : Type}

theorem pure (a : α) : Succeeds (pure a : Writing α) := fun named ↦ ⟨(a, named), rfl⟩

theorem bind {m : Writing α} {f : α → Writing β} (hm : Succeeds m) (hf : ∀ a, Succeeds (f a)) :
    Succeeds (m >>= f) := by
  intro named
  obtain ⟨⟨a, named'⟩, h⟩ := hm named
  obtain ⟨r, hr⟩ := hf a named'
  refine ⟨r, ?_⟩
  change Except.bind (m named) _ = _
  rw [h]
  exact hr

theorem lift {x : Except Error α} (h : ∃ a, x = .ok a) : Succeeds (liftM x : Writing α) := by
  obtain ⟨a, rfl⟩ := h
  exact fun named ↦ ⟨(a, named), rfl⟩

/-- What follows a rule that is found may use the rule. -/
theorem lift_bind {x : Except Error α} {a : α} {f : α → Writing β} (h : x = .ok a)
    (hf : Succeeds (f a)) : Succeeds ((liftM x : Writing α) >>= f) := by
  subst h
  exact hf

theorem mapM {f : α → Writing β} {l : List α} (h : ∀ a ∈ l, Succeeds (f a)) :
    Succeeds (l.mapM f) := by
  induction l with
  | nil =>
    rw [List.mapM_nil]
    exact pure []
  | cons a l ih =>
    rw [List.mapM_cons]
    rw [List.forall_mem_cons] at h
    exact h.1.bind fun _ ↦ (ih h.2).bind fun _ ↦ pure _

end Writing.Succeeds

namespace Script

open Writing

variable {server : Server} {w : Script}

theorem succeeds_parameter (p : Parameter) : Succeeds (w.parameter p) := by
  intro named
  unfold parameter
  split
  · exact ⟨_, rfl⟩
  · exact ⟨_, rfl⟩

theorem succeeds_separated (separator : String) {l : List (Writing Chain)}
    (h : ∀ c ∈ l, Succeeds c) : Succeeds (separated separator l) := by
  induction l with
  | nil => exact .pure []
  | cons c rest ih =>
    rw [List.forall_mem_cons] at h
    cases rest with
    | nil => exact h.1
    | cons c' rest => exact h.1.bind fun _ ↦ (ih h.2).bind fun _ ↦ .pure _

section Rules

variable (complete : w.spelling.Complete server w.types)
include complete

theorem succeeds_identifier (name : String) : Succeeds (w.identifier name) :=
  (Succeeds.lift (complete.identifier name)).bind fun _ ↦ .pure _

theorem succeeds_qualified (qualifier : Option String) (name : String) :
    Succeeds (w.qualified qualifier name) := by
  cases qualifier with
  | some q =>
    exact (succeeds_identifier complete q).bind fun _ ↦
      (succeeds_identifier complete name).bind fun _ ↦ .pure _
  | none => exact succeeds_identifier complete name

theorem succeeds_aliasClause (name : String) : Succeeds (w.aliasClause name) :=
  (Succeeds.lift complete.tableAlias).bind fun _ ↦
    (succeeds_identifier complete name).bind fun _ ↦ .pure _

end Rules

/-! ### Parts -/

/-- Each part can be written under any hint. -/
def AllSucceed (parts : List Part) : Prop := ∀ c ∈ parts, ∀ hint, Succeeds (c.2 hint)

theorem succeeds_grouped {c : Part} (h : ∀ hint, Succeeds (c.2 hint)) (hint : Option String) :
    Succeeds (grouped c hint) := by
  unfold grouped
  split
  · exact (h hint).bind fun _ ↦ .pure _
  · exact h hint

theorem succeeds_operand (parent : BinaryOp) (isRight : Bool) {c : Part}
    (h : ∀ hint, Succeeds (c.2 hint)) (hint : Option String) :
    Succeeds (operand parent isRight c hint) := by
  unfold operand
  split
  · exact succeeds_grouped h hint
  · exact h hint

theorem succeeds_listed {parts : List Part} (h : AllSucceed parts) (hint : Option String) :
    Succeeds (listed parts hint) := by
  refine succeeds_separated _ fun m hm ↦ ?_
  obtain ⟨c, hc, rfl⟩ := List.mem_map.1 hm
  exact h c hc hint

theorem succeeds_clause (text : String) {part : Option Part} (h : AllSucceed part.toList)
    (hint : Option String) : Succeeds (clause text part hint) := by
  cases part with
  | none => exact .pure []
  | some c => exact (h c (by simp) hint).bind fun _ ↦ .pure _

theorem succeeds_template (parts : List TemplatePart) {arg : Nat → Writing Chain}
    (h : ∀ i, Succeeds (arg i)) : Succeeds (template parts arg) := by
  refine (Succeeds.mapM fun p _ ↦ ?_).bind fun _ ↦ .pure _
  cases p with
  | text s => exact .pure _
  | arg i => exact h i

theorem succeeds_unary (op : UnaryOp) {c : Part} (h : ∀ hint, Succeeds (c.2 hint))
    (hint : Option String) : Succeeds (unary op c hint) := by
  cases op with
  | negation | negate | existence => exact (h hint).bind fun _ ↦ .pure _
  | isNull | isNotNull => exact (succeeds_grouped h hint).bind fun _ ↦ .pure _

section Rules

theorem succeeds_ordering {keys : List (SortKey Part)} (h : AllSucceed (keys.map (·.expr)))
    (nulls : ∀ k ∈ keys, k.nullsFirst = none) (hint : Option String) :
    Succeeds (w.ordering keys hint) := by
  refine succeeds_separated _ fun m hm ↦ ?_
  obtain ⟨k, hk, rfl⟩ := List.mem_map.1 hm
  have nullsPlace : Succeeds (w.nullsPlace k.nullsFirst) := by
    rw [nulls k hk]
    exact .pure []
  exact (h k.expr (List.mem_map_of_mem hk) hint).bind fun _ ↦ nullsPlace.bind fun _ ↦ .pure _

variable (complete : w.spelling.Complete server w.types)
include complete

theorem succeeds_outputColumn {c : OutputColumn Part} (h : ∀ hint, Succeeds (c.expr.2 hint)) :
    Succeeds (w.outputColumn c) := by
  refine (h none).bind fun _ ↦ ?_
  split
  · exact (succeeds_identifier complete _).bind fun _ ↦ .pure _
  · exact .pure _

theorem succeeds_literal {value : Literal} (h : value.IsFinite) :
    ∃ s, w.spelling.literal value = .ok s := by
  cases value with
  | boolean b => exact complete.boolean b
  | integer i => exact ⟨_, rfl⟩
  | float x =>
    have finite : x.isFinite = true := h
    exact ⟨_, if_pos finite⟩
  | string t => exact complete.string t
  | dateTime t => exact complete.dateTime t
  | date d => exact complete.date d

theorem succeeds_source {source : Option Part} (h : AllSucceed source.toList)
    (hint : Option String) : Succeeds (w.source source hint) := by
  cases source with
  | some c => exact (h c (by simp) hint).bind fun _ ↦ .pure _
  | none =>
    refine (Succeeds.lift complete.fromless).bind fun f ↦ ?_
    cases f with
    | table name => exact .pure _
    | omitted => exact .pure _

theorem succeeds_orderClause {s : Select Part} (h : AllSucceed (s.orderBy.map (·.expr)))
    (nulls : ∀ k ∈ s.orderBy, k.nullsFirst = none) (paging : Option PagingClause) :
    Succeeds (w.orderClause s paging) := by
  unfold orderClause
  split
  · split
    · exact (Succeeds.lift complete.offsetOrdering).bind fun _ ↦ .pure _
    · exact .pure _
  · exact (succeeds_ordering h nulls none).bind fun _ ↦ .pure _

omit complete in
private theorem succeeds_fetched {s : Select Part} (limit : AllSucceed s.limit.toList)
    (offset : Chain) : Succeeds (do
      let fetch : Chain ← match s.limit with
        | some c => pure ([Piece.text " FETCH NEXT "] ++ (← c.2 none) ++ [Piece.text " ROWS ONLY"])
        | none => pure []
      return [Piece.text " OFFSET "] ++ offset ++ [Piece.text " ROWS"] ++ fetch : Writing Chain) := by
  cases hl : s.limit with
  | none => exact .pure _
  | some c => exact (limit c (by simp [hl]) none).bind fun _ ↦ .pure _

omit complete in
theorem succeeds_pagingClause {s : Select Part} (limit : AllSucceed s.limit.toList)
    (offset : AllSucceed s.offset.toList) (paging : Option PagingClause) :
    Succeeds (pagingClause s paging) := by
  unfold pagingClause
  split
  · exact (succeeds_clause _ limit none).bind fun _ ↦
      (succeeds_clause _ offset none).bind fun _ ↦ .pure _
  · cases ho : s.offset with
    | none => exact succeeds_fetched limit _
    | some c => exact (offset c (by simp [ho]) none).bind fun o ↦ succeeds_fetched limit o
  · exact .pure _

/-- A select that the server can page has a paging clause, or needs none. -/
theorem exists_paging {s : Select Part} (hs : s.Writable server) :
    ∃ p, w.paging? s = .ok p := by
  obtain ⟨p, hp, hun, htop⟩ := complete.paging
  unfold paging?
  split
  · next paged =>
    rw [hp]
    cases p with
    | unsupported =>
      have := hun rfl
      rw [Select.isPaged, Bool.or_eq_true] at paged
      rcases paged with hl | ho
      · exact (this.1 (hs.limit hl)).elim
      · exact (this.2 (hs.offset ho)).elim
    | top =>
      have : s.offset.isSome = false := Bool.eq_false_iff.2 fun ho ↦ htop rfl (hs.offset ho)
      exact ⟨some .top, by rw [this]; rfl⟩
    | limitOffset => exact ⟨_, rfl⟩
    | offsetFetch => exact ⟨_, rfl⟩
  · exact ⟨_, rfl⟩

theorem succeeds_select {s : Select Part} (hs : s.Writable server) (h : AllSucceed s.children)
    (hint : Option String) : Succeeds (w.select s hint) := by
  have lock : w.lock? s = .ok none := by
    rw [lock?, hs.lock]
    rfl
  have columns (c : OutputColumn Part) (hc : c ∈ s.columns) (hint : Option String) :
      Succeeds (c.expr.2 hint) :=
    h c.expr (by simp [Select.children, Select.exprs, List.mem_map_of_mem hc]) hint
  have source : AllSucceed s.source.toList := fun c hc ↦ h c (by simp_all [Select.children])
  have filter : AllSucceed s.filter.toList := fun c hc ↦ h c (by simp_all [Select.children])
  have groupBy : AllSucceed s.groupBy := fun c hc ↦ h c (by simp_all [Select.children])
  have having_ : AllSucceed s.having.toList := fun c hc ↦ h c (by simp_all [Select.children])
  have orderBy : AllSucceed (s.orderBy.map (·.expr)) :=
    fun c hc ↦ h c (by simp only [Select.children, List.mem_append, hc, true_or, or_true])
  have limit : AllSucceed s.limit.toList := fun c hc ↦ h c (by simp_all [Select.children])
  have offset : AllSucceed s.offset.toList := fun c hc ↦ h c (by simp_all [Select.children])
  obtain ⟨paging, hp⟩ := exists_paging complete hs
  refine Succeeds.lift_bind hp (Succeeds.lift_bind lock ?_)
  -- the clauses that may be left out are followed by what comes after them, named from the
  -- last one to the first
  extract_lets hintOf suffix afterTop
  have afterTop_succeeds (top : Chain) : Succeeds (afterTop top) := by
    unfold afterTop
    extract_lets afterColumns
    have afterColumns_succeeds (columns : Chain) : Succeeds (afterColumns columns) := by
      unfold afterColumns
      refine (succeeds_source complete source _).bind fun _ ↦
        (succeeds_clause _ filter none).bind fun _ ↦ ?_
      extract_lets afterGroups
      have afterGroups_succeeds (groups : Chain) : Succeeds (afterGroups groups) :=
        (succeeds_clause _ having_ none).bind fun _ ↦
          (succeeds_orderClause complete orderBy hs.nulls paging).bind fun _ ↦
          (succeeds_pagingClause limit offset paging).bind fun _ ↦ .pure _
      split
      · exact afterGroups_succeeds []
      · exact (succeeds_listed groupBy none).bind fun _ ↦ afterGroups_succeeds _
    split
    · exact afterColumns_succeeds _
    · refine (succeeds_separated _ fun m hm ↦ ?_).bind afterColumns_succeeds
      obtain ⟨c, hc, rfl⟩ := List.mem_map.1 hm
      exact succeeds_outputColumn complete (columns c hc)
  split
  · cases hl : s.limit with
    | none => exact afterTop_succeeds []
    | some c => exact (limit c (by simp [hl]) none).bind fun _ ↦ afterTop_succeeds _
  · exact afterTop_succeeds []

theorem succeeds_rowNumber {keys : List (SortKey Part)} (hr : server.rowNumber)
    (h : AllSucceed (keys.map (·.expr))) (nulls : ∀ k ∈ keys, k.nullsFirst = none)
    (hint : Option String) : Succeeds (w.rowNumber keys hint) := by
  have windows : w.spelling.windowFunctions = .ok true := by
    rw [complete.windowFunctions, hr]
  refine Succeeds.lift_bind windows ?_
  rw [if_pos rfl]
  split
  · exact .pure _
  · exact (succeeds_ordering h nulls hint).bind fun _ ↦ .pure _

theorem succeeds_createIndex (index : Index) : Succeeds (w.createIndex index) := by
  refine (succeeds_identifier complete _).bind fun _ ↦
    (succeeds_qualified complete _ _).bind fun _ ↦
    (succeeds_separated _ fun m hm ↦ ?_).bind fun _ ↦ ?_
  · obtain ⟨c, -, rfl⟩ := List.mem_map.1 hm
    exact (succeeds_identifier complete _).bind fun _ ↦ .pure _
  · cases index.fillFactor with
    | some percent => exact (Succeeds.lift (complete.fillFactor percent)).bind fun _ ↦ .pure _
    | none => exact .pure _

/-- A writable node whose parts can be written can be written. -/
theorem succeeds_node {n : Node Part} (hn : n.Writable server) (h : AllSucceed n.children)
    (hint : Option String) : Succeeds (w.node n hint) := by
  cases n with
  | literal value => exact (Succeeds.lift (succeeds_literal complete hn)).bind fun _ ↦ .pure _
  | column qualifier name => exact succeeds_qualified complete qualifier name
  | parameter p => exact succeeds_parameter p
  | binary op left right =>
    have hl := h left (by simp [Node.children])
    have hr := h right (by simp [Node.children])
    refine (Succeeds.lift (complete.operator op)).bind fun t ↦ succeeds_template _ fun i ↦ ?_
    split
    · exact succeeds_operand op false hl hint
    · exact succeeds_operand op true hr hint
  | unary op c => exact succeeds_unary op (h c (by simp [Node.children])) hint
  | function f args =>
    refine (Succeeds.lift (complete.function f)).bind fun t ↦ succeeds_template _ fun i ↦ ?_
    cases hi : args[i]? with
    | none => exact .pure []
    | some c =>
      have hc := h c (List.mem_of_getElem? hi)
      cases t with
      | call _ => exact hc hint
      | separated _ | pattern _ => exact succeeds_grouped hc hint
  | aggregate kind distinct c =>
    refine (Succeeds.lift (complete.aggregate kind)).bind fun name ↦ ?_
    cases c with
    | some c => exact (h c (by simp [Node.children]) hint).bind fun _ ↦ .pure _
    | none => exact .pure _
  | cast c type =>
    exact (Succeeds.lift (complete.type type)).bind fun _ ↦
      (h c (by simp [Node.children]) hint).bind fun _ ↦ .pure _
  | case branches otherwise =>
    refine (Succeeds.mapM fun b hb ↦ ?_).bind fun _ ↦
      (succeeds_clause _ (fun c hc ↦ h c ?_) hint).bind fun _ ↦ .pure _
    · have condition := h b.1 (by
        rw [Node.children, List.mem_append, List.mem_flatMap]
        exact .inl ⟨b, hb, by simp⟩)
      have value := h b.2 (by
        rw [Node.children, List.mem_append, List.mem_flatMap]
        exact .inl ⟨b, hb, by simp⟩)
      exact (condition hint).bind fun _ ↦ (value hint).bind fun _ ↦ .pure _
    · rw [Node.children, List.mem_append]
      exact .inr hc
  | row items => exact (succeeds_listed h hint).bind fun _ ↦ .pure _
  | dynamicFilter id first others =>
    exact (Succeeds.mapM fun c hc ↦ (h c hc hint).bind fun _ ↦ .pure _).bind fun _ ↦ .pure _
  | subquery query => exact (h query (by simp [Node.children]) hint).bind fun _ ↦ .pure _
  | variant key main alternative =>
    exact (h main (by simp [Node.children]) hint).bind fun _ ↦
      (h alternative (by simp [Node.children]) hint).bind fun _ ↦ .pure _
  | rowNumber keys => exact succeeds_rowNumber complete hn.1 h hn.2 hint
  | table schema name label =>
    refine (succeeds_qualified complete schema name).bind fun _ ↦ ?_
    cases label with
    | some a => exact (succeeds_aliasClause complete a).bind fun _ ↦ .pure _
    | none => exact .pure _
  | queryRef query name =>
    exact (h query (by simp [Node.children]) hint).bind fun _ ↦
      (succeeds_aliasClause complete name).bind fun _ ↦ .pure _
  | join kind left right on =>
    exact (h left (by simp [Node.children]) hint).bind fun _ ↦
      (h right (by simp [Node.children]) hint).bind fun _ ↦
      (succeeds_clause _ (fun c hc ↦ h c (by simp_all [Node.children])) hint).bind fun _ ↦ .pure _
  | select s => exact succeeds_select complete hn h hint
  | insert target columns values =>
    refine (h target (by simp [Node.children]) hint).bind fun _ ↦
      (succeeds_separated _ fun m hm ↦ ?_).bind fun _ ↦
      (succeeds_listed (fun c hc ↦ h c (by simp_all [Node.children])) hint).bind fun _ ↦ .pure _
    obtain ⟨name, -, rfl⟩ := List.mem_map.1 hm
    exact succeeds_identifier complete name
  | update target assignments filter =>
    refine (h target (by simp [Node.children]) hint).bind fun _ ↦
      (succeeds_separated _ fun m hm ↦ ?_).bind fun _ ↦
      (succeeds_clause _ (fun c hc ↦ h c (by simp_all [Node.children])) hint).bind fun _ ↦ .pure _
    obtain ⟨a, ha, rfl⟩ := List.mem_map.1 hm
    have value := h a.2 (by
      simp only [Node.children, List.cons_append, List.mem_cons, List.mem_append, List.mem_map]
      exact .inr (.inl ⟨a, ha, rfl⟩))
    exact (succeeds_identifier complete a.1).bind fun _ ↦ (value hint).bind fun _ ↦ .pure _
  | delete target filter =>
    exact (h target (by simp [Node.children]) hint).bind fun _ ↦
      (succeeds_clause _ (fun c hc ↦ h c (by simp_all [Node.children])) hint).bind fun _ ↦ .pure _
  | createIndex index => exact succeeds_createIndex complete index
  | _ => exact .pure _

/-- A tree of writable nodes can be written. -/
theorem succeeds_tree {t : Tree} (ht : t.Writable server) (hint : Option String) :
    Succeeds (w.tree t hint) := by
  induction ht generalizing hint with
  | @mk i n root below ih =>
    rw [tree, Tree.fold_mk]
    refine succeeds_node complete (Node.writable_map.2 root) (fun c hc hint ↦ ?_) hint
    rw [Node.children_map, List.mem_map] at hc
    obtain ⟨t, ht, rfl⟩ := hc
    exact ih t ht hint

end Rules

end Script

/-- A tree of writable nodes has a command in every complete spelling. -/
theorem Tree.Writable.exists_command {server : Server} {spelling : Spelling} {types : TypeNames}
    {t : Tree} (ht : t.Writable server) (complete : spelling.Complete server types) :
    ∃ command, t.command spelling types = .ok command := by
  obtain ⟨mark, hm⟩ := complete.parameterMark
  have script : (⟨spelling, types, mark⟩ : Script).spelling.Complete server types := complete
  obtain ⟨⟨chain, parameters⟩, hc⟩ := Script.succeeds_tree script ht none []
  simp only [Tree.command, hm, bind, Except.bind, StateT.run, hc]
  exact ⟨_, rfl⟩

end SqlWright
