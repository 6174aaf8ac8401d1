import SqlWright.Proofs.Command.Simplified
import SqlWright.Proofs.Drafting.Results
import SqlWright.Proofs.Relation.WellFormed

/-!
# Writable drafts

A relation without locks and with finite constants only makes nodes that the server can
do: limits and offsets stand in selects only where the server has the clauses, and rows
are numbered only where it numbers them.
-/

namespace SqlWright

variable {α β : Type} {server : Server} {q : α → Prop} {u : β → Prop}

namespace Scalar

mutual

/-- Every constant is finite. -/
def IsFinite : Scalar → Prop
  | .constant value => value.IsFinite
  | .binary _ left right => left.IsFinite ∧ right.IsFinite
  | .unary _ operand => operand.IsFinite
  | .function _ args => AllFinite args
  | .inList _ exprs => AllFinite exprs
  | _ => True

/-- Every constant of the expressions is finite. -/
def AllFinite : List Scalar → Prop
  | [] => True
  | e :: rest => e.IsFinite ∧ AllFinite rest

end

end Scalar

namespace Relation

/-- No rows are locked. -/
def LockFree : Relation → Prop
  | table _ | native _ _ => True
  | lock _ _ => False
  | join a b _ _ => a.LockFree ∧ b.LockFree
  | filter r _ | project r _ | extend r _ | aggregate r _ _ | sort r _ | distinct r | take r _
  | skip r _ | page r _ _ => r.LockFree

/-- Every constant is finite. -/
def FloatsFinite : Relation → Prop
  | table _ | native _ _ => True
  | join a b _ _ => a.FloatsFinite ∧ b.FloatsFinite
  | filter r e | take r e | skip r e => r.FloatsFinite ∧ e.IsFinite
  | extend r columns => r.FloatsFinite ∧ ∀ c ∈ columns, c.expr.IsFinite
  | page r leaving taking => r.FloatsFinite ∧ leaving.IsFinite ∧ taking.IsFinite
  | project r _ | aggregate r _ _ | sort r _ | distinct r | lock r _ => r.FloatsFinite

end Relation

/-- Drafting from a writable draft leaves it writable, and its result has a property. -/
def Drafting.Keeps (server : Server) (m : Drafting α) (q : α → Prop) : Prop :=
  ∀ d a d', m d = .ok (a, d') → d.graph.Writable server → d'.graph.Writable server ∧ q a

open Drafting

namespace Drafting.Keeps

theorem pure {a : α} (h : q a) : Keeps server (pure a) q := by
  intro d b d' hm hd
  obtain ⟨rfl, rfl⟩ := pure_ok.1 hm
  exact ⟨hd, h⟩

theorem lift {x : Except Error α} (h : ∀ a, x = .ok a → q a) : Keeps server (liftM x) q := by
  intro d a d' hm hd
  obtain ⟨hx, rfl⟩ := lift_ok.1 hm
  exact ⟨hd, h a hx⟩

theorem throw (e : Error) : Keeps server (throw e : Drafting α) q :=
  fun _ _ _ hm ↦ (throw_ok hm).elim

theorem bind {m : Drafting α} {f : α → Drafting β} (hm : Keeps server m q)
    (hf : ∀ a, q a → Keeps server (f a) u) : Keeps server (m >>= f) u := by
  intro d b d' h hd
  obtain ⟨a, d₁, h₁, h₂⟩ := bind_ok.1 h
  obtain ⟨hd₁, ha⟩ := hm d a d₁ h₁ hd
  exact hf a ha d₁ b d' h₂ hd₁

theorem map {m : Drafting α} {f : α → β} (hm : Keeps server m q) (hf : ∀ a, q a → u (f a)) :
    Keeps server (f <$> m) u := by
  rw [← bind_pure_comp]
  exact hm.bind fun a ha ↦ .pure (hf a ha)

theorem node {n : Node Tree} (hn : n.Writable server) :
    Keeps server (Draft.node n) fun _ ↦ True := by
  intro d t d' h hd
  obtain ⟨-, rfl⟩ := Draft.node_ok.1 h
  exact ⟨hd.add (Node.writable_map.2 hn), trivial⟩

theorem nextAlias : Keeps server Draft.nextAlias fun _ ↦ True := by
  intro d s d' h hd
  obtain ⟨-, rfl⟩ := Draft.nextAlias_ok.1 h
  exact ⟨hd, trivial⟩

theorem mapM_list {f : α → Drafting β} (hf : ∀ a, Keeps server (f a) fun _ ↦ True)
    (l : List α) : Keeps server (l.mapM f) fun _ ↦ True := by
  induction l with
  | nil =>
    rw [List.mapM_nil]
    exact .pure trivial
  | cons a l ih =>
    rw [List.mapM_cons]
    exact (hf a).bind fun _ _ ↦ ih.bind fun _ _ ↦ .pure trivial

theorem mapM_option {f : α → Drafting β} {o : Option α}
    (hf : ∀ a ∈ o, Keeps server (f a) fun _ ↦ True) : Keeps server (o.mapM f) fun _ ↦ True := by
  cases o with
  | none =>
    rw [Option.mapM_none]
    exact .pure trivial
  | some a =>
    rw [Option.mapM_some]
    exact (hf a rfl).map fun _ _ ↦ trivial

end Drafting.Keeps

namespace Draft

theorem keeps_conjunction (existing : Option Tree) (condition : Tree) :
    Keeps server (conjunction existing condition) fun _ ↦ True := by
  unfold conjunction
  split
  · exact .node trivial
  · exact .pure trivial

theorem keeps_binary (op : BinaryOp) (left right : Scalar) (l r : Tree) :
    Keeps server (binary op left right l r) fun _ ↦ True := by
  have nullAware (value parameterNode : Tree) (p : Parameter) :
      Keeps server (nullAware op value parameterNode p) fun _ ↦ True :=
    Keeps.bind (.node trivial) fun _ _ ↦ Keeps.bind (.node trivial) fun _ _ ↦ .node trivial
  unfold binary
  split
  · split
    · exact nullAware l r _
    · exact nullAware r l _
    · exact .node trivial
  · exact .node trivial

mutual

/-- An expression of finite constants is writable. -/
theorem keeps_scalar (columns : List Tree) :
    (e : Scalar) → e.IsFinite → Keeps server (scalar columns e) fun _ ↦ True
  | .column _, _ => .lift fun _ _ ↦ trivial
  | .constant _, h => .node h
  | .parameter _, _ | .placeholder _, _ => .node trivial
  | .null, _ => .pure trivial
  | .typeIs i _, _ =>
    (Keeps.lift (q := fun _ ↦ True) fun _ _ ↦ trivial).bind fun _ _ ↦
      Keeps.bind (.node trivial) fun _ _ ↦ .node trivial
  | .binary _ left right, h =>
    (keeps_scalar columns left h.1).bind fun _ _ ↦
      (keeps_scalar columns right h.2).bind fun _ _ ↦ keeps_binary _ _ _ _ _
  | .unary _ operand, h => (keeps_scalar columns operand h).bind fun _ _ ↦ .node trivial
  | .function _ args, h => (keeps_scalars columns args h).bind fun _ _ ↦ .node trivial
  | .inList _ exprs, h =>
    (keeps_scalars columns exprs h).bind fun ts _ ↦ by
      cases ts with
      | nil => exact .throw _
      | cons first others => exact .node trivial

theorem keeps_scalars (columns : List Tree) :
    (es : List Scalar) → Scalar.AllFinite es → Keeps server (scalars columns es) fun _ ↦ True
  | [], _ => .pure trivial
  | e :: rest, h =>
    (keeps_scalar columns e h.1).bind fun _ _ ↦
      (keeps_scalars columns rest h.2).bind fun _ _ ↦ .pure trivial

end

end Draft

namespace Compiled

open Draft

variable {c : Compiled}

/-- The select is writable. -/
abbrev IsWritable (server : Server) (c : Compiled) : Prop := c.select.Writable server

theorem keeps_selectAll (source : Tree) (label : String) (header : Header) :
    Keeps server (selectAll source label header) fun s ↦
      s.limit = none ∧ s.offset = none ∧ s.orderBy = [] ∧ s.lock = none := by
  refine Keeps.bind (Keeps.mapM_list (fun _ ↦ ?_) _) fun _ _ ↦ .pure ⟨rfl, rfl, rfl, rfl⟩
  exact Keeps.bind (.node trivial) fun _ _ ↦ .pure trivial

/-- A select of all columns is writable if its ordering is. -/
theorem isWritable_selectAll {s : Select Tree} {header : Header} {filter : Option Tree}
    {orderBy : List (SortKey Tree)} (hs : s.limit = none ∧ s.offset = none ∧ s.orderBy = [] ∧
      s.lock = none) (nulls : ∀ k ∈ orderBy, k.nullsFirst = none) :
    IsWritable server ⟨{ s with filter, orderBy }, header⟩ := by
  obtain ⟨hl, ho, -, hlock⟩ := hs
  exact ⟨hlock, by simp [hl], by simp [ho], nulls⟩

theorem keeps_ofTable (t : Table) : Keeps server (ofTable t) (IsWritable server) :=
  Keeps.nextAlias.bind fun _ _ ↦ Keeps.bind (.node trivial) fun _ _ ↦
    (keeps_selectAll _ _ _).bind fun _ ⟨hl, ho, hk, hlock⟩ ↦
    .pure ⟨hlock, by simp [hl], by simp [ho], by simp [hk]⟩

theorem keeps_ofNative (sql : String) (header : Header) :
    Keeps server (ofNative sql header) (IsWritable server) :=
  Keeps.nextAlias.bind fun _ _ ↦ Keeps.bind (.node trivial) fun _ _ ↦
    Keeps.bind (.node trivial) fun _ _ ↦
    (keeps_selectAll _ _ _).bind fun _ ⟨hl, ho, hk, hlock⟩ ↦
    .pure ⟨hlock, by simp [hl], by simp [ho], by simp [hk]⟩

theorem keeps_wrapFor (op : Operation) (hc : c.IsWritable server) :
    Keeps server (c.wrapFor op) (IsWritable server) := by
  have derived : c.derived.Writable server := by
    unfold Compiled.derived
    split
    · exact hc
    · exact ⟨hc.lock, hc.limit, hc.offset, by simp⟩
  have order (outer : List Tree) : ∀ k ∈ outerOrder c.select outer, k.nullsFirst = none := by
    intro k hk
    simp only [outerOrder, List.mem_filterMap, Option.bind_eq_bind, Option.bind_eq_some_iff,
      Option.pure_def, Option.some.injEq] at hk
    obtain ⟨k', hk', i, -, expr, -, rfl⟩ := hk
    exact hc.nulls k' hk'
  unfold wrapFor
  split
  · exact Keeps.nextAlias.bind fun _ _ ↦
      (Keeps.node (n := .select c.derived) derived).bind fun _ _ ↦
      Keeps.bind (.node trivial) fun _ _ ↦
      (keeps_selectAll _ _ _).bind fun s hs ↦ .pure (isWritable_selectAll hs (order s.exprs))
  · exact .pure hc

theorem keeps_filter (hc : c.IsWritable server) {e : Scalar} (he : e.IsFinite) :
    Keeps server (c.filter e) (IsWritable server) :=
  (keeps_scalar _ e he).bind fun _ _ ↦ (keeps_conjunction _ _).bind fun _ _ ↦
    .pure ⟨hc.lock, hc.limit, hc.offset, hc.nulls⟩

theorem IsWritable.project {c' : Compiled} {columns : List Nat} (hc : c.IsWritable server)
    (h : c.project columns = .ok c') : c'.IsWritable server := by
  obtain ⟨chosen, -, rfl⟩ := project_ok h
  exact ⟨hc.lock, hc.limit, hc.offset, hc.nulls⟩

theorem keeps_extend {columns : List Calculation} (hc : c.IsWritable server)
    (h : ∀ k ∈ columns, k.expr.IsFinite) : Keeps server (c.extend columns) (IsWritable server) := by
  induction columns generalizing c with
  | nil => exact .pure hc
  | cons k columns ih =>
    rw [List.forall_mem_cons] at h
    exact (keeps_scalar _ k.expr h.1).bind fun _ _ ↦
      ih ⟨hc.lock, hc.limit, hc.offset, hc.nulls⟩ h.2

theorem keeps_joinCondition (left right : List Tree) (condition : Option Tree)
    (pairs : List (Nat × Nat)) :
    Keeps server (joinCondition left right condition pairs) fun _ ↦ True := by
  induction pairs generalizing condition with
  | nil => exact .pure trivial
  | cons p pairs ih =>
    exact (Keeps.lift (q := fun _ ↦ True) fun _ _ ↦ trivial).bind fun _ _ ↦
      (Keeps.lift (q := fun _ ↦ True) fun _ _ ↦ trivial).bind fun _ _ ↦
      Keeps.bind (.node trivial) fun _ _ ↦ (keeps_conjunction _ _).bind fun _ _ ↦ ih _

theorem keeps_bothOf (a b : Option Tree) : Keeps server (bothOf a b) fun _ ↦ True := by
  unfold bothOf
  split
  · exact Keeps.map (.node trivial) fun _ _ ↦ trivial
  · exact .pure trivial

theorem keeps_outerCondition (condition : Option Tree) :
    Keeps server (outerCondition condition) fun _ ↦ True := by
  cases condition with
  | some c => exact .pure trivial
  | none =>
    exact Keeps.bind (.node trivial) fun _ _ ↦ Keeps.bind (.node trivial) fun _ _ ↦ .node trivial

theorem keeps_restrictedBy (filter : Option Tree) (on : Tree) :
    Keeps server (restrictedBy filter on) fun _ ↦ True := by
  cases filter with
  | some f => exact Keeps.node (n := .binary .and on f) trivial
  | none => exact .pure trivial

theorem keeps_joinParts (type : JoinType) (condition left right : Option Tree) :
    Keeps server (joinParts type condition left right) fun _ ↦ True := by
  cases type with
  | inner =>
    rw [joinParts_inner_eq]
    exact (keeps_bothOf left right).bind fun _ _ ↦ .pure trivial
  | leftOuter =>
    rw [joinParts_leftOuter_eq]
    exact (keeps_outerCondition condition).bind fun on _ ↦
      (keeps_restrictedBy right on).bind fun _ _ ↦ .pure trivial

theorem keeps_join {left right : Compiled} (hl : left.IsWritable server)
    (hr : right.IsWritable server) (type : JoinType) (pairs : List (Nat × Nat)) :
    Keeps server (left.join right type pairs) fun o ↦ ∀ c ∈ o, c.IsWritable server := by
  refine (keeps_wrapFor .join hl).bind fun l _ ↦ (keeps_wrapFor .join hr).bind fun r _ ↦ ?_
  split
  · exact (keeps_joinCondition _ _ _ _).bind fun _ _ ↦ (keeps_joinParts _ _ _ _).bind fun _ _ ↦
      Keeps.bind (.node trivial) fun _ _ ↦
      .pure (by simp only [Option.mem_some_iff]; rintro _ rfl; constructor <;> simp)
  · exact .pure (by simp)

theorem keeps_aggregateCall (a : Aggregation) (header : Header) (operand : Option Tree) :
    Keeps server (aggregateCall a header operand) fun _ ↦ True := by
  refine Keeps.bind (.node trivial) fun _ _ ↦ ?_
  split
  · exact .node trivial
  · exact .pure trivial

theorem keeps_aggregateExpr (a : Aggregation) (header : Header) (exprs : List Tree) :
    Keeps server (aggregateExpr a header exprs) fun _ ↦ True := by
  refine Keeps.bind (Keeps.mapM_option fun _ _ ↦ .lift fun _ _ ↦ trivial) fun operand _ ↦ ?_
  by_cases h : a.kind ≠ .count ∧ operand.isNone
  · simp only [if_pos h]
    exact Keeps.bind (q := fun _ ↦ True) (.throw _) fun _ _ ↦
      keeps_aggregateCall a header operand
  · simp only [if_neg h]
    exact keeps_aggregateCall a header operand

theorem keeps_aggregateColumns (groups : Compiled) (aggregates : List Aggregation) :
    Keeps server (c.aggregateColumns groups aggregates) fun _ ↦ True := by
  induction aggregates generalizing groups with
  | nil => exact .pure trivial
  | cons a aggregates ih => exact (keeps_aggregateExpr a _ _).bind fun _ _ ↦ ih _

theorem keeps_aggregate (hc : c.IsWritable server) (groupBy : List Nat)
    (aggregates : List Aggregation) :
    Keeps server (c.aggregate groupBy aggregates) (IsWritable server) :=
  (Keeps.lift (q := fun _ ↦ True) fun _ _ ↦ trivial).bind fun _ _ ↦
    (keeps_aggregateColumns _ _).bind fun _ _ ↦
    .pure ⟨hc.lock, hc.limit, hc.offset, by simp⟩

theorem IsWritable.sort {c' : Compiled} {order : List SortItem} (hc : c.IsWritable server)
    (h : c.sort order = .ok c') : c'.IsWritable server := by
  obtain ⟨orderBy, hs, rfl⟩ := sort_ok h
  refine ⟨hc.lock, hc.limit, hc.offset, fun k hk ↦ ?_⟩
  obtain ⟨item, -, t, -, rfl⟩ := exists_of_mem_forall₂ hs hk
  rfl

theorem IsWritable.distinct (hc : c.IsWritable server) : c.distinct.IsWritable server :=
  ⟨hc.lock, hc.limit, hc.offset, fun k hk ↦ hc.nulls k (List.mem_filter.1 hk).1⟩

private theorem nulls_headerOrder (exprs : List Tree) (header : Header) :
    ∀ k ∈ headerOrder exprs header, k.nullsFirst = none := by
  intro k hk
  obtain ⟨item, -, hi⟩ := List.mem_filterMap.1 hk
  obtain ⟨t, -, rfl⟩ := Option.map_eq_some_iff.1 hi
  rfl

theorem IsWritable.ordered (hc : c.IsWritable server) (isWanted : Bool) :
    (c.ordered isWanted).IsWritable server := by
  unfold Compiled.ordered
  split
  · exact ⟨hc.lock, hc.limit, hc.offset, nulls_headerOrder _ _⟩
  · exact hc

theorem keeps_minCount (a b : Tree) : Keeps server (minCount a b) fun _ ↦ True := by
  unfold minCount
  split
  · exact .node trivial
  · exact Keeps.bind (.node trivial) fun _ _ ↦ .node trivial

theorem keeps_sumCounts (a b : Tree) : Keeps server (sumCounts a b) fun _ ↦ True := by
  unfold sumCounts
  split
  · exact .node trivial
  · exact .node trivial

theorem keeps_limit (hc : c.IsWritable server) (hl : server.limit) (count : Tree)
    (isOrdered : Bool) : Keeps server (c.limit count isOrdered) (IsWritable server) := by
  have limited (l : Tree) : IsWritable server
      (Compiled.ordered { c with select := { c.select with limit := some l } } isOrdered) :=
    IsWritable.ordered (c := ⟨{ c.select with limit := some l }, c.header⟩)
      ⟨hc.lock, fun _ ↦ hl, hc.offset, hc.nulls⟩ _
  simp only [limit]
  split
  · exact (keeps_minCount _ _).bind fun l _ ↦ .pure (limited l)
  · exact .pure (limited count)

theorem keeps_offset (hc : c.IsWritable server) (ho : server.offset) (count : Tree)
    (isOrdered : Bool) : Keeps server (c.offset count isOrdered) (IsWritable server) := by
  have skipped (l : Tree) : IsWritable server
      (Compiled.ordered { c with select := { c.select with offset := some l } } isOrdered) :=
    IsWritable.ordered (c := ⟨{ c.select with offset := some l }, c.header⟩)
      ⟨hc.lock, hc.limit, fun _ ↦ ho, hc.nulls⟩ _
  simp only [offset]
  split
  · exact (keeps_sumCounts _ _).bind fun l _ ↦ .pure (skipped l)
  · exact .pure (skipped count)

theorem keeps_lastNumber (skip : Option Tree) (count : Tree) :
    Keeps server (lastNumber skip count) fun _ ↦ True := by
  cases skip with
  | some s => exact keeps_sumCounts s count
  | none => exact .pure trivial

theorem keeps_numberCondition (row : Tree) (skip take : Option Tree) :
    Keeps server (numberCondition row skip take) fun _ ↦ True := by
  rw [numberCondition_eq]
  exact (Keeps.mapM_option fun s _ ↦ Keeps.node (n := .binary .gt row s) trivial).bind fun l _ ↦
    (Keeps.mapM_option fun t _ ↦ (keeps_lastNumber skip t).bind fun last _ ↦
      Keeps.node (n := .binary .ltEq row last) trivial).bind fun u _ ↦ keeps_bothOf l u

theorem keeps_numberedPage (hc : c.IsWritable server) (hr : server.rowNumber)
    {skip take : Option Scalar} (hs : ∀ e ∈ skip, e.IsFinite) (ht : ∀ e ∈ take, e.IsFinite) :
    Keeps server (c.numberedPage skip take) (IsWritable server) := by
  have order : ∀ k ∈ c.numberingOrder, k.nullsFirst = none := by
    unfold numberingOrder
    split
    · exact hc.nulls
    · dsimp only
      split
      · exact nulls_headerOrder _ _
      · intro k hk
        obtain ⟨t, -, rfl⟩ := List.mem_map.1 hk
        rfl
  have numbered : Keeps server c.numbered fun s ↦ s.Writable server := by
    refine (Keeps.node (n := .rowNumber c.numberingOrder) ⟨hr, order⟩).bind fun _ _ ↦ .pure ?_
    refine ⟨hc.lock, hc.limit, hc.offset, fun k hk ↦ ?_⟩
    dsimp only at hk
    split at hk
    · exact hc.nulls k hk
    · cases hk
  refine numbered.bind fun s hs' ↦ Keeps.nextAlias.bind fun _ _ ↦
    (Keeps.node (n := .select s) hs').bind fun _ _ ↦ Keeps.bind (.node trivial) fun _ _ ↦
    (keeps_selectAll _ _ _).bind fun outer ho ↦ Keeps.bind (.node trivial) fun row _ ↦
    (Keeps.mapM_option fun e he ↦ keeps_scalar [] e (hs e he)).bind fun _ _ ↦
    (Keeps.mapM_option fun e he ↦ keeps_scalar [] e (ht e he)).bind fun _ _ ↦
    (keeps_numberCondition _ _ _).bind fun _ _ ↦ .pure (isWritable_selectAll ho ?_)
  simp [SortKey.of]

end Compiled

namespace Strategy

open Compiled

variable {source : Drafting (Option Compiled)} {change : Compiled → Drafting Compiled}

/-- Every select of an optional one is writable. -/
private abbrev AnyWritable (server : Server) (o : Option Compiled) : Prop :=
  ∀ c ∈ o, c.IsWritable server

private theorem keeps_some {m : Drafting Compiled} (h : Keeps server m (IsWritable server)) :
    Keeps server (some <$> m) (AnyWritable server) := by
  refine h.map fun c hc c' hc' ↦ ?_
  rw [Option.mem_some_iff] at hc'
  exact hc' ▸ hc

private theorem keeps_none : Keeps server (Pure.pure none) (AnyWritable server) :=
  .pure (fun _ h ↦ nomatch h)

private theorem keeps_on (hs : Keeps server source (AnyWritable server))
    (hc : ∀ c, c.IsWritable server → Keeps server (change c) (IsWritable server)) :
    Keeps server (on source change) (AnyWritable server) := by
  refine hs.bind fun o ho ↦ ?_
  cases o with
  | none => exact keeps_none
  | some c =>
    refine (hc c (ho c rfl)).bind fun c' hc' ↦ .pure fun c'' h ↦ ?_
    rw [Option.mem_some_iff] at h
    exact h ▸ hc'

private theorem keeps_ifNative {attempt : Drafting (Option Compiled)}
    (h : Keeps server attempt (AnyWritable server)) (s : Strategy) :
    Keeps server (ifNative attempt s) (AnyWritable server) := by
  cases s with
  | native => exact h
  | numberedPages => exact keeps_none

private theorem keeps_attemptPage {hasClauses : Bool} {skip take : Option Scalar}
    (hs : Keeps server source (AnyWritable server))
    (hc : hasClauses → ∀ c, c.IsWritable server → Keeps server (change c) (IsWritable server))
    (hskip : ∀ e ∈ skip, e.IsFinite) (htake : ∀ e ∈ take, e.IsFinite) (s : Strategy) :
    Keeps server (attemptPage server hasClauses source change skip take s)
      (AnyWritable server) := by
  cases s with
  | native =>
    simp only [attemptPage]
    split
    · next h => exact keeps_on hs (hc h)
    · exact keeps_none
  | numberedPages =>
    simp only [attemptPage]
    split
    · next h => exact keeps_on hs fun c hw ↦ keeps_numberedPage hw h hskip htake
    · exact keeps_none

private theorem keeps_firstOf {attempt : Strategy → Drafting (Option Compiled)}
    (h : ∀ s, Keeps server (attempt s) (AnyWritable server)) (strategies : List Strategy) :
    Keeps server (firstOf attempt strategies) (AnyWritable server) := by
  induction strategies with
  | nil => exact keeps_none
  | cons s rest ih =>
    refine (h s).bind fun o ho ↦ ?_
    cases o with
    | none => exact ih
    | some c => exact .pure ho

end Strategy

namespace Relation

open Draft Compiled Strategy

variable {strategies : List Strategy}

private theorem keeps_both {left right : Drafting (Option Compiled)}
    (hl : Keeps server left (AnyWritable server)) (hr : Keeps server right (AnyWritable server))
    (type : JoinType) (pairs : List (Nat × Nat)) : Keeps server (do
      match ← left with
      | none => return none
      | some l =>
        match ← right with
        | none => return none
        | some r => l.join r type pairs) (AnyWritable server) := by
  refine hl.bind fun l hl ↦ ?_
  cases l with
  | none => exact keeps_none
  | some l =>
    refine hr.bind fun r hr ↦ ?_
    cases r with
    | none => exact keeps_none
    | some r => exact keeps_join (hl l rfl) (hr r rfl) type pairs

/-- A relation without locks and with finite constants becomes a writable select. -/
theorem keeps_draft {r : Relation} (free : r.LockFree) (finite : r.FloatsFinite) :
    Keeps server (r.draft server strategies) fun o ↦ ∀ c ∈ o, c.IsWritable server := by
  induction r with
  | table t => exact keeps_firstOf (keeps_ifNative (keeps_some (keeps_ofTable t))) _
  | native sql header =>
    exact keeps_firstOf (keeps_ifNative (keeps_some (keeps_ofNative sql header))) _
  | filter r e ih =>
    exact keeps_firstOf (keeps_ifNative (keeps_on (ih free finite.1) fun c hc ↦
      (keeps_wrapFor _ hc).bind fun w hw ↦ keeps_filter hw finite.2)) _
  | project r columns ih =>
    exact keeps_firstOf (keeps_ifNative (keeps_on (ih free finite) fun c hc ↦
      (keeps_wrapFor _ hc).bind fun w hw ↦ .lift fun _ h ↦ hw.project h)) _
  | extend r columns ih =>
    exact keeps_firstOf (keeps_ifNative (keeps_on (ih free finite.1) fun c hc ↦
      (keeps_wrapFor _ hc).bind fun w hw ↦ keeps_extend hw finite.2)) _
  | join a b type pairs iha ihb =>
    exact keeps_firstOf (keeps_ifNative
      (keeps_both (iha free.1 finite.1) (ihb free.2 finite.2) type pairs)) _
  | aggregate r groupBy aggregates ih =>
    exact keeps_firstOf (keeps_ifNative (keeps_on (ih free finite) fun c hc ↦
      (keeps_wrapFor _ hc).bind fun w hw ↦ keeps_aggregate hw groupBy aggregates)) _
  | sort r order ih =>
    exact keeps_firstOf (keeps_ifNative (keeps_on (ih free finite) fun c hc ↦
      (keeps_wrapFor _ hc).bind fun w hw ↦ .lift fun _ h ↦ hw.sort h)) _
  | distinct r ih =>
    exact keeps_firstOf (keeps_ifNative (keeps_on (ih free finite) fun c hc ↦
      (keeps_wrapFor _ hc).bind fun w hw ↦ .pure hw.distinct)) _
  | take r count ih =>
    exact keeps_firstOf (keeps_attemptPage (ih free finite.1)
      (fun h c hc ↦ (keeps_scalar [] count finite.2).bind fun t _ ↦ keeps_limit hc h t _)
      (by simp) (by simpa using finite.2)) _
  | skip r count ih =>
    exact keeps_firstOf (keeps_attemptPage (ih free finite.1)
      (fun h c hc ↦ (keeps_wrapFor _ hc).bind fun w hw ↦
        (keeps_scalar [] count finite.2).bind fun t _ ↦ keeps_offset hw h t _)
      (by simpa using finite.2) (by simp)) _
  | page r leaving taking ih =>
    obtain ⟨fr, fl, ft⟩ := finite
    refine keeps_firstOf (keeps_attemptPage (ih free fr) (fun h c hc ↦ ?_)
      (by simpa using fl) (by simpa using ft)) _
    rw [Bool.and_eq_true] at h
    exact (keeps_wrapFor _ hc).bind fun w hw ↦ (keeps_scalar [] leaving fl).bind fun t _ ↦
      (keeps_offset hw h.2 t _).bind fun s hs ↦ (keeps_scalar [] taking ft).bind fun u _ ↦
      keeps_limit hs h.1 u _
  | lock r l ih => exact free.elim

end Relation

end SqlWright
