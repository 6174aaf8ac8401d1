import SqlWright.Proofs.Drafting.Nested
import SqlWright.Proofs.Ordering.Headers

/-!
# Keys that are literals

Servers read an integer that rows are ordered or grouped by as the position of an output column.
A column that is calculated as a constant is a literal wherever its expression is used, unless it is
read from a derived table. So a sort by such a column, a grouping by it or a page in its order has a
literal for a key, and these are the only ways to get one. All of it goes for whatever kind of
literals.
-/

namespace SqlWright

variable {d d' : Draft} {c c' : Compiled} {kind : Literal → Bool}

open Drafting Draft Compiled

/-! ### Literals -/

/-- Whether the literal is an integer, which servers read as the position of a column. -/
def Literal.isInteger : Literal → Bool
  | .integer _ => true
  | _ => false

/-- Whether the node is a literal of the kind. -/
def Node.isLiteral {α : Type} (kind : Literal → Bool) : Node α → Bool
  | .literal value => kind value
  | _ => false

/-- No key that the node orders or groups by is a literal of the kind. -/
def Node.KeysAvoid (kind : Literal → Bool) : Node Tree → Prop
  | .select s => (∀ k ∈ s.orderBy, k.expr.node.isLiteral kind = false) ∧
      ∀ t ∈ s.groupBy, t.node.isLiteral kind = false
  | .rowNumber keys => ∀ k ∈ keys, k.expr.node.isLiteral kind = false
  | _ => True

/-- Whether the expression is a literal of the kind, over columns some of which are. -/
def Scalar.isLiteral (kind : Literal → Bool) (columns : List Bool) : Scalar → Bool
  | .column i => columns.getD i false
  | .constant value => kind value
  | _ => false

namespace Relation

/-- Which columns are calculated as literals of the kind. -/
def literalColumns (kind : Literal → Bool) : Relation → List Bool
  | table t => List.replicate t.columns.length false
  | native _ header => List.replicate header.size false
  | project r columns => columns.map ((r.literalColumns kind).getD · false)
  | extend r columns =>
    columns.foldl (fun flags k ↦ flags ++ [k.expr.isLiteral kind flags]) (r.literalColumns kind)
  | join a b _ _ => a.literalColumns kind ++ b.literalColumns kind
  | aggregate r groupBy aggregates =>
    groupBy.map ((r.literalColumns kind).getD · false) ++ aggregates.map fun _ ↦ false
  | filter r _ | sort r _ | distinct r | take r _ | skip r _ | page r _ _ | lock r _ =>
    r.literalColumns kind

/-- The column is not calculated as a literal of the kind. -/
def ColumnAvoids (kind : Literal → Bool) (r : Relation) (i : Nat) : Prop :=
  (r.literalColumns kind).getD i false = false

/-- Columns that rows come in the order of, or the first column if there is no order, are not
calculated as literals of the kind. -/
def OrderAvoids (kind : Literal → Bool) (r : Relation) : Prop :=
  (∀ item ∈ r.order, r.ColumnAvoids kind item.column) ∧ (r.IsOrdered ∨ r.ColumnAvoids kind 0)

/-- Columns that the operation sorts, groups or pages by are not calculated as literals of the
kind. -/
def OperationAvoids (kind : Literal → Bool) : Relation → Prop
  | sort r order => ∀ item ∈ order, r.ColumnAvoids kind item.column
  | aggregate r groupBy _ => ∀ i ∈ groupBy, r.ColumnAvoids kind i
  | take r _ | skip r _ | page r _ _ => r.OrderAvoids kind
  | _ => True

/-- No operation of the relation sorts, groups or pages by a column that is calculated as a literal
of the kind. -/
def KeysAvoid (kind : Literal → Bool) (r : Relation) : Prop :=
  ∀ p ∈ r.parts, p.OperationAvoids kind

theorem KeysAvoid.of_mem_parts {r p : Relation} (h : r.KeysAvoid kind) (hp : p ∈ r.parts) :
    p.KeysAvoid kind := fun q hq ↦ h q (mem_parts_trans hq hp)

theorem KeysAvoid.tail {r p : Relation} (h : r.KeysAvoid kind) (hp : p ∈ r.parts.tail) :
    p.KeysAvoid kind := h.of_mem_parts (List.mem_of_mem_tail hp)

end Relation

/-! ### Columns that are literals -/

/-- Each flag stands in a relation to whether the expression is a literal of the kind. With `=` the
flags are exact; with `≤` a flag can be set for a column that is read from a derived table. -/
def Flagged (R : Bool → Bool → Prop) (kind : Literal → Bool) : List Tree → List Bool → Prop :=
  List.Forall₂ fun t flag ↦ R (t.node.isLiteral kind) flag

theorem isLiteral_of_node {n : Node Tree} {t : Tree} (h : node n d = .ok (t, d')) :
    t.node.isLiteral kind = n.isLiteral kind := by
  obtain ⟨rfl, -⟩ := node_ok.1 h
  rfl

/-- Binary expressions are no literals. -/
theorem isLiteral_of_binary {op : BinaryOp} {left right : Scalar} {l r t : Tree}
    (h : binary op left right l r d = .ok (t, d')) : t.node.isLiteral kind = false := by
  have nullAware {value parameterNode : Tree} {p : Parameter}
      (h : nullAware op value parameterNode p d = .ok (t, d')) :
      t.node.isLiteral kind = false := by
    simp only [Draft.nullAware, bind_ok] at h
    obtain ⟨_, _, -, _, _, -, h⟩ := h
    exact isLiteral_of_node h
  unfold binary at h
  split at h
  · split at h
    · exact nullAware h
    · exact nullAware h
    · exact isLiteral_of_node h
  · exact isLiteral_of_node h

/-- Columns of a row source are no literals. -/
theorem isLiteral_of_selectAll {source : Tree} {label : String} {header : Header}
    {s : Select Tree} (h : selectAll source label header d = .ok (s, d')) :
    ∀ t ∈ s.exprs, t.node.isLiteral kind = false := by
  obtain ⟨exprs, rfl, nodes⟩ := selectAll_ok h
  intro t ht
  have column : t.node ∈ exprs.map Tree.node :=
    List.mem_map_of_mem (by simpa [Select.exprs] using ht)
  rw [nodes] at column
  obtain ⟨_, -, same⟩ := List.mem_map.1 column
  rw [← same]
  rfl

namespace Flagged

variable {R : Bool → Bool → Prop} {ts : List Tree} {flags : List Bool}

theorem get (h : Flagged R kind ts flags) {i : Nat} {t : Tree} (ht : ts[i]? = some t) :
    R (t.node.isLiteral kind) (flags.getD i false) := by
  induction h generalizing i with
  | nil => cases ht
  | cons head _ ih =>
    cases i with
    | zero =>
      cases ht
      exact head
    | succ i => exact ih ht

/-- Expressions that are no literals. -/
theorem of_columns (columns : ∀ t ∈ ts, t.node.isLiteral kind = false)
    (length : ts.length = flags.length) (unset : ∀ flag ∈ flags, R false flag) :
    Flagged R kind ts flags := by
  refine List.forall₂_iff_zip.2 ⟨length, fun {t flag} h ↦ ?_⟩
  obtain ⟨ht, hf⟩ := List.of_mem_zip h
  rw [columns t ht]
  exact unset flag hf

/-- Expressions at some positions. -/
theorem positions {us : List Tree} {is : List Nat} (h : Flagged R kind ts flags)
    (found : List.Forall₂ (fun i t ↦ ts[i]? = some t) is us) :
    Flagged R kind us (is.map (flags.getD · false)) :=
  List.forall₂_map_right_iff.2 (found.flip.imp fun _ _ ↦ h.get)

variable (same : ∀ flag, R flag flag)
include same

/-- Of the expressions over columns, constants and columns can be literals. -/
theorem scalar {e : Scalar} {t : Tree} (h : Flagged R kind ts flags)
    (he : Draft.scalar ts e d = .ok (t, d')) :
    R (t.node.isLiteral kind) (e.isLiteral kind flags) := by
  have other (none : t.node.isLiteral kind = false) (plain : e.isLiteral kind flags = false) :
      R (t.node.isLiteral kind) (e.isLiteral kind flags) := by
    rw [none, plain]
    exact same false
  cases e with
  | column i => exact h.get (columnAt_ok.1 (lift_ok.1 he).1)
  | constant value =>
    rw [isLiteral_of_node he]
    exact same _
  | null =>
    obtain ⟨rfl, -⟩ := pure_ok.1 he
    exact same false
  | parameter _ | placeholder _ => exact other (isLiteral_of_node he) rfl
  | typeIs _ _ =>
    simp only [Draft.scalar, bind_ok] at he
    obtain ⟨_, _, -, _, _, -, he⟩ := he
    exact other (isLiteral_of_node he) rfl
  | binary _ _ _ =>
    simp only [Draft.scalar, bind_ok] at he
    obtain ⟨_, _, -, _, _, -, he⟩ := he
    exact other (isLiteral_of_binary he) rfl
  | unary _ _ | function _ _ =>
    simp only [Draft.scalar, bind_ok] at he
    obtain ⟨_, _, -, he⟩ := he
    exact other (isLiteral_of_node he) rfl
  | inList _ _ =>
    simp only [Draft.scalar, bind_ok] at he
    obtain ⟨us, _, -, he⟩ := he
    cases us with
    | nil => exact (throw_ok he).elim
    | cons first others => exact other (isLiteral_of_node he) rfl

theorem extend {columns : List Calculation} (h : Flagged R kind c.select.exprs flags)
    (he : c.extend columns d = .ok (c', d')) :
    Flagged R kind c'.select.exprs
      (columns.foldl (fun flags k ↦ flags ++ [k.expr.isLiteral kind flags]) flags) := by
  induction columns generalizing c d flags with
  | nil =>
    obtain ⟨rfl, -⟩ := pure_ok.1 he
    exact h
  | cons k columns ih =>
    simp only [Compiled.extend, bind_ok] at he
    obtain ⟨expr, d₁, hs, he⟩ := he
    refine ih ?_ he
    rw [exprs_appendColumn]
    exact List.rel_append h (.cons (h.scalar same hs) .nil)

/-- Aggregates are no literals. -/
theorem aggregate {groupBy : List Nat} {aggregates : List Aggregation}
    (h : Flagged R kind c.select.exprs flags)
    (ha : c.aggregate groupBy aggregates d = .ok (c', d')) :
    Flagged R kind c'.select.groupBy (groupBy.map (flags.getD · false)) ∧
      Flagged R kind c'.select.exprs
        (groupBy.map (flags.getD · false) ++ aggregates.map fun _ ↦ false) := by
  obtain ⟨groups, all, hg, hall, rfl⟩ := aggregate_ok ha
  obtain ⟨keys, hkeys, found⟩ := exprs_groupColumns hg
  obtain ⟨calls, hcalls, computed⟩ := exprs_aggregateColumns hall
  have grouped : groups.select.exprs = keys := hkeys
  rw [grouped] at hcalls
  refine ⟨grouped ▸ h.positions found, ?_⟩
  have unset : Flagged R kind calls (aggregates.map fun _ ↦ false) := by
    refine List.forall₂_map_right_iff.2 (computed.flip.imp ?_)
    rintro t a ⟨d₁, d₂, he⟩
    obtain ⟨operand, call, d₃, -, -, hcall, ⟨type, -, ht⟩ | ⟨-, rfl, -⟩⟩ := aggregateExpr_ok he
    · rw [isLiteral_of_node ht]
      exact same false
    · rw [isLiteral_of_node hcall]
      exact same false
  exact hcalls ▸ List.rel_append (h.positions found) unset

end Flagged

/-! ### Keys of drafted selects -/

namespace Relation

variable {r p : Relation} {server : Server} {strategies : List Strategy}

theorem KeysAvoid.order {skip take : Option Scalar} (h : p.KeysAvoid kind)
    (page : r.IsPage p skip take) : r.OrderAvoids kind := by
  have avoid := h p (mem_parts_self p)
  cases page <;> exact avoid

/-- Only columns that are calculated as literals of the kind are such literals, and no key is one
if no operation sorts, groups or pages by these. -/
structure Avoids (kind : Literal → Bool) (r : Relation) (c : Compiled) : Prop where
  columns : Flagged (· ≤ ·) kind c.select.exprs (r.literalColumns kind)
  keys : r.KeysAvoid kind → (Node.select c.select).KeysAvoid kind

namespace Avoids

theorem isLiteral_getElem? (hc : r.Avoids kind c) {i : Nat} {t : Tree}
    (ht : c.select.exprs[i]? = some t) (avoid : r.ColumnAvoids kind i) :
    t.node.isLiteral kind = false := by
  have le := hc.columns.get ht
  rw [avoid] at le
  exact le_bot_iff.1 le

/-- Columns of a row source, not grouped. -/
theorem ofSelectAll {source : Tree} {label : String} {header : Header} {s : Select Tree}
    (h : selectAll source label header d = .ok (s, d'))
    (length : c.select.exprs.length = (r.literalColumns kind).length)
    (columns : c.select.columns = s.columns) (groupBy : c.select.groupBy = s.groupBy)
    (ordered : ∀ k ∈ c.select.orderBy,
      k ∈ s.orderBy ∨ k.expr ∈ s.exprs ∨ k.expr.node.isLiteral kind = false) :
    r.Avoids kind c := by
  have exprs : ∀ t ∈ s.exprs, t.node.isLiteral kind = false := isLiteral_of_selectAll h
  refine ⟨.of_columns ?_ length fun _ _ ↦ Bool.false_le _, fun _ ↦ ?_⟩
  · rw [Select.exprs, columns]
    exact exprs
  · obtain ⟨_, rfl, -⟩ := selectAll_ok h
    refine ⟨fun k hk ↦ ?_, by simp [groupBy]⟩
    obtain none | output | avoids := ordered k hk
    · cases none
    · exact exprs k.expr output
    · exact avoids

theorem wrapFor {op : Operation} (hc : r.Avoids kind c) (width : c.HasWidth r.width)
    (h : c.wrapFor op d = .ok (c', d')) : r.Avoids kind c' := by
  have length := ((decides_wrapFor op width _).ok h).2.exprs.trans
    (width.exprs.symm.trans hc.columns.length_eq)
  unfold Compiled.wrapFor at h
  split at h
  · obtain ⟨_, _, _, _, outer, -, -, ho, rfl⟩ := wrap_ok h
    exact ofSelectAll ho length rfl rfl fun k hk ↦ .inr (.inl (mem_of_mem_outerOrder hk))
  · obtain ⟨rfl, -⟩ := pure_ok.1 h
    exact hc

/-- A page of the rows has the columns of the source. -/
theorem ofPage {skip take : Option Scalar} (page : r.IsPage p skip take) (hc : r.Avoids kind c) :
    p.Avoids kind c := by
  cases page <;> exact ⟨hc.columns, fun avoid ↦ hc.keys (avoid.tail (mem_parts_self r))⟩

theorem headerOrder (hc : r.Avoids kind c) (order : c.header.order = r.order)
    (avoid : ∀ item ∈ r.order, r.ColumnAvoids kind item.column) :
    ∀ k ∈ headerOrder c.select.exprs c.header, k.expr.node.isLiteral kind = false := by
  intro k hk
  obtain ⟨item, hi, hk⟩ := List.mem_filterMap.1 hk
  obtain ⟨t, ht, rfl⟩ := Option.map_eq_some_iff.1 hk
  exact hc.isLiteral_getElem? ht (avoid item (order ▸ hi))

theorem ordered {isWanted : Bool} (hc : p.Avoids kind c)
    (sorted : isWanted → p.KeysAvoid kind →
      ∀ k ∈ Compiled.headerOrder c.select.exprs c.header, k.expr.node.isLiteral kind = false) :
    p.Avoids kind (c.ordered isWanted) := by
  unfold Compiled.ordered
  split
  · next wanted =>
    rw [Bool.and_eq_true] at wanted
    exact ⟨hc.columns, fun avoid ↦ ⟨sorted wanted.1 avoid, (hc.keys avoid).2⟩⟩
  · exact hc

theorem limit {count : Tree} {isOrdered : Bool} (hc : p.Avoids kind c)
    (sorted : isOrdered → p.KeysAvoid kind →
      ∀ k ∈ Compiled.headerOrder c.select.exprs c.header, k.expr.node.isLiteral kind = false)
    (h : c.limit count isOrdered d = .ok (c', d')) : p.Avoids kind c' := by
  obtain ⟨l, -, rfl⟩ := limit_ok h
  have limited : p.Avoids kind { c with select := { c.select with limit := some l } } :=
    ⟨hc.columns, hc.keys⟩
  exact limited.ordered sorted

theorem offset {count : Tree} {isOrdered : Bool} (hc : p.Avoids kind c)
    (sorted : isOrdered → p.KeysAvoid kind →
      ∀ k ∈ Compiled.headerOrder c.select.exprs c.header, k.expr.node.isLiteral kind = false)
    (h : c.offset count isOrdered d = .ok (c', d')) : p.Avoids kind c' := by
  obtain ⟨l, -, rfl⟩ := offset_ok h
  have skipped : p.Avoids kind { c with select := { c.select with offset := some l } } :=
    ⟨hc.columns, hc.keys⟩
  exact skipped.ordered sorted

end Avoids

/-- However a relation becomes a select, its keys avoid literals if its operations do. -/
theorem Drafted.avoids (h : r.Drafted server d c d') : r.Avoids kind c := by
  induction h with
  | later _ _ ih => exact ih
  | @table t _ _ _ h =>
    have length := ((decides_ofTable t _).ok h).2.exprs
    obtain ⟨_, _, -, hs, -⟩ := ofTable_ok h
    exact .ofSelectAll hs (length.trans List.length_replicate.symm) rfl rfl fun _ ↦ .inl
  | @native sql header _ _ _ h =>
    have length := ((decides_ofNative sql header _).ok h).2.exprs
    obtain ⟨_, _, _, _, -, -, hs, -⟩ := ofNative_ok h
    exact .ofSelectAll hs (length.trans List.length_replicate.symm) rfl rfl fun _ ↦ .inl
  | filter h hw hf ih =>
    have wrapped := ih.wrapFor h.heads.width hw
    obtain ⟨_, _, _, -, -, rfl⟩ := filter_ok hf
    exact ⟨wrapped.columns, fun avoid ↦ wrapped.keys (avoid.tail (mem_parts_self _))⟩
  | project h hw hp ih =>
    have wrapped := ih.wrapFor h.heads.width hw
    have columns := wrapped.columns.positions (exprs_project hp)
    obtain ⟨_, -, rfl⟩ := project_ok hp
    exact ⟨columns, fun avoid ↦ wrapped.keys (avoid.tail (mem_parts_self _))⟩
  | extend h hw he ih =>
    have wrapped := ih.wrapFor h.heads.width hw
    have columns := Flagged.extend (fun _ ↦ le_rfl) wrapped.columns he
    refine ⟨columns, fun avoid ↦ ?_⟩
    rw [select_extend he]
    exact wrapped.keys (avoid.tail (mem_parts_self _))
  | join hl hr hj iha ihb =>
    obtain ⟨a, _, b, _, _, _, _, _, _, _, _, _, _, hwl, hwr, -, -, -, -, -, rfl⟩ := join_ok hj
    have left := iha.wrapFor hl.heads.width hwl
    have right := ihb.wrapFor hr.heads.width hwr
    have width := ((decides_wrapFor _ hr.heads.width _).ok hwr).2
    have exprs : (joinColumns a b).select.exprs = a.select.exprs ++ b.select.exprs :=
      exprs_joinColumns (width.columns.trans width.header.symm).le
    have columns : Flagged (· ≤ ·) kind (a.select.exprs ++ b.select.exprs) _ :=
      List.rel_append left.columns right.columns
    rw [← exprs] at columns
    exact ⟨columns, fun _ ↦ ⟨by simp, by simp⟩⟩
  | aggregate h hw ha ih =>
    have wrapped := ih.wrapFor h.heads.width hw
    obtain ⟨groups, columns⟩ := wrapped.columns.aggregate (fun _ ↦ le_rfl) ha
    refine ⟨columns, fun avoid ↦ ⟨?_, ?_⟩⟩
    · obtain ⟨_, _, -, -, rfl⟩ := aggregate_ok ha
      simp
    · intro t ht
      obtain ⟨flag, hflag, le⟩ := exists_of_mem_forall₂ groups.flip ht
      obtain ⟨i, hi, rfl⟩ := List.mem_map.1 hflag
      rw [avoid _ (mem_parts_self _) i hi] at le
      exact le_bot_iff.1 le
  | sort h hw hs ih =>
    have wrapped := ih.wrapFor h.heads.width hw
    obtain ⟨orderBy, keys, rfl⟩ := sort_ok hs
    refine ⟨wrapped.columns, fun avoid ↦ ?_⟩
    refine ⟨fun k hk ↦ ?_, (wrapped.keys (avoid.tail (mem_parts_self _))).2⟩
    obtain ⟨item, hi, t, ht, rfl⟩ := exists_of_mem_forall₂ keys hk
    exact wrapped.isLiteral_getElem? ht (avoid _ (mem_parts_self _) item hi)
  | distinct h hw ih =>
    have wrapped := ih.wrapFor h.heads.width hw
    refine ⟨wrapped.columns, fun avoid ↦ ?_⟩
    obtain ⟨keys, groups⟩ := wrapped.keys (avoid.tail (mem_parts_self _))
    exact ⟨fun k hk ↦ keys k (List.mem_filter.1 hk).1, groups⟩
  | take _ h _ hl ih =>
    exact (ih.ofPage (.take _)).limit
      (fun _ avoid ↦ ih.headerOrder h.heads.order (avoid.order (.take _)).1) hl
  | skip _ h hw _ ho ih =>
    have wrapped := ih.wrapFor h.heads.width hw
    have order := (order_wrapFor hw).trans h.heads.order
    exact (wrapped.ofPage (.skip _)).offset
      (fun _ avoid ↦ wrapped.headerOrder order (avoid.order (.skip _)).1) ho
  | @page _ leaving taking _ _ _ _ _ _ _ _ _ _ _ _ _ _ _ h hw _ ho _ hl ih =>
    have wrapped := ih.wrapFor h.heads.width hw
    have order := (order_wrapFor hw).trans h.heads.order
    have skipped := (wrapped.ofPage (.page leaving taking)).offset
      (fun _ avoid ↦ wrapped.headerOrder order (avoid.order (.page _ _)).1) ho
    exact skipped.limit (fun unordered ↦ by cases unordered) hl
  | numbered _ page h hn ih =>
    have length := ((decides_numberedPage h.heads.width _ _ _).ok hn).2.exprs
    obtain ⟨_, _, _, _, _, _, outer, _, row, _, _, _, _, _, _, -, -, -, ho, hr, -, -, -, rfl⟩ :=
      numberedPage_ok hn
    have length := length.trans (h.heads.width.exprs.symm.trans ih.columns.length_eq)
    refine .ofPage page (.ofSelectAll ho length rfl rfl fun k hk ↦ .inr (.inr ?_))
    cases List.mem_singleton.1 hk
    exact isLiteral_of_node hr
  | lock _ ih => exact ⟨ih.columns, fun avoid ↦ ih.keys (avoid.tail (mem_parts_self _))⟩

/-- Rows of a page are numbered by its order. -/
theorem Drafted.numberingOrder_avoids (h : r.Drafted server d c d') (avoid : r.KeysAvoid kind)
    (order : r.OrderAvoids kind) :
    ∀ k ∈ c.numberingOrder, k.expr.node.isLiteral kind = false := by
  obtain ⟨-, same⟩ | ⟨-, same⟩ | ⟨-, unsorted, same⟩ := c.numberingOrder_cases <;> rw [same]
  · exact (h.avoids.keys avoid).1
  · exact h.avoids.headerOrder h.heads.order order.1
  · have first := order.2.resolve_left fun ordered ↦ h.headerOrder_ne_nil ordered unsorted
    intro k hk
    obtain ⟨t, ht, rfl⟩ := List.mem_map.1 hk
    obtain ⟨i, hi⟩ := List.getElem?_of_mem ht
    rw [List.getElem?_take] at hi
    split at hi
    · next zero =>
      cases Nat.lt_one_iff.1 zero
      exact h.avoids.isLiteral_getElem? hi first
    · cases hi

theorem Pages.orderAvoids (h : r.Pages p) (avoid : r.KeysAvoid kind) : p.OrderAvoids kind := by
  obtain ⟨page, hp, skip, take, part⟩ := h
  exact (avoid.of_mem_parts hp).order part

/-- Conditions on the keys of selects and of row numbers. -/
private def avoiding (kind : Literal → Bool) : SelectConditions where
  select s := (Node.select s).KeysAvoid kind
  derived _ := True
  numbering keys := (Node.rowNumber keys).KeysAvoid kind

private theorem Drafted.nestsMeeting_avoiding (h : p.Drafted server d c d') (hp : p ∈ r.parts)
    (avoid : r.KeysAvoid kind) : c.NestsMeeting (avoiding kind) (r.Pages p) where
  select := by
    have keys := h.avoids.keys (avoid.of_mem_parts hp)
    unfold Compiled.derived
    split
    · exact keys
    · exact ⟨by simp, keys.2⟩
  derived := trivial
  numbering page := h.numberingOrder_avoids (avoid.of_mem_parts hp) (page.orderAvoids avoid)
  selectNumbered number := by
    have keys := h.avoids.keys (avoid.of_mem_parts hp)
    refine ⟨fun k hk ↦ ?_, keys.2⟩
    simp only [withNumbers] at hk
    split at hk
    · exact keys.1 k hk
    · cases hk
  derivedNumbered _ := trivial

/-- No key of a statement is a literal of the kind if no operation sorts, groups or pages by a
column that is calculated as one. -/
theorem KeysAvoid.statement {s : Statement} (avoid : r.KeysAvoid kind)
    (h : r.statement server strategies = .ok s) : s.tree.Everywhere (Node.KeysAvoid kind) := by
  have meets := statement_everywhere h
    (fun _ hp _ _ _ hd ↦ hd.nestsMeeting_avoiding hp avoid) fun hd ↦ hd.avoids.keys avoid
  refine meets.mono fun n hn ↦ ?_
  cases n with
  | select _ | rowNumber _ => exact hn
  | _ => trivial

/-! ### Relations of one select

Where nothing is read from a derived table, the columns that are calculated as literals are those
that are literals in the select. -/

/-- Rows of a table or a native query in one select, some of them left out and columns chosen or
computed. -/
def isScan : Relation → Bool
  | table _ | native _ _ => true
  | filter r _ | project r _ | extend r _ | lock r _ => r.isScan
  | _ => false

/-- A scan that is sorted or grouped. -/
def sortsScan : Relation → Bool
  | sort r _ | aggregate r _ _ => r.isScan
  | _ => false

theorem keysAvoid_of_isScan (h : r.isScan) : r.KeysAvoid kind := by
  induction r with
  | table _ | native _ _ =>
    intro p hp
    cases List.mem_singleton.1 hp
    trivial
  | filter _ _ ih | project _ _ ih | extend _ _ ih | lock _ _ ih =>
    intro p hp
    obtain rfl | hp := List.mem_cons.1 hp
    · trivial
    · exact ih h p hp
  | _ => cases h

/-- The select takes up any operation, and its columns are such literals exactly if they are
calculated so. -/
structure Scans (kind : Literal → Bool) (r : Relation) (c : Compiled) : Prop where
  merges (op : Operation) : op ≠ .join → mustWrap c.select op = false
  columns : Flagged (· = ·) kind c.select.exprs (r.literalColumns kind)

namespace Scans

theorem wrapFor {op : Operation} (hc : r.Scans kind c) (h : c.wrapFor op d = .ok (c', d'))
    (hop : op ≠ .join) : c' = c := by
  rw [Compiled.wrapFor, if_neg (by simp [hc.merges op hop])] at h
  exact (pure_ok.1 h).1.symm

theorem ofSelectAll {source : Tree} {label : String} {header : Header} {n : Nat}
    (h : selectAll source label header d = .ok (c.select, d')) (length : c.select.exprs.length = n)
    (columns : r.literalColumns kind = List.replicate n false) : r.Scans kind c := by
  refine ⟨fun op _ ↦ ?_, .of_columns (isLiteral_of_selectAll h) ?_ fun flag hf ↦ ?_⟩
  · obtain ⟨exprs, same, -⟩ := selectAll_ok h
    rw [same]
    cases op <;> rfl
  · rw [length, columns, List.length_replicate]
  · rw [columns] at hf
    exact (List.eq_of_mem_replicate hf).symm

end Scans

/-- A scan becomes one select. -/
theorem Drafted.scans (h : r.Drafted server d c d') (scan : r.isScan) : r.Scans kind c := by
  induction h with
  | later _ _ ih => exact ih scan
  | @table t _ _ _ h =>
    have length := ((decides_ofTable t _).ok h).2.exprs
    obtain ⟨_, _, -, hs, -⟩ := ofTable_ok h
    exact .ofSelectAll hs length rfl
  | @native sql header _ _ _ h =>
    have length := ((decides_ofNative sql header _).ok h).2.exprs
    obtain ⟨_, _, _, _, -, -, hs, -⟩ := ofNative_ok h
    exact .ofSelectAll hs length rfl
  | filter _ hw hf ih =>
    cases (ih scan).wrapFor hw (by decide)
    obtain ⟨_, _, _, -, -, rfl⟩ := filter_ok hf
    exact ⟨(ih scan).merges, (ih scan).columns⟩
  | project _ hw hp ih =>
    cases (ih scan).wrapFor hw (by decide)
    have columns := (ih scan).columns.positions (exprs_project hp)
    obtain ⟨_, -, rfl⟩ := project_ok hp
    exact ⟨(ih scan).merges, columns⟩
  | extend _ hw he ih =>
    cases (ih scan).wrapFor hw (by decide)
    refine ⟨?_, Flagged.extend (fun _ ↦ rfl) (ih scan).columns he⟩
    rw [select_extend he]
    exact (ih scan).merges
  | lock _ ih =>
    refine ⟨fun op hop ↦ ?_, (ih scan).columns⟩
    have merges := (ih scan).merges op hop
    cases op with
    | join => exact absurd rfl hop
    | _ => exact merges
  | numbered _ page _ _ _ => cases page <;> cases scan
  | _ => cases scan

/-- The keys of a sorted or grouped scan are columns of its select. -/
theorem Drafted.operationAvoids (h : r.Drafted server d c d') (scan : r.sortsScan)
    (keys : (Node.select c.select).KeysAvoid kind) : r.OperationAvoids kind := by
  induction h with
  | later _ _ ih => exact ih scan keys
  | sort h hw hs _ =>
    have source : Scans kind _ _ := h.scans scan
    cases source.wrapFor hw (by decide)
    obtain ⟨orderBy, found, rfl⟩ := sort_ok hs
    intro item hi
    obtain ⟨k, hk, t, ht, rfl⟩ := exists_of_mem_forall₂ found.flip hi
    exact (source.columns.get ht).symm.trans (keys.1 _ hk)
  | aggregate h hw ha _ =>
    have source : Scans kind _ _ := h.scans scan
    cases source.wrapFor hw (by decide)
    obtain ⟨groups, -⟩ := source.columns.aggregate (fun _ ↦ rfl) ha
    intro i hi
    obtain ⟨t, ht, same⟩ := exists_of_mem_forall₂ groups (List.mem_map_of_mem hi)
    exact same.symm.trans (keys.2 t ht)
  | numbered _ page _ _ _ => cases page <;> cases scan
  | _ => cases scan

/-- Whatever relation is compiled for whatever server, no ordering, grouping or numbering of rows in
the statement, at any depth, is by a literal of a kind, if no operation sorts, groups or pages by a
column that is calculated as one. Of a sort or a grouping of a scan this is exactly so. -/
theorem keysAvoid_statement_iff (kind : Literal → Bool) {s : Statement}
    (h : r.statement server strategies = .ok s) :
    (r.KeysAvoid kind → s.tree.Everywhere (Node.KeysAvoid kind)) ∧
      (r.sortsScan → (s.tree.Everywhere (Node.KeysAvoid kind) ↔ r.KeysAvoid kind)) := by
  refine ⟨(·.statement h), fun scan ↦ ⟨fun keys ↦ ?_, (·.statement h)⟩⟩
  obtain ⟨c, d, hc, rfl⟩ := statement_ok h
  obtain ⟨root, -⟩ := keys
  have outermost := (drafted_of_draft hc).operationAvoids scan root
  intro p hp
  cases r with
  | sort r _ | aggregate r _ _ =>
    obtain rfl | hp := List.mem_cons.1 hp
    · exact outermost
    · exact keysAvoid_of_isScan scan p hp
  | _ => cases scan

/-- Rows of a table sorted by a computed rank. -/
def ranked (rank : Scalar) : Relation :=
  sort (extend (table ⟨none, "t", [⟨"a", .int32, false⟩, ⟨"b", .int32, false⟩], [0]⟩)
    [⟨"rank", rank, .int32⟩]) [⟨2, true⟩, ⟨0, true⟩]

/-- A sum is no literal, neither in an ordering nor where rows are numbered by it. -/
theorem keysAvoid_statement_iff_of_ranked :
    ∃ s, (skip (ranked (.binary .plus (.column 0) (.column 1))) (.constant (.integer 5))).statement
        (.capabilities .sqlServer ⟨9, 0⟩) Strategy.standard = .ok s ∧
      s.tree.Everywhere (Node.KeysAvoid Literal.isInteger) := by
  obtain ⟨s, hs⟩ : ∃ s, (skip (ranked (.binary .plus (.column 0) (.column 1)))
      (.constant (.integer 5))).statement (.capabilities .sqlServer ⟨9, 0⟩) Strategy.standard =
        .ok s := ⟨_, rfl⟩
  refine ⟨s, hs, (keysAvoid_statement_iff Literal.isInteger hs).1 ?_⟩
  simp [KeysAvoid, ranked, parts, OperationAvoids, OrderAvoids, ColumnAvoids, literalColumns,
    Relation.order, IsOrdered, width, Scalar.isLiteral]

/-- Rows with the same constant rank are sorted by the second output column. -/
theorem ranked_by_position :
    ∃ s q, (ranked (.constant (.integer 2))).statement (.capabilities .postgreSql ⟨9, 0⟩)
        Strategy.standard = .ok s ∧
      s.tree.node = .select q ∧ (∃ k ∈ q.orderBy, k.expr.node = .literal (.integer 2)) ∧
      ¬s.tree.Everywhere (Node.KeysAvoid Literal.isInteger) := by
  refine ⟨_, _, rfl, rfl, ⟨_, List.mem_cons_self, rfl⟩, fun ⟨root, _⟩ ↦ ?_⟩
  exact absurd (root.1 _ List.mem_cons_self) (by decide)

end Relation

end SqlWright
