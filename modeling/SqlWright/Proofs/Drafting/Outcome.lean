import SqlWright.Proofs.Drafting.Results
import SqlWright.Proofs.Relation.WellFormed

/-!
# Outcomes of drafting

Whether drafting succeeds does not depend on the draft: it `Decides` a condition that
can be read off the relation. A select comes out exactly if the relation is well formed
and each of its operations is taken, and a failure refuses what the caller wrote.
-/

namespace SqlWright

variable {α β : Type} {p s : Prop} {q : α → Prop} {u : β → Prop}

/-- The failure refuses a column or another argument of the caller. -/
def Error.IsRefusal (e : Error) : Prop :=
  (∃ index count, e = .columnOutOfRange index count) ∨ e.invalidArgument?.isSome

theorem Error.isRefusal_columnOutOfRange (index count : Nat) :
    (columnOutOfRange index count).IsRefusal := .inl ⟨index, count, rfl⟩

/-- A computation succeeds exactly under a condition, with a result of which something holds,
and fails only by refusing. -/
structure Settles (x : Except Error α) (p : Prop) (q : α → Prop) : Prop where
  ok {a : α} : x = .ok a → p ∧ q a
  error {e : Error} : x = .error e → ¬p ∧ e.IsRefusal

namespace Settles

theorem pure {a : α} (h : q a) : Settles (.ok a) True q where
  ok ha := by cases ha; exact ⟨trivial, h⟩
  error := nofun

theorem refuse {e : Error} (hp : ¬p) (he : e.IsRefusal) : Settles (.error e : Except Error α) p q where
  ok := nofun
  error h := by cases h; exact ⟨hp, he⟩

theorem congr {x : Except Error α} (h : Settles x p q) (hp : p ↔ s) : Settles x s q where
  ok ha := ⟨hp.1 (h.ok ha).1, (h.ok ha).2⟩
  error he := ⟨fun hp' ↦ (h.error he).1 (hp.2 hp'), (h.error he).2⟩

theorem imp {x : Except Error α} {r : α → Prop} (h : Settles x p q) (hq : ∀ a, q a → r a) :
    Settles x p r where
  ok ha := (h.ok ha).imp_right (hq _)
  error := h.error

theorem bind {x : Except Error α} {f : α → Except Error β} (hx : Settles x p q)
    (hf : ∀ a, q a → Settles (f a) s u) : Settles (x >>= f) (p ∧ s) u := by
  cases x with
  | error e => exact .refuse (fun h ↦ (hx.error rfl).1 h.1) (hx.error rfl).2
  | ok a =>
    obtain ⟨hp, ha⟩ := hx.ok rfl
    exact (hf a ha).congr (by simp [hp])

/-- The success of a list is that of all of its elements. -/
theorem mapM {f : α → Except Error β} {P : α → Prop} (hf : ∀ a, Settles (f a) (P a) fun _ ↦ True)
    (l : List α) : Settles (l.mapM f) (∀ a ∈ l, P a) fun r ↦ r.length = l.length := by
  induction l with
  | nil =>
    rw [List.mapM_nil]
    exact congr (p := True) (pure rfl) (by simp)
  | cons a l ih =>
    rw [List.mapM_cons]
    refine ((hf a).bind fun b _ ↦ ih.bind fun bs hbs ↦ pure ?_).congr (by simp)
    rw [List.length_cons, List.length_cons, hbs]

end Settles

/-- A drafting succeeds exactly under a condition, from whatever draft. -/
def Drafting.Decides (m : Drafting α) (p : Prop) (q : α → Prop) : Prop :=
  ∀ d, Settles (m d) p fun r ↦ q r.1

namespace Drafting.Decides

theorem congr {m : Drafting α} (h : m.Decides p q) (hp : p ↔ s) : m.Decides s q :=
  fun d ↦ (h d).congr hp

theorem pure {a : α} (h : q a) : Decides (pure a) True q := fun _ ↦ .pure h

theorem done (a : α) : Decides (Pure.pure a) True fun _ ↦ True := pure trivial

theorem lift {x : Except Error α} (h : Settles x p q) : Decides (liftM x) p q := by
  intro d
  change Settles (x >>= fun a ↦ Except.ok (a, d)) p _
  have hd (a : α) (ha : q a) : Settles (Except.ok (a, d)) True fun r ↦ q r.1 := .pure ha
  exact (h.bind hd).congr (by simp)

theorem throw {e : Error} (hp : ¬p) (he : e.IsRefusal) : Decides (throw e : Drafting α) p q :=
  fun _ ↦ .refuse hp he

theorem bind {m : Drafting α} {f : α → Drafting β} (hm : m.Decides p q)
    (hf : ∀ a, q a → (f a).Decides s u) : Decides (m >>= f) (p ∧ s) u :=
  fun d ↦ (hm d).bind fun r hr ↦ hf r.1 hr r.2

/-- A step that always succeeds adds no condition. -/
theorem step {m : Drafting α} {f : α → Drafting β} (hm : m.Decides True q)
    (hf : ∀ a, q a → (f a).Decides s u) : Decides (m >>= f) s u :=
  (hm.bind hf).congr (by simp)

/-- A last step that always succeeds adds no condition. -/
theorem last {m : Drafting α} {f : α → Drafting β} (hm : m.Decides p q)
    (hf : ∀ a, q a → (f a).Decides True u) : Decides (m >>= f) p u :=
  (hm.bind hf).congr (by simp)

theorem map {m : Drafting α} {f : α → β} (hm : m.Decides p q) (hf : ∀ a, q a → u (f a)) :
    Decides (f <$> m) p u := by
  rw [← bind_pure_comp]
  exact hm.last fun a ha ↦ .pure (hf a ha)

theorem node (n : Node Tree) : Decides (Draft.node n) True fun _ ↦ True := fun _ ↦ .pure trivial

theorem nextAlias : Decides Draft.nextAlias True fun _ ↦ True := fun _ ↦ .pure trivial

end Drafting.Decides

open Drafting

namespace Draft

theorem settles_columnAt (columns : List Tree) (i : Nat) :
    Settles (columnAt columns i) (i < columns.length) fun _ ↦ True := by
  unfold columnAt
  split
  · next t ht =>
    have : i < columns.length := (List.getElem?_eq_some_iff.1 ht).1
    exact (Settles.pure trivial).congr (by simpa using this)
  · next ht => exact .refuse (by simpa using ht) (Error.isRefusal_columnOutOfRange _ _)

theorem decides_conjunction (existing : Option Tree) (condition : Tree) :
    (conjunction existing condition).Decides True fun _ ↦ True := by
  unfold conjunction
  split
  · exact .node _
  · exact .pure trivial

theorem decides_binary (op : BinaryOp) (left right : Scalar) (l r : Tree) :
    (binary op left right l r).Decides True fun _ ↦ True := by
  have nullAware (value parameterNode : Tree) (p : Parameter) :
      (nullAware op value parameterNode p).Decides True fun _ ↦ True :=
    (Decides.node _).step fun _ _ ↦ (Decides.node _).step fun _ _ ↦ .node _
  unfold binary
  split
  · split
    · exact nullAware l r _
    · exact nullAware r l _
    · exact .node _
  · exact .node _

mutual

/-- An expression is drafted exactly if it fits the columns. -/
theorem decides_scalar (columns : List Tree) :
    (e : Scalar) → (scalar columns e).Decides (e.Fits columns.length) fun _ ↦ True
  | .column i => .lift (settles_columnAt columns i)
  | .constant _ | .parameter _ | .placeholder _ => .node _
  | .null => .pure trivial
  | .typeIs i _ =>
    (Decides.lift (settles_columnAt columns i)).last fun _ _ ↦
      (Decides.node _).step fun _ _ ↦ .node _
  | .binary _ left right =>
    (decides_scalar columns left).bind fun _ _ ↦
      (decides_scalar columns right).last fun _ _ ↦ decides_binary _ _ _ _ _
  | .unary _ operand => (decides_scalar columns operand).last fun _ _ ↦ .node _
  | .function _ args => (decides_scalars columns args).last fun _ _ ↦ .node _
  | .inList id exprs => by
    refine ((decides_scalars columns exprs).bind (s := exprs ≠ []) fun ts hts ↦ ?_).congr
      And.comm
    cases ts with
    | nil =>
      have : exprs = [] := List.eq_nil_of_length_eq_zero hts.symm
      exact .throw (by simpa using this) (.inr rfl)
    | cons first others =>
      have : exprs ≠ [] := by rintro rfl; cases hts
      exact (Decides.node _).congr (by simpa using this)

theorem decides_scalars (columns : List Tree) :
    (es : List Scalar) → (scalars columns es).Decides (Scalar.AllFit columns.length es)
      fun ts ↦ ts.length = es.length
  | [] => .pure rfl
  | e :: rest =>
    (decides_scalar columns e).bind fun _ _ ↦
      (decides_scalars columns rest).last fun ts hts ↦ .pure (by simpa using hts)

end

end Draft

namespace Compiled

open Draft

/-- The select and its header have so many columns, and there is a row source. -/
structure HasWidth (n : Nat) (c : Compiled) : Prop where
  columns : c.select.columns.length = n
  header : c.header.size = n
  source : c.select.source.isSome

theorem HasWidth.exprs {n : Nat} {c : Compiled} (h : c.HasWidth n) :
    c.select.exprs.length = n := by
  rw [Select.exprs, List.length_map, h.columns]

theorem size_push (h : Header) (c : HeaderColumn) : (h.push c).size = h.size + 1 := by
  simp [Header.push, Header.size]

theorem size_ofColumns (columns : List HeaderColumn) :
    (Header.ofColumns columns).size = columns.length := by
  have grown (h : Header) : (columns.foldl Header.push h).size = h.size + columns.length := by
    induction columns generalizing h with
    | nil => rfl
    | cons c columns ih =>
      rw [List.foldl_cons, ih, size_push, List.length_cons]
      omega
  rw [Header.ofColumns, grown]
  exact Nat.zero_add _

theorem decides_selectAll (source : Tree) (label : String) (header : Header) :
    (selectAll source label header).Decides True fun s ↦
      s.columns.length = header.size ∧ s.source.isSome := by
  have columns (infos : List HeaderColumn) :
      (infos.mapM fun c ↦ return ⟨← column label c.name, none⟩ :
        Drafting (List (OutputColumn Tree))).Decides True fun cs ↦ cs.length = infos.length := by
    induction infos with
    | nil =>
      rw [List.mapM_nil]
      exact .pure rfl
    | cons c infos ih =>
      rw [List.mapM_cons]
      refine Decides.step (q := fun _ ↦ True) ?_ fun _ _ ↦ ih.step fun cs hcs ↦ .pure ?_
      · exact (Decides.node _).step fun _ _ ↦ .pure trivial
      · rw [List.length_cons, List.length_cons, hcs]
  exact (columns header.columns).step fun cs hcs ↦ .pure ⟨hcs, rfl⟩

theorem decides_ofTable (t : Table) : (ofTable t).Decides True (HasWidth t.columns.length) := by
  have size : (Header.ofTable t).size = t.columns.length := by
    rw [Header.ofTable, Header.withOrder]
    exact (size_ofColumns _).trans (List.length_map _)
  refine Decides.nextAlias.step fun _ _ ↦ (Decides.node _).step fun _ _ ↦
    (decides_selectAll _ _ _).step fun s hs ↦ .pure ⟨hs.1.trans size, size, hs.2⟩

theorem decides_ofNative (sql : String) (header : Header) :
    (ofNative sql header).Decides True (HasWidth header.size) :=
  Decides.nextAlias.step fun _ _ ↦ (Decides.node _).step fun _ _ ↦ (Decides.node _).step fun _ _ ↦
    (decides_selectAll _ _ _).step fun _ hs ↦ .pure ⟨hs.1, rfl, hs.2⟩

variable {n : Nat} {c : Compiled}

theorem decides_wrapFor (op : Operation) (hc : c.HasWidth n) :
    (c.wrapFor op).Decides True (HasWidth n) := by
  unfold wrapFor
  split
  · exact Decides.nextAlias.step fun _ _ ↦ (Decides.node _).step fun _ _ ↦
      (Decides.node _).step fun _ _ ↦ (decides_selectAll _ _ _).step fun s hs ↦
        .pure ⟨hs.1.trans hc.header, hc.header, hs.2⟩
  · exact .pure hc

theorem decides_filter (hc : c.HasWidth n) (e : Scalar) :
    (c.filter e).Decides (e.Fits n) (HasWidth n) := by
  rw [← hc.exprs]
  exact (decides_scalar _ e).last fun _ _ ↦ (decides_conjunction _ _).step fun _ _ ↦
    .pure ⟨hc.columns.trans hc.exprs.symm, hc.header.trans hc.exprs.symm, hc.source⟩

/-- A column is chosen exactly at a position within the select and the header. -/
private theorem settles_chosen (c : Compiled) (i : Nat) :
    Settles (match c.select.columns[i]?, c.header.columns[i]? with
      | some column, some info => .ok (column, info)
      | _, _ => .error (.columnOutOfRange i c.select.columns.length) :
        Except Error (OutputColumn Tree × HeaderColumn))
      (i < c.select.columns.length ∧ i < c.header.size) fun _ ↦ True := by
  split
  · next column info hcolumn hinfo =>
    have within : i < c.select.columns.length ∧ i < c.header.size :=
      ⟨(List.getElem?_eq_some_iff.1 hcolumn).1, (List.getElem?_eq_some_iff.1 hinfo).1⟩
    exact (Settles.pure trivial).congr (by simpa using within)
  · next hnone =>
    refine .refuse (fun ⟨hcolumn, hinfo⟩ ↦ ?_) (Error.isRefusal_columnOutOfRange _ _)
    exact hnone _ _ (List.getElem?_eq_getElem hcolumn) (List.getElem?_eq_getElem hinfo)

/-- A projection is made exactly of columns that there are, as many as its positions. -/
theorem settles_projected (c : Compiled) (columns : List Nat) :
    Settles (c.project columns) (∀ i ∈ columns, i < c.select.columns.length ∧ i < c.header.size)
      fun c' ↦ c'.select.columns.length = columns.length ∧ c'.header.size = columns.length ∧
        c'.select.source = c.select.source := by
  have chosen := Settles.mapM (settles_chosen c) columns
  refine (chosen.bind (s := True) fun ps hps ↦ .pure ⟨?_, ?_, rfl⟩).congr (by simp)
  · rw [List.length_map, hps]
  · rw [Header.withOrder, ← hps, ← List.length_map (f := Prod.snd)]
    exact size_ofColumns _

theorem settles_project (hc : c.HasWidth n) (columns : List Nat) :
    Settles (c.project columns) (∀ i ∈ columns, i < n) (HasWidth columns.length) := by
  refine ((settles_projected c columns).congr ?_).imp fun c' ⟨width, size, source⟩ ↦
    ⟨width, size, source ▸ hc.source⟩
  rw [hc.columns, hc.header]
  simp only [and_self]

theorem HasWidth.appendColumn (hc : c.HasWidth n) (expr : Tree) (info : HeaderColumn) :
    (c.appendColumn expr info).HasWidth (n + 1) where
  columns := by
    rw [Compiled.appendColumn, List.length_append, hc.columns]
    rfl
  header := by
    rw [Compiled.appendColumn, size_push, hc.header]
  source := hc.source

theorem decides_extend (columns : List Calculation) (hc : c.HasWidth n) :
    (c.extend columns).Decides (Calculation.AllFit n columns) (HasWidth (n + columns.length)) := by
  induction columns generalizing c n with
  | nil => exact .pure hc
  | cons k columns ih =>
    rw [List.length_cons, Nat.add_comm columns.length, ← Nat.add_assoc]
    have expr := decides_scalar c.select.exprs k.expr
    rw [hc.exprs] at expr
    exact expr.bind fun t _ ↦ ih (hc.appendColumn t _)

theorem decides_joinCondition (left right : List Tree) (condition : Option Tree)
    (pairs : List (Nat × Nat)) :
    (joinCondition left right condition pairs).Decides
      (∀ p ∈ pairs, p.1 < left.length ∧ p.2 < right.length) fun _ ↦ True := by
  induction pairs generalizing condition with
  | nil => exact (Decides.pure trivial).congr (by simp)
  | cons p pairs ih =>
    refine ((Decides.lift (settles_columnAt left p.1)).bind fun _ _ ↦
      (Decides.lift (settles_columnAt right p.2)).bind fun _ _ ↦
      (Decides.node _).step fun _ _ ↦ (decides_conjunction _ _).step fun _ _ ↦ ih _).congr ?_
    rw [List.forall_mem_cons, and_assoc]

theorem decides_bothOf (a b : Option Tree) : (bothOf a b).Decides True fun _ ↦ True := by
  unfold bothOf
  split
  · exact (Decides.node _).map fun _ _ ↦ trivial
  · exact .done _

theorem decides_outerCondition (condition : Option Tree) :
    (outerCondition condition).Decides True fun _ ↦ True := by
  cases condition with
  | some c => exact .done c
  | none => exact (Decides.node _).step fun _ _ ↦ (Decides.node _).step fun _ _ ↦ .node _

theorem decides_restrictedBy (filter : Option Tree) (on : Tree) :
    (restrictedBy filter on).Decides True fun _ ↦ True := by
  cases filter with
  | some f => exact .node (.binary .and on f)
  | none => exact .done on

theorem decides_joinParts (type : JoinType) (condition left right : Option Tree) :
    (joinParts type condition left right).Decides True fun _ ↦ True := by
  cases type with
  | inner =>
    rw [joinParts_inner_eq]
    exact (decides_bothOf left right).step fun _ _ ↦ .pure trivial
  | leftOuter =>
    rw [joinParts_leftOuter_eq]
    exact (decides_outerCondition condition).step fun on _ ↦
      (decides_restrictedBy right on).step fun _ _ ↦ .pure trivial

theorem HasWidth.joinColumns {left right : Compiled} {m : Nat} (hl : left.HasWidth n)
    (hr : right.HasWidth m) : (joinColumns left right).HasWidth (n + m) := by
  have length : (right.select.columns.zip right.header.columns).length = m := by
    have := hr.header
    rw [Header.size] at this
    rw [List.length_zip, hr.columns, this, Nat.min_self]
  unfold Compiled.joinColumns
  generalize right.select.columns.zip right.header.columns = ps at length
  clear hr
  induction ps generalizing left n m with
  | nil =>
    cases length
    exact hl
  | cons p ps ih =>
    rw [← length, List.length_cons, Nat.add_comm ps.length, ← Nat.add_assoc]
    exact ih (hl.appendColumn _ _) rfl

theorem decides_join {left right : Compiled} {m : Nat} (hl : left.HasWidth n)
    (hr : right.HasWidth m) (type : JoinType) (pairs : List (Nat × Nat)) :
    (left.join right type pairs).Decides (∀ p ∈ pairs, p.1 < n ∧ p.2 < m) fun o ↦
      ∃ c, o = some c ∧ c.HasWidth (n + m) := by
  refine (decides_wrapFor .join hl).step fun l hl ↦ (decides_wrapFor .join hr).step fun r hr ↦ ?_
  obtain ⟨ls, hls⟩ := Option.isSome_iff_exists.1 hl.source
  obtain ⟨rs, hrs⟩ := Option.isSome_iff_exists.1 hr.source
  simp only [hls, hrs]
  rw [← hl.exprs, ← hr.exprs]
  refine (decides_joinCondition _ _ none pairs).last fun _ _ ↦
    (decides_joinParts _ _ _ _).step fun _ _ ↦ (Decides.node _).step fun _ _ ↦ .pure ⟨_, rfl, ?_⟩
  rw [hl.exprs, hr.exprs]
  exact ⟨(hl.joinColumns hr).columns, (hl.joinColumns hr).header, rfl⟩

theorem decides_aggregateCall (a : Aggregation) (header : Header) (operand : Option Tree) :
    (aggregateCall a header operand).Decides True fun _ ↦ True := by
  refine (Decides.node _).step fun _ _ ↦ ?_
  split
  · exact .node _
  · exact .pure trivial

theorem decides_aggregateExpr (a : Aggregation) (header : Header) (exprs : List Tree) :
    (aggregateExpr a header exprs).Decides (a.Fits exprs.length) fun _ ↦ True := by
  have call := decides_aggregateCall a header
  have operand : Decides
      (a.column.mapM fun i ↦ (liftM (Draft.columnAt exprs i) : Drafting Tree))
      (∀ i ∈ a.column, i < exprs.length) fun o ↦ o.isSome = a.column.isSome := by
    rcases a.column with _ | i
    · rw [Option.mapM_none]
      exact Decides.congr (p := True) (.pure rfl) (by simp)
    · rw [Option.mapM_some]
      have found := Decides.lift (settles_columnAt exprs i)
      exact Decides.congr (p := i < exprs.length) (found.map fun _ _ ↦ rfl) (by simp)
  refine operand.bind fun o ho ↦ ?_
  by_cases h : a.kind ≠ .count ∧ o.isNone
  · have : ¬(a.kind = .count ∨ a.column.isSome) := by
      rw [← ho]
      simpa using h
    simp only [if_pos h]
    exact (Decides.throw (q := fun _ ↦ True) this (.inr rfl)).last fun _ _ ↦ call o
  · have : a.kind = .count ∨ a.column.isSome := by
      rw [← ho]
      simpa [Option.isSome_iff_ne_none, or_iff_not_imp_left] using h
    simp only [if_neg h]
    exact (call o).congr (by simpa using this)

theorem settles_groupColumns {groups : Compiled} {m : Nat} (hc : c.HasWidth n)
    (hg : groups.select.columns.length = m ∧ groups.header.size = m) (groupBy : List Nat) :
    Settles (c.groupColumns groups groupBy) (∀ i ∈ groupBy, i < n) fun g ↦
      g.select.columns.length = m + groupBy.length ∧ g.header.size = m + groupBy.length := by
  induction groupBy generalizing groups m with
  | nil => exact Settles.congr (p := True) (.pure hg) (by simp)
  | cons i groupBy ih =>
    unfold groupColumns
    have expr := settles_columnAt c.select.exprs i
    rw [hc.exprs] at expr
    refine (expr.bind (s := i < n ∧ ∀ j ∈ groupBy, j < n) fun e _ ↦ ?_).congr (by simp)
    split
    · next info hi =>
      have hin : i < n := hc.header ▸ (List.getElem?_eq_some_iff.1 hi).1
      have hgroups : (groups.appendColumn e info).select.columns.length = m + 1 ∧
          (groups.appendColumn e info).header.size = m + 1 := by
        rw [appendColumn, size_push, List.length_append, hg.1, hg.2]
        exact ⟨rfl, rfl⟩
      have rest := ih hgroups
      rw [Nat.add_assoc, Nat.add_comm 1] at rest
      exact rest.congr (by simp [hin])
    · next hi =>
      refine .refuse (fun h ↦ ?_) (Error.isRefusal_columnOutOfRange _ _)
      have : i < c.header.size := hc.header.symm ▸ h.1
      rw [List.getElem?_eq_getElem this] at hi
      cases hi

theorem decides_aggregateColumns {groups : Compiled} {m : Nat} (hc : c.HasWidth n)
    (hg : groups.select.columns.length = m ∧ groups.header.size = m)
    (aggregates : List Aggregation) :
    (c.aggregateColumns groups aggregates).Decides (∀ a ∈ aggregates, a.Fits n) fun g ↦
      g.select.columns.length = m + aggregates.length ∧ g.header.size = m + aggregates.length := by
  induction aggregates generalizing groups m with
  | nil => exact Decides.congr (p := True) (.pure hg) (by simp)
  | cons a aggregates ih =>
    have expr := decides_aggregateExpr a c.header c.select.exprs
    rw [hc.exprs] at expr
    refine (expr.bind fun e _ ↦ ?_).congr List.forall_mem_cons.symm
    have hgroups : (groups.appendColumn e ⟨a.name, a.type⟩).select.columns.length = m + 1 ∧
        (groups.appendColumn e ⟨a.name, a.type⟩).header.size = m + 1 := by
      rw [appendColumn, size_push, List.length_append, hg.1, hg.2]
      exact ⟨rfl, rfl⟩
    have rest := ih hgroups
    rw [Nat.add_assoc, Nat.add_comm 1] at rest
    exact rest

theorem decides_aggregate (hc : c.HasWidth n) (groupBy : List Nat)
    (aggregates : List Aggregation) :
    (c.aggregate groupBy aggregates).Decides
      ((∀ i ∈ groupBy, i < n) ∧ ∀ a ∈ aggregates, a.Fits n)
      (HasWidth (groupBy.length + aggregates.length)) := by
  refine (Decides.lift (settles_groupColumns (m := 0) hc ⟨rfl, rfl⟩ groupBy)).bind fun g hg ↦ ?_
  rw [Nat.zero_add] at hg
  exact (decides_aggregateColumns hc hg aggregates).last fun all hall ↦
    .pure ⟨hall.1, hall.2, hc.source⟩

theorem settles_sort (hc : c.HasWidth n) (order : List SortItem) :
    Settles (c.sort order) (∀ item ∈ order, item.column < n) (HasWidth n) := by
  have key (item : SortItem) : Settles (do
      return SortKey.of (← columnAt c.select.exprs item.column) item.ascending)
        (item.column < n) fun _ ↦ True := by
    rw [← hc.exprs]
    exact ((settles_columnAt _ _).bind (s := True) fun _ _ ↦ .pure trivial).congr (by simp)
  exact ((Settles.mapM key order).bind (s := True) fun _ _ ↦
    .pure ⟨hc.columns, hc.header, hc.source⟩).congr (by simp)

theorem HasWidth.ordered (hc : c.HasWidth n) (isWanted : Bool) :
    (c.ordered isWanted).HasWidth n := by
  unfold Compiled.ordered
  split
  · exact ⟨hc.columns, hc.header, hc.source⟩
  · exact hc

theorem decides_minCount (a b : Tree) : (minCount a b).Decides True fun _ ↦ True := by
  unfold minCount
  split
  · exact .node _
  · exact (Decides.node _).step fun _ _ ↦ .node _

theorem decides_sumCounts (a b : Tree) : (sumCounts a b).Decides True fun _ ↦ True := by
  unfold sumCounts
  split
  · exact .node _
  · exact .node _

theorem decides_limit (hc : c.HasWidth n) (count : Tree) (isOrdered : Bool) :
    (c.limit count isOrdered).Decides True (HasWidth n) := by
  have limited (l : Tree) :
      HasWidth n (ordered { c with select := { c.select with limit := some l } } isOrdered) :=
    HasWidth.ordered (c := ⟨{ c.select with limit := some l }, c.header⟩)
      ⟨hc.columns, hc.header, hc.source⟩ _
  simp only [limit]
  split
  · exact (decides_minCount _ _).step fun l _ ↦ .pure (limited l)
  · exact (Decides.done _).step fun l _ ↦ .pure (limited l)

theorem decides_offset (hc : c.HasWidth n) (count : Tree) (isOrdered : Bool) :
    (c.offset count isOrdered).Decides True (HasWidth n) := by
  have skipped (l : Tree) :
      HasWidth n (ordered { c with select := { c.select with offset := some l } } isOrdered) :=
    HasWidth.ordered (c := ⟨{ c.select with offset := some l }, c.header⟩)
      ⟨hc.columns, hc.header, hc.source⟩ _
  simp only [offset]
  split
  · exact (decides_sumCounts _ _).step fun l _ ↦ .pure (skipped l)
  · exact (Decides.done _).step fun l _ ↦ .pure (skipped l)

theorem decides_lastNumber (skip : Option Tree) (count : Tree) :
    (lastNumber skip count).Decides True fun _ ↦ True := by
  cases skip with
  | some s => exact decides_sumCounts s count
  | none => exact .done count

theorem decides_numberCondition (row : Tree) (skip take : Option Tree) :
    (numberCondition row skip take).Decides True fun _ ↦ True := by
  have bound (count : Option Tree) (f : Tree → Drafting Tree)
      (hf : ∀ t, (f t).Decides True fun _ ↦ True) : (count.mapM f).Decides True fun _ ↦ True := by
    rcases count with _ | t
    · rw [Option.mapM_none]
      exact .pure trivial
    · rw [Option.mapM_some]
      exact (hf t).map fun _ _ ↦ trivial
  rw [numberCondition_eq]
  exact (bound skip _ fun _ ↦ .node _).step fun l _ ↦
    (bound take _ fun t ↦ (decides_lastNumber skip t).step fun _ _ ↦ .node _).step fun u _ ↦
    decides_bothOf l u

theorem decides_count (count : Option Scalar) :
    Decides (count.mapM (scalar [])) (∀ e ∈ count, e.Fits 0) fun _ ↦ True := by
  rcases count with _ | e
  · rw [Option.mapM_none]
    exact (Decides.pure trivial).congr (by simp)
  · rw [Option.mapM_some]
    exact ((decides_scalar [] e).map fun _ _ ↦ trivial).congr (by simp)

theorem decides_numberedPage (hc : c.HasWidth n) (skip take : Option Scalar) :
    (c.numberedPage skip take).Decides ((∀ e ∈ skip, e.Fits 0) ∧ ∀ e ∈ take, e.Fits 0)
      (HasWidth n) := by
  have numbered : c.numbered.Decides True fun _ ↦ True :=
    (Decides.node _).step fun _ _ ↦ .pure trivial
  exact numbered.step fun _ _ ↦ Decides.nextAlias.step fun _ _ ↦ (Decides.node _).step fun _ _ ↦
    (Decides.node _).step fun _ _ ↦ (decides_selectAll _ _ _).step fun outer ho ↦
    (Decides.node _).step fun _ _ ↦ (decides_count skip).bind fun _ _ ↦
    (decides_count take).last fun _ _ ↦ (decides_numberCondition _ _ _).step fun _ _ ↦
    .pure ⟨ho.1.trans hc.header, hc.header, ho.2⟩

end Compiled

/-! ### Attempts -/

open Strategy Compiled Draft

/-- An attempt comes to a select exactly if its operations are taken and a condition holds;
where it fails, the condition does not hold. -/
structure Offers (m : Drafting (Option Compiled)) (taken fits : Prop) (q : Compiled → Prop) :
    Prop where
  some {c : Compiled} {d d' : Draft} : m d = .ok (some c, d') → taken ∧ fits ∧ q c
  none {d d' : Draft} : m d = .ok (none, d') → ¬taken
  error {e : Error} {d : Draft} : m d = .error e → ¬fits ∧ e.IsRefusal

namespace Offers

variable {m source : Drafting (Option Compiled)} {taken taken' fits fits' : Prop}
  {q r : Compiled → Prop} {change : Compiled → Drafting Compiled}

theorem congr (h : Offers m taken fits q) (ht : taken ↔ taken') : Offers m taken' fits q where
  some hc := ⟨ht.1 (h.some hc).1, (h.some hc).2⟩
  none hn := fun ht' ↦ h.none hn (ht.2 ht')
  error := h.error

theorem congr_fits (h : Offers m taken fits q) (hf : fits ↔ fits') : Offers m taken fits' q where
  some hc := ⟨(h.some hc).1, hf.1 (h.some hc).2.1, (h.some hc).2.2⟩
  none := h.none
  error he := ⟨fun hf' ↦ (h.error he).1 (hf.2 hf'), (h.error he).2⟩

theorem of_decides (h : m.Decides fits fun o ↦ ∃ c, o = .some c ∧ q c) :
    Offers m True fits q where
  some hc := by
    obtain ⟨hf, c, hc, hq⟩ := (h _).ok hc
    cases hc
    exact ⟨trivial, hf, hq⟩
  none hn := by
    obtain ⟨-, c, hc, -⟩ := (h _).ok hn
    cases hc
  error he := (h _).error he

theorem always {m : Drafting Compiled} (h : m.Decides fits q) :
    Offers (Option.some <$> m) True fits q :=
  of_decides (h.map fun c hc ↦ ⟨c, rfl, hc⟩)

theorem never : Offers (pure .none) False fits q where
  some h := by cases (pure_ok.1 h).1
  none _ := id
  error := nofun

theorem bind {f : Option Compiled → Drafting (Option Compiled)} (hs : Offers source taken fits q)
    (hn : f .none = pure .none) (hf : ∀ c, q c → Offers (f (.some c)) taken' fits' r) :
    Offers (source >>= f) (taken ∧ taken') (fits ∧ fits') r where
  some h := by
    obtain ⟨o, d₁, ho, h⟩ := bind_ok.1 h
    cases o with
    | none =>
      rw [hn] at h
      cases (pure_ok.1 h).1
    | some c =>
      obtain ⟨ht, hfit, hq⟩ := hs.some ho
      obtain ⟨ht', hfit', hr⟩ := (hf c hq).some h
      exact ⟨⟨ht, ht'⟩, ⟨hfit, hfit'⟩, hr⟩
  none h := by
    obtain ⟨o, d₁, ho, h⟩ := bind_ok.1 h
    cases o with
    | none => exact fun ht ↦ hs.none ho ht.1
    | some c => exact fun ht ↦ (hf c (hs.some ho).2.2).none h ht.2
  error h := by
    rcases bind_error.1 h with h | ⟨o, d₁, ho, h⟩
    · exact ⟨fun hfit ↦ (hs.error h).1 hfit.1, (hs.error h).2⟩
    · cases o with
      | none =>
        rw [hn] at h
        cases h
      | some c =>
        have hc := (hf c (hs.some ho).2.2).error h
        exact ⟨fun hfit ↦ hc.1 hfit.2, hc.2⟩

theorem on (hs : Offers source taken fits q) (hc : ∀ c, q c → (change c).Decides fits' r) :
    Offers (on source change) taken (fits ∧ fits') r := by
  have changed (c : Compiled) (hq : q c) :
      Offers (do return Option.some (← change c)) True fits' r :=
    of_decides ((hc c hq).last fun c' hc' ↦ .pure ⟨c', rfl, hc'⟩)
  have both : Offers (Strategy.on source change) (taken ∧ True) (fits ∧ fits') r :=
    hs.bind rfl changed
  exact both.congr (iff_of_eq (and_true taken))

theorem firstOf {attempt : Strategy → Drafting (Option Compiled)} {taken : Strategy → Prop}
    (h : ∀ s, Offers (attempt s) (taken s) fits q) (strategies : List Strategy) :
    Offers (firstOf attempt strategies) (∃ s ∈ strategies, taken s) fits q := by
  induction strategies with
  | nil => exact never.congr (by simp)
  | cons s rest ih =>
    constructor
    · intro c d d' hc
      obtain ⟨o, d₁, ho, hc⟩ := bind_ok.1 hc
      cases o with
      | none =>
        obtain ⟨⟨s', hs', ht⟩, hq⟩ := ih.some hc
        exact ⟨⟨s', List.mem_cons_of_mem s hs', ht⟩, hq⟩
      | some c' =>
        obtain ⟨hc, rfl⟩ := pure_ok.1 hc
        cases hc
        obtain ⟨ht, hq⟩ := (h s).some ho
        exact ⟨⟨s, List.mem_cons_self, ht⟩, hq⟩
    · intro d d' hn
      obtain ⟨o, d₁, ho, hn⟩ := bind_ok.1 hn
      cases o with
      | none =>
        rintro ⟨s', hs', ht⟩
        rcases List.mem_cons.1 hs' with rfl | hs'
        · exact (h s').none ho ht
        · exact ih.none hn ⟨s', hs', ht⟩
      | some c' => cases (pure_ok.1 hn).1
    · intro e d he
      rcases bind_error.1 he with he | ⟨o, d₁, ho, he⟩
      · exact (h s).error he
      · cases o with
        | none => exact ih.error he
        | some c => cases he

/-- What only the native strategy takes is taken if it is among the strategies. -/
theorem native (h : Offers m taken fits q) (strategies : List Strategy) :
    Offers (Strategy.firstOf (ifNative m) strategies) (.native ∈ strategies ∧ taken) fits q := by
  have attempt (s : Strategy) : Offers (ifNative m s) (s = .native ∧ taken) fits q := by
    cases s with
    | native => exact h.congr (by simp)
    | numberedPages => exact never.congr (by simp)
  exact (firstOf attempt strategies).congr (by simp)

/-- A page is taken if some strategy pages. -/
theorem page {server : Server} {hasClauses : Bool} {skip take : Option Scalar}
    (hs : Offers source taken fits q) (hc : ∀ c, q c → (change c).Decides fits' r)
    (hn : ∀ c, q c → (c.numberedPage skip take).Decides fits' r) (strategies : List Strategy) :
    Offers (Strategy.firstOf (attemptPage server hasClauses source change skip take) strategies)
      (Relation.PageTaken server strategies hasClauses ∧ taken) (fits ∧ fits') r := by
  have attempt (s : Strategy) : Offers (attemptPage server hasClauses source change skip take s)
      ((s = .native ∧ hasClauses ∨ s = .numberedPages ∧ server.rowNumber) ∧ taken)
      (fits ∧ fits') r := by
    cases s with
    | native =>
      simp only [attemptPage]
      split
      · next h => exact (hs.on hc).congr (by simp [h])
      · next h => exact never.congr (by simp [h])
    | numberedPages =>
      simp only [attemptPage]
      split
      · next h => exact (hs.on hn).congr (by simp [h])
      · next h => exact never.congr (by simp [h])
  refine (firstOf attempt strategies).congr ?_
  rw [Relation.PageTaken]
  constructor
  · rintro ⟨s, hs, ⟨rfl, h⟩ | ⟨rfl, h⟩, ht⟩
    · exact ⟨.inl ⟨hs, h⟩, ht⟩
    · exact ⟨.inr ⟨hs, h⟩, ht⟩
  · rintro ⟨⟨hs, h⟩ | ⟨hs, h⟩, ht⟩
    · exact ⟨.native, hs, .inl ⟨rfl, h⟩, ht⟩
    · exact ⟨.numberedPages, hs, .inr ⟨rfl, h⟩, ht⟩

end Offers

namespace Relation

variable {server : Server} {strategies : List Strategy}

/-- Joined rows are taken where those of both sides are. -/
private theorem offers_both {left right : Drafting (Option Compiled)} {m n : Nat} {takenL takenR : Prop}
    {fitsL fitsR : Prop} (hl : Offers left takenL fitsL (HasWidth m))
    (hr : Offers right takenR fitsR (HasWidth n)) (type : JoinType) (pairs : List (Nat × Nat)) :
    Offers (do
      match ← left with
      | none => return none
      | some l =>
        match ← right with
        | none => return none
        | some r => l.join r type pairs) (takenL ∧ takenR ∧ True)
      (fitsL ∧ fitsR ∧ ∀ p ∈ pairs, p.1 < m ∧ p.2 < n) (HasWidth (m + n)) :=
  hl.bind rfl fun _ hl ↦ hr.bind rfl fun _ hr ↦ .of_decides (decides_join hl hr type pairs)

/-- Drafting comes to a select exactly for a well-formed relation whose operations are taken;
a failure refuses what is not well formed. -/
theorem offers_draft (r : Relation) : Offers (r.draft server strategies)
    (r.Taken server strategies) r.WellFormed (HasWidth r.width) := by
  induction r with
  | table t => exact ((Offers.always (decides_ofTable t)).native strategies).congr (by simp [Taken])
  | native sql header =>
    exact ((Offers.always (decides_ofNative sql header)).native strategies).congr (by simp [Taken])
  | filter r e ih =>
    exact (ih.on fun c hc ↦ (decides_wrapFor _ hc).step fun w hw ↦ decides_filter hw e).native _
  | project r columns ih =>
    exact (ih.on fun c hc ↦ (decides_wrapFor _ hc).step fun w hw ↦
      .lift (settles_project hw columns)).native _
  | extend r columns ih =>
    exact (ih.on fun c hc ↦ (decides_wrapFor _ hc).step fun w hw ↦
      decides_extend columns hw).native _
  | join a b type pairs iha ihb =>
    have both := offers_both iha ihb type pairs
    refine ((both.native strategies).congr ?_).congr_fits ?_
    · simp [Taken]
    · rw [WellFormed, and_assoc]
  | aggregate r groupBy aggregates ih =>
    exact (ih.on fun c hc ↦ (decides_wrapFor _ hc).step fun w hw ↦
      decides_aggregate hw groupBy aggregates).native _
  | sort r order ih =>
    exact (ih.on fun c hc ↦ (decides_wrapFor _ hc).step fun w hw ↦
      .lift (settles_sort hw order)).native _
  | distinct r ih =>
    exact (ih.on fun c hc ↦ (decides_wrapFor _ hc).step fun w hw ↦
      .pure ⟨hw.columns, hw.header, hw.source⟩).native _ |>.congr_fits (by simp [WellFormed])
  | take r count ih =>
    refine Offers.page ih (fun c hc ↦ ?_) (fun c hc ↦ ?_) strategies
    · exact (decides_scalar [] count).last fun t _ ↦ decides_limit hc t _
    · exact (decides_numberedPage hc none (some count)).congr (by simp)
  | skip r count ih =>
    refine Offers.page ih (fun c hc ↦ ?_) (fun c hc ↦ ?_) strategies
    · exact (decides_wrapFor _ hc).step fun w hw ↦
        (decides_scalar [] count).last fun t _ ↦ decides_offset hw t _
    · exact (decides_numberedPage hc (some count) none).congr (by simp)
  | page r leaving taking ih =>
    refine Offers.page ih (fun c hc ↦ ?_) (fun c hc ↦ ?_) strategies
    · exact (decides_wrapFor _ hc).step fun w hw ↦
        (decides_scalar [] leaving).bind fun t _ ↦ (decides_offset hw t _).step fun s hs ↦
          (decides_scalar [] taking).last fun u _ ↦ decides_limit hs u _
    · exact (decides_numberedPage hc (some leaving) (some taking)).congr (by simp)
  | lock r l ih =>
    have locked (c : Compiled) (hc : c.HasWidth r.width) :
        Decides (pure (c.lock l)) True (HasWidth r.width) :=
      .pure ⟨hc.columns, hc.header, hc.source⟩
    exact ((ih.on locked).native _).congr_fits (by simp [WellFormed])

/-- A statement comes out exactly for a well-formed relation whose operations are taken. -/
theorem exists_statement_iff {r : Relation} :
    (∃ s, r.statement server strategies = .ok s) ↔
      r.Taken server strategies ∧ r.WellFormed := by
  unfold statement
  rcases hd : (r.draft server strategies).run {} with e | ⟨o, d⟩
  · have refused := (offers_draft r).error hd
    exact ⟨fun ⟨s, hs⟩ ↦ (by cases hs), fun h ↦ (refused.1 h.2).elim⟩
  · cases o with
    | none =>
      have notTaken := (offers_draft r).none hd
      exact ⟨fun ⟨s, hs⟩ ↦ (by cases hs), fun h ↦ (notTaken h.1).elim⟩
    | some c =>
      have done := (offers_draft r).some hd
      exact ⟨fun _ ↦ ⟨done.1, done.2.1⟩, fun _ ↦ ⟨_, rfl⟩⟩

/-- Where all operations are taken, a relation fails only by refusing what the caller wrote. -/
theorem statement_refused {r : Relation} {e : Error} (taken : r.Taken server strategies)
    (h : r.statement server strategies = .error e) : e.IsRefusal := by
  unfold statement at h
  rcases hd : (r.draft server strategies).run {} with e' | ⟨o, d⟩
  · rw [hd] at h
    cases h
    exact ((offers_draft r).error hd).2
  · cases o with
    | none => exact ((offers_draft r).none hd taken).elim
    | some c =>
      rw [hd] at h
      cases h

end Relation

end SqlWright
