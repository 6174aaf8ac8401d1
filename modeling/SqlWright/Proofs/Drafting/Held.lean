import SqlWright.Proofs.Drafting.Derivation

/-!
# Trees that a graph holds

A graph holds a tree if it has the content of each of its nodes under the node's
identity. `Graph.Holds.eq_of_id_eq` says that of such trees the identities tell all:
two parts of one statement with one identity are one expression. `Compiled.Held` says
that the draft holds all that a select speaks of.
-/

namespace SqlWright

variable {α β : Type} {d d' : Draft}

open Drafting

/-- Nodes whose links can be told apart by a function are equal if they agree under it. -/
theorem Node.eq_of_map_eq [Nonempty α] {f : α → β} {n m : Node α}
    (h : ∀ a ∈ n.children, ∀ b ∈ m.children, f a = f b → a = b) (e : n.map f = m.map f) :
    n = m := by
  classical
  have he : n.children.map f = m.children.map f := by
    rw [← children_map, ← children_map, e]
  let back (b : β) : α :=
    if hb : ∃ a ∈ n.children, f a = b then hb.choose else Classical.arbitrary α
  have right {b : α} (hb : b ∈ m.children) : back (f b) = b := by
    have hx : ∃ a ∈ n.children, f a = f b := by
      have := List.mem_map_of_mem (f := f) hb
      rw [← he] at this
      exact List.mem_map.1 this
    simp only [back, dif_pos hx]
    exact h _ hx.choose_spec.1 b hb hx.choose_spec.2
  have left {a : α} (ha : a ∈ n.children) : back (f a) = a := by
    have := List.mem_map_of_mem (f := f) ha
    rw [he] at this
    obtain ⟨b, hb, hab⟩ := List.mem_map.1 this
    rw [← hab, right hb, h a ha b hb hab.symm]
  calc
    n = (n.map f).map back := by
      rw [map_map, map_congr (f := back ∘ f) (g := id) fun a ha ↦ left ha,
        map_id]
    _ = (m.map f).map back := by rw [e]
    _ = m := by rw [map_map, map_congr (f := back ∘ f) (g := id) fun b hb ↦ right hb,
        map_id]

namespace Graph

/-- The graph has the content of the tree, node by node. -/
inductive Holds (g : Graph) : Tree → Prop where
  | mk {i : Ref} {n : Node Tree} (content : g.nodes[i]? = some (n.map Tree.id))
      (below : ∀ c ∈ n.children, g.Holds c) : g.Holds (.mk i n)

namespace Holds

variable {g : Graph} {t u : Tree}

/-- Content of the root of a tree that is held. -/
theorem content_eq (h : g.Holds t) : g.nodes[t.id]? = some (t.node.map Tree.id) := by
  cases h with
  | mk content below => exact content

theorem get_eq (h : g.Holds t) : g.get t.id = t.node.map Tree.id := by
  rw [Graph.get, h.content_eq, Option.getD_some]

/-- Trees below a tree that is held are held. -/
theorem of_mem_children (h : g.Holds t) (hu : u ∈ t.children) : g.Holds u := by
  cases h with
  | mk content below => exact below u hu

/-- Trees of one identity are equal. -/
theorem eq_of_id_eq (ht : g.Holds t) (hu : g.Holds u) (e : t.id = u.id) : t = u := by
  induction ht generalizing u with
  | @mk i n content below ih =>
    obtain ⟨j, m⟩ := u
    cases e
    have hn := content.symm.trans hu.content_eq
    have : Nonempty Tree := ⟨.null⟩
    have hm : n = m := Node.eq_of_map_eq
      (fun a ha b hb hab ↦ ih a ha (hu.of_mem_children hb) hab) (Option.some.inj hn)
    rw [hm]

end Holds

end Graph

namespace Draft

/-- The draft has the content of the tree. -/
abbrev Holds (d : Draft) (t : Tree) : Prop := d.graph.Holds t

/-- The null node is where every draft has it. -/
def Started (d : Draft) : Prop := d.graph.nodes[0]? = some .null

theorem started_empty : ({} : Draft).Started := rfl

namespace Grows

theorem started (h : d.Grows d') (hd : d.Started) : d'.Started := h.getElem? hd

/-- A tree that is held stays so when the draft grows. -/
theorem holds {t : Tree} (h : d.Grows d') (ht : d.Holds t) : d'.Holds t := by
  induction ht with
  | mk content below ih => exact .mk (h.getElem? content) ih

end Grows

/-- The null tree is held by every draft. -/
theorem Started.holds_null (h : d.Started) : d.Holds .null := .mk h (by simp [Node.children])

/-- The tree of a new node is held if the trees below it are. -/
theorem Started.holds_made {n : Node Tree} (hd : d.Started) (hn : ∀ c ∈ n.children, d.Holds c) :
    (d.withNode n).Holds (d.made n) := by
  refine .mk ?_ fun c hc ↦ (Grows.withNode d n).holds (hn c hc)
  simp only [withNode, Graph.add]
  split
  · next h =>
    have : n = .null := by cases n <;> simp_all [Node.isNull, Node.map]
    rw [this]
    exact hd
  · simp [Graph.size]

/-- What a run gives for a new node is held. -/
theorem Started.holds_node {n : Node Tree} {t : Tree} (hd : d.Started)
    (hn : ∀ c ∈ n.children, d.Holds c) (h : node n d = .ok (t, d')) : d'.Holds t := by
  obtain ⟨rfl, rfl⟩ := node_ok.1 h
  exact hd.holds_made hn

/-! ### Expressions -/

variable {columns : List Tree}

theorem Started.holds_conjunction {existing : Option Tree} {condition t : Tree}
    (hd : d.Started) (he : ∀ u ∈ existing, d.Holds u) (hc : d.Holds condition)
    (h : conjunction existing condition d = .ok (t, d')) : d'.Holds t := by
  unfold conjunction at h
  split at h
  · next e => exact hd.holds_node (by simpa [Node.children, hc] using he e rfl) h
  · obtain ⟨rfl, rfl⟩ := pure_ok.1 h
    exact hc

private theorem holds_columnAt {i : Nat} {t : Tree} (hc : ∀ u ∈ columns, d.Holds u)
    (h : columnAt columns i = .ok t) : d.Holds t :=
  hc t (List.mem_of_getElem? (columnAt_ok.1 h))

theorem Started.holds_nullAware {op : BinaryOp} {value parameterNode t : Tree} {p : Parameter}
    (hd : d.Started) (hv : d.Holds value) (hp : d.Holds parameterNode)
    (h : nullAware op value parameterNode p d = .ok (t, d')) : d'.Holds t := by
  simp only [nullAware, bind_ok] at h
  obtain ⟨comparison, d₁, hc, test, d₂, ht, h⟩ := h
  have g₁ := (Growing.node _).grows hc
  have g₂ := (Growing.node _).grows ht
  have comparison_holds : d₁.Holds comparison :=
    hd.holds_node (by simp [Node.children, hv, hp]) hc
  have test_holds : d₂.Holds test :=
    (g₁.started hd).holds_node (by simp [Node.children, g₁.holds hv]) ht
  exact (g₂.started (g₁.started hd)).holds_node
    (by simp [Node.children, g₂.holds comparison_holds, test_holds]) h

theorem Started.holds_binary {op : BinaryOp} {left right : Scalar} {l r t : Tree}
    (hd : d.Started) (hl : d.Holds l) (hr : d.Holds r)
    (h : binary op left right l r d = .ok (t, d')) : d'.Holds t := by
  have plain (h : node (.binary op l r) d = .ok (t, d')) : d'.Holds t :=
    hd.holds_node (by simp [Node.children, hl, hr]) h
  unfold binary at h
  split at h
  · split at h
    · exact hd.holds_nullAware hl hr h
    · exact hd.holds_nullAware hr hl h
    · exact plain h
  · exact plain h

mutual

/-- An expression over columns that are held is held. -/
theorem Started.holds_scalar {e : Scalar} {t : Tree} {d d' : Draft} (hd : d.Started)
    (hc : ∀ u ∈ columns, d.Holds u) (h : scalar columns e d = .ok (t, d')) : d'.Holds t := by
  cases e with
  | column i =>
    obtain ⟨hi, rfl⟩ := lift_ok.1 h
    exact holds_columnAt hc hi
  | constant _ | parameter _ | placeholder _ => exact hd.holds_node (by simp [Node.children]) h
  | null =>
    obtain ⟨rfl, rfl⟩ := pure_ok.1 h
    exact hd.holds_null
  | typeIs i type =>
    simp only [scalar, bind_ok, lift_ok] at h
    obtain ⟨c, _, ⟨hi, rfl⟩, p, d₁, hp, h⟩ := h
    have g := (Growing.node _).grows hp
    have c_holds := holds_columnAt hc hi
    have p_holds : d₁.Holds p := hd.holds_node (by simp [Node.children]) hp
    exact (g.started hd).holds_node (by simp [Node.children, g.holds c_holds, p_holds]) h
  | binary op left right =>
    simp only [scalar, bind_ok] at h
    obtain ⟨l, d₁, hl, r, d₂, hr, h⟩ := h
    have g₁ := (growing_scalar columns left).grows hl
    have g₂ := (growing_scalar columns right).grows hr
    have l_holds := hd.holds_scalar hc hl
    have r_holds := (g₁.started hd).holds_scalar (fun u hu ↦ g₁.holds (hc u hu)) hr
    exact (g₂.started (g₁.started hd)).holds_binary (g₂.holds l_holds) r_holds h
  | unary op operand =>
    simp only [scalar, bind_ok] at h
    obtain ⟨u, d₁, hu, h⟩ := h
    have g := (growing_scalar columns operand).grows hu
    exact (g.started hd).holds_node (by simpa [Node.children] using hd.holds_scalar hc hu) h
  | function f args =>
    simp only [scalar, bind_ok] at h
    obtain ⟨us, d₁, hus, h⟩ := h
    have g := (growing_scalars columns args).grows hus
    exact (g.started hd).holds_node (hd.holds_scalars hc hus) h
  | inList id exprs =>
    simp only [scalar, bind_ok] at h
    obtain ⟨us, d₁, hus, h⟩ := h
    have g := (growing_scalars columns exprs).grows hus
    have held := hd.holds_scalars hc hus
    cases us with
    | nil => exact (throw_ok h).elim
    | cons first others => exact (g.started hd).holds_node (by simpa [Node.children] using held) h

theorem Started.holds_scalars {es : List Scalar} {ts : List Tree} {d d' : Draft}
    (hd : d.Started) (hc : ∀ u ∈ columns, d.Holds u) (h : scalars columns es d = .ok (ts, d')) :
    ∀ t ∈ ts, d'.Holds t := by
  cases es with
  | nil =>
    obtain ⟨rfl, -⟩ := pure_ok.1 h
    simp
  | cons e es =>
    simp only [scalars, bind_ok, pure_ok] at h
    obtain ⟨t, d₁, ht, ts, d₂, hts, rfl, rfl⟩ := h
    have g₁ := (growing_scalar columns e).grows ht
    have g₂ := (growing_scalars columns es).grows hts
    have t_holds := hd.holds_scalar hc ht
    have ts_holds := (g₁.started hd).holds_scalars (fun u hu ↦ g₁.holds (hc u hu)) hts
    exact List.forall_mem_cons.2 ⟨g₂.holds t_holds, ts_holds⟩

end

end Draft

namespace Compiled

open Draft

/-- The draft holds all that the select speaks of. -/
structure Held (c : Compiled) (d : Draft) : Prop where
  exprs : ∀ t ∈ c.select.exprs, d.Holds t
  source : ∀ t ∈ c.select.source, d.Holds t
  filter : ∀ t ∈ c.select.filter, d.Holds t
  groupBy : ∀ t ∈ c.select.groupBy, d.Holds t
  having : ∀ t ∈ c.select.having, d.Holds t
  orderBy : ∀ k ∈ c.select.orderBy, d.Holds k.expr
  limit : ∀ t ∈ c.select.limit, d.Holds t
  offset : ∀ t ∈ c.select.offset, d.Holds t

namespace Held

variable {c c' : Compiled}

/-- A select stays held when the draft grows. -/
theorem grow (hc : c.Held d) (g : d.Grows d') : c.Held d' where
  exprs t ht := g.holds (hc.exprs t ht)
  source t ht := g.holds (hc.source t ht)
  filter t ht := g.holds (hc.filter t ht)
  groupBy t ht := g.holds (hc.groupBy t ht)
  having t ht := g.holds (hc.having t ht)
  orderBy k hk := g.holds (hc.orderBy k hk)
  limit t ht := g.holds (hc.limit t ht)
  offset t ht := g.holds (hc.offset t ht)

/-- Every link of a select that is held is held. -/
theorem children (hc : c.Held d) : ∀ t ∈ c.select.children, d.Holds t := by
  intro t ht
  simp only [Select.children, List.mem_append, Option.mem_toList, List.mem_map] at ht
  rcases ht with ((((((ht | ht) | ht) | ht) | ht) | ⟨k, hk, rfl⟩) | ht) | ht
  · exact hc.exprs t ht
  · exact hc.source t ht
  · exact hc.filter t ht
  · exact hc.groupBy t ht
  · exact hc.having t ht
  · exact hc.orderBy k hk
  · exact hc.limit t ht
  · exact hc.offset t ht

/-- A select of nothing but columns and a row source is held if these are. -/
theorem ofColumns {columns : List (OutputColumn Tree)} {source : Tree} {header : Header}
    (hc : ∀ o ∈ columns, d.Holds o.expr) (hs : d.Holds source) :
    Held ⟨{ columns, source := some source }, header⟩ d where
  exprs t ht := by
    obtain ⟨o, ho, rfl⟩ := List.mem_map.1 ht
    exact hc o ho
  source t ht := by
    cases ht
    exact hs
  filter := by simp
  groupBy := by simp
  having := by simp
  orderBy := by simp
  limit := by simp
  offset := by simp

private theorem columns_held {label : String} {infos : List HeaderColumn}
    {columns : List (OutputColumn Tree)} (hd : d.Started)
    (h : (infos.mapM fun c ↦ return ⟨← column label c.name, none⟩ : Drafting _) d =
      .ok (columns, d')) : d.Grows d' ∧ ∀ o ∈ columns, d'.Holds o.expr := by
  induction infos generalizing d columns with
  | nil =>
    rw [List.mapM_nil, pure_ok] at h
    obtain ⟨rfl, rfl⟩ := h
    exact ⟨.refl _, by simp⟩
  | cons c infos ih =>
    rw [List.mapM_cons] at h
    simp only [bind_ok, pure_ok] at h
    obtain ⟨_, _, ⟨t, d₁, ht, rfl, rfl⟩, rest, _, hrest, rfl, rfl⟩ := h
    have g₁ := (Growing.node _).grows ht
    obtain ⟨g₂, held⟩ := ih (g₁.started hd) hrest
    have t_holds : d₁.Holds t := hd.holds_node (by simp [Node.children]) ht
    exact ⟨g₁.trans g₂, List.forall_mem_cons.2 ⟨g₂.holds t_holds, held⟩⟩

/-- A select of all columns is held if its row source is. -/
theorem selectAll {source : Tree} {label : String} {header : Header} {s : Select Tree}
    (hd : d.Started) (hs : d.Holds source)
    (h : Compiled.selectAll source label header d = .ok (s, d')) (header' : Header) :
    Held ⟨s, header'⟩ d' := by
  simp only [Compiled.selectAll, bind_ok, pure_ok] at h
  obtain ⟨columns, _, hc, rfl, rfl⟩ := h
  obtain ⟨g, held⟩ := columns_held hd hc
  exact ofColumns held (g.holds hs)

/-- A select of a derived table is held if the table's query is. -/
theorem derivedTable {query source : Tree} {label : String} {header : Header} {s : Select Tree}
    {d₁ : Draft} (hd : d.Started) (hq : d.Holds query)
    (hs : Draft.node (.queryRef query label) d = .ok (source, d₁))
    (h : Compiled.selectAll source label header d₁ = .ok (s, d')) (header' : Header) :
    Held ⟨s, header'⟩ d' := by
  have g := (Growing.node _).grows hs
  have source_holds : d₁.Holds source := hd.holds_node (by simp [Node.children, hq]) hs
  exact selectAll (g.started hd) source_holds h header'

theorem ofTable {t : Table} (hd : d.Started) (h : Compiled.ofTable t d = .ok (c, d')) :
    c.Held d' := by
  obtain ⟨source, d₁, hs, hc, -⟩ := ofTable_ok h
  have g := (Grows.nextAlias d).trans ((Growing.node _).grows hs)
  have source_holds : d₁.Holds source :=
    Started.holds_node (d := { d with aliases := d.aliases + 1 }) hd (by simp [Node.children]) hs
  exact selectAll (g.started hd) source_holds hc c.header

theorem ofNative {sql : String} {header : Header} (hd : d.Started)
    (h : Compiled.ofNative sql header d = .ok (c, d')) : c.Held d' := by
  obtain ⟨query, d₁, source, d₂, hq, hs, hc, -⟩ := ofNative_ok h
  have g := (Grows.nextAlias d).trans ((Growing.node _).grows hq)
  have query_holds : d₁.Holds query :=
    Started.holds_node (d := { d with aliases := d.aliases + 1 }) hd (by simp [Node.children]) hq
  exact derivedTable (g.started hd) query_holds hs hc c.header

/-- What a select becomes as a derived table is held if the select is. -/
theorem derived (hc : c.Held d) : Held ⟨c.derived, c.header⟩ d := by
  unfold Compiled.derived
  split
  · exact hc
  · exact { hc with orderBy := by simp }

private theorem outerOrder {inner : Select Tree} {outer : List Tree}
    (ho : ∀ t ∈ outer, d.Holds t) : ∀ k ∈ Compiled.outerOrder inner outer, d.Holds k.expr := by
  intro k hk
  simp only [Compiled.outerOrder, List.mem_filterMap, Option.bind_eq_bind,
    Option.bind_eq_some_iff, Option.pure_def, Option.some.injEq] at hk
  obtain ⟨_, -, i, -, expr, he, rfl⟩ := hk
  exact ho expr (List.mem_of_getElem? he)

theorem wrap (hd : d.Started) (hc : c.Held d) (h : c.wrap d = .ok (c', d')) : c'.Held d' := by
  obtain ⟨query, d₁, source, d₂, outer, hq, hs, ho, rfl⟩ := wrap_ok h
  have g := (Grows.nextAlias d).trans ((Growing.node _).grows hq)
  have query_holds : d₁.Holds query :=
    Started.holds_node (d := { d with aliases := d.aliases + 1 }) (n := .select c.derived) hd
      hc.derived.children hq
  have held := derivedTable (g.started hd) query_holds hs ho c.header
  exact { held with orderBy := outerOrder held.exprs }

theorem wrapFor {op : Operation} (hd : d.Started) (hc : c.Held d)
    (h : c.wrapFor op d = .ok (c', d')) : c'.Held d' := by
  unfold Compiled.wrapFor at h
  split at h
  · exact hc.wrap hd h
  · obtain ⟨rfl, rfl⟩ := pure_ok.1 h
    exact hc

theorem filtered {e : Scalar} (hd : d.Started) (hc : c.Held d)
    (h : c.filter e d = .ok (c', d')) : c'.Held d' := by
  obtain ⟨condition, d₁, filter, hs, hf, rfl⟩ := filter_ok h
  have g₁ := (growing_scalar _ e).grows hs
  have g₂ := (growing_conjunction _ _).grows hf
  have condition_holds := hd.holds_scalar hc.exprs hs
  have filter_holds := (g₁.started hd).holds_conjunction
    (fun u hu ↦ g₁.holds (hc.filter u hu)) condition_holds hf
  exact { hc.grow (g₁.trans g₂) with filter := by simpa using filter_holds }

theorem projected {columns : List Nat} (hc : c.Held d) (h : c.project columns = .ok c') :
    c'.Held d := by
  obtain ⟨chosen, hp, rfl⟩ := project_ok h
  refine { hc with exprs := fun t ht ↦ ?_ }
  simp only [Select.exprs, List.map_map, List.mem_map] at ht
  obtain ⟨p, hmem, rfl⟩ := ht
  obtain ⟨i, -, hi, -⟩ := exists_of_mem_forall₂ hp hmem
  exact hc.exprs _ (List.mem_map_of_mem (List.mem_of_getElem? hi))

theorem appendColumn {expr : Tree} (hc : c.Held d) (he : d.Holds expr) (info : HeaderColumn) :
    Held (c.appendColumn expr info) d := by
  refine { hc with exprs := fun t ht ↦ ?_ }
  have own : (outputColumn expr (c.header.pushedName info)).expr = expr := by
    unfold outputColumn
    split <;> rfl
  simp only [Compiled.appendColumn, Select.exprs, List.map_append, List.map_cons, List.map_nil,
    List.mem_append, List.mem_singleton, own] at ht
  rcases ht with ht | rfl
  · exact hc.exprs t ht
  · exact he

theorem extended {columns : List Calculation} (hd : d.Started) (hc : c.Held d)
    (h : c.extend columns d = .ok (c', d')) : c'.Held d' := by
  induction columns generalizing c d with
  | nil =>
    obtain ⟨rfl, rfl⟩ := pure_ok.1 h
    exact hc
  | cons k columns ih =>
    simp only [Compiled.extend, bind_ok] at h
    obtain ⟨expr, d₁, he, h⟩ := h
    have g := (growing_scalar _ _).grows he
    exact ih (g.started hd) ((hc.grow g).appendColumn (hd.holds_scalar hc.exprs he) _) h

theorem sorted {order : List SortItem} (hc : c.Held d) (h : c.sort order = .ok c') :
    c'.Held d := by
  obtain ⟨orderBy, hs, rfl⟩ := sort_ok h
  refine { hc with orderBy := fun k hk ↦ ?_ }
  obtain ⟨item, -, t, ht, rfl⟩ := exists_of_mem_forall₂ hs hk
  exact hc.exprs t (List.mem_of_getElem? ht)

theorem distinct (hc : c.Held d) : Held c.distinct d :=
  { hc with orderBy := fun k hk ↦ hc.orderBy k (List.mem_filter.1 hk).1 }

theorem lock (hc : c.Held d) (l : Lock) : Held (c.lock l) d := { hc with }

private theorem headerOrder {exprs : List Tree} (header : Header) (he : ∀ t ∈ exprs, d.Holds t) :
    ∀ k ∈ Compiled.headerOrder exprs header, d.Holds k.expr := by
  intro k hk
  obtain ⟨item, -, hi⟩ := List.mem_filterMap.1 hk
  obtain ⟨t, ht, rfl⟩ := Option.map_eq_some_iff.1 hi
  exact he t (List.mem_of_getElem? ht)

theorem ordered (hc : c.Held d) (isWanted : Bool) : Held (c.ordered isWanted) d := by
  unfold Compiled.ordered
  split
  · exact { hc with orderBy := headerOrder c.header hc.exprs }
  · exact hc

end Held

/-! ### Counts -/

theorem holds_minCount {a b t : Tree} (hd : d.Started) (ha : d.Holds a) (hb : d.Holds b)
    (h : minCount a b d = .ok (t, d')) : d'.Holds t := by
  obtain ⟨x, y, -, -, h⟩ | ⟨less, d₁, hl, h⟩ := minCount_ok h
  · exact hd.holds_node (by simp [Node.children]) h
  · have g := (Growing.node _).grows hl
    have less_holds : d₁.Holds less := hd.holds_node (by simp [Node.children, ha, hb]) hl
    exact (g.started hd).holds_node
      (by simp [Node.children, less_holds, g.holds ha, g.holds hb]) h

theorem holds_sumCounts {a b t : Tree} (hd : d.Started) (ha : d.Holds a) (hb : d.Holds b)
    (h : sumCounts a b d = .ok (t, d')) : d'.Holds t := by
  obtain ⟨x, y, -, -, h⟩ | h := sumCounts_ok h
  · exact hd.holds_node (by simp [Node.children]) h
  · exact hd.holds_node (by simp [Node.children, ha, hb]) h

namespace Held

variable {c c' : Compiled}

theorem limited {count : Tree} {isOrdered : Bool} (hd : d.Started) (hc : c.Held d)
    (hn : d.Holds count) (h : c.limit count isOrdered d = .ok (c', d')) : c'.Held d' := by
  have g := (growing_limit _ _ _).grows h
  obtain ⟨l, hl, rfl⟩ := limit_ok h
  refine Held.ordered (c := ⟨{ c.select with limit := some l }, c.header⟩)
    { hc.grow g with limit := ?_ } isOrdered
  split at hl
  · next existing he => simpa using holds_minCount hd (hc.limit existing he) hn hl
  · cases hl
    simpa using hn

theorem skipped {count : Tree} {isOrdered : Bool} (hd : d.Started) (hc : c.Held d)
    (hn : d.Holds count) (h : c.offset count isOrdered d = .ok (c', d')) : c'.Held d' := by
  have g := (growing_offset _ _ _).grows h
  obtain ⟨l, hl, rfl⟩ := offset_ok h
  refine Held.ordered (c := ⟨{ c.select with offset := some l }, c.header⟩)
    { hc.grow g with offset := ?_ } isOrdered
  split at hl
  · next existing he => simpa using holds_sumCounts hd (hc.offset existing he) hn hl
  · cases hl
    simpa using hn

private theorem numbering {header : Header} {select : Select Tree}
    (hc : Held ⟨select, header⟩ d) :
    ∀ k ∈ numberingOrder ⟨select, header⟩, d.Holds k.expr := by
  unfold numberingOrder
  split
  · exact hc.orderBy
  · dsimp only
    split
    · exact headerOrder header hc.exprs
    · intro k hk
      obtain ⟨t, ht, rfl⟩ := List.mem_map.1 hk
      exact hc.exprs t (List.mem_of_mem_take ht)

end Held

private theorem holds_numberCondition {row : Tree} {skip take result : Option Tree}
    (hd : d.Started) (hr : d.Holds row) (hs : ∀ t ∈ skip, d.Holds t) (ht : ∀ t ∈ take, d.Holds t)
    (h : numberCondition row skip take d = .ok (result, d')) : ∀ t ∈ result, d'.Holds t := by
  obtain ⟨lower, d₁, upper, d₂, hl, hu, h⟩ := numberCondition_ok h
  have lower_holds : d.Grows d₁ ∧ ∀ t ∈ lower, d₁.Holds t := by
    obtain ⟨-, rfl, rfl⟩ | ⟨s, l, rfl, rfl, hn⟩ := mapM_option_ok.1 hl
    · exact ⟨.refl _, by simp⟩
    · have g := (Growing.node _).grows hn
      refine ⟨g, ?_⟩
      simpa using hd.holds_node (by simpa [Node.children, hr] using hs) hn
  obtain ⟨g₁, lower_holds⟩ := lower_holds
  have hd₁ := g₁.started hd
  have upper_holds : d₁.Grows d₂ ∧ ∀ t ∈ upper, d₂.Holds t := by
    obtain ⟨-, rfl, rfl⟩ | ⟨t, last, d₃, u, rfl, rfl, hlast, hu⟩ := hu
    · exact ⟨.refl _, by simp⟩
    · have hlast : d₁.Grows d₃ ∧ d₃.Holds last := by
        cases skip with
        | none =>
          obtain ⟨rfl, rfl⟩ := hlast
          exact ⟨.refl _, g₁.holds (ht _ rfl)⟩
        | some s =>
          exact ⟨(growing_sumCounts _ _).grows hlast,
            holds_sumCounts hd₁ (g₁.holds (hs _ rfl)) (g₁.holds (ht _ rfl)) hlast⟩
      obtain ⟨g₂, last_holds⟩ := hlast
      have g₃ := (Growing.node _).grows hu
      refine ⟨g₂.trans g₃, ?_⟩
      simpa using (g₂.started hd₁).holds_node
        (by simp [Node.children, (g₁.trans g₂).holds hr, last_holds]) hu
  obtain ⟨g₂, upper_holds⟩ := upper_holds
  obtain ⟨l, u, t, rfl, rfl, rfl, hn⟩ | ⟨-, rfl, rfl⟩ := h
  · simpa using (g₂.started hd₁).holds_node
      (by simp [Node.children, g₂.holds (lower_holds l rfl), upper_holds u rfl]) hn
  · intro t ht
    obtain ht | ⟨-, ht⟩ := Option.or_eq_some_iff.1 ht
    · exact g₂.holds (lower_holds t ht)
    · exact upper_holds t ht

/-! ### Joins and groups -/

private theorem holds_joinCondition {left right : List Tree} {condition result : Option Tree}
    {pairs : List (Nat × Nat)} (hd : d.Started) (hl : ∀ t ∈ left, d.Holds t)
    (hr : ∀ t ∈ right, d.Holds t) (hc : ∀ t ∈ condition, d.Holds t)
    (h : joinCondition left right condition pairs d = .ok (result, d')) :
    ∀ t ∈ result, d'.Holds t := by
  induction pairs generalizing d condition with
  | nil =>
    obtain ⟨rfl, rfl⟩ := pure_ok.1 h
    exact hc
  | cons p pairs ih =>
    obtain ⟨a, b, equality, d₁, joined, d₂, ha, hb, he, hj, h⟩ := joinCondition_cons_ok h
    have g₁ := (Growing.node _).grows he
    have g₂ := (growing_conjunction _ _).grows hj
    have a_holds := hl a (List.mem_of_getElem? ha)
    have b_holds := hr b (List.mem_of_getElem? hb)
    have equality_holds : d₁.Holds equality :=
      hd.holds_node (by simp [Node.children, a_holds, b_holds]) he
    have joined_holds := (g₁.started hd).holds_conjunction
      (fun t ht ↦ g₁.holds (hc t ht)) equality_holds hj
    have g := g₁.trans g₂
    exact ih (g.started hd) (fun t ht ↦ g.holds (hl t ht)) (fun t ht ↦ g.holds (hr t ht))
      (by simpa using joined_holds) h

private theorem holds_joinParts {type : JoinType} {condition left right on filter : Option Tree}
    {kind : JoinKind} (hd : d.Started) (hc : ∀ t ∈ condition, d.Holds t)
    (hl : ∀ t ∈ left, d.Holds t) (hr : ∀ t ∈ right, d.Holds t)
    (h : joinParts type condition left right d = .ok ((kind, on, filter), d')) :
    (∀ t ∈ on, d'.Holds t) ∧ ∀ t ∈ filter, d'.Holds t := by
  have g := (growing_joinParts _ _ _ _).grows h
  cases type with
  | inner =>
    obtain ⟨-, rfl, ⟨x, y, t, rfl, rfl, rfl, hn⟩ | ⟨-, rfl, rfl⟩⟩ := joinParts_inner_ok h
    · refine ⟨fun t ht ↦ g.holds (hc t ht), ?_⟩
      simpa using hd.holds_node (by simp [Node.children, hl x rfl, hr y rfl]) hn
    · refine ⟨hc, fun t ht ↦ ?_⟩
      obtain ht | ⟨-, ht⟩ := Option.or_eq_some_iff.1 ht
      · exact hl t ht
      · exact hr t ht
  | leftOuter =>
    obtain ⟨-, rfl, c, d₁, h₁, t, rfl, h₂⟩ := joinParts_leftOuter_ok h
    have c_holds : d.Grows d₁ ∧ d₁.Holds c := by
      obtain ⟨rfl, rfl⟩ | ⟨-, a, d₂, b, d₃, ha, hb, hcond⟩ := h₁
      · exact ⟨.refl _, hc c rfl⟩
      · have g₁ := (Growing.node _).grows ha
        have g₂ := (Growing.node _).grows hb
        have a_holds : d₂.Holds a := hd.holds_node (by simp [Node.children]) ha
        have b_holds : d₃.Holds b := (g₁.started hd).holds_node (by simp [Node.children]) hb
        refine ⟨(g₁.trans g₂).trans ((Growing.node _).grows hcond), ?_⟩
        exact ((g₁.trans g₂).started hd).holds_node
          (by simp [Node.children, g₂.holds a_holds, b_holds]) hcond
    obtain ⟨g₁, c_holds⟩ := c_holds
    refine ⟨?_, fun t ht ↦ g.holds (hl t ht)⟩
    obtain ⟨rfl, rfl, rfl⟩ | ⟨f, rfl, hn⟩ := h₂
    · simpa using c_holds
    · simpa using (g₁.started hd).holds_node
        (by simp [Node.children, c_holds, g₁.holds (hr f rfl)]) hn

private theorem holds_aggregateExpr {a : Aggregation} {header : Header} {exprs : List Tree}
    {t : Tree} (hd : d.Started) (he : ∀ u ∈ exprs, d.Holds u)
    (h : aggregateExpr a header exprs d = .ok (t, d')) : d'.Holds t := by
  obtain ⟨operand, call, d₁, ho, -, hcall, h⟩ := aggregateExpr_ok h
  have g := (Growing.node _).grows hcall
  have operand_holds : ∀ u ∈ operand, d.Holds u := by
    obtain ⟨-, rfl⟩ | ⟨i, u, -, hu, rfl⟩ := ho
    · simp
    · simpa using he u (List.mem_of_getElem? hu)
  have call_holds : d₁.Holds call :=
    hd.holds_node (by simpa [Node.children] using operand_holds) hcall
  obtain ⟨type, -, ht⟩ | ⟨-, rfl, rfl⟩ := h
  · exact (g.started hd).holds_node (by simp [Node.children, call_holds]) ht
  · exact call_holds

namespace Held

variable {c c' : Compiled}

private theorem joinColumns {left right : Compiled} (hl : left.Held d) (hr : right.Held d) :
    Held (Compiled.joinColumns left right) d := by
  have hexprs : ∀ p ∈ right.select.columns.zip right.header.columns, d.Holds p.1.expr :=
    fun p hp ↦ hr.exprs _ (List.mem_map_of_mem (List.of_mem_zip hp).1)
  unfold Compiled.joinColumns
  generalize right.select.columns.zip right.header.columns = ps at hexprs ⊢
  induction ps generalizing left with
  | nil => exact hl
  | cons p ps ih =>
    rw [List.forall_mem_cons] at hexprs
    exact ih (hl.appendColumn hexprs.1 p.2) hexprs.2

theorem join {left right : Compiled} {type : JoinType} {pairs : List (Nat × Nat)}
    (hd : d.Started) (hl : left.Held d) (hr : right.Held d)
    (h : left.join right type pairs d = .ok (some c, d')) : c.Held d' := by
  obtain ⟨l, d₁, r, d₂, leftSource, rightSource, condition, d₃, kind, on, filter, d₄, source,
    hwl, hwr, hls, hrs, hcond, hparts, hs, rfl⟩ := join_ok h
  have g₁ := (growing_wrapFor _ _).grows hwl
  have g₂ := (growing_wrapFor _ _).grows hwr
  have g₃ := (growing_joinCondition _ _ _ _).grows hcond
  have g₄ := (growing_joinParts _ _ _ _).grows hparts
  have g₅ := (Growing.node _).grows hs
  have hd₁ := g₁.started hd
  have hd₂ := g₂.started hd₁
  have hd₃ := g₃.started hd₂
  have l_held : l.Held d₂ := (hl.wrapFor hd hwl).grow g₂
  have r_held : r.Held d₂ := (hr.grow g₁).wrapFor hd₁ hwr
  have condition_holds := holds_joinCondition hd₂ l_held.exprs r_held.exprs (by simp) hcond
  obtain ⟨on_holds, filter_holds⟩ := holds_joinParts hd₃ condition_holds
    (l_held.grow g₃).filter (r_held.grow g₃).filter hparts
  have l_source := (g₃.trans g₄).holds (l_held.source _ hls)
  have r_source := (g₃.trans g₄).holds (r_held.source _ hrs)
  have source_holds : d'.Holds source :=
    (g₄.started hd₃).holds_node (by simpa [Node.children, l_source, r_source] using on_holds) hs
  have columns_held := (joinColumns l_held r_held).grow ((g₃.trans g₄).trans g₅)
  have unfiltered : Held ⟨{ columns := (Compiled.joinColumns l r).select.columns
                            source := some source }, (Compiled.joinColumns l r).header⟩ d' :=
    ofColumns (fun o ho ↦ columns_held.exprs _ (List.mem_map_of_mem ho)) source_holds
  exact { unfiltered with filter := fun t ht ↦ g₅.holds (filter_holds t ht) }

private theorem groupColumns {groups : Compiled} {groupBy : List Nat} (hc : c.Held d)
    (hg : groups.Held d) (h : c.groupColumns groups groupBy = .ok c') : c'.Held d := by
  induction groupBy generalizing groups with
  | nil =>
    cases h
    exact hg
  | cons i groupBy ih =>
    obtain ⟨expr, info, he, -, h⟩ := groupColumns_cons_ok h
    exact ih (hg.appendColumn (hc.exprs expr (List.mem_of_getElem? he)) info) h

private theorem aggregateColumns {groups : Compiled} {aggregates : List Aggregation}
    (hd : d.Started) (hc : c.Held d) (hg : groups.Held d)
    (h : c.aggregateColumns groups aggregates d = .ok (c', d')) : c'.Held d' := by
  induction aggregates generalizing groups d with
  | nil =>
    obtain ⟨rfl, rfl⟩ := pure_ok.1 h
    exact hg
  | cons a aggregates ih =>
    simp only [Compiled.aggregateColumns, bind_ok] at h
    obtain ⟨expr, d₁, he, h⟩ := h
    have g := (growing_aggregateExpr _ _ _).grows he
    exact ih (g.started hd) (hc.grow g)
      ((hg.grow g).appendColumn (holds_aggregateExpr hd hc.exprs he) _) h

theorem aggregated {groupBy : List Nat} {aggregates : List Aggregation} (hd : d.Started)
    (hc : c.Held d) (h : c.aggregate groupBy aggregates d = .ok (c', d')) : c'.Held d' := by
  obtain ⟨groups, all, hg, ha, rfl⟩ := aggregate_ok h
  have none_held : Held ⟨{}, {}⟩ d := by constructor <;> simp [Select.exprs]
  have groups_held := groupColumns hc none_held hg
  have all_held := aggregateColumns hd hc groups_held ha
  have g := (growing_aggregateColumns _ _ _).grows ha
  exact { hc.grow g with
    exprs := all_held.exprs
    groupBy := (groups_held.grow g).exprs
    orderBy := by simp }

/-! ### Pages by row numbers -/

private theorem counted {count : Option Scalar} {t : Option Tree} (hd : d.Started)
    (h : count.mapM (scalar []) d = .ok (t, d')) : ∀ u ∈ t, d'.Holds u := by
  obtain ⟨-, rfl, rfl⟩ | ⟨e, u, -, rfl, hs⟩ := mapM_option_ok.1 h
  · simp
  · simpa using hd.holds_scalar (by simp) hs

private theorem withNumbers {number : Tree} (hc : c.Held d) (hn : d.Holds number) :
    Held ⟨c.withNumbers number, c.header⟩ d := by
  refine { hc with exprs := fun t ht ↦ ?_, orderBy := fun k hk ↦ ?_ }
  · simp only [Compiled.withNumbers, Select.exprs, List.map_append, List.mem_append,
      List.map_cons, List.map_nil, List.mem_singleton] at ht
    rcases ht with ht | rfl
    · exact hc.exprs t ht
    · exact hn
  · simp only [Compiled.withNumbers] at hk
    split at hk
    · exact hc.orderBy k hk
    · cases hk

theorem numberedPage {skip take : Option Scalar} (hd : d.Started) (hc : c.Held d)
    (h : c.numberedPage skip take d = .ok (c', d')) : c'.Held d' := by
  obtain ⟨number, d₁, query, d₂, source, d₃, outer, d₄, row, d₅, low, d₆, high, d₇, filter,
    hn, hq, hs, ho, hr, hlow, hhigh, hf, rfl⟩ := numberedPage_ok h
  have g₁ := (Growing.node _).grows hn
  have gq := (Grows.nextAlias d₁).trans ((Growing.node _).grows hq)
  have gs := (Growing.node _).grows hs
  have go := (growing_selectAll _ _ _).grows ho
  have gr := (Growing.node _).grows hr
  have glow := (Growing.mapM_option (growing_scalar []) skip).grows hlow
  have ghigh := (Growing.mapM_option (growing_scalar []) take).grows hhigh
  have gf := (growing_numberCondition _ _ _).grows hf
  have hd₁ := g₁.started hd
  have hd₄ := go.started (gs.started (gq.started hd₁))
  have hd₆ := glow.started (gr.started hd₄)
  have number_holds : d₁.Holds number :=
    hd.holds_node (by simpa [Node.children] using numbering hc) hn
  have inner_held := (hc.grow g₁).withNumbers number_holds
  have query_holds : d₂.Holds query :=
    Started.holds_node (d := { d₁ with aliases := d₁.aliases + 1 })
      (n := .select (c.withNumbers number)) hd₁ inner_held.children hq
  have outer_held := derivedTable (gq.started hd₁) query_holds hs ho c.header
  have row_holds : d₅.Holds row := hd₄.holds_node (by simp [Node.children]) hr
  have filter_holds := holds_numberCondition (ghigh.started hd₆)
    ((glow.trans ghigh).holds row_holds) (fun t ht ↦ ghigh.holds (counted (gr.started hd₄) hlow t ht))
    (counted hd₆ hhigh) hf
  exact { outer_held.grow (((gr.trans glow).trans ghigh).trans gf) with
    filter := filter_holds
    orderBy := by simpa [SortKey.of] using ((glow.trans ghigh).trans gf).holds row_holds }

end Held

end Compiled

namespace Relation.Drafted

variable {server : Server} {r : Relation} {c : Compiled}

open Draft Compiled

/-- What a derivation comes to is in its draft. -/
theorem held (h : r.Drafted server d c d') (hd : d.Started) : c.Held d' := by
  induction h with
  | later g h ih => exact ih (g.started hd)
  | table h => exact Held.ofTable hd h
  | native h => exact Held.ofNative hd h
  | filter h hw hf ih =>
    have hd₁ := h.grows.started hd
    have hd₂ := ((growing_wrapFor _ _).grows hw).started hd₁
    exact ((ih hd).wrapFor hd₁ hw).filtered hd₂ hf
  | project h hw hp ih => exact ((ih hd).wrapFor (h.grows.started hd) hw).projected hp
  | extend h hw he ih =>
    have hd₁ := h.grows.started hd
    have hd₂ := ((growing_wrapFor _ _).grows hw).started hd₁
    exact ((ih hd).wrapFor hd₁ hw).extended hd₂ he
  | join hl hr hj ihl ihr =>
    have hd₁ := hl.grows.started hd
    exact .join (hr.grows.started hd₁) ((ihl hd).grow hr.grows) (ihr hd₁) hj
  | aggregate h hw ha ih =>
    have hd₁ := h.grows.started hd
    have hd₂ := ((growing_wrapFor _ _).grows hw).started hd₁
    exact ((ih hd).wrapFor hd₁ hw).aggregated hd₂ ha
  | sort h hw hs ih => exact ((ih hd).wrapFor (h.grows.started hd) hw).sorted hs
  | distinct h hw ih => exact ((ih hd).wrapFor (h.grows.started hd) hw).distinct
  | take _ h ht hl ih =>
    have hd₁ := h.grows.started hd
    have g := (growing_scalar _ _).grows ht
    exact ((ih hd).grow g).limited (g.started hd₁) (hd₁.holds_scalar (by simp) ht) hl
  | skip _ h hw ht ho ih =>
    have hd₁ := h.grows.started hd
    have hd₂ := ((growing_wrapFor _ _).grows hw).started hd₁
    have g := (growing_scalar _ _).grows ht
    exact (((ih hd).wrapFor hd₁ hw).grow g).skipped (g.started hd₂)
      (hd₂.holds_scalar (by simp) ht) ho
  | page _ _ h hw ht ho hu hl ih =>
    have hd₁ := h.grows.started hd
    have hd₂ := ((growing_wrapFor _ _).grows hw).started hd₁
    have g := (growing_scalar _ _).grows ht
    have hd₃ := g.started hd₂
    have skipped_held := (((ih hd).wrapFor hd₁ hw).grow g).skipped hd₃
      (hd₂.holds_scalar (by simp) ht) ho
    have hd₄ := ((growing_offset _ _ _).grows ho).started hd₃
    have g' := (growing_scalar _ _).grows hu
    exact (skipped_held.grow g').limited (g'.started hd₄) (hd₄.holds_scalar (by simp) hu) hl
  | numbered _ _ h hn ih => exact (ih hd).numberedPage (h.grows.started hd) hn
  | lock _ ih => exact (ih hd).lock _

end Relation.Drafted

end SqlWright
