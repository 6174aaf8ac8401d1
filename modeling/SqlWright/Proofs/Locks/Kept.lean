import SqlWright.Proofs.Command.Drafted
import SqlWright.Proofs.Locks.Written

/-!
# Locks that are kept

A lock of a relation stays in its statement, whatever is made of the locked rows: the select that
has it is changed further, becomes a derived table, or gets another lock. So the statement writes
one of the locks, if the server locks by a clause of the select. Where locks are hints of tables,
some lock has to have a stored table below it; one that has none is lost without notice.
-/

namespace SqlWright

variable {d d' d₁ : Draft} {byHint : Bool} {locks : Lock → Prop} {c c' : Compiled}
  {around : Option Lock}

open Drafting Draft Compiled

/-! ### Row sources -/

namespace Lock

theorem written_table {i : Nat} {schema : Option String} {name : String} {label : Option String} :
    (written byHint locks).value (.mk i (.table schema name label)) around ↔
      byHint = true ∧ ∃ k ∈ around, locks k := by
  rw [(written byHint locks).value_mk]
  rfl

theorem written_queryRef {i : Nat} {query : Tree} {label : String} :
    (written byHint locks).value (.mk i (.queryRef query label)) around ↔
      (written byHint locks).value query around := by
  rw [(written byHint locks).value_mk]
  rfl

theorem written_join {i : Nat} {kind : JoinKind} {left right : Tree} {on : Option Tree} :
    (written byHint locks).value (.mk i (.join kind left right on)) around ↔
      (written byHint locks).value left around ∨ (written byHint locks).value right around := by
  rw [(written byHint locks).value_mk]
  rfl

/-- What is written under a lock is written under each of the locks. -/
theorem written_some {t : Tree} (h : (written byHint locks).value t around) {k : Lock}
    (hk : locks k) : (written byHint locks).value t (some k) := by
  induction t using Tree.induction_children generalizing around with
  | h i n ih =>
    cases n with
    | table schema name label =>
      rw [written_table] at h ⊢
      exact ⟨h.1, k, rfl, hk⟩
    | queryRef query label =>
      rw [written_queryRef] at h ⊢
      exact ih query (by simp [Node.children]) h
    | join kind left right on =>
      rw [written_join] at h ⊢
      exact h.imp (ih left (by simp [Node.children])) (ih right (by simp [Node.children]))
    | select s =>
      rw [(written byHint locks).value_mk] at h ⊢
      refine h.imp_right ?_
      rintro ⟨source, hs, written⟩
      refine ⟨source, hs, ?_⟩
      obtain ⟨t, ht, rfl⟩ := Option.map_eq_some_iff.1 hs
      cases hl : s.lock with
      | some inner => simpa [Select.map, hl] using written
      | none =>
        have under := ih t (by simp [Node.children, Select.children, ht]) written
        simpa [Select.map, hl] using under
    | _ =>
      rw [(written byHint locks).value_mk] at h
      exact h.elim

end Lock

/-! ### Locks of selects -/

namespace Compiled

/-- The select writes one of the locks, given the lock around it. -/
def WritesLock (byHint : Bool) (locks : Lock → Prop) (c : Compiled) (around : Option Lock) : Prop :=
  (Lock.written byHint locks).node
    (.select (c.select.map (Lock.written byHint locks).value)) around

/-- The row source of the select writes one of the locks, given the lock around it. -/
def SourceWritesLock (byHint : Bool) (locks : Lock → Prop) (c : Compiled) (around : Option Lock) :
    Prop :=
  ∃ source ∈ c.select.source, (Lock.written byHint locks).value source around

theorem written_select {i : Nat} :
    (Lock.written byHint locks).value (.mk i (.select c.select)) around ↔
      c.WritesLock byHint locks around := by
  rw [(Lock.written byHint locks).value_mk]
  rfl

theorem writesLock_iff : c.WritesLock byHint locks around ↔
    (byHint = false ∧ ∃ k ∈ c.select.lock, locks k) ∨
      c.SourceWritesLock byHint locks (c.select.lock <|> around) := by
  have source : (∃ source ∈ c.select.source.map (Lock.written byHint locks).value,
      source (c.select.lock <|> around)) ↔
      c.SourceWritesLock byHint locks (c.select.lock <|> around) := by
    simp [SourceWritesLock]
  exact or_congr Iff.rfl source

/-- Two selects have one row source and one lock. -/
structure SameRows (c c' : Compiled) : Prop where
  source : c'.select.source = c.select.source
  lock : c'.select.lock = c.select.lock

namespace SameRows

theorem sourceWritesLock (h : c.SameRows c') :
    c'.SourceWritesLock byHint locks around ↔ c.SourceWritesLock byHint locks around := by
  rw [SourceWritesLock, SourceWritesLock, h.source]

theorem writesLock (h : c.SameRows c') :
    c'.WritesLock byHint locks around ↔ c.WritesLock byHint locks around := by
  rw [writesLock_iff, writesLock_iff, h.sourceWritesLock, h.lock]

theorem trans {c₁ : Compiled} (h : c.SameRows c₁) (h' : c₁.SameRows c') : c.SameRows c' :=
  ⟨h'.source.trans h.source, h'.lock.trans h.lock⟩

theorem derived (c : Compiled) : c.SameRows ⟨c.derived, c.header⟩ := by
  unfold Compiled.derived
  split <;> exact ⟨rfl, rfl⟩

theorem filtered {e : Scalar} (h : c.filter e d = .ok (c', d')) : c.SameRows c' := by
  obtain ⟨condition, d₁, filter, -, -, rfl⟩ := filter_ok h
  exact ⟨rfl, rfl⟩

theorem projected {columns : List Nat} (h : c.project columns = .ok c') : c.SameRows c' := by
  obtain ⟨chosen, -, rfl⟩ := project_ok h
  exact ⟨rfl, rfl⟩

theorem extended {columns : List Calculation} (h : c.extend columns d = .ok (c', d')) :
    c.SameRows c' := by
  have select := select_extend h
  exact ⟨by rw [select], by rw [select]⟩

theorem aggregated {groupBy : List Nat} {aggregates : List Aggregation}
    (h : c.aggregate groupBy aggregates d = .ok (c', d')) : c.SameRows c' := by
  obtain ⟨groups, all, -, -, rfl⟩ := aggregate_ok h
  exact ⟨rfl, rfl⟩

theorem sorted {order : List SortItem} (h : c.sort order = .ok c') : c.SameRows c' := by
  obtain ⟨orderBy, -, rfl⟩ := sort_ok h
  exact ⟨rfl, rfl⟩

theorem distinct (c : Compiled) : c.SameRows c.distinct := ⟨rfl, rfl⟩

theorem ordered (c : Compiled) (isWanted : Bool) : c.SameRows (c.ordered isWanted) := by
  unfold Compiled.ordered
  split <;> exact ⟨rfl, rfl⟩

theorem limited {count : Tree} {isOrdered : Bool} (h : c.limit count isOrdered d = .ok (c', d')) :
    c.SameRows c' := by
  obtain ⟨l, -, rfl⟩ := limit_ok h
  have paged : c.SameRows { c with select := { c.select with limit := some l } } := ⟨rfl, rfl⟩
  exact paged.trans (ordered _ _)

theorem skipped {count : Tree} {isOrdered : Bool} (h : c.offset count isOrdered d = .ok (c', d')) :
    c.SameRows c' := by
  obtain ⟨l, -, rfl⟩ := offset_ok h
  have paged : c.SameRows { c with select := { c.select with offset := some l } } := ⟨rfl, rfl⟩
  exact paged.trans (ordered _ _)

end SameRows

/-! ### Derived tables and joins -/

/-- A select of a derived table writes what the derived table does. -/
theorem writesLock_derivedTable {i j : Nat} {label : String}
    (source : c'.select.source = some (.mk i (.queryRef (.mk j (.select c.select)) label)))
    (lock : c'.select.lock = none) :
    c'.WritesLock byHint locks around ↔ c.WritesLock byHint locks around := by
  have outer : (c'.select.lock <|> around) = around := by rw [lock]; rfl
  rw [writesLock_iff, outer, SourceWritesLock, source, lock]
  simp [Lock.written_queryRef, written_select]

theorem writesLock_wrap (h : c.wrap d = .ok (c', d')) :
    c'.WritesLock byHint locks around ↔ c.WritesLock byHint locks around := by
  obtain ⟨query, d₁, source, d₂, outer, hq, hs, ho, rfl⟩ := wrap_ok h
  obtain ⟨exprs, rfl, -⟩ := selectAll_ok ho
  obtain ⟨rfl, -⟩ := node_ok.1 hs
  obtain ⟨rfl, -⟩ := node_ok.1 hq
  exact (writesLock_derivedTable rfl rfl).trans (SameRows.derived c).writesLock

theorem writesLock_wrapFor {op : Operation} (h : c.wrapFor op d = .ok (c', d')) :
    c'.WritesLock byHint locks around ↔ c.WritesLock byHint locks around := by
  unfold Compiled.wrapFor at h
  split at h
  · exact writesLock_wrap h
  · obtain ⟨rfl, -⟩ := pure_ok.1 h
    rfl

/-- A locked select is no side of a join: it becomes a derived table. -/
theorem sourceWritesLock_wrapFor_join (h : c.wrapFor .join d = .ok (c', d')) :
    c'.SourceWritesLock byHint locks around ↔ c.WritesLock byHint locks around := by
  have unlocked : c'.select.lock = none := by
    unfold Compiled.wrapFor at h
    split at h
    · obtain ⟨_, _, _, _, outer, -, -, ho, rfl⟩ := wrap_ok h
      obtain ⟨exprs, rfl, -⟩ := selectAll_ok ho
      rfl
    · next waits =>
      obtain ⟨rfl, -⟩ := pure_ok.1 h
      simp only [mustWrap, Bool.or_eq_true, not_or] at waits
      simpa using waits.2
  have outer : (c'.select.lock <|> around) = around := by rw [unlocked]; rfl
  rw [← writesLock_wrapFor h, writesLock_iff, outer, unlocked]
  simp

theorem writesLock_join {left right : Compiled} {type : JoinType} {pairs : List (Nat × Nat)}
    (h : left.join right type pairs d = .ok (some c, d')) :
    c.WritesLock byHint locks around ↔
      left.WritesLock byHint locks around ∨ right.WritesLock byHint locks around := by
  obtain ⟨l, d₁, r, d₂, leftSource, rightSource, condition, d₃, kind, on, filter, d₄, source,
    hwl, hwr, hls, hrs, -, -, hs, rfl⟩ := join_ok h
  obtain ⟨rfl, -⟩ := node_ok.1 hs
  rw [← sourceWritesLock_wrapFor_join hwl, ← sourceWritesLock_wrapFor_join hwr, writesLock_iff]
  have outer : ((none : Option Lock) <|> around) = around := rfl
  simp only [SourceWritesLock, hls, hrs, outer, Option.mem_def, Option.some.injEq,
    exists_eq_left', reduceCtorEq, false_and, exists_false, and_false, false_or]
  exact Lock.written_join

theorem writesLock_numberedPage {skip take : Option Scalar}
    (h : c.numberedPage skip take d = .ok (c', d')) :
    c'.WritesLock byHint locks around ↔ c.WritesLock byHint locks around := by
  obtain ⟨number, d₁, query, d₂, source, d₃, outer, d₄, row, d₅, low, d₆, high, d₇, filter,
    -, hq, hs, ho, -, -, -, -, rfl⟩ := numberedPage_ok h
  obtain ⟨exprs, rfl, -⟩ := selectAll_ok ho
  obtain ⟨rfl, -⟩ := node_ok.1 hs
  obtain ⟨rfl, -⟩ := node_ok.1 hq
  have numbered : c.SameRows ⟨c.withNumbers number, c.header⟩ := ⟨rfl, rfl⟩
  exact (writesLock_derivedTable rfl rfl).trans numbered.writesLock

end Compiled

/-! ### Locks of relations -/

namespace Relation

variable {server : Server} {r : Relation}

/-- One of the locks of the relation is written, given whether there is one around it. -/
def WritesLock (byHint : Bool) : Bool → Relation → Prop
  | isLocked, table _ => byHint = true ∧ isLocked = true
  | _, native _ _ => False
  | isLocked, join a b _ _ => a.WritesLock byHint isLocked ∨ b.WritesLock byHint isLocked
  | _, lock r _ => byHint = false ∨ r.WritesLock byHint true
  | isLocked, filter r _ | isLocked, project r _ | isLocked, extend r _
  | isLocked, aggregate r _ _ | isLocked, sort r _ | isLocked, distinct r | isLocked, take r _
  | isLocked, skip r _ | isLocked, page r _ _ => r.WritesLock byHint isLocked

/-- Locks are written under a lock that are written without one. -/
theorem WritesLock.mono {isLocked : Bool} (h : r.WritesLock byHint false) :
    r.WritesLock byHint isLocked := by
  induction r with
  | table => cases h.2
  | native => exact h
  | join _ _ _ _ iha ihb => exact h.imp iha ihb
  | lock => exact h
  | filter _ _ ih | project _ _ ih | extend _ _ ih | aggregate _ _ _ ih | sort _ _ ih
  | distinct _ ih | take _ _ ih | skip _ _ ih | page _ _ _ ih => exact ih h

/-- A hint comes to a stored table. -/
theorem writesLock_of_table {t : Table} (h : .table t ∈ r.parts) : r.WritesLock true true := by
  induction r with
  | table => exact ⟨rfl, rfl⟩
  | native => simp [parts] at h
  | join _ _ _ _ iha ihb =>
    simp only [parts, List.mem_cons, reduceCtorEq, List.mem_append, false_or] at h
    exact h.imp iha ihb
  | lock _ _ ih => exact .inr (ih (by simpa [parts] using h))
  | filter _ _ ih | project _ _ ih | extend _ _ ih | aggregate _ _ _ ih | sort _ _ ih
  | distinct _ ih | take _ _ ih | skip _ _ ih | page _ _ _ ih => exact ih (by simpa [parts] using h)

/-- A lock among the parts is written, if it is no hint or has a stored table below it. -/
theorem writesLock_of_lock {q : Relation} {k : Lock} (h : .lock q k ∈ r.parts)
    (reaches : byHint = true → ∃ t, .table t ∈ q.parts) : r.WritesLock byHint false := by
  induction r with
  | table => simp [parts] at h
  | native => simp [parts] at h
  | join _ _ _ _ iha ihb =>
    simp only [parts, List.mem_cons, reduceCtorEq, List.mem_append, false_or] at h
    exact h.imp iha ihb
  | lock r l ih =>
    cases byHint with
    | false => exact .inl rfl
    | true =>
      obtain ⟨t, ht⟩ := reaches rfl
      simp only [parts, List.mem_cons, lock.injEq] at h
      obtain ⟨rfl, rfl⟩ | h := h
      · exact .inr (writesLock_of_table ht)
      · exact .inr (ih h).mono
  | filter _ _ ih | project _ _ ih | extend _ _ ih | aggregate _ _ _ ih | sort _ _ ih
  | distinct _ ih | take _ _ ih | skip _ _ ih | page _ _ _ ih => exact ih (by simpa [parts] using h)

/-- A drafted select writes one of the locks if the relation does. -/
theorem Drafted.writesLock (h : r.Drafted server d c d')
    (given : ∀ q k, .lock q k ∈ r.parts → locks k) (around : Option Lock)
    (ha : ∀ k ∈ around, locks k) (hw : r.WritesLock byHint around.isSome) :
    c.WritesLock byHint locks around := by
  have tail {r q : Relation} (given : ∀ q k, .lock q k ∈ r.parts → locks k) (hq : q ∈ r.parts.tail) :
      ∀ p k, .lock p k ∈ q.parts → locks k :=
    fun p k hp ↦ given p k (mem_parts_trans hp (List.mem_of_mem_tail hq))
  induction h generalizing around with
  | later _ _ ih => exact ih given around ha hw
  | table h =>
    obtain ⟨source, d₁, hs, hc, -⟩ := ofTable_ok h
    obtain ⟨rfl, -⟩ := node_ok.1 hs
    obtain ⟨exprs, hc, -⟩ := selectAll_ok hc
    obtain ⟨k, rfl⟩ := Option.isSome_iff_exists.1 hw.2
    rw [Compiled.writesLock_iff, SourceWritesLock, hc]
    exact .inr ⟨_, rfl, Lock.written_table.2 ⟨hw.1, k, rfl, ha k rfl⟩⟩
  | native => exact hw.elim
  | filter _ hwrap hf ih =>
    rw [(SameRows.filtered hf).writesLock, writesLock_wrapFor hwrap]
    exact ih (tail given (mem_parts_self _)) around ha hw
  | project _ hwrap hp ih =>
    rw [(SameRows.projected hp).writesLock, writesLock_wrapFor hwrap]
    exact ih (tail given (mem_parts_self _)) around ha hw
  | extend _ hwrap he ih =>
    rw [(SameRows.extended he).writesLock, writesLock_wrapFor hwrap]
    exact ih (tail given (mem_parts_self _)) around ha hw
  | join _ _ hj ihl ihr =>
    rw [writesLock_join hj]
    exact hw.imp (ihl (tail given (List.mem_append_left _ (mem_parts_self _))) around ha)
      (ihr (tail given (List.mem_append_right _ (mem_parts_self _))) around ha)
  | aggregate _ hwrap hg ih =>
    rw [(SameRows.aggregated hg).writesLock, writesLock_wrapFor hwrap]
    exact ih (tail given (mem_parts_self _)) around ha hw
  | sort _ hwrap hs ih =>
    rw [(SameRows.sorted hs).writesLock, writesLock_wrapFor hwrap]
    exact ih (tail given (mem_parts_self _)) around ha hw
  | distinct _ hwrap ih =>
    rw [(SameRows.distinct _).writesLock, writesLock_wrapFor hwrap]
    exact ih (tail given (mem_parts_self _)) around ha hw
  | take _ _ _ hl ih =>
    rw [(SameRows.limited hl).writesLock]
    exact ih (tail given (mem_parts_self _)) around ha hw
  | skip _ _ hwrap _ ho ih =>
    rw [(SameRows.skipped ho).writesLock, writesLock_wrapFor hwrap]
    exact ih (tail given (mem_parts_self _)) around ha hw
  | page _ _ _ hwrap _ ho _ hl ih =>
    rw [(SameRows.limited hl).writesLock, (SameRows.skipped ho).writesLock,
      writesLock_wrapFor hwrap]
    exact ih (tail given (mem_parts_self _)) around ha hw
  | numbered _ page _ hn ih =>
    rw [writesLock_numberedPage hn]
    cases page with
    | take _ | skip _ | page _ _ => exact ih (tail given (mem_parts_self _)) around ha hw
  | @lock r l d d' c _ ih =>
    rw [Compiled.writesLock_iff]
    have locked : locks l := given r l (mem_parts_self _)
    obtain rfl | hw := hw
    · exact .inl ⟨rfl, l, rfl, locked⟩
    · have under := ih (tail given (mem_parts_self _)) (some l) (by simpa using locked) hw
      rw [Compiled.writesLock_iff] at under
      obtain ⟨suffix, -⟩ | ⟨source, hs, under⟩ := under
      · exact .inl ⟨suffix, l, rfl, locked⟩
      · exact .inr ⟨source, hs, Lock.written_some under locked⟩

end Relation

end SqlWright
