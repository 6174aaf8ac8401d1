import Mathlib.Data.List.Infix
import SqlWright.Proofs.Locks.Kept

/-!
# Locks of commands

A lock that a relation has shows in the text of its command, outside names and strings, or there is
no command. Where locks are hints of tables, the lock has to have a stored table below it: over a
native query alone it is lost without notice. Native queries and bound texts must not leave a name
or a string open, which would hide what is written after them.
-/

namespace SqlWright

variable {byHint : Bool} {locks : Lock → Prop}

/-! ### Expressions -/

/-- Connectives have expressions for operands, in which no lock is written. -/
def Node.IsLockFree (byHint : Bool) (locks : Lock → Prop) (n : Node Tree) : Prop :=
  ∀ c ∈ n.connected, (Lock.written byHint locks).IsTruth ((Lock.written byHint locks).value c)

/-- Locks are written in row sources, not in expressions. -/
theorem Tree.pervades_isLockFree (byHint : Bool) (locks : Lock → Prop) :
    Pervades (fun _ ↦ True) (fun _ ↦ True)
      (fun t ↦ (∀ around, ¬ (Lock.written byHint locks).value t around) ∧
        t.Everywhere (Node.IsLockFree byHint locks))
      (Everywhere (Node.IsLockFree byHint locks)) where
  computation t ht _ hc := by
    obtain ⟨i, n⟩ := t
    refine ⟨fun around h ↦ ?_, .mk (fun c hm e ↦ ⟨none, ?_⟩) fun c hm ↦ (hc c hm).2⟩
    · rw [(Lock.written byHint locks).value_mk] at h
      cases n <;> first | exact h | cases ht
    · exact eq_false ((hc c (Node.connected_subset n hm)).1 e)
  column i label name := by
    refine ⟨fun around h ↦ ?_, .mk nofun nofun⟩
    rw [(Lock.written byHint locks).value_mk] at h
    exact h
  aggregate i kind operand ho := by
    refine ⟨fun around h ↦ ?_, .mk nofun fun c hm ↦ (ho c ?_).2⟩
    · rw [(Lock.written byHint locks).value_mk] at h
      exact h
    · simpa [children, node, Node.children] using hm
  table _ _ _ _ := .mk nofun nofun
  native _ _ _ := .mk nofun nofun
  queryRef _ _ _ hq := .mk nofun (by simpa [children, node, Node.children] using hq)
  join _ _ _ _ on hl hr hon := by
    refine .mk nofun fun c hm ↦ ?_
    simp only [children, node, Node.children, List.mem_cons, Option.mem_toList] at hm
    obtain rfl | rfl | hm := hm
    · exact hl
    · exact hr
    · exact (hon c hm).2
  select i _ hs he := .select i nofun hs fun t ht ↦ (he t ht).2

/-! ### Bound texts -/

/-- The texts that an execution binds leave no name and no string open. -/
structure Bindings.KeepTokens (l : Lexicon) (b : Bindings) : Prop where
  placeholders (id : Placeholder) (text : String) : b.placeholder? id = some text →
    l.Passes .ground .outside text
  rows (id : String) (rows : List (List String)) : b.rows? id = some rows →
    ∀ row ∈ rows, ∀ text ∈ row, l.Passes .ground .outside text

namespace Bindings.KeepTokens

variable {l : Lexicon} {b : Bindings} {id : Placeholder} {text : String}

theorem empty : ({} : Bindings).KeepTokens l := ⟨nofun, nofun⟩

theorem bind (h : b.KeepTokens l) (ht : l.Passes .ground .outside text) :
    (b.bind id text).KeepTokens l where
  rows := h.rows
  placeholders other found bound := by
    simp only [Bindings.bind, placeholder?, List.lookup_cons] at bound
    split at bound
    · cases bound
      exact ht
    · exact h.placeholders other found bound

/-- Numbers of types keep tokens apart as well. -/
theorem placeholder (h : b.KeepTokens l) (ht : Settled.placeholder ⟨b, []⟩ id = .ok text) :
    l.Passes .ground .outside text := by
  have listed := h.placeholders id text
  have number (n : Int32) : l.Passes .ground .outside (Text.ofInt n.toInt) :=
    Lexicon.passes_of_isCalm (Lexicon.ofInt_isCalm _)
  cases id <;> grind [Settled.placeholder]

end Bindings.KeepTokens

/-- Drafted nodes keep tokens apart if native queries and bound texts do. -/
theorem Node.IsDrafted.isClear {α : Type} {l : Lexicon} {b : Bindings} {speaks : Parameter → Prop}
    {n : Node α} (h : n.IsDrafted (l.Passes .ground .outside) speaks) (hb : b.KeepTokens l)
    (mark : String) : n.IsClear l ⟨b, []⟩ mark := by
  cases n with
  | native _ => exact h
  | «variable» _ => exact h.elim
  | placeholder id => exact fun _ ↦ hb.placeholder
  | dynamicFilter id _ _ => exact hb.rows id
  | _ => trivial

namespace Compiler

variable {c : Compiler} {r : Relation} {s : Statement}

/-- What is left of a statement writes the locks that the relation writes. -/
theorem written_simplified (h : r.statement c.server c.strategies = .ok s)
    (given : ∀ q k, .lock q k ∈ r.parts → locks k) (hw : r.WritesLock byHint false) :
    (Lock.written byHint locks).value (c.simplified s) none := by
  have logical : s.tree.Everywhere (Node.IsLockFree byHint locks) :=
    Relation.statement_pervaded h (Tree.pervades_isLockFree byHint locks)
      (fun _ _ _ ↦ trivial) fun _ _ ↦ trivial
  rw [simplified, (Relation.statement_holds h).value_simplify logical]
  obtain ⟨compiled, d, hc, rfl⟩ := Relation.statement_ok h
  have written := (Relation.drafted_of_draft hc).writesLock given none nofun hw
  exact Compiled.written_select.2 written

/-- In every text of the command of a relation with a lock, the clause of one of its locks shows
outside names and strings. -/
theorem command_shows_lock {d : Dialect} {v : Version} {simplifications : List Simplification}
    {command : Command} {b : Bindings} {text : String}
    (built : build d v simplifications = .ok c) (hc : c.command r = .ok command)
    (locked : ∃ q k, .lock q k ∈ r.parts ∧ (d.locksByHint = true → ∃ t, .table t ∈ q.parts))
    (natives : r.Natives ((d.lexicon v).Passes .ground .outside))
    (bound : b.KeepTokens (d.lexicon v)) (ht : command.text b = .ok text) :
    ∃ part, (d.spelling v).IsClauseOf (fun k ↦ ∃ q, .lock q k ∈ r.parts) part ∧
      (d.lexicon v).Shows part text := by
  obtain ⟨server, -, ⟨⟩⟩ := bind_except_ok.1 built
  obtain ⟨s, hs, hc⟩ := command_ok hc
  obtain ⟨q, k, mem, reaches⟩ := locked
  have given : ∀ q k, .lock q k ∈ r.parts → ∃ q, .lock q k ∈ r.parts := fun q k hk ↦ ⟨q, hk⟩
  have written := written_simplified hs given (Relation.writesLock_of_lock mem reaches)
  have clear (mark : String) := (everywhere_simplified hs natives fun _ _ ↦ trivial).mono
    fun n (hn : n.IsDrafted _ fun _ ↦ True) ↦ hn.isClear bound mark
  exact Tree.command_shows hc clear written ht

/-- A page of locked goods that a native query names, with a bound on their size. -/
def lockedGoods : Relation :=
  .filter
    (.page
      (.join (.lock (.table ⟨none, "goods", [⟨"id", .int32, false⟩, ⟨"size", .int32, false⟩], [0]⟩)
          ⟨.update, .wait⟩)
        (.native "SELECT 1 AS x" ⟨[⟨"x", .int32⟩], []⟩) .inner [(0, 0)])
      (.constant (.integer 1)) (.constant (.integer 2)))
    (.binary .lt (.column 1) (.placeholder (.key "most")))

/-- Text of the command for the page, where the number is bound. -/
def lockedGoodsText : String :=
  "SELECT [t3].[id], [t3].[size], [t3].[x] FROM (" ++
    "SELECT [t2].[id], [t2].[size], [t1].[x], ROW_NUMBER() OVER (ORDER BY [t2].[id]) AS [rn] " ++
      "FROM (SELECT [t0].[id], [t0].[size] FROM [goods] AS [t0] WITH (UPDLOCK, ROWLOCK)) " ++
      "AS [t2] INNER JOIN (SELECT 1 AS x) AS [t1] ON [t2].[id] = [t1].[x]) AS [t3] " ++
    "WHERE [t3].[rn] > 1 AND [t3].[rn] <= 3 AND [t3].[size] < 5 ORDER BY [t3].[rn]"

theorem command_shows_lock_of_lockedGoods :
    ∃ c command, build .sqlServer ⟨10, 0⟩ Simplification.standard = .ok c ∧
      c.command lockedGoods = .ok command ∧
      command.text (Bindings.bind {} (.key "most") "5") = .ok lockedGoodsText ∧
      ∃ part, (Dialect.sqlServer.spelling ⟨10, 0⟩).IsClauseOf
          (fun k ↦ ∃ q, .lock q k ∈ lockedGoods.parts) part ∧
        (Dialect.sqlServer.lexicon ⟨10, 0⟩).Shows part lockedGoodsText := by
  have built : build .sqlServer ⟨10, 0⟩ Simplification.standard =
      .ok (standard .sqlServer ⟨10, 0⟩) := build_standard (by decide)
  have natives : lockedGoods.Natives
      ((Dialect.sqlServer.lexicon ⟨10, 0⟩).Passes .ground .outside) := by
    intro sql header mem
    simp only [lockedGoods, Relation.parts, List.mem_cons, List.cons_append, List.nil_append,
      List.not_mem_nil, reduceCtorEq, false_or, or_false, Relation.native.injEq] at mem
    exact mem.1 ▸ Lexicon.passes_of_isCalm (by decide)
  have locked : ∃ q k, .lock q k ∈ lockedGoods.parts ∧
      (Dialect.sqlServer.locksByHint = true → ∃ t, .table t ∈ q.parts) :=
    ⟨_, _, .tail _ (.tail _ (.tail _ (.head _))), fun _ ↦ ⟨_, .head _⟩⟩
  have bound : (Bindings.bind {} (.key "most") "5").KeepTokens
      (Dialect.sqlServer.lexicon ⟨10, 0⟩) :=
    .bind .empty (Lexicon.passes_of_isCalm (by decide))
  have written : ((standard .sqlServer ⟨10, 0⟩).command lockedGoods >>=
      (·.text (Bindings.bind {} (.key "most") "5"))) = .ok lockedGoodsText := by
    decide +kernel
  obtain ⟨command, hc, ht⟩ := bind_except_ok.1 written
  exact ⟨_, command, built, hc, ht, command_shows_lock built hc locked natives bound ht⟩

/-- A locked native query. -/
def lockedNative : Relation :=
  .lock (.native "SELECT 1 AS x" ⟨[⟨"x", .int32⟩], []⟩) ⟨.update, .wait⟩

/-- Over a native query alone, the lock is lost where locks are hints of tables. -/
theorem lockedNative_not_shows_lock :
    ∃ c command, build .sqlServer ⟨10, 0⟩ Simplification.standard = .ok c ∧
      c.command lockedNative = .ok command ∧
      command.text {} = .ok "SELECT [t0].[x] FROM (SELECT 1 AS x) AS [t0]" ∧
      ∀ part, (Dialect.sqlServer.spelling ⟨10, 0⟩).IsClauseOf
          (fun k ↦ ∃ q, .lock q k ∈ lockedNative.parts) part →
        ¬ (Dialect.sqlServer.lexicon ⟨10, 0⟩).Shows part
          "SELECT [t0].[x] FROM (SELECT 1 AS x) AS [t0]" := by
  have written : ((standard .sqlServer ⟨10, 0⟩).command lockedNative >>= (·.text {})) =
      .ok "SELECT [t0].[x] FROM (SELECT 1 AS x) AS [t0]" := by decide +kernel
  have lost (part : String) (h : (Dialect.sqlServer.spelling ⟨10, 0⟩).IsClauseOf
      (fun k ↦ ∃ q, .lock q k ∈ lockedNative.parts) part) :
      ¬ (Dialect.sqlServer.lexicon ⟨10, 0⟩).Shows part
        "SELECT [t0].[x] FROM (SELECT 1 AS x) AS [t0]" := by
    obtain ⟨k, clause, ⟨q, mem⟩, hk, rfl⟩ := h
    simp only [lockedNative, Relation.parts, List.mem_cons, List.not_mem_nil, reduceCtorEq,
      or_false, Relation.lock.injEq] at mem
    obtain ⟨-, rfl⟩ := mem
    cases hk
    exact fun shown ↦ absurd shown.isInfix (by decide)
  obtain ⟨command, hc, ht⟩ := bind_except_ok.1 written
  exact ⟨_, command, build_standard (by decide), hc, ht, lost⟩

end Compiler

end SqlWright
