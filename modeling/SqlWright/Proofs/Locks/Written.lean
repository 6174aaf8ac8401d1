import SqlWright.Proofs.Lexing.Showing
import SqlWright.Proofs.Simplification.Values

/-!
# Locks that are written

A lock is written at the end of its select, or else after each table that its FROM clause leads to,
be it through joins and derived tables. `Lock.written` says of a statement whether that
comes about for one of some locks, given the lock around it. If it does, the clause that the
spelling has for the lock shows in the text of the statement.
-/

namespace SqlWright

variable {l : Lexicon} {s : Settled} {spelling : Spelling} {byHint : Bool} {locks : Lock → Prop}

/-- Whether the clause stands after the tables of a select, not after the select. -/
def LockClause.isHint : LockClause → Bool
  | suffix _ => false
  | tableHint _ => true

/-- Row locks are all hints of tables or none of them is, and their clauses are plain. -/
def Spelling.LocksAs (spelling : Spelling) (byHint : Bool) : Prop :=
  ∀ k clause, spelling.lock k = .ok clause →
    clause.isHint = byHint ∧ Lexicon.isPlain clause.text.toList = true

/-- The text is that of the clause of one of the locks. -/
def Spelling.IsClauseOf (spelling : Spelling) (locks : Lock → Prop) (text : String) : Prop :=
  ∃ k clause, locks k ∧ spelling.lock k = .ok clause ∧ clause.text = text

/-- Whether a statement writes one of the locks, given the lock around it. Where locks are hints,
the innermost one around a table is written there. -/
def Lock.written (byHint : Bool) (locks : Lock → Prop) : Denotation (Option Lock) Prop where
  node n around :=
    match n with
    | .table _ _ _ => byHint = true ∧ ∃ k ∈ around, locks k
    | .queryRef query _ => query around
    | .join _ left right _ => left around ∨ right around
    | .select s => (byHint = false ∧ ∃ k ∈ s.lock, locks k) ∨
        ∃ source ∈ s.source, source (s.lock <|> around)
    | _ => False
  truth _ := False
  boolean _ _ := rfl
  and _ _ := rfl
  or _ _ := rfl
  not _ := rfl
  cast _ _ := rfl

namespace Script

open Writing

variable {w : Script} {hint : Option String} {around : Option Lock}

/-- The hint for tables is that of the lock around them. -/
def Carries (w : Script) (around : Option Lock) (hint : Option String) : Prop :=
  ∀ k ∈ around, ∃ text, w.spelling.lock k = .ok (.tableHint text) ∧ hint = some text

/-- A select shows the clause of a lock that it writes, if its row source does. -/
private theorem displays_select (rules : w.Lexes l) (locksAs : w.spelling.LocksAs byHint)
    {q : Select Tree} (clear : ∀ c ∈ q.children, c.Everywhere (Node.IsClear l s w.mark))
    (passes : HintPasses l hint) (carried : byHint = true → w.Carries around hint)
    (ih : ∀ c ∈ q.children, ∀ around hint, HintPasses l hint →
      (byHint = true → w.Carries around hint) → (Lock.written byHint locks).value c around →
      Displays l s (w.spelling.IsClauseOf locks) .ground (w.tree c hint))
    (h : (Lock.written byHint locks).node
      (.select (q.map (Lock.written byHint locks).value)) around) :
    Displays l s (w.spelling.IsClauseOf locks) .ground
      (w.node (.select (q.map (partOf id w.tree))) hint) := by
  have alike (c : Tree) (hc : c ∈ q.children) (hint : Option String) (hp : HintPasses l hint) :
      WrittenAlike l s (w.tree c hint) (w.tree c hint) := alike_self rules (clear c hc) hp
  change Displays _ _ _ _ (w.select _ hint)
  rw [select_eq]
  refine .lift fun paging _ ↦ .lift fun lock hl ↦ ?_
  have sourced (hp : HintPasses l (tableHint lock hint))
      (hc : byHint = true → w.Carries (q.lock <|> around) (tableHint lock hint))
      (h : ∃ source ∈ (q.map (Lock.written byHint locks).value).source,
        source (q.lock <|> around)) :
      Displays l s (w.spelling.IsClauseOf locks) .ground
        (w.clauses (q.map (partOf id w.tree)) paging lock hint) := by
    obtain ⟨_, hm, written⟩ := h
    obtain ⟨source, hs, rfl⟩ := Option.map_eq_some_iff.1 hm
    have mem : source ∈ q.children := by simp [Select.children, hs]
    exact displays_clauses_source rules (fun c hc ↦ alike c hc none hintPasses_none) hs
      (ih source mem _ _ hp hc written)
  obtain ⟨none, rfl⟩ | ⟨k, clause, hk, hc, rfl⟩ := lock?_cases hl
  · have unlocked : q.lock = Option.none := none
    rcases h with ⟨-, k, hk, -⟩ | h
    · cases unlocked.symm.trans hk
    · have outer : (q.lock <|> around) = around := by rw [unlocked]; rfl
      exact sourced passes (by rwa [outer]) h
  · have locked : q.lock = some k := hk
    have inner : (q.lock <|> around) = some k := by rw [locked]; rfl
    obtain ⟨isHint, -⟩ := locksAs k clause hc
    have clausePasses := rules.spelling.lock k clause hc
    cases clause with
    | tableHint text =>
      rcases h with ⟨suffix, -⟩ | h
      · cases isHint.trans suffix
      · refine sourced clausePasses (fun _ ↦ inner ▸ ?_) h
        rintro _ ⟨⟩
        exact ⟨text, hc, rfl⟩
    | suffix text =>
      rcases h with ⟨-, k', hk', mem⟩ | h
      · cases locked.symm.trans hk'
        exact displays_clauses_suffix rules passes alike ⟨k, _, mem, hc, rfl⟩
      · exact sourced passes (fun hint ↦ by cases isHint.trans hint) h

/-- A statement shows the clause of a lock that it writes. -/
theorem displays_tree (rules : w.Lexes l) (locksAs : w.spelling.LocksAs byHint) {t : Tree}
    (clear : t.Everywhere (Node.IsClear l s w.mark)) (passes : HintPasses l hint)
    (carried : byHint = true → w.Carries around hint)
    (h : (Lock.written byHint locks).value t around) :
    Displays l s (w.spelling.IsClauseOf locks) .ground (w.tree t hint) := by
  induction t using Tree.induction_children generalizing around hint with
  | h i n ih =>
    obtain ⟨-, below⟩ := clear
    rw [(Lock.written byHint locks).value_mk] at h
    rw [tree_mk]
    cases n with
    | table schema name label =>
      obtain ⟨hinted, k, hk, mem⟩ := h
      obtain ⟨text, hc, rfl⟩ := carried hinted k hk
      exact displays_table rules schema name label ⟨k, _, mem, hc, rfl⟩
    | queryRef query label =>
      exact displays_queryRef label (ih query (by simp [Node.children])
        (below query (by simp [Tree.children, Tree.node, Node.children])) passes carried h)
    | join kind left right on =>
      have hl : left ∈ (Node.join kind left right on).children := by simp [Node.children]
      have hr : right ∈ (Node.join kind left right on).children := by simp [Node.children]
      refine displays_join kind on (alike_self rules (below left hl) passes) (h.imp ?_ ?_)
      · exact ih left hl (below left hl) passes carried
      · exact ih right hr (below right hr) passes carried
    | select q =>
      exact displays_select rules locksAs below passes carried
        (fun c hc _ _ hp hcarried ↦ ih c hc (below c hc) hp hcarried) h
    | _ => exact h.elim

end Script

/-! ### Dialects -/

/-- The locks of the layer, if it has a rule for them, are hints of tables, or none of them is. -/
def Layer.LocksAs (byHint : Bool) (layer : Layer) : Prop :=
  ∀ rule ∈ layer.lock, ∀ k, ∀ clause ∈ rule k,
    clause.isHint = byHint ∧ Lexicon.isPlain clause.text.toList = true

namespace Spelling

/-- Locks are placed as in the layers. -/
theorem locksAs_of_layers (h : ∀ layer ∈ spelling.layers, layer.LocksAs byHint) :
    spelling.LocksAs byHint := by
  intro k clause hc
  obtain ⟨layer, mem, rule, picked, given⟩ := exists_lockRule hc
  exact h layer mem rule picked k clause given

private theorem PostgreSql.locksAs (v : Version) : (PostgreSql.spelling v).LocksAs false := by
  have locks (rule : Lock → Option LockClause)
      (h : rule = PostgreSql.waitingLock ∨ rule = PostgreSql.lock) (k : Lock) :
      ∀ clause ∈ rule k, clause.isHint = false ∧ Lexicon.isPlain clause.text.toList = true := by
    obtain ⟨mode, behavior⟩ := k
    rcases h with rfl | rfl <;> cases mode <;> cases behavior <;> rintro _ ⟨⟩ <;> exact ⟨rfl, rfl⟩
  refine locksAs_of_layers (PostgreSql.forall_layers v ?_ ?_ ?_ ?_ ?_ ?_) <;> rintro _ ⟨⟩
  · exact locks _ (.inl rfl)
  · exact locks _ (.inr rfl)

private theorem SqlServer.locksAs (v : Version) : (SqlServer.spelling v).LocksAs true := by
  have locks (k : Lock) : ∀ clause ∈ SqlServer.lock k,
      clause.isHint = true ∧ Lexicon.isPlain clause.text.toList = true := by
    obtain ⟨mode, behavior⟩ := k
    cases mode <;> cases behavior <;> rintro _ ⟨⟩ <;> exact ⟨rfl, rfl⟩
  refine locksAs_of_layers (SqlServer.forall_layers v ?_ ?_ ?_ ?_) <;> rintro _ ⟨⟩
  exact locks

private theorem Oracle.locksAs (v : Version) : (Oracle.spelling v).LocksAs false := by
  have locks (rule : Lock → Option LockClause) (h : rule = Oracle.lock ∨ rule = Oracle.lock11)
      (k : Lock) :
      ∀ clause ∈ rule k, clause.isHint = false ∧ Lexicon.isPlain clause.text.toList = true := by
    obtain ⟨mode, behavior⟩ := k
    rcases h with rfl | rfl <;> cases mode <;> cases behavior <;> rintro _ ⟨⟩ <;> exact ⟨rfl, rfl⟩
  refine locksAs_of_layers (Oracle.forall_layers v ?_ ?_ ?_ ?_ ?_) <;> rintro _ ⟨⟩
  · exact locks _ (.inl rfl)
  · exact locks _ (.inr rfl)

end Spelling

/-- Whether row locks are hints of tables. -/
def Dialect.locksByHint : Dialect → Bool
  | sqlServer => true
  | postgreSql | oracle => false

theorem Dialect.locksAs (d : Dialect) (v : Version) :
    (d.spelling v).LocksAs d.locksByHint := by
  cases d with
  | postgreSql => exact Spelling.PostgreSql.locksAs v
  | sqlServer => exact Spelling.SqlServer.locksAs v
  | oracle => exact Spelling.Oracle.locksAs v

/-- In the text of a command the clause of a lock shows that the statement writes. -/
theorem Tree.command_shows {d : Dialect} {v : Version} {t : Tree} {c : Command} {b : Bindings}
    {text : String} (h : t.command (d.spelling v) (d.typeNames v) = .ok c)
    (clear : ∀ mark, t.Everywhere (Node.IsClear (d.lexicon v) ⟨b, []⟩ mark))
    (written : (Lock.written d.locksByHint locks).value t none)
    (ht : c.text b = .ok text) :
    ∃ part, (d.spelling v).IsClauseOf locks part ∧ (d.lexicon v).Shows part text := by
  obtain ⟨mark, chain, parameters, hm, run, rfl⟩ := command_ok.mp h
  let w : Script := ⟨d.spelling v, d.typeNames v, mark⟩
  have rules : w.Lexes (d.lexicon v) :=
    ⟨(d.lexes v).1, (d.lexes v).2, (d.lexes v).1.mark mark hm⟩
  rw [Command.text_eq] at ht
  change Settled.renderChain ⟨b, []⟩ chain.normalized = .ok text at ht
  rw [Settled.renderChain_normalized_eq] at ht
  have carried : w.Carries none none := by rintro _ ⟨⟩
  obtain ⟨before, part, after, ⟨k, clause, mem, hc, rfl⟩, passes, rfl⟩ :=
    Script.displays_tree rules (d.locksAs v) (clear mark) Script.hintPasses_none
      (fun _ ↦ carried) written [] _ text run ht
  have plain := (d.locksAs v k clause hc).2
  exact ⟨_, ⟨k, clause, mem, hc, rfl⟩, Lexicon.shows_append passes plain after⟩

end SqlWright
