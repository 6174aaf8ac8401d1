import SqlWright.Proofs.Lexing.Nodes
import SqlWright.Proofs.Scopes.Columns

/-!
# Statements that are taken apart alike

Two statements that are the same up to names and strings have both a command or both none, and the
tokens of the two texts differ in nothing but what stands in quotes. So no name and no string can
add a token to a statement, or take one away.
-/

namespace SqlWright

variable {α : Type}

/-- What the node is written as is up to the spelling: the node has no text of its own, and leaves
none to an execution. -/
def Node.IsSpelled : Node α → Prop
  | .native _ | .variable _ | .placeholder _ | .variant _ _ _ | .dynamicFilter _ _ _ => False
  | _ => True

theorem Node.IsSpelled.isClear {n : Node α} (h : n.IsSpelled) (l : Lexicon) (s : Settled)
    (mark : String) : n.IsClear l s mark := by
  cases n with
  | native _ | «variable» _ | placeholder _ | dynamicFilter _ _ _ => exact h.elim
  | _ => trivial

theorem Select.blanked_blanked (s : Select α) : s.blanked.blanked = s.blanked := by
  simp [blanked, Function.comp_def]

namespace Script

open Writing

variable {w : Script} {l : Lexicon} {s : Settled}

/-- The same of the children of a node are put in parentheses once names are blank. -/
theorem node_blanked {n : Node Tree} {k : Writer Tree} (hint : Option String) :
    w.node (n.blanked.map (partOf Tree.blanked k)) hint =
      w.node (n.blanked.map (partOf id k)) hint := by
  have groups : n.blanked.GroupsAlike w.spelling Tree.blanked id := by
    cases n with
    | binary op left right =>
      simp [Node.blanked, Node.GroupsAlike, BinaryOp.takesApart, Tree.binaryOp?_blanked]
    | unary op operand =>
      cases op <;> simp [Node.blanked, Node.GroupsAlike, Tree.binaryOp?_blanked]
    | function f args =>
      exact .inr fun a _ ↦ by rw [Tree.binaryOp?_blanked, id]
    | _ => trivial
  apply node_congr groups
  intro q hq
  cases n with
  | select q' =>
    cases hq
    have lockable := Tree.lockable_blanked (.mk 0 (.select q'.blanked))
    rw [Tree.blanked_mk, Node.blanked, Select.blanked_blanked] at lockable
    exact lock?_congr _ _ (by rw [lockable, Node.map_id])
  | _ => cases hq

/-- A statement and the same statement with blank names are written alike. -/
theorem alike_blanked (rules : w.Lexes l) {t : Tree}
    (clear : t.Everywhere (Node.IsClear l s w.mark)) {hint : Option String}
    (passes : HintPasses l hint) : WrittenAlike l s (w.tree t hint) (w.tree t.blanked hint) := by
  induction t using Tree.induction_children generalizing hint with
  | h i n ih =>
    obtain ⟨root, below⟩ := clear
    have children (c : Tree) (hc : c ∈ n.children) (hint : Option String)
        (passes : HintPasses l hint) :
        WrittenAlike l s (w.tree c hint) (w.tree c.blanked hint) :=
      ih c hc (below c hc) passes
    have written : WrittenAlike l s (w.node (n.map (partOf id w.tree)) hint)
        (w.node (n.blanked.map (partOf id fun t ↦ w.tree t.blanked)) hint) :=
      alike_node rules root passes children
    apply written.congr (tree_mk i n hint)
    rw [Tree.blanked_mk, tree_mk_map, node_blanked]

/-- Statements that are the same up to names and strings are written alike. -/
theorem alike_of_blanked (rules : w.Lexes l) {t t' : Tree} (same : t.blanked = t'.blanked)
    (clear : t.Everywhere (Node.IsClear l s w.mark))
    (clear' : t'.Everywhere (Node.IsClear l s w.mark)) {hint : Option String}
    (passes : HintPasses l hint) : WrittenAlike l s (w.tree t hint) (w.tree t' hint) := by
  have other := alike_blanked rules clear' passes
  rw [← same] at other
  exact (alike_blanked rules clear passes).of_common other

/-! ### Texts that no execution changes -/

/-- The chain has no piece that an execution settles. -/
def IsFixed (c : Chain) : Prop := ∀ p ∈ c, ∃ text, p = .text text

theorem isFixed_single (text : String) : IsFixed [.text text] := by
  intro p hp
  exact ⟨text, List.mem_singleton.mp hp⟩

theorem exists_parameterName {p : Parameter} {named : List Parameter}
    {r : Chain × List Parameter} (h : w.parameter p named = .ok r) :
    ∃ name, r.1 = [.text name] := by
  unfold parameter at h
  split at h
  · cases h
    exact ⟨_, rfl⟩
  · cases h
    exact ⟨_, rfl⟩

theorem isFixed_writeItems {n : Node Tree} (spelled : n.IsSpelled)
    (h : ∀ c ∈ n.children, ∀ hint named r, w.tree c hint named = .ok r → IsFixed r.1)
    {items : List (Item Tree)} (isOf : ∀ i ∈ items, i.IsOf n) {named : List Parameter}
    {r : Chain × List Parameter} (hr : w.writeItems w.tree items named = .ok r) :
    IsFixed r.1 := by
  induction items generalizing named r with
  | nil =>
    cases hr
    exact nofun
  | cons item items ih =>
    rw [List.forall_mem_cons] at isOf
    obtain ⟨c, named₁, d, hc, hd, joined⟩ := concat_ok.mp hr
    have first : IsFixed c := by
      cases item with
      | text t =>
        cases hc
        exact isFixed_single t
      | part child hint => exact h child isOf.1 hint named _ hc
      | parameter p =>
        obtain ⟨name, named⟩ := exists_parameterName (r := (c, named₁)) hc
        change c = _ at named
        rw [named]
        exact isFixed_single name
      | placeholder id =>
        have same : n = .placeholder id := isOf.1
        subst same
        exact spelled.elim
      | «variant» key main alternative hint =>
        have same : n = .variant key main alternative := isOf.1
        subst same
        exact spelled.elim
      | dynamicFilter id expressions hint =>
        obtain ⟨first, others, rfl, -⟩ := isOf.1
        exact spelled.elim
    have rest : IsFixed d := ih isOf.2 hd
    rw [joined]
    intro p hp
    exact (List.mem_append.mp hp).elim (first p) (rest p)

theorem isFixed_tree {t : Tree} (spelled : t.Everywhere Node.IsSpelled) {hint : Option String}
    {named : List Parameter} {r : Chain × List Parameter} (h : w.tree t hint named = .ok r) :
    IsFixed r.1 := by
  induction t using Tree.induction_children generalizing hint named r with
  | h i n ih =>
    obtain ⟨root, below⟩ := spelled
    obtain ⟨items?, isOf, written⟩ := itemized_node (w := w) (n := n) id hint
    rw [tree_mk] at h
    obtain ⟨items, mem, hr⟩ := (written w.tree named r).mp h
    apply isFixed_writeItems root _ (isOf items mem) hr
    intro c hc hint named r
    exact ih c hc (below c hc)

/-- A chain of texts has one text in all executions. -/
theorem IsFixed.exists_text {c : Chain} (h : IsFixed c) :
    ∃ text, ∀ s : Settled, s.renderChain c = .ok text := by
  induction c with
  | nil => exact ⟨"", fun _ ↦ rfl⟩
  | cons p c ih =>
    rw [IsFixed, List.forall_mem_cons] at h
    obtain ⟨⟨t, rfl⟩, rest⟩ := h
    obtain ⟨text, settled⟩ := ih rest
    exact ⟨t ++ text, fun s ↦ Settled.renderChain_cons_ok.mpr ⟨t, text, rfl, settled s, rfl⟩⟩

end Script

namespace Tree

/-- Two statements that differ only in names and strings have commands alike: if one has a command,
so has the other, and the lexical rules of the dialect take the two texts apart into the same
tokens, except for what stands in quotes. -/
theorem command_tokens {d : Dialect} {v : Version} {t t' : Tree} {c : Command}
    (same : t.blanked = t'.blanked) (spelled : t.Everywhere Node.IsSpelled)
    (spelled' : t'.Everywhere Node.IsSpelled)
    (h : t.command (d.spelling v) (d.typeNames v) = .ok c) :
    ∃ c', t'.command (d.spelling v) (d.typeNames v) = .ok c' ∧
      ∃ text text', (∀ b, c.text b = .ok text) ∧ (∀ b, c'.text b = .ok text') ∧
        List.Forall₂ Token.Alike ((d.lexicon v).tokens text) ((d.lexicon v).tokens text') := by
  obtain ⟨mark, chain, parameters, hm, run, rfl⟩ := command_ok.mp h
  let w : Script := ⟨d.spelling v, d.typeNames v, mark⟩
  have rules : w.Lexes (d.lexicon v) :=
    ⟨(d.lexes v).1, (d.lexes v).2, (d.lexes v).1.mark mark hm⟩
  have alike : Script.WrittenAlike (d.lexicon v) ⟨{}, []⟩ (w.tree t none) (w.tree t' none) :=
    Script.alike_of_blanked rules same (spelled.mono fun _ h ↦ h.isClear _ _ _)
      (spelled'.mono fun _ h ↦ h.isClear _ _ _) Script.hintPasses_none
  have both := alike []
  rw [run] at both
  generalize run' : w.tree t' none [] = r at both
  cases both with
  | @ok _ r' both =>
    obtain ⟨-, rendered⟩ := both
    obtain ⟨text, settled⟩ := (Script.isFixed_tree spelled run).exists_text
    obtain ⟨text', settled'⟩ := (Script.isFixed_tree spelled' run').exists_text
    refine ⟨_, command_ok.mpr ⟨mark, r'.1, r'.2, hm, run', rfl⟩, text, text', ?_, ?_, ?_⟩
    · intro b
      exact Command.text_ofChain (settled _) _
    · intro b
      exact Command.text_ofChain (settled' _) _
    · unfold Lexicon.Renders at rendered
      rw [settled, settled'] at rendered
      cases rendered with
      | ok matched => exact matched.tokens

/-- Comparison of a column with a string. -/
def comparison (name text : String) : Tree :=
  mk 0 (.binary .eq (mk 0 (.column none name)) (mk 0 (.literal (.string text))))

theorem comparison_spelled (name text : String) :
    (comparison name text).Everywhere Node.IsSpelled := by
  refine .mk trivial fun c hc ↦ ?_
  obtain rfl | rfl : c = mk 0 (.column none name) ∨ c = mk 0 (.literal (.string text)) := by
    simpa [comparison, children, Node.children, node] using hc
  · exact .mk trivial nofun
  · exact .mk trivial nofun

/-- A name and a string that hold delimiters stay one token each. -/
theorem command_tokens_of_delimiters :
    (comparison "a" "b").blanked = (comparison "\" = 1 --" "' OR '\\").blanked ∧
      (comparison "a" "b").Everywhere Node.IsSpelled ∧
      (comparison "\" = 1 --" "' OR '\\").Everywhere Node.IsSpelled ∧
      ∃ c, (comparison "a" "b").command (Dialect.postgreSql.spelling ⟨9, 0⟩)
          (Dialect.postgreSql.typeNames ⟨9, 0⟩) = .ok c ∧
        ∃ c', (comparison "\" = 1 --" "' OR '\\").command (Dialect.postgreSql.spelling ⟨9, 0⟩)
            (Dialect.postgreSql.typeNames ⟨9, 0⟩) = .ok c' ∧
          ∃ text text', (∀ b, c.text b = .ok text) ∧ (∀ b, c'.text b = .ok text') ∧
            List.Forall₂ Token.Alike ((Dialect.postgreSql.lexicon ⟨9, 0⟩).tokens text)
              ((Dialect.postgreSql.lexicon ⟨9, 0⟩).tokens text') := by
  have same : (comparison "a" "b").blanked = (comparison "\" = 1 --" "' OR '\\").blanked := rfl
  refine ⟨same, comparison_spelled _ _, comparison_spelled _ _, _, rfl, ?_⟩
  exact command_tokens same (comparison_spelled _ _) (comparison_spelled _ _) rfl

end Tree

end SqlWright
