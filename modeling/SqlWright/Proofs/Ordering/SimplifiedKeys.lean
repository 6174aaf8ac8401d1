import SqlWright.Proofs.Command.Drafted
import SqlWright.Proofs.Ordering.Literals
import SqlWright.Proofs.Simplification.Statements

/-!
# Keys after simplification

A connective whose other operand is a boolean constant comes to its operand. So a key that is a
connective comes to a literal where an operand of the connective is one, and this is the only way
in which simplifications make a key a literal that is no boolean constant. Where connectives have no
such operands, as they should, what is known of the keys of a statement goes for its command.
-/

namespace SqlWright

variable {α β : Type} {kind : Literal → Bool}

namespace Node

/-- Expressions that the node orders or groups by. -/
def keys : Node α → List α
  | .select s => s.orderBy.map (·.expr) ++ s.groupBy
  | .rowNumber keys => keys.map (·.expr)
  | _ => []

theorem keys_subset (n : Node α) : n.keys ⊆ n.children := by
  cases n with
  | select s =>
    intro a ha
    obtain ha | ha := List.mem_append.1 ha
    · simp_all [children, Select.children]
    · simp [children, Select.children, ha]
  | rowNumber keys => exact List.Subset.refl _
  | _ => exact List.nil_subset _

theorem keys_map (f : α → β) (n : Node α) : (n.map f).keys = n.keys.map f := by
  cases n with
  | select s => simp [keys, map, Select.map, SortKey.map, Function.comp_def]
  | rowNumber keys => simp [Node.keys, map, SortKey.map, Function.comp_def]
  | _ => rfl

theorem isLiteral_map (f : α → β) (n : Node α) : (n.map f).isLiteral kind = n.isLiteral kind := by
  cases n <;> rfl

theorem keysAvoid_iff {n : Node Tree} :
    n.KeysAvoid kind ↔ ∀ t ∈ n.keys, t.node.isLiteral kind = false := by
  cases n with
  | select s => simp [KeysAvoid, keys, or_imp, forall_and]
  | rowNumber keys => simp [KeysAvoid, Node.keys]
  | _ => simp [KeysAvoid, keys]

/-- No connective has a literal of the kind for an operand. -/
def ConnectivesAvoid (kind : Literal → Bool) (n : Node Tree) : Prop :=
  ∀ t ∈ n.connected, t.node.isLiteral kind = false

end Node

/-! ### Marks of nodes -/

/-- What is to be known of an expression where it is a key: it is a literal of the kind, or there is
a key below it that is one, or else its truth value as far as constants give it. -/
inductive KeyMark where
  | literal
  | keyed
  | plain (truth : Option Bool)
  deriving DecidableEq

namespace KeyMark

/-- Truth value that the mark tells. -/
def truth : KeyMark → Option Bool
  | plain a => a
  | _ => none

/-- Truth value of a node, as far as constants give it. -/
def truthOf : Node KeyMark → Option Bool
  | .literal (.boolean b) => some b
  | .binary .and x y => conjunction3 x.truth y.truth
  | .binary .or x y => disjunction3 x.truth y.truth
  | .unary .negation x => x.truth.map Bool.not
  | _ => none

/-- Mark of a node whose children are marked. -/
def ofNode (kind : Literal → Bool) (n : Node KeyMark) : KeyMark :=
  if keyed ∈ n.children ∨ literal ∈ n.keys then keyed
  else if n.isLiteral kind then literal
  else plain (truthOf n)

/-- Marks as what nodes denote. -/
def marking (kind : Literal → Bool) (booleans : ∀ b, kind (.boolean b) = false) :
    Denotation Unit KeyMark where
  node n e := ofNode kind (n.map (· e))
  truth := plain
  boolean b e := by
    simp [ofNode, Node.map, Node.children, Node.keys, Node.isLiteral, truthOf, booleans]
  and hx hy := by
    simp [ofNode, Node.map, Node.children, Node.keys, Node.isLiteral, truthOf, truth, hx, hy]
  or hx hy := by
    simp [ofNode, Node.map, Node.children, Node.keys, Node.isLiteral, truthOf, truth, hx, hy]
  not hx := by
    simp [ofNode, Node.map, Node.children, Node.keys, Node.isLiteral, truthOf, truth, hx]
  cast x type := by
    funext e
    by_cases below : x e = keyed <;>
      simp [ofNode, Node.map, Node.children, Node.keys, Node.isLiteral, truthOf, below, Ne.symm]

variable (booleans : ∀ b, kind (.boolean b) = false)

theorem value_mk (i : Nat) (n : Node Tree) : (marking kind booleans).value (.mk i n) () =
    ofNode kind (n.map fun c ↦ (marking kind booleans).value c ()) := by
  have marked := Denotation.value_mk (marking kind booleans) i n
  rw [marked]
  change ofNode kind ((n.map _).map fun x : Unit → KeyMark ↦ x ()) = _
  rw [Node.map_map]
  rfl

/-- A tree is marked as keyed exactly if some key in it is a literal of the kind, and else as what
it is. -/
theorem value_iff (t : Tree) :
    ((marking kind booleans).value t () ≠ keyed ↔ t.Everywhere (Node.KeysAvoid kind)) ∧
      ((marking kind booleans).value t () ≠ keyed →
        ((marking kind booleans).value t () = literal ↔ t.node.isLiteral kind = true)) := by
  induction t using Tree.induction_children with
  | h i n ih =>
    let mark (c : Tree) : KeyMark := (marking kind booleans).value c ()
    have clean : ¬(keyed ∈ n.children.map mark ∨ literal ∈ n.keys.map mark) ↔
        (Tree.mk i n).Everywhere (Node.KeysAvoid kind) := by
      have below : keyed ∉ n.children.map mark ↔
          ∀ c ∈ n.children, c.Everywhere (Node.KeysAvoid kind) := by
        rw [← List.forall_mem_ne', List.forall_mem_map]
        exact forall₂_congr fun c hc ↦ (ih c hc).1
      rw [not_or, Tree.everywhere_mk, Node.keysAvoid_iff, below, and_comm]
      refine and_congr_left fun avoid ↦ ?_
      rw [← List.forall_mem_ne', List.forall_mem_map]
      refine forall₂_congr fun c hc ↦ ?_
      have child := Node.keys_subset n hc
      have known := (ih c child).2 ((ih c child).1.2 (avoid c child))
      exact (not_congr known).trans (Bool.not_eq_true _).to_iff
    rw [value_mk, ← clean]
    change (ofNode kind (n.map mark) ≠ keyed ↔ _) ∧ (ofNode kind (n.map mark) ≠ keyed →
      (ofNode kind (n.map mark) = literal ↔ n.isLiteral kind = true))
    rw [ofNode, Node.children_map, Node.keys_map, Node.isLiteral_map]
    split_ifs <;> simp_all

/-- Operands of connectives that are no literals of the kind, nor have such keys, have truth
values. -/
theorem isTruth_of_avoid {t : Tree} (connectives : t.Everywhere (Node.ConnectivesAvoid kind))
    (avoid : t.Everywhere (Node.KeysAvoid kind)) : t.Everywhere fun n ↦ ∀ c ∈ n.connected,
      (marking kind booleans).IsTruth ((marking kind booleans).value c) := by
  induction t using Tree.induction_children with
  | h i n ih =>
    obtain ⟨root, below⟩ := connectives
    obtain ⟨-, clean⟩ := avoid
    refine .mk (fun c hc e ↦ ?_) fun c hc ↦ ih c hc (below c hc) (clean c hc)
    obtain ⟨keyed, literal⟩ := value_iff booleans c
    have unkeyed := keyed.2 (clean c (Node.connected_subset n hc))
    have expression := mt (literal unkeyed).1 (Bool.eq_false_iff.1 (root c hc))
    cases hv : (marking kind booleans).value c () with
    | literal => exact absurd hv expression
    | keyed => exact absurd hv unkeyed
    | plain a => exact ⟨a, rfl⟩

end KeyMark

/-! ### Statements and commands -/

/-- No key becomes a literal of a kind that has no boolean constants, if connectives have no such
literals for operands. -/
theorem Graph.Holds.keysAvoid_simplify {g : Graph} {t : Tree} (h : g.Holds t)
    (booleans : ∀ b, kind (.boolean b) = false)
    (connectives : t.Everywhere (Node.ConnectivesAvoid kind))
    (avoid : t.Everywhere (Node.KeysAvoid kind)) (ps : List Simplification) :
    ((g.simplify t.id ps).1.tree t.id).Everywhere (Node.KeysAvoid kind) := by
  have logical := KeyMark.isTruth_of_avoid booleans connectives avoid
  have kept := congrFun (h.value_simplify logical ps) ()
  rw [← (KeyMark.value_iff booleans _).1] at avoid ⊢
  rwa [kept]

/-- A connective with a literal for its operand is a key that becomes one. -/
example :
    let g : Graph := ⟨#[.null, .literal (.boolean true), .literal (.integer 2), .binary .and 1 2,
      .rowNumber [⟨3, true, none⟩]]⟩
    (g.simplify 4 Simplification.standard).1.get 4 = .rowNumber [⟨2, true, none⟩] := rfl

/-- What is left of the statement of a relation has no key that is a literal of the kind, if no
operation sorts, groups or pages by a column that is calculated as one and no connective of the
statement has one for an operand. -/
theorem Relation.KeysAvoid.simplified {r : Relation} {c : Compiler} {s : Statement}
    (avoid : r.KeysAvoid kind) (booleans : ∀ b, kind (.boolean b) = false)
    (h : r.statement c.server c.strategies = .ok s)
    (connectives : s.tree.Everywhere (Node.ConnectivesAvoid kind)) :
    (c.simplified s).Everywhere (Node.KeysAvoid kind) :=
  (statement_holds h).keysAvoid_simplify booleans connectives (avoid.statement h) c.simplifications

/-- A relation whose statement has no literals of the kind for operands of connectives, and which
avoids them as keys, has a command without such keys. -/
theorem Relation.KeysAvoid.command {r : Relation} {c : Compiler} {command : Command}
    (avoid : r.KeysAvoid kind) (booleans : ∀ b, kind (.boolean b) = false)
    (connectives : ∀ s, r.statement c.server c.strategies = .ok s →
      s.tree.Everywhere (Node.ConnectivesAvoid kind))
    (h : c.command r = .ok command) :
    ∃ t : Tree, t.Everywhere (Node.KeysAvoid kind) ∧
      t.command c.spelling c.types = .ok command := by
  obtain ⟨s, hs, written⟩ := Compiler.command_ok h
  exact ⟨c.simplified s, avoid.simplified booleans hs (connectives s hs), written⟩

end SqlWright
