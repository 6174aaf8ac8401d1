import SqlWright.Compiler
import SqlWright.Proofs.Editing.Kinds
import SqlWright.Proofs.Simplification.NormalForms

/-!
# Simplifications made again

Once a simplification is done with all that is below a root, making it again changes nothing, and
what failed at the root fails again in the same way. Of the standard simplifications the second
puts casts in the places of casts, so it makes no boolean constants that the first would still
remove. So a statement is compiled to the same command as often as it is compiled.
-/

namespace SqlWright

open SqlWright.Graph

variable {p : Simplification} {g : Graph} {root r c : Ref} {part : Set Ref}
  {n count : Nat} {e : Error}

namespace Simplification

/-! ### Casts after constants -/

/-- Two casts to one type are all that is found of redundant casts. -/
theorem cast_of_replacement? {s : Replacement} (h : redundantCasts.replacement? g r = some s) :
    ∃ o x type, s = .existing o ∧ g.get r = .cast o type ∧ g.get o = .cast x type := by
  unfold replacement? at h
  split at h
  · next he _ => cases he
  · next he _ => cases he
  · next he _ => cases he
  · next o type _ hn =>
    split at h
    · next x inner hi =>
      split at h
      · next he =>
        cases h
        exact ⟨o, x, type, rfl, hn, he ▸ hi⟩
      · cases h
    · cases h
  · cases h

/-- A cast takes over the content of a cast. -/
theorem replaceRoot_of_cast {s : Replacement} (h : redundantCasts.replacement? g root = some s) :
    ∃ o x type, g.get root = .cast o type ∧ g.get o = .cast x type ∧
      redundantCasts.replaceRoot g root count = (g.set root (g.get o), .ok (count + 1)) := by
  obtain ⟨o, x, type, rfl, outer, inner⟩ := cast_of_replacement? h
  refine ⟨o, x, type, outer, inner, ?_⟩
  rw [replaceRoot_of_existing h, if_pos]
  rw [kind, kind, outer, inner]
  rfl

/-- Removing casts does not fail. -/
theorem run_redundantCasts_ok (g : Graph) (root : Ref) :
    ∃ n, (redundantCasts.run g root).2 = .ok n := by
  rw [run_eq_replaceRoot]
  generalize (redundantCasts.substituteLinks g (g.postOrder root)).2 = g'
  rcases found : redundantCasts.replacement? g' root with _ | s
  · rw [replaceRoot_of_none found]
    exact ⟨_, rfl⟩
  · obtain ⟨_, _, _, -, -, result⟩ := replaceRoot_of_cast found
    rw [result]
    exact ⟨_, rfl⟩

end Simplification

/-- Value of a boolean constant. -/
def Node.boolean? {α : Type} : Node α → Option Bool
  | .literal (.boolean b) => some b
  | _ => none

theorem Node.boolean?_map {α β : Type} (f : α → β) (n : Node α) :
    (n.map f).boolean? = n.boolean? := by
  cases n with
  | literal value => cases value <;> rfl
  | _ => rfl

namespace Simplification

theorem constant?_eq (g : Graph) (r : Ref) : constant? g r = (g.get r).boolean? := by
  unfold constant?
  cases g.get r with
  | literal value => cases value <;> rfl
  | _ => rfl

/-- Constants are removed exactly where a connective has one for an operand. -/
theorem replacement?_booleanConstants : booleanConstants.replacement? g r = none ↔
    ∀ c ∈ (g.get r).connected, constant? g c = none := by
  have fold (identity : Bool) (left right : Ref) :
      (foldConnective g identity left right).map Replacement.existing = none ↔
        constant? g left = none ∧ constant? g right = none := by
    unfold foldConnective
    split <;> simp_all
  unfold replacement?
  cases g.get r with
  | binary op left right => cases op <;> simp [Node.connected, fold]
  | unary op operand => cases op <;> simp [Node.connected]
  | _ => simp [Node.connected]

end Simplification

namespace Graph

/-- A part of a graph is closed under links, and its connectives have no constants for operands. -/
structure IsFolded (g : Graph) (part : Set Ref) : Prop where
  inUse : ∀ r ∈ part, r < g.size
  closed : ∀ r ∈ part, ∀ c ∈ g.children r, c ∈ part
  folded : ∀ r ∈ part, ∀ c ∈ (g.get r).connected, Simplification.constant? g c = none

/-- A node may take other links in the part, but becomes a constant only if it was the same. -/
theorem IsFolded.set (h : g.IsFolded part) {n : Node Ref} (links : ∀ c ∈ n.children, c ∈ part)
    (boolean : n.boolean? = Simplification.constant? g r)
    (folded : ∀ c ∈ n.connected, Simplification.constant? g c = none) :
    (g.set r n).IsFolded part := by
  have constants (c : Ref) : Simplification.constant? (g.set r n) c =
      Simplification.constant? g c := by
    rw [Simplification.constant?_eq, get_set]
    split
    · next he => rw [boolean, he.1]
    · rw [Simplification.constant?_eq]
  refine ⟨fun r' hr ↦ ?_, fun r' hr c hc ↦ ?_, fun r' hr c hc ↦ ?_⟩
  · simpa [Graph.set, size] using h.inUse r' hr
  · rw [children, get_set] at hc
    split at hc
    · exact links c hc
    · exact h.closed r' hr c hc
  · rw [constants]
    rw [get_set] at hc
    split at hc
    · exact folded c hc
    · exact h.folded r' hr c hc

end Graph

namespace Simplification

/-- What stands in for a cast is a cast, and so no constant. -/
theorem keeps_constant (closed : ∀ r ∈ part, ∀ c ∈ g.children r, c ∈ part) (hr : r ∈ part) :
    Keeps (fun g' ↦ g' = g) (redundantCasts.substitute r) fun _ o ↦
      (constant? g o, o ∈ part) = (constant? g r, True) := by
  rintro _ rfl
  simp only [StateT.run, substitute]
  split
  · next o hs =>
    obtain ⟨_, x, type, same, outer, inner⟩ := cast_of_replacement? hs
    cases same
    refine ⟨rfl, .refl _, fun _ _ ↦ Prod.ext ?_ (eq_true ?_)⟩
    · rw [constant?_eq, constant?_eq, outer, inner]
      rfl
    · exact mem_of_replacement? closed hr hs
  · next hs =>
    obtain ⟨_, -, -, same, -⟩ := cast_of_replacement? hs
    cases same
  · exact ⟨rfl, .refl _, fun _ _ ↦ Prod.ext rfl (eq_true hr)⟩

/-- Removing casts below a node leaves no constants to remove. -/
theorem isFolded_relinkChildren (h : g.IsFolded part) (hr : r ∈ part) :
    (g.relinkChildren r redundantCasts.substitute).2.IsFolded part := by
  obtain ⟨g, n, rfl, -, same, result⟩ :=
    exists_relinkChildren_eq (I := fun g' ↦ g' = g) (h.inUse r hr) rfl fun c hc ↦
      keeps_constant h.closed (h.closed r hr c hc)
  rw [result]
  have constants : n.map (constant? g) = (g.get r).map (constant? g) := by
    simpa [Node.map_map, Function.comp_def] using congrArg (Node.map Prod.fst) same
  refine h.set (fun c hc ↦ ?_) ?_ fun c hc ↦ ?_
  · have facts := congrArg (fun n ↦ (Node.map Prod.snd n).children) same
    simp only [Node.map_map, Node.children_map, Function.comp_def] at facts
    have fact := List.mem_map_of_mem (f := fun o ↦ o ∈ part) hc
    rw [facts] at fact
    obtain ⟨-, -, fact⟩ := List.mem_map.1 fact
    exact fact ▸ trivial
  · rw [constant?_eq, ← Node.boolean?_map (constant? g), constants, Node.boolean?_map]
  · have operands := congrArg Node.connected constants
    rw [Node.connected_map, Node.connected_map] at operands
    have operand := List.mem_map_of_mem (f := constant? g) hc
    rw [operands] at operand
    obtain ⟨c', hc', he⟩ := List.mem_map.1 operand
    rw [← he]
    exact h.folded r hr c' hc'

/-- Removing casts leaves no constants to remove. -/
theorem isFolded_run (h : g.IsFolded part) (hroot : root ∈ part) :
    (redundantCasts.run g root).1.IsFolded part := by
  have links : (redundantCasts.substituteLinks g (g.postOrder root)).2.IsFolded part :=
    substituteLinks_keeps (I := fun g' ↦ g'.IsFolded part) h fun r hr _ hg ↦
      isFolded_relinkChildren hg (mem_of_mem_postOrder h.closed hroot r hr)
  rw [run_eq_replaceRoot]
  generalize (redundantCasts.substituteLinks g (g.postOrder root)).2 = g' at links ⊢
  rcases found : redundantCasts.replacement? g' root with _ | s
  · rw [replaceRoot_of_none found]
    exact links
  · obtain ⟨o, x, type, outer, inner, result⟩ := replaceRoot_of_cast found
    have mem : o ∈ part := links.closed root hroot o (by rw [children, outer]; simp [Node.children])
    rw [result, inner]
    refine links.set (fun c hc ↦ ?_) ?_ (by simp [Node.connected])
    · exact links.closed o mem c (by rwa [children, inner])
    · rw [constant?_eq, outer]
      rfl

/-! ### Ranks and kinds -/

/-- Simplifying keeps a graph without cycles ranked, since this does not depend on what the nodes
denote. -/
theorem isRanked_run (acyclic : g.IsAcyclicFrom root) (p : Simplification) :
    (p.run g root).1.IsRanked (g.since {r | g.Reaches root r} (p.run g root).1) g.height := by
  let D : Denotation Unit Unit := ⟨fun _ _ ↦ (), fun _ ↦ (), fun _ _ ↦ rfl, fun _ _ ↦ rfl,
    fun _ _ ↦ rfl, fun _ ↦ rfl, fun _ _ ↦ rfl⟩
  have logical : g.IsLogicalFrom D root := fun _ _ _ _ _ ↦ ⟨none, rfl⟩
  exact (agrees_run p (acyclic.agrees logical) Relation.ReflTransGen.refl).ranked

/-- Only operators and casts are replaced. -/
theorem replacement?_of_kind (binary : g.kind r ≠ .binary) (unary : g.kind r ≠ .unary)
    (cast : g.kind r ≠ .cast) : p.replacement? g r = none := by
  rw [kind] at binary unary cast
  unfold replacement?
  split
  · next hn => exact (binary (hn ▸ rfl)).elim
  · next hn => exact (binary (hn ▸ rfl)).elim
  · next hn => exact (unary (hn ▸ rfl)).elim
  · next hn => exact (cast (hn ▸ rfl)).elim
  · rfl

theorem keepsKinds_substituteLinks (p : Simplification) (g : Graph) (nodes : List Ref) :
    g.KeepsKinds (p.substituteLinks g nodes).2 := by
  refine substituteLinks_keeps (I := g.KeepsKinds) (.refl g) fun r _ g' hg ↦ hg.trans ?_
  refine ((Run.refl g').relinkChildren r fun x h ↦ ?_).keepsKinds
  simp only [StateT.run, substitute]
  split
  · exact .refl h
  · exact (Run.refl h).add _
  · exact .refl h

/-- No simplification fails at a root that is no operator and no cast. -/
theorem simplify_ok_of_kind (inUse : root < g.size) (binary : g.kind root ≠ .binary)
    (unary : g.kind root ≠ .unary) (cast : g.kind root ≠ .cast) (ps : List Simplification) :
    ∃ n, (g.simplify root ps).2 = .ok n := by
  induction ps generalizing g with
  | nil => exact ⟨0, rfl⟩
  | cons p ps ih =>
    have kept := keepsKinds_substituteLinks p g (g.postOrder root)
    rw [← kept.kind_eq root inUse] at binary unary cast
    obtain ⟨n, result⟩ := ih (inUse.trans_le kept.size_le) binary unary cast
    rw [simplify, run_eq_replaceRoot, replaceRoot_of_none (replacement?_of_kind binary unary cast)]
    dsimp only
    rw [result]
    exact ⟨_, rfl⟩

end Simplification

namespace Graph

open Simplification

/-- The standard simplifications leave nothing to which one of them applies: what the first leaves
has no constants to remove, and the second brings none back. -/
theorem replacement?_simplify_standard (acyclic : g.IsAcyclicFrom root)
    (h : (g.simplify root standard).2 = .ok n) :
    ∀ r, (g.simplify root standard).1.Reaches root r →
      ∀ p : Simplification, p.replacement? (g.simplify root standard).1 r = none := by
  have reached : root ∈ {r | g.Reaches root r} := Relation.ReflTransGen.refl
  have constants := (run_normal (p := booleanConstants) acyclic.isRanked reached).1
  have ranked := isRanked_run acyclic booleanConstants
  rw [standard, simplify] at h ⊢
  rcases hb : booleanConstants.run g root with ⟨g₁, e | n₁⟩
  · rw [hb] at h
    cases h
  rw [hb] at constants ranked
  have casts := (run_normal (p := redundantCasts) ranked (.inl reached)).1
  have below : ∀ r, g₁.Reaches root r → r ∈ g.since {r | g.Reaches root r} g₁ := by
    intro r hr
    induction hr with
    | refl => exact .inl reached
    | tail _ hc ih => exact (ranked.below _ ih _ hc).1
  have folded : g₁.IsFolded {r | g₁.Reaches root r} :=
    ⟨fun r hr ↦ ranked.inUse r (below r hr), fun r hr c hc ↦ hr.tail hc,
      fun r hr ↦ replacement?_booleanConstants.1 (constants n₁ rfl r hr)⟩
  have still := isFolded_run folded Relation.ReflTransGen.refl
  obtain ⟨n₂, hn⟩ := run_redundantCasts_ok g₁ root
  rcases hc : redundantCasts.run g₁ root with ⟨g₂, r₂⟩
  rw [hc] at casts still hn
  obtain rfl : r₂ = .ok n₂ := hn
  simp only [simplify, hc]
  intro r hr p
  cases p with
  | booleanConstants =>
    have mem : r ∈ {r | g₁.Reaches root r} := by
      induction hr with
      | refl => exact Relation.ReflTransGen.refl
      | tail _ hc ih => exact still.closed _ ih _ hc
    exact replacement?_booleanConstants.2 (still.folded r mem)
  | redundantCasts => exact casts n₂ rfl r hr

/-- Where there is nothing to replace, simplifications change nothing. -/
theorem simplify_of_none
    (h : ∀ r, g.Reaches root r → ∀ p : Simplification, p.replacement? g r = none)
    (ps : List Simplification) : g.simplify root ps = (g, .ok 0) := by
  induction ps with
  | nil => rfl
  | cons p ps ih =>
    rw [simplify, run_of_none fun r hr ↦ h r hr p]
    dsimp only
    rw [ih]
    rfl

/-- The first failure ends all. -/
theorem simplify_of_error (h : (p.run g root).2 = .error e) (ps : List Simplification) :
    g.simplify root (p :: ps) = ((p.run g root).1, .error e) := by
  rw [simplify]
  rcases hp : p.run g root with ⟨g', r⟩
  rw [hp] at h
  obtain rfl : r = .error e := h
  rfl

/-- Only the first of the standard simplifications can fail, and then it does so again. -/
theorem simplify_standard_error (acyclic : g.IsAcyclicFrom root)
    (h : (g.simplify root standard).2 = .error e) :
    ((g.simplify root standard).1.simplify root standard).2 = .error e := by
  have again :=
    (run_normal (p := booleanConstants) acyclic.isRanked Relation.ReflTransGen.refl).2
  have first : (booleanConstants.run g root).2 = .error e := by
    rw [standard, simplify] at h
    rcases hb : booleanConstants.run g root with ⟨g₁, e₁ | n₁⟩
    · rw [hb] at h
      exact h
    · rw [hb] at h
      obtain ⟨n₂, hn⟩ := run_redundantCasts_ok g₁ root
      rcases hc : redundantCasts.run g₁ root with ⟨g₂, r₂⟩
      rw [hc] at hn
      obtain rfl : r₂ = .ok n₂ := hn
      simp only [simplify, hc] at h
      cases h
  rw [standard, simplify_of_error first, simplify_of_error (again e first)]

/-- Simplifying with the standard simplifications once leaves nothing below the root to which one
of them applies, the root included, unless it fails. Simplifying again then counts no replacements
and leaves the graph as it is. Whether or not it fails, the statement is compiled to the same
command again, and with a statement for its root it does not fail. -/
theorem simplify_standard_again (acyclic : g.IsAcyclicFrom root) :
    (∀ n, (g.simplify root standard).2 = .ok n →
      (∀ r, (g.simplify root standard).1.Reaches root r →
        ∀ p : Simplification, p.replacement? (g.simplify root standard).1 r = none) ∧
      (g.simplify root standard).1.simplify root standard =
        ((g.simplify root standard).1, .ok 0)) ∧
    (∀ c : Compiler, c.simplifications = standard →
      c.statementCommand (g.simplify root c.simplifications).1 root =
        c.statementCommand g root) ∧
    (g.kind root ∈ [.select, .insert, .update, .delete, .createIndex] →
      ∃ n, (g.simplify root standard).2 = .ok n) := by
  refine ⟨fun n hn ↦ ?_, fun c hc ↦ ?_, fun statement ↦ ?_⟩
  · have none := replacement?_simplify_standard acyclic hn
    exact ⟨none, simplify_of_none none standard⟩
  · rw [Compiler.statementCommand, Compiler.statementCommand, hc]
    rcases h : g.simplify root standard with ⟨g', e | n⟩
    · have again := simplify_standard_error (e := e) acyclic (by rw [h])
      rw [h] at again
      rcases h' : g'.simplify root standard with ⟨g'', r⟩
      rw [h'] at again
      obtain rfl : r = .error e := again
      rfl
    · have none := replacement?_simplify_standard (n := n) acyclic (by rw [h])
      rw [h] at none
      rw [simplify_of_none none standard]
  · refine simplify_ok_of_kind (acyclic.inUse root Relation.ReflTransGen.refl) ?_ ?_ ?_ standard
    all_goals
      intro he
      rw [he] at statement
      revert statement
      decide

/-- A select of a column that is cast, where the same is cast again, or NOT TRUE, and TRUE. -/
def filteredTwice : Graph :=
  ⟨#[.null, .column none "x", .cast 1 .boolean, .cast 2 .boolean, .literal (.boolean true),
    .unary .negation 4, .binary .or 3 5, .binary .and 6 4,
    .select { columns := [⟨2, none⟩], filter := some 7 }]⟩

/-- The filter comes to the cast that is selected, and stays so. -/
theorem simplify_standard_again_of_filteredTwice :
    (filteredTwice.simplify 8 standard).2 = .ok 4 ∧
      (filteredTwice.simplify 8 standard).1.get 8 =
        .select { columns := [⟨2, none⟩], filter := some 2 } ∧
      (filteredTwice.simplify 8 standard).1.simplify 8 standard =
        ((filteredTwice.simplify 8 standard).1, .ok 0) ∧
      ∃ c, Compiler.build .postgreSql ⟨9, 0⟩ standard = .ok c ∧
        c.statementCommand (filteredTwice.simplify 8 standard).1 8 =
          c.statementCommand filteredTwice 8 := by
  have acyclic : filteredTwice.IsAcyclicFrom 8 := isAcyclicFrom_of_lt (by decide) (by decide)
  obtain ⟨normal, compiled, succeeds⟩ := simplify_standard_again acyclic
  obtain ⟨n, hn⟩ := succeeds (by decide)
  exact ⟨rfl, rfl, (normal n hn).2, _, rfl, compiled _ rfl⟩

end Graph

end SqlWright
