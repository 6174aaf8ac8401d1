import SqlWright.Compiler
import SqlWright.Proofs.Drafting.Parts
import SqlWright.Proofs.Simplification.Contents

/-!
# Commands of relations

The command of a relation is that of its statement after simplifications. The graph of the draft
holds the statement, and all nodes that simplifications leave of it are such as drafting makes, over
the native queries and the parameters of the relation.
-/

namespace SqlWright

variable {α : Type} {natives : String → Prop} {speaks : Parameter → Prop}

theorem Node.isDrafted_shape {n : Node α} :
    n.shape.IsDrafted natives speaks ↔ n.IsDrafted natives speaks := by
  cases n <;> rfl

/-- The graph of a draft holds the statement. -/
theorem Relation.statement_holds {server : Server} {strategies : List Strategy} {r : Relation}
    {s : Statement} (h : r.statement server strategies = .ok s) : s.draft.graph.Holds s.tree := by
  obtain ⟨compiled, d, hc, rfl⟩ := statement_ok h
  have drafted := drafted_of_draft hc
  have started := drafted.grows.started Draft.started_empty
  exact started.holds_made (drafted.held Draft.started_empty).children

namespace Compiler

variable {c : Compiler} {r : Relation} {command : Command}

/-- What is left of a statement by the simplifications of the compiler. -/
def simplified (c : Compiler) (s : Statement) : Tree :=
  (s.draft.graph.simplify s.tree.id c.simplifications).1.tree s.tree.id

/-- The command of a relation is that of the simplified statement. -/
theorem command_ok (h : c.command r = .ok command) :
    ∃ s, r.statement c.server c.strategies = .ok s ∧
      (c.simplified s).command c.spelling c.types = .ok command := by
  obtain ⟨s, hs, h⟩ := bind_except_ok.1 h
  refine ⟨s, hs, ?_⟩
  unfold statementCommand at h
  unfold simplified
  generalize s.draft.graph.simplify s.tree.id c.simplifications = result at h
  obtain ⟨g, count | e⟩ := result
  · cases h
  · exact h

/-- Simplifications leave nodes that drafting makes. -/
theorem everywhere_simplified {s : Statement} (h : r.statement c.server c.strategies = .ok s)
    (given : r.Natives natives) (spoken : ∀ q ∈ r.parameters, speaks q) :
    (c.simplified s).Everywhere (Node.IsDrafted natives speaks) := by
  have drafted : s.tree.Everywhere (Node.IsDrafted natives speaks) :=
    Relation.statement_pervaded h (Tree.pervades_isDrafted natives speaks) given spoken
  have shaped : s.tree.Everywhere fun n ↦ n.shape.IsDrafted natives speaks :=
    drafted.mono fun _ ↦ Node.isDrafted_shape.2
  exact ((Relation.statement_holds h).everywhere_simplify shaped trivial (fun _ ↦ trivial)
    c.simplifications).mono fun _ ↦ Node.isDrafted_shape.1

end Compiler

end SqlWright
