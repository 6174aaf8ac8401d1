import SqlWright.Dom.Graph.Rewrite
import SqlWright.Proofs.Copying.Links
import SqlWright.Proofs.Simplification.Relinking

/-!
# Simplifications as passes

Redirecting links by an action on the graph alone is the rewriting of links that keeps no other
state (`Graph.rewriteChildren_lift`), and simplifying is running the passes of the
simplifications (`Graph.optimize_pass`).
-/

namespace SqlWright

variable {σ α : Type} {g : Graph} {s : σ} {r root : Ref}

namespace Graph

namespace Action

theorem run_lift (m : StateM Graph α) :
    (lift m).run (g, s) = ((m.run g).1, (m.run g).2, s) := rfl

/-- Lifted actions one after the other are the lifted run of them all. -/
theorem run_mapM_lift (f : Ref → StateM Graph α) (l : List Ref) :
    (l.mapM fun c ↦ lift (f c)).run (g, s) =
      (((l.mapM f).run g).1, ((l.mapM f).run g).2, s) := by
  induction l generalizing g with
  | nil =>
    rw [List.mapM_nil, List.mapM_nil]
    rfl
  | cons c l ih =>
    rw [List.mapM_cons, List.mapM_cons, run_andThen, run_lift]
    simp only [run_andThen, ih]
    rfl

end Action

private theorem run_node_mapM_lift (f : Ref → StateM Graph Ref) (n : Node Ref) :
    (n.mapM fun c ↦ Action.lift (f c)).run (g, s) =
      (((n.mapM f).run g).1, ((n.mapM f).run g).2, s) := by
  obtain ⟨state, links, payload⟩ := n.visits_mapM (f := fun c ↦ Action.lift (σ := σ) (f c)) (g, s)
  obtain ⟨state', links', payload'⟩ := n.visits_mapM (f := f) g
  rw [Action.run_mapM_lift] at state links
  apply Prod.ext
  · apply Node.eq_of_payload (payload.trans payload'.symm)
    exact links.trans links'.symm
  · rw [state, state']

/-- Redirecting links is rewriting them with no state but the graph. -/
theorem rewriteChildren_lift (r : Ref) (f : Ref → StateM Graph Ref) :
    (rewriteChildren r fun c ↦ .lift (f c)).run (g, s) =
      ((g.relinkChildren r f).1, (g.relinkChildren r f).2, s) := by
  have acted := run_node_mapM_lift (s := s) (g := g) f (g.get r)
  rcases hm : ((g.get r).mapM f).run g with ⟨new, g'⟩
  rw [hm] at acted
  simp only [StateT.run] at acted hm ⊢
  simp only [rewriteChildren, relinkChildren, StateT.run, acted, hm]
  by_cases h : changedLinks (g.get r).children new.children = 0
  · rw [if_pos h, if_pos h]
  · rw [if_neg h, if_neg h]

end Graph

namespace Simplification

open SqlWright.Graph

variable {p : Simplification}

theorem run_pass_of_none (h : p.replacement? g r = none) :
    (p.pass r).run (g, s) = (none, g, s) := by
  simp only [pass, StateT.run, Action.lift, h]

theorem run_pass_of_isSome (h : (p.replacement? g r).isSome) :
    (p.pass r).run (g, s) =
      (some ((p.substitute r).run g).1, ((p.substitute r).run g).2, s) := by
  obtain ⟨x, hx⟩ := Option.isSome_iff_exists.mp h
  cases x with
  | existing other => simp only [pass, substitute, StateT.run, Action.lift, hx]
  | constant value => simp only [pass, substitute, StateT.run, Action.lift, hx]

theorem substitute_pass (p : Simplification) :
    Pass.substitute p.pass = fun r ↦ Action.lift (σ := σ) (p.substitute r) := by
  funext r (g, s)
  change (Pass.substitute p.pass r).run (g, s) = (Action.lift (p.substitute r)).run (g, s)
  rw [Pass.substitute, run_andThen, Action.run_lift]
  by_cases h : (p.replacement? g r).isSome
  · rw [run_pass_of_isSome h]
    rfl
  · rw [Option.not_isSome_iff_eq_none] at h
    rw [run_pass_of_none h]
    simp only [substitute, StateT.run, h]
    rfl

theorem run_rewriteLinks (nodes : List Ref) :
    (Pass.rewriteLinks p.pass nodes).run (g, s) =
      ((p.substituteLinks g nodes).1, (p.substituteLinks g nodes).2, s) := by
  induction nodes generalizing g with
  | nil => rfl
  | cons r nodes ih =>
    rw [Pass.rewriteLinks, substitute_pass, run_andThen, rewriteChildren_lift, run_andThen, ih,
      substituteLinks_cons]
    rfl

theorem run_pass :
    (Pass.run p.pass root).run (g, s) = ((p.run g root).2, (p.run g root).1, s) := by
  have links := run_rewriteLinks (σ := σ) (p := p) (g := g) (s := s) (g.postOrder root)
  have looked : (MonadState.get : Action σ _).run (g, s) = ((g, s), g, s) := rfl
  rcases hl : p.substituteLinks g (g.postOrder root) with ⟨count, g'⟩
  rw [hl] at links
  rw [Pass.run, run_andThen, looked, run_andThen, links, run_andThen, Simplification.run, hl]
  by_cases h : (p.replacement? g' root).isSome
  · rw [run_pass_of_isSome h]
    simp only [h, if_true, StateT.run]
    rcases p.substitute root g' with ⟨other, g''⟩
    change ((replaceWith root other >>= fun x ↦ pure (x.map fun _ ↦ count + 1)) : Action σ _).run
      (g'', s) = _
    rw [run_andThen]
    simp only [replaceWith, StateT.run]
    cases g''.replace root other with
    | ok g₃ => rfl
    | error e => rfl
  · rw [Option.not_isSome_iff_eq_none] at h
    rw [run_pass_of_none h]
    simp only [h]
    rfl

end Simplification

namespace Graph

/-- Simplifying is running the passes of the simplifications. -/
theorem optimize_pass (passes : List Simplification) :
    (optimize (passes.map Simplification.pass) root).run (g, s) =
      ((g.simplify root passes).2, (g.simplify root passes).1, s) := by
  induction passes generalizing g with
  | nil => rfl
  | cons p passes ih =>
    rw [List.map_cons, optimize, run_andThen, Simplification.run_pass, simplify]
    rcases p.run g root with ⟨g', e | count⟩
    · rfl
    · dsimp only
      rw [run_andThen, ih]
      rfl

end Graph

end SqlWright
