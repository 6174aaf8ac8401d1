import SqlWright.Dom.Graph.Simplify

/-!
# Rewriting in place

Actions change a graph in place and may keep a state of their own beside it. A pass proposes a
replacement for a node, or none to keep it, and an optimizer runs passes one after the other:
each goes over the links of what is reachable from a root, and then over the root itself.
-/

namespace SqlWright

namespace Graph

variable {σ : Type}

/-- Action on a graph that keeps a state of its own. -/
abbrev Action (σ α : Type) : Type := StateM (Graph × σ) α

/-- Action on the graph alone. -/
def Action.lift {α : Type} (m : StateM Graph α) : Action σ α := fun (g, s) ↦
  let (a, g) := m.run g
  (a, g, s)

/-- The content of a node taken from another node of its kind. On failure nothing changes. -/
def replaceWith (r other : Ref) : Action σ (Except Error Unit) := fun (g, s) ↦
  match g.replace r other with
  | .ok g => (.ok (), g, s)
  | .error e => (.error e, g, s)

/-- The links of a node replaced by the results of an action, and the number of those that
changed. -/
def rewriteChildren (r : Ref) (f : Ref → Action σ Ref) : Action σ Nat := fun (g, s) ↦
  let old := g.get r
  let (new, g, s) := (old.mapM f).run (g, s)
  let changed := changedLinks old.children new.children
  if changed = 0 then (0, g, s) else (changed, g.set r new, s)

/-- Graph in which the select under a reference is edited; any other node stays. -/
def editSelect (g : Graph) (r : Ref) (edit : Select Ref → Select Ref) : Graph :=
  match g.select? r with
  | some s => g.set r (.select (edit s))
  | none => g

/-- Replacement of a node, unless the node is kept. -/
abbrev Pass (σ : Type) : Type := Ref → Action σ (Option Ref)

namespace Pass

/-- Reference to the replacement of a node, or to the node itself where it is kept. -/
def substitute (p : Pass σ) (r : Ref) : Action σ Ref := return (← p r).getD r

/-- Links of the listed nodes replaced by what the pass puts in their place, and the number of
those that changed. -/
def rewriteLinks (p : Pass σ) : List Ref → Action σ Nat
  | [] => return 0
  | r :: rest => return (← rewriteChildren r p.substitute) + (← p.rewriteLinks rest)

/-- The pass over all that is reachable from a root, and the number of replacements. -/
def run (p : Pass σ) (root : Ref) : Action σ (Except Error Nat) := do
  let count ← p.rewriteLinks ((← MonadState.get).1.postOrder root)
  match ← p root with
  | none => return .ok count
  | some other => return (← replaceWith root other).map fun _ ↦ count + 1

end Pass

/-- Passes one after the other, up to the first failure, and the number of replacements. -/
def optimize : List (Pass σ) → Ref → Action σ (Except Error Nat)
  | [], _ => return .ok 0
  | p :: rest, root => do
    match ← p.run root with
    | .error e => return .error e
    | .ok count => return (← optimize rest root).map (count + ·)

end Graph

/-- The pass that makes a simplification. -/
def Simplification.pass {σ : Type} (p : Simplification) : Graph.Pass σ := fun r ↦
  .lift fun g ↦
    match p.replacement? g r with
    | some (.existing other) => (some other, g)
    | some (.constant value) =>
      let (other, g) := g.add (.literal (.boolean value))
      (some other, g)
    | none => (none, g)

end SqlWright
