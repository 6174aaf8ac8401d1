import Mathlib
import SqlWright.Relation.Compile

/-!
# Runs of drafts

What a successful run of a drafting says of its parts: `bind_ok` takes a run of two
steps apart, `node_ok` names the tree and the draft that a new node makes.
-/

namespace SqlWright

variable {α β : Type} {d d' : Draft}

namespace Drafting

/-- A run of two steps is a run of the first and a run of the second. -/
theorem bind_ok {m : Drafting α} {f : α → Drafting β} {b : β} :
    (m >>= f) d = .ok (b, d') ↔ ∃ a d₁, m d = .ok (a, d₁) ∧ f a d₁ = .ok (b, d') := by
  change Except.bind (m d) (fun p ↦ f p.1 p.2) = _ ↔ _
  cases m d with
  | error e => simp [Except.bind]
  | ok p => exact ⟨fun h ↦ ⟨p.1, p.2, rfl, h⟩, by rintro ⟨a, d₁, hp, h⟩; cases hp; exact h⟩

/-- A failure of two steps is one of the first or of the second. -/
theorem bind_error {m : Drafting α} {f : α → Drafting β} {e : Error} :
    (m >>= f) d = .error e ↔ m d = .error e ∨ ∃ a d₁, m d = .ok (a, d₁) ∧ f a d₁ = .error e := by
  change Except.bind (m d) (fun p ↦ f p.1 p.2) = _ ↔ _
  cases m d with
  | error e' => simp [Except.bind]
  | ok p =>
    refine ⟨fun h ↦ .inr ⟨p.1, p.2, rfl, h⟩, ?_⟩
    rintro (h | ⟨a, d₁, hp, h⟩)
    · cases h
    · cases hp
      exact h

/-- A finished drafting leaves the draft as it is. -/
theorem pure_ok {a b : α} : (pure a : Drafting α) d = .ok (b, d') ↔ a = b ∧ d = d' := by
  change Except.ok (a, d) = _ ↔ _
  simp

/-- A computation without a draft leaves the draft as it is. -/
theorem lift_ok {x : Except Error α} {a : α} :
    (liftM x : Drafting α) d = .ok (a, d') ↔ x = .ok a ∧ d = d' := by
  change Except.bind x (fun b ↦ .ok (b, d)) = _ ↔ _
  cases x <;> simp [Except.bind]

/-- A failure has no result. -/
theorem throw_ok {e : Error} {a : α} : (throw e : Drafting α) d ≠ .ok (a, d') := by
  change Except.error e ≠ _
  simp

/-- A changed result comes from a run. -/
theorem map_ok {m : Drafting α} {f : α → β} {b : β} :
    (f <$> m) d = .ok (b, d') ↔ ∃ a, m d = .ok (a, d') ∧ f a = b := by
  rw [← bind_pure_comp, bind_ok]
  simp only [pure_ok]
  exact ⟨fun ⟨a, _, h, hb, hd⟩ ↦ ⟨a, hd ▸ h, hb⟩, fun ⟨a, h, hb⟩ ↦ ⟨a, _, h, hb, rfl⟩⟩

/-- An optional step is made exactly if there is something to make it on. -/
theorem mapM_option_ok {f : α → Drafting β} {o : Option α} {r : Option β} :
    (o.mapM f) d = .ok (r, d') ↔
      (o = none ∧ r = none ∧ d = d') ∨ ∃ a b, o = some a ∧ r = some b ∧ f a d = .ok (b, d') := by
  cases o with
  | none =>
    rw [Option.mapM_none, pure_ok]
    simp [eq_comm]
  | some a =>
    rw [Option.mapM_some, map_ok]
    simp only [reduceCtorEq, false_and, Option.some.injEq, false_or]
    exact ⟨fun ⟨b, h, hr⟩ ↦ ⟨a, b, rfl, hr.symm, h⟩,
      by rintro ⟨_, b, rfl, rfl, h⟩; exact ⟨b, h, rfl⟩⟩

end Drafting

open Drafting

/-- A computation of two steps succeeds exactly if both do. -/
theorem bind_except_ok {x : Except Error α} {f : α → Except Error β} {b : β} :
    (x >>= f) = .ok b ↔ ∃ a, x = .ok a ∧ f a = .ok b := by
  cases x with
  | error e => simp [bind, Except.bind]
  | ok a => simp [bind, Except.bind]

/-- A list is computed without failure exactly if each of its elements is. -/
theorem mapM_except_ok {f : α → Except Error β} {l : List α} {r : List β} :
    l.mapM f = .ok r ↔ List.Forall₂ (fun a b ↦ f a = .ok b) l r := by
  induction l generalizing r with
  | nil =>
    rw [List.mapM_nil, List.forall₂_nil_left_iff]
    exact ⟨fun h ↦ (Except.ok.inj h).symm, fun h ↦ by rw [h]; rfl⟩
  | cons a l ih =>
    rw [List.mapM_cons, bind_except_ok, List.forall₂_cons_left_iff]
    constructor
    · rintro ⟨b, ha, h⟩
      obtain ⟨bs, hl, h⟩ := bind_except_ok.1 h
      exact ⟨b, bs, ha, ih.1 hl, (Except.ok.inj h).symm⟩
    · rintro ⟨b, bs, ha, hl, rfl⟩
      exact ⟨b, ha, bind_except_ok.2 ⟨bs, ih.2 hl, rfl⟩⟩

/-- An element of the second of two lists that are related comes with one of the first. -/
theorem exists_of_mem_forall₂ {R : α → β → Prop} {l : List α} {r : List β} {b : β}
    (h : List.Forall₂ R l r) (hb : b ∈ r) : ∃ a ∈ l, R a b := by
  obtain ⟨i, hi, rfl⟩ := List.mem_iff_getElem.1 hb
  have hl : i < l.length := h.length_eq ▸ hi
  exact ⟨l[i], List.getElem_mem hl, h.get hl hi⟩

namespace Draft

/-- Tree of a new node of a draft. -/
def made (d : Draft) (n : Node Tree) : Tree := .mk (d.graph.add (n.map Tree.id)).1 n

/-- Draft with a new node. -/
def withNode (d : Draft) (n : Node Tree) : Draft :=
  { d with graph := (d.graph.add (n.map Tree.id)).2 }

/-- A new node always has a tree. -/
theorem node_eq (n : Node Tree) (d : Draft) : node n d = .ok (d.made n, d.withNode n) := rfl

/-- A new node makes its tree and is in the draft afterwards. -/
theorem node_ok {n : Node Tree} {t : Tree} :
    node n d = .ok (t, d') ↔ t = d.made n ∧ d' = d.withNode n := by
  rw [node_eq, Except.ok.injEq, Prod.mk.injEq, eq_comm (a := t), eq_comm (a := d')]

@[simp]
theorem node_made (d : Draft) (n : Node Tree) : (d.made n).node = n := rfl

@[simp]
theorem aliases_withNode (d : Draft) (n : Node Tree) : (d.withNode n).aliases = d.aliases := rfl

/-- A column that is found is the expression at the position. -/
theorem columnAt_ok {columns : List Tree} {i : Nat} {t : Tree} :
    columnAt columns i = .ok t ↔ columns[i]? = some t := by
  unfold columnAt
  split
  · next u hu => rw [hu, Except.ok.injEq, Option.some.injEq]
  · next hu => simp [hu]

/-- An alias that was not given before is the next one in the count. -/
theorem nextAlias_ok {s : String} :
    nextAlias d = .ok (s, d') ↔
      s = aliasName d.aliases ∧ d' = { d with aliases := d.aliases + 1 } := by
  change Except.ok _ = Except.ok _ ↔ _
  rw [Except.ok.injEq, Prod.mk.injEq, eq_comm (a := s), eq_comm (a := d')]

end Draft

end SqlWright
