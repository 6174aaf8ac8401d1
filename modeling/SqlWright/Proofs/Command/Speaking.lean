import SqlWright.Proofs.Command.Drafted
import SqlWright.Proofs.Command.ParameterNames

/-!
# Parameters that commands speak of

The parameters that a command lists are among those of the relation that it is made from: drafting
puts only these into the statement, simplifying it adds none, and writing it names what it has.
-/

namespace SqlWright

variable {α β γ : Type} {speaks : Parameter → Prop}

/-! ### Writing -/

/-- What becomes named is one of some parameters. -/
def Writing.NamesOnly (speaks : Parameter → Prop) (m : Writing β) : Prop :=
  ∀ named c named', m named = .ok (c, named') → ∀ p ∈ named', p ∈ named ∨ speaks p

namespace Writing.NamesOnly

theorem pure (c : β) : NamesOnly speaks (pure c) := by
  rintro named _ _ ⟨⟩ p hp
  exact .inl hp

theorem bind {m : Writing β} {f : β → Writing γ} (hm : NamesOnly speaks m)
    (hf : ∀ c, NamesOnly speaks (f c)) : NamesOnly speaks (m >>= f) := by
  intro named c named' h p hp
  obtain ⟨c₁, named₁, h₁, h₂⟩ := Writing.bind_ok.1 h
  exact (hf c₁ _ _ _ h₂ p hp).elim (hm _ _ _ h₁ p) .inr

theorem mapM {f : α → Writing β} {l : List α} (h : ∀ a ∈ l, NamesOnly speaks (f a)) :
    NamesOnly speaks (l.mapM f) := by
  induction l with
  | nil => exact pure []
  | cons a l ih =>
    rw [List.mapM_cons]
    rw [List.forall_mem_cons] at h
    exact h.1.bind fun _ ↦ (ih h.2).bind fun _ ↦ pure _

theorem parameter {w : Script} {p : Parameter} (h : speaks p) :
    NamesOnly speaks (w.parameter p) := by
  intro named c named' run q hq
  unfold Script.parameter at run
  split at run
  · cases run
    exact .inl hq
  · cases run
    rcases List.mem_append.1 hq with hq | hq
    · exact .inl hq
    · exact .inr (List.mem_singleton.1 hq ▸ h)

theorem writeItem {w : Script} {n : Node α} {k : Writer α}
    (h : ∀ a ∈ n.children, ∀ hint, NamesOnly speaks (k a hint)) (hn : n.SpeaksOf speaks)
    {i : Item α} (hi : i.IsOf n) : NamesOnly speaks (w.writeItem k i) := by
  cases i with
  | text s => exact pure _
  | part a hint => exact h a hi hint
  | parameter p =>
    cases hi
    exact parameter hn
  | placeholder id => exact pure _
  | variant key main alternative hint =>
    cases hi
    exact (h main (by simp [Node.children]) hint).bind fun _ ↦
      (h alternative (by simp [Node.children]) hint).bind fun _ ↦ pure _
  | dynamicFilter id expressions hint =>
    obtain ⟨first, others, rfl, rfl⟩ := hi
    exact (mapM fun a ha ↦ (h a ha hint).bind fun _ ↦ pure _).bind fun _ ↦ pure _

end Writing.NamesOnly

open Writing

/-- Writing a statement names its own parameters. -/
theorem Script.namesOnly_tree {w : Script} {t : Tree} (h : t.Everywhere (Node.SpeaksOf speaks))
    (hint : Option String) : NamesOnly speaks (w.tree t hint) := by
  induction t using Tree.induction_children generalizing hint with
  | h i n ih =>
    obtain ⟨root, below⟩ := h
    obtain ⟨items?, isOf, itemized⟩ := Script.itemized_node (w := w) (n := n) id hint
    intro named c named' run
    rw [Script.tree_mk] at run
    obtain ⟨items, mem, run⟩ := (itemized _ _ _).1 run
    have written : NamesOnly speaks (w.writeItems w.tree items) := by
      refine (NamesOnly.mapM fun m hm ↦ ?_).bind fun _ ↦ .pure _
      obtain ⟨i, hi, rfl⟩ := List.mem_map.1 hm
      exact .writeItem (fun c hc hint ↦ ih c hc (below c hc) hint) root (isOf items mem i hi)
    exact written _ _ _ run

/-- The parameters of a command are those of its statement. -/
theorem Tree.command_speaks {t : Tree} {spelling : Spelling} {types : TypeNames} {c : Command}
    (h : t.Everywhere (Node.SpeaksOf speaks)) (hc : t.command spelling types = .ok c) :
    ∀ q ∈ c.parameters, speaks q.1 := by
  obtain ⟨mark, chain, named, -, run, rfl⟩ := command_ok.1 hc
  intro q hq
  obtain ⟨i, hi, rfl⟩ := List.mem_mapIdx.1 hq
  have said := Script.namesOnly_tree h none [] chain named run named[i] (List.getElem_mem hi)
  exact said.resolve_left nofun

/-- A command of a relation speaks of its parameters, and of each one once. -/
theorem Compiler.command_speaks {c : Compiler} {r : Relation} {command : Command}
    (h : c.command r = .ok command) :
    (∀ q ∈ command.parameters, q.1 ∈ r.parameters) ∧
      (command.parameters.map (·.1.id)).Nodup := by
  obtain ⟨s, hs, h⟩ := command_ok h
  have drafted : (c.simplified s).Everywhere
      (Node.IsDrafted (fun _ ↦ True) fun q ↦ q ∈ r.parameters) :=
    everywhere_simplified hs (fun _ _ _ ↦ trivial) fun _ ↦ id
  have spoken : (c.simplified s).Everywhere (Node.SpeaksOf (· ∈ r.parameters)) := by
    refine drafted.mono fun n hn ↦ ?_
    cases n with
    | parameter q => exact hn
    | _ => trivial
  exact ⟨Tree.command_speaks spoken h, (Tree.command_parameters h).1⟩

end SqlWright
