import SqlWright.Proofs.Command.Speaking
import SqlWright.Proofs.Operators.Operands
import SqlWright.Proofs.Walks.Reached

/-!
# Parameters that are collected and parameters that are written

The parameters of a statement are told in two ways: a walk over the graph collects them, and writing
the statement names them. Both reach the same children, but a variant's key is only collected, and
so is what stands in an argument that the template of a function does not mention.
-/

namespace SqlWright

variable {α β γ : Type}

/-- The child of a node is written: it is no argument of a function whose template leaves it out. -/
def Spelling.Mentions (s : Spelling) (n : Node α) (c : α) : Prop :=
  c ∈ n.children ∧ ∀ f args, n = .function f args →
    ∃ t, s.functionTemplate f = .ok t ∧ ∃ i ∈ t.args args.length, args[i]? = some c

/-- Links that are written lead from the first node to the second. -/
def Graph.ReachesMentioned (g : Graph) (s : Spelling) : Ref → Ref → Prop :=
  Relation.ReflTransGen fun r c ↦ s.Mentions (g.get r) c

/-! ### Writing -/

/-- An identity is named after the writing if it was before, or if it is due. -/
def Writing.NamesIf (i : Nat) (due : Prop) (m : Writing β) : Prop :=
  ∀ named c named', m named = .ok (c, named') → i ∈ named.map (·.id) ∨ due →
    i ∈ named'.map (·.id)

namespace Writing.NamesIf

variable {i : Nat} {due due' : Prop}

theorem mono {m : Writing β} (h : NamesIf i due m) (hd : due' → due) : NamesIf i due' m :=
  fun named c named' run known ↦ h named c named' run (known.imp_right hd)

theorem pure (c : β) : NamesIf i False (pure c) := by
  rintro named _ _ ⟨⟩ known
  exact known.resolve_right id

theorem bind {m : Writing β} {f : β → Writing γ} (hm : NamesIf i due m)
    (hf : ∀ c, NamesIf i due' (f c)) : NamesIf i (due ∨ due') (m >>= f) := by
  intro named c named' run known
  obtain ⟨c₁, named₁, first, rest⟩ := Writing.bind_ok.1 run
  refine hf c₁ _ _ _ rest ?_
  obtain known | now | later := known
  · exact .inl (hm _ _ _ first (.inl known))
  · exact .inl (hm _ _ _ first (.inr now))
  · exact .inr later

theorem mapM {f : α → Writing β} {dues : α → Prop} {l : List α}
    (h : ∀ a ∈ l, NamesIf i (dues a) (f a)) : NamesIf i (∃ a ∈ l, dues a) (l.mapM f) := by
  induction l with
  | nil => exact (pure []).mono (by simp)
  | cons a l ih =>
    rw [List.mapM_cons]
    rw [List.forall_mem_cons] at h
    refine (h.1.bind fun _ ↦ (ih h.2).bind fun _ ↦ pure _).mono ?_
    simp

theorem parameter (w : Script) (p : Parameter) : NamesIf i (p.id = i) (w.parameter p) := by
  intro named c named' run known
  unfold Script.parameter at run
  split at run
  next j hj =>
    cases run
    obtain ⟨lt, same, -⟩ := List.findIdx?_eq_some_iff_getElem.1 hj
    obtain known | rfl := known
    · exact known
    · exact List.mem_map.2 ⟨named[j], List.getElem_mem lt, eq_of_beq same⟩
  next =>
    cases run
    rw [List.map_append, List.mem_append]
    exact known.imp_right fun same ↦ by simp [same]

theorem writeItem {w : Script} {n : Node α} {k : Writer α} {dues : α → Prop}
    (h : ∀ a ∈ n.children, ∀ hint, NamesIf i (dues a) (k a hint))
    (hn : ∀ p, n ≠ .parameter p) {item : Item α} (isOf : item.IsOf n) :
    NamesIf i (∃ a ∈ item.links, dues a) (w.writeItem k item) := by
  cases item with
  | text s => exact (pure _).mono (by simp [Item.links])
  | part a hint => exact (h a isOf hint).mono (by simp [Item.links])
  | parameter p => exact (hn p isOf).elim
  | placeholder id => exact (pure _).mono (by simp [Item.links])
  | variant key main alternative hint =>
    cases isOf
    refine ((h main (by simp [Node.children]) hint).bind fun _ ↦
      (h alternative (by simp [Node.children]) hint).bind fun _ ↦ pure _).mono ?_
    simp [Item.links]
  | dynamicFilter id expressions hint =>
    obtain ⟨first, others, rfl, rfl⟩ := isOf
    refine ((mapM fun a ha ↦ (h a ha hint).bind fun _ ↦ pure _).bind fun _ ↦ pure _).mono ?_
    rintro ⟨a, ha, due⟩
    exact .inl ⟨a, ha, .inl due⟩

theorem writeItems {w : Script} {n : Node α} {k : Writer α} {dues : α → Prop}
    (h : ∀ a ∈ n.children, ∀ hint, NamesIf i (dues a) (k a hint))
    (hn : ∀ p, n ≠ .parameter p) {items : List (Item α)} (isOf : ∀ item ∈ items, item.IsOf n) :
    NamesIf i (∃ item ∈ items, ∃ a ∈ item.links, dues a) (w.writeItems k items) := by
  induction items with
  | nil => exact (pure []).mono (by simp)
  | cons item items ih =>
    rw [List.forall_mem_cons] at isOf
    simp only [Script.writeItems, List.map_cons, concat_cons]
    refine ((writeItem h hn isOf.1).bind fun _ ↦ (ih isOf.2).bind fun _ ↦ pure _).mono ?_
    simp

end Writing.NamesIf

namespace Graph

variable {g : Graph} {s : Spelling} {i : Nat} {r : Ref}

/-- Links to children that the items of nodes write lead to a parameter of the identity. -/
def IsDue (g : Graph) (s : Spelling) (i : Nat) (r : Ref) : Prop :=
  ∃ x p, Relation.ReflTransGen (fun a b ↦ b ∈ s.links (g.get a)) r x ∧
    g.get x = .parameter p ∧ p.id = i

theorem IsDue.cases (h : g.IsDue s i r) : (∃ p, g.get r = .parameter p ∧ p.id = i) ∨
    ∃ c ∈ s.links (g.get r), g.IsDue s i c := by
  obtain ⟨x, p, path, hp, same⟩ := h
  obtain rfl | ⟨c, link, path⟩ := path.cases_head
  · exact .inl ⟨p, hp, same⟩
  · exact .inr ⟨c, link, x, p, path, hp, same⟩

end Graph

/-- Writing a statement names the parameters that are due: what it writes of a node are items that
have all its children but arguments that are not mentioned. -/
theorem Script.namesIf_tree {w : Script} {g : Graph} {part : Set Ref} {rank : Ref → Nat}
    (ranked : g.IsRanked part rank) {r : Ref} (hr : r ∈ part) (i : Nat) (hint : Option String) :
    Writing.NamesIf i (g.IsDue w.spelling i r) (w.tree (g.tree r) hint) := by
  refine ranked.induction
    (P := fun r ↦ ∀ hint, Writing.NamesIf i (g.IsDue w.spelling i r) (w.tree (g.tree r) hint))
    (fun r hr ih hint ↦ ?_) hr hint
  rw [ranked.tree_eq hr, tree_mk_map]
  by_cases hp : ∃ p, g.get r = .parameter p
  · obtain ⟨p, hp⟩ := hp
    rw [hp]
    refine (Writing.NamesIf.parameter w p).mono fun due ↦ ?_
    obtain ⟨q, hq, same⟩ | ⟨c, link, -⟩ := due.cases
    · cases hp.symm.trans hq
      exact same
    · rw [hp] at link
      cases link
  · obtain ⟨items?, offered, written⟩ := itemizes_node (w := w) (n := g.get r) g.tree hint
    intro named c named' run known
    obtain ⟨items, mem, run⟩ := (written _ _ _).1 run
    obtain ⟨isOf, all⟩ := offered items mem
    refine Writing.NamesIf.writeItems (fun a ha hint ↦ ih a ha hint) (fun p h ↦ hp ⟨p, h⟩)
      (fun item hi ↦ (isOf item hi).1) named c named' run (known.imp_right fun due ↦ ?_)
    obtain ⟨p, h, -⟩ | ⟨a, link, due⟩ := due.cases
    · exact (hp ⟨p, h⟩).elim
    · obtain ⟨item, hi, ha⟩ := all a link
      exact ⟨item, hi, a, ha, due⟩

/-! ### Dialects -/

/-- Every version of a dialect writes both operands of an operator. -/
theorem OperatorForm.args_template (form : OperatorForm) : form.template.args 2 = [0, 1] := by
  cases form with
  | between op => rw [Template.args, template, Lexicon.parts_ansiOperator]; rfl
  | call name => exact Template.args_call name 2

/-- The children that a dialect writes are all but arguments that a template leaves out. -/
theorem Dialect.mem_links {d : Dialect} {v : Version} {n : Node α} {c : α}
    (h : (d.spelling v).Mentions n c) : c ∈ (d.spelling v).links n := by
  obtain ⟨mem, mentioned⟩ := h
  cases n with
  | function f args =>
    obtain ⟨t, ht, i, hi, same⟩ := mentioned f args rfl
    rw [Spelling.links, ht]
    exact List.mem_flatMap.2 ⟨i, hi, by simp [same]⟩
  | binary op left right =>
    rw [Spelling.links, d.operatorTemplate_eq]
    simpa [OperatorForm.args_template, Node.children] using mem
  | _ => exact mem

namespace Graph

variable {g : Graph} {root : Ref} {spelling : Spelling} {types : TypeNames} {c : Command}

/-- The parameters of a command are collected. -/
theorem command_collected (acyclic : g.IsAcyclicFrom root)
    (h : (g.tree root).command spelling types = .ok c) :
    ∀ q ∈ c.parameters, q.1.id ∈ (g.parameters root).map (·.id) := by
  have ranked := acyclic.isRanked
  have spoken : (g.tree root).Everywhere
      (Node.SpeaksOf fun p ↦ p.id ∈ (g.parameters root).map (·.id)) := by
    refine ranked.induction (P := fun r ↦ (g.tree r).Everywhere _) (fun r hr ih ↦ ?_) .refl
    rw [ranked.tree_eq hr, Tree.everywhere_mk, Node.children_map, List.forall_mem_map]
    refine ⟨?_, ih⟩
    cases hn : g.get r with
    | parameter p => exact mem_parameters.2 ⟨r, p, hr, rfl, .inl hn⟩
    | _ => trivial
  exact Tree.command_speaks spoken h

/-- A command has the parameters that are due. -/
theorem command_due (acyclic : g.IsAcyclicFrom root)
    (h : (g.tree root).command spelling types = .ok c) {i : Nat} (due : g.IsDue spelling i root) :
    i ∈ c.parameters.map (·.1.id) := by
  obtain ⟨mark, chain, named, -, run, rfl⟩ := Tree.command_ok.1 h
  have mem : i ∈ named.map (·.id) :=
    Script.namesIf_tree acyclic.isRanked .refl i none [] chain named run (.inr due)
  have listed (name : Nat → Parameter → String) :
      (named.mapIdx fun i p ↦ (p, name i p)).map (·.1.id) = named.map (·.id) :=
    List.ext_getElem (by simp) fun i _ _ ↦ by simp
  rw [Command.ofChain, listed]
  exact mem

/-- A walk over a graph, be there cycles or not, ends and collects the parameters and the keys of
variants that children lead to, each once. Without cycles, a command of a dialect has only
parameters that are collected, and it has all of them but those that are only keys of variants or
in arguments that the template of a function does not mention. -/
theorem collects_parameters (g : Graph) (root : Ref) :
    g.Walks {} [root] (g.walk root) ∧
      ((g.parameters root).map (·.id)).Nodup ∧
      (∀ i, i ∈ (g.parameters root).map (·.id) ↔ ∃ r p, g.Reaches root r ∧ p.id = i ∧
        (g.get r = .parameter p ∨
          ∃ main alternative, g.get r = .variant (.isNull p) main alternative)) ∧
      ∀ (d : Dialect) (v : Version) (c : Command), g.IsAcyclicFrom root →
        (g.tree root).command (d.spelling v) (d.typeNames v) = .ok c →
        (∀ q ∈ c.parameters, q.1.id ∈ (g.parameters root).map (·.id)) ∧
          ∀ p ∈ g.parameters root, p.id ∈ c.parameters.map (·.1.id) ∨
            ∀ r q, g.ReachesMentioned (d.spelling v) root r → g.get r = .parameter q →
              q.id ≠ p.id := by
  refine ⟨g.walks_walk root, nodup_parameters, fun i ↦ mem_parameters, fun d v c acyclic h ↦
    ⟨command_collected acyclic h, fun p _ ↦ or_iff_not_imp_left.2 fun missing r q path hq same ↦ ?_⟩⟩
  refine missing (command_due acyclic h ⟨r, q, ?_, hq, same⟩)
  exact Relation.ReflTransGen.mono (fun _ _ ↦ Dialect.mem_links) _ _ path

/-- Sum of a parameter and of a variant, whose key is a second one. A third one is the argument of
a function without arguments. -/
def spoken : Graph where
  nodes := #[.null, .parameter ⟨7, "first"⟩, .parameter ⟨3, "third"⟩, .function .currentDate [2],
    .variant (.isNull ⟨5, "second"⟩) 3 1, .binary .plus 1 4]

/-- All three parameters are collected, and the command has the first. -/
theorem spoken_parameters : spoken.IsAcyclicFrom 5 ∧
    (spoken.parameters 5).map (·.id) = [7, 5, 3] ∧
      ∃ c, (spoken.tree 5).command (Dialect.postgreSql.spelling ⟨9, 0⟩)
          (Dialect.postgreSql.typeNames ⟨9, 0⟩) = .ok c ∧
        c.parameters.map (·.1.id) = [7] ∧
        (∀ q ∈ c.parameters, q.1.id ∈ (spoken.parameters 5).map (·.id)) ∧
        ∀ p ∈ spoken.parameters 5, p.id ∈ c.parameters.map (·.1.id) ∨
          ∀ r q, spoken.ReachesMentioned (Dialect.postgreSql.spelling ⟨9, 0⟩) 5 r →
            spoken.get r = .parameter q → q.id ≠ p.id := by
  have acyclic : spoken.IsAcyclicFrom 5 := isAcyclicFrom_of_lt (by decide) (by decide)
  obtain ⟨-, -, -, agree⟩ := collects_parameters spoken 5
  exact ⟨acyclic, rfl, _, rfl, rfl, agree .postgreSql ⟨9, 0⟩ _ acyclic rfl⟩

/-- A node below itself is walked over once. -/
example : (Graph.mk #[.null, .parameter ⟨7, "first"⟩, .binary .plus 2 1]).parameters 2 =
    [⟨7, "first"⟩] := rfl

end Graph

end SqlWright
