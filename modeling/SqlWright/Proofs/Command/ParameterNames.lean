import Mathlib
import SqlWright.Proofs.Command.Rewriting
import SqlWright.Spelling.OfDialect

/-!
# Names of parameters

The parameters of a command are those that its text shows, each once and in the order of their
first use, and everywhere under the name of the place in the list. What the text shows is told
by two other statements: one has the listed names for the parameters, the other a placeholder of
its own for each.
-/

namespace SqlWright

variable {α β : Type}

mutual

/-- Placeholders of a piece in the order in which it is read, a variant's main chain before its
alternative. -/
def Piece.placeholders : Piece → List Placeholder
  | .text _ => []
  | .placeholder id => [id]
  | .variant _ main alternative => Chain.placeholders main ++ Chain.placeholders alternative
  | .dynamicFilter _ expressions => Chain.allPlaceholders expressions

/-- Placeholders of a chain in the order in which it is read. -/
def Chain.placeholders : Chain → List Placeholder
  | [] => []
  | p :: rest => p.placeholders ++ Chain.placeholders rest

/-- Placeholders of some chains. -/
def Chain.allPlaceholders : List Chain → List Placeholder
  | [] => []
  | c :: rest => Chain.placeholders c ++ Chain.allPlaceholders rest

end

namespace Chain

@[simp]
theorem placeholders_append (c d : Chain) :
    placeholders (c ++ d) = placeholders c ++ placeholders d := by
  induction c with
  | nil => rfl
  | cons p c ih => simp [placeholders, ih]

theorem placeholders_ofText (s : String) : (ofText s).placeholders = [] := by
  unfold ofText
  split <;> rfl

theorem placeholders_normalizedAfter (pending : String) (c : Chain) :
    (c.normalizedAfter pending).placeholders = c.placeholders := by
  induction c generalizing pending with
  | nil => exact placeholders_ofText pending
  | cons p c ih =>
    cases p with
    | text s => exact ih (pending ++ s)
    | _ => simp [normalizedAfter, placeholders, placeholders_ofText, ih]

/-- Putting texts together leaves the placeholders as they are. -/
@[simp]
theorem placeholders_normalized (c : Chain) : c.normalized.placeholders = c.placeholders :=
  placeholders_normalizedAfter "" c

end Chain

/-! ### Texts that tell the parameters -/

/-- Placeholder that stands for a parameter. -/
def Parameter.mark (p : Parameter) : Placeholder := .key p.id.repr

theorem Parameter.mark_inj {p q : Parameter} : p.mark = q.mark ↔ p.id = q.id := by
  simp only [mark, Placeholder.key.injEq]
  exact ⟨fun h ↦ Nat.repr_injective h, congrArg Nat.repr⟩

/-- First occurrences are collected step by step. -/
theorem append_eraseDups_removeAll [DecidableEq α] (l m m' : List α) :
    l ++ (m.removeAll l).eraseDups ++
        (m'.removeAll (l ++ (m.removeAll l).eraseDups)).eraseDups =
      l ++ ((m ++ m').removeAll l).eraseDups := by
  have rest : m'.removeAll (l ++ (m.removeAll l).eraseDups) =
      (m'.removeAll l).removeAll (m.removeAll l) := by
    simp only [List.removeAll, List.filter_filter]
    refine List.filter_congr fun a ha ↦ ?_
    by_cases mem : a ∈ l <;> by_cases first : a ∈ m <;> simp [mem, first]
  have split : (m ++ m').removeAll l = m.removeAll l ++ m'.removeAll l := by
    simp [List.removeAll]
  rw [rest, split, List.eraseDups_append, List.append_assoc]

theorem nodup_eraseDups [DecidableEq α] (l : List α) : l.eraseDups.Nodup := by
  induction hn : l.length using Nat.strong_induction_on generalizing l with
  | h n ih =>
    cases l with
    | nil => simp
    | cons a l =>
      rw [List.eraseDups_cons, List.nodup_cons]
      refine ⟨by simp, ih _ ?_ _ rfl⟩
      have := List.length_filter_le (fun b ↦ !b == a) l
      simp only [List.length_cons] at hn
      omega

/-- The names are those of the positions in a list of parameters. -/
def Script.Names (w : Script) (name : Parameter → String) (named : List Parameter) : Prop :=
  ∀ p i, named.findIdx? (·.id == p.id) = some i → name p = w.parameterName i

theorem Script.Names.of_prefix {w : Script} {name : Parameter → String}
    {named named' : List Parameter} (h : w.Names name named') (hp : named <+: named') :
    w.Names name named := by
  obtain ⟨l, rfl⟩ := hp
  exact fun p i hi ↦ h p i (by simp [List.findIdx?_append, hi])

/-- What is written is also what the names give, and the parameters that it names are those
that the marks show, in order. -/
def Writing.Shows (w : Script) (name : Parameter → String) (read : β → List Placeholder)
    (x named marked : Writing β) : Prop :=
  ∀ l c l', x l = .ok (c, l') → l <+: l' ∧
    (w.Names name l' → ∀ s, named s = .ok (c, s)) ∧
    ∃ m, (∀ s, marked s = .ok (m, s)) ∧
      l'.map (·.mark) = l.map (·.mark) ++ ((read m).removeAll (l.map (·.mark))).eraseDups

namespace Writing.Shows

variable {w : Script} {name : Parameter → String}

theorem pure {read : β → List Placeholder} (c : β) {m : β} (h : read m = []) :
    Shows w name read (pure c) (pure c) (pure m) := by
  rintro l _ _ ⟨⟩
  refine ⟨List.prefix_rfl, fun _ s ↦ rfl, m, fun s ↦ rfl, ?_⟩
  simp [h, List.removeAll]

theorem parameter (w : Script) (name : Parameter → String) (p : Parameter) :
    Shows w name Chain.placeholders (w.parameter p) (Pure.pure [.text (name p)])
      (Pure.pure [.placeholder p.mark]) := by
  intro l c l' h
  have marks : Chain.placeholders [.placeholder p.mark] = [p.mark] := rfl
  unfold Script.parameter at h
  split at h
  next i hi =>
    cases h
    obtain ⟨lt, same, -⟩ := List.findIdx?_eq_some_iff_getElem.1 hi
    have mem : p.mark ∈ l.map (·.mark) :=
      List.mem_map.2 ⟨l[i], List.getElem_mem lt, Parameter.mark_inj.2 (by simpa using same)⟩
    refine ⟨List.prefix_rfl, fun names s ↦ by rw [names p i hi]; rfl, _, fun s ↦ rfl, ?_⟩
    generalize l.map (·.mark) = known at mem
    simp [marks, List.removeAll, mem]
  next none =>
    cases h
    rw [List.findIdx?_eq_none_iff] at none
    have mem : p.mark ∉ l.map (·.mark) := fun h ↦ by
      obtain ⟨q, hq, same⟩ := List.mem_map.1 h
      simpa [Parameter.mark_inj.1 same] using none q hq
    have last : (l ++ [p]).findIdx? (·.id == p.id) = some l.length := by
      simp [List.findIdx?_append, List.findIdx?_eq_none_iff.2 none]
    refine ⟨List.prefix_append l [p], fun names s ↦ by rw [names p _ last]; rfl, _,
      fun s ↦ rfl, ?_⟩
    rw [List.map_append]
    generalize l.map (·.mark) = known at mem
    simp [marks, List.removeAll, List.eraseDups_cons, mem]

theorem bind₂ {γ δ : Type} {f : β → γ → δ} {read : β → List Placeholder}
    {read' : γ → List Placeholder} {read'' : δ → List Placeholder}
    (hf : ∀ c d, read'' (f c d) = read c ++ read' d) {x y z : Writing β} {x' y' z' : Writing γ}
    (h : Shows w name read x y z) (h' : Shows w name read' x' y' z') :
    Shows w name read'' (do return f (← x) (← x')) (do return f (← y) (← y'))
      (do return f (← z) (← z')) := by
  intro l c l' run
  obtain ⟨c₁, l₁, hx, run⟩ := Writing.bind_ok.1 run
  obtain ⟨c₂, l₂, hx', ⟨⟩⟩ := Writing.bind_ok.1 run
  obtain ⟨before, named, m, marked, marks⟩ := h _ _ _ hx
  obtain ⟨after, named', m', marked', marks'⟩ := h' _ _ _ hx'
  refine ⟨before.trans after, fun names s ↦ ?_, f m m', fun s ↦ ?_, ?_⟩
  · exact Writing.bind_ok.2 ⟨c₁, s, named (names.of_prefix after) s,
      Writing.bind_ok.2 ⟨c₂, s, named' names s, rfl⟩⟩
  · exact Writing.bind_ok.2 ⟨m, s, marked s, Writing.bind_ok.2 ⟨m', s, marked' s, rfl⟩⟩
  · rw [hf, ← append_eraseDups_removeAll, ← marks, marks']

theorem map {γ : Type} {f : β → γ} {read : β → List Placeholder} {read' : γ → List Placeholder}
    (hf : ∀ c, read' (f c) = read c) {x y z : Writing β} (h : Shows w name read x y z) :
    Shows w name read' (do return f (← x)) (do return f (← y)) (do return f (← z)) := by
  intro l c l' run
  obtain ⟨c₁, l₁, hx, ⟨⟩⟩ := Writing.bind_ok.1 run
  obtain ⟨before, named, m, marked, marks⟩ := h _ _ _ hx
  exact ⟨before, fun names s ↦ Writing.bind_ok.2 ⟨c₁, s, named names s, rfl⟩, f m,
    fun s ↦ Writing.bind_ok.2 ⟨m, s, marked s, rfl⟩, by rw [hf, marks]⟩

theorem mapM {f g k : α → Writing Chain} {l : List α}
    (h : ∀ a ∈ l, Shows w name Chain.placeholders (f a) (g a) (k a)) :
    Shows w name Chain.allPlaceholders (l.mapM f) (l.mapM g) (l.mapM k) := by
  induction l with
  | nil => exact pure [] rfl
  | cons a l ih =>
    rw [List.forall_mem_cons] at h
    simp only [List.mapM_cons]
    refine bind₂ (f := List.cons) ?_ h.1 (ih h.2)
    exact fun _ _ ↦ rfl

theorem writeItem {n : Node α} {k k' k'' : Writer α}
    (h : ∀ a ∈ n.children, ∀ hint,
      Shows w name Chain.placeholders (k a hint) (k' a hint) (k'' a hint))
    (hp : ∀ p, n ≠ .parameter p) (hq : ∀ id, n ≠ .placeholder id) {i : Item α} (hi : i.IsOf n) :
    Shows w name Chain.placeholders (w.writeItem k i) (w.writeItem k' i) (w.writeItem k'' i) := by
  cases i with
  | text s => exact pure [Piece.text s] rfl
  | part a hint => exact h a hi hint
  | parameter p => exact (hp p hi).elim
  | placeholder id => exact (hq id hi).elim
  | variant key main alternative hint =>
    cases hi
    refine bind₂ (f := fun c d ↦ [Piece.variant key (Chain.normalized c) (Chain.normalized d)]) ?_
      (h main (by simp [Node.children]) hint) (h alternative (by simp [Node.children]) hint)
    exact fun c d ↦ by simp [Chain.placeholders, Piece.placeholders]
  | dynamicFilter id expressions hint =>
    obtain ⟨first, others, rfl, rfl⟩ := hi
    refine map (f := fun es ↦ [Piece.dynamicFilter id es]) ?_ (mapM fun a ha ↦
      map (f := Chain.normalized) ?_ (h a ha hint))
    · exact fun es ↦ by simp [Chain.placeholders, Piece.placeholders]
    · exact fun c ↦ by simp

theorem writeItems {n : Node α} {k k' k'' : Writer α}
    (h : ∀ a ∈ n.children, ∀ hint,
      Shows w name Chain.placeholders (k a hint) (k' a hint) (k'' a hint))
    (hp : ∀ p, n ≠ .parameter p) (hq : ∀ id, n ≠ .placeholder id) {items : List (Item α)}
    (hi : ∀ i ∈ items, i.IsOf n) :
    Shows w name Chain.placeholders (w.writeItems k items) (w.writeItems k' items)
      (w.writeItems k'' items) := by
  induction items with
  | nil => exact pure [] rfl
  | cons i items ih =>
    rw [List.forall_mem_cons] at hi
    simp only [Script.writeItems, List.map_cons, Writing.concat_cons]
    exact (writeItem h hp hq hi.1).bind₂ Chain.placeholders_append (ih hi.2)

end Writing.Shows

namespace Tree

/-- Statement with given texts for its parameters. -/
def spelled (name : Parameter → String) : Tree → Tree :=
  relabeled (fun p ↦ .native (name p)) .placeholder

/-- Statement with a placeholder of its own for each parameter, and with none besides. -/
def marked : Tree → Tree := relabeled (fun p ↦ .placeholder p.mark) fun _ ↦ .native ""

end Tree

theorem Script.tree_spelled {w : Script} (name : Parameter → String) (i : Nat) (n : Node Tree)
    (hint : Option String) : w.tree (.mk i (n.map (Tree.spelled name))) hint =
      w.node (n.map (partOf id fun t ↦ w.tree (t.spelled name))) hint := by
  refine tree_relabeled ?_ ?_ i n hint <;> exact fun _ ↦ trivial

theorem Script.tree_marked {w : Script} (i : Nat) (n : Node Tree) (hint : Option String) :
    w.tree (.mk i (n.map Tree.marked)) hint =
      w.node (n.map (partOf id fun t ↦ w.tree t.marked)) hint := by
  refine tree_relabeled ?_ ?_ i n hint <;> exact fun _ ↦ trivial

/-- Writing a statement shows its parameters. -/
theorem Script.shows_tree (w : Script) (name : Parameter → String) (t : Tree)
    (hint : Option String) :
    Writing.Shows w name Chain.placeholders (w.tree t hint) (w.tree (t.spelled name) hint)
      (w.tree t.marked hint) := by
  induction t using Tree.induction_children generalizing hint with
  | h i n ih =>
    obtain ⟨p, rfl⟩ | ⟨id, rfl⟩ | ⟨hp, hq⟩ := n.label_cases
    · rw [Tree.spelled, Tree.marked, Tree.relabeled_parameter, Tree.relabeled_parameter]
      exact .parameter w name p
    · rw [Tree.spelled, Tree.marked, Tree.relabeled_placeholder, Tree.relabeled_placeholder]
      exact .pure [Piece.placeholder id] rfl
    · have named : (Tree.mk i n).spelled name = .mk 0 (n.map (Tree.spelled name)) :=
        Tree.relabeled_of_ne _ _ i hp hq
      have marked : (Tree.mk i n).marked = .mk 0 (n.map Tree.marked) :=
        Tree.relabeled_of_ne _ _ i hp hq
      rw [named, marked]
      intro l c l' run
      obtain ⟨items?, isOf, itemized⟩ := Script.itemized_node (w := w) (n := n) id hint
      rw [Script.tree_mk] at run
      obtain ⟨items, mem, run⟩ := (itemized _ _ _).1 run
      obtain ⟨before, named, m, marked, marks⟩ :=
        Writing.Shows.writeItems ih hp hq (isOf items mem) l c l' run
      refine ⟨before, fun names s ↦ ?_, m, fun s ↦ ?_, marks⟩
      · rw [Script.tree_spelled]
        exact (itemized _ _ _).2 ⟨items, mem, named names s⟩
      · rw [Script.tree_marked]
        exact (itemized _ _ _).2 ⟨items, mem, marked s⟩

namespace Command

variable {c : Command} {p : Parameter}

/-- A command that lists a parameter once knows its name. -/
theorem parameterName_eq_ok (h : (c.parameters.map (·.1.id)).Nodup) {name : String} :
    c.parameterName p = .ok name ↔ ∃ q ∈ c.parameters, q.1.id = p.id ∧ q.2 = name := by
  have found (q : Parameter × String) : c.parameters.reverse.find? (·.1.id == p.id) = some q ↔
      q ∈ c.parameters ∧ q.1.id = p.id := by
    constructor
    · intro hq
      exact ⟨List.mem_reverse.1 (List.mem_of_find?_eq_some hq), by
        simpa using List.find?_some hq⟩
    · rintro ⟨mem, same⟩
      obtain ⟨q', hq'⟩ : ∃ q', c.parameters.reverse.find? (·.1.id == p.id) = some q' := by
        rw [← Option.isSome_iff_exists, List.find?_isSome]
        exact ⟨q, List.mem_reverse.2 mem, by simpa using same⟩
      have same' : q'.1.id = p.id := by simpa using List.find?_some hq'
      rw [hq', List.inj_on_of_nodup_map h (List.mem_reverse.1 (List.mem_of_find?_eq_some hq')) mem
        (same'.trans same.symm)]
  cases hf : c.parameters.reverse.find? (·.1.id == p.id) with
  | none =>
    rw [parameterName, hf]
    refine ⟨nofun, ?_⟩
    rintro ⟨q, mem, same, -⟩
    cases hf.symm.trans ((found q).2 ⟨mem, same⟩)
  | some q =>
    rw [parameterName, hf]
    constructor
    · rintro ⟨⟩
      exact ⟨q, ((found q).1 hf).1, ((found q).1 hf).2, rfl⟩
    · rintro ⟨q', mem, same, rfl⟩
      cases hf.symm.trans ((found q').2 ⟨mem, same⟩)
      rfl

/-- A command knows no name of a parameter that it does not list. -/
theorem parameterName_eq_error (h : ∀ q ∈ c.parameters, q.1.id ≠ p.id) :
    c.parameterName p = .error (.parameterNameNotFound p.hint) := by
  have none : c.parameters.reverse.find? (·.1.id == p.id) = none := by
    simpa [List.find?_eq_none] using h
  rw [parameterName, none]

end Command

namespace Tree

variable {t : Tree} {spelling : Spelling} {types : TypeNames} {c : Command}

/-- Statement with the names that a command lists for its parameters. -/
def spelledBy (c : Command) : Tree → Tree :=
  spelled fun p ↦ ((c.parameterName p).toOption).getD ""

/-- The command of a statement lists each of its parameters once, in the order in which the text
first uses them and under the names of the places in the list. It knows the names of these and
of no others, and its text has them wherever the statement has the parameters. -/
theorem command_parameters (h : t.command spelling types = .ok c) :
    (c.parameters.map (·.1.id)).Nodup ∧
    (∃ mark, spelling.parameterMark = .ok mark ∧ c.parameters.map (·.2) =
      (List.range c.parameters.length).map fun i ↦ mark ++ "p" ++ i.repr) ∧
    (c.parameters.map (·.2)).Nodup ∧
    (∀ p name, c.parameterName p = .ok name ↔
      ∃ q ∈ c.parameters, q.1.id = p.id ∧ q.2 = name) ∧
    (∀ p, (∀ q ∈ c.parameters, q.1.id ≠ p.id) →
      c.parameterName p = .error (.parameterNameNotFound p.hint)) ∧
    (t.spelledBy c).command spelling types = .ok { c with parameters := [] } ∧
    ∃ m, t.marked.command spelling types = .ok m ∧ m.parameters = [] ∧
      m.chain.placeholders.eraseDups = c.parameters.map (·.1.mark) := by
  obtain ⟨mark, chain, l, hm, run, hc⟩ := command_ok.1 h
  let w : Script := ⟨spelling, types, mark⟩
  have listed : c.parameters.map (·.1) = l := by
    rw [hc, Command.ofChain]
    exact List.ext_getElem (by simp) fun i _ _ ↦ by simp
  have names : c.parameters.map (·.2) = (List.range c.parameters.length).map w.parameterName := by
    rw [hc, Command.ofChain]
    exact List.ext_getElem (by simp) fun i _ _ ↦ by simp [w]
  obtain ⟨-, named, m, marked, marks⟩ :=
    w.shows_tree (fun p ↦ ((c.parameterName p).toOption).getD "") t none [] chain l run
  have marks : l.map (·.mark) = m.placeholders.eraseDups := by simpa [List.removeAll] using marks
  have nodup : (c.parameters.map (·.1.id)).Nodup := by
    have once := nodup_eraseDups m.placeholders
    rw [← marks, ← listed, List.map_map] at once
    refine List.Nodup.of_map (fun i ↦ Placeholder.key i.repr) ?_
    rw [List.map_map]
    exact once
  refine ⟨nodup, ⟨mark, hm, names⟩, ?_, fun p name ↦ Command.parameterName_eq_ok nodup,
    fun p ↦ Command.parameterName_eq_error, ?_, ?_⟩
  · rw [names]
    refine List.nodup_range.map fun i j same ↦ ?_
    exact Nat.repr_injective ((String.append_right_inj _).1 same)
  · have given : w.Names (fun p ↦ ((c.parameterName p).toOption).getD "") l := by
      intro p i hi
      obtain ⟨lt, same, -⟩ := List.findIdx?_eq_some_iff_getElem.1 hi
      have mem : (l[i], w.parameterName i) ∈ c.parameters := by
        rw [hc, Command.ofChain]
        exact List.mem_mapIdx.2 ⟨i, lt, rfl⟩
      change ((c.parameterName p).toOption).getD "" = _
      rw [(Command.parameterName_eq_ok nodup).2 ⟨_, mem, by simpa using same, rfl⟩]
      rfl
    refine command_ok.2 ⟨mark, chain, [], hm, named given [], ?_⟩
    rw [hc]
    rfl
  · refine ⟨.ofChain m [], command_ok.2 ⟨mark, m, [], hm, marked [], rfl⟩, rfl, ?_⟩
    rw [Command.ofChain, Chain.placeholders_normalized, ← marks, ← listed, List.map_map]
    rfl

/-- Sum of a parameter and of another or the same one. -/
def parameterSum : Tree :=
  let first : Tree := mk 1 (.parameter ⟨7, "first"⟩)
  let second : Tree := mk 2 (.parameter ⟨3, "second"⟩)
  mk 4 (.binary .plus first (mk 3 (.variant (.named "twice") second first)))

/-- Command of the sum. -/
def parameterSumCommand : Command where
  chain := [.text "@p0 + ", .variant (.named "twice") [.text "@p1"] [.text "@p0"]]
  parameters := [(⟨7, "first"⟩, "@p0"), (⟨3, "second"⟩, "@p1")]

/-- A name is that of the identity whatever the hint, and the identities come as the main chain
of the variant is read before its alternative. -/
theorem command_parameters_of_sum :
    parameterSum.command (Dialect.postgreSql.spelling ⟨9, 0⟩)
        (Dialect.postgreSql.typeNames ⟨9, 0⟩) = .ok parameterSumCommand ∧
      parameterSumCommand.parameterName ⟨3, "other"⟩ = .ok "@p1" ∧
      parameterSumCommand.parameterName ⟨0, "first"⟩ = .error (.parameterNameNotFound "first") ∧
      ∃ m, parameterSum.marked.command (Dialect.postgreSql.spelling ⟨9, 0⟩)
          (Dialect.postgreSql.typeNames ⟨9, 0⟩) = .ok m ∧
        m.chain.placeholders.eraseDups = [.key "7", .key "3"] := by
  have h : parameterSum.command (Dialect.postgreSql.spelling ⟨9, 0⟩)
      (Dialect.postgreSql.typeNames ⟨9, 0⟩) = .ok parameterSumCommand := rfl
  obtain ⟨-, -, -, names, others, -, m, hm, -, order⟩ := command_parameters h
  refine ⟨h, (names _ _).2 ⟨(⟨3, "second"⟩, "@p1"), ?_, rfl, rfl⟩, others _ ?_, m, hm, order⟩
  · simp [parameterSumCommand]
  · simp [parameterSumCommand]

end Tree

end SqlWright
