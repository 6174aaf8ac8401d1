import SqlWright.Proofs.Lexing.SilentLayers

/-!
# Statements without comments

A dash comes from a literal, a negation, an operator or a template, and what stands beside it from
elsewhere. Still no two dashes meet, nor a slash and a star: each text that a statement is put
together from is silent, and so is what is put together from silent texts. Only texts of the user,
which are written as they are, may hold comments.
-/

namespace SqlWright

variable {α : Type}

/-- The node is written in texts of the spelling only, and leaves none to an execution but which of
two branches is taken. -/
def Node.IsBare : Node α → Prop
  | .native _ | .variable _ | .placeholder _ | .dynamicFilter _ _ _ => False
  | _ => True

/-- Every execution gives the chain a text, and a silent one. -/
def Chain.Silent (l : Lexicon) (c : Chain) : Prop :=
  ∀ s : Settled, ∃ text, s.renderChain c = .ok text ∧ l.Silent text.toList

namespace Chain.Silent

variable {l : Lexicon} {c d : Chain}

theorem nil : Silent l [] := fun _ ↦ ⟨"", rfl, .nil⟩

theorem text {text : String} (h : l.Silent text.toList) : Silent l [.text text] :=
  fun _ ↦ ⟨text, Settled.renderChain_single rfl, h⟩

theorem append (hc : Silent l c) (hd : Silent l d) : Silent l (c ++ d) := by
  intro s
  obtain ⟨x, hx, silent⟩ := hc s
  obtain ⟨y, hy, silent'⟩ := hd s
  refine ⟨x ++ y, Settled.renderChain_append hx hy, ?_⟩
  rw [String.toList_append]
  exact silent.append silent'

/-- Whichever branch an execution takes, its text is silent. -/
theorem «variant» (key : VariantKey) (hc : Silent l c) (hd : Silent l d) :
    Silent l [.variant key c.normalized d.normalized] := by
  intro s
  obtain ⟨x, hx, silent⟩ := hc s
  obtain ⟨y, hy, silent'⟩ := hd s
  by_cases chosen : s.bindings.isAlternative key
  · refine ⟨y, Settled.renderChain_single ?_, silent'⟩
    simp only [Settled.renderPiece, if_pos chosen]
    exact Settled.renderChain_normalized hy
  · refine ⟨x, Settled.renderChain_single ?_, silent⟩
    simp only [Settled.renderPiece, if_neg chosen]
    exact Settled.renderChain_normalized hx

end Chain.Silent

namespace Script

open Lexicon Writing

/-- Every text that a script is written in is silent. -/
structure Silent (w : Script) (l : Lexicon) : Prop where
  spelling : w.spelling.Silent l
  types : w.types.Silent l
  mark : l.Silent w.mark.toList

/-- The hint, if there is one, is silent. -/
def HintSilent (l : Lexicon) (hint : Option String) : Prop := l.Silent (hint.getD "").toList

variable {w : Script} {l : Lexicon} {n : Node α} {hint : Option String}

theorem silent_of_isPhrase {s : String} (h : isPhrase s = true) : l.Silent s.toList := by
  refine silent_of_isMild (List.all_eq_true.2 fun c hc ↦ ?_)
  have phrase := List.all_eq_true.1 h c hc
  simp only [isMild, List.all_cons, List.all_nil, Bool.and_true, Bool.and_eq_true, bne_iff_ne]
  refine ⟨?_, ?_, ?_, ?_, ?_, ?_⟩ <;> rintro rfl <;> exact absurd phrase (by decide)

/-- The texts around the children of a node are silent, unless they are texts of the user. -/
theorem Wording.silent (rules : w.Silent l) (bare : n.IsBare) (hinted : HintSilent l hint)
    {s : String} (h : w.Wording n hint s) : l.Silent s.toList := by
  cases h with
  | phrase h => exact silent_of_isPhrase h
  | minus => exact silent_of_isSteady rfl
  | identifier h => exact rules.spelling.identifier _ _ h
  | tableAlias h => exact rules.spelling.tableAlias _ h
  | literal h => exact rules.spelling.literal _ _ h
  | «variable» h =>
    subst h
    exact bare.elim
  | native h =>
    subst h
    exact bare.elim
  | function ht hs => exact silent_of_mem_parts (rules.spelling.function _ _ ht) hs
  | operator ht hs => exact silent_of_mem_parts (rules.spelling.operator _ _ ht) hs
  | aggregate h =>
    rw [String.toList_append]
    exact .append (rules.spelling.aggregate _ _ h) (silent_of_mild rfl)
  | cast h =>
    rw [String.toList_append, String.toList_append]
    exact .append (.append (silent_of_mild rfl) (rules.types _ _ h)) (silent_of_mild rfl)
  | fromless h =>
    rw [String.toList_append]
    exact .append (silent_of_mild rfl) (rules.spelling.fromless _ h)
  | offsetOrdering h => exact rules.spelling.offsetOrdering _ h
  | fillFactor h => exact rules.spelling.fillFactor _ _ h
  | lock h =>
    have silent := rules.spelling.lock _ _ h
    exact silent
  | hint => exact hinted

theorem HandsDown.silent (rules : w.Silent l) (hinted : HintSilent l hint) {given : Option String}
    (h : w.HandsDown hint given) : HintSilent l given := by
  cases h with
  | none => exact .nil
  | same => exact hinted
  | lock h =>
    have silent := rules.spelling.lock _ _ h
    exact silent

theorem silent_parameter (rules : w.Silent l) {p : Parameter} {named : List Parameter}
    {r : Chain × List Parameter} (run : w.parameter p named = .ok r) : r.1.Silent l := by
  have name (i : Nat) : l.Silent (w.parameterName i).toList := by
    rw [parameterName, String.toList_append, String.toList_append]
    exact .append (.append rules.mark (silent_of_mild rfl)) (silent_of_isMild (repr_isMild i))
  unfold parameter at run
  split at run
  · cases run
    exact .text (name _)
  · cases run
    exact .text (name _)

/-- An item is silent if the children of its node are. -/
theorem silent_writeItem {n : Node Tree} (rules : w.Silent l) (bare : n.IsBare)
    (hinted : HintSilent l hint)
    (h : ∀ a ∈ n.children, ∀ given, HintSilent l given → ∀ named r,
      w.tree a given named = .ok r → r.1.Silent l)
    {i : Item Tree} (isOf : i.IsOf n) (offered : w.Offers n hint i) {named : List Parameter}
    {r : Chain × List Parameter} (run : w.writeItem w.tree i named = .ok r) : r.1.Silent l := by
  cases i with
  | text s =>
    cases run
    exact .text (offered.silent rules bare hinted)
  | part a given => exact h a isOf given (offered.silent rules hinted) named r run
  | parameter p => exact silent_parameter rules run
  | placeholder id =>
    have same : n = .placeholder id := isOf
    subst same
    exact bare.elim
  | «variant» key main alternative given =>
    have same : n = .variant key main alternative := isOf
    subst same
    obtain ⟨c, named₁, hc, run⟩ := bind_ok.1 run
    obtain ⟨d, named₂, hd, ⟨⟩⟩ := bind_ok.1 run
    have inner := HandsDown.silent rules hinted offered
    exact .variant key (h main (by simp [Node.children]) given inner _ _ hc)
      (h alternative (by simp [Node.children]) given inner _ _ hd)
  | dynamicFilter id expressions given =>
    obtain ⟨first, others, rfl, -⟩ := isOf
    exact bare.elim

theorem silent_writeItems {n : Node Tree} (rules : w.Silent l) (bare : n.IsBare)
    (hinted : HintSilent l hint)
    (h : ∀ a ∈ n.children, ∀ given, HintSilent l given → ∀ named r,
      w.tree a given named = .ok r → r.1.Silent l)
    {items : List (Item Tree)} (hi : ∀ i ∈ items, i.IsOf n ∧ w.Offers n hint i)
    {named : List Parameter} {r : Chain × List Parameter}
    (run : w.writeItems w.tree items named = .ok r) : r.1.Silent l := by
  induction items generalizing named r with
  | nil =>
    cases run
    exact .nil
  | cons i items ih =>
    rw [List.forall_mem_cons] at hi
    obtain ⟨c, named₁, d, hc, hd, joined⟩ := concat_ok.1 run
    rw [joined]
    exact (silent_writeItem rules bare hinted h hi.1.1 hi.1.2 hc).append (ih hi.2 hd)

/-- A statement without texts of the user is silent: each of its nodes is if the children are. -/
theorem silent_tree (rules : w.Silent l) {t : Tree} (bare : t.Everywhere Node.IsBare)
    (hinted : HintSilent l hint) {named : List Parameter} {r : Chain × List Parameter}
    (run : w.tree t hint named = .ok r) : r.1.Silent l := by
  induction t using Tree.induction_children generalizing hint named r with
  | h i n ih =>
    obtain ⟨root, below⟩ := bare
    obtain ⟨items?, offered, written⟩ := itemizes_node (w := w) (n := n) id hint
    rw [tree_mk] at run
    obtain ⟨items, mem, run⟩ := (written w.tree named r).1 run
    exact silent_writeItems rules root hinted
      (fun a ha given silent named r run ↦ ih a ha (below a ha) silent run) (offered items mem).1 run

end Script

namespace Tree

/-- Every execution has a text of a command without texts of the user, and no comment begins in it
outside quoted identifiers and strings. -/
theorem text_uncommented {d : Dialect} {v : Version} {t : Tree} {c : Command}
    (bare : t.Everywhere Node.IsBare)
    (h : t.command (d.spelling v) (d.typeNames v) = .ok c) (b : Bindings) :
    ∃ text, c.text b = .ok text ∧
      ¬(d.lexicon v).Shows "--" text ∧ ¬(d.lexicon v).Shows "/*" text := by
  obtain ⟨mark, chain, parameters, hm, run, rfl⟩ := command_ok.1 h
  have rules : Script.Silent ⟨d.spelling v, d.typeNames v, mark⟩ (d.lexicon v) :=
    ⟨d.spelling_silent v, d.typeNames_silent v, (d.spelling_silent v).mark mark hm⟩
  have hinted : Script.HintSilent (d.lexicon v) none := .nil
  obtain ⟨text, rendered, silent⟩ := Script.silent_tree rules bare hinted run ⟨b, []⟩
  refine ⟨text, Command.text_ofChain rendered _, ?_, ?_⟩
  · exact silent.not_shows '-' '-' rfl rfl
  · exact silent.not_shows '/' '*' rfl rfl

/-- A number below zero, negated twice and taken from a column whose name has dashes. -/
def negations : Tree :=
  mk 0 (.binary .minus (mk 0 (.column none "--"))
    (mk 0 (.unary .negate (mk 0 (.unary .negate (mk 0 (.literal (.integer (-1)))))))))

/-- No two of the dashes meet but those in quotes. -/
theorem negations_uncommented : negations.Everywhere Node.IsBare ∧
    ∃ c, negations.command (Dialect.postgreSql.spelling ⟨9, 0⟩)
        (Dialect.postgreSql.typeNames ⟨9, 0⟩) = .ok c ∧
      c.text {} = .ok "\"--\" - -(-(-1))" ∧
      ∃ text, c.text {} = .ok text ∧ ¬(Dialect.postgreSql.lexicon ⟨9, 0⟩).Shows "--" text ∧
        ¬(Dialect.postgreSql.lexicon ⟨9, 0⟩).Shows "/*" text := by
  have bare : negations.Everywhere Node.IsBare := by
    simp [negations, everywhere_mk, Node.children, Node.IsBare]
  exact ⟨bare, _, rfl, rfl, text_uncommented bare rfl {}⟩

end Tree

end SqlWright
