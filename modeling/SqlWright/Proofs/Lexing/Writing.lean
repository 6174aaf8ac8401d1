import SqlWright.Proofs.Lexing.Chains

/-!
# Nodes that are taken apart alike

A node and the same node with blank names are written alike if their children are: every child is
written where a token may begin, and what follows it begins with a character that no token goes on
with.
-/

namespace SqlWright

variable {α : Type}

namespace Script

open Writing

/-- What is written leads from where a token may begin to outside quoted tokens. -/
abbrev WrittenAlike (l : Lexicon) (s : Settled) (x y : Writing Chain) : Prop :=
  Alike l s .ground .outside x y

/-- What is written goes on after any token and leads to outside quoted tokens. -/
abbrev FollowsAlike (l : Lexicon) (s : Settled) (x y : Writing Chain) : Prop :=
  Alike l s .outside .outside x y

/-- The rules of a script keep tokens apart. -/
structure Lexes (l : Lexicon) (w : Script) : Prop where
  spelling : w.spelling.Lexes l
  types : w.types.Lexes l
  mark : l.Passes .ground .ground w.mark

variable {w : Script} {l : Lexicon} {s : Settled}

/-! ### Names -/

section Names

variable (rules : w.Lexes l)
include rules

theorem alike_identifier (x y : String) :
    WrittenAlike l s (w.identifier x) (w.identifier y) :=
  .lift (rules.spelling.identifier x y) fun _ _ quoted ↦ .pure (.text quoted)

theorem alike_qualified {q q' : Option String} (h : q.isSome = q'.isSome) (name name' : String) :
    WrittenAlike l s (w.qualified q name) (w.qualified q' name') := by
  have both (q q' : String) :
      WrittenAlike l s (w.qualified (some q) name) (w.qualified (some q') name') := by
    have parts : WrittenAlike l s
        (concat [w.identifier q, pure [.text "."], w.identifier name])
        (concat [w.identifier q', pure [.text "."], w.identifier name']) :=
      .cons (alike_identifier rules q q') <| .cons (.text (by rfl)) <|
        .single (alike_identifier rules name name')
    exact parts.congr (by simp [qualified, concat]) (by simp [qualified, concat])
  cases q with
  | none =>
    cases q' with
    | none => exact alike_identifier rules name name'
    | some q' => cases h
  | some q =>
    cases q' with
    | none => cases h
    | some q' => exact both q q'

theorem alike_aliasClause (x y : String) :
    FollowsAlike l s (w.aliasClause x) (w.aliasClause y) := by
  apply Alike.lift_same
  intro text ht
  have opens : Alike l s .outside .ground (pure [.text text]) (pure [.text text]) :=
    .pure (.text (rules.spelling.tableAlias text ht))
  exact opens.append (alike_identifier rules x y)

end Names

theorem alike_separated {separator : List Char} (hs : l.leads .outside separator .ground = true)
    {xs ys : List (Writing Chain)} (h : List.Forall₂ (WrittenAlike l s) xs ys) :
    WrittenAlike l s (separated (String.ofList separator) xs)
      (separated (String.ofList separator) ys) := by
  induction h with
  | nil => exact Alike.none.weaken rfl
  | @cons x y xs ys first rest ih =>
    cases rest with
    | nil => exact first
    | cons second rest =>
      have parts := Alike.cons first (.cons (.text hs) (.single ih))
      exact parts.congr (by simp [separated, concat]) (by simp [separated, concat])

theorem alike_enclosed {before after : List Char} (hb : l.leads .ground before .ground = true)
    (ha : l.leads .outside after .outside = true) {x y : Writing Chain} (h : WrittenAlike l s x y) :
    WrittenAlike l s
      (do return [Piece.text (String.ofList before)] ++ (← x) ++
        [Piece.text (String.ofList after)])
      (do return [Piece.text (String.ofList before)] ++ (← y) ++
        [Piece.text (String.ofList after)]) := by
  have parts := Alike.cons (Alike.text hb) <| .cons h <| .single (.text ha)
  exact parts.congr (by simp [concat]) (by simp [concat])

theorem forall₂_map {γ : Type} {f g : γ → Writing Chain} {cs : List γ}
    (h : ∀ c ∈ cs, WrittenAlike l s (f c) (g c)) :
    List.Forall₂ (WrittenAlike l s) (cs.map f) (cs.map g) := by
  rwa [List.forall₂_map_left_iff, List.forall₂_map_right_iff, List.forall₂_same]

/-! ### Parts -/

section Parts

variable {u : α → Tree} {k k' : Writer α} {a : α} {hint : Option String}

theorem alike_grouped (h : WrittenAlike l s (k a hint) (k' a hint)) :
    WrittenAlike l s (grouped (partOf u k a) hint) (grouped (partOf u k' a) hint) := by
  by_cases binary : (u a).binaryOp?.isSome
  · have written (k : Writer α) : grouped (partOf u k a) hint =
        (do return [Piece.text "("] ++ (← k a hint) ++ [Piece.text ")"]) := by
      simp [grouped, partOf, binary]
    exact (alike_enclosed (by rfl) (by rfl) h).congr (written k) (written k')
  · have written (k : Writer α) : grouped (partOf u k a) hint = k a hint := by
      simp [grouped, partOf, binary]
    exact h.congr (written k) (written k')

theorem alike_operand (parent : BinaryOp) (isRight : Bool)
    (h : WrittenAlike l s (k a hint) (k' a hint)) :
    WrittenAlike l s (operand parent isRight (partOf u k a) hint)
      (operand parent isRight (partOf u k' a) hint) := by
  by_cases separates : (u a).binaryOp?.any fun op ↦ parent.separates op isRight
  · exact (alike_grouped h).congr (if_pos separates) (if_pos separates)
  · exact h.congr (if_neg separates) (if_neg separates)

theorem alike_listed {as : List α} (h : ∀ a ∈ as, WrittenAlike l s (k a hint) (k' a hint)) :
    WrittenAlike l s (listed (as.map (partOf u k)) hint) (listed (as.map (partOf u k')) hint) := by
  have written (k : Writer α) : listed (as.map (partOf u k)) hint =
      separated ", " (as.map fun a ↦ k a hint) := by
    rw [listed, List.map_map]
    rfl
  exact (alike_separated (by rfl) (forall₂_map h)).congr (written k) (written k')

theorem alike_clause {text : List Char} (ht : l.leads .outside text .ground = true) {a? : Option α}
    (h : ∀ a ∈ a?, WrittenAlike l s (k a hint) (k' a hint)) :
    FollowsAlike l s (clause (String.ofList text) (a?.map (partOf u k)) hint)
      (clause (String.ofList text) (a?.map (partOf u k')) hint) := by
  cases a? with
  | none => exact .none
  | some a => exact (Alike.text ht).append (h a rfl)

theorem alike_template {p : Position} {parts : List TemplatePart}
    (h : l.leadsParts p parts = true) {arg arg' : Nat → Writing Chain}
    (each : ∀ i, WrittenAlike l s (arg i) (arg' i)) :
    Alike l s p .outside (template parts arg) (template parts arg') := by
  simp only [template_eq]
  induction parts generalizing p with
  | nil => exact Alike.none.weaken h
  | cons part parts ih =>
    cases part with
    | arg i =>
      rw [Lexicon.leadsParts, Bool.and_eq_true] at h
      exact .cons ((each i).strengthen h.1) (ih h.2)
    | text t =>
      rw [Lexicon.leadsParts] at h
      split at h
      next q led =>
        have leads : l.leads p t.toList q = true := by
          rw [Lexicon.leads, led]
          exact q.isWithin_refl
        have fixed := Alike.text (s := s) leads
        rw [String.ofList_toList] at fixed
        exact .cons fixed (ih h)
      next => cases h

theorem alike_unary (op : UnaryOp) (h : WrittenAlike l s (k a hint) (k' a hint)) :
    WrittenAlike l s (unary op (partOf u k a) hint) (unary op (partOf u k' a) hint) := by
  have operand := alike_grouped (u := u) h
  cases op with
  | negation => exact alike_enclosed (by rfl) (by rfl) h
  | negate => exact alike_enclosed (by rfl) (by rfl) h
  | isNull => exact operand.append (.text (by rfl))
  | isNotNull => exact operand.append (.text (by rfl))
  | existence => exact (Alike.text (by rfl)).append h

theorem alike_nullsPlace (nullsFirst : Option Bool) :
    FollowsAlike l s (w.nullsPlace nullsFirst) (w.nullsPlace nullsFirst) := by
  cases nullsFirst with
  | none => exact .none
  | some first =>
    apply Alike.lift_same
    intro orders _
    cases orders with
    | false => exact .throw _ _
    | true =>
      cases first with
      | true => exact .text (by rfl)
      | false => exact .text (by rfl)

theorem alike_direction (ascending : Bool) :
    FollowsAlike l s (pure (if ascending then [] else [.text " DESC"]))
      (pure (if ascending then [] else [.text " DESC"])) := by
  cases ascending with
  | true => exact .none
  | false => exact .text (by rfl)

theorem alike_ordering {keys : List (SortKey α)}
    (h : ∀ key ∈ keys, WrittenAlike l s (k key.expr hint) (k' key.expr hint)) :
    WrittenAlike l s (w.ordering (keys.map (·.map (partOf u k))) hint)
      (w.ordering (keys.map (·.map (partOf u k'))) hint) := by
  let written (k : Writer α) (key : SortKey α) : Writing Chain := concat [k key.expr hint,
    pure (if key.ascending then [] else [.text " DESC"]), w.nullsPlace key.nullsFirst]
  have each (key : SortKey α) (mem : key ∈ keys) :
      WrittenAlike l s (written k key) (written k' key) :=
    .cons (h key mem) <| .cons (alike_direction key.ascending) <|
      .single (alike_nullsPlace key.nullsFirst)
  have ordered (k : Writer α) : w.ordering (keys.map (·.map (partOf u k))) hint =
      separated ", " (keys.map (written k)) := by
    simp [ordering, written, Function.comp_def, SortKey.map, partOf, concat]
  exact (alike_separated (by rfl) (forall₂_map each)).congr (ordered k) (ordered k')

theorem alike_rowNumber {keys : List (SortKey α)}
    (h : ∀ key ∈ keys, WrittenAlike l s (k key.expr hint) (k' key.expr hint)) :
    WrittenAlike l s (w.rowNumber (keys.map (·.map (partOf u k))) hint)
      (w.rowNumber (keys.map (·.map (partOf u k'))) hint) := by
  apply Alike.lift_same
  intro numbers _
  cases numbers with
  | false => exact .throw _ _
  | true =>
    have opens : Alike l s .ground .ground (pure [.text "ROW_NUMBER() OVER ("])
        (pure [.text "ROW_NUMBER() OVER ("]) := .text (by rfl)
    by_cases unordered : keys.isEmpty
    · have closed : WrittenAlike l s (pure [.text "ROW_NUMBER() OVER (", .text ")"])
          (pure [.text "ROW_NUMBER() OVER (", .text ")"]) :=
        opens.append (.text (by rfl))
      exact closed.congr (by simp [unordered]) (by simp [unordered])
    · have parts : WrittenAlike l s
          (concat [pure [.text "ROW_NUMBER() OVER ("], pure [.text "ORDER BY "],
            w.ordering (keys.map (·.map (partOf u k))) hint, pure [.text ")"]])
          (concat [pure [.text "ROW_NUMBER() OVER ("], pure [.text "ORDER BY "],
            w.ordering (keys.map (·.map (partOf u k'))) hint, pure [.text ")"]]) :=
        .cons opens <| .cons (.text (by rfl)) <| .cons (alike_ordering h) <|
          .single (.text (by rfl))
      exact parts.congr (by simp [unordered, concat]) (by simp [unordered, concat])

/-! ### Parts beside names -/

variable (rules : w.Lexes l)
include rules

theorem alike_outputColumn (label : Option String) (h : WrittenAlike l s (k a none) (k' a none)) :
    WrittenAlike l s (w.outputColumn ⟨partOf u k a, label⟩)
      (w.outputColumn ⟨partOf u k' a, label.map fun _ ↦ ""⟩) := by
  cases label with
  | none =>
    have written (k : Writer α) : w.outputColumn ⟨partOf u k a, none⟩ = k a none := by
      simp [outputColumn, partOf]
    exact h.congr (written k) (written k')
  | some name =>
    have written (k : Writer α) (name : String) : w.outputColumn ⟨partOf u k a, some name⟩ =
        concat [k a none, pure [.text " AS "], w.identifier name] := by
      simp [outputColumn, partOf, concat]
    have parts : WrittenAlike l s (concat [k a none, pure [.text " AS "], w.identifier name])
        (concat [k' a none, pure [.text " AS "], w.identifier ""]) :=
      .cons h <| .cons (.text (by rfl)) <| .single (alike_identifier rules name "")
    exact parts.congr (written k name) (written k' "")

theorem alike_source {a? : Option α} (h : ∀ a ∈ a?, WrittenAlike l s (k a hint) (k' a hint)) :
    FollowsAlike l s (w.source (a?.map (partOf u k)) hint)
      (w.source (a?.map (partOf u k')) hint) := by
  cases a? with
  | some a => exact (Alike.text (by rfl)).append (h a rfl)
  | none =>
    apply Alike.lift_same
    intro fromless hf
    cases fromless with
    | omitted => exact .none
    | table name =>
      have clause : l.Matches .outside .outside (" FROM " ++ name) (" FROM " ++ name) :=
        (Lexicon.matches_of_leads (by rfl)).append (rules.spelling.fromless name hf)
      exact .pure (.text clause)

theorem alike_assignment (name name' : String) (h : WrittenAlike l s (k a hint) (k' a hint)) :
    WrittenAlike l s (w.assignment (name, partOf u k a) hint)
      (w.assignment (name', partOf u k' a) hint) := by
  have written (k : Writer α) (name : String) : w.assignment (name, partOf u k a) hint =
      concat [w.identifier name, pure [.text " = "], k a hint] := by
    simp [assignment, partOf, concat]
  have parts : WrittenAlike l s (concat [w.identifier name, pure [.text " = "], k a hint])
      (concat [w.identifier name', pure [.text " = "], k' a hint]) :=
    .cons (alike_identifier rules name name') <| .cons (.text (by rfl)) <| .single h
  exact parts.congr (written k name) (written k' name')

end Parts

/-! ### Indexes -/

section Indexes

variable (rules : w.Lexes l)
include rules

theorem alike_fillClause (index : Index) :
    FollowsAlike l s (w.fillClause index) (w.fillClause index) := by
  unfold fillClause
  cases index.fillFactor with
  | none => exact .none
  | some percent =>
    apply Alike.lift_same
    intro clause hc
    cases clause with
    | none => exact .none
    | some text => exact .pure (.text (rules.spelling.fillFactor percent text hc))

theorem alike_createIndex (index : Index) :
    WrittenAlike l s (w.createIndex index) (w.createIndex index.blanked) := by
  have column (c : IndexColumn) :
      WrittenAlike l s (w.indexColumn c) (w.indexColumn ⟨"", c.ascending⟩) :=
    (alike_identifier rules c.name "").append (alike_direction c.ascending)
  have columns : WrittenAlike l s (separated ", " (index.columns.map w.indexColumn))
      (separated ", " (index.blanked.columns.map w.indexColumn)) := by
    rw [Index.blanked, List.map_map]
    exact alike_separated (by rfl) (forall₂_map fun c _ ↦ column c)
  have head : Alike l s .ground .ground
      (pure [.text (if index.unique then "CREATE UNIQUE INDEX " else "CREATE INDEX ")])
      (pure [.text (if index.unique then "CREATE UNIQUE INDEX " else "CREATE INDEX ")]) := by
    split
    · exact .text (by rfl)
    · exact .text (by rfl)
  have table : WrittenAlike l s (w.qualified index.tableSchema index.tableName)
      (w.qualified index.blanked.tableSchema index.blanked.tableName) :=
    alike_qualified rules (Option.isSome_map.symm) index.tableName ""
  rw [createIndex_eq, createIndex_eq]
  exact .cons head <| .cons (alike_identifier rules index.name "") <| .cons (.text (by rfl)) <|
    .cons table <| .cons (.text (by rfl)) <| .cons columns <| .cons (.text (by rfl)) <|
    .single (alike_fillClause rules index)

end Indexes

end Script

end SqlWright
