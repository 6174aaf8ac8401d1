import SqlWright.Proofs.Command.ItemizedNodes
import SqlWright.Proofs.Command.Settling
import SqlWright.Proofs.Operators.BracketRules

/-!
# Parts that close their brackets

The parts of a statement close the brackets that they open if those below them do. A part that is
written in brackets, or in brackets behind a name, is an operand.
-/

namespace SqlWright
namespace Script

open Writing WordMode

/-- The rules of a script close their brackets. -/
structure Closes (l : Lexicon) (w : Script) : Prop where
  spelling : w.spelling.Closes l
  types : ∀ type name, w.types.find type = .ok name → l.IsWhole name
  mark : l.Spans operandAfter? .ground 0 .ground 1 w.mark

/-- The script of a version closes its brackets. -/
theorem closes (d : Dialect) (v : Version) {mark : String}
    (h : (d.spelling v).parameterMark = .ok mark) :
    Closes (d.lexicon v) ⟨d.spelling v, d.typeNames v, mark⟩ :=
  ⟨d.spelling_closes v, fun _ _ ↦ d.isWhole_typeName v, (d.spelling_closes v).mark mark h⟩

/-- The hint, if there is one, goes on after any token and closes its brackets. -/
def HintGoesOn (l : Lexicon) (hint : Option String) : Prop := l.GoesOn (hint.getD "")

theorem hintGoesOn_none {l : Lexicon} : HintGoesOn l none := Lexicon.Spans.empty

variable {w : Script} {l : Lexicon} {s : Settled} {c : Part} {cs : List Part} {c? : Option Part}
  {hint : Option String} {x : Writing Chain}

/-! ### Brackets and separators -/

/-- What is whole is an operand in parentheses. -/
theorem isOperand_parenthesized (h : IsWhole l s x) :
    IsOperand l s (do return [Piece.text "("] ++ (← x) ++ [Piece.text ")"]) := by
  have parts : IsOperand l s (concat [pure [.text "("], x, pure [.text ")"]]) :=
    .cons (.text (q := .ground) (k := 2) rfl) <| .cons h.enclosed <| .single (.text rfl)
  exact parts.congr (by simp [concat])

theorem isWhole_grouped (h : IsWhole l s (c.2 hint)) : IsWhole l s (grouped c hint) := by
  by_cases binary : c.1.binaryOp?.isSome
  · exact (isOperand_parenthesized h).of_operand.congr (if_pos binary)
  · exact h.congr (if_neg binary)

theorem isWhole_operand (parent : BinaryOp) (isRight : Bool) (h : IsWhole l s (c.2 hint)) :
    IsWhole l s (operand parent isRight c hint) := by
  by_cases separates : c.1.binaryOp?.any fun op ↦ parent.separates op isRight
  · exact (isWhole_grouped h).congr (if_pos separates)
  · exact h.congr (if_neg separates)

theorem isWhole_separated {separator : List Char}
    (hs : l.spans depthAfter? .outside 0 separator .ground 0 = true) {xs : List (Writing Chain)}
    (h : ∀ x ∈ xs, IsWhole l s x) : IsWhole l s (separated (String.ofList separator) xs) := by
  induction xs with
  | nil => exact Spans.none.weaken rfl
  | cons x xs ih =>
    rw [List.forall_mem_cons] at h
    cases xs with
    | nil => exact h.1
    | cons y xs =>
      have parts := Spans.cons h.1 <| .cons (.text hs) <| .single (ih h.2)
      exact parts.congr (by simp [separated, concat])

theorem isWhole_listed (h : ∀ c ∈ cs, IsWhole l s (c.2 hint)) : IsWhole l s (listed cs hint) :=
  isWhole_separated rfl (List.forall_mem_map.2 h)

theorem goesOn_clause {text : List Char}
    (ht : l.spans depthAfter? .outside 0 text .ground 0 = true)
    (h : ∀ c ∈ c?, IsWhole l s (c.2 hint)) :
    GoesOn l s (clause (String.ofList text) c? hint) := by
  cases c? with
  | none => exact .none
  | some c => exact (Spans.text ht).append (h c rfl)

/-! ### Names -/

section Names

variable (rules : w.Closes l)
include rules

theorem isOperand_identifier (name : String) : IsOperand l s (w.identifier name) :=
  .lift fun _ ht ↦ .pure_text (rules.spelling.identifier name _ ht)

theorem isOperand_qualified (qualifier : Option String) (name : String) :
    IsOperand l s (w.qualified qualifier name) := by
  have last := isOperand_identifier (s := s) rules name
  cases qualifier with
  | none => exact last
  | some q =>
    have parts : IsOperand l s (concat [w.identifier q, pure [.text "."], w.identifier name]) :=
      .cons (isOperand_identifier rules q) <| .cons (.text (q := .ground) (k := 1) rfl) <|
        .single last.again
    exact parts.congr (by simp [qualified, concat])

theorem goesOn_aliasClause (name : String) : GoesOn l s (w.aliasClause name) := by
  refine .lift fun text ht ↦ ?_
  have opens : Spans l s depthAfter? .outside 0 .ground 0 (pure [.text text]) :=
    .pure_text (rules.spelling.tableAlias text ht)
  exact opens.append (isOperand_identifier rules name).of_operand

theorem isWhole_outputColumn {c : OutputColumn Part} (h : IsWhole l s (c.expr.2 none)) :
    IsWhole l s (w.outputColumn c) := by
  obtain ⟨expr, label⟩ := c
  cases label with
  | none => exact h.congr (by simp [outputColumn])
  | some name =>
    have parts : IsWhole l s (concat [expr.2 none, pure [.text " AS "], w.identifier name]) :=
      .cons h <| .cons (.text (q := .ground) (k := 0) rfl) <|
        .single (isOperand_identifier rules name).of_operand
    exact parts.congr (by simp [outputColumn, concat])

theorem goesOn_source (h : ∀ c ∈ c?, IsWhole l s (c.2 hint)) :
    GoesOn l s (w.source c? hint) := by
  cases c? with
  | some c => exact (Spans.text rfl).append (h c rfl)
  | none =>
    refine .lift fun fromless hf ↦ ?_
    cases fromless with
    | omitted => exact .none
    | table name =>
      have from' : l.Spans depthAfter? .outside 0 .ground 0 " FROM " := Lexicon.spans_text rfl
      exact .pure_text (from'.append ((rules.spelling.fromless name hf).spans 0))

theorem isWhole_assignment {a : String × Part} (h : IsWhole l s (a.2.2 hint)) :
    IsWhole l s (w.assignment a hint) := by
  have parts : IsWhole l s (concat [w.identifier a.1, pure [.text " = "], a.2.2 hint]) :=
    .cons (isOperand_identifier rules a.1).of_operand <|
      .cons (.text (q := .ground) (k := 0) rfl) <| .single h
  exact parts.congr (by simp [assignment, concat])

end Names

/-! ### Orderings -/

theorem goesOn_nullsPlace (nullsFirst : Option Bool) : GoesOn l s (w.nullsPlace nullsFirst) := by
  cases nullsFirst with
  | none => exact .none
  | some first =>
    refine .lift fun orders _ ↦ ?_
    cases orders with
    | false => exact .throw _
    | true =>
      cases first with
      | true => exact .text rfl
      | false => exact .text rfl

theorem goesOn_direction (ascending : Bool) :
    GoesOn l s (pure (if ascending then [] else [.text " DESC"])) := by
  cases ascending with
  | true => exact .none
  | false => exact .text rfl

theorem isWhole_ordering {keys : List (SortKey Part)}
    (h : ∀ key ∈ keys, IsWhole l s (key.expr.2 hint)) : IsWhole l s (w.ordering keys hint) := by
  refine isWhole_separated rfl (List.forall_mem_map.2 fun key hk ↦ ?_)
  have parts := Spans.cons (h key hk) <| .cons (goesOn_direction key.ascending) <|
    .single (goesOn_nullsPlace (w := w) key.nullsFirst)
  exact parts.congr (by simp [concat])

/-- The number of a row is an operand. -/
theorem isOperand_rowNumber {keys : List (SortKey Part)}
    (h : ∀ key ∈ keys, IsWhole l s (key.expr.2 hint)) : IsOperand l s (w.rowNumber keys hint) := by
  refine .lift fun numbers _ ↦ ?_
  cases numbers with
  | false => exact .throw _
  | true =>
    by_cases unordered : keys.isEmpty
    · have parts : IsOperand l s (concat [pure [.text "ROW_NUMBER() OVER ("], pure [.text ")"]]) :=
        .cons (.text (q := .ground) (k := 2) rfl) <| .single (.text rfl)
      exact parts.congr (by simp [unordered, concat])
    · have parts : IsOperand l s (concat [pure [.text "ROW_NUMBER() OVER ("],
          pure [.text "ORDER BY "], w.ordering keys hint, pure [.text ")"]]) :=
        .cons (.text (q := .ground) (k := 2) rfl) <| .cons (.text (q := .ground) (k := 2) rfl) <|
          .cons (isWhole_ordering h).enclosed <| .single (.text rfl)
      exact parts.congr (by simp [unordered, concat])

/-! ### Indexes -/

section Indexes

variable (rules : w.Closes l)
include rules

theorem goesOn_fillClause (index : Index) : GoesOn l s (w.fillClause index) := by
  unfold fillClause
  cases index.fillFactor with
  | none => exact .none
  | some percent =>
    refine .lift fun clause hc ↦ ?_
    cases clause with
    | none => exact .none
    | some text => exact .pure_text (rules.spelling.fillFactor percent text hc)

theorem isWhole_createIndex (index : Index) : IsWhole l s (w.createIndex index) := by
  have column (c : IndexColumn) : IsWhole l s (w.indexColumn c) :=
    (isOperand_identifier rules c.name).of_operand.append (goesOn_direction c.ascending)
  have columns : IsWhole l s (separated ", " (index.columns.map w.indexColumn)) :=
    isWhole_separated rfl (List.forall_mem_map.2 fun c _ ↦ column c)
  have head : Spans l s depthAfter? .ground 0 .ground 0
      (pure [.text (if index.unique then "CREATE UNIQUE INDEX " else "CREATE INDEX ")]) := by
    split
    · exact .text rfl
    · exact .text rfl
  rw [createIndex_eq]
  exact .cons head <| .cons (isOperand_identifier rules index.name).of_operand <|
    .cons (.text (q := .ground) (k := 0) rfl) <|
    .cons (isOperand_qualified rules index.tableSchema index.tableName).of_operand <|
    .cons (.text (q := .ground) (k := 1) rfl) <| .cons (columns.within 1) <|
    .cons (.text (q := .outside) (k := 0) rfl) <| .single (goesOn_fillClause rules index)

end Indexes

end Script
end SqlWright
