import SqlWright.Proofs.Command.Rewriting
import SqlWright.Proofs.Spelling.Following

/-!
# Spellings that cover others

A script covers another one if its rules meet a demand wherever the other's are used. Then it
writes every statement as the other one does: a lemma for each construct, and by induction one for
trees (`Script.Covers.copies_tree`). Where the texts may differ, two rules may change more than
their words. Rows limited by TOP or not at all may be limited by OFFSET and FETCH, and a template
may write more arguments, which have to be writable then.
-/

namespace SqlWright

variable {α β : Type}

namespace Script

open Writing

/-- Rules of a second script meet a demand wherever those of the first are used. Arguments that
only the second one writes are among those after the third of a date, if there are `surplus`
ones at all. -/
structure Covers (q : Demand) (surplus : Prop) (w w' : Script) : Prop where
  mark : q.Matches w.mark w'.mark
  identifier (name : String) :
    q.Meets q.Matches (w.spelling.quoteIdentifier name) (w'.spelling.quoteIdentifier name)
  literal (value : Literal) :
    q.Meets q.Matches (w.spelling.literal value) (w'.spelling.literal value)
  function (f : ScalarFunction) :
    q.Meets (fun t t' ↦ t' = t ∨ ¬q.same ∧ (∀ rule, q.lacks rule) ∧ ∀ arity i,
      .arg i ∈ t'.parts arity → .arg i ∈ t.parts arity ∨
        surplus ∧ f = .dateTimeConstruct ∧ 3 ≤ i)
      (w.spelling.functionTemplate f) (w'.spelling.functionTemplate f)
  aggregate (kind : AggregateKind) :
    q.Meets q.Matches (w.spelling.aggregate kind) (w'.spelling.aggregate kind)
  operator (op : BinaryOp) :
    q.Meets (fun t t' ↦ t' = t) (w.spelling.operatorTemplate op) (w'.spelling.operatorTemplate op)
  tableAlias : q.Meets q.Matches w.spelling.tableAlias w'.spelling.tableAlias
  fromless : q.Meets q.Matches w.spelling.fromless w'.spelling.fromless
  fillFactor (percent : UInt8) :
    q.Meets q.Matches (w.spelling.fillFactor percent) (w'.spelling.fillFactor percent)
  offsetOrdering : q.Meets q.Matches w.spelling.offsetOrdering w'.spelling.offsetOrdering
  nullsOrdering :
    q.Meets (fun b b' ↦ b = true → b' = true) w.spelling.nullsOrdering w'.spelling.nullsOrdering
  windowFunctions :
    q.Meets (fun b b' ↦ b = true → b' = true) w.spelling.windowFunctions w'.spelling.windowFunctions
  paging :
    q.Meets (fun p p' ↦ p' = p ∨ ¬q.same ∧ (∀ rule, q.lacks rule) ∧
      (p = .top ∨ p = .unsupported) ∧ p' = .offsetFetch ∧
      ∃ text, w'.spelling.offsetOrdering = .ok text) w.spelling.paging w'.spelling.paging
  lock (l : Lock) : q.Meets (fun c c' ↦ c' = c) (w.spelling.lock l) (w'.spelling.lock l)
  type (type : SqlType) : q.Meets q.Matches (w.types.find type) (w'.types.find type)

variable {q : Demand} {surplus : Prop} {w w' : Script}

namespace Covers

/-! ### Names -/

section Names

variable (h : Covers q surplus w w')
include h

theorem copies_identifier (name : String) : q.Copies (w.identifier name) (w'.identifier name) :=
  (Demand.Follows.lift (h.identifier name)).bind fun _ _ quoted ↦ .text quoted

theorem copies_qualified (qualifier : Option String) (name : String) :
    q.Copies (w.qualified qualifier name) (w'.qualified qualifier name) := by
  cases qualifier with
  | none => exact h.copies_identifier name
  | some outer =>
    exact (h.copies_identifier outer).bind fun _ _ before ↦
      (h.copies_identifier name).bind fun _ _ after ↦
      .pure ((before.append (.refl [.text "."])).append after)

theorem copies_aliasClause (name : String) :
    q.Copies (w.aliasClause name) (w'.aliasClause name) :=
  (Demand.Follows.lift h.tableAlias).bind fun _ _ opens ↦
    (h.copies_identifier name).bind fun _ _ quoted ↦
    .pure ((opens.map fun s ↦ [Piece.text s]).append quoted)

theorem copies_parameter (p : Parameter) : q.Copies (w.parameter p) (w'.parameter p) := by
  have name (i : Nat) : q.Matches (w.parameterName i) (w'.parameterName i) :=
    h.mark.map fun mark ↦ mark ++ "p" ++ i.repr
  intro named named' same
  have result (i j : Nat) (l l' : List Parameter) (hi : q.Matches i j) (hl : q.Matches l l') :
      q.Meets (fun r r' ↦ q.Matches r.1 r'.1 ∧ q.Matches r.2 r'.2)
        (.ok ([Piece.text (w.parameterName i)], l))
        (.ok ([Piece.text (w'.parameterName j)], l')) := by
    refine .pure ⟨fun equal ↦ ?_, hl⟩
    rw [hi equal, name i equal]
  unfold parameter
  cases hf : named.findIdx? (·.id == p.id) with
  | none =>
    cases hf' : named'.findIdx? (·.id == p.id) with
    | none => exact result _ _ _ _ (same.map List.length) (same.map (· ++ [p]))
    | some j =>
      refine result _ _ _ _ ?_ ?_ <;>
      · intro equal
        rw [same equal, hf] at hf'
        cases hf'
  | some i =>
    cases hf' : named'.findIdx? (·.id == p.id) with
    | none =>
      refine result _ _ _ _ ?_ ?_ <;>
      · intro equal
        rw [same equal, hf] at hf'
        cases hf'
    | some j =>
      refine result _ _ _ _ (fun equal ↦ ?_) same
      rw [same equal, hf] at hf'
      exact (Option.some.inj hf').symm

end Names

/-! ### Parts -/

/-- Chain of the words that stand for a row source. -/
def fromlessChain : Fromless → Chain
  | .table name => [.text (" FROM " ++ name)]
  | .omitted => []

theorem source_none {w : Script} (hint : Option String) :
    w.source none hint = do return fromlessChain (← w.spelling.fromless) := by
  refine bind_congr fun fromless ↦ ?_
  cases fromless with
  | table name => rfl
  | omitted => rfl

section Parts

variable {u : α → Tree} {k k' : Writer α} {a : α} {hint hint' : Option String}

omit u k k' in
theorem copies_enclosed (before after : String) {m m' : Writing Chain} (h : q.Copies m m') :
    q.Copies (do return [Piece.text before] ++ (← m) ++ [Piece.text after])
      (do return [Piece.text before] ++ (← m') ++ [Piece.text after]) :=
  h.bind fun _ _ inner ↦ .pure (((Demand.Matches.refl _).append inner).append (.refl _))

theorem copies_grouped (h : q.Copies (k a hint) (k' a hint')) :
    q.Copies (grouped (partOf u k a) hint) (grouped (partOf u k' a) hint') := by
  by_cases binary : (u a).binaryOp?.isSome
  · have written (k : Writer α) (hint : Option String) : grouped (partOf u k a) hint =
        (do return [Piece.text "("] ++ (← k a hint) ++ [Piece.text ")"]) := if_pos binary
    exact (copies_enclosed "(" ")" h).congr (written k hint) (written k' hint')
  · have written (k : Writer α) (hint : Option String) : grouped (partOf u k a) hint = k a hint :=
      if_neg binary
    exact Demand.Follows.congr h (written k hint) (written k' hint')

theorem copies_operand (parent : BinaryOp) (isRight : Bool)
    (h : q.Copies (k a hint) (k' a hint')) :
    q.Copies (operand parent isRight (partOf u k a) hint)
      (operand parent isRight (partOf u k' a) hint') := by
  by_cases separates : (u a).binaryOp?.any fun op ↦ parent.separates op isRight
  · exact (copies_grouped h).congr (if_pos separates) (if_pos separates)
  · exact Demand.Follows.congr h (if_neg separates) (if_neg separates)

theorem copies_listed {as : List α} (h : ∀ a ∈ as, q.Copies (k a hint) (k' a hint')) :
    q.Copies (listed (as.map (partOf u k)) hint) (listed (as.map (partOf u k')) hint') := by
  have written (k : Writer α) (hint : Option String) : listed (as.map (partOf u k)) hint =
      separated ", " (as.map fun a ↦ k a hint) := by
    rw [listed, List.map_map]
    rfl
  exact (Demand.Copies.separated_map ", " h).congr (written k hint) (written k' hint')

theorem copies_clause (text : String) {a? : Option α}
    (h : ∀ a ∈ a?, q.Copies (k a hint) (k' a hint')) :
    q.Copies (clause text (a?.map (partOf u k)) hint) (clause text (a?.map (partOf u k')) hint') := by
  cases a? with
  | none => exact .fixed []
  | some a => exact (h a rfl).bind fun _ _ part ↦ .pure ((Demand.Matches.refl _).append part)

theorem copies_template (parts : List TemplatePart) {arg arg' : Nat → Writing Chain}
    (h : ∀ i, q.Copies (arg i) (arg' i)) :
    q.Copies (template parts arg) (template parts arg') := by
  rw [template_eq, template_eq]
  apply Demand.Copies.concat_map
  intro part _
  cases part with
  | text s => exact .fixed [.text s]
  | arg i => exact h i

theorem copies_unary (op : UnaryOp) (h : q.Copies (k a hint) (k' a hint')) :
    q.Copies (unary op (partOf u k a) hint) (unary op (partOf u k' a) hint') := by
  have operand : q.Copies (grouped (partOf u k a) hint) (grouped (partOf u k' a) hint') :=
    copies_grouped h
  cases op with
  | negation => exact copies_enclosed "NOT (" ")" h
  | negate => exact copies_enclosed "-(" ")" h
  | isNull => exact operand.bind fun _ _ inner ↦ .pure (inner.append (.refl _))
  | isNotNull => exact operand.bind fun _ _ inner ↦ .pure (inner.append (.refl _))
  | existence => exact h.bind fun _ _ inner ↦ .pure ((Demand.Matches.refl _).append inner)

/-! ### Parts with rules -/

variable (c : Covers q surplus w w')
include c

theorem copies_nullsPlace (nullsFirst : Option Bool) :
    q.Copies (w.nullsPlace nullsFirst) (w'.nullsPlace nullsFirst) := by
  cases nullsFirst with
  | none => exact .fixed []
  | some first =>
    refine (Demand.Follows.lift c.nullsOrdering).bind fun places places' same ↦ ?_
    cases places with
    | false => exact .unsupported
    | true =>
      rw [same rfl]
      exact .fixed _

theorem copies_ordering {keys : List (SortKey α)}
    (h : ∀ key ∈ keys, q.Copies (k key.expr hint) (k' key.expr hint')) :
    q.Copies (w.ordering (keys.map (·.map (partOf u k))) hint)
      (w'.ordering (keys.map (·.map (partOf u k'))) hint') := by
  have written (w : Script) (k : Writer α) (hint : Option String) :
      w.ordering (keys.map (·.map (partOf u k))) hint = separated ", " (keys.map fun key ↦ do
        return (← k key.expr hint) ++ (if key.ascending then [] else [Piece.text " DESC"]) ++
          (← w.nullsPlace key.nullsFirst)) := by
    rw [ordering, List.map_map]
    rfl
  rw [written, written]
  apply Demand.Copies.separated_map
  intro key mem
  exact (h key mem).bind fun _ _ expr ↦ (c.copies_nullsPlace _).bind fun _ _ place ↦
    .pure ((expr.append (.refl _)).append place)

theorem copies_rowNumber {keys : List (SortKey α)}
    (h : ∀ key ∈ keys, q.Copies (k key.expr hint) (k' key.expr hint')) :
    q.Copies (w.rowNumber (keys.map (·.map (partOf u k))) hint)
      (w'.rowNumber (keys.map (·.map (partOf u k'))) hint') := by
  refine (Demand.Follows.lift c.windowFunctions).bind fun numbers numbers' same ↦ ?_
  cases numbers with
  | false => exact .unsupported
  | true =>
    rw [same rfl, if_pos rfl, if_pos rfl]
    by_cases unordered : keys.isEmpty
    · simp only [List.isEmpty_map, unordered, if_true, pure_bind]
      exact .fixed _
    · simp only [List.isEmpty_map, unordered, Bool.false_eq_true, if_false, pure_bind]
      exact (c.copies_ordering h).bind fun _ _ order ↦
        .pure (((Demand.Matches.refl _).append ((Demand.Matches.refl _).append order)).append
          (.refl _))

theorem copies_outputColumn {column : OutputColumn α}
    (h : q.Copies (k column.expr none) (k' column.expr none)) :
    q.Copies (w.outputColumn (column.map (partOf u k)))
      (w'.outputColumn (column.map (partOf u k'))) := by
  obtain ⟨a, label⟩ := column
  refine h.bind fun _ _ expr ↦ ?_
  cases label with
  | none => exact .pure expr
  | some name =>
    exact (c.copies_identifier name).bind fun _ _ quoted ↦
      .pure ((expr.append (.refl _)).append quoted)

theorem copies_source {a? : Option α} (h : ∀ a ∈ a?, q.Copies (k a hint) (k' a hint')) :
    q.Copies (w.source (a?.map (partOf u k)) hint) (w'.source (a?.map (partOf u k')) hint') := by
  cases a? with
  | some a => exact (h a rfl).bind fun _ _ part ↦ .pure ((Demand.Matches.refl _).append part)
  | none =>
    exact ((Demand.Follows.lift c.fromless).bind fun _ _ same ↦
      .pure (same.map fromlessChain)).congr (source_none hint) (source_none hint')

theorem copies_assignment (name : String) (h : q.Copies (k a hint) (k' a hint')) :
    q.Copies (w.assignment (name, partOf u k a) hint)
      (w'.assignment (name, partOf u k' a) hint') :=
  (c.copies_identifier name).bind fun _ _ quoted ↦ Demand.Follows.bind h fun _ _ value ↦
    .pure ((quoted.append (.refl _)).append value)

omit k k' in
theorem copies_createIndex (index : Index) :
    q.Copies (w.createIndex index) (w'.createIndex index) := by
  have column (x : IndexColumn) : q.Copies (w.indexColumn x) (w'.indexColumn x) :=
    (c.copies_identifier x.name).bind fun _ _ quoted ↦ .pure (quoted.append (.refl _))
  have columns : q.Copies (separated ", " (index.columns.map w.indexColumn))
      (separated ", " (index.columns.map w'.indexColumn)) :=
    Demand.Copies.separated_map ", " fun x _ ↦ column x
  have fill : q.Copies (w.fillClause index) (w'.fillClause index) := by
    unfold fillClause
    cases index.fillFactor with
    | none => exact .fixed []
    | some percent =>
      exact (Demand.Follows.lift (c.fillFactor percent)).bind fun _ _ clause ↦
        .pure (clause.map clauseChain)
  rw [createIndex_eq, createIndex_eq]
  apply Demand.Copies.concat
  exact .cons (.fixed _) <| .cons (c.copies_identifier _) <| .cons (.fixed _) <|
    .cons (c.copies_qualified _ _) <| .cons (.fixed _) <| .cons columns <| .cons (.fixed _) <|
    .cons fill .nil

end Parts

end Covers

end Script

end SqlWright
