import SqlWright.Proofs.Lexing.SilentLayers
import SqlWright.Proofs.Operators.BracketedValues

/-!
# Spellings that close their brackets

What a spelling puts into statements closes the brackets that it opens. Names, strings and values
but numbers below zero are operands, functions put their arguments in brackets, and the other texts
stand where no operand is taken apart. That is so for every version of every dialect.
-/

namespace SqlWright

open WordMode

/-! ### Layers -/

open Lexicon

/-- Every rule of the layer but those of names and strings closes its brackets. -/
structure Layer.Closes (l : Lexicon) (layer : Layer) : Prop where
  boolean : ∀ text ∈ layer.booleanLiteral, ∀ b, l.IsOperand (text b)
  dateTime : ∀ text ∈ layer.dateTimeLiteral, ∀ t, l.IsOperand (text t)
  date : ∀ text ∈ layer.dateLiteral, ∀ d, l.IsOperand (text d)
  mark : ∀ mark ∈ layer.parameterMark, l.Spans operandAfter? .ground 0 .ground 1 mark
  function : ∀ f, ∀ t ∈ layer.functions f, l.encloses t = true ∨ t = .pattern "{0}"
  aggregate : ∀ kind, ∀ name ∈ layer.aggregates kind, l.IsOperand name
  lock : ∀ rule ∈ layer.lock, ∀ k, ∀ clause ∈ rule k, l.GoesOn clause.text
  tableAlias : ∀ text ∈ layer.tableAlias, l.Spans depthAfter? .outside 0 .ground 0 text
  fromless : ∀ name, layer.fromless = some (.table name) → l.IsWhole name
  fillFactor : ∀ rule ∈ layer.fillFactor, ∀ percent, ∀ text ∈ rule percent, l.GoesOn text
  offsetOrdering : ∀ text ∈ layer.offsetOrdering, l.GoesOn text

/-- A layer without rules; other layers are like it in the rules that they do not have. -/
theorem Layer.closes_empty (l : Lexicon) : Layer.Closes l {} := by
  constructor <;> nofun

namespace Spelling

variable {l : Lexicon}

theorem ansi_closes : ansi.Closes l :=
  { Layer.closes_empty l with
    boolean := by
      rintro _ ⟨⟩ b
      cases b <;> exact spans_text rfl
    mark := by
      rintro _ ⟨⟩
      exact spans_text rfl
    function f := by
      cases f <;> rintro _ ⟨⟩ <;> refine .inl ?_ <;> with_reducible first
        | apply encloses_call
        | apply encloses_pattern
      all_goals rfl
    aggregate kind := by
      rintro _ ⟨⟩
      cases kind <;> exact spans_text rfl
    tableAlias := by
      rintro _ ⟨⟩
      exact spans_text rfl
    offsetOrdering := by
      rintro _ ⟨⟩
      exact spans_text rfl
    fromless := nofun }

namespace PostgreSql

theorem lockText_goesOn (mode : LockMode) : l.GoesOn (lockText mode) := by
  cases mode <;> exact spans_text rfl

set_option maxRecDepth 4000 in
theorem functions_enclose (marked : Bool) (f : ScalarFunction) :
    ∀ t ∈ functions f, Lexicon.encloses ⟨false, marked, !marked⟩ t = true := by
  cases marked <;> cases f <;> rintro _ ⟨⟩ <;> with_reducible first
    | apply encloses_call
    | apply encloses_separated
    | apply encloses_pattern
  all_goals rfl

theorem v80_closes (marked : Bool) : v80.Closes ⟨false, marked, !marked⟩ :=
  { Layer.closes_empty ⟨false, marked, !marked⟩ with
    dateTime := by
      rintro _ ⟨⟩ t
      exact isOperand_between (milliText_isDatum (by decide) t) rfl rfl rfl
    date := by
      rintro _ ⟨⟩ d
      exact isOperand_between (dateText_isDatum d) rfl rfl rfl
    function f t ht := .inl (functions_enclose marked f t ht)
    lock := by
      rintro _ ⟨⟩ ⟨mode, behavior⟩
      cases behavior <;> rintro _ ⟨⟩
      exact lockText_goesOn mode
    fillFactor := by
      rintro _ ⟨⟩ percent _ ⟨⟩
    fromless := nofun }

theorem v81_closes : v81.Closes l :=
  { Layer.closes_empty l with
    lock := by
      rintro _ ⟨⟩ ⟨mode, behavior⟩
      cases behavior <;> rintro _ ⟨⟩
      · exact lockText_goesOn mode
      · exact (lockText_goesOn mode).append (spans_text rfl) }

theorem v82_closes : v82.Closes l :=
  { Layer.closes_empty l with
    fillFactor := by
      rintro _ ⟨⟩ percent _ ⟨⟩
      exact spans_number percent.toNat rfl rfl }

theorem v83_closes : v83.Closes l := { Layer.closes_empty l with }

theorem v84_closes : v84.Closes l := { Layer.closes_empty l with }

theorem typeName_isWhole (type : SqlType) : ∀ name ∈ typeName type, l.IsWhole name := by
  cases type with
  | decimal precision scale =>
    rintro _ ⟨⟩
    exact isWhole_numbers precision.toNat scale.toNat rfl rfl rfl
  | varChar length =>
    cases length with
    | none =>
      rintro _ ⟨⟩
      exact isWhole_text rfl
    | some length =>
      rintro _ ⟨⟩
      exact isWhole_number length.toNat rfl rfl
  | _ =>
    rintro _ ⟨⟩
    exact isWhole_text rfl

theorem newerTypeName_isWhole (type : SqlType) : ∀ name ∈ newerTypeName type, l.IsWhole name := by
  cases type <;> rintro _ ⟨⟩
  exact isWhole_text rfl

end PostgreSql

namespace SqlServer

set_option maxRecDepth 4000 in
theorem functions_enclose (f : ScalarFunction) : ∀ t ∈ functions f,
    Lexicon.encloses ⟨true, false, false⟩ t = true ∨ t = .pattern "{0}" := by
  cases f with
  | intervalToMilliseconds =>
    rintro _ ⟨⟩
    exact .inr rfl
  | _ =>
    rintro _ ⟨⟩ <;> refine .inl ?_ <;> with_reducible first
      | apply encloses_call
      | apply encloses_separated
      | apply encloses_pattern
    all_goals rfl

/-- Hints stand one after the other in the brackets behind a table. -/
theorem spans_hints {first : String} {hints : List String}
    (h : ∀ hint ∈ first :: hints, l.Spans depthAfter? .ground 1 .outside 1 hint) :
    l.Spans depthAfter? .ground 1 .outside 1 (", ".intercalate (first :: hints)) := by
  induction hints generalizing first with
  | nil => exact h first List.mem_cons_self
  | cons next hints ih =>
    rw [List.forall_mem_cons, List.forall_mem_cons] at h
    have comma : l.Spans depthAfter? .outside 1 .ground 1 ", " := spans_text rfl
    exact ih (List.forall_mem_cons.2 ⟨(h.1.append comma).append h.2.1, h.2.2⟩)

theorem lock_goesOn (k : Lock) : ∀ clause ∈ lock k, l.GoesOn clause.text := by
  rintro _ ⟨⟩
  have opening : l.Spans depthAfter? .outside 0 .ground 1 " WITH (" := spans_text rfl
  have closing : l.Spans depthAfter? .outside 1 .outside 0 ")" := spans_text rfl
  have hints : ∀ hint ∈ lockHints k, l.Spans depthAfter? .ground 1 .outside 1 hint := by
    rcases k with ⟨mode, behavior⟩
    refine List.forall_mem_cons.2 ⟨?_, List.forall_mem_cons.2 ⟨spans_text rfl, ?_⟩⟩
    · cases mode <;> exact spans_text rfl
    · cases behavior with
      | wait => exact List.forall_mem_nil _
      | noWait => exact List.forall_mem_singleton.2 (spans_text rfl)
      | skipLocked => exact List.forall_mem_singleton.2 (spans_text rfl)
  exact (opening.append (spans_hints hints)).append closing

theorem v9_closes : v9.Closes ⟨true, false, false⟩ :=
  { Layer.closes_empty ⟨true, false, false⟩ with
    boolean := by
      rintro _ ⟨⟩ b
      cases b <;> exact spans_text rfl
    dateTime := by
      rintro _ ⟨⟩ t
      exact isOperand_between (milliText_isDatum (by decide) t) rfl rfl rfl
    date := by
      rintro _ ⟨⟩ d
      exact isOperand_between (dateText_isDatum d) rfl rfl rfl
    function := functions_enclose
    aggregate kind := by
      cases kind <;> rintro _ ⟨⟩
      exact spans_text rfl
    lock := by
      rintro _ ⟨⟩ k
      exact lock_goesOn k
    fillFactor := by
      rintro _ ⟨⟩ percent _ ⟨⟩
      exact spans_number percent.toNat rfl rfl
    fromless := nofun }

theorem functions10_enclose (f : ScalarFunction) :
    ∀ t ∈ functions10 f, Lexicon.encloses ⟨true, false, false⟩ t = true := by
  cases f <;> rintro _ ⟨⟩ <;> with_reducible apply encloses_pattern
  all_goals rfl

theorem v10_closes : v10.Closes ⟨true, false, false⟩ :=
  { Layer.closes_empty ⟨true, false, false⟩ with
    date := by
      rintro _ ⟨⟩ d
      exact isOperand_between (dateText_isDatum d) rfl rfl rfl
    function f t ht := .inl (functions10_enclose f t ht) }

theorem v11_closes : v11.Closes l :=
  { Layer.closes_empty l with
    function f := by
      cases f <;> rintro _ ⟨⟩
      exact .inl (encloses_call rfl)
    offsetOrdering := by
      rintro _ ⟨⟩
      exact spans_text rfl }

theorem typeName_isWhole (type : SqlType) : ∀ name ∈ typeName type, l.IsWhole name := by
  cases type with
  | decimal precision scale =>
    rintro _ ⟨⟩
    exact isWhole_numbers precision.toNat scale.toNat rfl rfl rfl
  | varChar length =>
    cases length with
    | none =>
      rintro _ ⟨⟩
      exact isWhole_text rfl
    | some length =>
      rintro _ ⟨⟩
      exact isWhole_number length.toNat rfl rfl
  | _ =>
    rintro _ ⟨⟩
    exact isWhole_text rfl

theorem newerTypeName_isWhole (type : SqlType) : ∀ name ∈ newerTypeName type, l.IsWhole name := by
  cases type <;> rintro _ ⟨⟩ <;> exact isWhole_text rfl

end SqlServer

namespace Oracle

set_option maxRecDepth 4000 in
theorem functions_enclose (f : ScalarFunction) :
    ∀ t ∈ functions f, Lexicon.encloses ⟨false, false, false⟩ t = true := by
  cases f <;> rintro _ ⟨⟩ <;> with_reducible first
    | apply encloses_call
    | apply encloses_separated
    | apply encloses_pattern
    | apply encloses_pattern_append
  all_goals rfl

theorem lock_goesOn (k : Lock) : ∀ clause ∈ lock k, l.GoesOn clause.text := by
  rcases k with ⟨mode, behavior⟩
  cases mode <;> cases behavior <;> rintro _ ⟨⟩ <;> exact spans_text rfl

theorem v9_closes : v9.Closes ⟨false, false, false⟩ :=
  { Layer.closes_empty ⟨false, false, false⟩ with
    boolean := by
      rintro _ ⟨⟩ b
      cases b <;> exact spans_text rfl
    dateTime := by
      rintro _ ⟨⟩ t
      exact isOperand_between (milliText_isDatum (by decide) t) rfl rfl rfl
    date := by
      rintro _ ⟨⟩ d
      exact isOperand_between (dateText_isDatum d) rfl rfl rfl
    mark := by
      rintro _ ⟨⟩
      exact spans_text rfl
    function f t ht := .inl (functions_enclose f t ht)
    lock := by
      rintro _ ⟨⟩ k
      exact lock_goesOn k
    tableAlias := by
      rintro _ ⟨⟩
      exact spans_text rfl
    fromless := by
      rintro _ ⟨⟩
      exact isWhole_text rfl
    fillFactor := by
      rintro _ ⟨⟩ percent _ ⟨⟩
      exact (spans_text rfl).append ((isOperand_repr _).isWhole.spans 0) }

theorem v10_closes : v10.Closes l := { Layer.closes_empty l with }

theorem v11_closes : v11.Closes l :=
  { Layer.closes_empty l with
    lock := by
      rintro _ ⟨⟩ ⟨mode, behavior⟩
      cases mode <;> cases behavior <;> rintro _ ⟨⟩ <;> exact spans_text rfl }

theorem v12_closes : v12.Closes l := { Layer.closes_empty l with }

theorem typeName_isWhole (type : SqlType) : ∀ name ∈ typeName type, l.IsWhole name := by
  cases type with
  | decimal precision scale =>
    rintro _ ⟨⟩
    exact isWhole_numbers precision.toNat scale.toNat rfl rfl rfl
  | varChar length =>
    cases length with
    | none =>
      rintro _ ⟨⟩
      exact isWhole_text rfl
    | some length =>
      rintro _ ⟨⟩
      exact isWhole_number length.toNat rfl rfl
  | _ =>
    rintro _ ⟨⟩
    exact isWhole_text rfl

theorem newerTypeName_isWhole (type : SqlType) : ∀ name ∈ newerTypeName type, l.IsWhole name := by
  cases type <;> rintro _ ⟨⟩ <;> exact isWhole_text rfl

end Oracle
end Spelling

/-! ### Versions -/

/-- Every rule of the spelling closes its brackets. -/
structure Spelling.Closes (l : Lexicon) (s : Spelling) : Prop where
  identifier : ∀ name text, s.quoteIdentifier name = .ok text → l.IsOperand text
  literal : ∀ value text, s.literal value = .ok text → l.IsTidy text
  mark : ∀ mark, s.parameterMark = .ok mark → l.Spans operandAfter? .ground 0 .ground 1 mark
  function : ∀ f t, s.functionTemplate f = .ok t → l.encloses t = true ∨ t = .pattern "{0}"
  aggregate : ∀ kind name, s.aggregate kind = .ok name → l.IsOperand name
  operator : ∀ op t, s.operatorTemplate op = .ok t →
    l.encloses t = true ∨ ∃ op', t = .pattern (ansiOperator op')
  lock : ∀ k clause, s.lock k = .ok clause → l.GoesOn clause.text
  tableAlias : ∀ text, s.tableAlias = .ok text → l.Spans depthAfter? .outside 0 .ground 0 text
  fromless : ∀ name, s.fromless = .ok (.table name) → l.IsWhole name
  fillFactor : ∀ percent text, s.fillFactor percent = .ok (some text) → l.GoesOn text
  offsetOrdering : ∀ text, s.offsetOrdering = .ok text → l.GoesOn text

namespace Dialect

variable (d : Dialect) (v : Version)

theorem layers_close : ∀ layer ∈ (d.spelling v).layers, layer.Closes (d.lexicon v) := by
  cases d with
  | postgreSql =>
    exact Spelling.PostgreSql.forall_layers v Spelling.ansi_closes
      (Spelling.PostgreSql.v80_closes _) Spelling.PostgreSql.v81_closes
      Spelling.PostgreSql.v82_closes Spelling.PostgreSql.v83_closes Spelling.PostgreSql.v84_closes
  | sqlServer =>
    exact Spelling.SqlServer.forall_layers v Spelling.ansi_closes Spelling.SqlServer.v9_closes
      Spelling.SqlServer.v10_closes Spelling.SqlServer.v11_closes
  | oracle =>
    exact Spelling.Oracle.forall_layers v Spelling.ansi_closes Spelling.Oracle.v9_closes
      Spelling.Oracle.v10_closes Spelling.Oracle.v11_closes Spelling.Oracle.v12_closes

theorem isOperand_quoted (name : String) : (d.lexicon v).IsOperand (d.quoted name) :=
  isOperand_of_run (d.run_quoted v name) (.closing _ _ _) rfl

/-- A constant is an expression. -/
theorem isTidy_literal {value : Literal} {text : String}
    (h : (d.spelling v).literal value = .ok text) : (d.lexicon v).IsTidy text := by
  cases value with
  | boolean b =>
    obtain ⟨layer, mem, rule, picked, rfl⟩ := Spelling.exists_rule h
    exact ((d.layers_close v layer mem).boolean rule picked b).isTidy.1
  | integer i =>
    cases h
    exact isTidy_ofInt i.toInt
  | float x => exact isTidy_floatLiteral h
  | string t =>
    cases (d.stringLiteral_eq v t).symm.trans h
    exact (isOperand_of_run (d.run_quotedString v t) (.closing _ _ _) rfl).isTidy.1
  | dateTime t =>
    obtain ⟨layer, mem, rule, picked, rfl⟩ := Spelling.exists_rule h
    exact ((d.layers_close v layer mem).dateTime rule picked t).isTidy.1
  | date t =>
    obtain ⟨layer, mem, rule, picked, rfl⟩ := Spelling.exists_rule h
    exact ((d.layers_close v layer mem).date rule picked t).isTidy.1

/-- The spelling of every version closes its brackets by its own lexical rules. -/
theorem spelling_closes : (d.spelling v).Closes (d.lexicon v) where
  identifier name text ht := by
    cases (d.quoteIdentifier_eq v name).symm.trans ht
    exact d.isOperand_quoted v name
  literal _ _ ht := d.isTidy_literal v ht
  mark mark hm := by
    obtain ⟨layer, mem, picked⟩ := Spelling.exists_layer hm
    exact (d.layers_close v layer mem).mark mark picked
  function f t ht := by
    obtain ⟨layer, mem, picked⟩ := Spelling.exists_layer ht
    exact (d.layers_close v layer mem).function f t picked
  aggregate kind name hn := by
    obtain ⟨layer, mem, picked⟩ := Spelling.exists_layer hn
    exact (d.layers_close v layer mem).aggregate kind name picked
  operator op t ht := by
    cases (d.operatorTemplate_eq v op).symm.trans ht
    cases hf : op.form d with
    | between op' => exact .inr ⟨op', rfl⟩
    | call name =>
      obtain rfl := BinaryOp.form_call hf
      exact .inl (encloses_call rfl)
  lock k clause hc := by
    obtain ⟨layer, mem, rule, picked, given⟩ := Spelling.exists_lockRule hc
    exact (d.layers_close v layer mem).lock rule picked k clause given
  tableAlias text ht := by
    obtain ⟨layer, mem, picked⟩ := Spelling.exists_layer ht
    exact (d.layers_close v layer mem).tableAlias text picked
  fromless name hn := by
    obtain ⟨layer, mem, picked⟩ := Spelling.exists_layer hn
    exact (d.layers_close v layer mem).fromless name picked
  fillFactor percent text ht := by
    obtain ⟨layer, mem, rule, picked, given⟩ := Spelling.exists_rule ht
    exact (d.layers_close v layer mem).fillFactor rule picked percent text given
  offsetOrdering text ht := by
    obtain ⟨layer, mem, picked⟩ := Spelling.exists_layer ht
    exact (d.layers_close v layer mem).offsetOrdering text picked

/-- Names of types close their brackets. -/
theorem isWhole_typeName {type : SqlType} {name : String}
    (h : (d.typeNames v).find type = .ok name) : (d.lexicon v).IsWhole name := by
  obtain ⟨names, mem, named⟩ := Spelling.exists_names h
  have whole : ∀ names ∈ (d.typeNames v).layers, ∀ type, ∀ name ∈ names type,
      (d.lexicon v).IsWhole name := by
    cases d with
    | postgreSql =>
      exact Spelling.PostgreSql.forall_names v Spelling.PostgreSql.typeName_isWhole
        Spelling.PostgreSql.newerTypeName_isWhole
    | sqlServer =>
      exact Spelling.SqlServer.forall_names v Spelling.SqlServer.typeName_isWhole
        Spelling.SqlServer.newerTypeName_isWhole
    | oracle =>
      exact Spelling.Oracle.forall_names v Spelling.Oracle.typeName_isWhole
        Spelling.Oracle.newerTypeName_isWhole
  exact whole names mem type name named

end Dialect

end SqlWright
