import SqlWright.Proofs.Lexing.Comments
import SqlWright.Proofs.Lexing.Rules

/-!
# Layers and spellings without comments

No layer of any dialect puts a text into statements in which a comment begins, nor one that ends
with what begins one. So the spelling of every version is silent by its lexical rules.
-/

namespace SqlWright

/-- Every rule of the layer but that of strings gives silent texts. -/
structure Layer.Silent (l : Lexicon) (layer : Layer) : Prop where
  identifier : ∀ quote ∈ layer.quoteIdentifier, ∀ name, l.Silent (quote name).toList
  boolean : ∀ text ∈ layer.booleanLiteral, ∀ b, l.Silent (text b).toList
  dateTime : ∀ text ∈ layer.dateTimeLiteral, ∀ t, l.Silent (text t).toList
  date : ∀ text ∈ layer.dateLiteral, ∀ d, l.Silent (text d).toList
  mark : ∀ mark ∈ layer.parameterMark, l.Silent mark.toList
  function : ∀ f, ∀ t ∈ layer.functions f, l.hasSteadyTexts t = true
  aggregate : ∀ kind, ∀ name ∈ layer.aggregates kind, l.Silent name.toList
  operator : ∀ op, ∀ t ∈ layer.operators op, l.hasSteadyTexts t = true
  lock : ∀ rule ∈ layer.lock, ∀ k, ∀ clause ∈ rule k, l.Silent clause.text.toList
  tableAlias : ∀ text ∈ layer.tableAlias, l.Silent text.toList
  fromless : ∀ name, layer.fromless = some (.table name) → l.Silent name.toList
  fillFactor : ∀ rule ∈ layer.fillFactor, ∀ percent, ∀ text ∈ rule percent, l.Silent text.toList
  offsetOrdering : ∀ text ∈ layer.offsetOrdering, l.Silent text.toList

/-- A layer without rules; other layers are like it in the rules that they do not have. -/
theorem Layer.silent_empty (l : Lexicon) : Layer.Silent l {} := by
  constructor <;> nofun

/-- Every rule of the spelling gives silent texts. -/
structure Spelling.Silent (l : Lexicon) (s : Spelling) : Prop where
  identifier : ∀ name text, s.quoteIdentifier name = .ok text → l.Silent text.toList
  literal : ∀ value text, s.literal value = .ok text → l.Silent text.toList
  mark : ∀ mark, s.parameterMark = .ok mark → l.Silent mark.toList
  function : ∀ f t, s.functionTemplate f = .ok t → l.hasSteadyTexts t = true
  aggregate : ∀ kind name, s.aggregate kind = .ok name → l.Silent name.toList
  operator : ∀ op t, s.operatorTemplate op = .ok t → l.hasSteadyTexts t = true
  lock : ∀ k clause, s.lock k = .ok clause → l.Silent clause.text.toList
  tableAlias : ∀ text, s.tableAlias = .ok text → l.Silent text.toList
  fromless : ∀ name, s.fromless = .ok (.table name) → l.Silent name.toList
  fillFactor : ∀ percent text, s.fillFactor percent = .ok (some text) → l.Silent text.toList
  offsetOrdering : ∀ text, s.offsetOrdering = .ok text → l.Silent text.toList

/-- Names of types are silent. -/
def TypeNames.Silent (l : Lexicon) (names : TypeNames) : Prop :=
  ∀ type name, names.find type = .ok name → l.Silent name.toList

namespace Lexicon

variable {l : Lexicon} {before after : List Char}

/-- A day or a point in time is silent between quotes with words around them. -/
theorem silent_between {s : String} (h : s.toList.all isDatum = true)
    (opened : before.getLast? = some '\x27') (hb : before.dropLast.all isMild = true)
    (closed : after.head? = some '\x27') (ha : after.tail.all isMild = true) :
    l.Silent (String.ofList before ++ s ++ String.ofList after).toList := by
  rw [← List.dropLast_append_getLast? _ opened, ← List.cons_head?_tail closed]
  have quoted := (silent_of_isMild (l := l) hb).append (silent_datum h)
  simpa using quoted.append (silent_of_isMild ha)

end Lexicon

namespace Spelling

variable {l : Lexicon}

open Lexicon

theorem ansi_silent : ansi.Silent l :=
  { Layer.silent_empty l with
    identifier := by
      rintro _ ⟨⟩ name
      exact silent_doubleQuotes name
    boolean := by
      rintro _ ⟨⟩ b
      cases b <;> exact silent_of_mild rfl
    mark := by
      rintro _ ⟨⟩
      exact silent_of_mild rfl
    function f := by
      cases f <;> rintro _ ⟨⟩ <;> with_reducible first
        | apply steady_call
        | apply steady_pattern
      all_goals rfl
    aggregate kind := by
      rintro _ ⟨⟩
      cases kind <;> exact silent_of_mild rfl
    operator op := by
      rintro _ ⟨⟩
      cases op <;> exact steady_pattern rfl
    tableAlias := by
      rintro _ ⟨⟩
      exact silent_of_mild rfl
    offsetOrdering := by
      rintro _ ⟨⟩
      exact silent_of_mild rfl
    fromless := nofun }

namespace PostgreSql

theorem lockText_silent (mode : LockMode) : l.Silent (lockText mode).toList := by
  cases mode <;> exact silent_of_mild rfl

set_option maxRecDepth 4000 in
theorem functions_steady (marked : Bool) (f : ScalarFunction) :
    ∀ t ∈ functions f, Lexicon.hasSteadyTexts ⟨false, marked, !marked⟩ t = true := by
  cases marked <;> cases f <;> rintro _ ⟨⟩ <;> with_reducible first
    | apply steady_call
    | apply steady_separated
    | apply steady_pattern
  all_goals rfl

theorem v80_silent (marked : Bool) : v80.Silent ⟨false, marked, !marked⟩ :=
  { Layer.silent_empty ⟨false, marked, !marked⟩ with
    identifier := by
      rintro _ ⟨⟩ name
      exact silent_doubleQuotes name
    dateTime := by
      rintro _ ⟨⟩ t
      exact silent_between (milliText_isDatum (by decide) t) rfl rfl rfl rfl
    date := by
      rintro _ ⟨⟩ d
      exact silent_between (dateText_isDatum d) rfl rfl rfl rfl
    function := functions_steady marked
    lock := by
      rintro _ ⟨⟩ ⟨mode, behavior⟩
      cases behavior <;> rintro _ ⟨⟩
      exact lockText_silent mode
    fillFactor := by
      rintro _ ⟨⟩ percent _ ⟨⟩
    fromless := nofun }

theorem v81_silent : v81.Silent l :=
  { Layer.silent_empty l with
    lock := by
      rintro _ ⟨⟩ ⟨mode, behavior⟩
      cases behavior <;> rintro _ ⟨⟩
      · exact lockText_silent mode
      · rw [LockClause.text, String.toList_append]
        exact (lockText_silent mode).append (silent_of_mild rfl) }

theorem v82_silent : v82.Silent l :=
  { Layer.silent_empty l with
    fillFactor := by
      rintro _ ⟨⟩ percent _ ⟨⟩
      exact silent_of_isMild (mild_number percent.toNat rfl rfl) }

theorem v83_silent : v83.Silent l := { Layer.silent_empty l with }

theorem v84_silent : v84.Silent l := { Layer.silent_empty l with }

end PostgreSql

namespace SqlServer

set_option maxRecDepth 4000 in
theorem functions_steady (f : ScalarFunction) :
    ∀ t ∈ functions f, Lexicon.hasSteadyTexts ⟨true, false, false⟩ t = true := by
  cases f <;> rintro _ ⟨⟩ <;> with_reducible first
    | apply steady_call
    | apply steady_separated
    | apply steady_pattern
  all_goals rfl

theorem lock_silent (k : Lock) : ∀ clause ∈ lock k, l.Silent clause.text.toList := by
  rintro _ ⟨⟩
  rcases k with ⟨mode, behavior⟩
  refine silent_of_isMild ?_
  cases mode <;> cases behavior <;> rfl

theorem v9_silent : v9.Silent ⟨true, false, false⟩ :=
  { Layer.silent_empty ⟨true, false, false⟩ with
    identifier := by
      rintro _ ⟨⟩ name
      exact silent_brackets rfl name
    boolean := by
      rintro _ ⟨⟩ b
      cases b <;> exact silent_of_mild rfl
    dateTime := by
      rintro _ ⟨⟩ t
      exact silent_between (milliText_isDatum (by decide) t) rfl rfl rfl rfl
    date := by
      rintro _ ⟨⟩ d
      exact silent_between (dateText_isDatum d) rfl rfl rfl rfl
    function := functions_steady
    aggregate kind := by
      cases kind <;> rintro _ ⟨⟩
      exact silent_of_mild rfl
    operator op := by
      cases op <;> rintro _ ⟨⟩
      exact steady_pattern rfl
    lock := by
      rintro _ ⟨⟩ k
      exact lock_silent k
    fillFactor := by
      rintro _ ⟨⟩ percent _ ⟨⟩
      exact silent_of_isMild (mild_number percent.toNat rfl rfl)
    fromless := nofun }

theorem functions10_steady (f : ScalarFunction) :
    ∀ t ∈ functions10 f, Lexicon.hasSteadyTexts ⟨true, false, false⟩ t = true := by
  cases f <;> rintro _ ⟨⟩ <;> with_reducible apply steady_pattern
  all_goals rfl

theorem v10_silent : v10.Silent ⟨true, false, false⟩ :=
  { Layer.silent_empty ⟨true, false, false⟩ with
    date := by
      rintro _ ⟨⟩ d
      exact silent_between (dateText_isDatum d) rfl rfl rfl rfl
    function := functions10_steady }

theorem v11_silent : v11.Silent l :=
  { Layer.silent_empty l with
    function f := by
      cases f <;> rintro _ ⟨⟩
      exact steady_call rfl
    offsetOrdering := by
      rintro _ ⟨⟩
      exact silent_of_mild rfl }

end SqlServer

namespace Oracle

set_option maxRecDepth 4000 in
theorem functions_steady (f : ScalarFunction) :
    ∀ t ∈ functions f, Lexicon.hasSteadyTexts ⟨false, false, false⟩ t = true := by
  cases f <;> rintro _ ⟨⟩ <;> with_reducible first
    | apply steady_call
    | apply steady_separated
    | apply steady_pattern
    | apply steady_pattern_append
  all_goals rfl

theorem lock_silent (k : Lock) : ∀ clause ∈ lock k, l.Silent clause.text.toList := by
  rcases k with ⟨mode, behavior⟩
  cases mode <;> cases behavior <;> rintro _ ⟨⟩ <;> exact silent_of_mild rfl

theorem v9_silent : v9.Silent ⟨false, false, false⟩ :=
  { Layer.silent_empty ⟨false, false, false⟩ with
    identifier := by
      rintro _ ⟨⟩ name
      exact silent_doubleQuotes name
    boolean := by
      rintro _ ⟨⟩ b
      cases b <;> exact silent_of_mild rfl
    dateTime := by
      rintro _ ⟨⟩ t
      exact silent_between (milliText_isDatum (by decide) t) rfl rfl rfl rfl
    date := by
      rintro _ ⟨⟩ d
      exact silent_between (dateText_isDatum d) rfl rfl rfl rfl
    mark := by
      rintro _ ⟨⟩
      exact silent_of_mild rfl
    function := functions_steady
    operator op := by
      cases op <;> rintro _ ⟨⟩
      exact steady_call rfl
    lock := by
      rintro _ ⟨⟩ k
      exact lock_silent k
    tableAlias := by
      rintro _ ⟨⟩
      exact silent_of_mild rfl
    fromless := by
      rintro _ ⟨⟩
      exact silent_of_mild rfl
    fillFactor := by
      rintro _ ⟨⟩ percent _ ⟨⟩
      rw [freeSpace, String.toList_append]
      exact .append (silent_of_mild rfl) (silent_of_isMild (repr_isMild _)) }

theorem v10_silent : v10.Silent l := { Layer.silent_empty l with }

theorem v11_silent : v11.Silent l :=
  { Layer.silent_empty l with
    lock := by
      rintro _ ⟨⟩ ⟨mode, behavior⟩
      cases mode <;> cases behavior <;> rintro _ ⟨⟩ <;> exact silent_of_mild rfl }

theorem v12_silent : v12.Silent l := { Layer.silent_empty l with }

end Oracle

/-! ### Versions -/

section Layers

variable {s : Spelling}

/-- A spelling is silent if its layers are and its strings are quoted silently. -/
theorem silent_of_layers (h : ∀ layer ∈ s.layers, layer.Silent l)
    (strings : ∀ value text, s.stringLiteral value = .ok text → l.Silent text.toList) :
    s.Silent l where
  identifier name text ht := by
    obtain ⟨layer, mem, quote, picked, rfl⟩ := exists_rule ht
    exact (h layer mem).identifier quote picked name
  literal value text ht := by
    cases value with
    | boolean b =>
      obtain ⟨layer, mem, rule, picked, rfl⟩ := exists_rule ht
      exact (h layer mem).boolean rule picked b
    | integer i =>
      cases ht
      exact silent_ofInt i.toInt
    | float x =>
      change floatLiteral x = .ok text at ht
      unfold floatLiteral at ht
      split at ht
      · cases ht
        split
        · exact silent_floatText x
        · rw [String.toList_append]
          exact (silent_floatText x).append (silent_of_mild rfl)
      · cases ht
    | string t => exact strings t text ht
    | dateTime t =>
      obtain ⟨layer, mem, rule, picked, rfl⟩ := exists_rule ht
      exact (h layer mem).dateTime rule picked t
    | date d =>
      obtain ⟨layer, mem, rule, picked, rfl⟩ := exists_rule ht
      exact (h layer mem).date rule picked d
  mark mark hm := by
    obtain ⟨layer, mem, picked⟩ := exists_layer hm
    exact (h layer mem).mark mark picked
  function f t ht := by
    obtain ⟨layer, mem, picked⟩ := exists_layer ht
    exact (h layer mem).function f t picked
  aggregate kind name hn := by
    obtain ⟨layer, mem, picked⟩ := exists_layer hn
    exact (h layer mem).aggregate kind name picked
  operator op t ht := by
    obtain ⟨layer, mem, picked⟩ := exists_layer ht
    exact (h layer mem).operator op t picked
  lock k clause hc := by
    obtain ⟨layer, mem, rule, picked, given⟩ := exists_lockRule hc
    exact (h layer mem).lock rule picked k clause given
  tableAlias text ht := by
    obtain ⟨layer, mem, picked⟩ := exists_layer ht
    exact (h layer mem).tableAlias text picked
  fromless name hn := by
    obtain ⟨layer, mem, picked⟩ := exists_layer hn
    exact (h layer mem).fromless name picked
  fillFactor percent text ht := by
    obtain ⟨layer, mem, rule, picked, given⟩ := exists_rule ht
    exact (h layer mem).fillFactor rule picked percent text given
  offsetOrdering text ht := by
    obtain ⟨layer, mem, picked⟩ := exists_layer ht
    exact (h layer mem).offsetOrdering text picked

end Layers

end Spelling

/-- The spelling of every version is silent by its own lexical rules. -/
theorem Dialect.spelling_silent (d : Dialect) (v : Version) :
    (d.spelling v).Silent (d.lexicon v) := by
  apply Spelling.silent_of_layers
  · cases d with
    | postgreSql =>
      exact Spelling.PostgreSql.forall_layers v Spelling.ansi_silent
        (Spelling.PostgreSql.v80_silent _) Spelling.PostgreSql.v81_silent
        Spelling.PostgreSql.v82_silent Spelling.PostgreSql.v83_silent Spelling.PostgreSql.v84_silent
    | sqlServer =>
      exact Spelling.SqlServer.forall_layers v Spelling.ansi_silent Spelling.SqlServer.v9_silent
        Spelling.SqlServer.v10_silent Spelling.SqlServer.v11_silent
    | oracle =>
      exact Spelling.Oracle.forall_layers v Spelling.ansi_silent Spelling.Oracle.v9_silent
        Spelling.Oracle.v10_silent Spelling.Oracle.v11_silent Spelling.Oracle.v12_silent
  · intro value text ht
    rw [d.stringLiteral_eq] at ht
    cases ht
    exact Lexicon.silent_quotedString d v value

/-- The names of types of every version are silent by any lexical rules. -/
theorem Dialect.typeNames_silent (d : Dialect) (v : Version) {l : Lexicon} :
    (d.typeNames v).Silent l :=
  fun _ _ h ↦ Lexicon.silent_of_isMild (d.typeName_isMild v h)

end SqlWright
