import SqlWright.Proofs.Lexing.Templates
import SqlWright.Proofs.Lexing.Values
import SqlWright.Spelling.OfDialect

/-!
# Layers that keep tokens apart

What each layer of each dialect puts into statements keeps the tokens of a text apart: what depends
on a value passes where it stands, and the words around it separate it from its neighbours. How a
layer quotes strings is left aside, since the lexical rules of a version go with the latest layer
only.
-/

namespace SqlWright

/-- Text of a row lock. -/
def LockClause.text : LockClause → String
  | suffix text | tableHint text => text

/-- Every rule of the layer but that of strings keeps tokens apart. -/
structure Layer.Lexes (l : Lexicon) (layer : Layer) : Prop where
  identifier : ∀ quote ∈ layer.quoteIdentifier, ∀ x y,
    l.Matches .ground .outside (quote x) (quote y)
  boolean : ∀ text ∈ layer.booleanLiteral, ∀ b, l.Passes .ground .outside (text b)
  dateTime : ∀ text ∈ layer.dateTimeLiteral, ∀ t, l.Passes .ground .outside (text t)
  date : ∀ text ∈ layer.dateLiteral, ∀ d, l.Passes .ground .outside (text d)
  mark : ∀ mark ∈ layer.parameterMark, l.Passes .ground .ground mark
  function : ∀ f, ∀ t ∈ layer.functions f, l.admits t = true
  aggregate : ∀ kind, ∀ name ∈ layer.aggregates kind, l.Passes .ground .outside name
  operator : ∀ op, ∀ t ∈ layer.operators op, l.admits t = true
  lock : ∀ rule ∈ layer.lock, ∀ k, ∀ clause ∈ rule k, l.Passes .outside .outside clause.text
  tableAlias : ∀ text ∈ layer.tableAlias, l.Passes .outside .ground text
  fromless : ∀ name, layer.fromless = some (.table name) → l.Passes .ground .outside name
  fillFactor : ∀ rule ∈ layer.fillFactor, ∀ percent, ∀ text ∈ rule percent,
    l.Passes .outside .outside text
  offsetOrdering : ∀ text ∈ layer.offsetOrdering, l.Passes .outside .outside text

/-- A layer without rules; other layers are like it in the rules that they do not have. -/
theorem Layer.lexes_empty (l : Lexicon) : Layer.Lexes l {} := by
  constructor <;> nofun

namespace Spelling

variable {l : Lexicon}

open Lexicon

theorem ansi_lexes : ansi.Lexes l :=
  { Layer.lexes_empty l with
    identifier := by
      rintro _ ⟨⟩ x y
      exact matches_doubleQuotes x y
    boolean := by
      rintro _ ⟨⟩ b
      cases b
      · exact matches_of_leads rfl
      · exact matches_of_leads rfl
    mark := by
      rintro _ ⟨⟩
      exact matches_of_leads rfl
    function f := by
      cases f <;> rintro _ ⟨⟩ <;> with_reducible first
        | apply admits_call
        | apply admits_pattern
      all_goals rfl
    aggregate kind := by
      rintro _ ⟨⟩
      cases kind <;> simp only [ansiAggregate] <;> exact matches_of_leads rfl
    operator op := by
      rintro _ ⟨⟩
      cases op <;> exact admits_pattern rfl
    tableAlias := by
      rintro _ ⟨⟩
      exact matches_of_leads rfl
    offsetOrdering := by
      rintro _ ⟨⟩
      exact matches_of_leads rfl
    fromless := nofun }

namespace PostgreSql

theorem lockText_passes (mode : LockMode) : l.Passes .outside .outside (lockText mode) := by
  cases mode <;> simp only [lockText] <;> exact matches_of_leads rfl

set_option maxRecDepth 4000 in
/-- Templates of functions are admitted by the lexical rules of every version. -/
theorem functions_admitted (marked : Bool) (f : ScalarFunction) :
    ∀ t ∈ functions f, Lexicon.admits ⟨false, marked, !marked⟩ t = true := by
  cases marked <;> cases f <;> rintro _ ⟨⟩ <;> with_reducible first
    | apply admits_call
    | apply admits_separated
    | apply admits_pattern
  all_goals rfl

theorem v80_lexes (marked : Bool) : v80.Lexes ⟨false, marked, !marked⟩ :=
  { Layer.lexes_empty ⟨false, marked, !marked⟩ with
    identifier := by
      rintro _ ⟨⟩ x y
      exact matches_doubleQuotes x y
    dateTime := by
      rintro _ ⟨⟩ t
      exact passes_dateTime t
    date := by
      rintro _ ⟨⟩ d
      exact passes_date d
    function := functions_admitted marked
    lock := by
      rintro _ ⟨⟩ ⟨mode, behavior⟩
      cases behavior <;> rintro _ ⟨⟩
      exact lockText_passes mode
    fillFactor := by
      rintro _ ⟨⟩ percent _ ⟨⟩
    fromless := nofun }

theorem v81_lexes : v81.Lexes l :=
  { Layer.lexes_empty l with
    lock := by
      rintro _ ⟨⟩ ⟨mode, behavior⟩
      cases behavior <;> rintro _ ⟨⟩
      · exact lockText_passes mode
      · exact (lockText_passes mode).append (matches_of_leads rfl) }

theorem v82_lexes : v82.Lexes l :=
  { Layer.lexes_empty l with
    fillFactor := by
      rintro _ ⟨⟩ percent _ ⟨⟩
      exact passes_number percent.toNat rfl rfl }

theorem v83_lexes : v83.Lexes l := { Layer.lexes_empty l with }

theorem v84_lexes : v84.Lexes l := { Layer.lexes_empty l with }

theorem typeName_isMild (type : SqlType) :
    ∀ name ∈ typeName type, name.toList.all isMild = true := by
  cases type with
  | decimal precision scale =>
    rintro _ ⟨⟩
    exact mild_numbers _ _ rfl rfl rfl
  | varChar length =>
    cases length with
    | none =>
      rintro _ ⟨⟩
      exact mild_word rfl
    | some length =>
      rintro _ ⟨⟩
      exact mild_number _ rfl rfl
  | _ =>
    rintro _ ⟨⟩
    exact mild_word rfl

theorem newerTypeName_isMild (type : SqlType) :
    ∀ name ∈ newerTypeName type, name.toList.all isMild = true := by
  cases type <;> rintro _ ⟨⟩
  exact mild_word rfl

end PostgreSql

namespace SqlServer

set_option maxRecDepth 4000 in
theorem functions_admitted (f : ScalarFunction) :
    ∀ t ∈ functions f, Lexicon.admits ⟨true, false, false⟩ t = true := by
  cases f <;> rintro _ ⟨⟩ <;> with_reducible first
    | apply admits_call
    | apply admits_separated
    | apply admits_pattern
  all_goals rfl

theorem lockHints_passes (k : Lock) : ∀ hint ∈ lockHints k, l.Passes .ground .outside hint := by
  rcases k with ⟨mode, behavior⟩
  rw [lockHints, List.forall_mem_cons, List.forall_mem_cons]
  refine ⟨?_, matches_of_leads rfl, ?_⟩
  · cases mode <;> exact matches_of_leads rfl
  · cases behavior with
    | wait => nofun
    | noWait => exact List.forall_mem_singleton.mpr (matches_of_leads rfl)
    | skipLocked => exact List.forall_mem_singleton.mpr (matches_of_leads rfl)

theorem v9_lexes : v9.Lexes ⟨true, false, false⟩ :=
  { Layer.lexes_empty ⟨true, false, false⟩ with
    identifier := by
      rintro _ ⟨⟩ x y
      exact matches_brackets rfl x y
    boolean := by
      rintro _ ⟨⟩ b
      cases b
      · exact matches_of_leads rfl
      · exact matches_of_leads rfl
    dateTime := by
      rintro _ ⟨⟩ t
      exact passes_between (milliText_isDatum (by decide) t) rfl fun _ ↦ rfl
    date := by
      rintro _ ⟨⟩ d
      exact passes_between (dateText_isDatum d) rfl fun _ ↦ rfl
    function := functions_admitted
    aggregate kind := by
      cases kind <;> rintro _ ⟨⟩
      exact matches_of_leads rfl
    operator op := by
      cases op <;> rintro _ ⟨⟩
      exact admits_pattern rfl
    lock := by
      rintro _ ⟨⟩ k _ ⟨⟩
      have hints :
          Passes ⟨true, false, false⟩ .ground .outside (", ".intercalate (lockHints k)) := by
        apply Matches.intercalate
        · exact matches_of_leads rfl
        · exact List.forall₂_same.mpr (lockHints_passes k)
      have opens : Passes ⟨true, false, false⟩ .outside .ground " WITH (" := matches_of_leads rfl
      exact (opens.append hints).append (matches_of_leads rfl)
    fillFactor := by
      rintro _ ⟨⟩ percent _ ⟨⟩
      exact passes_number percent.toNat rfl rfl
    fromless := nofun }

theorem functions10_admitted (f : ScalarFunction) :
    ∀ t ∈ functions10 f, Lexicon.admits ⟨true, false, false⟩ t = true := by
  cases f <;> rintro _ ⟨⟩ <;> with_reducible apply admits_pattern
  all_goals rfl

theorem v10_lexes : v10.Lexes ⟨true, false, false⟩ :=
  { Layer.lexes_empty ⟨true, false, false⟩ with
    date := by
      rintro _ ⟨⟩ d
      exact passes_between (dateText_isDatum d) rfl fun _ ↦ rfl
    function := functions10_admitted }

theorem v11_lexes : v11.Lexes l :=
  { Layer.lexes_empty l with
    function f := by
      cases f <;> rintro _ ⟨⟩
      exact admits_call rfl
    offsetOrdering := by
      rintro _ ⟨⟩
      exact matches_of_leads rfl }

theorem typeName_isMild (type : SqlType) :
    ∀ name ∈ typeName type, name.toList.all isMild = true := by
  cases type with
  | decimal precision scale =>
    rintro _ ⟨⟩
    exact mild_numbers _ _ rfl rfl rfl
  | varChar length =>
    cases length with
    | none =>
      rintro _ ⟨⟩
      exact mild_word rfl
    | some length =>
      rintro _ ⟨⟩
      exact mild_number _ rfl rfl
  | _ =>
    rintro _ ⟨⟩
    exact mild_word rfl

theorem newerTypeName_isMild (type : SqlType) :
    ∀ name ∈ newerTypeName type, name.toList.all isMild = true := by
  cases type <;> rintro _ ⟨⟩ <;> exact mild_word rfl

end SqlServer

namespace Oracle

set_option maxRecDepth 4000 in
theorem functions_admitted (f : ScalarFunction) :
    ∀ t ∈ functions f, Lexicon.admits ⟨false, false, false⟩ t = true := by
  cases f <;> rintro _ ⟨⟩ <;> with_reducible first
    | apply admits_call
    | apply admits_separated
    | apply admits_pattern
    | apply admits_pattern_append
  all_goals rfl

theorem lock_passes (k : Lock) : ∀ clause ∈ lock k, l.Passes .outside .outside clause.text := by
  rcases k with ⟨mode, behavior⟩
  cases mode <;> cases behavior <;> rintro _ ⟨⟩ <;> exact matches_of_leads rfl

theorem v9_lexes : v9.Lexes ⟨false, false, false⟩ :=
  { Layer.lexes_empty ⟨false, false, false⟩ with
    identifier := by
      rintro _ ⟨⟩ x y
      exact matches_doubleQuotes x y
    boolean := by
      rintro _ ⟨⟩ b
      cases b
      · exact matches_of_leads rfl
      · exact matches_of_leads rfl
    dateTime := by
      rintro _ ⟨⟩ t
      exact passes_dateTime t
    date := by
      rintro _ ⟨⟩ d
      exact passes_date d
    mark := by
      rintro _ ⟨⟩
      exact matches_of_leads rfl
    function := functions_admitted
    operator op := by
      cases op <;> rintro _ ⟨⟩
      exact admits_call rfl
    lock := by
      rintro _ ⟨⟩ k
      exact lock_passes k
    tableAlias := by
      rintro _ ⟨⟩
      exact matches_of_leads rfl
    fromless := by
      rintro _ ⟨⟩
      exact matches_of_leads rfl
    fillFactor := by
      rintro _ ⟨⟩ percent _ ⟨⟩
      have opens : Passes ⟨false, false, false⟩ .outside .ground " PCTFREE " := matches_of_leads rfl
      exact opens.append (passes_of_isCalm (repr_isCalm _)) }

theorem v10_lexes : v10.Lexes l := { Layer.lexes_empty l with }

theorem v11_lexes : v11.Lexes l :=
  { Layer.lexes_empty l with
    lock := by
      rintro _ ⟨⟩ ⟨mode, behavior⟩
      cases behavior with
      | skipLocked =>
        cases mode <;> rintro _ ⟨⟩ <;> exact matches_of_leads rfl
      | wait =>
        cases mode
        · nofun
        · exact lock_passes ⟨.update, .wait⟩
        · exact lock_passes ⟨.exclusive, .wait⟩
      | noWait =>
        cases mode
        · nofun
        · exact lock_passes ⟨.update, .noWait⟩
        · exact lock_passes ⟨.exclusive, .noWait⟩ }

theorem v12_lexes : v12.Lexes l := { Layer.lexes_empty l with }

theorem typeName_isMild (type : SqlType) :
    ∀ name ∈ typeName type, name.toList.all isMild = true := by
  cases type with
  | decimal precision scale =>
    rintro _ ⟨⟩
    exact mild_numbers _ _ rfl rfl rfl
  | varChar length =>
    cases length with
    | none =>
      rintro _ ⟨⟩
      exact mild_word rfl
    | some length =>
      rintro _ ⟨⟩
      exact mild_number _ rfl rfl
  | _ =>
    rintro _ ⟨⟩
    exact mild_word rfl

theorem newerTypeName_isMild (type : SqlType) :
    ∀ name ∈ newerTypeName type, name.toList.all isMild = true := by
  cases type <;> rintro _ ⟨⟩ <;> exact mild_word rfl

end Oracle

end Spelling

end SqlWright
