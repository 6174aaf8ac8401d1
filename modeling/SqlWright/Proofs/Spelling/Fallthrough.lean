import SqlWright.Proofs.Spelling.Nodes
import SqlWright.Spelling.SqlServer

/-!
# Layers below others

A rule of a layer is used only where no later layer has one. So a layer that is put below all the
others leaves every command as it is, and a statement that fails for the lack of a rule fails
because no layer has it.
-/

namespace SqlWright

/-- The layer has the rule. Names of types have layers of their own. -/
def Layer.has (layer : Layer) : Rule → Bool
  | .identifierQuoting => layer.quoteIdentifier.isSome
  | .stringLiteral => layer.stringLiteral.isSome
  | .booleanLiteral => layer.booleanLiteral.isSome
  | .dateTimeLiteral => layer.dateTimeLiteral.isSome
  | .dateLiteral => layer.dateLiteral.isSome
  | .parameterMark => layer.parameterMark.isSome
  | .function f => (layer.functions f).isSome
  | .aggregate kind => (layer.aggregates kind).isSome
  | .operator op => (layer.operators op).isSome
  | .paging => layer.paging.isSome
  | .lock => layer.lock.isSome
  | .tableAlias => layer.tableAlias.isSome
  | .fromless => layer.fromless.isSome
  | .nullsOrdering => layer.nullsOrdering.isSome
  | .windowFunctions => layer.windowFunctions.isSome
  | .offsetOrdering => layer.offsetOrdering.isSome
  | .fillFactor => layer.fillFactor.isSome
  | .typeName _ => false

/-- The rule is lacking: no layer has it, and if it is a name of a type, none of the layers of
names names the type. -/
def Rule.IsLacking (layers : List Layer) (types : TypeNames) (rule : Rule) : Prop :=
  (∀ layer ∈ layers, layer.has rule = false) ∧
    ∀ type, rule = .typeName type → ∀ names ∈ types.layers, names type = none

namespace Spelling

/-- The same texts are asked for, and only a rule that no layer has may be missing. -/
def fallthrough (layers : List Layer) (types : TypeNames) : Demand :=
  ⟨True, Rule.IsLacking layers types⟩

variable {layers : List Layer} {under : Layer} {types : TypeNames}

/-- A layer below the others changes no rule that they have. -/
theorem meets_resolve {α : Type} (rule : Rule) (pick : Layer → Option α)
    (has : ∀ layer, layer.has rule = (pick layer).isSome) (untyped : ∀ type, rule ≠ .typeName type) :
    (fallthrough layers types).Meets (fallthrough layers types).Matches
      (resolve ⟨layers⟩ rule pick) (resolve ⟨under :: layers⟩ rule pick) := by
  unfold resolve
  rw [List.reverse_cons, List.findSome?_append]
  cases found : layers.reverse.findSome? pick with
  | some a => exact .pure (.refl a)
  | none =>
    constructor
    · nofun
    · rintro _ _ ⟨⟩
      refine ⟨fun layer mem ↦ ?_, fun type typed ↦ absurd typed (untyped type)⟩
      rw [has, List.findSome?_eq_none_iff.mp found layer (List.mem_reverse.mpr mem)]
      rfl

theorem meets_find (type : SqlType) :
    (fallthrough layers types).Meets (fallthrough layers types).Matches (types.find type)
      (types.find type) := by
  unfold TypeNames.find
  cases found : types.layers.reverse.findSome? (· type) with
  | some name => exact .pure (.refl name)
  | none =>
    constructor
    · nofun
    · rintro _ _ ⟨⟩
      refine ⟨fun _ _ ↦ rfl, ?_⟩
      rintro _ ⟨⟩ names mem
      exact List.findSome?_eq_none_iff.mp found names (List.mem_reverse.mpr mem)

theorem meets_literal (value : Literal) :
    (fallthrough layers types).Meets (fallthrough layers types).Matches
      (literal ⟨layers⟩ value) (literal ⟨under :: layers⟩ value) := by
  cases value with
  | boolean b => exact (meets_resolve .booleanLiteral (·.booleanLiteral) (fun _ ↦ rfl) nofun).map (· b)
  | integer i => exact .pure (.refl _)
  | float x =>
    by_cases finite : x.isFinite
    · simp only [literal, floatLiteral, finite, if_true]
      exact .pure (.refl _)
    · simp only [literal, floatLiteral, finite, Bool.false_eq_true, if_false]
      exact .error nofun
  | string t => exact (meets_resolve .stringLiteral (·.stringLiteral) (fun _ ↦ rfl) nofun).map (· t)
  | dateTime t =>
    exact (meets_resolve .dateTimeLiteral (·.dateTimeLiteral) (fun _ ↦ rfl) nofun).map (· t)
  | date d => exact (meets_resolve .dateLiteral (·.dateLiteral) (fun _ ↦ rfl) nofun).map (· d)

theorem meets_lock (l : Lock) :
    (fallthrough layers types).Meets (fun c c' ↦ c' = c) (lock ⟨layers⟩ l)
      (lock ⟨under :: layers⟩ l) := by
  refine (meets_resolve .lock (·.lock) (fun _ ↦ rfl) nofun).bind fun rule rule' same ↦ ?_
  rw [same trivial]
  cases rule l with
  | some clause => exact .pure rfl
  | none => exact .error nofun

/-- A script with a layer below the others covers the one without. -/
theorem covers_fallthrough (under : Layer) {mark mark' : String}
    (marked : (fallthrough layers types).Matches mark mark') :
    Script.Covers (fallthrough layers types) False ⟨⟨layers⟩, types, mark⟩
      ⟨⟨under :: layers⟩, types, mark'⟩ where
  mark := marked
  identifier name :=
    (meets_resolve .identifierQuoting (·.quoteIdentifier) (fun _ ↦ rfl) nofun).map (· name)
  literal := meets_literal
  function f := (meets_resolve (.function f) (·.functions f) (fun _ ↦ rfl) nofun).imp
    fun _ _ same ↦ .inl (same trivial)
  aggregate kind := meets_resolve (.aggregate kind) (·.aggregates kind) (fun _ ↦ rfl) nofun
  operator op := (meets_resolve (.operator op) (·.operators op) (fun _ ↦ rfl) nofun).imp
    fun _ _ same ↦ same trivial
  tableAlias := meets_resolve .tableAlias (·.tableAlias) (fun _ ↦ rfl) nofun
  fromless := meets_resolve .fromless (·.fromless) (fun _ ↦ rfl) nofun
  fillFactor percent :=
    (meets_resolve .fillFactor (·.fillFactor) (fun _ ↦ rfl) nofun).map (· percent)
  offsetOrdering := meets_resolve .offsetOrdering (·.offsetOrdering) (fun _ ↦ rfl) nofun
  nullsOrdering := (meets_resolve .nullsOrdering (·.nullsOrdering) (fun _ ↦ rfl) nofun).imp
    fun _ _ same true ↦ (same trivial).trans true
  windowFunctions := (meets_resolve .windowFunctions (·.windowFunctions) (fun _ ↦ rfl) nofun).imp
    fun _ _ same true ↦ (same trivial).trans true
  paging := (meets_resolve .paging (·.paging) (fun _ ↦ rfl) nofun).imp
    fun _ _ same ↦ .inl (same trivial)
  lock := meets_lock
  type := meets_find

end Spelling

open Spelling in
/-- A layer below all the others leaves every command as it is, and a statement fails for the
lack of a rule only if no layer has the rule. -/
theorem Tree.command_under (layers : List Layer) (under : Layer) (types : TypeNames) (t : Tree) :
    (∀ c, t.command ⟨layers⟩ types = .ok c → t.command ⟨under :: layers⟩ types = .ok c) ∧
      ∀ name rule, t.command ⟨layers⟩ types = .error (.missingRule name rule) →
        rule.IsLacking layers types := by
  have meets : (fallthrough layers types).Meets (fallthrough layers types).Matches
      (t.command ⟨layers⟩ types) (t.command ⟨under :: layers⟩ types) :=
    meets_command (meets_resolve .parameterMark (·.parameterMark) (fun _ ↦ rfl) nofun)
      (fun _ _ ↦ covers_fallthrough under) fun _ ↦ False.elim
  refine ⟨fun c hc ↦ ?_, meets.missing⟩
  obtain ⟨c', hc', same⟩ := meets.ok c hc
  rwa [same trivial] at hc'

/-- The time now is written in the standard way above the layer of a server, and the standard
layer by itself has no logarithm to the base ten. -/
theorem Tree.command_under_of_standard :
    (mk 0 (.function .currentTimestamp [])).command ⟨[Spelling.SqlServer.v9, Spelling.ansi]⟩
        ⟨"SQL Server", []⟩ = .ok (.ofChain [.text "CURRENT_TIMESTAMP"] []) ∧
      Rule.IsLacking [Spelling.ansi] ⟨"SQL Server", []⟩ (.function .log10) := by
  have kept := (command_under [Spelling.ansi] Spelling.SqlServer.v9 ⟨"SQL Server", []⟩
    (mk 0 (.function .currentTimestamp []))).1
  have lacking := (command_under [Spelling.ansi] Spelling.SqlServer.v9 ⟨"SQL Server", []⟩
    (mk 0 (.function .log10 []))).2
  exact ⟨kept _ rfl, lacking "ANSI" _ rfl⟩

end SqlWright
