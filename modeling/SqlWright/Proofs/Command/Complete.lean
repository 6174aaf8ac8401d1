import Mathlib
import SqlWright.Server.Capabilities
import SqlWright.Spelling.OfDialect

/-!
# Complete spellings

The spelling of a supported version has a rule for every construct, and its rules for
paging, for row numbers and for offsets agree with what the server is said to do.
-/

namespace SqlWright

/-- Every construct has a rule, and what the server can do it can write. -/
structure Spelling.Complete (server : Server) (spelling : Spelling) (types : TypeNames) :
    Prop where
  identifier (name : String) : ∃ s, spelling.quoteIdentifier name = .ok s
  string (value : String) : ∃ s, spelling.stringLiteral value = .ok s
  boolean (b : Bool) : ∃ s, spelling.literal (.boolean b) = .ok s
  dateTime (t : Calendar.DateTime) : ∃ s, spelling.literal (.dateTime t) = .ok s
  date (d : Calendar.Date) : ∃ s, spelling.literal (.date d) = .ok s
  parameterMark : ∃ s, spelling.parameterMark = .ok s
  function (f : ScalarFunction) : ∃ t, spelling.functionTemplate f = .ok t
  aggregate (kind : AggregateKind) : ∃ s, spelling.aggregate kind = .ok s
  operator (op : BinaryOp) : ∃ t, spelling.operatorTemplate op = .ok t
  tableAlias : ∃ s, spelling.tableAlias = .ok s
  fromless : ∃ f, spelling.fromless = .ok f
  offsetOrdering : ∃ s, spelling.offsetOrdering = .ok s
  fillFactor (percent : UInt8) : ∃ s, spelling.fillFactor percent = .ok s
  paging : ∃ p, spelling.paging = .ok p ∧ (p = .unsupported → ¬server.limit ∧ ¬server.offset) ∧
    (p = .top → ¬server.offset)
  windowFunctions : spelling.windowFunctions = .ok server.rowNumber
  type (type : SqlType) : ∃ s, types.find type = .ok s

namespace Spelling

variable {α β : Type} {s : Spelling} {rule : Rule} {pick : Layer → Option α}

/-- A construct that some layer has a rule for has a rule. -/
theorem exists_resolve {layer : Layer} (h : layer ∈ s.layers) (hp : (pick layer).isSome) :
    ∃ a, s.resolve rule pick = .ok a := by
  have found : (s.layers.reverse.findSome? pick).isSome :=
    List.findSome?_isSome_iff.2 ⟨layer, List.mem_reverse.2 h, hp⟩
  obtain ⟨a, ha⟩ := Option.isSome_iff_exists.1 found
  exact ⟨a, by rw [resolve, ha]⟩

/-- A rule that is found can be applied. -/
theorem exists_apply {f : α → β} (h : ∃ a, s.resolve rule pick = .ok a) :
    ∃ b, (do return f (← s.resolve rule pick)) = Except.ok (ε := Error) b := by
  obtain ⟨a, ha⟩ := h
  exact ⟨f a, by rw [ha]; rfl⟩

end Spelling

/-- A type that some layer names has a name. -/
theorem TypeNames.exists_find {names : TypeNames} {layer : SqlType → Option String}
    {type : SqlType} (h : layer ∈ names.layers) (hp : (layer type).isSome) :
    ∃ s, names.find type = .ok s := by
  have found : (names.layers.reverse.findSome? (· type)).isSome :=
    List.findSome?_isSome_iff.2 ⟨layer, List.mem_reverse.2 h, hp⟩
  obtain ⟨s, hs⟩ := Option.isSome_iff_exists.1 found
  exact ⟨s, by rw [find, hs]⟩

/-- The layer has the rules that the standard layer lacks, other than those for paging. -/
structure Layer.CompletesStandard (base : Layer) : Prop where
  dateTime : base.dateTimeLiteral.isSome
  date : base.dateLiteral.isSome
  function (f : ScalarFunction) : (Spelling.ansi.functions f).isSome ∨ (base.functions f).isSome
  fillFactor : base.fillFactor.isSome

namespace Spelling

/-- A spelling over the standard layer and one that completes it has all rules; those that say
what a server can do are left to be looked at. -/
theorem complete_of_layers {server : Server} {s : Spelling} {types : TypeNames} (base : Layer)
    (names : SqlType → Option String) (standard : ansi ∈ s.layers) (own : base ∈ s.layers)
    (completes : base.CompletesStandard) (named : names ∈ types.layers)
    (total : ∀ type, (names type).isSome)
    (paging : ∃ p, s.paging = .ok p ∧ (p = .unsupported → ¬server.limit ∧ ¬server.offset) ∧
      (p = .top → ¬server.offset))
    (windowFunctions : s.windowFunctions = .ok server.rowNumber) :
    s.Complete server types where
  identifier name := exists_apply (exists_resolve standard rfl)
  string value := exists_apply (exists_resolve standard rfl)
  boolean b := exists_apply (exists_resolve standard rfl)
  dateTime t := exists_apply (exists_resolve own completes.dateTime)
  date d := exists_apply (exists_resolve own completes.date)
  parameterMark := exists_resolve standard rfl
  function f := by
    rcases completes.function f with h | h
    · exact exists_resolve standard h
    · exact exists_resolve own h
  aggregate kind := exists_resolve standard rfl
  operator op := exists_resolve standard rfl
  tableAlias := exists_resolve standard rfl
  fromless := exists_resolve standard rfl
  offsetOrdering := exists_resolve standard rfl
  fillFactor percent := exists_apply (exists_resolve own completes.fillFactor)
  paging := paging
  windowFunctions := windowFunctions
  type type := TypeNames.exists_find named (total type)

/-! ### Dialects -/

theorem PostgreSql.completesStandard : PostgreSql.v80.CompletesStandard where
  dateTime := rfl
  date := rfl
  function f := by cases f <;> decide
  fillFactor := rfl

theorem SqlServer.completesStandard : SqlServer.v9.CompletesStandard where
  dateTime := rfl
  date := rfl
  function f := by cases f <;> decide
  fillFactor := rfl

theorem Oracle.completesStandard : Oracle.v9.CompletesStandard where
  dateTime := rfl
  date := rfl
  function f := by cases f <;> decide
  fillFactor := rfl

theorem PostgreSql.paging_eq (v : Version) : (PostgreSql.spelling v).paging = .ok .limitOffset := by
  unfold PostgreSql.spelling
  split <;> split <;> split <;> split <;> rfl

theorem PostgreSql.windowFunctions_eq (v : Version) :
    (PostgreSql.spelling v).windowFunctions = .ok (v.isSince ⟨8, 4⟩) := by
  unfold PostgreSql.spelling
  by_cases h : v.isSince ⟨8, 4⟩
  · rw [if_pos h, h]
    split <;> split <;> split <;> rfl
  · rw [if_neg h, Bool.eq_false_iff.2 h]
    split <;> split <;> split <;> rfl

theorem SqlServer.paging_eq (v : Version) : (SqlServer.spelling v).paging =
    .ok (if v.isSince ⟨11, 0⟩ then .offsetFetch else .top) := by
  unfold SqlServer.spelling
  split <;> split <;> rfl

theorem SqlServer.windowFunctions_eq (v : Version) :
    (SqlServer.spelling v).windowFunctions = .ok true := by
  unfold SqlServer.spelling
  split <;> split <;> rfl

theorem Oracle.paging_eq (v : Version) : (Oracle.spelling v).paging =
    .ok (if v.isSince ⟨12, 0⟩ then .offsetFetch else .unsupported) := by
  unfold Oracle.spelling
  split <;> split <;> split <;> rfl

theorem Oracle.windowFunctions_eq (v : Version) :
    (Oracle.spelling v).windowFunctions = .ok true := by
  unfold Oracle.spelling
  split <;> split <;> split <;> rfl

/-- The spelling of every version of every dialect is complete. -/
theorem complete_dialect (dialect : Dialect) (v : Version) :
    (dialect.spelling v).Complete (.capabilities dialect v) (dialect.typeNames v) := by
  cases dialect with
  | postgreSql =>
    refine complete_of_layers PostgreSql.v80 PostgreSql.typeName
      (by simp [Dialect.spelling, PostgreSql.spelling])
      (by simp [Dialect.spelling, PostgreSql.spelling]) PostgreSql.completesStandard
      List.mem_cons_self (fun t ↦ ?_) ⟨_, PostgreSql.paging_eq v, nofun, nofun⟩
      (PostgreSql.windowFunctions_eq v)
    rcases t with _ | _ | _ | _ | _ | _ | _ | (_ | _) | _ | _ | _ | _ <;> rfl
  | sqlServer =>
    refine complete_of_layers SqlServer.v9 SqlServer.typeName
      (by simp [Dialect.spelling, SqlServer.spelling])
      (by simp [Dialect.spelling, SqlServer.spelling]) SqlServer.completesStandard
      List.mem_cons_self (fun t ↦ ?_) ⟨_, SqlServer.paging_eq v, ?_, ?_⟩
      (SqlServer.windowFunctions_eq v)
    · rcases t with _ | _ | _ | _ | _ | _ | _ | (_ | _) | _ | _ | _ | _ <;> rfl
    · split <;> nofun
    · intro top
      split at top
      · cases top
      · next h => exact h
  | oracle =>
    refine complete_of_layers Oracle.v9 Oracle.typeName
      (by simp [Dialect.spelling, Oracle.spelling])
      (by simp [Dialect.spelling, Oracle.spelling]) Oracle.completesStandard
      List.mem_cons_self (fun t ↦ ?_) ⟨_, Oracle.paging_eq v, ?_, ?_⟩
      (Oracle.windowFunctions_eq v)
    · rcases t with _ | _ | _ | _ | _ | _ | _ | (_ | _) | _ | _ | _ | _ <;> rfl
    · intro unsupported
      split at unsupported
      · cases unsupported
      · next h => exact ⟨h, h⟩
    · split <;> nofun

end Spelling

end SqlWright
