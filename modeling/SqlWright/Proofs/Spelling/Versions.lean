import SqlWright.Proofs.Lexing.Templates
import SqlWright.Proofs.Server.Capabilities
import SqlWright.Proofs.Spelling.Nodes
import SqlWright.Proofs.Spelling.Patterns

/-!
# Later versions

A later version of a server has a rule wherever an earlier one has, and refuses nothing that the
earlier one accepts. So a statement that has a command for a version has one for every later one
(`Tree.command_later`), but for dates with more than three arguments: SQL Server before 11 leaves
the others out, and from 11 on writes them too.
-/

namespace SqlWright

namespace Version

theorem isSince_refl (v : Version) : v.isSince v := by
  simp [isSince]

theorem isSince_trans {u v w : Version} (h : v.isSince u) (h' : w.isSince v) : w.isSince u := by
  simp only [isSince, Bool.or_eq_true, Bool.and_eq_true, decide_eq_true_eq, beq_iff_eq,
    UInt16.lt_iff_toNat_lt, UInt16.le_iff_toNat_le, ← UInt16.toNat_inj] at h h' ⊢
  omega

end Version

/-- All that is asked for is success. -/
def success : Demand := ⟨False, fun _ ↦ True⟩

namespace success

variable {α β : Type}

theorem meets {R : α → β → Prop} {x : Except Error α} {y : Except Error β}
    (h : ∀ a, x = .ok a → ∃ b, y = .ok b ∧ R a b) : success.Meets R x y :=
  ⟨h, fun _ _ _ ↦ trivial⟩

theorem matches_any (a b : α) : success.Matches a b := False.elim

/-- A rule that is there meets the demand whatever the first spelling does. -/
theorem meets_of_exists {x y : Except Error α} (h : ∃ b, y = .ok b) :
    success.Meets success.Matches x y := by
  obtain ⟨b, hb⟩ := h
  exact meets fun a _ ↦ ⟨b, hb, matches_any a b⟩

/-- Rules that are known meet the demand if what they say does. -/
theorem meets_of_eq {R : α → β → Prop} {x : Except Error α} {y : Except Error β} {a : α} {b : β}
    (hx : x = .ok a) (hy : y = .ok b) (h : R a b) : success.Meets R x y := by
  rw [hx, hy]
  exact .pure h

end success

/-! ### Arguments of templates -/

namespace Template

theorem args_pattern_of_le {text : String} (h : hasThreeSlots text.toList = true) {arity : Nat}
    (ha : 3 ≤ arity) : (pattern text).args arity = (pattern text).args 3 := by
  rw [args, args, parts, parts, symbols_of_le h ha]

/-- One pattern writes no arguments beside those of another if it does not for up to three. -/
theorem args_subset {old new : String} (ho : hasThreeSlots old.toList = true)
    (hn : hasThreeSlots new.toList = true)
    (small : ∀ arity ≤ 3, (pattern new).args arity ⊆ (pattern old).args arity) (arity : Nat) :
    (pattern new).args arity ⊆ (pattern old).args arity := by
  by_cases le : arity ≤ 3
  · exact small arity le
  · rw [args_pattern_of_le hn (by omega), args_pattern_of_le ho (by omega)]
    exact small 3 le_rfl

/-- A pattern that writes all of up to three arguments writes the first three of any number. -/
theorem mem_args_pattern {text : String} (h : hasThreeSlots text.toList = true)
    (small : ∀ arity ≤ 3, ∀ i < arity, i ∈ (pattern text).args arity) {arity i : Nat}
    (hi : i < arity) (first : i < 3) : i ∈ (pattern text).args arity := by
  by_cases le : arity ≤ 3
  · exact small arity le i hi
  · rw [args_pattern_of_le h (by omega)]
    exact small 3 le_rfl i first

end Template

namespace Spelling

/-! ### Rules of later versions -/

variable {s : Spelling}

theorem resolve_ok {α : Type} {rule : Rule} {pick : Layer → Option α} {a : α} :
    s.resolve rule pick = .ok a ↔ s.layers.reverse.findSome? pick = some a := by
  unfold resolve
  cases s.layers.reverse.findSome? pick with
  | none => exact ⟨nofun, nofun⟩
  | some b =>
    constructor
    · rintro ⟨⟩
      rfl
    · rintro ⟨⟩
      rfl

/-- Floating point numbers are written alike everywhere, and a complete spelling writes all other
constants. -/
theorem meets_literal_of_complete {server : Server} {s' : Spelling} {types : TypeNames}
    (complete : s'.Complete server types) (value : Literal) :
    success.Meets success.Matches (s.literal value) (s'.literal value) := by
  cases value with
  | boolean b => exact success.meets_of_exists (complete.boolean b)
  | integer i => exact success.meets_of_exists ⟨_, rfl⟩
  | float x => exact success.meets fun text h ↦ ⟨text, h, success.matches_any _ _⟩
  | string t => exact success.meets_of_exists (complete.string t)
  | dateTime t => exact success.meets_of_exists (complete.dateTime t)
  | date d => exact success.meets_of_exists (complete.date d)

/-- A complete spelling covers another one if the rules that say what a server can do cover those
of the other, and so do the templates. -/
theorem covers_of_complete {surplus : Prop} {server : Server} {s s' : Spelling}
    {types types' : TypeNames} (complete : s'.Complete server types') (mark mark' : String)
    (function : ∀ f t, s.functionTemplate f = .ok t → ∃ t', s'.functionTemplate f = .ok t' ∧
      (t' = t ∨ ∀ arity, ∀ i ∈ t'.args arity, i ∈ t.args arity ∨
        surplus ∧ f = .dateTimeConstruct ∧ 3 ≤ i))
    (operator : ∀ op t, s.operatorTemplate op = .ok t → s'.operatorTemplate op = .ok t)
    (nullsOrdering : success.Meets (fun b b' ↦ b = true → b' = true) s.nullsOrdering
      s'.nullsOrdering)
    (windowFunctions : success.Meets (fun b b' ↦ b = true → b' = true) s.windowFunctions
      s'.windowFunctions)
    (paging : success.Meets (fun p p' ↦ p' = p ∨ (p = .top ∨ p = .unsupported) ∧ p' = .offsetFetch)
      s.paging s'.paging)
    (lock : ∀ l clause, s.lock l = .ok clause → s'.lock l = .ok clause) :
    Script.Covers success surplus ⟨s, types, mark⟩ ⟨s', types', mark'⟩ where
  mark := success.matches_any mark mark'
  identifier name := success.meets_of_exists (complete.identifier name)
  literal := meets_literal_of_complete complete
  function f := success.meets fun t ht ↦ by
    obtain ⟨t', ht', same | mentions⟩ := function f t ht
    · exact ⟨t', ht', .inl same⟩
    · refine ⟨t', ht', .inr ⟨id, fun _ ↦ trivial, fun arity i mem ↦ ?_⟩⟩
      rw [← Template.mem_args] at mem ⊢
      exact mentions arity i mem
  aggregate kind := success.meets_of_exists (complete.aggregate kind)
  operator op := success.meets fun t ht ↦ ⟨t, operator op t ht, rfl⟩
  tableAlias := success.meets_of_exists complete.tableAlias
  fromless := success.meets_of_exists complete.fromless
  fillFactor percent := success.meets_of_exists (complete.fillFactor percent)
  offsetOrdering := success.meets_of_exists complete.offsetOrdering
  nullsOrdering := nullsOrdering
  windowFunctions := windowFunctions
  paging := paging.imp fun p p' both ↦ both.imp_right fun ⟨older, fetches⟩ ↦
    ⟨id, fun _ ↦ trivial, older, fetches, complete.offsetOrdering⟩
  lock l := success.meets fun clause hc ↦ ⟨clause, lock l clause hc, rfl⟩
  type type := success.meets_of_exists (complete.type type)

/-! ### Dialects -/

section Dialects

variable {surplus : Prop} {v w : Version} (later : w.isSince v) (mark mark' : String)

namespace PostgreSql

theorem functionTemplate_iff (v : Version) (f : ScalarFunction) (t : Template) :
    (PostgreSql.spelling v).functionTemplate f = .ok t ↔
      [v80, ansi].findSome? (·.functions f) = some t := by
  rw [functionTemplate, resolve_ok]
  unfold PostgreSql.spelling
  split <;> split <;> split <;> split <;> exact Iff.rfl

theorem operatorTemplate_iff (v : Version) (op : BinaryOp) (t : Template) :
    (PostgreSql.spelling v).operatorTemplate op = .ok t ↔
      [v80, ansi].findSome? (·.operators op) = some t := by
  rw [operatorTemplate, resolve_ok]
  unfold PostgreSql.spelling
  split <;> split <;> split <;> split <;> exact Iff.rfl

/-- Locks that wait are written as before by the rule that has others too. -/
theorem lock_of_waitingLock {l : Lock} {clause : LockClause} (h : waitingLock l = some clause) :
    PostgreSql.lock l = some clause := by
  unfold waitingLock at h
  unfold PostgreSql.lock
  cases hb : l.behavior <;> simp_all

include later

theorem covers_later : Script.Covers success surplus
    ⟨PostgreSql.spelling v, PostgreSql.typeNames v, mark⟩
    ⟨PostgreSql.spelling w, PostgreSql.typeNames w, mark'⟩ := by
  refine covers_of_complete (complete_dialect .postgreSql w) mark mark' (fun f t ht ↦ ?_)
    (fun op t ht ↦ ?_)
    (success.meets_of_eq (nullsOrdering_eq v) (nullsOrdering_eq w) fun h ↦
      Version.isSince_trans h later)
    (success.meets_of_eq (windowFunctions_eq v) (windowFunctions_eq w) fun h ↦
      Version.isSince_trans h later)
    (success.meets_of_eq (paging_eq v) (paging_eq w) (.inl rfl)) fun l clause hl ↦ ?_
  · exact ⟨t, (functionTemplate_iff w f t).mpr ((functionTemplate_iff v f t).mp ht), .inl rfl⟩
  · exact (operatorTemplate_iff w op t).mpr ((operatorTemplate_iff v op t).mp ht)
  · rw [lock_ok (resolve_lock_eq v)] at hl
    rw [Dialect.spelling, lock_ok (resolve_lock_eq w)]
    by_cases since : v.isSince ⟨8, 1⟩
    · rw [if_pos (Version.isSince_trans since later)]
      rwa [if_pos since] at hl
    · rw [if_neg since] at hl
      split
      · exact lock_of_waitingLock hl
      · exact hl

end PostgreSql

namespace SqlServer

theorem operatorTemplate_iff (v : Version) (op : BinaryOp) (t : Template) :
    (SqlServer.spelling v).operatorTemplate op = .ok t ↔
      [v9, ansi].findSome? (·.operators op) = some t := by
  rw [operatorTemplate, resolve_ok]
  unfold SqlServer.spelling
  split <;> split <;> exact Iff.rfl

/-- Functions that no version brought are written as in 9. -/
theorem functionTemplate_iff (v : Version) {f : ScalarFunction} (h10 : functions10 f = none)
    (h11 : functions11 f = none) (t : Template) :
    (SqlServer.spelling v).functionTemplate f = .ok t ↔
      [v9, ansi].findSome? (·.functions f) = some t := by
  rw [functionTemplate, resolve_ok]
  unfold SqlServer.spelling
  split <;> split <;> simp [v10, v11, h10, h11, List.findSome?_cons]

theorem dateTimeConstruct_eq (v : Version) :
    (SqlServer.spelling v).functionTemplate .dateTimeConstruct =
      .ok (if v.isSince ⟨11, 0⟩ then .call "DATEFROMPARTS" else .pattern
        "DATEADD(dd, {2} - 1, DATEADD(mm, {1} - 1, DATEADD(yy, {0} - 1900, 0)))") := by
  unfold SqlServer.spelling
  split <;> split <;> rfl

theorem currentDate_eq (v : Version) : (SqlServer.spelling v).functionTemplate .currentDate =
    .ok (.pattern (if v.isSince ⟨10, 0⟩ then "CAST(GETDATE() AS date)"
      else "DATEADD(dd, DATEDIFF(dd, 0, GETDATE()), 0)")) := by
  unfold SqlServer.spelling
  split <;> split <;> rfl

theorem dateTimeTruncate_eq (v : Version) :
    (SqlServer.spelling v).functionTemplate .dateTimeTruncate =
      .ok (.pattern (if v.isSince ⟨10, 0⟩ then "CAST({0} AS date)"
        else "DATEADD(dd, DATEDIFF(dd, 0, {0}), 0)")) := by
  unfold SqlServer.spelling
  split <;> split <;> rfl

include later

/-- Dates are written with arguments that are left out before 11 only if they have more than
three. -/
theorem mem_args_dateTimeConstruct {t : Template}
    (ht : (SqlServer.spelling v).functionTemplate .dateTimeConstruct = .ok t) :
    ∃ t', (SqlServer.spelling w).functionTemplate .dateTimeConstruct = .ok t' ∧
      (t' = t ∨ ∀ arity, ∀ i ∈ t'.args arity, i ∈ t.args arity ∨
        (¬v.isSince ⟨11, 0⟩ ∧ w.isSince ⟨11, 0⟩) ∧ 3 ≤ i) := by
  rw [dateTimeConstruct_eq, Except.ok.injEq] at ht
  refine ⟨_, dateTimeConstruct_eq w, ?_⟩
  subst ht
  by_cases old : v.isSince ⟨11, 0⟩
  · rw [if_pos old, if_pos (Version.isSince_trans old later)]
    exact .inl rfl
  · by_cases new : w.isSince ⟨11, 0⟩
    · right
      rw [if_neg old, if_pos new]
      intro arity i mem
      rw [Template.args_call, List.mem_range] at mem
      by_cases first : i < 3
      · exact .inl (Template.mem_args_pattern (by decide) (by decide) mem first)
      · exact .inr ⟨⟨old, new⟩, by omega⟩
    · rw [if_neg old, if_neg new]
      exact .inl rfl

/-- A pattern that 10 brought may be taken for the one before if it writes no other arguments. -/
theorem args_subset_of_isSince {f : ScalarFunction} {new old : String} {t : Template}
    (eq : ∀ v, (SqlServer.spelling v).functionTemplate f =
      .ok (.pattern (if v.isSince ⟨10, 0⟩ then new else old)))
    (subset : ∀ arity, (Template.pattern new).args arity ⊆ (Template.pattern old).args arity)
    (ht : (SqlServer.spelling v).functionTemplate f = .ok t) :
    ∃ t', (SqlServer.spelling w).functionTemplate f = .ok t' ∧
      (t' = t ∨ ∀ arity, ∀ i ∈ t'.args arity, i ∈ t.args arity) := by
  rw [eq v, Except.ok.injEq] at ht
  refine ⟨_, eq w, ?_⟩
  subst ht
  by_cases since : v.isSince ⟨10, 0⟩
  · rw [if_pos since, if_pos (Version.isSince_trans since later)]
    exact .inl rfl
  · rw [if_neg since]
    split
    · exact .inr fun arity i mem ↦ subset arity mem
    · exact .inl rfl

theorem covers_later : Script.Covers success (¬v.isSince ⟨11, 0⟩ ∧ w.isSince ⟨11, 0⟩)
    ⟨SqlServer.spelling v, SqlServer.typeNames v, mark⟩
    ⟨SqlServer.spelling w, SqlServer.typeNames w, mark'⟩ := by
  refine covers_of_complete (complete_dialect .sqlServer w) mark mark' (fun f t ht ↦ ?_)
    (fun op t ht ↦ ?_)
    (success.meets_of_eq (nullsOrdering_eq v) (nullsOrdering_eq w) id)
    (success.meets_of_eq (windowFunctions_eq v) (windowFunctions_eq w) id)
    (success.meets_of_eq (paging_eq v) (paging_eq w) ?_) fun l clause hl ↦ ?_
  · by_cases construct : f = .dateTimeConstruct
    · subst construct
      obtain ⟨t', ht', both⟩ := mem_args_dateTimeConstruct later ht
      refine ⟨t', ht', both.imp_right fun mentions arity i mem ↦ ?_⟩
      exact (mentions arity i mem).imp_right fun ⟨more, late⟩ ↦ ⟨more, rfl, late⟩
    have kept : ∃ t', (SqlServer.spelling w).functionTemplate f = .ok t' ∧
        (t' = t ∨ ∀ arity, ∀ i ∈ t'.args arity, i ∈ t.args arity) := by
      by_cases today : f = .currentDate
      · subst today
        exact args_subset_of_isSince later currentDate_eq
          (Template.args_subset (by decide) (by decide) (by decide)) ht
      by_cases day : f = .dateTimeTruncate
      · subst day
        exact args_subset_of_isSince later dateTimeTruncate_eq
          (Template.args_subset (by decide) (by decide) (by decide)) ht
      have h10 : functions10 f = none := by cases f <;> first | rfl | contradiction
      have h11 : functions11 f = none := by cases f <;> first | rfl | contradiction
      exact ⟨t, (functionTemplate_iff w h10 h11 t).mpr ((functionTemplate_iff v h10 h11 t).mp ht),
        .inl rfl⟩
    obtain ⟨t', ht', both⟩ := kept
    exact ⟨t', ht', both.imp_right fun mentions arity i mem ↦ .inl (mentions arity i mem)⟩
  · exact (operatorTemplate_iff w op t).mpr ((operatorTemplate_iff v op t).mp ht)
  · by_cases since : v.isSince ⟨11, 0⟩
    · rw [if_pos since, if_pos (Version.isSince_trans since later)]
      exact .inl rfl
    · rw [if_neg since]
      split
      · exact .inr ⟨.inl rfl, rfl⟩
      · exact .inl rfl
  · rw [lock_ok (resolve_lock_eq v)] at hl
    rwa [Dialect.spelling, lock_ok (resolve_lock_eq w)]

end SqlServer

namespace Oracle

theorem functionTemplate_iff (v : Version) (f : ScalarFunction) (t : Template) :
    (Oracle.spelling v).functionTemplate f = .ok t ↔
      [v9, ansi].findSome? (·.functions f) = some t := by
  rw [functionTemplate, resolve_ok]
  unfold Oracle.spelling
  split <;> split <;> split <;> exact Iff.rfl

theorem operatorTemplate_iff (v : Version) (op : BinaryOp) (t : Template) :
    (Oracle.spelling v).operatorTemplate op = .ok t ↔
      [v9, ansi].findSome? (·.operators op) = some t := by
  rw [operatorTemplate, resolve_ok]
  unfold Oracle.spelling
  split <;> split <;> split <;> exact Iff.rfl

/-- Locks that do not pass over locked rows are written as before by the rule of 11. -/
theorem lock11_of_lock {l : Lock} {clause : LockClause} (h : Oracle.lock l = some clause) :
    lock11 l = some clause := by
  obtain ⟨mode, behavior⟩ := l
  cases mode <;> cases behavior <;> first | exact h | cases h

include later

theorem covers_later : Script.Covers success surplus
    ⟨Oracle.spelling v, Oracle.typeNames v, mark⟩
    ⟨Oracle.spelling w, Oracle.typeNames w, mark'⟩ := by
  refine covers_of_complete (complete_dialect .oracle w) mark mark' (fun f t ht ↦ ?_)
    (fun op t ht ↦ ?_)
    (success.meets_of_eq (nullsOrdering_eq v) (nullsOrdering_eq w) id)
    (success.meets_of_eq (windowFunctions_eq v) (windowFunctions_eq w) id)
    (success.meets_of_eq (paging_eq v) (paging_eq w) ?_) fun l clause hl ↦ ?_
  · exact ⟨t, (functionTemplate_iff w f t).mpr ((functionTemplate_iff v f t).mp ht), .inl rfl⟩
  · exact (operatorTemplate_iff w op t).mpr ((operatorTemplate_iff v op t).mp ht)
  · by_cases since : v.isSince ⟨12, 0⟩
    · rw [if_pos since, if_pos (Version.isSince_trans since later)]
      exact .inl rfl
    · rw [if_neg since]
      split
      · exact .inr ⟨.inr rfl, rfl⟩
      · exact .inl rfl
  · rw [lock_ok (resolve_lock_eq v)] at hl
    rw [Dialect.spelling, lock_ok (resolve_lock_eq w)]
    by_cases since : v.isSince ⟨11, 0⟩
    · rw [if_pos (Version.isSince_trans since later)]
      rwa [if_pos since] at hl
    · rw [if_neg since] at hl
      split
      · exact lock11_of_lock hl
      · exact hl

end Oracle

/-- A later version covers an earlier one, and only on SQL Server from before 11 to 11 or later
does it write arguments that the earlier one leaves out. -/
theorem covers_later (dialect : Dialect) (later : w.isSince v) (mark mark' : String) :
    Script.Covers success (dialect = .sqlServer ∧ ¬v.isSince ⟨11, 0⟩ ∧ w.isSince ⟨11, 0⟩)
      ⟨dialect.spelling v, dialect.typeNames v, mark⟩
      ⟨dialect.spelling w, dialect.typeNames w, mark'⟩ := by
  cases dialect with
  | postgreSql => exact PostgreSql.covers_later later mark mark'
  | sqlServer =>
    rw [eq_self, true_and]
    exact SqlServer.covers_later later mark mark'
  | oracle => exact Oracle.covers_later later mark mark'

end Dialects

end Spelling

namespace Tree

theorem timesAre_mk {P : Tree → Prop} {i : Nat} {n : Node Tree} : (mk i n).TimesAre P ↔
    (∀ a ∈ n.timeArgs, P a) ∧ ∀ c ∈ n.children, c.TimesAre P :=
  ⟨fun ⟨own, below⟩ ↦ ⟨own, below⟩, fun ⟨own, below⟩ ↦ .mk own below⟩

theorem TimesAre.imp {P Q : Tree → Prop} (h : ∀ t, P t → Q t) {t : Tree} (ht : t.TimesAre P) :
    t.TimesAre Q := by
  induction ht with
  | mk own below ih => exact .mk (fun a ha ↦ h a (own a ha)) ih

/-- A statement that has a command is written under every hint and mark of parameters. -/
theorem succeeds_of_command {dialect : Dialect} {v : Version} {t : Tree} {c : Command}
    (h : t.command (dialect.spelling v) (dialect.typeNames v) = .ok c) (mark : String)
    (hint : Option String) :
    Writing.Succeeds (Script.tree ⟨dialect.spelling v, dialect.typeNames v, mark⟩ t hint) := by
  obtain ⟨own, chain, parameters, -, written, -⟩ := command_ok.mp h
  have covers := Spelling.covers_later dialect v.isSince_refl own mark
  exact (covers.copies_tree (fun more ↦ absurd more.2.2 more.2.1)
    (success.matches_any none hint)).succeeds not_false written

/-- A statement that has a command for a version has one for every later version. On SQL Server
from before 11 to 11 or later, what its dates have after the day must have commands as well. -/
theorem command_later (dialect : Dialect) {v w : Version} (later : w.isSince v) {t : Tree}
    {c : Command} (h : t.command (dialect.spelling v) (dialect.typeNames v) = .ok c)
    (times : dialect = .sqlServer → ¬v.isSince ⟨11, 0⟩ → w.isSince ⟨11, 0⟩ →
      t.TimesAre fun a ↦ ∃ c, a.command (dialect.spelling w) (dialect.typeNames w) = .ok c) :
    ∃ c, t.command (dialect.spelling w) (dialect.typeNames w) = .ok c := by
  have written (mark : String)
      (more : dialect = .sqlServer ∧ ¬v.isSince ⟨11, 0⟩ ∧ w.isSince ⟨11, 0⟩) :
      t.TimesAre fun a ↦ ∀ hint,
        Writing.Succeeds (Script.tree ⟨dialect.spelling w, dialect.typeNames w, mark⟩ a hint) :=
    (times more.1 more.2.1 more.2.2).imp fun a ⟨_, ha⟩ ↦ succeeds_of_command ha mark
  have meets := meets_command
    (success.meets_of_exists (Spelling.complete_dialect dialect w).parameterMark)
    (fun mark mark' _ ↦ Spelling.covers_later dialect later mark mark') written
  obtain ⟨c', hc', -⟩ := meets.ok c h
  exact ⟨c', hc'⟩

/-- Date of three numbers, with an expression after the day. -/
def dateWith (time : Tree) : Tree :=
  let number (i : Int64) : Tree := mk 0 (.literal (.integer i))
  mk 0 (.select { columns :=
    [⟨mk 0 (.function .dateTimeConstruct [number 1, number 2, number 3, time]), none⟩] })

/-- SQL Server 10 leaves a column after the day out, and 11 writes it. -/
theorem command_later_of_column :
    Version.isSince ⟨11, 0⟩ ⟨10, 0⟩ ∧
      ∃ c, (dateWith (mk 0 (.column none "x"))).command (Dialect.sqlServer.spelling ⟨11, 0⟩)
        (Dialect.sqlServer.typeNames ⟨11, 0⟩) = .ok c := by
  have later : Version.isSince ⟨11, 0⟩ ⟨10, 0⟩ := by decide
  refine ⟨later, command_later .sqlServer later rfl fun _ _ _ ↦ ?_⟩
  have written : ∃ c, (mk 0 (.column none "x")).command (Dialect.sqlServer.spelling ⟨11, 0⟩)
      (Dialect.sqlServer.typeNames ⟨11, 0⟩) = .ok c := ⟨_, rfl⟩
  simpa [dateWith, timesAre_mk, Node.timeArgs, Node.children, Select.children, Select.exprs]
    using written

/-- Number of a row in an ordering that says where NULL goes. -/
def rowNumberByNulls : Tree :=
  mk 0 (.rowNumber [⟨mk 0 (.column none "x"), true, some true⟩])

/-- SQL Server 10 leaves the number of a row out of a date, and 11 cannot write it. -/
theorem dateWith_rowNumber_lost :
    Version.isSince ⟨11, 0⟩ ⟨10, 0⟩ ∧
      (∃ c, (dateWith rowNumberByNulls).command (Dialect.sqlServer.spelling ⟨10, 0⟩)
        (Dialect.sqlServer.typeNames ⟨10, 0⟩) = .ok c) ∧
      ¬∃ c, (dateWith rowNumberByNulls).command (Dialect.sqlServer.spelling ⟨11, 0⟩)
        (Dialect.sqlServer.typeNames ⟨11, 0⟩) = .ok c := by
  have refused : (dateWith rowNumberByNulls).command (Dialect.sqlServer.spelling ⟨11, 0⟩)
      (Dialect.sqlServer.typeNames ⟨11, 0⟩) =
        .error (.unsupported "NULLS FIRST/LAST ordering" "SQL Server 11") := rfl
  exact ⟨by decide, ⟨_, rfl⟩, by simp [refused]⟩

end Tree

end SqlWright
