import SqlWright.Proofs.Lexing.Blanking
import SqlWright.Proofs.Lexing.Layers

/-!
# Spellings that keep tokens apart

What a spelling puts into statements keeps the tokens of a text apart, if its layers do and the
latest rule for strings goes with the lexical rules. That is so for every version of every dialect.
-/

namespace SqlWright

/-- Both fail, or both succeed with results that are related. -/
inductive Agree {ε α β : Type} (R : α → β → Prop) : Except ε α → Except ε β → Prop where
  | error (e e' : ε) : Agree R (.error e) (.error e')
  | ok {a : α} {b : β} (h : R a b) : Agree R (.ok a) (.ok b)

namespace Agree

variable {ε α β γ δ : Type} {R : α → β → Prop} {S : γ → δ → Prop} {x : Except ε α} {y : Except ε β}

theorem mono {R' : α → β → Prop} (h : Agree R x y) (hr : ∀ a b, R a b → R' a b) :
    Agree R' x y := by
  cases h with
  | error e e' => exact .error e e'
  | ok both => exact .ok (hr _ _ both)

theorem bind (h : Agree R x y) {f : α → Except ε γ} {g : β → Except ε δ}
    (hf : ∀ a b, R a b → Agree S (f a) (g b)) : Agree S (x >>= f) (y >>= g) := by
  cases h with
  | error e e' => exact .error e e'
  | ok both => exact hf _ _ both

theorem of_common {z : Except ε β} {R' : α → α → Prop} {x' : Except ε α} (h : Agree R x z)
    (h' : Agree R x' z) (hr : ∀ a a' b, R a b → R a' b → R' a a') : Agree R' x x' := by
  cases h with
  | error e e' =>
    cases h' with
    | error e₁ _ => exact .error e e₁
  | ok both =>
    cases h' with
    | ok both' => exact .ok (hr _ _ _ both both')

end Agree

/-- Every rule of the spelling keeps tokens apart. -/
structure Spelling.Lexes (l : Lexicon) (s : Spelling) : Prop where
  identifier : ∀ x y, Agree (l.Matches .ground .outside) (s.quoteIdentifier x) (s.quoteIdentifier y)
  literal : ∀ value, Agree (l.Matches .ground .outside) (s.literal value) (s.literal value.blanked)
  mark : ∀ mark, s.parameterMark = .ok mark → l.Passes .ground .ground mark
  function : ∀ f t, s.functionTemplate f = .ok t → l.admits t = true
  aggregate : ∀ kind name, s.aggregate kind = .ok name → l.Passes .ground .outside name
  operator : ∀ op t, s.operatorTemplate op = .ok t → l.admits t = true
  lock : ∀ k clause, s.lock k = .ok clause → l.Passes .outside .outside clause.text
  tableAlias : ∀ text, s.tableAlias = .ok text → l.Passes .outside .ground text
  fromless : ∀ name, s.fromless = .ok (.table name) → l.Passes .ground .outside name
  fillFactor : ∀ percent text, s.fillFactor percent = .ok (some text) →
    l.Passes .outside .outside text
  offsetOrdering : ∀ text, s.offsetOrdering = .ok text → l.Passes .outside .outside text

/-- Names of types keep tokens apart. -/
def TypeNames.Lexes (l : Lexicon) (names : TypeNames) : Prop :=
  ∀ type name, names.find type = .ok name → l.Passes .ground .outside name

namespace Spelling

section Layers

variable {l : Lexicon} {s : Spelling} {α : Type} {rule : Rule} {pick : Layer → Option α}

theorem exists_layer {a : α} (h : s.resolve rule pick = .ok a) :
    ∃ layer ∈ s.layers, pick layer = some a := by
  unfold resolve at h
  split at h
  next b found =>
    cases h
    obtain ⟨layer, mem, picked⟩ := List.exists_of_findSome?_eq_some found
    exact ⟨layer, List.mem_reverse.mp mem, picked⟩
  next => cases h

/-- A result of the rule that decides is one of the rule of some layer. -/
theorem exists_rule {β : Type} {f : α → β} {b : β} (h : f <$> s.resolve rule pick = .ok b) :
    ∃ layer ∈ s.layers, ∃ a, pick layer = some a ∧ f a = b := by
  cases ha : s.resolve rule pick with
  | error e =>
    rw [ha] at h
    cases h
  | ok a =>
    rw [ha] at h
    cases h
    obtain ⟨layer, mem, picked⟩ := exists_layer ha
    exact ⟨layer, mem, a, picked, rfl⟩

/-- The clause of a lock is that of the rule of some layer. -/
theorem exists_lockRule {k : Lock} {clause : LockClause} (h : s.lock k = .ok clause) :
    ∃ layer ∈ s.layers, ∃ rule, layer.lock = some rule ∧ rule k = some clause := by
  cases hr : s.resolve .lock (·.lock) with
  | error e =>
    rw [Spelling.lock, hr] at h
    cases h
  | ok rule =>
    obtain ⟨layer, mem, picked⟩ := exists_layer hr
    simp only [Spelling.lock, hr, bind, Except.bind] at h
    split at h
    next given =>
      cases h
      exact ⟨layer, mem, rule, picked, given⟩
    next => cases h

/-- A rule that every layer follows is followed by the one that decides. -/
theorem agree_resolve {β : Type} {R : β → β → Prop} {f g : α → β}
    (h : ∀ layer ∈ s.layers, ∀ a ∈ pick layer, R (f a) (g a)) :
    Agree R (f <$> s.resolve rule pick) (g <$> s.resolve rule pick) := by
  cases ha : s.resolve rule pick with
  | error e => exact .error e e
  | ok a =>
    obtain ⟨layer, mem, picked⟩ := exists_layer ha
    exact .ok (h layer mem a picked)

/-- A spelling keeps tokens apart if its layers do and its strings are quoted as the lexical rules
ask for. -/
theorem lexes_of_layers (h : ∀ layer ∈ s.layers, layer.Lexes l)
    (strings : ∀ x y, Agree (l.Matches .ground .outside) (s.stringLiteral x) (s.stringLiteral y)) :
    s.Lexes l where
  identifier x y := agree_resolve fun layer mem quote hq ↦ (h layer mem).identifier quote hq x y
  literal value := by
    cases value with
    | boolean b => exact agree_resolve fun layer mem text ht ↦ (h layer mem).boolean text ht b
    | integer i => exact .ok (Lexicon.passes_of_isCalm (Lexicon.ofInt_isCalm i.toInt))
    | float x =>
      change Agree _ (floatLiteral x) (floatLiteral x)
      unfold floatLiteral
      split
      · refine .ok (Lexicon.passes_of_isCalm ?_)
        split
        · exact Lexicon.floatText_isCalm x
        · rw [String.toList_append, List.all_append, Lexicon.floatText_isCalm]
          rfl
      · exact .error _ _
    | string t => exact strings t ""
    | dateTime t => exact agree_resolve fun layer mem text ht ↦ (h layer mem).dateTime text ht t
    | date d => exact agree_resolve fun layer mem text ht ↦ (h layer mem).date text ht d
  mark mark hm := by
    obtain ⟨layer, mem, picked⟩ := exists_layer hm
    exact (h layer mem).mark mark picked
  function f t ht := by
    obtain ⟨layer, mem, picked⟩ := exists_layer ht
    exact (h layer mem).function f t picked
  aggregate kind name hn := by
    obtain ⟨layer, mem, picked⟩ := exists_layer hn
    exact (h layer mem).aggregate kind name picked
  operator op t ht := by
    obtain ⟨layer, mem, picked⟩ := exists_layer ht
    exact (h layer mem).operator op t picked
  lock k clause hc := by
    obtain ⟨layer, mem, rule, picked, given⟩ := exists_lockRule hc
    exact (h layer mem).lock rule picked k clause given
  tableAlias text ht := by
    obtain ⟨layer, mem, picked⟩ := exists_layer ht
    exact (h layer mem).tableAlias text picked
  fromless name hn := by
    obtain ⟨layer, mem, picked⟩ := exists_layer hn
    exact (h layer mem).fromless name picked
  fillFactor percent text ht := by
    obtain ⟨layer, mem, rule, picked, given⟩ := exists_rule ht
    exact (h layer mem).fillFactor rule picked percent text given
  offsetOrdering text ht := by
    obtain ⟨layer, mem, picked⟩ := exists_layer ht
    exact (h layer mem).offsetOrdering text picked

theorem exists_names {names : TypeNames} {type : SqlType} {name : String}
    (h : names.find type = .ok name) : ∃ layer ∈ names.layers, layer type = some name := by
  unfold TypeNames.find at h
  split at h
  next found =>
    cases h
    obtain ⟨layer, mem, named⟩ := List.exists_of_findSome?_eq_some found
    exact ⟨layer, List.mem_reverse.mp mem, named⟩
  next => cases h

end Layers

open Lexicon

/-- Strings are quoted as the lexical rules of the version ask for. -/
theorem agree_strings (d : Dialect) (v : Version) (x y : String) :
    Agree ((d.lexicon v).Matches .ground .outside) ((d.spelling v).stringLiteral x)
      ((d.spelling v).stringLiteral y) := by
  rw [d.stringLiteral_eq, d.stringLiteral_eq]
  exact .ok (matches_quotedString d v x y)

namespace PostgreSql

/-- What every layer has, the layers of every version have. -/
theorem forall_layers {P : Layer → Prop} (v : Version) (hansi : P ansi) (h80 : P v80)
    (h81 : P v81) (h82 : P v82) (h83 : P v83) (h84 : P v84) :
    ∀ layer ∈ (spelling v).layers, P layer := by
  intro layer mem
  simp only [spelling, List.mem_append, List.mem_cons, List.not_mem_nil, or_false,
    List.mem_ite_nil_right] at mem
  obtain ((((rfl | rfl) | ⟨-, rfl⟩) | ⟨-, rfl⟩) | ⟨-, rfl⟩) | ⟨-, rfl⟩ := mem
  · exact hansi
  · exact h80
  · exact h81
  · exact h82
  · exact h83
  · exact h84

theorem forall_names {P : (SqlType → Option String) → Prop} (v : Version) (first : P typeName)
    (newer : P newerTypeName) : ∀ names ∈ (typeNames v).layers, P names := by
  intro names mem
  simp only [typeNames, List.mem_cons, List.mem_ite_nil_right, List.not_mem_nil, or_false] at mem
  obtain rfl | ⟨-, rfl⟩ := mem
  · exact first
  · exact newer

theorem lexes (v : Version) : (spelling v).Lexes (Dialect.postgreSql.lexicon v) :=
  lexes_of_layers
    (forall_layers v ansi_lexes (v80_lexes _) v81_lexes v82_lexes v83_lexes v84_lexes)
    (agree_strings .postgreSql v)

end PostgreSql

namespace SqlServer

/-- What every layer has, the layers of every version have. -/
theorem forall_layers {P : Layer → Prop} (v : Version) (hansi : P ansi) (h9 : P v9) (h10 : P v10)
    (h11 : P v11) :
    ∀ layer ∈ (spelling v).layers, P layer := by
  intro layer mem
  simp only [spelling, List.mem_append, List.mem_cons, List.not_mem_nil, or_false,
    List.mem_ite_nil_right] at mem
  obtain ((rfl | rfl) | ⟨-, rfl⟩) | ⟨-, rfl⟩ := mem
  · exact hansi
  · exact h9
  · exact h10
  · exact h11

theorem forall_names {P : (SqlType → Option String) → Prop} (v : Version) (first : P typeName)
    (newer : P newerTypeName) : ∀ names ∈ (typeNames v).layers, P names := by
  intro names mem
  simp only [typeNames, List.mem_cons, List.mem_ite_nil_right, List.not_mem_nil, or_false] at mem
  obtain rfl | ⟨-, rfl⟩ := mem
  · exact first
  · exact newer

theorem lexes (v : Version) : (spelling v).Lexes (Dialect.sqlServer.lexicon v) :=
  lexes_of_layers
    (forall_layers v ansi_lexes v9_lexes v10_lexes v11_lexes)
    (agree_strings .sqlServer v)

end SqlServer

namespace Oracle

/-- What every layer has, the layers of every version have. -/
theorem forall_layers {P : Layer → Prop} (v : Version) (hansi : P ansi) (h9 : P v9) (h10 : P v10)
    (h11 : P v11) (h12 : P v12) :
    ∀ layer ∈ (spelling v).layers, P layer := by
  intro layer mem
  simp only [spelling, List.mem_append, List.mem_cons, List.not_mem_nil, or_false,
    List.mem_ite_nil_right] at mem
  obtain (((rfl | rfl) | ⟨-, rfl⟩) | ⟨-, rfl⟩) | ⟨-, rfl⟩ := mem
  · exact hansi
  · exact h9
  · exact h10
  · exact h11
  · exact h12

theorem forall_names {P : (SqlType → Option String) → Prop} (v : Version) (first : P typeName)
    (newer : P newerTypeName) : ∀ names ∈ (typeNames v).layers, P names := by
  intro names mem
  simp only [typeNames, List.mem_cons, List.mem_ite_nil_right, List.not_mem_nil, or_false] at mem
  obtain rfl | ⟨-, rfl⟩ := mem
  · exact first
  · exact newer

theorem lexes (v : Version) : (spelling v).Lexes (Dialect.oracle.lexicon v) :=
  lexes_of_layers
    (forall_layers v ansi_lexes v9_lexes v10_lexes v11_lexes v12_lexes)
    (agree_strings .oracle v)

end Oracle

end Spelling

namespace Dialect

variable (d : Dialect) (v : Version)

/-- Names of types have no quotes, dashes and slashes. -/
theorem typeName_isMild {type : SqlType} {name : String}
    (h : (d.typeNames v).find type = .ok name) : name.toList.all Lexicon.isMild = true := by
  obtain ⟨names, mem, named⟩ := Spelling.exists_names h
  have mild : ∀ names ∈ (d.typeNames v).layers, ∀ type, ∀ name ∈ names type,
      name.toList.all Lexicon.isMild = true := by
    cases d with
    | postgreSql =>
      exact Spelling.PostgreSql.forall_names v Spelling.PostgreSql.typeName_isMild
        Spelling.PostgreSql.newerTypeName_isMild
    | sqlServer =>
      exact Spelling.SqlServer.forall_names v Spelling.SqlServer.typeName_isMild
        Spelling.SqlServer.newerTypeName_isMild
    | oracle =>
      exact Spelling.Oracle.forall_names v Spelling.Oracle.typeName_isMild
        Spelling.Oracle.newerTypeName_isMild
  exact mild names mem type name named

/-- The spelling of a version keeps tokens apart, as its names of types do. -/
theorem lexes : (d.spelling v).Lexes (d.lexicon v) ∧ (d.typeNames v).Lexes (d.lexicon v) := by
  refine ⟨?_, fun type name h ↦ Lexicon.passes_of_isMild (d.typeName_isMild v h)⟩
  cases d with
  | postgreSql => exact Spelling.PostgreSql.lexes v
  | sqlServer => exact Spelling.SqlServer.lexes v
  | oracle => exact Spelling.Oracle.lexes v

end Dialect

end SqlWright
