import SqlWright.Proofs.Lexing.Chains

/-!
# What rendering resolves

An execution reaches a part of a command's chain: of a variant the branch that it takes, of a
dynamic filter the expressions if there are rows to test them against. What it has to settle on
the way is a list of needs in the order in which the text is written. The text comes out exactly
if every need resolves, and the first that does not is the reason for a failure.
-/

namespace SqlWright

/-- What an execution has to settle for a piece that it reaches. -/
inductive Need where
  /-- Text of a placeholder. -/
  | placeholder (id : Placeholder)
  /-- Rows of a dynamic filter, each with a text for each of the filter's expressions. -/
  | rows (id : String) (width : Nat)

namespace Settled

variable {α β γ : Type} (s : Settled)

/-! ### Needs and their failures -/

/-- Number of a type as a text, if a registry of types has one. -/
def typeNumber? : Placeholder → Option String
  | .typeId type => (s.bindings.typeId? type).map fun number ↦ Text.ofInt number.toInt
  | .key _ => none

/-- Text of a placeholder: the number of its type, else what is bound to it, else its default. -/
def textOf? (id : Placeholder) : Option String :=
  s.typeNumber? id <|> s.bindings.placeholder? id <|> s.defaults.lookup id

/-- The execution settles a need. Of no rows each is as long as it has to be. -/
def Resolves : Need → Prop
  | .placeholder id => ∃ text, s.textOf? id = some text
  | .rows id width => ∃ rows, s.bindings.rows? id = some rows ∧ ∀ row ∈ rows, row.length = width

/-- Why a need does not resolve; of rows of another length the first counts. -/
def failure? : Need → Option Error
  | .placeholder id => if (s.textOf? id).isNone then some (.placeholderNotSet id.text) else none
  | .rows id width =>
    match s.bindings.rows? id with
    | none => some (.dynamicFilterNotSet id)
    | some rows =>
      (rows.find? (·.length ≠ width)).map fun row ↦ .filterRowWidth id width row.length

/-- A need resolves exactly if there is nothing to fail for. -/
theorem failure?_eq_none (n : Need) : s.failure? n = none ↔ s.Resolves n := by
  cases n with
  | placeholder id =>
    cases ht : s.textOf? id <;> simp [failure?, Resolves, ht]
  | rows id width =>
    cases hr : s.bindings.rows? id <;> simp [failure?, Resolves, hr]

/-- The first of some needs that does not resolve has the failure. -/
theorem findSome?_failure?_eq_some {needs : List Need} {e : Error} :
    needs.findSome? s.failure? = some e ↔
      ∃ before n after, needs = before ++ n :: after ∧ (∀ m ∈ before, s.Resolves m) ∧
        s.failure? n = some e := by
  simp only [List.findSome?_eq_some_iff, failure?_eq_none]
  constructor
  · rintro ⟨before, n, after, split, failed, resolved⟩
    exact ⟨before, n, after, split, resolved, failed⟩
  · rintro ⟨before, n, after, split, resolved, failed⟩
    exact ⟨before, n, after, split, failed, resolved⟩

/-! ### What is reached, and what is written there -/

/-- Expressions or texts side by side, in parentheses unless there is one. -/
def tupled : List String → String
  | [text] => text
  | texts => "(" ++ ", ".intercalate texts ++ ")"

/-- Test of expressions against rows, which is false for no rows. -/
def tested (expressions : List String) (rows : List (List String)) : String :=
  if rows.isEmpty then "(1 = 0)"
  else tupled expressions ++ " IN (" ++ ", ".intercalate (rows.map tupled) ++ ")"

mutual

/-- Needs of a piece in the order in which it is written. -/
def needs : Piece → List Need
  | .text _ => []
  | .placeholder id => [.placeholder id]
  | .variant key main alternative =>
    if s.bindings.isAlternative key then chainNeeds alternative else chainNeeds main
  | .dynamicFilter id expressions =>
    .rows id expressions.length ::
      if (s.bindings.rows? id).any (!·.isEmpty) then allNeeds expressions else []

/-- Needs of a chain. -/
def chainNeeds : List Piece → List Need
  | [] => []
  | p :: rest => needs p ++ chainNeeds rest

/-- Needs of some chains. -/
def allNeeds : List (List Piece) → List Need
  | [] => []
  | c :: rest => chainNeeds c ++ allNeeds rest

end

mutual

/-- Text of a piece all of whose needs resolve. -/
def written : Piece → String
  | .text text => text
  | .placeholder id => (s.textOf? id).getD ""
  | .variant key main alternative =>
    if s.bindings.isAlternative key then chainWritten alternative else chainWritten main
  | .dynamicFilter id expressions =>
    tested (allWritten expressions) ((s.bindings.rows? id).getD [])

/-- Text of a chain: those of its pieces one after the other. -/
def chainWritten : List Piece → String
  | [] => ""
  | p :: rest => written p ++ chainWritten rest

/-- Texts of some chains. -/
def allWritten : List (List Piece) → List String
  | [] => []
  | c :: rest => chainWritten c :: allWritten rest

end

/-! ### What comes of needs -/

/-- The result if all needs resolve, else the failure of the first that does not. -/
def outcome (needs : List Need) (a : α) : Except Error α :=
  match needs.findSome? s.failure? with
  | none => .ok a
  | some e => .error e

/-- Needs one after the other come to what comes of the first, then of the others. -/
theorem outcome_append (needs needs' : List Need) (f : α → β → γ) (a : α) (b : β) :
    s.outcome (needs ++ needs') (f a b) =
      (do return f (← s.outcome needs a) (← s.outcome needs' b)) := by
  unfold outcome
  rw [List.findSome?_append]
  cases needs.findSome? s.failure? with
  | some e => rfl
  | none =>
    cases needs'.findSome? s.failure? with
    | some e => rfl
    | none => rfl

theorem outcome_ok_iff {needs : List Need} {a : α} :
    (∃ b, s.outcome needs a = .ok b) ↔ ∀ n ∈ needs, s.Resolves n := by
  have all : needs.findSome? s.failure? = none ↔ ∀ n ∈ needs, s.Resolves n := by
    simp only [List.findSome?_eq_none_iff, failure?_eq_none]
  rw [← all, outcome]
  cases needs.findSome? s.failure? with
  | none => exact ⟨fun _ ↦ rfl, fun _ ↦ ⟨a, rfl⟩⟩
  | some e => exact ⟨nofun, nofun⟩

theorem eq_of_outcome_ok {needs : List Need} {a b : α} (h : s.outcome needs a = .ok b) : b = a := by
  unfold outcome at h
  split at h
  · cases h
    rfl
  · cases h

theorem findSome?_of_outcome_error {needs : List Need} {a : α} {e : Error}
    (h : s.outcome needs a = .error e) : needs.findSome? s.failure? = some e := by
  unfold outcome at h
  split at h
  · cases h
  · next failed =>
    cases h
    exact failed

theorem placeholder_eq_outcome (id : Placeholder) :
    s.placeholder id = s.outcome [.placeholder id] ((s.textOf? id).getD "") := by
  have looked : s.placeholder id =
      (s.textOf? id).elim (.error (.placeholderNotSet id.text)) .ok := by
    cases bound : s.bindings.placeholder? id <;> cases left : s.defaults.lookup id <;>
      cases id with
      | typeId type =>
        cases number : s.bindings.typeId? type <;>
          simp [placeholder, textOf?, typeNumber?, number, bound, left]
      | key k => simp [placeholder, textOf?, typeNumber?, bound, left]
  rw [looked]
  cases given : s.textOf? id <;> simp [outcome, failure?, given]

theorem tupled_of_length_ne_one {texts : List String} (h : texts.length ≠ 1) :
    tupled texts = "(" ++ ", ".intercalate texts ++ ")" := by
  cases texts with
  | nil => rfl
  | cons first rest =>
    cases rest with
    | nil => exact absurd rfl h
    | cons second rest => rfl

/-- Rows that each have a text for each expression are tested as tuples are. -/
theorem membership_eq_tested {expressions : List String} {rows : List (List String)}
    (given : rows.isEmpty = false) (fit : ∀ row ∈ rows, row.length = expressions.length) :
    membership expressions rows = tested expressions rows := by
  unfold tested
  rw [if_neg (by simp [given])]
  by_cases single : expressions.length = 1
  · obtain ⟨e, rfl⟩ := List.length_eq_one_iff.1 single
    have texts : rows.map String.join = rows.map tupled := by
      refine List.map_congr_left fun row mem ↦ ?_
      obtain ⟨text, rfl⟩ := List.length_eq_one_iff.1 (fit row mem)
      simp [String.join, tupled]
    simp only [membership, tupled, texts]
  · have tuples : rows.map (fun row ↦ "(" ++ ", ".intercalate row ++ ")") = rows.map tupled :=
      List.map_congr_left fun row mem ↦
        (tupled_of_length_ne_one (by rwa [fit row mem])).symm
    have several : membership expressions rows =
        tupled expressions ++ " IN (" ++ ", ".intercalate (rows.map tupled) ++ ")" := by
      rw [← tuples, tupled_of_length_ne_one single]
      cases expressions with
      | nil => simp [membership, String.append_assoc]
      | cons first rest =>
        cases rest with
        | nil => exact absurd rfl single
        | cons second rest => simp [membership, String.append_assoc]
    exact several

/-- A filter comes to its test if its rows and its expressions can be settled. -/
theorem dynamicFilter_eq_outcome (id : String) (expressions : List Chain)
    (length : (s.allWritten expressions).length = expressions.length)
    (ih : s.renderAll expressions = s.outcome (s.allNeeds expressions) (s.allWritten expressions)) :
    s.renderPiece (.dynamicFilter id expressions) =
      s.outcome (s.needs (.dynamicFilter id expressions))
        (s.written (.dynamicFilter id expressions)) := by
  rw [renderPiece, needs, written]
  cases bound : s.bindings.rows? id with
  | none => simp [outcome, failure?, bound]
  | some rows =>
    by_cases empty : rows.isEmpty
    · simp [outcome, failure?, bound, List.isEmpty_iff.1 empty, tested]
    · cases misfit : rows.find? fun row ↦ !decide (row.length = expressions.length) with
      | some row => simp [outcome, failure?, bound, empty, misfit]
      | none =>
        have fit : ∀ row ∈ rows, row.length = (s.allWritten expressions).length := by
          simpa [length] using misfit
        have test := membership_eq_tested (by simpa using empty) fit
        have resolved : s.failure? (.rows id expressions.length) = none := by
          simp [failure?, bound, misfit]
        simp [empty, misfit, ih, outcome, ← test, resolved]
        cases (s.allNeeds expressions).findSome? s.failure? with
        | some e => rfl
        | none => rfl

theorem length_allWritten (cs : List Chain) : (s.allWritten cs).length = cs.length := by
  induction cs with
  | nil => rfl
  | cons c cs ih => simp [allWritten, ih]

mutual

/-- A piece comes to its text if all its needs resolve, else to the first failure. -/
theorem renderPiece_eq_outcome (p : Piece) : s.renderPiece p = s.outcome (s.needs p) (s.written p) := by
  match p with
  | .text text => rfl
  | .placeholder id => exact s.placeholder_eq_outcome id
  | .variant key main alternative =>
    have taken := renderChain_eq_outcome alternative
    have left := renderChain_eq_outcome main
    rw [renderPiece, needs, written]
    split
    · exact taken
    · exact left
  | .dynamicFilter id expressions =>
    exact s.dynamicFilter_eq_outcome id expressions (s.length_allWritten expressions)
      (renderAll_eq_outcome expressions)

/-- A chain comes to its text if all its needs resolve, else to the first failure. -/
theorem renderChain_eq_outcome (c : List Piece) :
    s.renderChain c = s.outcome (s.chainNeeds c) (s.chainWritten c) := by
  match c with
  | [] => rfl
  | p :: rest =>
    rw [renderChain, renderPiece_eq_outcome p, renderChain_eq_outcome rest, chainNeeds, chainWritten,
      outcome_append]

/-- Chains come to their texts if all their needs resolve, else to the first failure. -/
theorem renderAll_eq_outcome (cs : List (List Piece)) :
    s.renderAll cs = s.outcome (s.allNeeds cs) (s.allWritten cs) := by
  match cs with
  | [] => rfl
  | c :: rest =>
    rw [renderAll, renderChain_eq_outcome c, renderAll_eq_outcome rest, allNeeds, allWritten,
      outcome_append]

end

end Settled

namespace Command

/-- A command is rendered exactly if every need of its chain resolves, however the chain's texts
are put together. The text is then that of the pieces one after the other, and its length is noted
unless the command is frozen; else the first need that does not resolve has the failure, and the
length that was noted stays. -/
theorem render_resolves (chain : Chain) (parameters : List (Parameter × String))
    (defaults : List (Placeholder × String)) (lastLength : Nat) (b : Bindings) :
    let c : Command := { ofChain chain parameters with defaults, lastLength }
    let s : Settled := ⟨b, defaults⟩
    ((∃ text, (c.render b).1 = .ok text) ↔ ∀ n ∈ s.chainNeeds chain, s.Resolves n) ∧
    (∀ text, (c.render b).1 = .ok text → text = s.chainWritten chain ∧
      (c.render b).2 = if c.isFrozen then c else { c with lastLength := text.utf8ByteSize }) ∧
    (∀ e, (c.render b).1 = .error e → (c.render b).2 = c ∧
      ∃ before n after, s.chainNeeds chain = before ++ n :: after ∧
        (∀ m ∈ before, s.Resolves m) ∧ s.failure? n = some e) := by
  intro c s
  have outcome : c.text b = s.outcome (s.chainNeeds chain) (s.chainWritten chain) := by
    rw [text_eq]
    change s.renderChain chain.normalized = _
    rw [Settled.renderChain_normalized_eq, Settled.renderChain_eq_outcome]
  rw [← s.outcome_ok_iff (a := s.chainWritten chain), ← outcome, render]
  simp only [← s.findSome?_failure?_eq_some]
  cases ht : c.text b with
  | ok text =>
    refine ⟨by simp, ?_, nofun⟩
    rintro _ ⟨⟩
    exact ⟨s.eq_of_outcome_ok (outcome.symm.trans ht), rfl⟩
  | error e =>
    refine ⟨by simp, nofun, ?_⟩
    rintro _ ⟨⟩
    exact ⟨rfl, s.findSome?_of_outcome_error (outcome.symm.trans ht)⟩

end Command

end SqlWright
