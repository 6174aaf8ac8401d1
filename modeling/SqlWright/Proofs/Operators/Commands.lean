import SqlWright.Proofs.Command.Rewriting
import SqlWright.Proofs.Command.Settling
import SqlWright.Proofs.Operators.Texts
import SqlWright.Spelling.OfDialect

/-!
# Commands of formulas

A binary expression over columns, parameters and constants is a formula. Its text spells the
lexemes that the formula is written as, but for the NUL characters of strings, which are not
written. So reading the text gives the formula back up to the grouping of chains.
-/

namespace SqlWright

namespace Tree

/-- Formula of a constant that is a string, a truth value or a number that is not negative. -/
def constantFormula? : Literal → Option Formula
  | .string value => some (.leaf (.string value))
  | .boolean b => some (.leaf (.boolean b))
  | .integer i => if 0 ≤ i.toInt then some (.leaf (.number i.toInt.toNat)) else none
  | _ => none

/-- Formula that a tree is: its inner nodes are binary, and its leaves are columns, parameters,
strings, truth values and numbers that are not negative. -/
def formula? : Tree → Option Formula :=
  fold fun
    | .column qualifier name => some (.leaf (.column qualifier name))
    | .parameter p => some (.leaf (.parameter p.id))
    | .literal value => constantFormula? value
    | .binary op x y => do return .binary op (← x.2) (← y.2)
    | _ => none

theorem formula?_binary {i : Nat} {op : BinaryOp} {x y : Tree} {e : Formula}
    (h : (mk i (.binary op x y)).formula? = some e) :
    ∃ x' y', x.formula? = some x' ∧ y.formula? = some y' ∧ e = .binary op x' y' := by
  rw [formula?, fold_mk] at h
  change (do return Formula.binary op (← x.formula?) (← y.formula?)) = some e at h
  cases hx : x.formula? with
  | none => simp [hx] at h
  | some x' =>
    cases hy : y.formula? with
    | none => simp [hx, hy] at h
    | some y' =>
      simp only [hx, hy] at h
      cases h
      exact ⟨x', y', rfl, rfl, rfl⟩

end Tree

/-- Leaf as it is stored: a string without NUL. -/
def Leaf.stored : Leaf → Leaf
  | .string value => .string (String.ofList (Quoting.withoutNul value))
  | a => a

namespace Formula

/-- Formula with its leaves as they are stored. -/
def stored : Formula → Formula
  | .leaf a => .leaf a.stored
  | .binary op x y => .binary op x.stored y.stored

theorem op?_stored (e : Formula) : e.stored.op? = e.op? := by
  cases e <;> rfl

end Formula

theorem Tree.binaryOp?_eq_op? {t : Tree} {e : Formula} (h : t.formula? = some e) :
    t.binaryOp? = e.op? := by
  obtain ⟨i, n⟩ := t
  cases n with
  | binary op x y =>
    obtain ⟨x', y', -, -, rfl⟩ := formula?_binary h
    rfl
  | column => cases h; rfl
  | parameter => cases h; rfl
  | literal value =>
    rw [formula?, fold_mk] at h
    change constantFormula? value = some e at h
    unfold constantFormula? at h
    split at h <;> grind [Tree.binaryOp?, Formula.op?, Tree.node]
  | _ => cases h

/-! ### Rules of the server -/

namespace Spelling.PostgreSql

/-- What the first versions have and no later version changes holds in each. -/
theorem resolve_eq {α : Type} (v : Version) (rule : Rule) {pick : Layer → Option α} {a : α}
    (later : ∀ layer ∈ [v81, v82, v83, v84], pick layer = none)
    (first : [v80, ansi].findSome? pick = some a) : (spelling v).resolve rule pick = .ok a := by
  simp only [List.forall_mem_cons, List.not_mem_nil, false_implies, implies_true, and_true] at later
  obtain ⟨h81, h82, h83, h84⟩ := later
  simp only [List.findSome?] at first
  have found : (spelling v).layers.reverse.findSome? pick = some a := by
    unfold spelling
    split_ifs <;> simp [h81, h82, h83, h84, List.findSome?, first]
  rw [Spelling.resolve, found]

theorem operatorTemplate_eq (v : Version) (op : BinaryOp) :
    (spelling v).operatorTemplate op = .ok (.pattern (ansiOperator op)) :=
  resolve_eq v _ (by simp [v81, v82, v83, v84]) rfl

theorem quoteIdentifier_eq (v : Version) (name : String) :
    (spelling v).quoteIdentifier name = .ok (Quoting.doubleQuotes name) :=
  Dialect.postgreSql.quoteIdentifier_eq v name

theorem parameterMark_eq (v : Version) : (spelling v).parameterMark = .ok "@" :=
  resolve_eq v _ (by simp [v81, v82, v83, v84]) rfl

theorem literal_boolean (v : Version) (b : Bool) :
    (spelling v).literal (.boolean b) = .ok (if b then "TRUE" else "FALSE") := by
  rw [Spelling.literal, resolve_eq v _ (by simp [v81, v82, v83, v84]) rfl]
  rfl

/-- From 8.1 on strings are marked. -/
theorem literal_string (v : Version) (value : String) :
    (spelling v).literal (.string value) =
      .ok (if v.isSince ⟨8, 1⟩ then Quoting.escapeString value
        else Quoting.backslashString value) := by
  change (Dialect.postgreSql.spelling v).stringLiteral value = _
  rw [Dialect.stringLiteral_eq, Dialect.quotedString]
  split_ifs <;> rfl

end Spelling.PostgreSql

/-! ### What is written -/

variable {w : Script} {l : Lexicon} {x y : Writing Chain} {ls ls' : List Lexeme}

/-- The names that are given to parameters tell their identities. -/
def Script.Identifies (w : Script) (idOf? : String → Option Nat) (named : List Parameter) : Prop :=
  ∀ i p, named[i]? = some p → idOf? (w.parameterName i) = some p.id

theorem Script.Identifies.of_prefix {idOf? : String → Option Nat} {named named' : List Parameter}
    (h : w.Identifies idOf? named') (hp : named <+: named') : w.Identifies idOf? named := by
  obtain ⟨more, rfl⟩ := hp
  intro i p hi
  obtain ⟨lt, -⟩ := List.getElem?_eq_some_iff.1 hi
  exact h i p (by rwa [List.getElem?_append_left lt])

/-- Writing succeeds with one text for all executions, which spells the lexemes. -/
def Writing.Spells (l : Lexicon) (w : Script) (x : Writing Chain) (ls : List Lexeme) : Prop :=
  ∀ named, ∃ c named' text, x named = .ok (c, named') ∧ named <+: named' ∧
    (∀ s : Settled, s.renderChain c = .ok text) ∧
    ∀ idOf?, w.Identifies idOf? named' → l.Spells idOf? text ls

namespace Writing.Spells

theorem text {t : String} (h : ∀ idOf?, l.Spells idOf? t ls) :
    Spells l w (pure [.text t]) ls := fun named ↦
  ⟨_, named, t, rfl, List.prefix_rfl, fun s ↦ s.renderChain_single rfl, fun idOf? _ ↦ h idOf?⟩

theorem group (h : Spells l w x ls) :
    Spells l w (do return [Piece.text "("] ++ (← x) ++ [Piece.text ")"])
      (.opening :: (ls ++ [.closing])) := by
  intro named
  obtain ⟨c, named', t, run, grows, rendered, spells⟩ := h named
  refine ⟨_, named', "(" ++ t ++ ")", bind_ok.mpr ⟨c, named', run, rfl⟩, grows, fun s ↦ ?_,
    fun idOf? hi ↦ (spells idOf? hi).group⟩
  exact Settled.renderChain_append (Settled.renderChain_append (Settled.renderChain_single rfl)
    (rendered s)) (Settled.renderChain_single rfl)

theorem binary (h : Spells l w x ls) (op : BinaryOp) (h' : Spells l w y ls') :
    Spells l w
      (Script.template ((Template.pattern (Spelling.ansiOperator op)).parts 2) fun i ↦
        if i = 0 then x else y)
      (ls ++ .operator op :: ls') := by
  intro named
  obtain ⟨c, named₁, t, run, grows, rendered, spells⟩ := h named
  obtain ⟨c', named₂, t', run', grows', rendered', spells'⟩ := h' named₁
  refine ⟨c ++ ([.text (Lexicon.between op)] ++ c'), named₂, t ++ (Lexicon.between op ++ t'), ?_,
    grows.trans grows', fun s ↦ ?_, fun idOf? hi ↦ ?_⟩
  · rw [Lexicon.parts_ansiOperator, Script.template_eq]
    exact concat_ok.mpr ⟨c, named₁, _, run, concat_ok.mpr ⟨_, named₁, _, rfl,
      concat_ok.mpr ⟨c', named₂, [], run', rfl, (List.append_nil c').symm⟩, rfl⟩, rfl⟩
  · exact Settled.renderChain_append (rendered s) (Settled.renderChain_append
      (Settled.renderChain_single rfl) (rendered' s))
  · rw [← String.append_assoc]
    exact (spells idOf? (hi.of_prefix grows')).binary op (spells' idOf? hi)

/-- A parameter has the name of the place where parameters of its identity are listed. -/
theorem parameter (hw : w.mark = "@") (p : Parameter) :
    Spells l w (w.parameter p) [.leaf (.parameter p.id)] := by
  have spells {idOf? : String → Option Nat} {n : Nat}
      (h : idOf? (w.parameterName n) = some p.id) :
      l.Spells idOf? (w.parameterName n) [.leaf (.parameter p.id)] := by
    rw [Script.parameterName, hw] at h ⊢
    exact Lexicon.spells_parameter h
  intro named
  cases hn : named.findIdx? (·.id == p.id) with
  | some i =>
    obtain ⟨lt, same, -⟩ := List.findIdx?_eq_some_iff_getElem.1 hn
    refine ⟨_, named, w.parameterName i, by rw [Script.parameter, hn], List.prefix_rfl,
      fun s ↦ s.renderChain_single rfl, fun idOf? hi ↦ spells ?_⟩
    rw [hi i _ (List.getElem?_eq_getElem lt), eq_of_beq same]
  | none =>
    refine ⟨_, named ++ [p], w.parameterName named.length, by rw [Script.parameter, hn],
      List.prefix_append _ _, fun s ↦ s.renderChain_single rfl, fun idOf? hi ↦ spells ?_⟩
    exact hi named.length p (by simp)

end Writing.Spells

/-- Script of a version. -/
def Spelling.PostgreSql.script (v : Version) : Script :=
  ⟨Dialect.postgreSql.spelling v, Dialect.postgreSql.typeNames v, "@"⟩

namespace Script

open Spelling.PostgreSql

variable {v : Version} {t : Tree} {e : Formula}

theorem spells_qualified (qualifier : Option String) (name : String) :
    Writing.Spells l (script v) ((script v).qualified qualifier name)
      [.leaf (.column qualifier name)] := by
  have identifier (name : String) : (script v).identifier name =
      pure [Piece.text (Quoting.doubleQuotes name)] := by
    unfold Script.identifier
    change (do return [Piece.text (← liftM
      ((Spelling.PostgreSql.spelling v).quoteIdentifier name))]) = _
    rw [quoteIdentifier_eq]
    rfl
  cases qualifier with
  | none =>
    rw [Script.qualified, identifier]
    exact .text fun _ ↦ Lexicon.spells_column name
  | some q =>
    rw [Script.qualified, identifier, identifier]
    refine fun named ↦ ⟨_, named, _, rfl, List.prefix_rfl, fun s ↦ ?_,
      fun _ _ ↦ Lexicon.spells_qualified q name⟩
    exact Settled.renderChain_append (Settled.renderChain_append (Settled.renderChain_single rfl)
      (Settled.renderChain_single rfl)) (Settled.renderChain_single rfl)

/-- A string is marked exactly if the marks of strings are read. -/
theorem spells_string (value : String) :
    Writing.Spells (Dialect.postgreSql.lexicon v) (script v)
      (do return [Piece.text (← (script v).spelling.literal (.string value))])
      [.leaf (.string (String.ofList (Quoting.withoutNul value)))] := by
  change Writing.Spells _ _ (do return [Piece.text (← liftM
    ((Spelling.PostgreSql.spelling v).literal (.string value)))]) _
  rw [literal_string]
  refine .text fun idOf? ↦ ?_
  split
  · next marked => exact Lexicon.spells_escapeString marked value
  · next plain => exact Lexicon.spells_plainString (by simp [Dialect.lexicon, plain]) value

theorem spells_constant {value : Literal} (h : Tree.constantFormula? value = some e) :
    Writing.Spells (Dialect.postgreSql.lexicon v) (script v)
      (do return [Piece.text (← (script v).spelling.literal value)]) e.stored.lexemes := by
  cases value with
  | string value =>
    cases h
    exact spells_string value
  | boolean b =>
    cases h
    change Writing.Spells _ _ (do return [Piece.text (← liftM
      ((Spelling.PostgreSql.spelling v).literal (.boolean b)))]) _
    rw [literal_boolean]
    exact .text fun _ ↦ Lexicon.spells_boolean b
  | integer i =>
    rw [Tree.constantFormula?] at h
    split at h
    · next sign =>
      cases h
      have number : Text.ofInt i.toInt = i.toInt.toNat.repr := by
        obtain ⟨n, hn⟩ := Int.eq_ofNat_of_zero_le sign
        rw [hn]
        rfl
      refine Writing.Spells.text (t := Text.ofInt i.toInt) fun _ ↦ ?_
      rw [number]
      exact Lexicon.spells_number _
    · cases h
  | _ => cases h

/-- An operand is put in parentheses where its lexemes are. -/
theorem spells_operand {x : Tree} {x' : Formula} (hx : x.formula? = some x') (op : BinaryOp)
    (isRight : Bool) {hint : Option String}
    (h : Writing.Spells l w (w.tree x hint) x'.stored.lexemes) :
    Writing.Spells l w (operand op isRight (x, w.tree x) hint)
      (Formula.enclosed op isRight x'.stored.op? x'.stored.lexemes) := by
  unfold operand Formula.enclosed
  simp only [Formula.op?_stored, Tree.binaryOp?_eq_op? hx]
  split
  · next separates =>
    have binary : x'.op?.isSome := by
      cases ho : x'.op? with
      | none => rw [ho] at separates; cases separates
      | some op' => rfl
    simp only [grouped, Tree.binaryOp?_eq_op? hx, binary, if_true]
    exact h.group
  · exact h

/-- Writing a formula spells its lexemes. -/
theorem spells_tree (h : t.formula? = some e) (hint : Option String) :
    Writing.Spells (Dialect.postgreSql.lexicon v) (script v) ((script v).tree t hint)
      e.stored.lexemes := by
  induction t using Tree.induction_children generalizing e with
  | h i n ih =>
    rw [tree_mk]
    cases n with
    | column qualifier name =>
      cases h
      exact spells_qualified qualifier name
    | parameter p =>
      cases h
      exact .parameter rfl p
    | literal value => exact spells_constant h
    | binary op x y =>
      obtain ⟨x', y', hx, hy, rfl⟩ := Tree.formula?_binary h
      have left := spells_operand hx op false (ih x (by simp [Node.children]) hx)
      have right := spells_operand hy op true (ih y (by simp [Node.children]) hy)
      have both := left.binary op right
      change Writing.Spells _ _ (do
        let t ← liftM ((Spelling.PostgreSql.spelling v).operatorTemplate op)
        template (t.parts 2) _) _
      rw [operatorTemplate_eq]
      exact both
    | _ => cases h

end Script

namespace Command

/-- Identity of the parameter that has a name in the text. -/
def parameterOf? (c : Command) (name : String) : Option Nat :=
  (c.parameters.find? (·.2 == name)).map (·.1.id)

/-- A command tells the parameters of the names that it gives them. -/
theorem identifies (w : Script) (chain : Chain) (named : List Parameter) :
    w.Identifies (ofChain chain (named.mapIdx fun i p ↦ (p, w.parameterName i))).parameterOf?
      named := by
  intro i p hi
  obtain ⟨lt, rfl⟩ := List.getElem?_eq_some_iff.1 hi
  have found : (named.mapIdx fun i p ↦ (p, w.parameterName i)).find?
      (·.2 == w.parameterName i) = some (named[i], w.parameterName i) := by
    rw [List.find?_eq_some_iff_getElem]
    refine ⟨beq_self_eq_true _, i, by simpa using lt, by simp, fun j hj ↦ ?_⟩
    have other : j.repr ≠ i.repr := fun same ↦ by
      have digits := Text.digits?_repr j
      rw [same, Text.digits?_repr i, Option.some.injEq] at digits
      exact Nat.ne_of_gt hj digits
    simpa [Script.parameterName] using other
  rw [parameterOf?, ofChain, found]
  rfl

end Command

namespace Tree

variable {t : Tree} {e : Formula}

/-- The command of a formula has one text, which is taken apart into the formula's lexemes. -/
theorem exists_lexemes (h : t.formula? = some e) (v : Version) :
    ∃ c text, t.command (Dialect.postgreSql.spelling v) (Dialect.postgreSql.typeNames v) = .ok c ∧
      (∀ b, c.text b = .ok text) ∧
      Lexeme.scan? c.parameterOf? 0 ((Dialect.postgreSql.lexicon v).tokens text) =
        some e.stored.lexemes := by
  let w := Spelling.PostgreSql.script v
  obtain ⟨chain, named, text, run, -, rendered, spells⟩ := Script.spells_tree h none []
  obtain ⟨ts, m, read, -, takes⟩ := spells _ (Command.identifies w chain named)
  refine ⟨.ofChain chain (named.mapIdx fun i p ↦ (p, w.parameterName i)), text, ?_,
    fun b ↦ Command.text_ofChain (rendered _) _, ?_⟩
  · exact Tree.command_ok.2 ⟨"@", chain, named, Spelling.PostgreSql.parameterMark_eq v, run, rfl⟩
  · have scanned := takes.2 [] (by simp)
    rw [Lexicon.tokens, read]
    simpa [Lexeme.scan?] using scanned

/-- The text of a formula, taken apart by the server's rules, is read in one way: as the
formula, up to the grouping of chains of conjunctions and of disjunctions, with its strings as
they are stored. The command has that text in every execution. -/
theorem command_reads (h : t.formula? = some e) (v : Version) :
    ∃ c text ls, t.command (Dialect.postgreSql.spelling v) (Dialect.postgreSql.typeNames v) =
        .ok c ∧ (∀ b, c.text b = .ok text) ∧
      Lexeme.scan? c.parameterOf? 0 ((Dialect.postgreSql.lexicon v).tokens text) = some ls ∧
      (∃ e', Formula.Reads 0 ls e') ∧
      ∀ e', Formula.Reads 0 ls e' → e'.Regroups e.stored := by
  obtain ⟨c, text, hc, ht, scanned⟩ := exists_lexemes h v
  obtain ⟨e', reads, regroups⟩ := e.stored.exists_reads
  have loose := reads.of_le e.stored.level_le (Nat.zero_le _)
  refine ⟨c, text, e.stored.lexemes, hc, ht, scanned, ⟨e', loose⟩, fun e'' reads' ↦ ?_⟩
  rw [Formula.Reads.unique (Nat.zero_le 5) reads' loose]
  exact regroups

/-- Conjunctions that are grouped to the right, a difference that is taken from another one, and a
parameter that stands twice. -/
def nestedFormula : Tree :=
  let parameter : Tree := mk 1 (.parameter ⟨7, "limit"⟩)
  let difference : Tree := mk 4 (.binary .minus (mk 2 (.literal (.integer 9)))
    (mk 3 (.binary .minus parameter (mk 5 (.column (some "t") "a\x22b")))))
  let disjunction : Tree := mk 8 (.binary .or (mk 6 (.literal (.boolean true)))
    (mk 7 (.binary .notIn parameter (mk 9 (.literal (.string "it's \x5c"))))))
  mk 12 (.binary .and disjunction (mk 11 (.binary .and (mk 10 (.binary .ltEq difference parameter))
    disjunction)))

/-- Text of the tree. -/
def nestedText : String :=
  "(TRUE OR @p0 NOT IN E'it''s \\\\') AND 9 - (@p0 - \"t\".\"a\"\"b\") <= @p0 AND " ++
    "(TRUE OR @p0 NOT IN E'it''s \\\\')"

/-- The conjunctions are written without parentheses, and the difference that is taken away with
them. -/
theorem command_reads_of_nested :
    ∃ e, nestedFormula.formula? = some e ∧ ∃ c ls,
      nestedFormula.command (Dialect.postgreSql.spelling ⟨9, 0⟩)
        (Dialect.postgreSql.typeNames ⟨9, 0⟩) = .ok c ∧ (∀ b, c.text b = .ok nestedText) ∧
      Lexeme.scan? c.parameterOf? 0 ((Dialect.postgreSql.lexicon ⟨9, 0⟩).tokens nestedText) =
        some ls ∧
      (∃ e', Formula.Reads 0 ls e') ∧ ∀ e', Formula.Reads 0 ls e' → e'.Regroups e.stored := by
  have h : ∃ e, nestedFormula.formula? = some e := ⟨_, rfl⟩
  obtain ⟨e, he⟩ := h
  obtain ⟨c, text, ls, hc, ht, scanned, reads⟩ := command_reads he ⟨9, 0⟩
  have known : nestedFormula.command (Dialect.postgreSql.spelling ⟨9, 0⟩)
      (Dialect.postgreSql.typeNames ⟨9, 0⟩) =
        .ok ⟨[.text nestedText], [(⟨7, "limit"⟩, "@p0")], [], 0⟩ := rfl
  rw [known] at hc
  cases hc
  cases ht {}
  exact ⟨e, he, _, ls, known, ht, scanned, reads⟩

/-- Comparison of a column with a string that holds NUL. -/
def nulComparison : Tree :=
  mk 3 (.binary .eq (mk 1 (.column none "a")) (mk 2 (.literal (.string "x\x00"))))

/-- NUL is not written, so the comparison is read as one with another string. -/
theorem nulComparison_not_read :
    ∃ e c text ls, nulComparison.formula? = some e ∧
      nulComparison.command (Dialect.postgreSql.spelling ⟨9, 0⟩)
        (Dialect.postgreSql.typeNames ⟨9, 0⟩) = .ok c ∧ (∀ b, c.text b = .ok text) ∧
      Lexeme.scan? c.parameterOf? 0 ((Dialect.postgreSql.lexicon ⟨9, 0⟩).tokens text) = some ls ∧
      (∃ e', Formula.Reads 0 ls e') ∧ ∀ e', Formula.Reads 0 ls e' → ¬ e'.Regroups e := by
  let e : Formula := .binary .eq (.leaf (.column none "a")) (.leaf (.string "x\x00"))
  have h : nulComparison.formula? = some e := rfl
  obtain ⟨c, text, hc, ht, scanned⟩ := exists_lexemes h ⟨9, 0⟩
  obtain ⟨e', reads, regroups⟩ := e.stored.exists_reads
  have loose := reads.of_le e.stored.level_le (Nat.zero_le _)
  refine ⟨e, c, text, e.stored.lexemes, h, hc, ht, scanned, ⟨e', loose⟩, fun e'' reads' same ↦ ?_⟩
  rw [Formula.Reads.unique (Nat.zero_le 5) reads' loose] at same
  have leaves : e.stored.leaves = e.leaves := regroups.leaves_eq.symm.trans same.leaves_eq
  exact absurd leaves (by decide)

end Tree

end SqlWright
