import SqlWright.Proofs.Command.Resolving
import SqlWright.Proofs.Drafting.Results
import SqlWright.Proofs.Operators.Unary

/-!
# Tests against rows

A dynamic filter tests its expressions against the rows that an execution gives. Several
expressions are a row in parentheses. A single one stands without them in front of `IN`, and what
is tested is the whole expression exactly if it binds tighter than comparisons.
-/

namespace SqlWright

open Settled (tupled)

variable {l : Lexicon} {t u : String}

namespace Lexicon

/-- The text ends outside quotes and closes its brackets. -/
structure IsWhole (l : Lexicon) (t : String) : Prop where
  ends : l.Ends t
  balanced : WordMode.Balanced (l.tokens t)

theorem IsTidy.isWhole (h : l.IsTidy t) : l.IsWhole t := ⟨h.ends, h.tokens.balanced⟩

/-- Tokens of texts with commas between. -/
def listTokens (l : Lexicon) (us : List String) : List Token :=
  [Token.symbol ','].intercalate (us.map l.tokens)

theorem IsWhole.parenthesized (h : l.IsWhole u) : l.IsTidy ("(" ++ u ++ ")") ∧
    l.tokens ("(" ++ u ++ ")") = SqlWright.parenthesized (l.tokens u) := by
  have read := tokens_parenthesized h.ends
  exact ⟨⟨read.2, read.1 ▸ isTidy_parenthesized h.balanced⟩, read.1⟩

/-- Texts with commas between are taken apart one by one. -/
theorem isWhole_list {us : List String} (h : ∀ u ∈ us, l.IsWhole u) :
    l.IsWhole (", ".intercalate us) ∧ l.tokens (", ".intercalate us) = l.listTokens us := by
  induction us with
  | nil => exact ⟨⟨.ground, rfl⟩, rfl⟩
  | cons first us ih =>
    have head := h first List.mem_cons_self
    obtain _ | ⟨second, us⟩ := us
    · simpa [listTokens] using head
    · obtain ⟨rest, tokens⟩ := ih fun u hu ↦ h u (List.mem_cons_of_mem _ hu)
      have comma : l.run .ground ", ".toList = ([.symbol ','], .ground) := rfl
      have tail := tokens_append_of_ground comma (", ".intercalate (second :: us))
      have whole := tokens_append (t := ", " ++ ", ".intercalate (second :: us)) (c := ',')
        head.ends (by rw [String.toList_append]; rfl) rfl
      rw [String.intercalate_cons_cons, String.append_assoc]
      refine ⟨⟨whole.2 (tail.2 rest.ends), ?_⟩, ?_⟩
      · rw [whole.1, tail.1]
        exact head.balanced.append (.append rfl rest.balanced)
      · rw [whole.1, tail.1, tokens]
        simp [listTokens, List.intercalate]

/-- Texts side by side are a row in parentheses, unless there is one. -/
theorem isTidy_tupled {us : List String} (h : ∀ u ∈ us, l.IsWhole u) (several : us.length ≠ 1) :
    l.IsTidy (tupled us) ∧
      l.words (tupled us) = [.operand (SqlWright.parenthesized (l.listTokens us))] := by
  obtain ⟨list, tokens⟩ := isWhole_list h
  have read := list.parenthesized
  rw [Settled.tupled_of_length_ne_one several]
  refine ⟨read.1, ?_⟩
  rw [words, read.2, wordsOf_parenthesized list.balanced, tokens]

theorem isWhole_tupled {us : List String} (h : ∀ u ∈ us, l.IsWhole u) : l.IsWhole (tupled us) := by
  by_cases single : us.length = 1
  · obtain ⟨u, rfl⟩ := List.length_eq_one_iff.1 single
    exact h u List.mem_cons_self
  · exact (isTidy_tupled h single).1.isWhole

/-- Texts side by side are an expression if each of them is. -/
theorem isTidy_tupled_of_isTidy {us : List String} (h : ∀ u ∈ us, l.IsTidy u) :
    l.IsTidy (tupled us) := by
  by_cases single : us.length = 1
  · obtain ⟨u, rfl⟩ := List.length_eq_one_iff.1 single
    exact h u List.mem_cons_self
  · exact (isTidy_tupled (fun u hu ↦ (h u hu).isWhole) single).1

section Rows

variable {us : List String} {rows : List (List String)}
  (values : ∀ row ∈ rows, ∀ value ∈ row, l.IsWhole value)

theorem test_eq_between : tupled us ++ " IN (" ++ ", ".intercalate (rows.map tupled) ++ ")" =
    tupled us ++ between .isIn ++ ("(" ++ ", ".intercalate (rows.map tupled) ++ ")") := by
  have test : " IN (" = between .isIn ++ "(" := rfl
  simp only [test, String.append_assoc]

include values

/-- Rows in parentheses are an operand. -/
theorem isTidy_rows : l.IsTidy ("(" ++ ", ".intercalate (rows.map tupled) ++ ")") ∧
    l.words ("(" ++ ", ".intercalate (rows.map tupled) ++ ")") =
      (Phrase.operand (SqlWright.parenthesized (l.listTokens (rows.map tupled)))).words := by
  obtain ⟨list, tokens⟩ : l.IsWhole (", ".intercalate (rows.map tupled)) ∧ _ :=
    isWhole_list (List.forall_mem_map.2 fun row hr ↦ isWhole_tupled (values row hr))
  have read := list.parenthesized
  refine ⟨read.1, ?_⟩
  rw [words, read.2, wordsOf_parenthesized list.balanced, tokens]
  rfl

/-- A test against rows is an expression. -/
theorem isTidy_test (h : l.IsTidy (tupled us)) :
    l.IsTidy (tupled us ++ " IN (" ++ ", ".intercalate (rows.map tupled) ++ ")") := by
  rw [test_eq_between]
  exact h.binary .isIn (isTidy_rows values).1

end Rows

/-- The text is read as the test of the expressions, as a row unless there is one, against the
rows, and as nothing else. -/
def Tests (l : Lexicon) (us : List String) (rows : List (List String)) (t : String) : Prop :=
  ∃ x : Phrase, x.words = l.words (tupled us) ∧ Phrase.ReadsAs (l.words t)
    (.binary .isIn x (.operand (SqlWright.parenthesized (l.listTokens (rows.map tupled)))))

/-- An expression in front of the rows is tested as a whole exactly if it binds tighter than
comparisons. -/
theorem tests_iff {us : List String} {rows : List (List String)} (h : l.IsTidy (tupled us))
    (values : ∀ row ∈ rows, ∀ value ∈ row, l.IsWhole value) :
    l.Tests us rows (tupled us ++ " IN (" ++ ", ".intercalate (rows.map tupled) ++ ")") ↔
      l.Stands 6 (tupled us) := by
  have read := isTidy_rows values
  rw [Tests, test_eq_between, h.words_binary .isIn read.1, read.2]
  constructor
  · rintro ⟨x, words, kept⟩
    rw [← words, Phrase.readsAs_binary_iff, words] at kept
    exact ⟨x, kept.1⟩
  · rintro ⟨x, kept⟩
    have words := kept.words_eq
    refine ⟨x, words, ?_⟩
    rw [← words, Phrase.readsAs_binary_iff, words]
    exact ⟨kept, .operand _ (by decide)⟩

end Lexicon

/-- A name in front of parentheses is an operand with what stands in them. -/
theorem wordsOf_call {name : List Char} {ts : List Token} (hname : (Token.word name).role = .plain)
    (h : WordMode.Balanced ts) :
    wordsOf (.word name :: parenthesized ts) = [.operand (.word name :: parenthesized ts)] := by
  have word : WordMode.expecting.step (.word name) = ([], .inside [.word name] 0) := by
    simp [WordMode.step, WordMode.start, hname]
  have opening : (WordMode.inside [.word name] 0).step (.symbol '(') =
    ([], .inside [.word name, .symbol '('] 1) := rfl
  have closing (us : List Token) :
    (WordMode.inside us 1).run [.symbol ')'] = ([], .inside (us ++ [.symbol ')']) 0) := rfl
  rw [wordsOf, WordMode.run, word, parenthesized, WordMode.run, opening, WordMode.run_append,
    WordMode.run_inside (n := 0) h, closing]
  simp [WordMode.finish]

namespace BinaryOp

variable {d : Dialect} {op : BinaryOp} {a b : String}

/-- An expression that is read with its own operands binds tighter than comparisons exactly if it
is arithmetic, or written as a function. -/
theorem stands_iff (ha : l.IsTidy a) (hb : l.IsTidy b)
    (kept : (op.form d).Keeps l a b ((op.form d).text a b)) :
    l.Stands 6 ((op.form d).text a b) ↔ (op.form d).isCall ∨ 2 < op.level := by
  cases hf : op.form d with
  | between op' =>
    rw [hf, OperatorForm.keeps_between_iff ha hb] at kept
    obtain ⟨⟨x, hx⟩, ⟨y, hy⟩⟩ := kept
    have words : l.words ((OperatorForm.between op').text a b) =
        l.words a ++ .binary op' :: l.words b := ha.words_binary op' hb
    have level : op'.tightness = 2 * op.level := (level_form hf).1
    simp only [OperatorForm.isCall, Bool.false_eq_true, false_or]
    constructor
    · intro stands
      have root : 6 ≤ op'.tightness := stands.le_tightness (show .binary op' ∈ _ by simp [words])
      omega
    · intro arithmetic
      refine ⟨.binary op' x y, ?_⟩
      rw [words]
      exact .binary (by omega) hx hy
  | call name =>
    obtain rfl := BinaryOp.form_call hf
    have comma : WordMode.Balanced [.symbol ','] := rfl
    have arguments : WordMode.Balanced (l.tokens a ++ .symbol ',' :: l.tokens b) :=
      ha.tokens.balanced.append (comma.append hb.tokens.balanced)
    have tokens : l.tokens ((OperatorForm.call "MOD").text a b) = .word "MOD".toList ::
        parenthesized (l.tokens a ++ .symbol ',' :: l.tokens b) :=
      OperatorForm.keeps_call ha.ends hb.ends rfl
    have words := wordsOf_call (show (Token.word "MOD".toList).role = .plain from rfl) arguments
    rw [← tokens] at words
    refine iff_of_true ⟨.operand (l.tokens ((OperatorForm.call "MOD").text a b)), ?_⟩ (.inl rfl)
    rw [Lexicon.words, words]
    exact .operand _ (by decide)

end BinaryOp

namespace Writing

variable {s : Settled} {xs : List (Writing Chain)} {key : String}

/-- Test of what is written against the rows that an execution gives. -/
def membership (key : String) (xs : List (Writing Chain)) : Writing Chain :=
  return [Piece.dynamicFilter key (← xs.mapM fun x ↦ return Chain.normalized (← x))]

/-- Each expression is written as its text. -/
theorem gives_all {named named' : List Parameter} {cs : List Chain} {us : List String}
    (h : (xs.mapM fun x ↦ do return Chain.normalized (← x) : Writing (List Chain)) named =
      .ok (cs, named')) (rendered : s.renderAll cs = .ok us) :
    List.Forall₂ (Gives s) xs us ∧ cs.length = us.length := by
  induction xs generalizing named cs us with
  | nil =>
    cases pure_ok.1 h
    cases rendered
    exact ⟨.nil, rfl⟩
  | cons x xs ih =>
    rw [List.mapM_cons] at h
    obtain ⟨_, named₁, one, h⟩ := bind_ok.1 h
    obtain ⟨c, named₂, written, last⟩ := bind_ok.1 one
    cases pure_ok.1 last
    obtain ⟨cs, named₃, all, last⟩ := bind_ok.1 h
    cases pure_ok.1 last
    rw [Settled.renderAll, Settled.renderChain_normalized_eq] at rendered
    obtain ⟨u, hu, rendered⟩ := bind_except_ok.1 rendered
    obtain ⟨us, hus, ⟨⟩⟩ := bind_except_ok.1 rendered
    obtain ⟨rest, length⟩ := ih all hus
    exact ⟨.cons ⟨named, c, named₁, written, hu⟩ rest, congrArg (· + 1) length⟩

/-- What is tested is written only where there are rows. -/
theorem gives_membership (h : Gives s (membership key xs) t) :
    ∃ rows us, s.bindings.rows? key = some rows ∧ (rows ≠ [] → List.Forall₂ (Gives s) xs us) ∧
      t = Settled.tested us rows := by
  obtain ⟨named, c, named', run, rendered⟩ := h
  obtain ⟨cs, named₁, all, last⟩ := bind_ok.1 run
  cases pure_ok.1 last
  obtain ⟨_, _, filter, nothing, rfl⟩ := Settled.renderChain_cons_ok.1 rendered
  cases nothing
  rw [String.append_empty]
  rw [Settled.renderPiece] at filter
  split at filter
  next => cases filter
  next rows bound =>
    split at filter
    next empty =>
      cases filter
      obtain rfl := List.isEmpty_iff.1 empty
      exact ⟨[], [], bound, fun some ↦ (some rfl).elim, rfl⟩
    next isEmpty =>
      split at filter
      next => cases filter
      next misfit =>
        obtain ⟨us, texts, ⟨⟩⟩ := bind_except_ok.1 filter
        obtain ⟨written, length⟩ := gives_all all texts
        have fit (row : List String) (hr : row ∈ rows) : row.length = us.length := by
          simpa [length] using List.find?_eq_none.1 misfit row hr
        exact ⟨rows, us, bound, fun _ ↦ written,
          Settled.membership_eq_tested (by simpa using isEmpty) fit⟩

end Writing

namespace Script

variable {d : Dialect} {version : Version} {w : Script} {s : Settled} {first : Tree}
  {others : List Tree} {rows : List (List String)} {key : String} {i : Nat}
  {hint : Option String}

/-- What a filter is written as where it has rows. -/
theorem writes_dynamicFilter (bound : s.bindings.rows? key = some rows) (given : rows ≠ [])
    (h : w.Writes s hint (.mk i (.dynamicFilter key first others)) t) :
    ∃ us, List.Forall₂ (fun e u ↦ w.Writes s hint e u) (first :: others) us ∧
      t = tupled us ++ " IN (" ++ ", ".intercalate (rows.map tupled) ++ ")" := by
  have parts : w.node ((Node.dynamicFilter key first others).map (partOf id w.tree)) hint =
      Writing.membership key ((first :: others).map (w.tree · hint)) := by
    simp [Writing.membership, node, Node.map, partOf, List.mapM_map, Function.comp_def]
  rw [Writes, tree_mk, parts] at h
  obtain ⟨rows', us, bound', written, rfl⟩ := Writing.gives_membership h
  obtain rfl := Option.some.inj (bound.symm.trans bound')
  have each := written given
  rw [List.forall₂_map_left_iff] at each
  refine ⟨us, each, ?_⟩
  rw [Settled.tested, if_neg (by simpa using given)]

/-- Several expressions are tested as a row, and a single one is tested as a whole exactly if it
binds tighter than comparisons. A binary expression that is read with its own operands does so
exactly if it is arithmetic, or written as a function. -/
theorem filter_tests_iff (hw : w.spelling = d.spelling version)
    (tidy : ∀ e ∈ first :: others, w.IsTidy (d.lexicon version) s hint e)
    (bound : s.bindings.rows? key = some rows) (given : rows ≠ [])
    (values : ∀ row ∈ rows, ∀ value ∈ row, (d.lexicon version).IsWhole value)
    (h : w.Writes s hint (.mk i (.dynamicFilter key first others)) t) :
    ∃ us, List.Forall₂ (fun e u ↦ w.Writes s hint e u) (first :: others) us ∧
      t = tupled us ++ " IN (" ++ ", ".intercalate (rows.map tupled) ++ ")" ∧
      ((d.lexicon version).Tests us rows t ↔
        others ≠ [] ∨ (d.lexicon version).Stands 6 (tupled us)) ∧
      ∀ op x y j, first = .mk j (.binary op x y) → others = [] →
        w.IsTidy (d.lexicon version) s hint x → w.IsTidy (d.lexicon version) s hint y →
        ∃ a b, w.Writes s hint x a ∧ w.Writes s hint y b ∧
          us = [(op.form d).text (operandText (op.takesApart false x) a)
            (operandText (op.takesApart true y) b)] ∧
          ((op.form d).Keeps (d.lexicon version) (operandText (op.takesApart false x) a)
              (operandText (op.takesApart true y) b) (tupled us) →
            ((d.lexicon version).Tests us rows t ↔ (op.form d).isCall ∨ 2 < op.level)) := by
  obtain ⟨us, written, text⟩ := writes_dynamicFilter bound given h
  have whole : ∀ u ∈ us, (d.lexicon version).IsTidy u := by
    intro u hu
    obtain ⟨e, he, writes⟩ := exists_of_mem_forall₂ written hu
    exact tidy e he u writes
  have wholes (u : String) (hu : u ∈ us) := (whole u hu).isWhole
  have tests : (d.lexicon version).Tests us rows t ↔
      others ≠ [] ∨ (d.lexicon version).Stands 6 (tupled us) := by
    cases others with
    | nil =>
      obtain _ | ⟨_, _ | _⟩ := written
      rw [text, Lexicon.tests_iff (whole _ List.mem_cons_self) values]
      simp
    | cons second others =>
      have several : us.length ≠ 1 := by
        simp [← written.length_eq]
      obtain ⟨row, words⟩ := Lexicon.isTidy_tupled wholes several
      refine iff_of_true ?_ (.inl nofun)
      rw [text, Lexicon.tests_iff row values]
      refine ⟨.operand (parenthesized ((d.lexicon version).listTokens us)), ?_⟩
      rw [words]
      exact .operand _ (by decide)
  refine ⟨us, written, text, tests, ?_⟩
  rintro op x y j rfl rfl hx hy
  obtain _ | ⟨single, _ | _⟩ := written
  obtain ⟨a, b, ha, hb, rfl⟩ := writes_binary (hw ▸ d.operatorTemplate_eq version op) single
  refine ⟨a, b, ha, hb, rfl, fun kept ↦ tests.trans ?_⟩
  have stands := BinaryOp.stands_iff ((hx a ha).operandText _) ((hy b hb).operandText _) kept
  simpa [tupled] using stands

/-- A sum is tested as a whole. -/
theorem filter_tests_iff_of_sum :
    let v : Version := ⟨9, 0⟩
    let w : Script := ⟨Dialect.postgreSql.spelling v, Dialect.postgreSql.typeNames v, "@"⟩
    let l := Dialect.postgreSql.lexicon v
    let x := Tree.mk 0 (.column none "x")
    let y := Tree.mk 1 (.column none "y")
    let s : Settled := ⟨({} : Bindings).bindRows "f" [["1"], ["NULL"]], []⟩
    w.Writes s none (.mk 3 (.dynamicFilter "f" (.mk 2 (.binary .plus x y)) []))
        "\x22x\x22 + \x22y\x22 IN (1, NULL)" ∧
      l.Tests ["\x22x\x22 + \x22y\x22"] [["1"], ["NULL"]] "\x22x\x22 + \x22y\x22 IN (1, NULL)" := by
  have whole : Script.Writes
      ⟨Dialect.postgreSql.spelling ⟨9, 0⟩, Dialect.postgreSql.typeNames ⟨9, 0⟩, "@"⟩
      ⟨({} : Bindings).bindRows "f" [["1"], ["NULL"]], []⟩ none
      (.mk 3 (.dynamicFilter "f"
        (.mk 2 (.binary .plus (.mk 0 (.column none "x")) (.mk 1 (.column none "y")))) []))
      "\x22x\x22 + \x22y\x22 IN (1, NULL)" := writes_of_run (by decide +kernel)
  intro v w l x y s
  have spelled : w.spelling = Dialect.postgreSql.spelling v := rfl
  have tidy (i : Nat) (name : String) : w.IsTidy l s none (.mk i (.column none name)) :=
    isTidy_column spelled none name
  have sum : w.IsTidy l s none (.mk 2 (.binary .plus x y)) :=
    (tidy 0 "x").binary (tidy 1 "y") (Dialect.operatorTemplate_eq .postgreSql v .plus)
  have written : w.Writes s none (.mk 3 (.dynamicFilter "f" (.mk 2 (.binary .plus x y)) []))
      "\x22x\x22 + \x22y\x22 IN (1, NULL)" := whole
  have values : ∀ row ∈ [["1"], ["NULL"]], ∀ value ∈ row, l.IsWhole value := by
    simp only [List.forall_mem_cons, List.not_mem_nil, false_implies, implies_true, and_true]
    exact ⟨⟨.word ['1'], rfl⟩, ⟨.word ['N', 'U', 'L', 'L'], rfl⟩⟩
  have bound : s.bindings.rows? "f" = some [["1"], ["NULL"]] := rfl
  obtain ⟨us, -, -, -, single⟩ :=
    filter_tests_iff spelled (by simpa using sum) bound nofun values written
  obtain ⟨a, b, ha, hb, rfl, tests⟩ := single .plus x y 2 rfl rfl (tidy 0 "x") (tidy 1 "y")
  obtain rfl := writes_name spelled ha
  obtain rfl := writes_name spelled hb
  have kept : (OperatorForm.between .plus).Keeps l "\x22x\x22" "\x22y\x22"
      "\x22x\x22 + \x22y\x22" := by
    refine ⟨.operand [.quoted .doubleQuoted ['x']], .operand [.quoted .doubleQuoted ['y']],
      rfl, rfl, Phrase.readsAs_iff.2 ?_⟩
    exact .binary (Nat.zero_le _) (.operand _ (by decide)) (.operand _ (by decide))
  exact ⟨written, (tests kept).2 (.inr (by decide))⟩

end Script

/-- Filter that tests a disjunction. -/
def Tree.disjunctionFilter : Tree :=
  mk 3 (.dynamicFilter "f" (mk 2 (.binary .or (mk 0 (.column none "x")) (mk 1 (.column none "y"))))
    [])

/-- Only the second operand of the disjunction is tested. -/
theorem Tree.disjunctionFilter_not_tested :
    let l := Dialect.postgreSql.lexicon ⟨9, 0⟩
    ∃ c, disjunctionFilter.command (Dialect.postgreSql.spelling ⟨9, 0⟩)
        (Dialect.postgreSql.typeNames ⟨9, 0⟩) = .ok c ∧
      c.text (({} : Bindings).bindRows "f" [["TRUE"]]) =
        .ok "\x22x\x22 OR \x22y\x22 IN (TRUE)" ∧
      ¬ l.Tests ["\x22x\x22 OR \x22y\x22"] [["TRUE"]] "\x22x\x22 OR \x22y\x22 IN (TRUE)" ∧
      ∃ x y rows, Phrase.ReadsAs (l.words "\x22x\x22 OR \x22y\x22 IN (TRUE)")
        (.binary .or x (.binary .isIn y rows)) := by
  have scanned : (Dialect.postgreSql.lexicon ⟨9, 0⟩).words
      "\x22x\x22 OR \x22y\x22 IN (TRUE)" =
    [.operand [.quoted .doubleQuoted ['x']], .binary .or, .operand [.quoted .doubleQuoted ['y']],
      .binary .isIn, .operand [.symbol '(', .word ['T', 'R', 'U', 'E'], .symbol ')']] := by
    decide +kernel
  intro l
  let x : List Token := [.quoted .doubleQuoted ['x']]
  let y : List Token := [.quoted .doubleQuoted ['y']]
  let rows : List Token := [.symbol '(', .word ['T', 'R', 'U', 'E'], .symbol ')']
  have words : l.words "\x22x\x22 OR \x22y\x22 IN (TRUE)" =
    [Word.operand x] ++ Word.binary .or ::
      ([Word.operand y] ++ Word.binary .isIn :: [Word.operand rows]) := scanned
  have test : Phrase.Reads 1 ([Word.operand y] ++ Word.binary .isIn :: [Word.operand rows])
      (.binary .isIn (.operand y) (.operand rows)) :=
    .binary (by decide) (.operand y (by decide)) (.operand rows (by decide))
  have read : Phrase.Reads 0 (l.words "\x22x\x22 OR \x22y\x22 IN (TRUE)")
      (.binary .or (.operand x) (.binary .isIn (.operand y) (.operand rows))) := by
    rw [words]
    exact .binary (Nat.zero_le _) (.operand x (by decide)) test
  have shown : ((disjunctionFilter.command (Dialect.postgreSql.spelling ⟨9, 0⟩)
      (Dialect.postgreSql.typeNames ⟨9, 0⟩)).toOption.bind fun c ↦
        (c.text (({} : Bindings).bindRows "f" [["TRUE"]])).toOption) =
      some "\x22x\x22 OR \x22y\x22 IN (TRUE)" := by decide +kernel
  obtain ⟨c, command, text⟩ := Option.bind_eq_some_iff.1 shown
  refine ⟨c, eq_ok_of_toOption command, eq_ok_of_toOption text, ?_,
    .operand x, .operand y, .operand rows, Phrase.readsAs_iff.2 read⟩
  rintro ⟨z, -, tested⟩
  cases (Phrase.readsAs_iff.1 tested).unique read

end SqlWright
