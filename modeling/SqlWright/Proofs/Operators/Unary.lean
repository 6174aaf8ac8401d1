import SqlWright.Proofs.Operators.Operands

/-!
# Operators with one operand

`NOT` and the sign are put in front of their operand in parentheses, so they have it as their
operand. The tests for NULL put only binary operands in parentheses: one that stands without them
keeps its boundaries if it binds tighter than these tests. An expression with one operand gets no
parentheses in a place where a binary one may. There it keeps its boundaries if it is a sign.
-/

namespace SqlWright

variable {l : Lexicon} {t u v : String} {n : Nat}

namespace Lexicon

/-- Outside brackets the text has operators only that bind at least as tightly as a number says,
and it is read as a phrase. -/
def Stands (l : Lexicon) (n : Nat) (u : String) : Prop := ∃ x, Phrase.Reads n (l.words u) x

/-- The text is read as the operator with the words of the operand, and as nothing else. -/
def KeepsOne (l : Lexicon) (op : UnaryOp) (operand t : String) : Prop :=
  ∃ x : Phrase, x.words = l.words operand ∧ Phrase.ReadsAs (l.words t) (.unary op x)

theorem Stands.le_tightness (h : l.Stands n u) {word : Word} (hw : word ∈ l.words u) :
    n ≤ word.tightness := by
  obtain ⟨x, read⟩ := h
  exact read.le_tightness word hw

/-- What stands in parentheses has a place everywhere. -/
theorem stands_operandText (h : l.IsTidy u) (hn : n ≤ 10) (isEnclosed : Bool) :
    l.Stands n (operandText isEnclosed u) ↔ isEnclosed ∨ l.Stands n u := by
  cases isEnclosed with
  | true =>
    refine iff_of_true ⟨.operand (SqlWright.parenthesized (l.tokens u)), ?_⟩ (.inl rfl)
    change Phrase.Reads n (l.words ("(" ++ u ++ ")")) _
    rw [h.words_parenthesized]
    exact .operand _ hn
  | false => simp [SqlWright.operandText]

theorem keepsOne_front {op : UnaryOp} (hop : op.isFront) (h : l.IsTidy u) :
    l.KeepsOne op (operandText true u) (front op ++ operandText true u) := by
  change l.KeepsOne op ("(" ++ u ++ ")") (front op ++ ("(" ++ u ++ ")"))
  have tightness : op.tightness ≤ 10 := by
    cases op <;> decide
  refine ⟨.operand (SqlWright.parenthesized (l.tokens u)), h.words_parenthesized.symm, ?_⟩
  rw [Phrase.readsAs_iff, words_front hop, h.words_parenthesized]
  exact .front hop (Nat.zero_le _) (.operand _ tightness)

theorem keepsOne_back_iff {op : UnaryOp} (hop : op.isBack) (h : l.IsTidy u) :
    l.KeepsOne op u (u ++ behind op) ↔ l.Stands 5 u := by
  have tightness : op.tightness + 1 = 5 := by
    cases op with
    | isNull | isNotNull => rfl
    | negation | negate | existence => cases hop
  rw [KeepsOne, h.words_back hop]
  constructor
  · rintro ⟨x, words, read⟩
    rw [← words, Phrase.readsAs_back_iff hop, tightness, words] at read
    exact ⟨x, read⟩
  · rintro ⟨x, read⟩
    have words := read.words_eq
    refine ⟨x, words, ?_⟩
    rw [← words, Phrase.readsAs_back_iff hop, tightness, words]
    exact read

end Lexicon

namespace OperatorForm

/-- The text is read as the operator with the words of both operands, and as nothing else, or it
is the function of both. -/
def Keeps (l : Lexicon) (u v t : String) : OperatorForm → Prop
  | between op => ∃ x y : Phrase, x.words = l.words u ∧ y.words = l.words v ∧
      Phrase.ReadsAs (l.words t) (.binary op x y)
  | call name => l.tokens t = .word name.toList ::
      parenthesized (l.tokens u ++ .symbol ',' :: l.tokens v)

/-- The operator is written as a function. -/
def isCall : OperatorForm → Bool
  | between _ => false
  | call _ => true

theorem keeps_between_iff {op : BinaryOp} (hu : l.IsTidy u) (hv : l.IsTidy v) :
    (between op).Keeps l u v ((between op).text u v) ↔
      l.Stands op.leftTightness u ∧ l.Stands (op.tightness + 1) v := by
  rw [Keeps, text, hu.words_binary op hv]
  constructor
  · rintro ⟨x, y, left, right, read⟩
    rw [← left, ← right, Phrase.readsAs_binary_iff, left, right] at read
    exact ⟨⟨x, read.1⟩, ⟨y, read.2⟩⟩
  · rintro ⟨⟨x, hx⟩, ⟨y, hy⟩⟩
    have left := hx.words_eq
    have right := hy.words_eq
    refine ⟨x, y, left, right, ?_⟩
    rw [← left, ← right, Phrase.readsAs_binary_iff, left, right]
    exact ⟨hx, hy⟩

/-- The parentheses of a function and the comma keep its operands apart. -/
theorem keeps_call {name : String} (hu : l.Ends u) (hv : l.Ends v)
    (hname : l.run .ground (name ++ "(").toList = ([.word name.toList, .symbol '('], .ground)) :
    (call name).Keeps l u v ((call name).text u v) := by
  have comma : l.run .ground ", ".toList = ([.symbol ','], .ground) := rfl
  have closing : l.tokens ")" = [.symbol ')'] := rfl
  have last := Lexicon.tokens_append (t := ")") hv rfl rfl
  have second := Lexicon.tokens_append_of_ground comma (v ++ ")")
  have first := Lexicon.tokens_append (t := ", " ++ (v ++ ")")) hu (c := ',')
    (by rw [String.toList_append]; rfl) rfl
  have whole := Lexicon.tokens_append_of_ground hname (u ++ (", " ++ (v ++ ")")))
  have shape : (call name).text u v = name ++ "(" ++ (u ++ (", " ++ (v ++ ")"))) := by
    simp [text, String.append_assoc]
  rw [Keeps, shape, whole.1, first.1, second.1, last.1, closing]
  simp [parenthesized]

end OperatorForm

namespace BinaryOp

variable {d : Dialect} {op : BinaryOp}

/-- A dialect that writes an operator as another one writes it as one that binds alike. -/
theorem level_form {op' : BinaryOp} (h : op.form d = .between op') :
    op'.tightness = op.tightness ∧ op'.leftTightness = op.leftTightness := by
  cases d <;> cases op <;> cases h <;> exact ⟨rfl, rfl⟩

/-- Operators keep operands that bind tightly enough, functions keep all. -/
theorem keeps_iff (hu : l.IsTidy u) (hv : l.IsTidy v) :
    (op.form d).Keeps l u v ((op.form d).text u v) ↔ (op.form d).isCall ∨
      l.Stands op.leftTightness u ∧ l.Stands (op.tightness + 1) v := by
  cases hf : op.form d with
  | between op' =>
    rw [OperatorForm.keeps_between_iff hu hv, (level_form hf).1, (level_form hf).2]
    simp [OperatorForm.isCall]
  | call name =>
    obtain rfl := BinaryOp.form_call hf
    exact iff_of_true (OperatorForm.keeps_call hu.ends hv.ends rfl) (.inl rfl)

/-- Comparisons and arithmetic take operands that bind tighter than tests for NULL, and signs. -/
theorem tightness_bounds (h : 2 ≤ op.level) :
    (5 ≤ op.leftTightness ∧ op.leftTightness ≤ 8) ∧ 5 ≤ op.tightness + 1 ∧ op.tightness ≤ 8 := by
  cases op <;> revert h <;> decide

end BinaryOp

namespace Script

variable {d : Dialect} {version : Version} {w : Script} {s : Settled} {op : UnaryOp} {x y : Tree}
  {i j : Nat} {hint : Option String}

/-- Of the expressions with one operand a sign binds tightest, and the others bind looser than
all that stands beside comparisons and arithmetic. -/
theorem stands_unary_iff (tidy : w.IsTidy l s hint x) (hop : op ≠ .existence)
    (h : w.Writes s hint (.mk i (.unary op x)) t) (low : 5 ≤ n) (high : n ≤ 9) :
    l.Stands n t ↔ op = .negate := by
  obtain ⟨u, hu, rfl⟩ := writes_unary hop h
  have operand := (tidy u hu).operandText (op.encloses x)
  have loose (hw : .unary op ∈ l.words
      (Lexicon.front op ++ operandText (op.encloses x) u ++ Lexicon.behind op))
      (binds : op.tightness < 5) : ¬ l.Stands n
        (Lexicon.front op ++ operandText (op.encloses x) u ++ Lexicon.behind op) := fun stands ↦
    absurd (stands.le_tightness hw) (Nat.not_le.2 (Nat.lt_of_lt_of_le binds low))
  cases op with
  | negate =>
    refine iff_of_true ?_ rfl
    obtain ⟨z, read⟩ : l.Stands 9 (operandText true u) :=
      (Lexicon.stands_operandText (tidy u hu) (by decide) true).2 (.inl rfl)
    have text : Lexicon.front .negate ++ operandText true u ++ Lexicon.behind .negate =
        Lexicon.front .negate ++ operandText true u := String.append_empty
    refine ⟨.unary .negate z, ?_⟩
    change Phrase.Reads n (l.words
      (Lexicon.front .negate ++ operandText true u ++ Lexicon.behind .negate)) _
    rw [text, Lexicon.words_front rfl]
    exact .front rfl high read
  | negation =>
    refine iff_of_false (loose ?_ (by decide)) (by decide)
    rw [Lexicon.behind, String.append_empty, Lexicon.words_front rfl]
    exact List.mem_cons_self
  | isNull | isNotNull =>
    refine iff_of_false (loose ?_ (by decide)) (by decide)
    rw [Lexicon.front, String.empty_append, operand.words_back rfl]
    simp
  | existence => exact (hop rfl).elim

/-- A test for NULL of an expression with one operand is read as one exactly if that is a sign. -/
theorem keeps_test_iff (hop : op ≠ .existence) (tidy : w.IsTidy l s hint x) {outer : UnaryOp}
    (hback : outer.isBack) (h : w.Writes s hint (.mk j (.unary outer (.mk i (.unary op x)))) t) :
    ∃ u, w.Writes s hint (.mk i (.unary op x)) u ∧ t = u ++ Lexicon.behind outer ∧
      (l.KeepsOne outer u t ↔ op = .negate) := by
  have nonexistence : outer ≠ .existence := by
    rintro rfl
    cases hback
  obtain ⟨u, hu, rfl⟩ := writes_unary nonexistence h
  have text : Lexicon.front outer ++ operandText (outer.encloses (.mk i (.unary op x))) u ++
      Lexicon.behind outer = u ++ Lexicon.behind outer := by
    cases outer with
    | isNull | isNotNull => exact congrArg (· ++ _) String.empty_append
    | negation | negate | existence => cases hback
  refine ⟨u, hu, text, ?_⟩
  rw [text, Lexicon.keepsOne_back_iff hback (tidy.unary hop u hu),
    stands_unary_iff tidy hop hu (Nat.le_refl 5) (by decide)]

/-- What two operands are written as is read as the operator with both of them exactly if each
has its place. -/
theorem keeps_operands_iff {outer : BinaryOp} (hw : w.spelling = d.spelling version)
    (hx : w.IsTidy l s hint x) (hy : w.IsTidy l s hint y)
    (h : w.Writes s hint (.mk j (.binary outer x y)) t) :
    ∃ u v, w.Writes s hint x u ∧ w.Writes s hint y v ∧
      t = (outer.form d).text (operandText (outer.takesApart false x) u)
        (operandText (outer.takesApart true y) v) ∧
      ((outer.form d).Keeps l (operandText (outer.takesApart false x) u)
        (operandText (outer.takesApart true y) v) t ↔ (outer.form d).isCall ∨
          (outer.takesApart false x ∨ l.Stands outer.leftTightness u) ∧
            (outer.takesApart true y ∨ l.Stands (outer.tightness + 1) v)) := by
  obtain ⟨u, v, hu, hv, rfl⟩ := writes_binary (hw ▸ d.operatorTemplate_eq version outer) h
  have high : outer.leftTightness ≤ 10 ∧ outer.tightness + 1 ≤ 10 := by
    cases outer <;> decide
  refine ⟨u, v, hu, hv, rfl, ?_⟩
  rw [BinaryOp.keeps_iff ((hx u hu).operandText _) ((hy v hv).operandText _),
    Lexicon.stands_operandText (hx u hu) high.1, Lexicon.stands_operandText (hy v hv) high.2]

/-- An expression with one operand is read with the operand exactly if that is in parentheses or
binds tighter than tests for NULL. As an operand of such a test, or of a comparison or arithmetic,
it keeps its boundaries exactly if it is a sign, or the operator is a function. -/
theorem keeps_unary_iff (hw : w.spelling = d.spelling version) (hop : op ≠ .existence)
    (tidy : w.IsTidy (d.lexicon version) s hint x) :
    (∀ t, w.Writes s hint (.mk i (.unary op x)) t → ∃ u, w.Writes s hint x u ∧
      t = Lexicon.front op ++ operandText (op.encloses x) u ++ Lexicon.behind op ∧
      ((d.lexicon version).KeepsOne op (operandText (op.encloses x) u) t ↔
        op.encloses x ∨ (d.lexicon version).Stands 5 u)) ∧
    (∀ outer j t, outer.isBack → w.Writes s hint (.mk j (.unary outer (.mk i (.unary op x)))) t →
      ∃ u, w.Writes s hint (.mk i (.unary op x)) u ∧ t = u ++ Lexicon.behind outer ∧
        ((d.lexicon version).KeepsOne outer u t ↔ op = .negate)) ∧
    (∀ outer y j t, 2 ≤ outer.level → w.IsTidy (d.lexicon version) s hint y →
      w.Writes s hint (.mk j (.binary outer (.mk i (.unary op x)) y)) t →
      ∃ u v, w.Writes s hint (.mk i (.unary op x)) u ∧ w.Writes s hint y v ∧
        t = (outer.form d).text u (operandText (outer.takesApart true y) v) ∧
        ((outer.form d).Keeps (d.lexicon version) u (operandText (outer.takesApart true y) v) t ↔
          (outer.form d).isCall ∨ op = .negate ∧ (outer.takesApart true y ∨
            (d.lexicon version).Stands (outer.tightness + 1) v))) ∧
    (∀ outer y j t, 2 ≤ outer.level → w.IsTidy (d.lexicon version) s hint y →
      w.Writes s hint (.mk j (.binary outer y (.mk i (.unary op x)))) t →
      ∃ v u, w.Writes s hint y v ∧ w.Writes s hint (.mk i (.unary op x)) u ∧
        t = (outer.form d).text (operandText (outer.takesApart false y) v) u ∧
        ((outer.form d).Keeps (d.lexicon version) (operandText (outer.takesApart false y) v) u t ↔
          (outer.form d).isCall ∨ (outer.takesApart false y ∨
            (d.lexicon version).Stands outer.leftTightness v) ∧ op = .negate)) := by
  refine ⟨fun t h ↦ ?_, fun outer j t hback h ↦ keeps_test_iff hop tidy hback h,
    fun outer y j t level hy h ↦ ?_, fun outer y j t level hy h ↦ ?_⟩
  · obtain ⟨u, hu, rfl⟩ := writes_unary hop h
    refine ⟨u, hu, rfl, ?_⟩
    cases op with
    | negation | negate =>
      refine iff_of_true ?_ (.inl rfl)
      rw [Lexicon.behind, String.append_empty]
      exact Lexicon.keepsOne_front rfl (tidy u hu)
    | isNull | isNotNull =>
      rw [Lexicon.front, String.empty_append,
        Lexicon.keepsOne_back_iff rfl ((tidy u hu).operandText _),
        Lexicon.stands_operandText (tidy u hu) (by decide)]
    | existence => exact (hop rfl).elim
  · obtain ⟨u, v, hu, hv, text, keeps⟩ := keeps_operands_iff hw (tidy.unary hop) hy h
    have bounds := outer.tightness_bounds level
    have place := stands_unary_iff tidy hop hu bounds.1.1 (by omega)
    refine ⟨u, v, hu, hv, text, keeps.trans ?_⟩
    simp [place, BinaryOp.takesApart, Tree.binaryOp?, Tree.node]
  · obtain ⟨v, u, hv, hu, text, keeps⟩ := keeps_operands_iff hw hy (tidy.unary hop) h
    have bounds := outer.tightness_bounds level
    have place := stands_unary_iff tidy hop hu bounds.2.1 (by omega)
    refine ⟨v, u, hv, hu, text, keeps.trans ?_⟩
    simp [place, BinaryOp.takesApart, Tree.binaryOp?, Tree.node]

/-- A sign keeps its operand, and a test for NULL and a comparison keep the sign. -/
theorem keeps_unary_iff_of_sign :
    let v : Version := ⟨9, 0⟩
    let w : Script := ⟨Dialect.postgreSql.spelling v, Dialect.postgreSql.typeNames v, "@"⟩
    let l := Dialect.postgreSql.lexicon v
    let sign := Tree.mk 1 (.unary .negate (.mk 0 (.column none "x")))
    let y := Tree.mk 2 (.column none "y")
    (w.Writes ⟨{}, []⟩ none sign "-(\x22x\x22)" ∧
      w.Writes ⟨{}, []⟩ none (.mk 3 (.unary .isNull sign)) "-(\x22x\x22) IS NULL" ∧
      w.Writes ⟨{}, []⟩ none (.mk 3 (.binary .lt sign y)) "-(\x22x\x22) < \x22y\x22") ∧
    l.KeepsOne .negate "(\x22x\x22)" "-(\x22x\x22)" ∧
    l.KeepsOne .isNull "-(\x22x\x22)" "-(\x22x\x22) IS NULL" ∧
    (OperatorForm.between .lt).Keeps l "-(\x22x\x22)" "\x22y\x22" "-(\x22x\x22) < \x22y\x22" := by
  intro v w l sign y
  have written : w.Writes ⟨{}, []⟩ none sign "-(\x22x\x22)" := ⟨[], _, _, rfl, rfl⟩
  have tested : w.Writes ⟨{}, []⟩ none (.mk 3 (.unary .isNull sign)) "-(\x22x\x22) IS NULL" :=
    ⟨[], _, _, rfl, rfl⟩
  have compared : w.Writes ⟨{}, []⟩ none (.mk 3 (.binary .lt sign y)) "-(\x22x\x22) < \x22y\x22" :=
    ⟨[], _, _, rfl, rfl⟩
  have tidy (i : Nat) (name : String) : w.IsTidy l ⟨{}, []⟩ none (.mk i (.column none name)) :=
    isTidy_column rfl none name
  have spelled : w.spelling = Dialect.postgreSql.spelling v := rfl
  have signed {u : String} (h : w.Writes ⟨{}, []⟩ none sign u) : u = "-(\x22x\x22)" := by
    obtain ⟨x, hx, rfl⟩ := writes_unary (show UnaryOp.negate ≠ .existence from nofun) h
    obtain rfl := writes_name spelled hx
    rfl
  obtain ⟨own, test, left, -⟩ := keeps_unary_iff (i := 1) spelled
    (show UnaryOp.negate ≠ .existence from nofun) (tidy 0 "x")
  refine ⟨⟨written, tested, compared⟩, ?_, ?_, ?_⟩
  · obtain ⟨u, hu, -, keeps⟩ := own _ written
    obtain rfl := writes_name spelled hu
    exact keeps.2 (.inl rfl)
  · obtain ⟨u, hu, -, keeps⟩ := test .isNull 3 _ rfl tested
    obtain rfl := signed hu
    exact keeps.2 rfl
  · obtain ⟨u, u', hu, hu', -, keeps⟩ := left .lt y 3 _ (by decide) (tidy 2 "y") compared
    obtain rfl := signed hu
    obtain rfl := writes_name spelled hu'
    refine keeps.2 (.inr ⟨rfl, .inr ⟨.operand [.quoted .doubleQuoted ['y']], ?_⟩⟩)
    exact .operand _ (by decide)

end Script

/-- Test for NULL of a negation. -/
def Tree.negationTest : Tree :=
  mk 2 (.unary .isNull (mk 1 (.unary .negation (mk 0 (.column none "x")))))

/-- The test is read as the negation of a test. -/
theorem Tree.negationTest_not_kept :
    let l := Dialect.postgreSql.lexicon ⟨9, 0⟩
    ∃ c, negationTest.command (Dialect.postgreSql.spelling ⟨9, 0⟩)
        (Dialect.postgreSql.typeNames ⟨9, 0⟩) = .ok c ∧
      (∀ b, c.text b = .ok "NOT (\x22x\x22) IS NULL") ∧
      ¬ l.KeepsOne .isNull "NOT (\x22x\x22)" "NOT (\x22x\x22) IS NULL" ∧
      ∃ x, Phrase.ReadsAs (l.words "NOT (\x22x\x22) IS NULL")
        (.unary .negation (.unary .isNull x)) := by
  intro l
  let x : List Token := [.symbol '(', .quoted .doubleQuoted ['x'], .symbol ')']
  have words : l.words "NOT (\x22x\x22) IS NULL" =
    [.unary .negation, .operand x, .unary .isNull] := rfl
  have test : Phrase.Reads 3 [.operand x, .unary .isNull] (.unary .isNull (.operand x)) :=
    .back rfl (by decide) (.operand x (by decide))
  have read : Phrase.Reads 0 (l.words "NOT (\x22x\x22) IS NULL")
      (.unary .negation (.unary .isNull (.operand x))) := by
    rw [words]
    exact .front rfl (Nat.zero_le _) test
  refine ⟨⟨[.text "NOT (\x22x\x22) IS NULL"], [], [], 0⟩, rfl, fun b ↦ rfl, ?_, .operand x,
    Phrase.readsAs_iff.2 read⟩
  rintro ⟨y, -, kept⟩
  cases (Phrase.readsAs_iff.1 kept).unique read

end SqlWright
