import SqlWright.Proofs.Operators.Boundaries

/-!
# Operands as they are written

The text of an operator is made of the texts of its operands, some of them in parentheses, and
the text of the operator. An operand that stands without parentheses keeps its boundaries if
none of its words outside brackets binds too loosely for the place.
-/

namespace SqlWright

variable {s : Settled} {t : String}

/-! ### Texts of what is written -/

namespace Writing

variable {x y : Writing Chain}

/-- Writing succeeds, and the execution renders what is written as the text. -/
def Gives (s : Settled) (x : Writing Chain) (t : String) : Prop :=
  ∃ named c named', x named = .ok (c, named') ∧ s.renderChain c = .ok t

theorem renderChain_text_ok {u : String} : s.renderChain [.text u] = .ok t ↔ t = u := by
  rw [Settled.renderChain_single (t := u) rfl]
  exact ⟨fun h ↦ (Except.ok.inj h).symm, fun h ↦ congrArg Except.ok h.symm⟩

theorem Gives.around {before after : String}
    (h : Gives s (do return [Piece.text before] ++ (← x) ++ [Piece.text after]) t) :
    ∃ u, Gives s x u ∧ t = before ++ u ++ after := by
  obtain ⟨named, d, named', run, rendered⟩ := h
  obtain ⟨c, named₁, hx, last⟩ := bind_ok.1 run
  cases pure_ok.1 last
  obtain ⟨_, _, whole, closing, rfl⟩ := Settled.renderChain_append_ok.1 rendered
  obtain ⟨_, u, opening, inner, rfl⟩ := Settled.renderChain_append_ok.1 whole
  cases renderChain_text_ok.1 opening
  cases renderChain_text_ok.1 closing
  exact ⟨u, ⟨named, c, _, hx, inner⟩, rfl⟩

theorem Gives.followed {after : String} (h : Gives s (do return (← x) ++ [Piece.text after]) t) :
    ∃ u, Gives s x u ∧ t = u ++ after := by
  obtain ⟨named, d, named', run, rendered⟩ := h
  obtain ⟨c, named₁, hx, last⟩ := bind_ok.1 run
  cases pure_ok.1 last
  obtain ⟨u, _, inner, closing, rfl⟩ := Settled.renderChain_append_ok.1 rendered
  cases renderChain_text_ok.1 closing
  exact ⟨u, ⟨named, c, _, hx, inner⟩, rfl⟩

theorem gives_text {u : String} (h : Gives s (pure [.text u]) t) : t = u := by
  obtain ⟨named, c, named', run, rendered⟩ := h
  cases pure_ok.1 run
  exact renderChain_text_ok.1 rendered

theorem gives_cons {l : List (Writing Chain)} (h : Gives s (concat (x :: l)) t) :
    ∃ u v, Gives s x u ∧ Gives s (concat l) v ∧ t = u ++ v := by
  obtain ⟨named, c, named', run, rendered⟩ := h
  obtain ⟨c₁, named₁, c₂, hx, hl, rfl⟩ := concat_ok.1 run
  obtain ⟨u, v, hu, hv, rfl⟩ := Settled.renderChain_append_ok.1 rendered
  exact ⟨u, v, ⟨named, c₁, named₁, hx, hu⟩, ⟨named₁, c₂, named', hl, hv⟩, rfl⟩

theorem Gives.of_concat {l : List (Writing Chain)} (h : Gives s (concat l) t) :
    ∃ us, List.Forall₂ (Gives s) l us ∧ t = String.join us := by
  induction l generalizing t with
  | nil =>
    obtain ⟨named, c, named', run, rendered⟩ := h
    cases pure_ok.1 run
    cases rendered
    exact ⟨[], .nil, rfl⟩
  | cons x l ih =>
    obtain ⟨u, v, hu, hv, rfl⟩ := gives_cons h
    obtain ⟨us, all, rfl⟩ := ih hv
    exact ⟨u :: us, .cons hu all, by simp⟩

theorem gives_lift {β : Type} {e : Except Error β} {f : β → Writing Chain}
    (h : Gives s (liftM e >>= f) t) : ∃ b, e = .ok b ∧ Gives s (f b) t := by
  obtain ⟨named, c, named', run, rendered⟩ := h
  obtain ⟨b, named₁, lifted, run⟩ := bind_ok.1 run
  obtain ⟨given, same⟩ := lift_ok.1 lifted
  exact ⟨b, given, named₁, c, named', run, rendered⟩

end Writing

open Writing

/-- A statement, or a part of one, is written as the text under a hint for tables. -/
def Script.Writes (w : Script) (s : Settled) (hint : Option String) (x : Tree) (t : String) :
    Prop :=
  Gives s (w.tree x hint) t

theorem eq_ok_of_toOption {ε α : Type} {x : Except ε α} {a : α} (h : x.toOption = some a) :
    x = .ok a := by
  cases x with
  | error e => cases h
  | ok b => exact congrArg Except.ok (Option.some.inj h)

/-- The text that a run gives is written. -/
theorem Script.writes_of_run {w : Script} {s : Settled} {x : Tree} {t : String}
    (h : ((w.tree x none []).toOption.bind fun r ↦ (s.renderChain r.1).toOption) = some t) :
    w.Writes s none x t := by
  obtain ⟨⟨c, named⟩, written, rendered⟩ := Option.bind_eq_some_iff.1 h
  exact ⟨[], c, named, eq_ok_of_toOption written, eq_ok_of_toOption rendered⟩

/-- Text of an operand, in parentheses or not. -/
def operandText (isEnclosed : Bool) (u : String) : String :=
  if isEnclosed then "(" ++ u ++ ")" else u

/-- The operand is put in parentheses. -/
def UnaryOp.encloses (op : UnaryOp) (x : Tree) : Bool := op.isFront || x.binaryOp?.isSome

/-- How an operator is written: between its operands, maybe as another one, or as a function. -/
inductive OperatorForm where
  | between (op : BinaryOp)
  | call (name : String)

/-- How a dialect writes an operator. -/
def BinaryOp.form : Dialect → BinaryOp → OperatorForm
  | .sqlServer, .concat => .between .plus
  | .oracle, .modulo => .call "MOD"
  | _, op => .between op

/-- The only function that an operator is written as. -/
theorem BinaryOp.form_call {d : Dialect} {op : BinaryOp} {name : String}
    (h : op.form d = .call name) : name = "MOD" := by
  cases d <;> cases op <;> cases h
  rfl

namespace OperatorForm

/-- Template of the form. -/
def template : OperatorForm → Template
  | between op => .pattern (Spelling.ansiOperator op)
  | call name => .call name

/-- Text of the form with its operands. -/
def text (u v : String) : OperatorForm → String
  | between op => u ++ Lexicon.between op ++ v
  | call name => name ++ "(" ++ u ++ ", " ++ v ++ ")"

end OperatorForm

namespace Script

variable {w : Script} {x y : Tree} {i : Nat} {hint : Option String}

theorem gives_grouped (h : Gives s (grouped (x, w.tree x) hint) t) :
    ∃ u, w.Writes s hint x u ∧ t = operandText x.binaryOp?.isSome u := by
  unfold grouped at h
  cases hb : x.binaryOp?.isSome with
  | true =>
    rw [if_pos hb] at h
    obtain ⟨u, hu, rfl⟩ := h.around
    exact ⟨u, hu, rfl⟩
  | false =>
    rw [if_neg (by simp [hb])] at h
    exact ⟨t, h, rfl⟩

theorem gives_operand {op : BinaryOp} {isRight : Bool}
    (h : Gives s (operand op isRight (x, w.tree x) hint) t) :
    ∃ u, w.Writes s hint x u ∧ t = operandText (op.takesApart isRight x) u := by
  change Gives s (if op.takesApart isRight x then grouped (x, w.tree x) hint else w.tree x hint) t
    at h
  cases ht : op.takesApart isRight x with
  | true =>
    have binary : x.binaryOp?.isSome := by
      cases hb : x.binaryOp? with
      | none => simp [BinaryOp.takesApart, hb] at ht
      | some child => rfl
    rw [if_pos ht] at h
    obtain ⟨u, hu, rfl⟩ := gives_grouped h
    exact ⟨u, hu, by rw [binary]⟩
  | false =>
    rw [if_neg (by simp [ht])] at h
    exact ⟨t, h, rfl⟩

/-- What an expression with one operand is written as. -/
theorem writes_unary {op : UnaryOp} (hop : op ≠ .existence)
    (h : w.Writes s hint (.mk i (.unary op x)) t) : ∃ u, w.Writes s hint x u ∧
      t = Lexicon.front op ++ operandText (op.encloses x) u ++ Lexicon.behind op := by
  rw [Writes, tree_mk] at h
  cases op with
  | negation | negate =>
    obtain ⟨u, hu, rfl⟩ := Gives.around h
    refine ⟨u, hu, ?_⟩
    simp [Lexicon.front, Lexicon.behind, operandText, UnaryOp.encloses, UnaryOp.isFront,
      ← String.append_assoc]
  | isNull | isNotNull =>
    obtain ⟨_, grouped, rfl⟩ := Gives.followed h
    obtain ⟨u, hu, rfl⟩ := gives_grouped grouped
    exact ⟨u, hu, by simp [Lexicon.front, Lexicon.behind, UnaryOp.encloses, UnaryOp.isFront]⟩
  | existence => exact (hop rfl).elim

theorem gives_template {parts : List TemplatePart} {arg : Nat → Writing Chain}
    (h : Gives s (template parts arg) t) : ∃ us, t = String.join us ∧
      List.Forall₂ (fun p u ↦ Gives s (templatePart arg p) u) parts us := by
  rw [template_eq] at h
  obtain ⟨us, all, rfl⟩ := h.of_concat
  exact ⟨us, rfl, List.forall₂_map_left_iff.1 all⟩

/-- What an expression with two operands is written as. -/
theorem writes_binary {op : BinaryOp} {form : OperatorForm}
    (hf : w.spelling.operatorTemplate op = .ok form.template)
    (h : w.Writes s hint (.mk i (.binary op x y)) t) :
    ∃ u v, w.Writes s hint x u ∧ w.Writes s hint y v ∧
      t = form.text (operandText (op.takesApart false x) u)
        (operandText (op.takesApart true y) v) := by
  rw [Writes, tree_mk] at h
  change Gives s (do
    let t ← liftM (w.spelling.operatorTemplate op)
    template (t.parts 2) _) t at h
  rw [hf] at h
  obtain ⟨us, rfl, all⟩ := gives_template h
  cases form with
  | between op' =>
    change List.Forall₂ _ ((Template.pattern (Spelling.ansiOperator op')).parts 2) us at all
    rw [Lexicon.parts_ansiOperator] at all
    rcases all with _ | ⟨left, _ | ⟨middle, _ | ⟨right, _ | _⟩⟩⟩
    obtain ⟨u, hu, rfl⟩ := gives_operand left
    obtain ⟨v, hv, rfl⟩ := gives_operand right
    obtain rfl := gives_text middle
    exact ⟨u, v, hu, hv, by simp [OperatorForm.text, String.append_assoc]⟩
  | call name =>
    change List.Forall₂ _ [TemplatePart.text (name ++ "("), .arg 0, .text ", ", .arg 1, .text ")"]
      us at all
    rcases all with _ | ⟨first, _ | ⟨left, _ | ⟨middle, _ | ⟨right, _ | ⟨last, _ | _⟩⟩⟩⟩⟩
    obtain ⟨u, hu, rfl⟩ := gives_operand left
    obtain ⟨v, hv, rfl⟩ := gives_operand right
    obtain rfl := gives_text first
    obtain rfl := gives_text middle
    obtain rfl := gives_text last
    exact ⟨u, v, hu, hv, by simp [OperatorForm.text, String.append_assoc]⟩

end Script

/-- Every version of a dialect writes an operator alike. -/
theorem Dialect.operatorTemplate_eq (d : Dialect) (v : Version) (op : BinaryOp) :
    (d.spelling v).operatorTemplate op = .ok (op.form d).template := by
  cases d with
  | postgreSql =>
    change (Spelling.PostgreSql.spelling v).operatorTemplate op = _
    unfold Spelling.operatorTemplate Spelling.resolve Spelling.PostgreSql.spelling
    split_ifs <;> rfl
  | sqlServer =>
    change (Spelling.SqlServer.spelling v).operatorTemplate op = _
    unfold Spelling.operatorTemplate Spelling.resolve Spelling.SqlServer.spelling
    split_ifs <;> cases op <;> rfl
  | oracle =>
    change (Spelling.Oracle.spelling v).operatorTemplate op = _
    unfold Spelling.operatorTemplate Spelling.resolve Spelling.Oracle.spelling
    split_ifs <;> cases op <;> rfl

/-! ### Tidy expressions -/

theorem Lexicon.IsTidy.operandText {l : Lexicon} {u : String} (h : l.IsTidy u)
    (isEnclosed : Bool) : l.IsTidy (operandText isEnclosed u) := by
  cases isEnclosed with
  | true => exact h.parenthesized
  | false => exact h

namespace Script

variable {d : Dialect} {version : Version} {l : Lexicon} {w : Script} {x y : Tree} {i : Nat}
  {hint : Option String}

/-- The texts that an expression is written as under the hint are those of expressions. Nothing that
is made of the nodes of expressions (`Tree.IsExpression`) has other texts, by `isTidy_tree`. -/
def IsTidy (w : Script) (l : Lexicon) (s : Settled) (hint : Option String) (x : Tree) : Prop :=
  ∀ u, w.Writes s hint x u → l.IsTidy u

theorem IsTidy.unary (h : w.IsTidy l s hint x) {op : UnaryOp} (hop : op ≠ .existence) :
    w.IsTidy l s hint (.mk i (.unary op x)) := by
  intro t written
  obtain ⟨u, hu, rfl⟩ := writes_unary hop written
  have operand := (h u hu).operandText (op.encloses x)
  cases op with
  | negation | negate => simpa [Lexicon.behind] using operand.front rfl
  | isNull | isNotNull => simpa [Lexicon.front] using operand.back rfl
  | existence => exact (hop rfl).elim

theorem IsTidy.binary (hx : w.IsTidy l s hint x) (hy : w.IsTidy l s hint y) {op op' : BinaryOp}
    (ho : w.spelling.operatorTemplate op = .ok (.pattern (Spelling.ansiOperator op'))) :
    w.IsTidy l s hint (.mk i (.binary op x y)) := by
  intro t written
  have form : w.spelling.operatorTemplate op = .ok (OperatorForm.between op').template := ho
  obtain ⟨u, v, hu, hv, rfl⟩ := writes_binary form written
  exact ((hx u hu).operandText _).binary op' ((hy v hv).operandText _)

theorem gives_identifier (hw : w.spelling = d.spelling version) {name t : String}
    (h : Gives s (w.identifier name) t) : t = d.quoted name := by
  have written : w.identifier name = pure [Piece.text (d.quoted name)] := by
    change (do return [Piece.text (← liftM (w.spelling.quoteIdentifier name))]) = _
    rw [hw, d.quoteIdentifier_eq]
    rfl
  rw [written] at h
  exact gives_text h

theorem writes_name (hw : w.spelling = d.spelling version) {name t : String}
    (h : w.Writes s hint (.mk i (.column none name)) t) : t = d.quoted name := by
  rw [Writes, tree_mk] at h
  exact gives_identifier hw h

/-- A column is a name, or two with a point between. -/
theorem isTidy_column (hw : w.spelling = d.spelling version) (qualifier : Option String)
    (name : String) : w.IsTidy (d.lexicon version) s hint (.mk i (.column qualifier name)) := by
  intro t h
  have last := d.run_quoted version name
  cases qualifier with
  | none =>
    obtain rfl := writes_name hw h
    refine ⟨?_, ?_⟩
    · rw [Lexicon.Ends, last]
      exact .closing _ _ _
    · rw [Lexicon.tokens, last]
      exact ⟨rfl, rfl, .inside _⟩
  | some q =>
    have parts : (do return (← w.identifier q) ++ [Piece.text "."] ++ (← w.identifier name)) =
        concat [w.identifier q, pure [Piece.text "."], w.identifier name] := by
      simp [concat]
    rw [Writes, tree_mk] at h
    change Gives s (do return (← w.identifier q) ++ [Piece.text "."] ++ (← w.identifier name)) t
      at h
    rw [parts] at h
    obtain ⟨us, all, rfl⟩ := h.of_concat
    rcases all with _ | ⟨first, _ | ⟨middle, _ | ⟨second, _ | _⟩⟩⟩
    obtain rfl := gives_identifier hw first
    obtain rfl := gives_text middle
    obtain rfl := gives_identifier hw second
    have point : (d.lexicon version).run .ground ".".toList = ([.symbol '.'], .ground) := rfl
    have ends : (d.lexicon version).Ends (d.quoted q) := by
      rw [Lexicon.Ends, d.run_quoted]
      exact .closing _ _ _
    have whole := Lexicon.tokens_append (t := "." ++ d.quoted name) (c := '.')
      ends (by rw [String.toList_append]; rfl) rfl
    have tail := Lexicon.tokens_append_of_ground point (d.quoted name)
    have text : String.join [d.quoted q, ".", d.quoted name] =
        d.quoted q ++ ("." ++ d.quoted name) := by
      simp
    rw [text]
    refine ⟨whole.2 (tail.2 ?_), ?_⟩
    · rw [Lexicon.Ends, last]
      exact .closing _ _ _
    · rw [whole.1, tail.1, Lexicon.tokens, Lexicon.tokens, last, d.run_quoted]
      exact ⟨rfl, rfl, .inside _⟩

end Script

end SqlWright
