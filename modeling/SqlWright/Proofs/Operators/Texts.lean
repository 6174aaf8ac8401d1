import SqlWright.Proofs.Lexing.Values
import SqlWright.Proofs.Operators.Scanning
import SqlWright.Spelling.Ansi

/-!
# Texts of operands

A text spells lexemes if it ends with a token and its tokens are scanned as these lexemes. Names,
numbers, truth values, parameters and strings spell an operand each. What operators are written as
between operands, and parentheses around them, keeps the tokens apart.
-/

namespace SqlWright

namespace Lexicon

variable {l : Lexicon} {idOf? : String → Option Nat} {s t : String} {ls ls' : List Lexeme}

/-- The text ends with a token, and its tokens are those of an operand. -/
def Spells (l : Lexicon) (idOf? : String → Option Nat) (s : String) (ls : List Lexeme) : Prop :=
  ∃ ts m, l.run .ground s.toList = (ts, m) ∧ m.Outside m ∧ Lexeme.Takes idOf? (ts ++ m.finish) ls

/-- A character that no token goes on with completes the token before it. -/
theorem step_of_isBreak {m : Mode} (hm : m.Outside m) {c : Char} (h : isBreak c = true) :
    l.step m c = (m.finish ++ (l.start c).1, (l.start c).2) := by
  simp only [isBreak, Bool.and_eq_true, bne_iff_ne, ne_eq, Bool.not_eq_true'] at h
  obtain ⟨⟨⟨noWord, noDouble⟩, noSingle⟩, noBracket⟩ := h
  cases hm with
  | ground => rfl
  | word text => simp [step, noWord, noSingle, Mode.finish]
  | closing form payload =>
    have other : c ≠ form.closing := by cases form <;> assumption
    simp [step, other, Mode.finish]

/-- After any token a text that begins so is read as at the start of one. -/
theorem run_of_isBreak {m : Mode} (hm : m.Outside m) {c : Char} (h : isBreak c = true)
    (cs : List Char) :
    l.run m (c :: cs) = (m.finish ++ (l.run .ground (c :: cs)).1, (l.run .ground (c :: cs)).2) := by
  have ground : l.step .ground c = l.start c := rfl
  simp only [run, step_of_isBreak hm h, ground, List.append_assoc]

theorem run_word {cs : List Char} (h : cs.all isWordChar = true) (text : List Char) :
    l.run (.word text) cs = ([], .word (text ++ cs)) := by
  induction cs generalizing text with
  | nil => simp [run]
  | cons c cs ih =>
    rw [List.all_cons, Bool.and_eq_true] at h
    simp [run, step, h.1, ih h.2]

theorem isWordChar_of_isDigit {c : Char} (h : c.isDigit = true) : isWordChar c = true := by
  simp [isWordChar, Char.isAlphanum, h]

theorem repr_isWordChar (n : Nat) : n.repr.toList.all isWordChar = true :=
  repr_all (fun _ ↦ isWordChar_of_isDigit) n

/-! ### Operands -/

theorem spells_column (name : String) :
    l.Spells idOf? (Quoting.doubleQuotes name) [.leaf (.column none name)] := by
  have takes : Lexeme.Takes idOf? _ _ := Lexeme.takes_column name.toList
  rw [String.ofList_toList] at takes
  exact ⟨_, _, run_doubleQuotes name, .closing _ _ _, takes⟩

theorem spells_qualified (q name : String) :
    l.Spells idOf? (Quoting.doubleQuotes q ++ "." ++ Quoting.doubleQuotes name)
      [.leaf (.column (some q) name)] := by
  have takes : Lexeme.Takes idOf? _ _ := Lexeme.takes_qualified q.toList name.toList
  rw [String.ofList_toList, String.ofList_toList] at takes
  refine ⟨[.quoted .doubleQuoted q.toList, .symbol '.'], .closing .doubleQuoted name.toList, ?_,
    .closing _ _ _, takes⟩
  have point : l.run (.closing .doubleQuoted q.toList) ".".toList =
      ([.quoted .doubleQuoted q.toList, .symbol '.'], .ground) :=
    run_of_isBreak (.closing _ _ _) rfl []
  simp only [String.toList_append, run_append, run_doubleQuotes, point]
  rfl

/-- A number is read as a word. -/
theorem run_repr (n : Nat) : l.run .ground n.repr.toList = ([], .word n.repr.toList) := by
  have digits := repr_isWordChar n
  cases hd : n.repr.toList with
  | nil => exact absurd hd (by simp [Nat.toList_repr, Nat.toDigits_ne_nil])
  | cons c cs =>
    rw [hd, List.all_cons, Bool.and_eq_true] at digits
    have calm : l.opened? c = none := by
      have quote : c ≠ '\x22' ∧ c ≠ '\x27' ∧ c ≠ '[' := by
        refine ⟨?_, ?_, ?_⟩ <;> rintro rfl <;> exact absurd digits.1 (by decide)
      simp [opened?, quote]
    simp [run, step, start, calm, digits.1, run_word digits.2]

theorem spells_number (n : Nat) : l.Spells idOf? n.repr [.leaf (.number n)] :=
  ⟨_, _, run_repr n, .word _, Lexeme.takes_constant (Lexeme.constant?_number n)⟩

theorem spells_boolean (b : Bool) :
    l.Spells idOf? (if b then "TRUE" else "FALSE") [.leaf (.boolean b)] := by
  cases b with
  | true => exact ⟨[], .word "TRUE".toList, rfl, .word _, Lexeme.takes_constant rfl⟩
  | false => exact ⟨[], .word "FALSE".toList, rfl, .word _, Lexeme.takes_constant rfl⟩

theorem spells_parameter {n id : Nat} (h : idOf? ("@" ++ "p" ++ n.repr) = some id) :
    l.Spells idOf? ("@" ++ "p" ++ n.repr) [.leaf (.parameter id)] := by
  refine ⟨[.symbol '@'], .word ('p' :: n.repr.toList), ?_, .word _, Lexeme.takes_parameter ?_⟩
  · have mark : l.run .ground ("@" ++ "p").toList = ([.symbol '@'], .word ['p']) := rfl
    rw [String.toList_append, run_append, mark]
    simp only [run_word (repr_isWordChar n)]
    rfl
  · have name : "@" ++ String.ofList ('p' :: n.repr.toList) = "@" ++ "p" ++ n.repr :=
      String.toList_inj.1 (by simp)
    rw [name, h]

theorem spells_plainString (h : l.backslashes = true) (value : String) :
    l.Spells idOf? (Quoting.backslashString value)
      [.leaf (.string (String.ofList (Quoting.withoutNul value)))] :=
  ⟨_, _, run_backslashString h value, .closing _ _ _, Lexeme.takes_string (.inl rfl) _⟩

theorem spells_escapeString (h : l.escapeStrings = true) (value : String) :
    l.Spells idOf? (Quoting.escapeString value)
      [.leaf (.string (String.ofList (Quoting.withoutNul value)))] :=
  ⟨_, _, run_escapeString h value, .closing _ _ _, Lexeme.takes_string (.inr rfl) _⟩

/-! ### Operators and parentheses -/

/-- Text that stands between the operands of an operator. -/
def between (op : BinaryOp) : String :=
  match (Template.pattern (Spelling.ansiOperator op)).parts 2 with
  | [_, .text s, _] => s
  | _ => ""

theorem parts_ansiOperator (op : BinaryOp) :
    (Template.pattern (Spelling.ansiOperator op)).parts 2 =
      [.arg 0, .text (between op), .arg 1] := by
  cases op <;> rfl

theorem run_between (op : BinaryOp) :
    l.run .ground (between op).toList = (op.tokens, .ground) := by
  cases op <;> rfl

theorem Spells.binary (h : l.Spells idOf? s ls) (op : BinaryOp) (h' : l.Spells idOf? t ls') :
    l.Spells idOf? (s ++ between op ++ t) (ls ++ .operator op :: ls') := by
  obtain ⟨ts, m, run, outside, takes⟩ := h
  obtain ⟨ts', m', run', outside', takes'⟩ := h'
  have middle : l.run m (between op).toList = (m.finish ++ op.tokens, .ground) := by
    obtain ⟨cs, hcs⟩ : ∃ cs, (between op).toList = ' ' :: cs := by
      cases op <;> exact ⟨_, rfl⟩
    have read := run_between (l := l) op
    rw [hcs] at read ⊢
    rw [run_of_isBreak outside rfl, read]
  refine ⟨ts ++ (m.finish ++ op.tokens) ++ ts', m', ?_, outside', ?_⟩
  · simp only [String.toList_append, run_append, run, middle, run', List.append_assoc]
  · simpa only [List.append_assoc] using takes.binary op takes'

theorem Spells.group (h : l.Spells idOf? s ls) :
    l.Spells idOf? ("(" ++ s ++ ")") (.opening :: (ls ++ [.closing])) := by
  obtain ⟨ts, m, run, outside, takes⟩ := h
  have opening : l.run .ground "(".toList = ([.symbol '('], .ground) := rfl
  have closing : l.run m ")".toList = (m.finish ++ [.symbol ')'], .ground) :=
    run_of_isBreak outside rfl []
  refine ⟨.symbol '(' :: (ts ++ (m.finish ++ [.symbol ')'])), .ground, ?_, .ground, ?_⟩
  · simp only [String.toList_append, run_append, opening, run, closing]
    rfl
  · simpa [Mode.finish] using takes.group

end Lexicon

end SqlWright
