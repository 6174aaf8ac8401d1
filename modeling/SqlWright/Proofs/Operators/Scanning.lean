import SqlWright.Proofs.Lexing.Positions
import SqlWright.Proofs.Operators.Parentheses
import SqlWright.Text.Numeral

/-!
# Scanning formulas

Tokens are grouped into the lexemes of the grammar of operators: a column may take three tokens, a
parameter and some of the operators take two. Which parameter a name stands for is given. Operands
and operators with other tokens between them are scanned one after the other, since no operand goes
on with an operator and no operator with an operand.
-/

namespace SqlWright

/-- Tokens of an operator. -/
def BinaryOp.tokens : BinaryOp → List Token
  | eq => [.symbol '=']
  | notEq => [.symbol '<', .symbol '>']
  | lt => [.symbol '<']
  | ltEq => [.symbol '<', .symbol '=']
  | gt => [.symbol '>']
  | gtEq => [.symbol '>', .symbol '=']
  | and => [.word ['A', 'N', 'D']]
  | or => [.word ['O', 'R']]
  | plus => [.symbol '+']
  | minus => [.symbol '-']
  | multiply => [.symbol '*']
  | divide => [.symbol '/']
  | modulo => [.symbol '%']
  | concat => [.symbol '|', .symbol '|']
  | like => [.word ['L', 'I', 'K', 'E']]
  | isIn => [.word ['I', 'N']]
  | notIn => [.word ['N', 'O', 'T'], .word ['I', 'N']]

namespace Lexeme

variable {idOf? : String → Option Nat} {t : Token} {ts ts' : List Token} {x : Lexeme}
  {ls ls' : List Lexeme}

/-- Operator that tokens begin with. -/
def operator? : List Token → Option BinaryOp
  | .symbol '<' :: .symbol '>' :: _ => some .notEq
  | .symbol '<' :: .symbol '=' :: _ => some .ltEq
  | .symbol '>' :: .symbol '=' :: _ => some .gtEq
  | .symbol '|' :: .symbol '|' :: _ => some .concat
  | .symbol '=' :: _ => some .eq
  | .symbol '<' :: _ => some .lt
  | .symbol '>' :: _ => some .gt
  | .symbol '+' :: _ => some .plus
  | .symbol '-' :: _ => some .minus
  | .symbol '*' :: _ => some .multiply
  | .symbol '/' :: _ => some .divide
  | .symbol '%' :: _ => some .modulo
  | .word ['N', 'O', 'T'] :: .word ['I', 'N'] :: _ => some .notIn
  | .word ['A', 'N', 'D'] :: _ => some .and
  | .word ['O', 'R'] :: _ => some .or
  | .word ['L', 'I', 'K', 'E'] :: _ => some .like
  | .word ['I', 'N'] :: _ => some .isIn
  | _ => none

/-- Parenthesis that tokens begin with. -/
def parenthesis? : List Token → Option Lexeme
  | .symbol '(' :: _ => some .opening
  | .symbol ')' :: _ => some .closing
  | _ => none

/-- Number or truth value that a word is. -/
def constant? (word : List Char) : Option Leaf :=
  match Text.digits? word with
  | some n => some (.number n)
  | none =>
    match word with
    | ['T', 'R', 'U', 'E'] => some (.boolean true)
    | ['F', 'A', 'L', 'S', 'E'] => some (.boolean false)
    | _ => none

/-- Operand that tokens begin with, and how many tokens it takes after the first. -/
def leaf? (idOf? : String → Option Nat) : List Token → Option (Leaf × Nat)
  | .quoted .doubleQuoted q :: .symbol '.' :: .quoted .doubleQuoted name :: _ =>
    some (.column (some (String.ofList q)) (String.ofList name), 2)
  | .quoted .doubleQuoted name :: _ => some (.column none (String.ofList name), 0)
  | .quoted .plain value :: _ | .quoted .escaped value :: _ =>
    some (.string (String.ofList value), 0)
  | .symbol '@' :: .word word :: _ =>
    (idOf? ("@" ++ String.ofList word)).map fun id ↦ (.parameter id, 1)
  | .word word :: _ => (constant? word).map fun a ↦ (a, 0)
  | _ => none

/-- Lexeme that tokens begin with, and how many tokens it takes after the first. -/
def first? (idOf? : String → Option Nat) (ts : List Token) : Option (Lexeme × Nat) :=
  match leaf? idOf? ts with
  | some (a, more) => some (.leaf a, more)
  | none =>
    match operator? ts with
    | some op => some (.operator op, op.tokens.length - 1)
    | none => (parenthesis? ts).map fun x ↦ (x, 0)

/-- Lexemes of tokens, of which the first `skip` belong to a lexeme already scanned. -/
def scan? (idOf? : String → Option Nat) : Nat → List Token → Option (List Lexeme)
  | _, [] => some []
  | skip + 1, _ :: ts => scan? idOf? skip ts
  | 0, t :: ts => do
    let (x, more) ← first? idOf? (t :: ts)
    return x :: (← scan? idOf? more ts)

theorem scan?_skip (ts rest : List Token) :
    scan? idOf? ts.length (ts ++ rest) = scan? idOf? 0 rest := by
  induction ts with
  | nil => rfl
  | cons t ts ih => exact ih

/-- Tokens of one lexeme are scanned before what follows. -/
theorem scan?_cons {rest : List Token}
    (h : first? idOf? (t :: (ts ++ rest)) = some (x, ts.length)) :
    scan? idOf? 0 (t :: ts ++ rest) = (scan? idOf? 0 rest).map (x :: ·) := by
  rw [List.cons_append, scan?, h, Option.bind_eq_bind, Option.bind_some]
  dsimp only
  rw [scan?_skip]
  cases scan? idOf? 0 rest <;> rfl

/-! ### Operands -/

/-- Whether an operand may begin with the token. -/
def beginsOperand : Token → Bool
  | .quoted _ _ | .symbol '@' | .symbol '(' => true
  | .word word => (constant? word).isSome
  | _ => false

/-- The tokens are those of an operand, and are scanned as such whatever follows, but for a point
that would make a column of them. -/
def Takes (idOf? : String → Option Nat) (ts : List Token) (ls : List Lexeme) : Prop :=
  ts.head?.any beginsOperand ∧ ∀ rest : List Token, rest.head? ≠ some (.symbol '.') →
    scan? idOf? 0 (ts ++ rest) = (scan? idOf? 0 rest).map (ls ++ ·)

theorem takes_single {a : Leaf} (begins : beginsOperand t)
    (h : ∀ rest : List Token, rest.head? ≠ some (.symbol '.') →
      leaf? idOf? (t :: (ts ++ rest)) = some (a, ts.length)) :
    Takes idOf? (t :: ts) [.leaf a] := by
  refine ⟨begins, fun rest hr ↦ scan?_cons ?_⟩
  simp only [first?, h rest hr]

theorem takes_column (name : List Char) :
    Takes idOf? [.quoted .doubleQuoted name] [.leaf (.column none (String.ofList name))] := by
  refine takes_single rfl fun rest hr ↦ ?_
  unfold leaf?
  split <;> grind

theorem takes_qualified (q name : List Char) :
    Takes idOf? [.quoted .doubleQuoted q, .symbol '.', .quoted .doubleQuoted name]
      [.leaf (.column (some (String.ofList q)) (String.ofList name))] :=
  takes_single rfl fun _ _ ↦ rfl

theorem takes_string {form : Quotes} (h : form = .plain ∨ form = .escaped) (value : List Char) :
    Takes idOf? [.quoted form value] [.leaf (.string (String.ofList value))] := by
  rcases h with rfl | rfl
  · exact takes_single rfl fun _ _ ↦ rfl
  · exact takes_single rfl fun _ _ ↦ rfl

theorem takes_parameter {word : List Char} {id : Nat}
    (h : idOf? ("@" ++ String.ofList word) = some id) :
    Takes idOf? [.symbol '@', .word word] [.leaf (.parameter id)] :=
  takes_single rfl fun rest _ ↦ by simp [leaf?, h]

theorem takes_constant {word : List Char} {a : Leaf} (h : constant? word = some a) :
    Takes idOf? [.word word] [.leaf a] :=
  takes_single (by simp [beginsOperand, h]) fun rest _ ↦ by simp [leaf?, h]

theorem constant?_number (n : Nat) : constant? n.repr.toList = some (.number n) := by
  simp only [constant?, Text.digits?_repr]

/-! ### Operators and parentheses -/

/-- No operand begins with the first token of an operator. -/
theorem leaf?_operator (op : BinaryOp) (rest : List Token) :
    leaf? idOf? (op.tokens ++ rest) = none := by
  cases op <;> rfl

/-- An operator in front of an operand is scanned as such. -/
theorem operator?_tokens (op : BinaryOp) {rest : List Token} (h : rest.head?.any beginsOperand) :
    operator? (op.tokens ++ rest) = some op := by
  have equal (r : List Token) : rest ≠ .symbol '=' :: r := by rintro rfl; cases h
  have greater (r : List Token) : rest ≠ .symbol '>' :: r := by rintro rfl; cases h
  cases op with
  | lt | gt => simp only [BinaryOp.tokens, List.singleton_append, operator?]
  | _ => rfl

theorem scan?_operator (op : BinaryOp) {rest : List Token} (h : rest.head?.any beginsOperand) :
    scan? idOf? 0 (op.tokens ++ rest) = (scan? idOf? 0 rest).map (.operator op :: ·) := by
  have first : first? idOf? (op.tokens ++ rest) = some (.operator op, op.tokens.length - 1) := by
    simp only [first?, leaf?_operator, operator?_tokens op h]
  cases ho : op.tokens with
  | nil => cases op <;> cases ho
  | cons t ts =>
    rw [ho] at first
    exact scan?_cons first

theorem head?_tokens (op : BinaryOp) (rest : List Token) :
    (op.tokens ++ rest).head? ≠ some (.symbol '.') := by
  cases op <;> simp [BinaryOp.tokens]

/-- Operands with an operator between them are an operand. -/
theorem Takes.binary (h : Takes idOf? ts ls) (op : BinaryOp) (h' : Takes idOf? ts' ls') :
    Takes idOf? (ts ++ op.tokens ++ ts') (ls ++ .operator op :: ls') := by
  obtain ⟨begins, first⟩ := h
  obtain ⟨begins', second⟩ := h'
  have head {l : List Token} (hl : l.head?.any beginsOperand) (rest : List Token) :
      (l ++ rest).head?.any beginsOperand := by
    cases l with
    | nil => cases hl
    | cons t l => exact hl
  refine ⟨by simpa [List.append_assoc] using head begins (op.tokens ++ ts'), fun rest hr ↦ ?_⟩
  calc
    scan? idOf? 0 (ts ++ op.tokens ++ ts' ++ rest) =
        scan? idOf? 0 (ts ++ (op.tokens ++ (ts' ++ rest))) := by simp only [List.append_assoc]
    _ = (((scan? idOf? 0 rest).map (ls' ++ ·)).map (.operator op :: ·)).map (ls ++ ·) := by
      rw [first _ (head?_tokens op _), scan?_operator op (head begins' rest), second rest hr]
    _ = (scan? idOf? 0 rest).map (ls ++ .operator op :: ls' ++ ·) := by
      simp [Option.map_map, Function.comp_def]

/-- An operand in parentheses is an operand. -/
theorem Takes.group (h : Takes idOf? ts ls) :
    Takes idOf? (.symbol '(' :: (ts ++ [.symbol ')'])) (.opening :: (ls ++ [.closing])) := by
  have opening (rest : List Token) : scan? idOf? 0 ([.symbol '('] ++ rest) =
      (scan? idOf? 0 rest).map (.opening :: ·) := scan?_cons rfl
  have closing (rest : List Token) : scan? idOf? 0 ([.symbol ')'] ++ rest) =
      (scan? idOf? 0 rest).map (.closing :: ·) := scan?_cons rfl
  refine ⟨rfl, fun rest _ ↦ ?_⟩
  calc
    scan? idOf? 0 (.symbol '(' :: (ts ++ [.symbol ')']) ++ rest) =
        scan? idOf? 0 ([.symbol '('] ++ (ts ++ ([.symbol ')'] ++ rest))) := by simp
    _ = (((scan? idOf? 0 rest).map (.closing :: ·)).map (ls ++ ·)).map (.opening :: ·) := by
      rw [opening, h.2 _ (by simp), closing]
    _ = (scan? idOf? 0 rest).map (.opening :: (ls ++ [.closing]) ++ ·) := by
      simp [Option.map_map, Function.comp_def]

end Lexeme

end SqlWright
