import SqlWright.Proofs.Operators.Phrases
import SqlWright.Proofs.Operators.Scanning

/-!
# Words of tokens

Tokens are grouped into words one after the other. Outside brackets operators separate operands;
what stands in brackets, for which `CASE` and `END` count as well, belongs to the operand around it.
A minus sign, and `NOT`, is an operator with one operand where an operand is to come. Keywords are
written in either case.
-/

namespace SqlWright

/-- Part that a token plays in an expression. -/
inductive TokenRole where
  | opening
  | closing
  | operator (op : BinaryOp)
  | less
  | greater
  | bar
  | not
  | is
  | null
  | plain
  deriving DecidableEq

namespace Token

/-- Part that a keyword plays. -/
def keywordRole : List Char → TokenRole
  | ['C', 'A', 'S', 'E'] => .opening
  | ['E', 'N', 'D'] => .closing
  | ['A', 'N', 'D'] => .operator .and
  | ['O', 'R'] => .operator .or
  | ['L', 'I', 'K', 'E'] => .operator .like
  | ['I', 'N'] => .operator .isIn
  | ['N', 'O', 'T'] => .not
  | ['I', 'S'] => .is
  | ['N', 'U', 'L', 'L'] => .null
  | _ => .plain

/-- Part that a token plays. -/
def role : Token → TokenRole
  | .symbol '(' => .opening
  | .symbol ')' => .closing
  | .symbol '=' => .operator .eq
  | .symbol '<' => .less
  | .symbol '>' => .greater
  | .symbol '+' => .operator .plus
  | .symbol '-' => .operator .minus
  | .symbol '*' => .operator .multiply
  | .symbol '/' => .operator .divide
  | .symbol '%' => .operator .modulo
  | .symbol '|' => .bar
  | .word text => keywordRole (text.map Char.toUpper)
  | _ => .plain

/-- Whether an expression may begin with the token. -/
def beginsExpression (t : Token) : Bool :=
  match t.role with
  | .opening | .null | .plain | .not | .operator .minus => true
  | _ => false

end Token

/-- Tokens of an operator behind its operand. -/
def UnaryOp.backTokens : UnaryOp → List Token
  | .isNull => [.word ['I', 'S'], .word ['N', 'U', 'L', 'L']]
  | .isNotNull => [.word ['I', 'S'], .word ['N', 'O', 'T'], .word ['N', 'U', 'L', 'L']]
  | .negation | .negate | .existence => []

/-- What was read of the word that is not complete. -/
inductive WordMode where
  /-- An operand is to come. -/
  | expecting
  /-- In an operand, in so many brackets. -/
  | inside (tokens : List Token) (depth : Nat)
  /-- After an operator behind its operand. -/
  | complete
  | afterLess
  | afterGreater
  | afterBar
  | afterNot
  | afterIs
  | afterIsNot
  deriving DecidableEq

namespace WordMode

/-- Words that a token completes where an operand is to come, and what follows. -/
def start (t : Token) : List Word × WordMode :=
  match t.role with
  | .opening => ([], .inside [t] 1)
  | .null | .plain => ([], .inside [t] 0)
  | .not => ([.unary .negation], .expecting)
  | .operator .minus => ([.unary .negate], .expecting)
  | _ => ([.stray t], .expecting)

/-- Words that a token completes after an operand, and what follows. -/
def follow (t : Token) : List Word × WordMode :=
  match t.role with
  | .operator op => ([.binary op], .expecting)
  | .less => ([], .afterLess)
  | .greater => ([], .afterGreater)
  | .bar => ([], .afterBar)
  | .not => ([], .afterNot)
  | .is => ([], .afterIs)
  | _ => ([.stray t], .complete)

/-- A word, and after it the words that a token completes where an operand is to come. -/
def startAfter (w : Word) (t : Token) : List Word × WordMode := (w :: (start t).1, (start t).2)

/-- Words that one more token completes, and what follows. -/
def step : WordMode → Token → List Word × WordMode
  | expecting, t => start t
  | inside ts 0, t =>
    match t.role with
    | .opening => ([], .inside (ts ++ [t]) 1)
    | .null | .plain => ([], .inside (ts ++ [t]) 0)
    | _ => (.operand ts :: (follow t).1, (follow t).2)
  | inside ts (depth + 1), t =>
    match t.role with
    | .opening => ([], .inside (ts ++ [t]) (depth + 2))
    | .closing => ([], .inside (ts ++ [t]) depth)
    | _ => ([], .inside (ts ++ [t]) (depth + 1))
  | complete, t => follow t
  | afterLess, t =>
    match t.role with
    | .operator .eq => ([.binary .ltEq], .expecting)
    | .greater => ([.binary .notEq], .expecting)
    | _ => startAfter (.binary .lt) t
  | afterGreater, t =>
    match t.role with
    | .operator .eq => ([.binary .gtEq], .expecting)
    | _ => startAfter (.binary .gt) t
  | afterBar, t =>
    match t.role with
    | .bar => ([.binary .concat], .expecting)
    | _ => startAfter (.stray t) t
  | afterNot, t =>
    match t.role with
    | .operator .isIn => ([.binary .notIn], .expecting)
    | _ => startAfter (.stray t) t
  | afterIs, t =>
    match t.role with
    | .null => ([.unary .isNull], .complete)
    | .not => ([], .afterIsNot)
    | _ => startAfter (.stray t) t
  | afterIsNot, t =>
    match t.role with
    | .null => ([.unary .isNotNull], .complete)
    | _ => startAfter (.stray t) t

/-- Words that tokens complete, and what follows. -/
def run (m : WordMode) : List Token → List Word × WordMode
  | [] => ([], m)
  | t :: ts => ((m.step t).1 ++ ((m.step t).2.run ts).1, ((m.step t).2.run ts).2)

/-- Words that the end of the tokens completes. -/
def finish : WordMode → List Word
  | expecting | complete => []
  | inside ts 0 => [.operand ts]
  | _ => [.stray .unclosed]

/-- An operand, or an operator behind one, was read last. -/
inductive Closed : WordMode → Prop where
  | inside (ts : List Token) : Closed (.inside ts 0)
  | complete : Closed .complete

variable {m : WordMode} {t : Token} {ts rest : List Token}

theorem run_append (m : WordMode) (ts rest : List Token) :
    m.run (ts ++ rest) =
      ((m.run ts).1 ++ ((m.run ts).2.run rest).1, ((m.run ts).2.run rest).2) := by
  induction ts generalizing m with
  | nil => rfl
  | cons t ts ih => simp [run, ih]

/-- A token that no operand goes on with is read as after a complete one. -/
theorem Closed.run_cons (h : m.Closed) (opens : t.role ≠ .opening) (null : t.role ≠ .null)
    (plain : t.role ≠ .plain) :
    m.run (t :: ts) = (m.finish ++ (WordMode.complete.run (t :: ts)).1,
      (WordMode.complete.run (t :: ts)).2) := by
  cases h with
  | inside us =>
    have step : (WordMode.inside us 0).step t = (.operand us :: (follow t).1, (follow t).2) := by
      simp only [WordMode.step]
    rw [WordMode.run, step]
    rfl
  | complete => rfl

/-- An operator in front of an expression is read as such. -/
theorem run_operator (op : BinaryOp) (begins : t.beginsExpression) :
    complete.run (op.tokens ++ t :: rest) =
      (.binary op :: (expecting.run (t :: rest)).1, (expecting.run (t :: rest)).2) := by
  have less : afterLess.step t = startAfter (.binary .lt) t := by
    simp only [step]
    split
    · next he => simp [Token.beginsExpression, he] at begins
    · next he => simp [Token.beginsExpression, he] at begins
    · rfl
  have greater : afterGreater.step t = startAfter (.binary .gt) t := by
    simp only [step]
    split
    · next he => simp [Token.beginsExpression, he] at begins
    · rfl
  cases op with
  | lt =>
    change afterLess.run (t :: rest) = _
    rw [run, less]
    rfl
  | gt =>
    change afterGreater.run (t :: rest) = _
    rw [run, greater]
    rfl
  | _ => rfl

theorem Closed.run_operator (h : m.Closed) (op : BinaryOp) (begins : t.beginsExpression) :
    m.run (op.tokens ++ t :: rest) =
      (m.finish ++ .binary op :: (WordMode.expecting.run (t :: rest)).1,
        (WordMode.expecting.run (t :: rest)).2) := by
  obtain ⟨o, os, ho, first⟩ : ∃ o os, op.tokens = o :: os ∧
      (o.role ≠ .opening ∧ o.role ≠ .null ∧ o.role ≠ .plain) := by
    cases op <;> exact ⟨_, _, rfl, by decide⟩
  have read : WordMode.complete.run (op.tokens ++ t :: rest) = _ :=
    WordMode.run_operator op begins
  rw [ho, List.cons_append] at read ⊢
  rw [h.run_cons first.1 first.2.1 first.2.2, read]

theorem Closed.run_back (h : m.Closed) {u : UnaryOp} (hu : u.isBack) :
    m.run u.backTokens = (m.finish ++ [.unary u], .complete) := by
  cases u with
  | isNull | isNotNull => exact h.run_cons nofun nofun nofun
  | negation | negate | existence => cases hu

/-! ### Brackets -/

/-- Number of open brackets after a token; none if it closes one and there is none. -/
def depthAfter? : Nat → TokenRole → Option Nat
  | n, .opening => some (n + 1)
  | n + 1, .closing => some n
  | 0, .closing => none
  | n, _ => some n

/-- Number of open brackets after tokens. -/
def depth? : Nat → List Token → Option Nat
  | n, [] => some n
  | n, t :: ts => (depthAfter? n t.role).bind (depth? · ts)

theorem depth?_append {n k : Nat} (h : depth? n ts = some k) :
    depth? n (ts ++ rest) = depth? k rest := by
  induction ts generalizing n with
  | nil =>
    obtain rfl := Option.some.inj h
    rfl
  | cons t ts ih =>
    obtain ⟨j, hj, h⟩ := Option.bind_eq_some_iff.1 h
    rw [List.cons_append, depth?, hj, Option.bind_some, ih h]

theorem depthAfter?_add {n j : Nat} {r : TokenRole} (more : Nat) (h : depthAfter? n r = some j) :
    depthAfter? (n + more) r = some (j + more) := by
  rcases n with _ | n
  · cases r <;> cases h <;> cases more <;> simp +arith [depthAfter?]
  · cases r <;> cases h <;> simp [depthAfter?, Nat.add_right_comm]

/-- More brackets around tokens change nothing about those in them. -/
theorem depth?_add {n k : Nat} (more : Nat) (h : depth? n ts = some k) :
    depth? (n + more) ts = some (k + more) := by
  induction ts generalizing n with
  | nil =>
    obtain rfl := Option.some.inj h
    rfl
  | cons t ts ih =>
    obtain ⟨j, hj, h⟩ := Option.bind_eq_some_iff.1 h
    rw [depth?, depthAfter?_add more hj, Option.bind_some, ih h]

/-- A token in a bracket belongs to the operand. -/
theorem step_inside {n j : Nat} {us : List Token} (h : depthAfter? (n + 1) t.role = some j) :
    (inside us (n + 1)).step t = ([], inside (us ++ [t]) j) := by
  simp only [step]
  generalize t.role = r at h
  cases r <;> cases h <;> rfl

/-- Tokens in a bracket that they do not close belong to the operand. -/
theorem run_inside {n k : Nat} {us : List Token} (h : depth? n ts = some k) :
    (inside us (n + 1)).run ts = ([], inside (us ++ ts) (k + 1)) := by
  induction ts generalizing n us with
  | nil =>
    obtain rfl := Option.some.inj h
    rw [run, List.append_nil]
  | cons t ts ih =>
    obtain ⟨j, hj, h⟩ := Option.bind_eq_some_iff.1 h
    rw [run, step_inside (depthAfter?_add 1 hj), ih h, List.nil_append, List.append_assoc,
      List.singleton_append]

/-- The tokens close the brackets that they open, and no others. -/
def Balanced (ts : List Token) : Prop := depth? 0 ts = some 0

theorem Balanced.append {us : List Token} (h : Balanced ts) (h' : Balanced us) :
    Balanced (ts ++ us) := (depth?_append h).trans h'

/-- Tokens in parentheses are an operand. -/
theorem run_group (h : Balanced ts) :
    expecting.run (.symbol '(' :: (ts ++ [.symbol ')'])) =
      ([], inside (.symbol '(' :: (ts ++ [.symbol ')'])) 0) := by
  have closing (us : List Token) :
      (inside us 1).run [.symbol ')'] = ([], inside (us ++ [.symbol ')']) 0) := rfl
  have opening : expecting.step (.symbol '(') = ([], inside [.symbol '('] 1) := rfl
  rw [run, opening, run_append, run_inside (n := 0) h, closing]
  rfl

theorem Balanced.group (h : Balanced ts) : Balanced (.symbol '(' :: (ts ++ [.symbol ')'])) := by
  have inner : depth? 1 ts = some 1 := depth?_add 1 h
  change depth? 1 (ts ++ [.symbol ')']) = some 0
  rw [depth?_append inner]
  rfl

theorem balanced_tokens (op : BinaryOp) : Balanced op.tokens := by
  cases op <;> rfl

theorem balanced_backTokens (u : UnaryOp) : Balanced u.backTokens := by
  cases u <;> rfl

end WordMode

open WordMode

/-- Words of tokens. -/
def wordsOf (ts : List Token) : List Word := (expecting.run ts).1 ++ (expecting.run ts).2.finish

/-- The tokens are those of an expression, as far as brackets and operators at its ends go. -/
structure IsTidy (ts : List Token) : Prop where
  balanced : Balanced ts
  begins : ts.head?.any Token.beginsExpression
  closed : (expecting.run ts).2.Closed

variable {ts us : List Token}

/-- Two expressions and an operator between them have the words of both. -/
theorem IsTidy.run_binary (h : IsTidy ts) (op : BinaryOp) (h' : IsTidy us) :
    expecting.run (ts ++ op.tokens ++ us) = (wordsOf ts ++ .binary op :: (expecting.run us).1,
      (expecting.run us).2) := by
  obtain _ | ⟨u, us⟩ := us
  · cases h'.begins
  rw [List.append_assoc, run_append, h.closed.run_operator op h'.begins, wordsOf,
    List.append_assoc]

theorem IsTidy.wordsOf_binary (h : IsTidy ts) (op : BinaryOp) (h' : IsTidy us) :
    wordsOf (ts ++ op.tokens ++ us) = wordsOf ts ++ .binary op :: wordsOf us := by
  rw [wordsOf, h.run_binary op h', List.append_assoc]
  rfl

theorem IsTidy.binary (h : IsTidy ts) (op : BinaryOp) (h' : IsTidy us) :
    IsTidy (ts ++ op.tokens ++ us) where
  balanced := (h.balanced.append (balanced_tokens op)).append h'.balanced
  begins := by
    obtain _ | ⟨t, ts⟩ := ts
    · cases h.begins
    · exact h.begins
  closed := by
    rw [h.run_binary op h']
    exact h'.closed

theorem IsTidy.wordsOf_back (h : IsTidy ts) {u : UnaryOp} (hu : u.isBack) :
    wordsOf (ts ++ u.backTokens) = wordsOf ts ++ [.unary u] := by
  rw [wordsOf, run_append, h.closed.run_back hu, ← List.append_assoc]
  exact List.append_nil _

theorem IsTidy.back (h : IsTidy ts) {u : UnaryOp} (hu : u.isBack) :
    IsTidy (ts ++ u.backTokens) where
  balanced := h.balanced.append (balanced_backTokens u)
  begins := by
    obtain _ | ⟨t, ts⟩ := ts
    · cases h.begins
    · exact h.begins
  closed := by
    rw [run_append, h.closed.run_back hu]
    exact .complete

/-- Tokens in parentheses. -/
def parenthesized (ts : List Token) : List Token := .symbol '(' :: (ts ++ [.symbol ')'])

theorem wordsOf_parenthesized (h : Balanced ts) :
    wordsOf (parenthesized ts) = [.operand (parenthesized ts)] := by
  rw [wordsOf, parenthesized, run_group h]
  rfl

theorem isTidy_parenthesized (h : Balanced ts) : IsTidy (parenthesized ts) where
  balanced := h.group
  begins := rfl
  closed := by
    rw [parenthesized, run_group h]
    exact .inside _

/-- Tokens of an operator in front of its operand. -/
def UnaryOp.frontTokens : UnaryOp → List Token
  | .negation => [.word ['N', 'O', 'T']]
  | .negate => [.symbol '-']
  | .isNull | .isNotNull | .existence => []

theorem run_front {u : UnaryOp} (hu : u.isFront) (ts : List Token) :
    expecting.run (u.frontTokens ++ ts) =
      (.unary u :: (expecting.run ts).1, (expecting.run ts).2) := by
  cases u with
  | negation | negate => rfl
  | isNull | isNotNull | existence => cases hu

theorem wordsOf_front {u : UnaryOp} (hu : u.isFront) (ts : List Token) :
    wordsOf (u.frontTokens ++ ts) = .unary u :: wordsOf ts := by
  rw [wordsOf, run_front hu]
  rfl

theorem IsTidy.front (h : IsTidy ts) {u : UnaryOp} (hu : u.isFront) :
    IsTidy (u.frontTokens ++ ts) where
  balanced := by
    cases u with
    | negation | negate => exact h.balanced
    | isNull | isNotNull | existence => cases hu
  begins := by
    cases u with
    | negation | negate => rfl
    | isNull | isNotNull | existence => cases hu
  closed := by
    rw [run_front hu]
    exact h.closed

end SqlWright
