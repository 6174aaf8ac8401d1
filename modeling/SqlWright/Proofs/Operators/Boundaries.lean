import SqlWright.Proofs.Command.Rewriting
import SqlWright.Proofs.Lexing.Chains
import SqlWright.Proofs.Operators.Texts
import SqlWright.Proofs.Operators.Words
import SqlWright.Spelling.OfDialect

/-!
# Boundaries of operands

The words of an expression come from those of its operands, from parentheses around some of these,
and from the operator. An operand keeps its boundaries if the text is read as the operator applied
to exactly the words of the operand, or to these in parentheses.
-/

namespace SqlWright

/-! ### Texts -/

namespace Lexicon

variable {l : Lexicon} {s t : String}

/-- The text ends outside quoted tokens. -/
def Ends (l : Lexicon) (s : String) : Prop :=
  (l.run .ground s.toList).2.Outside (l.run .ground s.toList).2

/-- The text is that of an expression, as far as quotes, brackets and operators at its ends go. -/
structure IsTidy (l : Lexicon) (s : String) : Prop where
  ends : l.Ends s
  tokens : SqlWright.IsTidy (l.tokens s)

/-- Words of a text. -/
def words (l : Lexicon) (s : String) : List Word := wordsOf (l.tokens s)

/-- A text that begins with a character that no token goes on with is taken apart by itself. -/
theorem tokens_append (hs : l.Ends s) {c : Char} (ht : t.toList.head? = some c)
    (hc : isBreak c = true) :
    l.tokens (s ++ t) = l.tokens s ++ l.tokens t ∧ (l.Ends t → l.Ends (s ++ t)) := by
  obtain ⟨cs, hcs⟩ := List.head?_eq_some_iff.1 ht
  have read := run_of_isBreak (l := l) hs hc cs
  rw [← hcs] at read
  constructor
  · simp only [tokens, String.toList_append, run_append, read, List.append_assoc]
  · intro h
    simp only [Ends, String.toList_append, run_append, read]
    exact h

/-- After a text that ends between tokens, a text is taken apart by itself. -/
theorem tokens_append_of_ground {ts : List Token} (hs : l.run .ground s.toList = (ts, .ground))
    (t : String) : l.tokens (s ++ t) = ts ++ l.tokens t ∧ (l.Ends t → l.Ends (s ++ t)) := by
  constructor
  · simp only [tokens, String.toList_append, run_append, hs, List.append_assoc]
  · intro h
    simp only [Ends, String.toList_append, run_append, hs]
    exact h

theorem tokens_parenthesized (hs : l.Ends s) :
    l.tokens ("(" ++ s ++ ")") = parenthesized (l.tokens s) ∧ l.Ends ("(" ++ s ++ ")") := by
  have opening : l.run .ground "(".toList = ([.symbol '('], .ground) := rfl
  have closing : l.tokens ")" = [.symbol ')'] := rfl
  have last := tokens_append (t := ")") hs rfl rfl
  have first := tokens_append_of_ground opening (s ++ ")")
  rw [String.append_assoc]
  refine ⟨?_, first.2 (last.2 .ground)⟩
  rw [first.1, last.1, closing]
  rfl

/-- An expression in parentheses is one operand. -/
theorem IsTidy.parenthesized (h : l.IsTidy s) : l.IsTidy ("(" ++ s ++ ")") := by
  have read := tokens_parenthesized h.ends
  exact ⟨read.2, read.1 ▸ isTidy_parenthesized h.tokens.balanced⟩

theorem IsTidy.words_parenthesized (h : l.IsTidy s) :
    l.words ("(" ++ s ++ ")") = [.operand (SqlWright.parenthesized (l.tokens s))] := by
  rw [words, (tokens_parenthesized h.ends).1, wordsOf_parenthesized h.tokens.balanced]

theorem tokens_between (hs : l.Ends s) (op : BinaryOp) (t : String) :
    l.tokens (s ++ between op ++ t) = l.tokens s ++ op.tokens ++ l.tokens t ∧
      (l.Ends t → l.Ends (s ++ between op ++ t)) := by
  obtain ⟨cs, hcs⟩ : ∃ cs, (between op).toList = ' ' :: cs := by
    cases op <;> exact ⟨_, rfl⟩
  have middle := tokens_append_of_ground (run_between (l := l) op) t
  have read := tokens_append (t := between op ++ t) hs
    (by rw [String.toList_append, hcs, List.cons_append, List.head?_cons]) rfl
  rw [String.append_assoc]
  refine ⟨?_, fun h ↦ read.2 (middle.2 h)⟩
  rw [read.1, middle.1, List.append_assoc]

theorem IsTidy.binary (hs : l.IsTidy s) (op : BinaryOp) (ht : l.IsTidy t) :
    l.IsTidy (s ++ between op ++ t) := by
  have read := tokens_between hs.ends op t
  exact ⟨read.2 ht.ends, read.1 ▸ hs.tokens.binary op ht.tokens⟩

theorem IsTidy.words_binary (hs : l.IsTidy s) (op : BinaryOp) (ht : l.IsTidy t) :
    l.words (s ++ between op ++ t) = l.words s ++ .binary op :: l.words t := by
  rw [words, (tokens_between hs.ends op t).1, hs.tokens.wordsOf_binary op ht.tokens]
  rfl

/-- Text of an operator behind its operand. -/
def behind : UnaryOp → String
  | .isNull => " IS NULL"
  | .isNotNull => " IS NOT NULL"
  | .negation | .negate | .existence => ""

theorem tokens_behind (hs : l.Ends s) {u : UnaryOp} (hu : u.isBack) :
    l.tokens (s ++ behind u) = l.tokens s ++ u.backTokens ∧ l.Ends (s ++ behind u) := by
  cases u with
  | isNull =>
    have read := tokens_append (t := behind .isNull) (c := ' ') hs rfl rfl
    exact ⟨read.1, read.2 (.word _)⟩
  | isNotNull =>
    have read := tokens_append (t := behind .isNotNull) (c := ' ') hs rfl rfl
    exact ⟨read.1, read.2 (.word _)⟩
  | negation | negate | existence => cases hu

theorem IsTidy.back (hs : l.IsTidy s) {u : UnaryOp} (hu : u.isBack) : l.IsTidy (s ++ behind u) := by
  have read := tokens_behind hs.ends hu
  exact ⟨read.2, read.1 ▸ hs.tokens.back hu⟩

theorem IsTidy.words_back (hs : l.IsTidy s) {u : UnaryOp} (hu : u.isBack) :
    l.words (s ++ behind u) = l.words s ++ [.unary u] := by
  rw [words, (tokens_behind hs.ends hu).1, hs.tokens.wordsOf_back hu]
  rfl

/-- Text of an operator in front of its operand. -/
def front : UnaryOp → String
  | .negation => "NOT "
  | .negate => "-"
  | .isNull | .isNotNull | .existence => ""

theorem run_front {u : UnaryOp} (hu : u.isFront) :
    l.run .ground (front u).toList = (u.frontTokens, .ground) := by
  cases u with
  | negation | negate => rfl
  | isNull | isNotNull | existence => cases hu

theorem IsTidy.front (hs : l.IsTidy s) {u : UnaryOp} (hu : u.isFront) :
    l.IsTidy (front u ++ s) := by
  have read := tokens_append_of_ground (run_front (l := l) hu) s
  exact ⟨read.2 hs.ends, read.1 ▸ hs.tokens.front hu⟩

theorem words_front {u : UnaryOp} (hu : u.isFront) (s : String) :
    l.words (front u ++ s) = .unary u :: l.words s := by
  rw [words, (tokens_append_of_ground (run_front hu) s).1, wordsOf_front hu]
  rfl

end Lexicon

end SqlWright
