import SqlWright.Proofs.Lexing.Quoting
import SqlWright.Proofs.Operators.BracketedWriting

/-!
# Values that are operands

Numbers are read as words of digits with points between them, and a number below zero as an
operand behind a sign. Days, points in time and strings stand in one quoted token, with the words
that a dialect has around it, and names in another.
-/

namespace SqlWright

open WordMode

namespace Token

theorem keywordRole_cons {c : Char} (h : c ∉ ['C', 'E', 'A', 'O', 'L', 'I', 'N'])
    (cs : List Char) : keywordRole (c :: cs) = .plain := by
  unfold keywordRole
  split <;> simp_all

/-- A number is no keyword. -/
theorem role_digits {cs : List Char} (h : cs.all Char.isDigit = true) :
    (word cs).role = .plain := by
  cases cs with
  | nil => rfl
  | cons c cs =>
    rw [List.all_cons, Bool.and_eq_true] at h
    have upper : c.toUpper = c := by
      have low : ¬('a'.val ≤ c.val ∧ c.val ≤ 'z'.val) := by
        have digit := h.1
        simp only [Char.isDigit, Bool.and_eq_true, decide_eq_true_eq] at digit
        grind
      exact dif_neg low
    change keywordRole (c.toUpper :: cs.map Char.toUpper) = .plain
    rw [upper]
    refine keywordRole_cons (fun mem ↦ ?_) _
    simp only [List.mem_cons, List.not_mem_nil, or_false] at mem
    obtain rfl | rfl | rfl | rfl | rfl | rfl | rfl := mem <;> cases h.1

end Token

namespace Lexicon

variable {l : Lexicon} {count : Nat → TokenRole → Option Nat} {p q : Position} {i j k : Nat}
  {s t : String} {ts : List Token} {m : Mode}

/-- What goes on after any token and closes the brackets that it opens. -/
abbrev GoesOn (l : Lexicon) (t : String) : Prop := l.Spans depthAfter? .outside 0 .outside 0 t

theorem isOperand_of_run (h : l.run .ground t.toList = (ts, m)) (outside : m.Outside m)
    (counted : after? operandAfter? 0 (ts ++ m.finish) = some 1) : l.IsOperand t := by
  refine spans_of_tokens ?_ ?_
  · rw [Ends, h]
    exact outside
  · rw [tokens, h]
    exact counted

theorem isWhole_text {cs : List Char} (h : l.spans depthAfter? .ground 0 cs .outside 0 = true) :
    l.IsWhole (String.ofList cs) := spans_iff_isWhole.1 (spans_text h)

/-! ### Numbers -/

/-- Whether the character is a digit or a point. -/
def isNumeral (c : Char) : Bool := c.isDigit || c == '.'

theorem start_digit {c : Char} (h : c.isDigit = true) : l.start c = ([], .word [c]) := by
  have calm := isCalm_of_isDigit h
  simp [start, opened?_of_isCalm calm, isWordChar_of_isDigit h]

/-- A number may go on where no token is begun, or in a word of digits. -/
inductive InNumber : Mode → Prop where
  | ground : InNumber .ground
  | word {w : List Char} (h : w.all Char.isDigit = true) : InNumber (.word w)

theorem after?_number {w : List Char} (hw : w.all Char.isDigit = true) (hj : j < 2) :
    after? operandAfter? j [.word w] = some 1 := by
  obtain rfl | rfl : j = 0 ∨ j = 1 := by omega
  · rw [after?, Token.role_digits hw]
    rfl
  · rw [after?, Token.role_digits hw]
    rfl

/-- A digit or a point begins an operand or goes on with it. -/
theorem step_numeral {c : Char} (h : isNumeral c = true) (hm : InNumber m) (hj : j < 2) :
    ∃ k, after? operandAfter? j (l.step m c).1 = some k ∧ k < 2 ∧ InNumber (l.step m c).2 ∧
      after? operandAfter? k (l.step m c).2.finish = some 1 := by
  rw [isNumeral, Bool.or_eq_true, beq_iff_eq] at h
  obtain digit | rfl := h
  · have single : [c].all Char.isDigit = true := by simp [digit]
    cases hm with
    | ground =>
      have first : l.step .ground c = ([], .word [c]) := start_digit digit
      rw [first]
      exact ⟨j, rfl, hj, .word single, after?_number single hj⟩
    | @word w hw =>
      have more : (w ++ [c]).all Char.isDigit = true := by rw [List.all_append, hw, single]; rfl
      have next : l.step (.word w) c = ([], .word (w ++ [c])) := by
        simp [step, isWordChar_of_isDigit digit]
      rw [next]
      exact ⟨j, rfl, hj, .word more, after?_number more hj⟩
  · obtain rfl | rfl : j = 0 ∨ j = 1 := by omega
    all_goals
      cases hm with
      | ground => exact ⟨1, rfl, by decide, .ground, rfl⟩
      | @word w hw =>
        have next : l.step (.word w) '.' = ([.word w, .symbol '.'], .ground) := rfl
        rw [next]
        refine ⟨1, ?_, by decide, .ground, rfl⟩
        rw [after?, Token.role_digits hw]
        rfl

theorem after?_numeral {cs : List Char} (h : cs.all isNumeral = true) (hm : InNumber m)
    (hj : j < 2) (begun : after? operandAfter? j m.finish = some 1) :
    after? operandAfter? j ((l.run m cs).1 ++ (l.run m cs).2.finish) = some 1 := by
  induction cs generalizing m j with
  | nil => exact begun
  | cons c cs ih =>
    rw [List.all_cons, Bool.and_eq_true] at h
    obtain ⟨k, counted, hk, inNumber, begun'⟩ := step_numeral (l := l) h.1 hm hj
    rw [run, List.append_assoc, after?_append, counted, Option.bind_some]
    exact ih h.2 inNumber hk begun'

/-- A number is an operand. -/
theorem isOperand_numeral {cs : List Char} (h : cs.all isNumeral = true) (some : cs ≠ []) :
    l.IsOperand (String.ofList cs) := by
  have calm : cs.all isCalm = true := by
    rw [List.all_eq_true] at h ⊢
    intro c hc
    have numeral := h c hc
    rw [isNumeral, Bool.or_eq_true, beq_iff_eq] at numeral
    obtain digit | rfl := numeral
    · exact isCalm_of_isDigit digit
    · rfl
  have ends := (matches_of_leads (l := l) (leads_of_isCalm calm) .ground .ground ⟨rfl, rfl⟩).2
  refine spans_of_tokens ends ?_
  obtain ⟨c, cs, rfl⟩ := List.exists_cons_of_ne_nil some
  rw [List.all_cons, Bool.and_eq_true] at h
  obtain ⟨k, counted, hk, inNumber, begun⟩ :=
    step_numeral (l := l) h.1 .ground (show 0 < 2 by decide)
  rw [tokens, String.toList_ofList, run, List.append_assoc, after?_append, counted,
    Option.bind_some]
  exact after?_numeral h.2 inNumber hk begun

theorem isOperand_repr (n : Nat) : l.IsOperand n.repr := by
  have digits : n.repr.toList.all isNumeral = true :=
    repr_all (fun c hc ↦ by rw [isNumeral, hc]; rfl) n
  have some : n.repr.toList ≠ [] := by
    rw [Nat.toList_repr]
    exact Nat.toDigits_ne_nil
  have number := isOperand_numeral (l := l) digits some
  rwa [String.ofList_toList] at number

/-- A number in brackets counts with the words around it. -/
theorem spans_number {before after : List Char} (n : Nat)
    (hb : l.spans depthAfter? p i before .ground 1 = true)
    (ha : l.spans depthAfter? .outside 1 after q k = true) :
    l.Spans depthAfter? p i q k (String.ofList before ++ n.repr ++ String.ofList after) :=
  ((spans_text hb).append ((isOperand_repr n).isWhole.spans 1)).append (spans_text ha)

theorem isWhole_number {before after : List Char} (n : Nat)
    (hb : l.spans depthAfter? .ground 0 before .ground 1 = true)
    (ha : l.spans depthAfter? .outside 1 after .outside 0 = true) :
    l.IsWhole (String.ofList before ++ n.repr ++ String.ofList after) :=
  spans_iff_isWhole.1 (spans_number n hb ha)

theorem isWhole_numbers {before between after : List Char} (m n : Nat)
    (hb : l.spans depthAfter? .ground 0 before .ground 1 = true)
    (hm : l.spans depthAfter? .outside 1 between .ground 1 = true)
    (ha : l.spans depthAfter? .outside 1 after .outside 0 = true) :
    l.IsWhole (String.ofList before ++ m.repr ++ String.ofList between ++ n.repr ++
      String.ofList after) :=
  spans_iff_isWhole.1 <|
    ((spans_number m hb hm).append ((isOperand_repr n).isWhole.spans 1)).append (spans_text ha)

/-- A minus sign may stand in front of an expression. -/
theorem IsTidy.signed (h : l.IsTidy t) (isNegative : Bool) :
    l.IsTidy ((if isNegative then "-" else "") ++ t) := by
  cases isNegative with
  | true => exact h.front rfl (u := .negate)
  | false => simpa using h

/-- An integer is an expression. -/
theorem isTidy_ofInt (i : Int) : l.IsTidy (Text.ofInt i) := by
  cases i with
  | ofNat n => exact (isOperand_repr n).isTidy.1
  | negSucc n => exact (isOperand_repr (n + 1)).isTidy.1.signed true

/-- A floating point number is an expression. -/
theorem isTidy_floatLiteral {x : Decimal.Binary64} (h : Spelling.floatLiteral x = .ok t) :
    l.IsTidy t := by
  unfold Spelling.floatLiteral at h
  split at h
  next finite =>
    cases h
    let sign := if x.isNegative then "-" else ""
    let cs := Decimal.positional x.shortest.1 x.shortest.2
    have text : x.text = sign ++ String.ofList cs := by
      have number : ¬x.isNaN = true := by simp [Decimal.Binary64.isNaN, finite]
      unfold Decimal.Binary64.text
      rw [if_neg number]
      exact if_pos finite
    have numeral : cs.all isNumeral = true :=
      positional_all (fun c hc ↦ by rw [isNumeral, hc]; rfl) rfl _ _
    rw [text]
    by_cases point : (sign ++ String.ofList cs).toList.contains '.' = true
    · rw [if_pos point]
      exact (isOperand_numeral numeral (positional_ne_nil _ _)).isTidy.1.signed x.isNegative
    · have long : (cs ++ ['.', '0']).all isNumeral = true := by
        rw [List.all_append, numeral]
        rfl
      have whole : String.ofList cs ++ ".0" = String.ofList (cs ++ ['.', '0']) :=
        String.ofList_append.symm
      rw [if_neg point, String.append_assoc, whole]
      exact (isOperand_numeral long (by simp)).isTidy.1.signed x.isNegative
  next => cases h

/-! ### Days and points in time -/

/-- A value between quotes, if its characters stand for themselves, is an operand with the words
around it. -/
theorem isOperand_between {before rest : List Char} (h : s.toList.all isDatum = true)
    (hb : l.run .ground before = (ts, .inside .plain []))
    (hq : after? operandAfter? 0 (ts ++ [.quoted .plain []]) = some j)
    (hr : l.spans operandAfter? .outside j rest .outside 1 = true) :
    l.IsOperand (String.ofList before ++ s ++ String.ofList ('\x27' :: rest)) := by
  have closed : l.run .ground (String.ofList before ++ s ++ "'").toList =
      (ts, .closing .plain s.toList) := by
    have last : l.run (.inside .plain s.toList) "'".toList = ([], .closing .plain s.toList) := rfl
    rw [String.toList_append, String.toList_append, String.toList_ofList, run_append, run_append,
      hb, run_datum h, List.nil_append, last]
    simp
  have quoted : l.Spans operandAfter? .ground 0 .outside j (String.ofList before ++ s ++ "'") := by
    refine spans_of_tokens ?_ ?_
    · rw [Ends, closed]
      exact .closing _ _ _
    · -- What stands in the quotes does not count.
      rw [tokens, closed, after?_append]
      rw [after?_append] at hq
      exact hq
  have whole : String.ofList before ++ s ++ String.ofList ('\x27' :: rest) =
      String.ofList before ++ s ++ "'" ++ String.ofList rest :=
    String.toList_inj.1 (by simp)
  rw [whole]
  exact quoted.append (spans_text hr)

end Lexicon

end SqlWright
