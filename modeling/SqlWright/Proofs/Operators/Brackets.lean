import SqlWright.Proofs.Operators.Filters

/-!
# Texts that are one operand

Brackets are counted from token to token. Tokens that close the brackets they open count alike in
any brackets around them, and tokens of which none outside brackets is an operator are one operand.
A text takes a count from one number to another by the tokens that it completes, so texts one after
the other count on where no token of the one goes on with the other.
-/

namespace SqlWright

namespace WordMode

variable {count : Nat → TokenRole → Option Nat} {n j k : Nat} {t : Token} {ts us : List Token}

/-- Number that tokens take a count to, if each of them has its place. -/
def after? (count : Nat → TokenRole → Option Nat) : Nat → List Token → Option Nat
  | n, [] => some n
  | n, t :: ts => (count n t.role).bind (after? count · ts)

theorem after?_append (n : Nat) (ts us : List Token) :
    after? count n (ts ++ us) = (after? count n ts).bind (after? count · us) := by
  induction ts generalizing n with
  | nil => rfl
  | cons t ts ih => simp [after?, ih, Option.bind_assoc]

theorem after?_depthAfter? (n : Nat) (ts : List Token) : after? depthAfter? n ts = depth? n ts := by
  induction ts generalizing n with
  | nil => rfl
  | cons t ts ih => simp [after?, depth?, ih]

/-- Count of an operand: zero where it is to come, then one more than the brackets that it has
open. No token that ends the operand has a place. -/
def operandAfter? : Nat → TokenRole → Option Nat
  | n + 2, r => (depthAfter? (n + 1) r).map (· + 1)
  | _, .opening => some 2
  | _, .null => some 1
  | _, .plain => some 1
  | _, _ => none

/-- In brackets of an operand tokens count as they do by themselves. -/
theorem after?_operandAfter? (h : after? depthAfter? n ts = some k) :
    after? operandAfter? (n + 2) ts = some (k + 2) := by
  induction ts generalizing n with
  | nil =>
    obtain rfl := Option.some.inj h
    rfl
  | cons t ts ih =>
    obtain ⟨j, hj, h⟩ := Option.bind_eq_some_iff.1 h
    have first : operandAfter? (n + 2) t.role = some (j + 2) := by
      rw [operandAfter?, depthAfter?_add 1 hj, Option.map_some]
    rw [after?, first, Option.bind_some, ih h]

theorem depthAfter?_of_operandAfter? {r : TokenRole} (h : operandAfter? n r = some j) :
    depthAfter? (n - 1) r = some (j - 1) := by
  rcases n with _ | _ | n
  · cases r <;> cases h <;> rfl
  · cases r <;> cases h <;> rfl
  · obtain ⟨i, hi, rfl⟩ := Option.map_eq_some_iff.1 h
    exact hi

/-- An operand closes the brackets that it opens. -/
theorem after?_depthAfter?_of_operand (h : after? operandAfter? n ts = some k) :
    after? depthAfter? (n - 1) ts = some (k - 1) := by
  induction ts generalizing n with
  | nil =>
    obtain rfl := Option.some.inj h
    rfl
  | cons t ts ih =>
    obtain ⟨j, hj, h⟩ := Option.bind_eq_some_iff.1 h
    rw [after?, depthAfter?_of_operandAfter? hj, Option.bind_some, ih h]

/-- An operand may go on with tokens that are one by themselves. -/
theorem after?_operandAfter?_one (h : after? operandAfter? 0 ts = some 1) :
    after? operandAfter? 1 ts = some 1 := by
  cases ts with
  | nil => cases h
  | cons t ts =>
    have alike : operandAfter? 1 t.role = operandAfter? 0 t.role := by
      generalize t.role = r
      cases r <;> rfl
    rwa [after?, alike]

/-- The operand goes on with a token that counts. -/
theorem step_operand (us : List Token) (h : operandAfter? (n + 1) t.role = some j) :
    ∃ i, j = i + 1 ∧ (inside us n).step t = ([], inside (us ++ [t]) i) := by
  rcases n with _ | n
  · simp only [step]
    generalize t.role = r at h
    cases r <;> cases h
    · exact ⟨1, rfl, rfl⟩
    · exact ⟨0, rfl, rfl⟩
    · exact ⟨0, rfl, rfl⟩
  · obtain ⟨i, hi, rfl⟩ := Option.map_eq_some_iff.1 h
    exact ⟨i, rfl, step_inside hi⟩

theorem run_inside_operand (h : after? operandAfter? (n + 1) ts = some (k + 1)) :
    (inside us n).run ts = ([], inside (us ++ ts) k) := by
  induction ts generalizing n us with
  | nil =>
    obtain rfl := Nat.succ.inj (Option.some.inj h)
    rw [run, List.append_nil]
  | cons t ts ih =>
    obtain ⟨j, hj, h⟩ := Option.bind_eq_some_iff.1 h
    obtain ⟨i, rfl, step⟩ := step_operand us hj
    rw [run, step, ih h, List.nil_append, List.append_assoc, List.singleton_append]

/-- Tokens that count as an operand are read as one. -/
theorem run_operand (h : after? operandAfter? 0 ts = some 1) :
    expecting.run ts = ([], inside ts 0) := by
  obtain _ | ⟨t, ts⟩ := ts
  · cases h
  obtain ⟨j, hj, h⟩ := Option.bind_eq_some_iff.1 h
  obtain ⟨i, rfl, first⟩ : ∃ i, j = i + 1 ∧ expecting.step t = ([], inside [t] i) := by
    simp only [step, start]
    generalize t.role = r at hj
    cases r <;> cases hj
    · exact ⟨1, rfl, rfl⟩
    · exact ⟨0, rfl, rfl⟩
    · exact ⟨0, rfl, rfl⟩
  rw [run, first, run_inside_operand h]
  rfl

end WordMode

open WordMode

/-- Tokens that count as an operand are an expression of one word. -/
theorem isTidy_of_operand {ts : List Token} (h : after? operandAfter? 0 ts = some 1) :
    IsTidy ts ∧ wordsOf ts = [.operand ts] := by
  refine ⟨⟨?_, ?_, ?_⟩, ?_⟩
  · exact (after?_depthAfter? 0 ts).symm.trans (after?_depthAfter?_of_operand h)
  · obtain _ | ⟨t, ts⟩ := ts
    · cases h
    obtain ⟨j, hj, -⟩ := Option.bind_eq_some_iff.1 h
    simp only [List.head?_cons, Option.any_some, Token.beginsExpression]
    generalize t.role = r at hj
    cases r <;> cases hj <;> rfl
  · rw [run_operand h]
    exact .inside ts
  · rw [wordsOf, run_operand h]
    rfl

namespace Lexicon

variable {l : Lexicon} {count : Nat → TokenRole → Option Nat} {p q r : Position} {i j k : Nat}
  {s t : String}

/-- The text leads from one position to the other, and its tokens take the count from one number to
the other. -/
def Spans (l : Lexicon) (count : Nat → TokenRole → Option Nat) (p : Position) (j : Nat)
    (q : Position) (k : Nat) (t : String) : Prop :=
  ∀ m, p.Holds m m → q.Holds (l.run m t.toList).2 (l.run m t.toList).2 ∧
    ∃ ts, (l.run m t.toList).1 ++ (l.run m t.toList).2.finish = m.finish ++ ts ∧
      after? count j ts = some k

/-- The text is an operand. -/
abbrev IsOperand (l : Lexicon) (t : String) : Prop := l.Spans operandAfter? .ground 0 .outside 1 t

namespace Spans

theorem empty : l.Spans count p j p j "" :=
  fun _ hp ↦ ⟨hp, [], (List.append_nil _).symm, rfl⟩

/-- Texts that count on one after the other count on as one. -/
theorem append (h : l.Spans count p i q j s) (h' : l.Spans count q j r k t) :
    l.Spans count p i r k (s ++ t) := by
  intro m hp
  obtain ⟨hq, ts, first, counted⟩ := h m hp
  obtain ⟨hr, us, second, counted'⟩ := h' _ hq
  rw [String.toList_append, run_append]
  refine ⟨hr, ts ++ us, ?_, ?_⟩
  · rw [List.append_assoc, second, ← List.append_assoc, first, List.append_assoc]
  · rw [after?_append, counted, Option.bind_some, counted']

theorem weaken (h : l.Spans count p j q k t) (hq : q.isWithin r = true) :
    l.Spans count p j r k t := by
  intro m hp
  obtain ⟨ends, rest⟩ := h m hp
  exact ⟨ends.of_isWithin hq, rest⟩

/-- More brackets around a text change nothing about those in it. -/
theorem within (h : l.Spans depthAfter? p j q k t) (more : Nat) :
    l.Spans depthAfter? p (j + more) q (k + more) t := by
  intro m hp
  obtain ⟨ends, ts, tokens, counted⟩ := h m hp
  rw [after?_depthAfter?] at counted
  exact ⟨ends, ts, tokens, (after?_depthAfter? _ _).trans (depth?_add more counted)⟩

/-- In brackets of an operand a text counts as it does by itself. -/
theorem enclosed (h : l.Spans depthAfter? p j q k t) :
    l.Spans operandAfter? p (j + 2) q (k + 2) t := by
  intro m hp
  obtain ⟨ends, ts, tokens, counted⟩ := h m hp
  exact ⟨ends, ts, tokens, after?_operandAfter? counted⟩

theorem of_operand (h : l.Spans operandAfter? p j q k t) :
    l.Spans depthAfter? p (j - 1) q (k - 1) t := by
  intro m hp
  obtain ⟨ends, ts, tokens, counted⟩ := h m hp
  exact ⟨ends, ts, tokens, after?_depthAfter?_of_operand counted⟩

end Spans

theorem tokens_eq_of_spans (h : l.Spans count .ground j .outside k t) :
    l.Ends t ∧ after? count j (l.tokens t) = some k := by
  obtain ⟨ends, ts, read, counted⟩ := h .ground ⟨rfl, rfl⟩
  have tokens : l.tokens t = ts := read
  exact ⟨ends, tokens ▸ counted⟩

theorem spans_of_tokens (ends : l.Ends t) (counted : after? count j (l.tokens t) = some k) :
    l.Spans count .ground j .outside k t := by
  rintro m ⟨rfl, -⟩
  exact ⟨ends, l.tokens t, rfl, counted⟩

/-- A text is whole if its tokens close the brackets that they open. -/
theorem spans_iff_isWhole : l.Spans depthAfter? .ground 0 .outside 0 t ↔ l.IsWhole t := by
  constructor
  · intro h
    obtain ⟨ends, counted⟩ := tokens_eq_of_spans h
    exact ⟨ends, (after?_depthAfter? 0 _).symm.trans counted⟩
  · intro h
    exact spans_of_tokens h.ends ((after?_depthAfter? 0 _).trans h.balanced)

/-- A whole text counts alike in any brackets around it. -/
theorem IsWhole.spans (h : l.IsWhole t) (n : Nat) : l.Spans depthAfter? .ground n .outside n t := by
  simpa using (spans_iff_isWhole.2 h).within n

/-- An operand is an expression of one word. -/
theorem IsOperand.isTidy (h : l.IsOperand t) :
    l.IsTidy t ∧ l.words t = [.operand (l.tokens t)] := by
  obtain ⟨ends, counted⟩ := tokens_eq_of_spans h
  obtain ⟨tidy, words⟩ := isTidy_of_operand counted
  exact ⟨⟨ends, tidy⟩, words⟩

theorem IsOperand.again (h : l.IsOperand t) : l.Spans operandAfter? .ground 1 .outside 1 t := by
  obtain ⟨ends, counted⟩ := tokens_eq_of_spans h
  exact spans_of_tokens ends (after?_operandAfter?_one counted)

theorem IsOperand.isWhole (h : l.IsOperand t) : l.IsWhole t := spans_iff_isWhole.1 h.of_operand

/-- An operand has a place everywhere. -/
theorem IsOperand.stands (h : l.IsOperand t) {n : Nat} (hn : n ≤ 10) : l.Stands n t := by
  refine ⟨.operand (l.tokens t), ?_⟩
  rw [h.isTidy.2]
  exact .operand _ hn

/-! ### Fixed texts -/

/-- Number that the tokens of characters take a count to. -/
def countAfter? (l : Lexicon) (count : Nat → TokenRole → Option Nat) (j : Nat) (cs : List Char) :
    Option Nat :=
  after? count j ((l.run .ground cs).1 ++ (l.run .ground cs).2.finish)

/-- Whether the characters lead from one position to the other, where a token may begin or after any
token, and take the count from one number to the other. -/
def spans (l : Lexicon) (count : Nat → TokenRole → Option Nat) (p : Position) (j : Nat)
    (cs : List Char) (q : Position) (k : Nat) : Bool :=
  (p = .ground || p = .outside) && l.leads p cs q && l.countAfter? count j cs = some k

theorem spans_of_toList {t : String} (h : l.spans count p j t.toList q k = true) :
    l.Spans count p j q k t := by
  simp only [spans, Bool.and_eq_true, Bool.or_eq_true, decide_eq_true_eq] at h
  obtain ⟨⟨place, led⟩, counted⟩ := h
  intro m hp
  have ends := (matches_of_leads led m m hp).2
  rw [String.toList_ofList] at ends
  refine ⟨ends, _, ?_, counted⟩
  cases hcs : t.toList with
  | nil => simp [run, Mode.finish]
  | cons c cs =>
    obtain rfl | rfl := place
    · obtain ⟨rfl, -⟩ := hp
      rfl
    · have breaks : isBreak c = true := by
        rw [hcs] at led
        by_contra goesOn
        simp [leads, after, goesOn] at led
      rw [run_of_isBreak hp breaks, List.append_assoc]

/-- A fixed text counts as its characters do. -/
theorem spans_text {cs : List Char} (h : l.spans count p j cs q k = true) :
    l.Spans count p j q k (String.ofList cs) :=
  spans_of_toList (by rwa [String.toList_ofList])

end Lexicon

end SqlWright
