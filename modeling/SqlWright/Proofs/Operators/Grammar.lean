import Mathlib.Data.Nat.Init
import SqlWright.Dom.Operator

/-!
# Grammar of operators

How a text of operands, operators and parentheses is read. The levels of the grammar are, from the
loosest: disjunctions, conjunctions, comparisons, sums, products, operands. Operators of one level
group to the left, but comparisons do not group at all. Words are read in one way at most.
-/

namespace SqlWright

/-- Operand that is no formula. -/
inductive Leaf where
  | column (qualifier : Option String) (name : String)
  /-- Parameter of an identity. -/
  | parameter (id : Nat)
  | string (value : String)
  | boolean (value : Bool)
  | number (value : Nat)
  deriving DecidableEq

/-- Operands that operators combine. -/
inductive Formula where
  | leaf (leaf : Leaf)
  | binary (op : BinaryOp) (left right : Formula)
  deriving DecidableEq

/-- Word of a text of operators. -/
inductive Lexeme where
  | leaf (leaf : Leaf)
  | operator (op : BinaryOp)
  | opening
  | closing
  deriving DecidableEq

/-- Level of the grammar at which the operator stands. -/
def BinaryOp.level : BinaryOp → Nat
  | or => 0
  | and => 1
  | eq | notEq | lt | ltEq | gt | gtEq | like | isIn | notIn => 2
  | plus | minus | concat => 3
  | multiply | divide | modulo => 4

/-- Level of the left operand: that of the operator, which groups to the left, unless it is a
comparison. -/
def BinaryOp.leftLevel (op : BinaryOp) : Nat := if op.level = 2 then 3 else op.level

namespace Formula

/-- Words are read as a formula of a level. Operands are level five. -/
inductive Reads : Nat → List Lexeme → Formula → Prop where
  | leaf (a : Leaf) : Reads 5 [.leaf a] (.leaf a)
  | group {ls : List Lexeme} {e : Formula} : Reads 0 ls e →
    Reads 5 (.opening :: (ls ++ [.closing])) e
  | next {n : Nat} {ls : List Lexeme} {e : Formula} : n < 5 → Reads (n + 1) ls e → Reads n ls e
  | binary {n : Nat} {op : BinaryOp} {ls ls' : List Lexeme} {x y : Formula} : op.level = n →
    Reads op.leftLevel ls x → Reads (n + 1) ls' y →
    Reads n (ls ++ .operator op :: ls') (.binary op x y)

variable {n m : Nat} {op : BinaryOp} {ls ls' r r' rest rest' : List Lexeme}
  {e e' x y : Formula}

theorem level_lt (op : BinaryOp) : op.level < 5 := by
  cases op <;> decide

theorem leftLevel_eq (op : BinaryOp) :
    op.leftLevel = op.level ∨ op.leftLevel = op.level + 1 := by
  unfold BinaryOp.leftLevel
  split
  · next h => exact .inr (by rw [h])
  · exact .inl rfl

/-- What is read at a level is read at every looser one. -/
theorem Reads.of_le (h : Reads n ls e) (hn : n ≤ 5) (hm : m ≤ n) : Reads m ls e := by
  induction hm using Nat.decreasingInduction with
  | self => exact h
  | of_succ k hk ih => exact .next (by omega) ih

/-! ### Words are read in one way -/

/-- The words do not go on with a formula of the level. -/
def Stops (n : Nat) (r : List Lexeme) : Prop :=
  ∀ op r', r = .operator op :: r' → op.level < n

theorem stops_nil : Stops n [] := fun _ _ ↦ nofun

theorem stops_closing : Stops n (.closing :: r) := nofun

theorem Stops.succ (h : Stops n r) : Stops (n + 1) r :=
  fun op r' he ↦ Nat.lt_succ_of_lt (h op r' he)

/-- After a formula the words add operators of one level, with an operand each, to make
another one. -/
inductive Extends (n : Nat) : Formula → List Lexeme → Formula → Prop where
  | nil (x : Formula) : Extends n x [] x
  | cons {op : BinaryOp} {ls rest : List Lexeme} {x y e : Formula} : op.level = n →
    Reads (n + 1) ls y → Extends n (.binary op x y) rest e →
    Extends n x (.operator op :: (ls ++ rest)) e

theorem Extends.snoc (h : Extends n x rest e) (hop : op.level = n) (hr : Reads (n + 1) ls y) :
    Extends n x (rest ++ .operator op :: ls) (.binary op e y) := by
  induction h with
  | nil x =>
    have single := Extends.cons (x := x) hop hr (.nil _)
    rwa [List.append_nil] at single
  | cons hop' hr' _ ih =>
    have more := Extends.cons hop' hr' ih
    rwa [← List.append_assoc, ← List.cons_append] at more

theorem Extends.stops (h : Extends n x rest e) (hr : Stops n r) : Stops (n + 1) (rest ++ r) := by
  cases h with
  | nil => exact hr.succ
  | cons hop _ _ =>
    rintro op r' ⟨⟩
    omega

/-- A formula is an operand of the next level with further operators and operands. -/
theorem Reads.chain (h : Reads n ls e) (hn : n < 5) :
    ∃ first x rest, Reads (n + 1) first x ∧ Extends n x rest e ∧ ls = first ++ rest := by
  induction h with
  | leaf | group => omega
  | next _ h => exact ⟨_, _, [], h, .nil _, by simp⟩
  | @binary n op ls ls' x y hop hl hr ihl =>
    subst hop
    rcases leftLevel_eq op with same | above
    · obtain ⟨first, z, rest, hf, hz, rfl⟩ := ihl (by omega)
      rw [same] at hf hz
      exact ⟨first, z, _, hf, hz.snoc rfl hr, by simp⟩
    · exact ⟨ls, x, _, above ▸ hl, (Extends.nil x).snoc rfl hr, by simp⟩

/-- Formulas that begin alike are the same, if of both it is clear where they end, and words of
some number are at hand. -/
def Decides (n N : Nat) : Prop :=
  ∀ {ls ls' r r' : List Lexeme} {e e' : Formula}, (ls ++ r).length ≤ N → Reads n ls e →
    Reads n ls' e' → Stops n r → Stops n r' → ls ++ r = ls' ++ r' → e = e' ∧ r = r'

theorem Extends.decides {N : Nat} (decides : Decides (n + 1) N) (h : Extends n x rest e)
    (h' : Extends n x rest' e') (hr : Stops n r) (hr' : Stops n r')
    (length : (rest ++ r).length ≤ N) (same : rest ++ r = rest' ++ r') : e = e' ∧ r = r' := by
  induction h generalizing rest' with
  | nil x =>
    cases h' with
    | nil => exact ⟨rfl, same⟩
    | cons hop _ _ => exact absurd (hr _ _ same) (by omega)
  | cons hop hy h ih =>
    cases h' with
    | nil => exact absurd (hr' _ _ same.symm) (by omega)
    | cons hop' hy' h' =>
      simp only [List.cons_append, List.append_assoc, List.cons.injEq,
        Lexeme.operator.injEq] at same
      obtain ⟨rfl, same⟩ := same
      simp only [List.cons_append, List.length_cons, List.append_assoc] at length
      obtain ⟨rfl, remainder⟩ := decides (by omega) hy hy' (h.stops hr) (h'.stops hr') same
      simp only [List.length_append] at length
      exact ih h' (by simp only [List.length_append]; omega) remainder

/-- Of an operand it is clear how it is read, if that is so for the shorter words in parentheses. -/
theorem decides_operand {N : Nat} (decides : Decides 0 N) : Decides 5 (N + 1) := by
  intro ls ls' r r' e e' length h h' hr hr' same
  cases h with
  | next h | binary h => have := level_lt; grind
  | leaf a =>
    cases h' with
    | next h | binary h => have := level_lt; grind
    | group => cases same
    | leaf a' =>
      cases same
      exact ⟨rfl, rfl⟩
  | group h =>
    cases h' with
    | next h | binary h => have := level_lt; grind
    | leaf => cases same
    | group h' =>
      simp only [List.cons_append, List.append_assoc, List.nil_append, List.cons.injEq,
        true_and] at same
      simp only [List.cons_append, List.length_cons, List.append_assoc, List.nil_append] at length
      obtain ⟨rfl, closed⟩ := decides (by omega) h h' stops_closing stops_closing same
      exact ⟨rfl, List.tail_eq_of_cons_eq closed⟩

/-- Of a formula it is clear how it is read, if that is so for its operands. -/
theorem decides_of_succ {N : Nat} (hn : n < 5) (decides : Decides (n + 1) N) : Decides n N := by
  intro ls ls' r r' e e' length h h' hr hr' same
  obtain ⟨first, x, rest, hx, he, rfl⟩ := h.chain hn
  obtain ⟨first', x', rest', hx', he', rfl⟩ := h'.chain hn
  rw [List.append_assoc] at length
  rw [List.append_assoc, List.append_assoc] at same
  obtain ⟨rfl, remainder⟩ := decides length hx hx' (he.stops hr) (he'.stops hr') same
  rw [List.length_append] at length
  exact he.decides decides he' hr hr' (by omega) remainder

theorem Reads.ne_nil (h : Reads n ls e) : ls ≠ [] := by
  induction h with
  | leaf | group | binary => simp
  | next _ _ ih => exact ih

theorem decides (N : Nat) (hn : n ≤ 5) : Decides n N := by
  induction N generalizing n with
  | zero =>
    intro ls ls' r r' e e' length h
    simp only [Nat.le_zero_eq, List.length_eq_zero_iff, List.append_eq_nil_iff] at length
    exact absurd length.1 h.ne_nil
  | succ N ih =>
    induction hn using Nat.decreasingInduction with
    | self => exact decides_operand (ih (by omega))
    | of_succ k hk decides => exact decides_of_succ (by omega) decides

/-- Words are read in one way at most. -/
theorem Reads.unique (hn : n ≤ 5) (h : Reads n ls e) (h' : Reads n ls e') : e = e' :=
  (decides (n := n) (ls ++ []).length hn (Nat.le_refl _) h h' stops_nil stops_nil rfl).1

end Formula

end SqlWright
