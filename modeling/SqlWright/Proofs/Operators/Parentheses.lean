import SqlWright.Command.OfTree
import SqlWright.Proofs.Operators.Grammar

/-!
# Parentheses of formulas

An operand is put in parentheses where the operator around it would take it apart. What is written
so is read as the formula that it was written for, but a conjunction of conjunctions is one chain,
which is read from the left; so it is with disjunctions.
-/

namespace SqlWright.Formula

variable {n : Nat} {op : BinaryOp} {isRight : Bool} {ls ls' : List Lexeme} {e e' x y : Formula}

/-- Operator of a formula. -/
def op? : Formula → Option BinaryOp
  | .leaf _ => none
  | .binary op _ _ => some op

/-- Words of an operand, in parentheses if the operator around it would take it apart. -/
def enclosed (parent : BinaryOp) (isRight : Bool) (op? : Option BinaryOp) (ls : List Lexeme) :
    List Lexeme :=
  if op?.any fun op ↦ parent.separates op isRight then .opening :: (ls ++ [.closing]) else ls

/-- Words that a formula is written as. -/
def lexemes : Formula → List Lexeme
  | .leaf a => [.leaf a]
  | .binary op x y =>
    enclosed op false x.op? x.lexemes ++ .operator op :: enclosed op true y.op? y.lexemes

/-- The formulas are the same up to the grouping of chains of conjunctions and of chains of
disjunctions. -/
inductive Regroups : Formula → Formula → Prop where
  | refl (e : Formula) : Regroups e e
  | symm {e e' : Formula} : Regroups e e' → Regroups e' e
  | trans {e₁ e₂ e₃ : Formula} : Regroups e₁ e₂ → Regroups e₂ e₃ → Regroups e₁ e₃
  | binary (op : BinaryOp) {x x' y y' : Formula} : Regroups x x' → Regroups y y' →
    Regroups (.binary op x y) (.binary op x' y')
  | chain {op : BinaryOp} (h : op = .and ∨ op = .or) (x y z : Formula) :
    Regroups (.binary op (.binary op x y) z) (.binary op x (.binary op y z))

/-- Leaves in the order in which they stand. -/
def leaves : Formula → List Leaf
  | .leaf a => [a]
  | .binary _ x y => x.leaves ++ y.leaves

/-- Grouping does not move leaves. -/
theorem Regroups.leaves_eq (h : Regroups e e') : e.leaves = e'.leaves := by
  induction h with
  | refl => rfl
  | symm _ ih => exact ih.symm
  | trans _ _ ih ih' => exact ih.trans ih'
  | binary op _ _ ihx ihy => rw [leaves, leaves, ihx, ihy]
  | chain _ x y z => simp only [leaves, List.append_assoc]

/-- Level of the grammar at which the formula stands. -/
def level : Formula → Nat
  | .leaf _ => 5
  | .binary op _ _ => op.level

theorem level_le (e : Formula) : e.level ≤ 5 := by
  cases e with
  | leaf => exact Nat.le_refl 5
  | binary op => exact Nat.le_of_lt (level_lt op)

theorem level_connective : op.level < 2 ↔ op = .and ∨ op = .or := by
  cases op <;> decide

/-- Of the loosest levels there is one operator each. -/
theorem eq_of_level_eq {op' : BinaryOp} (h : op = .and ∨ op = .or) (same : op'.level = op.level) :
    op' = op := by
  rcases h with rfl | rfl <;> cases op' <;> first | rfl | cases same

/-- A left operand that is not separated stands at the level of left operands or closer. -/
theorem leftLevel_le_of_separates {child : BinaryOp} (h : op.separates child false = false) :
    op.leftLevel ≤ child.level := by
  cases op <;> cases child <;> revert h <;> decide

/-- A right operand that is not separated stands closer than the operator, or goes on with a chain
of conjunctions or of disjunctions. -/
theorem level_lt_of_separates {child : BinaryOp} (h : op.separates child true = false) :
    op.level < child.level ∨ (op = .and ∨ op = .or) ∧ child = op := by
  cases op <;> cases child <;> revert h <;> decide

/-- Words of a formula in parentheses are read as an operand. -/
theorem Reads.grouped (h : Reads n ls e) (hn : n ≤ 5) :
    Reads 5 (.opening :: (ls ++ [.closing])) e := .group (h.of_le hn (Nat.zero_le n))

/-- A chain of conjunctions or of disjunctions goes on with another one. -/
theorem Reads.join (h : op = .and ∨ op = .or) (hx : Reads op.level ls x)
    (hy : Reads op.level ls' y) :
    ∃ e, Reads op.level (ls ++ .operator op :: ls') e ∧ e.Regroups (.binary op x y) := by
  have left : op.leftLevel = op.level := by rcases h with rfl | rfl <;> rfl
  have low := level_connective.2 h
  generalize hn : op.level = n at hx hy
  induction hy with
  | leaf | group => omega
  | next _ hy => exact ⟨_, .binary hn (left ▸ hn ▸ hx) hy, .refl _⟩
  | @binary n op' ls₁ ls₂ y₁ y₂ same hl hr ihl =>
    obtain rfl := eq_of_level_eq h (same.trans hn.symm)
    have lower : op'.leftLevel = n := left.trans hn
    obtain ⟨e₁, he₁, regroups⟩ := ihl left.symm (lower ▸ hx)
    refine ⟨.binary op' e₁ y₂, ?_, ?_⟩
    · have read := Reads.binary hn he₁ hr
      rwa [List.append_assoc] at read
    · exact (Regroups.binary op' regroups (.refl y₂)).trans (.chain h x y₁ y₂)

/-- What a formula is written as is read as the formula up to the grouping of chains. -/
theorem exists_reads (e : Formula) :
    ∃ e', Reads e.level e.lexemes e' ∧ e'.Regroups e := by
  induction e with
  | leaf a => exact ⟨.leaf a, .leaf a, .refl _⟩
  | binary op x y ihx ihy =>
    obtain ⟨x', hx, regroupsX⟩ := ihx
    obtain ⟨y', hy, regroupsY⟩ := ihy
    have operands := (Regroups.binary op regroupsX regroupsY)
    have left : Reads op.leftLevel (enclosed op false x.op? x.lexemes) x' := by
      have low : op.leftLevel ≤ 5 := by
        have := level_lt op
        rcases leftLevel_eq op with h | h <;> omega
      unfold enclosed
      split
      · exact (hx.grouped x.level_le).of_le (Nat.le_refl 5) low
      · next separates =>
        refine hx.of_le x.level_le ?_
        cases x with
        | leaf => exact low
        | binary op' => exact leftLevel_le_of_separates (by simpa [op?] using separates)
    have closer (h : op.level < y.level) (hls : enclosed op true y.op? y.lexemes = y.lexemes) :
        Reads (op.level + 1) (enclosed op true y.op? y.lexemes) y' := by
      rw [hls]
      exact hy.of_le y.level_le h
    by_cases separates : y.op?.any fun op' ↦ op.separates op' true
    · have right : Reads (op.level + 1) (enclosed op true y.op? y.lexemes) y' := by
        rw [enclosed, if_pos separates]
        exact (hy.grouped y.level_le).of_le (Nat.le_refl 5) (level_lt op)
      exact ⟨_, .binary rfl left right, operands⟩
    · have plain : enclosed op true y.op? y.lexemes = y.lexemes := by
        rw [enclosed, if_neg separates]
      cases y with
      | leaf => exact ⟨_, .binary rfl left (closer (level_lt op) plain), operands⟩
      | binary op' y₁ y₂ =>
        have together : op.separates op' true = false := by simpa [op?] using separates
        rcases level_lt_of_separates together with above | ⟨connective, rfl⟩
        · exact ⟨_, .binary rfl left (closer above plain), operands⟩
        · have level : op'.leftLevel = op'.level := by rcases connective with rfl | rfl <;> rfl
          obtain ⟨e, he, regroups⟩ := Reads.join connective (level ▸ left) hy
          rw [lexemes, plain]
          exact ⟨e, he, regroups.trans operands⟩

end SqlWright.Formula
