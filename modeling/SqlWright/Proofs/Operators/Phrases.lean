import SqlWright.Proofs.Operators.Grammar
import SqlWright.Proofs.Lexing.Lexer

/-!
# Phrases

How operators with one operand stand beside those with two. `NOT` binds looser than comparisons,
`IS NULL` and `IS NOT NULL` bind like these and do not group either, a sign binds tightest.
Operands are opaque: what stands in brackets, a name or a call is one word, whatever is in it.
Words are read as one phrase at most, since the operator at the root binds looser than every word
that stands beside it.
-/

namespace SqlWright

/-- Word of an expression. -/
inductive Word where
  /-- Tokens without operators outside brackets. -/
  | operand (tokens : List Token)
  | binary (op : BinaryOp)
  | unary (op : UnaryOp)
  /-- Token that has no place where it stands. -/
  | stray (t : Token)
  deriving DecidableEq

/-- Expression of words, as far as its operators go. -/
inductive Phrase where
  | operand (tokens : List Token)
  | unary (op : UnaryOp) (x : Phrase)
  | binary (op : BinaryOp) (x y : Phrase)
  deriving DecidableEq

namespace UnaryOp

/-- The operator stands in front of its operand. -/
def isFront : UnaryOp → Bool
  | negation | negate => true
  | isNull | isNotNull | existence => false

/-- The operator stands behind its operand. -/
def isBack : UnaryOp → Bool
  | isNull | isNotNull => true
  | negation | negate | existence => false

theorem isBack_of_isFront {u : UnaryOp} (h : u.isFront) : u.isBack = false := by
  cases u with
  | negation | negate | existence => rfl
  | isNull | isNotNull => cases h

/-- How tightly the operator binds, on a scale on which those with two operands have the even
numbers up to eight. -/
def tightness : UnaryOp → Nat
  | negation => 3
  | isNull | isNotNull => 4
  | negate | existence => 9

end UnaryOp

/-- How tightly an operator binds. -/
def BinaryOp.tightness (op : BinaryOp) : Nat := 2 * op.level

/-- How tightly the left operand has to bind. -/
def BinaryOp.leftTightness (op : BinaryOp) : Nat := 2 * op.leftLevel

namespace Word

/-- How tightly a word binds. -/
def tightness : Word → Nat
  | operand _ | stray _ => 10
  | binary op => op.tightness
  | unary op => op.tightness

end Word

namespace Phrase

/-- Words of a phrase. -/
def words : Phrase → List Word
  | operand ts => [.operand ts]
  | unary op x => if op.isBack then x.words ++ [.unary op] else .unary op :: x.words
  | binary op x y => x.words ++ .binary op :: y.words

/-- Words are read as a phrase that binds at least as tightly as a number says. -/
inductive Reads : Nat → List Word → Phrase → Prop where
  | operand {n : Nat} (ts : List Token) : n ≤ 10 → Reads n [.operand ts] (.operand ts)
  | binary {n : Nat} {op : BinaryOp} {ws ws' : List Word} {x y : Phrase} : n ≤ op.tightness →
    Reads op.leftTightness ws x → Reads (op.tightness + 1) ws' y →
    Reads n (ws ++ .binary op :: ws') (.binary op x y)
  | front {n : Nat} {op : UnaryOp} {ws : List Word} {x : Phrase} : op.isFront → n ≤ op.tightness →
    Reads op.tightness ws x → Reads n (.unary op :: ws) (.unary op x)
  | back {n : Nat} {op : UnaryOp} {ws : List Word} {x : Phrase} : op.isBack → n ≤ op.tightness →
    Reads (op.tightness + 1) ws x → Reads n (ws ++ [.unary op]) (.unary op x)

/-- The words are read as the phrase, and as nothing else. -/
def ReadsAs (ws : List Word) (x : Phrase) : Prop := ∀ y, Reads 0 ws y ↔ y = x

variable {n m : Nat} {op : BinaryOp} {u : UnaryOp} {ws ws' : List Word} {x y : Phrase}

theorem tightness_le_leftTightness (op : BinaryOp) : op.tightness ≤ op.leftTightness := by
  cases op <;> decide

/-- Both kinds of operators never bind alike, but for comparisons and the test for NULL. -/
theorem tightness_ne (hu : u.isFront) (op : BinaryOp) :
    u.tightness ≠ op.tightness ∧ u.tightness ≠ op.leftTightness := by
  cases u with
  | negation | negate => cases op <;> decide
  | isNull | isNotNull | existence => cases hu

theorem Reads.words_eq (h : Reads n ws x) : x.words = ws := by
  induction h with
  | operand ts _ => rfl
  | binary _ _ _ ihx ihy => rw [words, ihx, ihy]
  | @front n op ws x hf _ _ ih =>
    rw [words, op.isBack_of_isFront hf, ih]
    rfl
  | back hb _ _ ih => rw [words, if_pos hb, ih]

theorem Reads.ne_nil (h : Reads n ws x) : ws ≠ [] := by
  cases h <;> simp

/-- No word of a phrase binds looser than the phrase. -/
theorem Reads.le_tightness (h : Reads n ws x) : ∀ w ∈ ws, n ≤ w.tightness := by
  induction h with
  | operand ts hn => simpa [Word.tightness] using hn
  | @binary n op ws ws' x y hn _ _ ihx ihy =>
    have left := tightness_le_leftTightness op
    simp only [List.mem_append, List.mem_cons]
    rintro w (hw | rfl | hw)
    · have := ihx w hw; omega
    · exact hn
    · have := ihy w hw; omega
  | front _ hn _ ih =>
    simp only [List.mem_cons]
    rintro w (rfl | hw)
    · exact hn
    · exact Nat.le_trans hn (ih w hw)
  | back _ hn _ ih =>
    simp only [List.mem_append, List.mem_singleton]
    rintro w (hw | rfl)
    · have := ih w hw; omega
    · exact hn

/-! ### Words are read in one way -/

/-- A list cut at two places has the later word of the cut in what follows the earlier one. -/
theorem mem_of_append_cons_eq {α : Type} {a b a' b' : List α} {x y : α}
    (h : a ++ x :: b = a' ++ y :: b') :
    (a = a' ∧ x = y ∧ b = b') ∨ (y ∈ b ∧ x ∈ a') ∨ (x ∈ b' ∧ y ∈ a) := by
  obtain ⟨c, rfl, hc⟩ | ⟨c, rfl, hc⟩ := List.append_eq_append_iff.1 h
  · obtain _ | ⟨z, c⟩ := c
    · obtain ⟨rfl, rfl⟩ := List.cons.inj hc
      exact .inl ⟨(List.append_nil _).symm, rfl, rfl⟩
    · obtain ⟨rfl, rfl⟩ := List.cons.inj hc
      exact .inr (.inl ⟨by simp, by simp⟩)
  · obtain _ | ⟨z, c⟩ := c
    · obtain ⟨rfl, rfl⟩ := List.cons.inj hc
      exact .inl ⟨List.append_nil _, rfl, rfl⟩
    · obtain ⟨rfl, rfl⟩ := List.cons.inj hc
      exact .inr (.inr ⟨by simp, by simp⟩)

/-- A list that goes on behind a cut ends with its last word behind the cut. -/
theorem exists_of_append_cons_eq_snoc {α : Type} {a b c : List α} {x y : α}
    (h : a ++ x :: b = c ++ [y]) (hb : b ≠ []) : ∃ b', b = b' ++ [y] ∧ c = a ++ x :: b' := by
  obtain ⟨b', z, rfl⟩ := (List.eq_nil_or_concat b).resolve_left hb
  rw [List.concat_eq_append, ← List.cons_append, ← List.append_assoc] at h
  obtain ⟨init, last⟩ := List.append_inj' h rfl
  cases last
  exact ⟨b', List.concat_eq_append, init.symm⟩

section Roots

variable {op' : BinaryOp} {v : UnaryOp} {us us' : List Word} {x' y' : Phrase}

/-- Words have one operator between two phrases at their root. -/
theorem Reads.binary_inj (hx : Reads op.leftTightness ws x) (hy : Reads (op.tightness + 1) ws' y)
    (hx' : Reads op'.leftTightness us x') (hy' : Reads (op'.tightness + 1) us' y')
    (h : ws ++ .binary op :: ws' = us ++ .binary op' :: us') :
    ws = us ∧ op = op' ∧ ws' = us' := by
  have left := tightness_le_leftTightness op
  have left' := tightness_le_leftTightness op'
  rcases mem_of_append_cons_eq h with ⟨hl, same, hr⟩ | ⟨hr, hl⟩ | ⟨hr, hl⟩
  · exact ⟨hl, by injection same, hr⟩
  · have right : op.tightness + 1 ≤ op'.tightness := hy.le_tightness _ hr
    have other : op'.leftTightness ≤ op.tightness := hx'.le_tightness _ hl
    omega
  · have right : op'.tightness + 1 ≤ op.tightness := hy'.le_tightness _ hr
    have other : op.leftTightness ≤ op'.tightness := hx.le_tightness _ hl
    omega

theorem Reads.binary_ne_front (hx : Reads op.leftTightness ws x) (hu : u.isFront)
    (h : Reads u.tightness us x') : ws ++ .binary op :: ws' ≠ .unary u :: us := by
  intro same
  obtain _ | ⟨w, ws⟩ := ws
  · exact absurd rfl hx.ne_nil
  obtain ⟨rfl, rfl⟩ := List.cons.inj same
  have left := tightness_le_leftTightness op
  have first : op.leftTightness ≤ u.tightness := hx.le_tightness _ List.mem_cons_self
  have inner : u.tightness ≤ op.tightness := h.le_tightness (.binary op) (by simp)
  have apart := (tightness_ne hu op).1
  omega

theorem Reads.binary_ne_back (hy : Reads (op.tightness + 1) ws' y)
    (h : Reads (u.tightness + 1) us x') : ws ++ .binary op :: ws' ≠ us ++ [.unary u] := by
  intro same
  obtain ⟨us', rfl, rfl⟩ := exists_of_append_cons_eq_snoc same hy.ne_nil
  have right : op.tightness + 1 ≤ u.tightness := hy.le_tightness (.unary u) (by simp)
  have inner : u.tightness + 1 ≤ op.tightness := h.le_tightness (.binary op) (by simp)
  omega

theorem Reads.front_ne_back (hx : Reads v.tightness ws x) (h : Reads (u.tightness + 1) us x') :
    .unary v :: ws ≠ us ++ [.unary u] := by
  intro same
  obtain ⟨ws', rfl, rfl⟩ := exists_of_append_cons_eq_snoc (a := []) same hx.ne_nil
  have right : v.tightness ≤ u.tightness := hx.le_tightness (.unary u) (by simp)
  have inner : u.tightness + 1 ≤ v.tightness := h.le_tightness (.unary v) (by simp)
  omega

theorem eq_of_append_cons_eq_singleton {α : Type} {a b : List α} {w z : α}
    (h : a ++ w :: b = [z]) : w = z := by
  have mem : w ∈ a ++ w :: b := by simp
  rwa [h, List.mem_singleton] at mem

theorem Reads.eq_operand {ts : List Token} (h : Reads n [.operand ts] x) : x = .operand ts := by
  generalize hall : [Word.operand ts] = all at h
  cases h with
  | operand _ _ =>
    cases hall
    rfl
  | binary _ _ _ => exact absurd (eq_of_append_cons_eq_singleton hall.symm) nofun
  | front _ _ _ => cases hall
  | back _ _ _ => exact absurd (eq_of_append_cons_eq_singleton hall.symm) nofun

/-- Words are read as one phrase at most. -/
theorem Reads.unique (h : Reads n ws x) (h' : Reads m ws y) : x = y := by
  induction h generalizing m y with
  | operand ts _ => exact h'.eq_operand.symm
  | @binary n op ws ws' x y _ hx hy ihx ihy =>
    generalize hall : ws ++ .binary op :: ws' = all at h'
    cases h' with
    | operand ts _ => exact absurd (eq_of_append_cons_eq_singleton hall) nofun
    | binary _ hx' hy' =>
      obtain ⟨rfl, rfl, rfl⟩ := hx.binary_inj hy hx' hy' hall
      rw [ihx hx', ihy hy']
    | front hf _ h' => exact (hx.binary_ne_front hf h' hall).elim
    | back _ _ h' => exact (hy.binary_ne_back h' hall).elim
  | @front n u ws x hf _ hx ih =>
    generalize hall : Word.unary u :: ws = all at h'
    cases h' with
    | operand ts _ => cases hall
    | binary _ hx' _ => exact (hx'.binary_ne_front hf hx hall.symm).elim
    | front _ _ h' =>
      cases hall
      rw [ih h']
    | back _ _ h' => exact (hx.front_ne_back h' hall).elim
  | @back n u ws x _ _ hx ih =>
    generalize hall : ws ++ [Word.unary u] = all at h'
    cases h' with
    | operand ts _ => exact absurd (eq_of_append_cons_eq_singleton hall) nofun
    | binary _ _ hy' => exact (hy'.binary_ne_back hx hall.symm).elim
    | front _ _ h' => exact (h'.front_ne_back hx hall.symm).elim
    | back _ _ h' =>
      obtain ⟨rfl, last⟩ := List.append_inj' hall rfl
      cases last
      rw [ih h']

end Roots

theorem readsAs_iff : ReadsAs ws x ↔ Reads 0 ws x := by
  constructor
  · intro h
    exact (h x).2 rfl
  · intro h y
    constructor
    · exact fun h' ↦ h'.unique h
    · rintro rfl
      exact h

/-- An operator between words has them as its operands exactly if both bind tightly enough. -/
theorem readsAs_binary_iff : ReadsAs (x.words ++ .binary op :: y.words) (.binary op x y) ↔
    Reads op.leftTightness x.words x ∧ Reads (op.tightness + 1) y.words y := by
  rw [readsAs_iff]
  constructor
  · intro h
    generalize x.words ++ .binary op :: y.words = all at h
    cases h with
    | binary _ hx hy => exact ⟨hx.words_eq ▸ hx, hy.words_eq ▸ hy⟩
  · rintro ⟨hx, hy⟩
    exact .binary (Nat.zero_le _) hx hy

/-- An operator behind words has them as its operand exactly if they bind tighter. -/
theorem readsAs_back_iff (hu : u.isBack) : ReadsAs (x.words ++ [.unary u]) (.unary u x) ↔
    Reads (u.tightness + 1) x.words x := by
  rw [readsAs_iff]
  constructor
  · intro h
    generalize x.words ++ [.unary u] = all at h
    cases h with
    | front hf _ _ => exact absurd hu (by simp [UnaryOp.isBack_of_isFront hf])
    | back _ _ hx => exact hx.words_eq ▸ hx
  · intro hx
    exact .back hu (Nat.zero_le _) hx

end Phrase

end SqlWright
