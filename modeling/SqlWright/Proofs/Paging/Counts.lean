import SqlWright.Proofs.Meaning.Expression

/-!
# Counts of rows

Limits and offsets are constants, parameters, and what servers compute of these: the smaller of
two counts and their sum. A sum of constants stops at the greatest integer of 64 bits, which no
number of rows exceeds.
-/

namespace SqlWright

variable {V : Type} {I : Interpretation V}

/-- Integers are computed with and compared exactly, and the order of values is total. -/
structure Interpretation.CountsExactly (I : Interpretation V) : Prop where
  integer? (n : Int) : I.integer? (I.integer n) = some n
  literal (n : Int64) : I.literal (.integer n) = I.integer n.toInt
  plus (m n : Int) : I.binary .plus (I.integer m) (I.integer n) = I.integer (m + n)
  lt (m n : Int) : I.holds (I.binary .lt (I.integer m) (I.integer n)) = decide (m < n)
  gt (m n : Int) : I.holds (I.binary .gt (I.integer m) (I.integer n)) = decide (n < m)
  ltEq (m n : Int) : I.holds (I.binary .ltEq (I.integer m) (I.integer n)) = decide (m ≤ n)
  le (m n : Int) : I.le (I.integer m) (I.integer n) = decide (m ≤ n)
  le_trans (a b c : V) : I.le a b → I.le b c → I.le a c
  le_total (a b : V) : I.le a b ∨ I.le b a

/-- Where values are integers and NULL, counts are exact. -/
theorem Interpretation.countsExactly_integers (parameter : Nat → Option Int) :
    (integers parameter).CountsExactly where
  integer? _ := rfl
  literal _ := rfl
  plus _ _ := rfl
  lt m n := by simp [holds, integers, integerBinary]
  gt m n := by simp [holds, integers, integerBinary]
  ltEq m n := by simp [holds, integers, integerBinary]
  le _ _ := rfl
  le_trans a b c hab hbc := by
    cases a <;> cases b <;> cases c <;> simp_all [integers]
    omega
  le_total a b := by
    cases a <;> cases b <;> simp [integers]
    omega

namespace Scalar

/-- The expression is a constant that is not negative, or a parameter with such a value. -/
inductive IsCount (I : Interpretation V) : Scalar → Prop where
  | constant {n : Int64} : 0 ≤ n → IsCount I (.constant (.integer n))
  | parameter {p : Parameter} {n : Nat} : I.parameter p.id = I.integer n →
      IsCount I (.parameter p)

/-- A count uses no columns. -/
theorem IsCount.fits {e : Scalar} (h : e.IsCount I) : e.Fits 0 := by
  cases h with
  | constant _ => trivial
  | parameter _ => trivial

/-- The value of a count is a number. -/
theorem IsCount.value_eq {e : Scalar} (h : e.IsCount I) (hI : I.CountsExactly) :
    ∃ n : Nat, e.value I [] = I.integer n ∧ e.count? I = some n := by
  obtain ⟨n, hn⟩ : ∃ n : Nat, e.value I [] = I.integer n := by
    cases h with
    | @constant n hn =>
      refine ⟨n.toInt.toNat, ?_⟩
      have nonneg : 0 ≤ n.toInt := Int64.le_iff_toInt_le.1 hn
      rw [Int.toNat_of_nonneg nonneg]
      exact hI.literal n
    | @parameter p n hp => exact ⟨n, hp⟩
  refine ⟨n, hn, ?_⟩
  rw [count?, hn, Interpretation.count?, hI.integer?]
  rfl

end Scalar

/-! ### Numbers of rows -/

/-- The numbers are equal, or neither is less than the greatest number of rows. -/
def CountsAlike (k n : Nat) : Prop := k = n ∨ 2 ^ 63 ≤ k + 1 ∧ 2 ^ 63 ≤ n + 1

namespace CountsAlike

variable {α : Type} {k n : Nat} {l : List α}

theorem drop_eq (h : CountsAlike k n) (hl : l.length < 2 ^ 63) : l.drop k = l.drop n := by
  rcases h with rfl | ⟨hk, hn⟩
  · rfl
  · rw [List.drop_eq_nil_of_le (by omega), List.drop_eq_nil_of_le (by omega)]

theorem take_eq (h : CountsAlike k n) (hl : l.length < 2 ^ 63) : l.take k = l.take n := by
  rcases h with rfl | ⟨hk, hn⟩
  · rfl
  · rw [List.take_of_length_le (by omega), List.take_of_length_le (by omega)]

end CountsAlike

variable [DecidableEq V] {db : Database V} {d d' : Draft}

open Draft Drafting Compiled

namespace Tree

/-- The tree has the number as its value everywhere. -/
structure CountsTo (I : Interpretation V) (db : Database V) (t : Tree) (n : Nat) : Prop where
  value (p : Place V) : (t.meaning I db).value p = I.integer n
  plain : (t.meaning I db).aggregates = false

variable {a b t : Tree} {m n : Nat}

namespace CountsTo

theorem isLocal (h : t.CountsTo I db n) (labels : List String) :
    (t.meaning I db).IsLocal labels where
  plain := h.plain
  value _ := by rw [h.value, h.value]

/-- A constant among the counts is the number that it counts to. -/
theorem toInt_eq (hI : I.CountsExactly) (h : t.CountsTo I db n) {x : Int64}
    (hx : integer? t = some x) : x.toInt = n := by
  have node : t.node = .literal (.integer x) := by
    unfold integer? at hx
    split at hx
    · next value hn => rwa [Option.some.inj hx] at hn
    · cases hx
  have value := h.value (.ofRow [])
  rw [Tree.meaning_eq, node] at value
  have same : I.integer x.toInt = I.integer n := (hI.literal x).symm.trans value
  have integers := congrArg I.integer? same
  rwa [hI.integer?, hI.integer?, Option.some.injEq] at integers

/-- The number of rows that the value of a clause stands for. -/
theorem count?_eq (hI : I.CountsExactly) (h : t.CountsTo I db n) :
    Select.count? I (some (t.meaning I db)) = some n := by
  rw [Select.count?, Option.bind_some, h.value, Interpretation.count?, hI.integer?]
  rfl

theorem literal (hI : I.CountsExactly) {x : Int64}
    (h : Draft.node (.literal (.integer x)) d = .ok (t, d')) (hx : x.toInt = n) :
    t.CountsTo I db n := by
  have meaning : t.meaning I db = .ofExpression [] fun _ ↦ I.literal (.integer x) :=
    meaning_node h
  refine ⟨fun p ↦ ?_, by rw [meaning]; rfl⟩
  rw [meaning, ← hx]
  exact hI.literal x

theorem ofScalar {e : Scalar} (h : scalar [] e d = .ok (t, d')) (he : e.value I [] = I.integer n) :
    t.CountsTo I db n := by
  have computes : t.Computes I db [] (Scalar.value I · e) := computes_scalar h
  exact ⟨fun p ↦ (computes.value p).trans he, computes.plain nofun⟩

end CountsTo

/-- The smaller of two counts counts to the smaller number. -/
theorem countsTo_minCount (hI : I.CountsExactly) (ha : a.CountsTo I db m)
    (hb : b.CountsTo I db n) (h : minCount a b d = .ok (t, d')) : t.CountsTo I db (min m n) := by
  rcases minCount_ok h with ⟨x, y, hx, hy, ht⟩ | ⟨less, d₁, hl, ht⟩
  · have hm := ha.toInt_eq hI hx
    have hn := hb.toInt_eq hI hy
    refine .literal hI ht ?_
    split
    · next hxy => rw [Int64.le_iff_toInt_le] at hxy; omega
    · next hxy => rw [Int64.le_iff_toInt_le] at hxy; omega
  · have meaning_less : less.meaning I db =
        .ofNode I db (.binary .lt (a.meaning I db) (b.meaning I db)) := meaning_node hl
    have meaning : t.meaning I db = .ofNode I db
        (.case [(less.meaning I db, a.meaning I db)] (some (b.meaning I db))) := meaning_node ht
    have less_holds (p : Place V) : I.holds ((less.meaning I db).value p) = decide (m < n) := by
      rw [meaning_less]
      refine Eq.trans ?_ ((hI.lt m n).trans (by simp))
      rw [← ha.value p, ← hb.value p]
      rfl
    constructor
    · intro p
      rw [meaning]
      change Meaning.caseAt I [(less.meaning I db, a.meaning I db)] (some (b.meaning I db)) p = _
      rw [Meaning.caseAt, List.find?_singleton, less_holds]
      by_cases hmn : m < n
      · rw [if_pos (by simpa using hmn)]
        simp only [ha.value, min_eq_left hmn.le]
      · rw [if_neg (by simpa using hmn)]
        simp only [Option.map_some, Option.getD_some, hb.value, min_eq_right (not_lt.1 hmn)]
    · have plain_less : (less.meaning I db).aggregates = false := by
        rw [meaning_less]
        simp [Meaning.ofNode, Meaning.ofExpression, Node.children, ha.plain, hb.plain]
      rw [meaning]
      simp [Meaning.ofNode, Meaning.ofExpression, Node.children, ha.plain, hb.plain, plain_less]

/-- The sum of two counts counts to the sum of the numbers, or to one that no number of rows
exceeds either. -/
theorem countsTo_sumCounts (hI : I.CountsExactly) (ha : a.CountsTo I db m)
    (hb : b.CountsTo I db n) (h : sumCounts a b d = .ok (t, d')) :
    ∃ k, t.CountsTo I db k ∧ CountsAlike k (m + n) := by
  rcases sumCounts_ok h with ⟨x, y, hx, hy, ht⟩ | ht
  · have hm := ha.toInt_eq hI hx
    have hn := hb.toInt_eq hI hy
    have max : Int64.maxValue.toInt = 2 ^ 63 - 1 := by decide
    have least : Int64.minValue.toInt = -2 ^ 63 := by decide
    have sum : (saturatingSum x y).toInt = min (2 ^ 63 - 1) (m + n : Int) := by
      rw [saturatingSum, hm, hn, max, least, Int64.toInt_ofInt_of_le] <;> omega
    refine ⟨min (2 ^ 63 - 1) (m + n), .literal hI ht (by rw [sum]; omega), ?_⟩
    unfold CountsAlike
    omega
  · refine ⟨m + n, ⟨fun p ↦ ?_, ?_⟩, .inl rfl⟩
    · rw [value_binary_node ht, ha.value, hb.value, hI.plus]
      rfl
    · exact (isLocal_binary_node (ha.isLocal []) (hb.isLocal []) ht).plain

/-- Counts that there may or may not be, and the numbers that they count to. -/
abbrev AllCountTo (I : Interpretation V) (db : Database V) : Option Tree → Option Nat → Prop :=
  Option.Rel (CountsTo I db)

variable {counts : Option Tree} {numbers : Option Nat}

theorem AllCountTo.count?_eq (hI : I.CountsExactly) (h : AllCountTo I db counts numbers) :
    Select.count? I (counts.map (Tree.meaning I db)) = numbers := by
  cases h with
  | some h => exact h.count?_eq hI
  | none => rfl

/-- What counts of a relation become counts to the same numbers. -/
theorem allCountTo_scalars (hI : I.CountsExactly) {es : Option Scalar}
    (hc : ∀ e ∈ es, e.IsCount I) (h : es.mapM (scalar []) d = .ok (counts, d')) :
    AllCountTo I db counts (es.bind (·.count? I)) := by
  rcases mapM_option_ok.1 h with ⟨rfl, rfl, -⟩ | ⟨e, t, rfl, rfl, ht⟩
  · exact .none
  · obtain ⟨n, value, count⟩ := (hc e rfl).value_eq hI
    rw [Option.bind_some, count]
    exact .some (.ofScalar ht value)

end Tree

end SqlWright
