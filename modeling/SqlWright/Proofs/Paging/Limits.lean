import Mathlib.Order.WithBot
import SqlWright.Proofs.Drafting.Derivation
import SqlWright.Proofs.Meaning.Merging

/-!
# Limits on rows

Takes that follow each other limit one select. Its limit is the first count, and each further
one makes it `CASE WHEN a < b THEN a ELSE b`, or the smaller of two constants. A comparison
with NULL is unknown, so that the last value decides: a count that is NULL takes away the
limit there was, while a limit that is NULL gives way to the count.
-/

namespace SqlWright

open Draft Drafting Compiled

/-- Number of rows to take: a constant or a parameter. -/
inductive RowCount where
  | constant (n : Int64)
  | parameter (p : Parameter)

namespace RowCount

variable (bound : Nat → Option Int)

/-- Expression of the number. -/
def toScalar : RowCount → Scalar
  | constant n => .constant (.integer n)
  | parameter p => .parameter p

/-- Number where parameters are bound to integers and NULL; none for NULL. -/
def value : RowCount → Option Int
  | constant n => some n.toInt
  | parameter p => bound p.id

/-- Most rows that the number allows; NULL allows any number. -/
def most (n : RowCount) : WithTop Int := (n.value bound).elim ⊤ (↑)

/-- The number is not NULL. -/
def IsGiven (n : RowCount) : Prop := (n.value bound).isSome

end RowCount

namespace Compiled

/-- Takes of some counts, one after the other; an ordering is wanted for the first only. -/
def limits (c : Compiled) (isOrdered : Bool) : List RowCount → Drafting Compiled
  | [] => return c
  | n :: rest => do
    let limited ← c.limit (← Draft.scalar [] n.toScalar) isOrdered
    limited.limits false rest

end Compiled

variable {bound : Nat → Option Int} {db : Database (Option Int)} {d d' : Draft}

/-- Most rows that a value allows; NULL allows any number. -/
def Tree.most (bound : Nat → Option Int) (db : Database (Option Int)) (t : Tree) : WithTop Int :=
  ((t.meaning (.integers bound) db).value (.ofRow [])).elim ⊤ (↑)

/-- Most rows that the limit of a select allows. -/
def Select.most (bound : Nat → Option Int) (db : Database (Option Int)) (s : Select Tree) :
    WithTop Int :=
  s.limit.elim ⊤ (·.most bound db)

/-- The records of a select are as many as its limit allows. -/
theorem Select.count?_limit (bound : Nat → Option Int) (db : Database (Option Int))
    (s : Select Tree) : Select.count? (.integers bound) (s.limit.map (·.meaning (.integers bound) db)) =
      (s.most bound db).map Int.toNat := by
  rcases hl : s.limit with _ | t
  · rw [Select.most, hl]
    rfl
  · rw [Select.most, hl, Option.elim_some, Tree.most]
    change ((t.meaning (.integers bound) db).value (.ofRow [])).map Int.toNat = _
    cases (t.meaning (.integers bound) db).value (.ofRow []) with
    | none => rfl
    | some n => rfl

/-- A select gives no more records than its limit allows. -/
theorem Select.length_records_le {s : Select Tree} {n : Int} (h : s.most bound db ≤ n) :
    ((s.map (Tree.meaning (.integers bound) db)).records (.integers bound)).length ≤ n.toNat := by
  obtain ⟨m, hm⟩ := WithTop.ne_top_iff_exists.1 (ne_top_of_le_ne_top WithTop.coe_ne_top h)
  rw [← hm, WithTop.coe_le_coe] at h
  have count := s.count?_limit bound db
  rw [← hm] at count
  change Select.count? _ (s.map (Tree.meaning (.integers bound) db)).limit = some m.toNat at count
  rw [records, count, List.length_take]
  exact Nat.le_trans (Nat.min_le_left _ _) (Int.toNat_le_toNat h)

/-! ### Values -/

/-- Smaller of two counts as `CASE WHEN a < b THEN a ELSE b` has it: beside NULL it is the second
of them. -/
def smaller : Option Int → Option Int → Option Int
  | some m, some n => some (min m n)
  | _, n => n

/-- What the smaller of two counts allows: as much as both of them, but anything if the second
is NULL. -/
theorem most_smaller (a b : Option Int) :
    (smaller a b).elim (⊤ : WithTop Int) (↑) =
      if b.isSome then min (a.elim ⊤ (↑)) (b.elim ⊤ (↑)) else ⊤ := by
  rcases a with _ | m <;> rcases b with _ | n
  · rfl
  · simp [smaller]
  · rfl
  · simp [smaller]

/-- Of two integers the comparison chooses the smaller one; if one is NULL, it is unknown. -/
theorem ite_holds_lt (a b : Option Int) :
    (if (Interpretation.integers bound).holds ((Interpretation.integers bound).binary .lt a b)
      then a else b) = smaller a b := by
  rcases a with _ | m
  · rfl
  rcases b with _ | n
  · rfl
  have decided : (Interpretation.integers bound).holds
      ((Interpretation.integers bound).binary .lt (some m) (some n)) = decide (m < n) := by
    simp [Interpretation.holds, Interpretation.integers, Interpretation.integerBinary]
  rw [decided, smaller]
  by_cases hmn : m < n
  · rw [if_pos (by simpa using hmn), min_eq_left hmn.le]
  · rw [if_neg (by simpa using hmn), min_eq_right (not_lt.1 hmn)]

/-- An expression with one branch chooses between two values. -/
theorem Meaning.caseAt_single {V : Type} (I : Interpretation V) (condition x y : Meaning V)
    (p : Place V) : caseAt I [(condition, x)] (some y) p =
      if I.holds (condition.value p) then x.value p else y.value p := by
  rw [caseAt, List.find?_singleton]
  cases I.holds (condition.value p) <;> rfl

namespace Tree

variable {a b t : Tree}

/-- A number of rows is drafted as a node with its value. -/
theorem value_rowCount {n : RowCount} (h : scalar [] n.toScalar d = .ok (t, d')) :
    (t.meaning (.integers bound) db).value (.ofRow []) = n.value bound := by
  have computes : t.Computes (.integers bound) db []
      (Scalar.value (.integers bound) · n.toScalar) := computes_scalar h
  rw [computes.value]
  cases n with
  | constant n => rfl
  | parameter p => rfl

/-- A constant has its value. -/
theorem value_of_integer? {x : Int64} (h : integer? t = some x) (p : Place (Option Int)) :
    (t.meaning (.integers bound) db).value p = some x.toInt := by
  have node : t.node = .literal (.integer x) := by
    unfold integer? at h
    split at h
    · next value hn => rwa [Option.some.inj h] at hn
    · cases h
  rw [Tree.meaning_eq, node]
  rfl

/-- The comparison of two counts chooses the smaller one. -/
theorem value_case {less : Tree} {d₁ : Draft} (hl : Draft.node (.binary .lt a b) d = .ok (less, d₁))
    (ht : Draft.node (.case [(less, a)] (some b)) d₁ = .ok (t, d')) (p : Place (Option Int)) :
    (t.meaning (.integers bound) db).value p =
      smaller ((a.meaning (.integers bound) db).value p)
        ((b.meaning (.integers bound) db).value p) := by
  have meaning : t.meaning (.integers bound) db = .ofNode (.integers bound) db
      (.case [(less.meaning (.integers bound) db, a.meaning (.integers bound) db)]
        (some (b.meaning (.integers bound) db))) := meaning_node ht
  have chosen : (t.meaning (.integers bound) db).value p =
      Meaning.caseAt (.integers bound)
        [(less.meaning (.integers bound) db, a.meaning (.integers bound) db)]
        (some (b.meaning (.integers bound) db)) p := by
    rw [meaning]
    rfl
  rw [chosen, Meaning.caseAt_single, value_binary_node hl, ite_holds_lt]

/-- The smaller of two counts has the smaller value. -/
theorem value_minCount (h : minCount a b d = .ok (t, d')) (p : Place (Option Int)) :
    (t.meaning (.integers bound) db).value p =
      smaller ((a.meaning (.integers bound) db).value p)
        ((b.meaning (.integers bound) db).value p) := by
  rcases minCount_ok h with ⟨x, y, hx, hy, ht⟩ | ⟨less, d₁, hl, ht⟩
  · have constant : integer? t = some (if x ≤ y then x else y) := by
      obtain ⟨rfl, -⟩ := node_ok.1 ht
      rfl
    rw [value_of_integer? constant, value_of_integer? hx, value_of_integer? hy, smaller]
    split
    · next hxy => rw [min_eq_left (Int64.le_iff_toInt_le.1 hxy)]
    · next hxy =>
      rw [Int64.le_iff_toInt_le] at hxy
      rw [min_eq_right (by omega)]
  · exact value_case hl ht p

end Tree

namespace Compiled

variable {c c' : Compiled}

/-- One more count limits a select to as many rows as both allow, but lets it have any number if
the count is NULL. -/
theorem most_limit {n : RowCount} {isOrdered : Bool} {u : Tree} {d₁ : Draft}
    (hn : scalar [] n.toScalar d = .ok (u, d₁)) (h : c.limit u isOrdered d₁ = .ok (c', d')) :
    c'.select.most bound db =
      if (n.value bound).isSome then min (c.select.most bound db) (n.most bound) else ⊤ := by
  obtain ⟨l, hl, rfl⟩ := limit_ok h
  let limited : Compiled := { c with select := { c.select with limit := some l } }
  have limit : (limited.ordered isOrdered).select.most bound db = l.most bound db := by
    rw [Select.most, ordered]
    split <;> rfl
  have count : u.most bound db = n.most bound := by
    rw [Tree.most, Tree.value_rowCount hn, RowCount.most]
  rw [limit, Select.most]
  rcases hc : c.select.limit with _ | existing
  · rw [hc] at hl
    cases hl
    rw [count, RowCount.most]
    rcases n.value bound with _ | x
    · rfl
    · simp
  · rw [hc] at hl
    rw [Tree.most, Tree.value_minCount hl, most_smaller, Tree.value_rowCount hn]
    rfl

/-- A number of rows can always be drafted. -/
theorem exists_rowCount (n : RowCount) (d : Draft) :
    ∃ t d', scalar [] n.toScalar d = .ok (t, d') := by
  cases n with
  | constant n => exact ⟨_, _, node_eq _ d⟩
  | parameter p => exact ⟨_, _, node_eq _ d⟩

/-- A select can always be limited. -/
theorem exists_limit (c : Compiled) (count : Tree) (isOrdered : Bool) (d : Draft) :
    ∃ c' d', c.limit count isOrdered d = .ok (c', d') := by
  unfold limit
  rcases c.select.limit with _ | existing
  · exact ⟨_, _, rfl⟩
  obtain ⟨l, d', hl⟩ : ∃ l d', minCount existing count d = .ok (l, d') := by
    unfold minCount
    rcases integer? existing with _ | x
    · exact ⟨_, _, rfl⟩
    rcases integer? count with _ | y
    · exact ⟨_, _, rfl⟩
    · exact ⟨_, _, rfl⟩
  exact ⟨_, d', bind_ok.2 ⟨l, d', hl, rfl⟩⟩

variable {isOrdered : Bool} {counts more : List RowCount} {n : RowCount}

/-- A run of takes is one of the first of them and one of the rest. -/
theorem limits_cons_ok :
    c.limits isOrdered (n :: counts) d = .ok (c', d') ↔
      ∃ u d₁ s d₂, scalar [] n.toScalar d = .ok (u, d₁) ∧ c.limit u isOrdered d₁ = .ok (s, d₂) ∧
        s.limits false counts d₂ = .ok (c', d') := by
  simp only [limits, bind_ok]
  constructor
  · rintro ⟨u, d₁, hu, s, d₂, hs, h⟩
    exact ⟨u, d₁, s, d₂, hu, hs, h⟩
  · rintro ⟨u, d₁, s, d₂, hu, hs, h⟩
    exact ⟨u, d₁, hu, s, d₂, hs, h⟩

/-- Takes of more counts go on from the select that the counts before them came to. -/
theorem limits_append_ok :
    c.limits isOrdered (counts ++ more) d = .ok (c', d') ↔
      ∃ s d₁, c.limits isOrdered counts d = .ok (s, d₁) ∧
        s.limits (isOrdered && counts.isEmpty) more d₁ = .ok (c', d') := by
  induction counts generalizing c isOrdered d with
  | nil =>
    simp only [limits, pure_ok, List.nil_append, List.isEmpty_nil, Bool.and_true]
    constructor
    · intro h
      exact ⟨c, d, ⟨rfl, rfl⟩, h⟩
    · rintro ⟨_, _, ⟨rfl, rfl⟩, h⟩
      exact h
  | cons n rest ih =>
    rw [List.cons_append, limits_cons_ok]
    simp only [List.isEmpty_cons, Bool.and_false, limits_cons_ok, ih, Bool.false_and]
    constructor
    · rintro ⟨u, d₁, w, d₂, hu, hw, s, d₃, hs, h⟩
      exact ⟨s, d₃, ⟨u, d₁, w, d₂, hu, hw, hs⟩, h⟩
    · rintro ⟨s, d₃, ⟨u, d₁, w, d₂, hu, hw, hs⟩, h⟩
      exact ⟨u, d₁, w, d₂, hu, hw, s, d₃, hs, h⟩

/-- Any number of takes can be made of a select. -/
theorem exists_limits (counts : List RowCount) (c : Compiled) (isOrdered : Bool) (d : Draft) :
    ∃ c' d', c.limits isOrdered counts d = .ok (c', d') := by
  induction counts generalizing c isOrdered d with
  | nil => exact ⟨c, d, rfl⟩
  | cons n rest ih =>
    obtain ⟨u, d₁, hu⟩ := exists_rowCount n d
    obtain ⟨s, d₂, hs⟩ := exists_limit c u isOrdered d₁
    obtain ⟨c', d', h⟩ := ih s false d₂
    exact ⟨c', d', limits_cons_ok.2 ⟨u, d₁, s, d₂, hu, hs, h⟩⟩

/-- Takes of counts that are not NULL leave the smallest of the limit there was and of the
counts. -/
theorem most_limits (given : ∀ n ∈ counts, n.IsGiven bound)
    (h : c.limits isOrdered counts d = .ok (c', d')) :
    c'.select.most bound db = (counts.map (·.most bound)).foldl min (c.select.most bound db) := by
  induction counts generalizing c isOrdered d with
  | nil =>
    obtain ⟨rfl, -⟩ := pure_ok.1 h
    rfl
  | cons n rest ih =>
    obtain ⟨u, d₁, s, d₂, hu, hs, h⟩ := limits_cons_ok.1 h
    have first : s.select.most bound db = min (c.select.most bound db) (n.most bound) := by
      have number : (n.value bound).isSome := given n List.mem_cons_self
      rw [most_limit hu hs, if_pos number]
    have rest := ih (fun n hn ↦ given n (List.mem_cons_of_mem _ hn)) h
    rw [rest, first, List.map_cons, List.foldl_cons]

/-- After takes of any constants and parameters, one more count leaves a limit that is no wider
than the one before it, unless the count is NULL and there was a limit; and as long as no count
is NULL, the limit is the smallest of the counts and of the limit at the start. -/
theorem most_limits_le_iff (bound : Nat → Option Int) (db : Database (Option Int)) (c : Compiled)
    (isOrdered : Bool) (counts : List RowCount) (n : RowCount) (d : Draft) :
    ∃ s d₁ t d₂, c.limits isOrdered counts d = .ok (s, d₁) ∧
      c.limits isOrdered (counts ++ [n]) d = .ok (t, d₂) ∧
      (t.select.most bound db ≤ s.select.most bound db ↔
        n.IsGiven bound ∨ s.select.most bound db = ⊤) ∧
      ((∀ n ∈ counts, n.IsGiven bound) → s.select.most bound db =
        (counts.map (·.most bound)).foldl min (c.select.most bound db)) := by
  obtain ⟨s, d₁, hs⟩ := exists_limits counts c isOrdered d
  obtain ⟨t, d₂, ht⟩ := exists_limits [n] s (isOrdered && counts.isEmpty) d₁
  refine ⟨s, d₁, t, d₂, hs, limits_append_ok.2 ⟨s, d₁, hs, ht⟩, ?_,
    fun given ↦ most_limits given hs⟩
  obtain ⟨u, d₃, t', d₄, hu, hl, last⟩ := limits_cons_ok.1 ht
  obtain ⟨rfl, rfl⟩ := pure_ok.1 last
  rw [most_limit hu hl, RowCount.IsGiven]
  by_cases given : (n.value bound).isSome
  · rw [if_pos given]
    exact ⟨fun _ ↦ .inl given, fun _ ↦ min_le_left _ _⟩
  · rw [if_neg given, top_le_iff]
    exact ⟨.inr, fun h ↦ h.resolve_left given⟩

/-- A parameter between two constants; the second constant is the smaller one. -/
def manyThenFew : List RowCount := [.constant 20, .parameter ⟨0, "rows"⟩, .constant 10]

/-- Bound to 15 the parameter allows more rows than the constant after it, which a further take
of the parameter does not change. -/
theorem most_limits_le_iff_of_manyThenFew :
    (∀ n ∈ manyThenFew, n.IsGiven fun _ ↦ some 15) ∧
      ∃ s d₁ t d₂, limits ⟨{}, {}⟩ true manyThenFew {} = .ok (s, d₁) ∧
        limits ⟨{}, {}⟩ true (manyThenFew ++ [.parameter ⟨0, "rows"⟩]) {} = .ok (t, d₂) ∧
        t.select.most (fun _ ↦ some 15) .empty ≤ s.select.most (fun _ ↦ some 15) .empty ∧
        s.select.most (fun _ ↦ some 15) .empty = 10 := by
  have given : ∀ n ∈ manyThenFew, n.IsGiven fun _ ↦ some 15 := by
    simp [manyThenFew, RowCount.IsGiven, RowCount.value]
  obtain ⟨s, d₁, t, d₂, hs, ht, tightened, least⟩ :=
    most_limits_le_iff (fun _ ↦ some 15) .empty ⟨{}, {}⟩ true manyThenFew
      (.parameter ⟨0, "rows"⟩) {}
  exact ⟨given, s, d₁, t, d₂, hs, ht, tightened.2 (.inl rfl), (least given).trans (by decide)⟩

/-- A limit of ten rows is gone after a take of a parameter that is NULL. -/
theorem most_limits_of_null :
    ∃ s d₁ t d₂, limits ⟨{}, {}⟩ true [.constant 10] {} = .ok (s, d₁) ∧
      limits ⟨{}, {}⟩ true [.constant 10, .parameter ⟨0, "rows"⟩] {} = .ok (t, d₂) ∧
      s.select.most (fun _ ↦ none) .empty = 10 ∧
      t.select.most (fun _ ↦ none) .empty = ⊤ := by
  obtain ⟨s, d₁, hs⟩ := exists_limits [.constant 10] ⟨{}, {}⟩ true {}
  obtain ⟨t, d₂, ht⟩ := exists_limits [.parameter ⟨0, "rows"⟩] s false d₁
  have both : limits ⟨{}, {}⟩ true [.constant 10, .parameter ⟨0, "rows"⟩] {} = .ok (t, d₂) :=
    limits_append_ok.2 ⟨s, d₁, hs, ht⟩
  refine ⟨s, d₁, t, d₂, hs, both, ?_, ?_⟩
  · exact most_limits (by simp [RowCount.IsGiven, RowCount.value]) hs
  · obtain ⟨u, d₃, t', d₄, hu, hl, last⟩ := limits_cons_ok.1 ht
    obtain ⟨rfl, rfl⟩ := pure_ok.1 last
    exact most_limit hu hl

end Compiled

namespace Relation

/-- Takes of some numbers of rows, one after the other. -/
def takes (r : Relation) (counts : List RowCount) : Relation :=
  counts.foldl (fun r n ↦ .take r n.toScalar) r

variable {server : Server} {rest : List Strategy} {r : Relation} {c c' : Compiled} {d₁ d₂ : Draft}

/-- A server with limits takes rows by limiting the select of their source. -/
theorem draft_take {count : Scalar} {u : Tree} (hl : server.limit = true)
    (hr : r.draft server (.native :: rest) d = .ok (some c, d₁))
    (hu : scalar [] count d₁ = .ok (u, d₂))
    (h : c.limit u (!r.isPaging) d₂ = .ok (c', d')) :
    (take r count).draft server (.native :: rest) d = .ok (some c', d') := by
  have attempt : Strategy.attemptPage server server.limit (r.draft server (.native :: rest))
      (fun c ↦ do c.limit (← Draft.scalar [] count) !r.isPaging) none (some count) .native d =
        .ok (some c', d') := by
    rw [Strategy.attemptPage, if_pos hl]
    exact bind_ok.2 ⟨some c, d₁, hr, bind_ok.2 ⟨c', d', bind_ok.2 ⟨u, d₂, hu, h⟩, rfl⟩⟩
  exact bind_ok.2 ⟨some c', d', attempt, rfl⟩

/-- Takes of a relation limit its select by their counts. -/
theorem draft_takes {counts : List RowCount} (hl : server.limit = true)
    (hr : r.draft server (.native :: rest) d = .ok (some c, d₁))
    (h : c.limits (!r.isPaging) counts d₁ = .ok (c', d')) :
    (r.takes counts).draft server (.native :: rest) d = .ok (some c', d') := by
  induction counts generalizing r c d₁ with
  | nil =>
    obtain ⟨rfl, rfl⟩ := pure_ok.1 h
    exact hr
  | cons n counts ih =>
    obtain ⟨u, d₂, s, d₃, hu, hs, h⟩ := limits_cons_ok.1 h
    exact ih (draft_take hl hr hu hs) h

/-- After takes of counts that are not NULL, a statement has no more rows than any of them
allows. -/
theorem length_records_takes {counts : List RowCount} (hl : server.limit = true)
    (hr : r.draft server (.native :: rest) {} = .ok (some c, d₁))
    (given : ∀ n ∈ counts, n.IsGiven bound) :
    ∃ s, (r.takes counts).statement server (.native :: rest) = .ok s ∧
      ∀ m ∈ counts, ∀ n, m.value bound = some n →
        (s.tree.records (.integers bound) db).length ≤ n.toNat := by
  obtain ⟨c', d', h⟩ := exists_limits counts c (!r.isPaging) d₁
  have drafted := draft_takes hl hr h
  refine ⟨⟨d'.made (.select c'.select), c'.header, d'.withNode (.select c'.select)⟩, ?_,
    fun m hm n hn ↦ ?_⟩
  · exact bind_except_ok.2 ⟨(some c', d'), drafted, rfl⟩
  have counted : (n : WithTop Int) ∈ counts.map (·.most bound) :=
    List.mem_map.2 ⟨m, hm, by rw [RowCount.most, hn]; rfl⟩
  have allowed : c'.select.most bound db ≤ n := by
    rw [most_limits given h, List.foldl_min_eq_min (List.ne_nil_of_mem counted)]
    exact (min_le_right _ _).trans (List.min_le_of_mem counted)
  rw [records_made]
  exact Select.length_records_le allowed

end Relation

end SqlWright
