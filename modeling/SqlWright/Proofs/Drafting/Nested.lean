import SqlWright.Proofs.Drafting.Outcome
import SqlWright.Proofs.Drafting.Parts

/-!
# Nested selects

The selects of a statement are that of the relation, the derived tables that selects of its parts
become, and selects of its parts with numbers of their rows; all orderings of row numbers are those
of the latter. So what every select and every numbering of a statement satisfies is read off the
selects of the parts (`Relation.statement_everywhere`). First of it: a derived table that gives all
its rows has no ordering.
-/

namespace SqlWright

variable {d d' : Draft} {c : Compiled}

open Drafting Draft Compiled SqlWright.Tree

/-- Conditions on the selects of a statement, on those that are derived tables and on the keys that
rows are numbered by. -/
structure SelectConditions where
  select : Select Tree → Prop
  derived : Select Tree → Prop
  numbering : List (SortKey Tree) → Prop

/-- The node satisfies the conditions that are on it. -/
def Node.Meets (k : SelectConditions) : Node Tree → Prop
  | .select s => k.select s
  | .queryRef q _ => ∀ s, q.node = .select s → k.derived s
  | .rowNumber keys => k.numbering keys
  | _ => True

/-- What is nested of the select in others satisfies the conditions: the select as a derived table
and, if its rows are numbered, the keys they are numbered by and the select with the numbers. -/
structure Compiled.NestsMeeting (k : SelectConditions) (isNumbered : Prop) (c : Compiled) :
    Prop where
  select : k.select c.derived
  derived : k.derived c.derived
  numbering : isNumbered → k.numbering c.numberingOrder
  selectNumbered (number : Tree) : k.select (c.withNumbers number)
  derivedNumbered (number : Tree) : k.derived (c.withNumbers number)

variable {k : SelectConditions}

theorem Node.meets_of_isRowwise {n : Node Tree} (h : n.isRowwise) : n.Meets k := by
  cases n with
  | select _ | queryRef _ _ | rowNumber _ => cases h
  | _ => trivial

/-- Where no select is nested and no rows are numbered, the conditions ask nothing. -/
theorem Tree.pervadesFlat_meets (k : SelectConditions) :
    PervadesFlat (fun _ ↦ True) (fun _ ↦ True) (Everywhere (Node.Meets k))
      (Everywhere (Node.Meets k)) where
  rowwise _ ht _ hc := .mk (Node.meets_of_isRowwise ht) hc
  column _ _ _ := .mk trivial nofun
  aggregate _ _ _ ho := .mk trivial (by simpa [children, node, Node.children] using ho)
  table _ _ _ _ := .mk trivial nofun
  native _ _ _ _ _ := by
    refine .mk (fun s e ↦ by cases e) fun t ht ↦ ?_
    cases List.mem_singleton.1 ht
    exact .mk trivial nofun
  join _ _ _ _ _ hl hr hon :=
    .mk trivial (by simpa [children, node, Node.children, hl, hr] using hon)

/-- A derived table satisfies the conditions if its select does, on its own and as a derived
table. -/
private theorem everywhere_queryRef {s : Select Tree} {i j : Nat} {label : String}
    (derived : k.derived s) (he : (Tree.mk i (.select s)).Everywhere (Node.Meets k)) :
    (Tree.mk j (.queryRef (.mk i (.select s)) label)).Everywhere (Node.Meets k) := by
  refine .mk (fun s' e ↦ ?_) fun t ht ↦ ?_
  · cases e
    exact derived
  · cases List.mem_singleton.1 ht
    exact he

theorem Compiled.ConsistsOf.nests_of_meeting {isNumbered : Prop}
    (hc : c.ConsistsOf (Everywhere (Node.Meets k)) (Everywhere (Node.Meets k)))
    (h : c.NestsMeeting k isNumbered) :
    c.Nests (Everywhere (Node.Meets k)) (Everywhere (Node.Meets k)) isNumbered := by
  have number (i : Nat) (numbers : isNumbered) :
      (Tree.mk i (.rowNumber c.numberingOrder)).Everywhere (Node.Meets k) := by
    refine .mk (h.numbering numbers) fun t ht ↦ ?_
    obtain ⟨key, hk, rfl⟩ := List.mem_map.1 ht
    exact hc.columns.numberingOrder key hk
  exact {
    derived := fun i _ _ ↦ everywhere_queryRef h.derived
      (.select i h.select hc.derived.source hc.derived.expressions)
    number
    numbered := fun i _ n _ numbers ↦
      have numbered := hc.withNumbers (number n numbers)
      everywhere_queryRef (h.derivedNumbered _)
        (.select i (h.selectNumbered _) numbered.source numbered.expressions) }

namespace Relation

variable {r : Relation} {server : Server} {strategies : List Strategy} {s : Statement}

/-- Conditions hold everywhere in a statement if what is nested of the parts satisfies them and the
outermost select does. -/
theorem statement_everywhere (h : r.statement server strategies = .ok s)
    (nested : ∀ p ∈ r.parts, ∀ {d c d'}, p.Drafted server d c d' → c.NestsMeeting k (r.Pages p))
    (outermost : ∀ {d c d'}, r.Drafted server d c d' → k.select c.select) :
    s.tree.Everywhere (Node.Meets k) := by
  obtain ⟨c, d, hc, rfl⟩ := statement_ok h
  have drafted := drafted_of_draft hc
  have made := drafted.consistsOf_nested (pervadesFlat_meets k)
    (fun p hp _ _ _ hd consists ↦ consists.nests_of_meeting (nested p hp hd))
    (fun _ _ _ ↦ trivial) (fun _ _ ↦ trivial)
  exact .select _ (outermost drafted) made.source made.expressions

/-! ### Orderings of derived tables -/

/-- Derived tables are not ordered unless they give a part of their rows. -/
private def unordered : SelectConditions where
  select _ := True
  derived s := s.orderBy = [] ∨ s.isPaged
  numbering _ := True

private theorem nestsMeeting_unordered (c : Compiled) (isNumbered : Prop) :
    c.NestsMeeting unordered isNumbered where
  select := trivial
  derived := by
    unfold Compiled.derived
    split
    · next paged => exact .inr paged
    · exact .inl rfl
  numbering _ := trivial
  selectNumbered _ := trivial
  derivedNumbered number := by
    simp only [unordered, withNumbers]
    split
    · next paged => exact .inr paged
    · exact .inl rfl

/-- Each select that is a derived table in a statement, at any depth, has an ordering only beside a
limit or an offset. -/
theorem derived_orderBy_eq_nil (h : r.statement server strategies = .ok s) :
    s.tree.Everywhere fun n ↦ ∀ q label t, n = .queryRef q label → q.node = .select t →
      t.limit = none → t.offset = none → t.orderBy = [] := by
  have meets := statement_everywhere h (fun _ _ _ _ _ _ ↦ nestsMeeting_unordered _ _)
    fun _ ↦ trivial
  refine meets.mono fun n hn q label t hq ht limit offset ↦ ?_
  subst hq
  refine (hn t ht).resolve_right ?_
  simp [Select.isPaged, limit, offset]

/-- The first rows of a sorted table beside its different rows, which were sorted before. -/
def firstBesideDifferent : Relation :=
  let t : Table := ⟨none, "t", [⟨"id", .int32, false⟩, ⟨"value", .int32, true⟩], [0]⟩
  let sorted : Relation := sort (table t) [⟨1, true⟩]
  filter (join (take sorted (.constant (.integer 5))) (distinct sorted) .inner [(0, 0)])
    (.unary .isNotNull (.column 1))

/-- One of the derived tables is limited and keeps its ordering, the other one loses it. -/
theorem derived_orderBy_eq_nil_of_firstBesideDifferent :
    ∃ s, firstBesideDifferent.statement (.capabilities .sqlServer ⟨9, 0⟩) Strategy.standard = .ok s ∧
      s.tree.Everywhere fun n ↦ ∀ q label t, n = .queryRef q label → q.node = .select t →
        t.limit = none → t.offset = none → t.orderBy = [] := by
  have taken : firstBesideDifferent.Taken (.capabilities .sqlServer ⟨9, 0⟩) Strategy.standard := by
    simp [firstBesideDifferent, Taken, PageTaken, Strategy.standard, Server.capabilities]
  have wellFormed : firstBesideDifferent.WellFormed := by
    simp [firstBesideDifferent, WellFormed, width, Scalar.Fits]
  obtain ⟨s, hs⟩ := exists_statement_iff.2 ⟨taken, wellFormed⟩
  exact ⟨s, hs, derived_orderBy_eq_nil hs⟩

end Relation

end SqlWright
