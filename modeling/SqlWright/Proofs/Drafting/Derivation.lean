import SqlWright.Proofs.Drafting.Results

/-!
# Derivations of selects

`Relation.Drafted` lists the ways in which an operation becomes a select, one for each
operation and strategy. Whatever the strategies do, a select that they come to has a
derivation, so that an invariant of selects is proved by induction on derivations.
-/

namespace SqlWright

variable {α : Type} {d d' : Draft}

open Drafting Draft Compiled Strategy

/-! ### Attempts -/

/-- The change of the select of a source is a run of the source and of the change. -/
theorem Strategy.on_ok {source : Drafting (Option Compiled)}
    {change : Compiled → Drafting Compiled} {c : Compiled}
    (h : on source change d = .ok (some c, d')) :
    ∃ s d₁, source d = .ok (some s, d₁) ∧ change s d₁ = .ok (c, d') := by
  obtain ⟨o, d₁, hs, h⟩ := bind_ok.1 h
  cases o with
  | none => simp only [pure_ok, reduceCtorEq, false_and] at h
  | some s =>
    simp only [bind_ok, pure_ok, Option.some.injEq] at h
    obtain ⟨_, _, hc, rfl, rfl⟩ := h
    exact ⟨s, d₁, hs, hc⟩

/-- Only the native strategy takes what no other one does. -/
theorem Strategy.ifNative_ok {attempt : Drafting (Option Compiled)} {s : Strategy} {c : Compiled}
    (h : ifNative attempt s d = .ok (some c, d')) : attempt d = .ok (some c, d') := by
  cases s with
  | native => exact h
  | numberedPages => simp only [ifNative, pure_ok, reduceCtorEq, false_and] at h

/-- A page is made by clauses that the server has or by row numbers that it has. -/
theorem Strategy.attemptPage_ok {server : Server} {hasClauses : Bool}
    {source : Drafting (Option Compiled)} {change : Compiled → Drafting Compiled}
    {skip take : Option Scalar} {s : Strategy} {c : Compiled}
    (h : attemptPage server hasClauses source change skip take s d = .ok (some c, d')) :
    ∃ c₁ d₁, source d = .ok (some c₁, d₁) ∧
      (hasClauses ∧ change c₁ d₁ = .ok (c, d') ∨
        server.rowNumber ∧ c₁.numberedPage skip take d₁ = .ok (c, d')) := by
  cases s with
  | native =>
    simp only [attemptPage] at h
    split at h
    · next hc =>
      obtain ⟨c₁, d₁, hs, h⟩ := on_ok h
      exact ⟨c₁, d₁, hs, .inl ⟨hc, h⟩⟩
    · simp only [pure_ok, reduceCtorEq, false_and] at h
  | numberedPages =>
    simp only [attemptPage] at h
    split at h
    · next hr =>
      obtain ⟨c₁, d₁, hs, h⟩ := on_ok h
      exact ⟨c₁, d₁, hs, .inr ⟨hr, h⟩⟩
    · simp only [pure_ok, reduceCtorEq, false_and] at h

theorem Strategy.growing_on {source : Drafting (Option Compiled)}
    {change : Compiled → Drafting Compiled} (hs : Growing source)
    (hc : ∀ c, Growing (change c)) : Growing (on source change) := by
  refine hs.bind fun o ↦ ?_
  cases o with
  | none => exact .pure none
  | some c => exact (hc c).bind fun _ ↦ .pure _

theorem Strategy.growing_ifNative {attempt : Drafting (Option Compiled)} (h : Growing attempt)
    (s : Strategy) : Growing (ifNative attempt s) := by
  cases s with
  | native => exact h
  | numberedPages => exact .pure none

theorem Strategy.growing_attemptPage {server : Server} {hasClauses : Bool}
    {source : Drafting (Option Compiled)} {change : Compiled → Drafting Compiled}
    {skip take : Option Scalar} (hs : Growing source) (hc : ∀ c, Growing (change c))
    (s : Strategy) : Growing (attemptPage server hasClauses source change skip take s) := by
  cases s with
  | native => exact .ite (growing_on hs hc) (.pure none)
  | numberedPages =>
    exact .ite (growing_on hs fun c ↦ growing_numberedPage c skip take) (.pure none)

theorem Strategy.growing_firstOf {attempt : Strategy → Drafting (Option Compiled)}
    (h : ∀ s, Growing (attempt s)) : (strategies : List Strategy) →
      Growing (firstOf attempt strategies)
  | [] => .pure none
  | s :: rest => by
    refine (h s).bind fun o ↦ ?_
    cases o with
    | none => exact growing_firstOf h rest
    | some c => exact .pure (some c)

/-- The first result is that of one of the attempts, made when the others had failed. -/
theorem Strategy.firstOf_ok {attempt : Strategy → Drafting (Option Compiled)}
    (hg : ∀ s, Growing (attempt s)) {strategies : List Strategy} {c : Compiled}
    (h : firstOf attempt strategies d = .ok (some c, d')) :
    ∃ s d₁, d.Grows d₁ ∧ attempt s d₁ = .ok (some c, d') := by
  induction strategies generalizing d with
  | nil => simp only [firstOf, pure_ok, reduceCtorEq, false_and] at h
  | cons s rest ih =>
    obtain ⟨o, d₁, ha, h⟩ := bind_ok.1 h
    have g := (hg s).grows ha
    cases o with
    | none =>
      obtain ⟨s', d₂, g', h⟩ := ih h
      exact ⟨s', d₂, g.trans g', h⟩
    | some c' =>
      simp only [pure_ok, Option.some.injEq] at h
      obtain ⟨rfl, rfl⟩ := h
      exact ⟨s, d, .refl d, ha⟩

namespace Relation

/-- A relation is a page of another: its rows after some number and up to some number. -/
inductive IsPage (source : Relation) : Relation → Option Scalar → Option Scalar → Prop where
  | take (count : Scalar) : IsPage source (.take source count) none (some count)
  | skip (count : Scalar) : IsPage source (.skip source count) (some count) none
  | page (skip take : Scalar) : IsPage source (.page source skip take) (some skip) (some take)

/-- A relation becomes a select, and a draft another one. -/
inductive Drafted (server : Server) : Relation → Draft → Compiled → Draft → Prop where
  /-- Attempts that fail may leave nodes and aliases behind. -/
  | later {r : Relation} {d d₁ d' : Draft} {c : Compiled} : d.Grows d₁ →
      Drafted server r d₁ c d' → Drafted server r d c d'
  | table {t : Table} {d d' : Draft} {c : Compiled} : ofTable t d = .ok (c, d') →
      Drafted server (.table t) d c d'
  | native {sql : String} {header : Header} {d d' : Draft} {c : Compiled} :
      ofNative sql header d = .ok (c, d') → Drafted server (.native sql header) d c d'
  | filter {r : Relation} {e : Scalar} {d d₁ d₂ d' : Draft} {c w c' : Compiled} :
      Drafted server r d c d₁ → c.wrapFor .filter d₁ = .ok (w, d₂) →
      w.filter e d₂ = .ok (c', d') → Drafted server (.filter r e) d c' d'
  | project {r : Relation} {columns : List Nat} {d d₁ d' : Draft} {c w c' : Compiled} :
      Drafted server r d c d₁ → c.wrapFor .project d₁ = .ok (w, d') →
      w.project columns = .ok c' → Drafted server (.project r columns) d c' d'
  | extend {r : Relation} {columns : List Calculation} {d d₁ d₂ d' : Draft} {c w c' : Compiled} :
      Drafted server r d c d₁ → c.wrapFor .extend d₁ = .ok (w, d₂) →
      w.extend columns d₂ = .ok (c', d') → Drafted server (.extend r columns) d c' d'
  | join {a b : Relation} {type : JoinType} {pairs : List (Nat × Nat)} {d d₁ d₂ d' : Draft}
      {l r c : Compiled} : Drafted server a d l d₁ → Drafted server b d₁ r d₂ →
      l.join r type pairs d₂ = .ok (some c, d') → Drafted server (.join a b type pairs) d c d'
  | aggregate {r : Relation} {groupBy : List Nat} {aggregates : List Aggregation}
      {d d₁ d₂ d' : Draft} {c w c' : Compiled} :
      Drafted server r d c d₁ → c.wrapFor .aggregate d₁ = .ok (w, d₂) →
      w.aggregate groupBy aggregates d₂ = .ok (c', d') →
      Drafted server (.aggregate r groupBy aggregates) d c' d'
  | sort {r : Relation} {order : List SortItem} {d d₁ d' : Draft} {c w c' : Compiled} :
      Drafted server r d c d₁ → c.wrapFor .sort d₁ = .ok (w, d') →
      w.sort order = .ok c' → Drafted server (.sort r order) d c' d'
  | distinct {r : Relation} {d d₁ d' : Draft} {c w : Compiled} :
      Drafted server r d c d₁ → c.wrapFor .distinct d₁ = .ok (w, d') →
      Drafted server (.distinct r) d w.distinct d'
  | take {r : Relation} {count : Scalar} {t : Tree} {d d₁ d₂ d' : Draft} {c c' : Compiled} :
      server.limit → Drafted server r d c d₁ → scalar [] count d₁ = .ok (t, d₂) →
      c.limit t (!r.isPaging) d₂ = .ok (c', d') → Drafted server (.take r count) d c' d'
  | skip {r : Relation} {count : Scalar} {t : Tree} {d d₁ d₂ d₃ d' : Draft} {c w c' : Compiled} :
      server.offset → Drafted server r d c d₁ → c.wrapFor .skip d₁ = .ok (w, d₂) →
      scalar [] count d₂ = .ok (t, d₃) → w.offset t (!r.isPaging) d₃ = .ok (c', d') →
      Drafted server (.skip r count) d c' d'
  | page {r : Relation} {skip take : Scalar} {t u : Tree} {d d₁ d₂ d₃ d₄ d₅ d' : Draft}
      {c w s c' : Compiled} :
      server.limit → server.offset → Drafted server r d c d₁ →
      c.wrapFor .skip d₁ = .ok (w, d₂) → scalar [] skip d₂ = .ok (t, d₃) →
      w.offset t (!r.isPaging) d₃ = .ok (s, d₄) → scalar [] take d₄ = .ok (u, d₅) →
      s.limit u false d₅ = .ok (c', d') → Drafted server (.page r skip take) d c' d'
  | numbered {r p : Relation} {skip take : Option Scalar} {d d₁ d' : Draft} {c c' : Compiled} :
      server.rowNumber → r.IsPage p skip take → Drafted server r d c d₁ →
      c.numberedPage skip take d₁ = .ok (c', d') → Drafted server p d c' d'
  | lock {r : Relation} {l : Lock} {d d' : Draft} {c : Compiled} : Drafted server r d c d' →
      Drafted server (.lock r l) d (c.lock l) d'

variable {server : Server} {strategies : List Strategy}

private theorem growing_both {left right : Drafting (Option Compiled)} (hl : Growing left)
    (hr : Growing right) (type : JoinType) (pairs : List (Nat × Nat)) : Growing (do
      match ← left with
      | none => return none
      | some l =>
        match ← right with
        | none => return none
        | some r => l.join r type pairs) := by
  refine hl.bind fun l ↦ ?_
  cases l with
  | none => exact .pure none
  | some l =>
    refine hr.bind fun r ↦ ?_
    cases r with
    | none => exact .pure none
    | some r => exact growing_join l r type pairs

theorem growing_draft : (r : Relation) → Growing (r.draft server strategies)
  | .table t => growing_firstOf (growing_ifNative (.map some (growing_ofTable t))) _
  | .native sql header =>
    growing_firstOf (growing_ifNative (.map some (growing_ofNative sql header))) _
  | .filter r e =>
    growing_firstOf (growing_ifNative (growing_on (growing_draft r) fun c ↦
      (growing_wrapFor _ c).bind fun w ↦ growing_filter w e)) _
  | .project r _ =>
    growing_firstOf (growing_ifNative (growing_on (growing_draft r) fun c ↦
      (growing_wrapFor _ c).bind fun _ ↦ .lift _)) _
  | .extend r columns =>
    growing_firstOf (growing_ifNative (growing_on (growing_draft r) fun c ↦
      (growing_wrapFor _ c).bind fun w ↦ growing_extend w columns)) _
  | .join a b type pairs =>
    growing_firstOf (growing_ifNative
      (growing_both (growing_draft a) (growing_draft b) type pairs)) _
  | .aggregate r groupBy aggregates =>
    growing_firstOf (growing_ifNative (growing_on (growing_draft r) fun c ↦
      (growing_wrapFor _ c).bind fun w ↦ growing_aggregate w groupBy aggregates)) _
  | .sort r _ =>
    growing_firstOf (growing_ifNative (growing_on (growing_draft r) fun c ↦
      (growing_wrapFor _ c).bind fun _ ↦ .lift _)) _
  | .distinct r =>
    growing_firstOf (growing_ifNative (growing_on (growing_draft r) fun c ↦
      (growing_wrapFor _ c).bind fun _ ↦ .pure _)) _
  | .take r count =>
    growing_firstOf (growing_attemptPage (growing_draft r) fun c ↦
      (growing_scalar [] count).bind fun t ↦ growing_limit c t _) _
  | .skip r count =>
    growing_firstOf (growing_attemptPage (growing_draft r) fun c ↦
      (growing_wrapFor _ c).bind fun w ↦ (growing_scalar [] count).bind fun t ↦
        growing_offset w t _) _
  | .page r leaving taking =>
    growing_firstOf (growing_attemptPage (growing_draft r) fun c ↦
      (growing_wrapFor _ c).bind fun w ↦ (growing_scalar [] leaving).bind fun t ↦
        (growing_offset w t _).bind fun s ↦ (growing_scalar [] taking).bind fun u ↦
          growing_limit s u _) _
  | .lock r _ =>
    growing_firstOf (growing_ifNative (growing_on (growing_draft r) fun _ ↦ .pure _)) _

/-- A select that strategies come to has a derivation. -/
theorem drafted_of_draft {r : Relation} {c : Compiled}
    (h : r.draft server strategies d = .ok (some c, d')) : r.Drafted server d c d' := by
  induction r generalizing d c d' with
  | table t =>
    obtain ⟨s, d₁, g, h⟩ := firstOf_ok (growing_ifNative (.map some (growing_ofTable t))) h
    obtain ⟨_, h, hc⟩ := map_ok.1 (ifNative_ok h)
    cases hc
    exact .later g (.table h)
  | native sql header =>
    obtain ⟨s, d₁, g, h⟩ :=
      firstOf_ok (growing_ifNative (.map some (growing_ofNative sql header))) h
    obtain ⟨_, h, hc⟩ := map_ok.1 (ifNative_ok h)
    cases hc
    exact .later g (.native h)
  | filter r e ih =>
    obtain ⟨s, d₁, g, h⟩ := firstOf_ok (growing_ifNative (growing_on (growing_draft r) fun c ↦
      (growing_wrapFor _ c).bind fun w ↦ growing_filter w e)) h
    obtain ⟨c₁, d₂, hs, h⟩ := on_ok (ifNative_ok h)
    obtain ⟨w, d₃, hw, h⟩ := bind_ok.1 h
    exact .later g (.filter (ih hs) hw h)
  | project r columns ih =>
    obtain ⟨s, d₁, g, h⟩ := firstOf_ok (growing_ifNative (growing_on (growing_draft r) fun c ↦
      (growing_wrapFor _ c).bind fun _ ↦ .lift _)) h
    obtain ⟨c₁, d₂, hs, h⟩ := on_ok (ifNative_ok h)
    obtain ⟨w, d₃, hw, h⟩ := bind_ok.1 h
    obtain ⟨hp, rfl⟩ := lift_ok.1 h
    exact .later g (.project (ih hs) hw hp)
  | extend r columns ih =>
    obtain ⟨s, d₁, g, h⟩ := firstOf_ok (growing_ifNative (growing_on (growing_draft r) fun c ↦
      (growing_wrapFor _ c).bind fun w ↦ growing_extend w columns)) h
    obtain ⟨c₁, d₂, hs, h⟩ := on_ok (ifNative_ok h)
    obtain ⟨w, d₃, hw, h⟩ := bind_ok.1 h
    exact .later g (.extend (ih hs) hw h)
  | join a b type pairs iha ihb =>
    obtain ⟨s, d₁, g, h⟩ :=
      firstOf_ok (growing_ifNative (growing_both (growing_draft a) (growing_draft b) type pairs)) h
    obtain ⟨l, d₂, hl, h⟩ := bind_ok.1 (ifNative_ok h)
    cases l with
    | none => simp only [pure_ok, reduceCtorEq, false_and] at h
    | some l =>
      obtain ⟨r, d₃, hr, h⟩ := bind_ok.1 h
      cases r with
      | none => simp only [pure_ok, reduceCtorEq, false_and] at h
      | some r => exact .later g (.join (iha hl) (ihb hr) h)
  | aggregate r groupBy aggregates ih =>
    obtain ⟨s, d₁, g, h⟩ := firstOf_ok (growing_ifNative (growing_on (growing_draft r) fun c ↦
      (growing_wrapFor _ c).bind fun w ↦ growing_aggregate w groupBy aggregates)) h
    obtain ⟨c₁, d₂, hs, h⟩ := on_ok (ifNative_ok h)
    obtain ⟨w, d₃, hw, h⟩ := bind_ok.1 h
    exact .later g (.aggregate (ih hs) hw h)
  | sort r order ih =>
    obtain ⟨s, d₁, g, h⟩ := firstOf_ok (growing_ifNative (growing_on (growing_draft r) fun c ↦
      (growing_wrapFor _ c).bind fun _ ↦ .lift _)) h
    obtain ⟨c₁, d₂, hs, h⟩ := on_ok (ifNative_ok h)
    obtain ⟨w, d₃, hw, h⟩ := bind_ok.1 h
    obtain ⟨ho, rfl⟩ := lift_ok.1 h
    exact .later g (.sort (ih hs) hw ho)
  | distinct r ih =>
    obtain ⟨s, d₁, g, h⟩ := firstOf_ok (growing_ifNative (growing_on (growing_draft r) fun c ↦
      (growing_wrapFor _ c).bind fun _ ↦ .pure _)) h
    obtain ⟨c₁, d₂, hs, h⟩ := on_ok (ifNative_ok h)
    obtain ⟨w, d₃, hw, h⟩ := bind_ok.1 h
    obtain ⟨rfl, rfl⟩ := pure_ok.1 h
    exact .later g (.distinct (ih hs) hw)
  | take r count ih =>
    obtain ⟨s, d₁, g, h⟩ := firstOf_ok (growing_attemptPage (growing_draft r) fun c ↦
      (growing_scalar [] count).bind fun t ↦ growing_limit c t _) h
    obtain ⟨c₁, d₂, hs, ⟨hc, h⟩ | ⟨hc, h⟩⟩ := attemptPage_ok h
    · obtain ⟨t, d₃, ht, h⟩ := bind_ok.1 h
      exact .later g (.take hc (ih hs) ht h)
    · exact .later g (.numbered hc (.take count) (ih hs) h)
  | skip r count ih =>
    obtain ⟨s, d₁, g, h⟩ := firstOf_ok (growing_attemptPage (growing_draft r) fun c ↦
      (growing_wrapFor _ c).bind fun w ↦ (growing_scalar [] count).bind fun t ↦
        growing_offset w t _) h
    obtain ⟨c₁, d₂, hs, ⟨hc, h⟩ | ⟨hc, h⟩⟩ := attemptPage_ok h
    · obtain ⟨w, d₃, hw, h⟩ := bind_ok.1 h
      obtain ⟨t, d₄, ht, h⟩ := bind_ok.1 h
      exact .later g (.skip hc (ih hs) hw ht h)
    · exact .later g (.numbered hc (.skip count) (ih hs) h)
  | page r leaving taking ih =>
    obtain ⟨s, d₁, g, h⟩ := firstOf_ok (growing_attemptPage (growing_draft r) fun c ↦
      (growing_wrapFor _ c).bind fun w ↦ (growing_scalar [] leaving).bind fun t ↦
        (growing_offset w t _).bind fun s ↦ (growing_scalar [] taking).bind fun u ↦
          growing_limit s u _) h
    obtain ⟨c₁, d₂, hs, ⟨hc, h⟩ | ⟨hc, h⟩⟩ := attemptPage_ok h
    · rw [Bool.and_eq_true] at hc
      obtain ⟨w, d₃, hw, h⟩ := bind_ok.1 h
      obtain ⟨t, d₄, ht, h⟩ := bind_ok.1 h
      obtain ⟨skipped, d₅, hskip, h⟩ := bind_ok.1 h
      obtain ⟨u, d₆, hu, h⟩ := bind_ok.1 h
      exact .later g (.page hc.1 hc.2 (ih hs) hw ht hskip hu h)
    · exact .later g (.numbered hc (.page leaving taking) (ih hs) h)
  | lock r l ih =>
    obtain ⟨s, d₁, g, h⟩ := firstOf_ok (growing_ifNative (growing_on (growing_draft r)
      fun _ ↦ .pure _)) h
    obtain ⟨c₁, d₂, hs, h⟩ := on_ok (ifNative_ok h)
    obtain ⟨rfl, rfl⟩ := pure_ok.1 h
    exact .later g (.lock (ih hs))

/-- A statement is the select of a relation. -/
theorem statement_ok {r : Relation} {s : Statement} (h : r.statement server strategies = .ok s) :
    ∃ c d, r.draft server strategies {} = .ok (some c, d) ∧
      s = ⟨d.made (.select c.select), c.header, d.withNode (.select c.select)⟩ := by
  obtain ⟨⟨o, d⟩, hd, h⟩ := bind_except_ok.1 h
  cases o with
  | none => cases h
  | some c => exact ⟨c, d, hd, (Except.ok.inj h).symm⟩

/-- A derivation only adds to a draft. -/
theorem Drafted.grows {r : Relation} {c : Compiled} (h : r.Drafted server d c d') :
    d.Grows d' := by
  induction h with
  | later g _ ih => exact g.trans ih
  | table h => exact (growing_ofTable _).grows h
  | native h => exact (growing_ofNative _ _).grows h
  | filter _ hw h ih =>
    exact (ih.trans ((growing_wrapFor _ _).grows hw)).trans ((growing_filter _ _).grows h)
  | project _ hw _ ih => exact ih.trans ((growing_wrapFor _ _).grows hw)
  | extend _ hw h ih =>
    exact (ih.trans ((growing_wrapFor _ _).grows hw)).trans ((growing_extend _ _).grows h)
  | join _ _ h iha ihb => exact (iha.trans ihb).trans ((growing_join _ _ _ _).grows h)
  | aggregate _ hw h ih =>
    exact (ih.trans ((growing_wrapFor _ _).grows hw)).trans ((growing_aggregate _ _ _).grows h)
  | sort _ hw _ ih => exact ih.trans ((growing_wrapFor _ _).grows hw)
  | distinct _ hw ih => exact ih.trans ((growing_wrapFor _ _).grows hw)
  | take _ _ ht h ih =>
    exact (ih.trans ((growing_scalar _ _).grows ht)).trans ((growing_limit _ _ _).grows h)
  | skip _ _ hw ht h ih =>
    exact ((ih.trans ((growing_wrapFor _ _).grows hw)).trans ((growing_scalar _ _).grows ht)).trans
      ((growing_offset _ _ _).grows h)
  | page _ _ _ hw ht hs hu h ih =>
    exact ((((ih.trans ((growing_wrapFor _ _).grows hw)).trans ((growing_scalar _ _).grows ht)).trans
      ((growing_offset _ _ _).grows hs)).trans ((growing_scalar _ _).grows hu)).trans
      ((growing_limit _ _ _).grows h)
  | numbered _ _ _ h ih => exact ih.trans ((growing_numberedPage _ _ _).grows h)
  | lock _ ih => exact ih

end Relation

end SqlWright
