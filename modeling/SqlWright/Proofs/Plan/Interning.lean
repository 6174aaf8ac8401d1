import Mathlib.Data.List.Nodup
import SqlWright.Plan.Build
import SqlWright.Proofs.Command.ItemizedNodes
import SqlWright.Proofs.Relation.Parameters

/-!
# Interning of parameters

The names of a query are resolved one after the other, in the order in which the query is read.
Each is looked up among the parameters that are known, and makes a new one at their end if it is
not there. So what is resolved has a parameter in the place of each name, and those of one name
are one.
-/

namespace SqlWright.Plan

mutual

/-- Names of the parameters of an expression, place by place. -/
def Expr.names : Expr → List String
  | .parameter name => [name]
  | .binary _ left right => left.names ++ right.names
  | .unary _ operand => operand.names
  | .function _ args => Expr.allNames args
  | .inList _ columns => Expr.allNames columns
  | .column _ | .value _ | .null | .placeholder _ | .typeIs _ _ => []

/-- Names of the parameters of expressions one after the other. -/
def Expr.allNames : List Expr → List String
  | [] => []
  | e :: rest => e.names ++ Expr.allNames rest

end

/-- Names of the parameters of a query, place by place and those of its sources first. -/
def Query.names : Query → List String
  | .index _ | .raw _ _ => []
  | .filter q e | .take q e | .skip q e => q.names ++ e.names
  | .calculate q columns => q.names ++ columns.flatMap (·.expr.names)
  | .join a b _ _ => a.names ++ b.names
  | .paging q leaving taking => q.names ++ leaving.names ++ taking.names
  | .select q _ | .aggregate q _ _ | .sort q _ | .distinct q | .lock q _ => q.names

variable {names names' : List String} {used used' known known' known₁ : List Parameter}

/-- Known parameters have the positions for identities, and no two have one name. -/
structure IsIndexed (known : List Parameter) : Prop where
  ids : known.map (·.id) = List.range known.length
  hints : (known.map (·.hint)).Nodup

namespace IsIndexed

theorem nil : IsIndexed [] := ⟨rfl, .nil⟩

/-- A new name gets the next position. -/
theorem append {name : String} (h : IsIndexed known) (fresh : name ∉ known.map (·.hint)) :
    IsIndexed (known ++ [⟨known.length, name⟩]) where
  ids := by simp [h.ids, List.range_succ]
  hints := by
    rw [List.map_append, List.nodup_append]
    refine ⟨h.hints, by simp, ?_⟩
    rintro a ha b hb rfl
    obtain rfl : a = name := by simpa using hb
    exact fresh ha

/-- Parameters of one name are one. -/
theorem eq_of_hint_eq (h : IsIndexed known) {p q : Parameter} (hp : p ∈ known) (hq : q ∈ known)
    (same : p.hint = q.hint) : p = q := List.inj_on_of_nodup_map h.hints hp hq same

/-- Parameters of one identity are one. -/
theorem eq_of_id_eq (h : IsIndexed known) {p q : Parameter} (hp : p ∈ known) (hq : q ∈ known)
    (same : p.id = q.id) : p = q :=
  List.inj_on_of_nodup_map (h.ids ▸ List.nodup_range) hp hq same

end IsIndexed

/-- Interning takes known parameters to others: names are resolved to parameters that are used,
and all that becomes known is used. -/
structure Interns (names : List String) (used known known' : List Parameter) : Prop where
  named : used.map (·.hint) = names
  grows : known <+: known'
  listed : ∀ p ∈ used, p ∈ known'
  added : ∀ p ∈ known', p ∈ known ∨ p ∈ used
  isIndexed : IsIndexed known → IsIndexed known'

namespace Interns

theorem nil : Interns [] [] known known :=
  ⟨rfl, List.prefix_rfl, nofun, fun _ ↦ .inl, id⟩

theorem append (h : Interns names used known known₁) (h' : Interns names' used' known₁ known') :
    Interns (names ++ names') (used ++ used') known known' where
  named := by rw [List.map_append, h.named, h'.named]
  grows := h.grows.trans h'.grows
  listed := List.forall_mem_append.2 ⟨fun p hp ↦ h'.grows.subset (h.listed p hp), h'.listed⟩
  added p hp := by
    rw [List.mem_append, ← or_assoc]
    exact (h'.added p hp).imp_left (h.added p)
  isIndexed := h'.isIndexed ∘ h.isIndexed

/-- A name is that of the one parameter that it resolves to. -/
theorem intern (name : String) (known : List Parameter) :
    Interns [name] [(Plan.intern name known).1] known (Plan.intern name known).2 := by
  unfold Plan.intern
  split
  · next p hp =>
    have hint : p.hint = name := by simpa using List.find?_some hp
    have mem := List.mem_of_find?_eq_some hp
    exact ⟨by simp [hint], List.prefix_rfl, by simpa using mem, fun _ ↦ .inl, id⟩
  · next none =>
    refine ⟨rfl, List.prefix_append known _, by simp, by simp, fun h ↦ h.append ?_⟩
    simpa [List.find?_eq_none] using none

end Interns

namespace Expr

mutual

/-- Each name of an expression is resolved. -/
theorem interns_resolve (e : Expr) (known : List Parameter) :
    Interns e.names (e.resolve known).1.parameters known (e.resolve known).2 := by
  match e with
  | .parameter name => exact .intern name known
  | .binary op left right =>
    exact (interns_resolve left known).append (interns_resolve right _)
  | .unary op operand => exact interns_resolve operand known
  | .function f args => exact interns_resolveAll args known
  | .inList id columns => exact interns_resolveAll columns known
  | .column _ | .value _ | .null | .placeholder _ | .typeIs _ _ => exact .nil

/-- Each name of some expressions is resolved. -/
theorem interns_resolveAll (es : List Expr) (known : List Parameter) :
    Interns (Expr.allNames es) (Scalar.allParameters (Expr.resolveAll es known).1) known
      (Expr.resolveAll es known).2 := by
  match es with
  | [] => exact .nil
  | e :: rest => exact (interns_resolve e known).append (interns_resolveAll rest _)

end

end Expr

/-- Each name of some computed columns is resolved. -/
theorem CalculationSpec.interns_resolve (columns : List CalculationSpec) (known : List Parameter) :
    Interns (columns.flatMap (·.expr.names))
      ((columns.mapM CalculationSpec.resolve known).1.flatMap (·.expr.parameters)) known
      (columns.mapM CalculationSpec.resolve known).2 := by
  induction columns generalizing known with
  | nil => exact .nil
  | cons c columns ih =>
    rw [List.mapM_cons]
    exact (c.expr.interns_resolve known).append (ih _)

namespace Query

variable {tables : List Table} {q : Query} {r : Relation}

/-- Work that cannot fail is done from what is known on. -/
private theorem run_ok {α : Type} {work : Interning α} {a : α} :
    resolve.run work known = .ok (a, known') ↔ (work known).1 = a ∧ (work known).2 = known' := by
  rw [resolve.run, Except.ok.injEq, Prod.ext_iff]

/-- Each name of a query is resolved. -/
theorem interns_resolve (h : q.resolve tables known = .ok (r, known')) :
    Interns q.names r.parameters known known' := by
  induction q generalizing known known' r with
  | index name =>
    simp only [resolve, Writing.bind_ok, Writing.lift_ok, Writing.pure_ok, Prod.mk.injEq] at h
    obtain ⟨t, _, ⟨-, rfl⟩, rfl, rfl⟩ := h
    exact .nil
  | raw sql columns =>
    simp only [resolve, Writing.pure_ok, Prod.mk.injEq] at h
    obtain ⟨rfl, rfl⟩ := h
    exact .nil
  | filter q e ih | take q e ih | skip q e ih =>
    simp only [resolve, Writing.bind_ok, Writing.pure_ok, run_ok, Prod.mk.injEq] at h
    obtain ⟨s, _, hs, _, _, ⟨rfl, rfl⟩, rfl, rfl⟩ := h
    exact (ih hs).append (e.interns_resolve _)
  | calculate q columns ih =>
    simp only [resolve, Writing.bind_ok, Writing.pure_ok, run_ok, Prod.mk.injEq] at h
    obtain ⟨s, _, hs, _, _, ⟨rfl, rfl⟩, rfl, rfl⟩ := h
    exact (ih hs).append (CalculationSpec.interns_resolve columns _)
  | join a b kind on iha ihb =>
    simp only [resolve, Writing.bind_ok, Writing.pure_ok, Prod.mk.injEq] at h
    obtain ⟨left, _, hl, right, _, hr, rfl, rfl⟩ := h
    exact (iha hl).append (ihb hr)
  | paging q leaving taking ih =>
    simp only [resolve, Writing.bind_ok, Writing.pure_ok, run_ok, Prod.mk.injEq] at h
    obtain ⟨s, _, hs, _, _, ⟨rfl, rfl⟩, _, _, ⟨rfl, rfl⟩, rfl, rfl⟩ := h
    exact ((ih hs).append (leaving.interns_resolve _)).append (taking.interns_resolve _)
  | select q _ ih | aggregate q _ _ ih | sort q _ ih | distinct q ih | lock q _ ih =>
    simp only [resolve, Writing.bind_ok, Writing.pure_ok, Prod.mk.injEq] at h
    obtain ⟨s, _, hs, rfl, rfl⟩ := h
    have resolved := ih hs
    exact resolved

end Query

end SqlWright.Plan
