import SqlWright.Proofs.Command.Speaking
import SqlWright.Proofs.Plan.Interning
import SqlWright.Spelling.OfDialect

/-!
# Parameters of plans

A plan has one parameter for each name of its document, and its relation has it wherever the
document has the name. So the parameters of a command of the relation are told apart by their
names.
-/

namespace SqlWright.Plan

/-- Names in order are sorted. -/
private theorem sorted_parameterNames (p : Plan) : p.parameterNames.Pairwise (· ≤ ·) := by
  have inOrder (a b : String) : (!decide (b < a)) = true ↔ a ≤ b := by
    rw [Bool.not_eq_true', decide_eq_false_iff_not, not_lt]
  have sorted : p.parameterNames.Pairwise fun a b ↦ !decide (b < a) := by
    refine List.pairwise_mergeSort (fun a b c hab hbc ↦ ?_) (fun a b ↦ ?_) _
    · exact (inOrder a c).2 (((inOrder a b).1 hab).trans ((inOrder b c).1 hbc))
    · rw [Bool.or_eq_true, inOrder, inOrder]
      exact le_total a b
  exact sorted.imp (inOrder _ _).1

/-- Of known parameters each has its own name. -/
theorem IsIndexed.parameter?_eq_some {p : Plan} (h : IsIndexed p.parameters) {name : String}
    {q : Parameter} : p.parameter? name = some q ↔ q ∈ p.parameters ∧ q.hint = name := by
  constructor
  · intro hq
    exact ⟨List.mem_of_find?_eq_some hq, by simpa using List.find?_some hq⟩
  · rintro ⟨mem, rfl⟩
    obtain ⟨q', hq'⟩ : ∃ q', p.parameter? q.hint = some q' := by
      rw [← Option.isSome_iff_exists, parameter?, List.find?_isSome]
      exact ⟨q, mem, by simp⟩
    have same : q'.hint = q.hint := by simpa using List.find?_some hq'
    rw [hq', h.eq_of_hint_eq (List.mem_of_find?_eq_some hq') mem same]

/-- A document that is built has its names resolved. -/
theorem Document.interns_build {d : Document} {p : Plan} (h : d.build = .ok p) :
    Interns d.query.names p.relation.parameters [] p.parameters := by
  obtain ⟨tables, -, h⟩ := bind_except_ok.1 h
  obtain ⟨⟨relation, parameters⟩, hr, ⟨⟩⟩ := bind_except_ok.1 h
  exact Query.interns_resolve hr

/-- The parameters of a plan are those that its document names, in the strict order of their
names; wherever the document has a name, the relation has the parameter of that name, and has one
parameter at two places exactly if the names are the same. So in every command of the relation each
parameter is that of a name of the document, and no two have one name. -/
theorem Document.build_parameters {d : Document} {p : Plan} (h : d.build = .ok p) :
    p.parameterNames.Pairwise (· < ·) ∧
    (∀ name, name ∈ p.parameterNames ↔ name ∈ d.query.names) ∧
    List.Forall₂ (fun name q ↦ p.parameter? name = some q) d.query.names p.relation.parameters ∧
    (∀ a ∈ d.query.names.zip p.relation.parameters, ∀ b ∈ d.query.names.zip p.relation.parameters,
      a.2.id = b.2.id ↔ a.1 = b.1) ∧
    ∀ (c : Compiler) (command : Command), c.command p.relation = .ok command →
      (∀ q ∈ command.parameters, ∃ name ∈ d.query.names, p.parameter? name = some q.1) ∧
      (command.parameters.map (·.1.hint)).Nodup := by
  have interns := interns_build h
  have indexed : IsIndexed p.parameters := interns.isIndexed .nil
  have used : ∀ q, q ∈ p.parameters ↔ q ∈ p.relation.parameters :=
    fun q ↦ ⟨fun hq ↦ (interns.added q hq).resolve_left nofun, interns.listed q⟩
  have known {q : Parameter} (hq : q ∈ p.relation.parameters) :
      p.parameter? q.hint = some q := indexed.parameter?_eq_some.2 ⟨interns.listed q hq, rfl⟩
  have places : List.Forall₂ (fun name q ↦ q ∈ p.relation.parameters ∧ name = q.hint) d.query.names
      p.relation.parameters := by
    rw [← interns.named, List.forall₂_map_left_iff, List.forall₂_same]
    exact fun q hq ↦ ⟨hq, rfl⟩
  have permuted : p.parameterNames.Perm (p.parameters.map (·.hint)) := List.mergeSort_perm _ _
  refine ⟨?_, fun name ↦ ?_, ?_, ?_, fun c command hc ↦ ?_⟩
  · have distinct : p.parameterNames.Pairwise (· ≠ ·) := permuted.nodup_iff.2 indexed.hints
    exact (p.sorted_parameterNames.and distinct).imp fun h ↦ lt_of_le_of_ne h.1 h.2
  · rw [permuted.mem_iff, ← interns.named, List.mem_map, List.mem_map]
    simp only [used]
  · exact places.imp fun name q hq ↦ hq.2 ▸ known hq.1
  · intro a ha b hb
    obtain ⟨ma, na⟩ := List.forall₂_zip places ha
    obtain ⟨mb, nb⟩ := List.forall₂_zip places hb
    rw [na, nb]
    have listed {q : Parameter} := interns.listed q
    exact ⟨fun same ↦ indexed.eq_of_id_eq (listed ma) (listed mb) same ▸ rfl,
      fun same ↦ indexed.eq_of_hint_eq (listed ma) (listed mb) same ▸ rfl⟩
  · obtain ⟨spoken, once⟩ := c.command_speaks hc
    refine ⟨fun q hq ↦ ⟨q.1.hint, ?_, known (spoken q hq)⟩, ?_⟩
    · rw [← interns.named]
      exact List.mem_map_of_mem (spoken q hq)
    · have told := List.pairwise_map.1 once
      refine List.pairwise_map.2 (told.imp_of_mem fun ha hb apart same ↦ apart ?_)
      have one := indexed.eq_of_hint_eq (interns.listed _ (spoken _ ha))
        (interns.listed _ (spoken _ hb)) same
      exact congrArg Parameter.id one

/-- Goods above a low mark, or below a high one that is not the low one. -/
def Document.twoMarks : Document where
  tables := [⟨none, "goods", [⟨"size", .int32, false⟩], ["size"]⟩]
  query :=
    .filter (.index "goods") (.binary .or (.binary .gt (.column 0) (.parameter "low"))
      (.binary .and (.binary .lt (.column 0) (.parameter "high"))
        (.binary .notEq (.parameter "high") (.parameter "low"))))

/-- Plan of the document. -/
def twoMarks : Plan where
  relation :=
    .filter (.table ⟨none, "goods", [⟨"size", .int32, false⟩], [0]⟩)
      (.binary .or (.binary .gt (.column 0) (.parameter ⟨0, "low"⟩))
        (.binary .and (.binary .lt (.column 0) (.parameter ⟨1, "high"⟩))
          (.binary .notEq (.parameter ⟨1, "high"⟩) (.parameter ⟨0, "low"⟩))))
  parameters := [⟨0, "low"⟩, ⟨1, "high"⟩]

/-- Of four places there are two parameters, in the plan and in its command. -/
theorem Document.build_parameters_of_twoMarks :
    Document.twoMarks.build = .ok Plan.twoMarks ∧
      Document.twoMarks.query.names = ["low", "high", "high", "low"] ∧
      Plan.twoMarks.parameterNames.Pairwise (· < ·) ∧
      ∃ c command, Compiler.build .postgreSql ⟨9, 0⟩ Simplification.standard = .ok c ∧
        c.command Plan.twoMarks.relation = .ok command ∧
        command.parameters = [(⟨0, "low"⟩, "@p0"), (⟨1, "high"⟩, "@p1")] ∧
        (command.parameters.map (·.1.hint)).Nodup := by
  have built : Document.twoMarks.build = .ok Plan.twoMarks := rfl
  obtain ⟨sorted, -, -, -, commands⟩ := build_parameters built
  have listed : ((Compiler.standard .postgreSql ⟨9, 0⟩).command Plan.twoMarks.relation).toOption.map
      (·.parameters) = some [(⟨0, "low"⟩, "@p0"), (⟨1, "high"⟩, "@p1")] := by decide +kernel
  refine ⟨built, rfl, sorted, .standard .postgreSql ⟨9, 0⟩, ?_⟩
  cases hc : (Compiler.standard .postgreSql ⟨9, 0⟩).command Plan.twoMarks.relation with
  | error e =>
    rw [hc] at listed
    cases listed
  | ok command =>
    rw [hc] at listed
    exact ⟨command, Compiler.build_standard (by decide), rfl, Option.some.inj listed,
      (commands _ command hc).2⟩

end SqlWright.Plan
