import SqlWright.Proofs.Command.Items

/-!
# Names and parts of a node as items

Names, parts that may be parenthesized, templates, lists of keys and the columns of an index are
itemized wherever they stand.
-/

namespace SqlWright
namespace Script

open Writing

variable {α : Type} {w : Script} {n : Node α} {m : Writer α → Writing Chain}

/-! ### Names -/

variable {outer : Option String}

theorem itemizes_identifier (name : String) : Itemizes w n outer [] fun _ ↦ w.identifier name :=
  .lift_bind fun _ h ↦ .text (.identifier h)

theorem itemizes_qualified (qualifier : Option String) (name : String) :
    Itemizes w n outer [] fun _ ↦ w.qualified qualifier name := by
  cases qualifier with
  | some q =>
    exact ((itemizes_identifier q).cons <| (Itemizes.phrase "." rfl).cons
      (itemizes_identifier name).single).congr fun k ↦ by simp [qualified, Writing.concat]
  | none => exact itemizes_identifier name

theorem itemizes_aliasClause (name : String) :
    Itemizes w n outer [] fun _ ↦ w.aliasClause name := by
  refine .lift_bind fun s h ↦ ?_
  exact (Itemizes.text (.tableAlias h)).append (itemizes_identifier name)

theorem itemizes_separated (separator : String) (hs : isPhrase separator = true) {γ : Type}
    {f : γ → Writer α → Writing Chain} {g : γ → List α} (l : List γ)
    (h : ∀ c ∈ l, Itemizes w n outer (g c) (f c)) :
    Itemizes w n outer (l.flatMap g) fun k ↦ separated separator (l.map fun c ↦ f c k) := by
  induction l with
  | nil => exact .nil
  | cons c l ih =>
    rw [List.forall_mem_cons] at h
    cases l with
    | nil => exact h.1.mono (by simp)
    | cons d l =>
      exact (h.1.cons <| (Itemizes.phrase separator hs).cons (ih h.2).single).congr fun k ↦ by
        simp [separated, Writing.concat]

/-! ### Parts -/

variable {u : α → Tree} {a : α} {hint : Option String}

/-- Child that looks like a tree, with a way to write it. -/
def partOf (u : α → Tree) (k : Writer α) (a : α) : Part := (u a, k a)

theorem itemizes_grouped (h : a ∈ n.children) (hh : w.HandsDown outer hint) :
    Itemizes w n outer [a] fun k ↦ grouped (partOf u k a) hint := by
  by_cases binary : (u a).binaryOp?.isSome
  · exact ((Itemizes.phrase "(" rfl).cons <| (Itemizes.part h hh).cons
      (Itemizes.phrase ")" rfl).single).congr fun k ↦ by
        simp [grouped, partOf, binary, Writing.concat]
  · exact (Itemizes.part h hh).congr fun k ↦ by simp [grouped, partOf, binary]

theorem itemizes_operand (parent : BinaryOp) (isRight : Bool) (h : a ∈ n.children)
    (hh : w.HandsDown outer hint) :
    Itemizes w n outer [a] fun k ↦ operand parent isRight (partOf u k a) hint := by
  by_cases separates : (u a).binaryOp?.any fun op ↦ parent.separates op isRight
  · exact (itemizes_grouped h hh).congr fun k ↦ if_pos separates
  · exact (Itemizes.part h hh).congr fun k ↦ if_neg separates

theorem itemizes_listed {as : List α} (h : ∀ a ∈ as, a ∈ n.children)
    (hh : w.HandsDown outer hint) :
    Itemizes w n outer as fun k ↦ listed (as.map (partOf u k)) hint := by
  have parts := itemizes_separated ", " rfl as fun a ha ↦
    Itemizes.part (w := w) (h a ha) hh
  refine (parts.mono (by simp)).congr fun k ↦ ?_
  rw [listed, List.map_map]
  rfl

theorem itemizes_clause (text : String) (ht : isPhrase text = true) {a? : Option α}
    (h : ∀ a ∈ a?, a ∈ n.children) (hh : w.HandsDown outer hint) :
    Itemizes w n outer a?.toList fun k ↦ clause text (a?.map (partOf u k)) hint := by
  cases a? with
  | none => exact .nil
  | some a => exact (Itemizes.phrase text ht).append (.part (h a rfl) hh)

/-- Text or argument of a template. -/
def templatePart (arg : Nat → Writing Chain) : TemplatePart → Writing Chain
  | .text s => return [.text s]
  | .arg i => arg i

theorem template_eq (parts : List TemplatePart) (arg : Nat → Writing Chain) :
    template parts arg = Writing.concat (parts.map (templatePart arg)) := by
  rw [template, Writing.concat, List.mapM_map]
  rfl

theorem itemizes_template {parts : List TemplatePart} {arg : Nat → Writer α → Writing Chain}
    {g : Nat → List α} (ht : ∀ s, .text s ∈ parts → w.Wording n outer s)
    (h : ∀ i, Itemizes w n outer (g i) (arg i)) :
    Itemizes w n outer ((parts.filterMap (·.index?)).flatMap g) fun k ↦
      template parts fun i ↦ arg i k := by
  simp only [template_eq]
  have part (p : TemplatePart) (hp : p ∈ parts) :
      Itemizes w n outer (p.index?.toList.flatMap g) fun k ↦
        templatePart (fun i ↦ arg i k) p := by
    cases p with
    | text s => exact .text (ht s hp)
    | arg i => exact (h i).mono (by simp [TemplatePart.index?])
  refine (Itemizes.concat parts part).mono fun a ha ↦ ?_
  obtain ⟨i, hi, mem⟩ := List.mem_flatMap.1 ha
  obtain ⟨p, hp, index⟩ := List.mem_filterMap.1 hi
  exact List.mem_flatMap.2 ⟨p, hp, List.mem_flatMap.2 ⟨i, Option.mem_toList.2 index, mem⟩⟩

theorem itemizes_unary (op : UnaryOp) (h : a ∈ n.children) (hh : w.HandsDown outer hint) :
    Itemizes w n outer [a] fun k ↦ unary op (partOf u k a) hint := by
  have around (before after : String) (hb : w.Wording n outer before)
      (ha : w.Wording n outer after) : Itemizes w n outer [a] fun k ↦ do
        return [Piece.text before] ++ (← k a hint) ++ [Piece.text after] :=
    ((Itemizes.text hb).cons <| (Itemizes.part h hh).cons (Itemizes.text ha).single).congr
      fun k ↦ by simp [Writing.concat]
  have operand : Itemizes w n outer [a] fun k ↦ grouped (partOf u k a) hint :=
    itemizes_grouped h hh
  have tested (after : String) (ha : isPhrase after = true) : Itemizes w n outer [a] fun k ↦ do
      return (← grouped (partOf u k a) hint) ++ [Piece.text after] :=
    (operand.append (.phrase after ha)).congr fun k ↦ by simp
  cases op with
  | negation => exact around "NOT (" ")" (.phrase rfl) (.phrase rfl)
  | negate => exact around "-(" ")" .minus (.phrase rfl)
  | isNull => exact tested " IS NULL" rfl
  | isNotNull => exact tested " IS NOT NULL" rfl
  | existence =>
    exact ((Itemizes.phrase "EXISTS " rfl).append (.part h hh)).congr fun k ↦ by
      simp [unary, partOf]

theorem itemizes_nullsPlace (nullsFirst : Option Bool) :
    Itemizes w n outer [] fun _ ↦ w.nullsPlace nullsFirst := by
  unfold nullsPlace
  cases nullsFirst with
  | none => exact .nil
  | some first =>
    refine .lift_bind fun b _ ↦ ?_
    cases b with
    | true => exact .phrase _ (by cases first <;> rfl)
    | false => exact .throw _

theorem itemizes_direction (ascending : Bool) :
    Itemizes w n outer [] fun _ ↦ pure (if ascending then [] else [.text " DESC"]) := by
  split
  · exact .nil
  · exact .phrase " DESC" rfl

theorem itemizes_ordering {keys : List (SortKey α)} (h : ∀ k ∈ keys, k.expr ∈ n.children)
    (hh : w.HandsDown outer hint) :
    Itemizes w n outer (keys.map (·.expr)) fun k ↦
      w.ordering (keys.map (·.map (partOf u k))) hint := by
  have key (x : SortKey α) (hx : x ∈ keys) : Itemizes w n outer [x.expr] fun k ↦
      Writing.concat [k x.expr hint, pure (if x.ascending then [] else [.text " DESC"]),
        w.nullsPlace x.nullsFirst] :=
    (Itemizes.part (h x hx) hh).cons <| (itemizes_direction x.ascending).cons
      (itemizes_nullsPlace x.nullsFirst).single
  rw [List.map_eq_flatMap]
  refine (itemizes_separated ", " rfl keys key).congr fun k ↦ ?_
  simp [ordering, Function.comp_def, SortKey.map, partOf, Writing.concat]

theorem itemizes_outputColumn {c : OutputColumn α} (h : c.expr ∈ n.children) :
    Itemizes w n outer [c.expr] fun k ↦ w.outputColumn (c.map (partOf u k)) := by
  obtain ⟨a, label⟩ := c
  have expr : Itemizes w n outer [a] fun k ↦ k a none := .part h .none
  cases label with
  | none => exact expr.congr fun k ↦ by simp [outputColumn, OutputColumn.map, partOf]
  | some name =>
    exact (expr.cons <| (Itemizes.phrase " AS " rfl).cons
      (itemizes_identifier name).single).congr fun k ↦ by
        simp [outputColumn, OutputColumn.map, partOf, Writing.concat]

theorem itemizes_source {a? : Option α} (h : ∀ a ∈ a?, a ∈ n.children)
    (hh : w.HandsDown outer hint) :
    Itemizes w n outer a?.toList fun k ↦ w.source (a?.map (partOf u k)) hint := by
  cases a? with
  | some a =>
    exact ((Itemizes.phrase " FROM " rfl).append (.part (h a rfl) hh)).congr fun k ↦ by
      simp [source, partOf]
  | none =>
    refine .lift_bind fun f hf ↦ ?_
    cases f with
    | table name => exact .text (.fromless hf)
    | omitted => exact .nil

theorem itemizes_rowNumber {keys : List (SortKey α)} (h : ∀ k ∈ keys, k.expr ∈ n.children)
    (hh : w.HandsDown outer hint) :
    Itemizes w n outer (keys.map (·.expr)) fun k ↦
      w.rowNumber (keys.map (·.map (partOf u k))) hint := by
  refine .lift_bind fun b _ ↦ ?_
  cases b with
  | false => exact .throw _
  | true =>
    have keyed : Itemizes w n outer (keys.map (·.expr)) fun k ↦
        w.ordering (keys.map (·.map (partOf u k))) hint := itemizes_ordering h hh
    by_cases none : keys.isEmpty
    · rw [List.isEmpty_iff] at none
      subst none
      exact ((Itemizes.phrase "ROW_NUMBER() OVER (" rfl).append (.phrase ")" rfl)).congr
        fun k ↦ rfl
    · exact (((Itemizes.phrase "ROW_NUMBER() OVER (" rfl).cons <|
        (Itemizes.phrase "ORDER BY " rfl).cons <|
        keyed.cons (Itemizes.phrase ")" rfl).single).mono (by simp)).congr fun k ↦ by
          simp [none, Writing.concat]

theorem itemizes_assignment {x : String × α} (h : x.2 ∈ n.children)
    (hh : w.HandsDown outer hint) :
    Itemizes w n outer [x.2] fun k ↦ w.assignment (x.1, partOf u k x.2) hint := by
  exact ((itemizes_identifier x.1).cons <| (Itemizes.phrase " = " rfl).cons
    (Itemizes.part h hh).single).congr fun k ↦ by simp [assignment, partOf, Writing.concat]

/-- Column of an index. -/
def indexColumn (w : Script) (c : IndexColumn) : Writing Chain :=
  return (← w.identifier c.name) ++ (if c.ascending then [] else [.text " DESC"])

/-- Chain of a clause that some servers have no words for. -/
def clauseChain : Option String → Chain
  | some clause => [.text clause]
  | none => []

/-- Clause that says how full the pages of an index are. -/
def fillClause (w : Script) (index : Index) : Writing Chain :=
  match index.fillFactor with
  | some percent => do return clauseChain (← w.spelling.fillFactor percent)
  | none => return []

theorem createIndex_eq (index : Index) : w.createIndex index = Writing.concat [
    pure [.text (if index.unique then "CREATE UNIQUE INDEX " else "CREATE INDEX ")],
    w.identifier index.name, pure [.text " ON "],
    w.qualified index.tableSchema index.tableName, pure [.text " ("],
    separated ", " (index.columns.map w.indexColumn), pure [.text ")"], w.fillClause index] := by
  have column : (fun c ↦ do return (← w.identifier c.name) ++
      (if c.ascending then [] else [.text " DESC"])) = w.indexColumn := rfl
  unfold createIndex
  rw [column]
  cases hf : index.fillFactor with
  | none => simp [Writing.concat, fillClause, hf]
  | some percent =>
    simp [Writing.concat, fillClause, hf]
    rfl

theorem itemizes_fillClause (index : Index) :
    Itemizes w n outer [] fun _ ↦ w.fillClause index := by
  unfold fillClause
  cases index.fillFactor with
  | none => exact .nil
  | some percent =>
    refine .lift_bind fun c hc ↦ ?_
    cases c with
    | none => exact .nil
    | some s => exact .text (.fillFactor hc)

theorem itemizes_createIndex (index : Index) :
    Itemizes w n outer [] fun _ ↦ w.createIndex index := by
  have column (c : IndexColumn) : Itemizes w n outer [] fun _ ↦ w.indexColumn c :=
    (itemizes_identifier c.name).append (itemizes_direction c.ascending)
  have columns : Itemizes w n outer [] fun _ ↦
      separated ", " (index.columns.map w.indexColumn) :=
    (itemizes_separated ", " rfl index.columns fun c _ ↦ column c).mono (List.nil_subset _)
  have opens : isPhrase (if index.unique then "CREATE UNIQUE INDEX " else "CREATE INDEX ") := by
    split <;> rfl
  simp only [createIndex_eq]
  exact (Itemizes.phrase _ opens).cons <| (itemizes_identifier index.name).cons <|
    (Itemizes.phrase " ON " rfl).cons <|
    (itemizes_qualified index.tableSchema index.tableName).cons <|
    (Itemizes.phrase " (" rfl).cons <| columns.cons <|
    (Itemizes.phrase ")" rfl).cons (itemizes_fillClause index).single

end Script
end SqlWright
