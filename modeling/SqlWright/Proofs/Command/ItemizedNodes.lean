import SqlWright.Proofs.Command.ItemizedSelects

/-!
# Nodes as items

What each kind of node is written as, as items, with all children of the node among them but
arguments that its template does not mention.
-/

namespace SqlWright
namespace Script

open Writing

variable {α : Type} {w : Script} {n : Node α} {outer hint : Option String} {u : α → Tree}

/-- Argument of a function, written as it is where the template is a call. -/
def functionArg (hint : Option String) (t : Template) (arg : Option Part) : Writing Chain :=
  match arg, t with
  | some c, .call _ => c.2 hint
  | some c, _ => grouped c hint
  | none, _ => return []

theorem itemizes_functionArg {a : Option α} (h : ∀ b ∈ a, b ∈ n.children) (t : Template)
    (hh : w.HandsDown outer hint) :
    Itemizes w n outer a.toList fun k ↦ functionArg hint t (a.map (partOf u k)) := by
  cases a with
  | none => exact .nil
  | some a =>
    have mem := h a rfl
    cases t with
    | call name => exact .part mem hh
    | _ => exact itemizes_grouped mem hh

theorem itemizes_function (f : ScalarFunction) {args : List α} (h : ∀ a ∈ args, a ∈ n.children)
    (hh : w.HandsDown outer hint) :
    Itemizes w n outer (w.spelling.links (.function f args)) fun k ↦
      w.node (.function f (args.map (partOf u k))) hint := by
  have arg (t : Template) (i : Nat) : Itemizes w n outer args[i]?.toList fun k ↦
      functionArg hint t (args.map (partOf u k))[i]? :=
    (itemizes_functionArg (fun a ha ↦ h a (List.mem_of_getElem? ha)) t hh).congr fun k ↦ by
      rw [List.getElem?_map]
  refine (Itemizes.lift_bind (x := w.spelling.functionTemplate f) fun t ht ↦
    (itemizes_template (fun s hs ↦ .function ht hs) (arg t)).mono ?_).congr fun k ↦ by
      rewrite [node, List.length_map]
      rfl
  rw [Spelling.links, ht]
  exact List.Subset.refl _

theorem itemizes_case {branches : List (α × α)} {otherwise : Option α}
    (h : ∀ b ∈ branches, b.1 ∈ n.children ∧ b.2 ∈ n.children)
    (ho : ∀ a ∈ otherwise, a ∈ n.children) (hh : w.HandsDown outer hint) :
    Itemizes w n outer (branches.flatMap (fun b ↦ [b.1, b.2]) ++ otherwise.toList) fun k ↦ w.node
      (.case (branches.map fun b ↦ (partOf u k b.1, partOf u k b.2)) (otherwise.map (partOf u k)))
      hint := by
  have branch (b : α × α) (hb : b ∈ branches) : Itemizes w n outer [b.1, b.2] fun k ↦
      Writing.concat [pure [.text " WHEN "], k b.1 hint, pure [.text " THEN "], k b.2 hint] :=
    (Itemizes.phrase " WHEN " rfl).cons <| (Itemizes.part (h b hb).1 hh).cons <|
      (Itemizes.phrase " THEN " rfl).cons <| (Itemizes.part (h b hb).2 hh).single
  have cases := Itemizes.concat branches branch
  have last : Itemizes w n outer otherwise.toList fun k ↦
      clause " ELSE " (otherwise.map (partOf u k)) hint := itemizes_clause " ELSE " rfl ho hh
  refine (((Itemizes.phrase "CASE" rfl).cons <| cases.cons <| last.cons <|
    (Itemizes.phrase " END" rfl).single).mono (by simp)).congr fun k ↦ ?_
  simp [node, Writing.concat, partOf, List.mapM_map, Function.comp_def]

theorem itemizes_binary (op : BinaryOp) {left right : α} (hl : left ∈ n.children)
    (hr : right ∈ n.children) (hh : w.HandsDown outer hint) :
    Itemizes w n outer (w.spelling.links (.binary op left right)) fun k ↦
      w.node (.binary op (partOf u k left) (partOf u k right)) hint := by
  have side (i : Nat) : Itemizes w n outer [if i = 0 then left else right] fun k ↦
      if i = 0 then operand op false (partOf u k left) hint
      else operand op true (partOf u k right) hint := by
    split
    · exact itemizes_operand op false hl hh
    · exact itemizes_operand op true hr hh
  refine Itemizes.lift_bind (x := w.spelling.operatorTemplate op) fun t ht ↦
    (itemizes_template (fun s hs ↦ .operator ht hs) side).mono ?_
  rw [Spelling.links, ht]
  exact List.Subset.refl _

theorem itemizes_aggregate (kind : AggregateKind) (distinct : Bool) {operand : Option α}
    (h : ∀ a ∈ operand, a ∈ n.children) (hh : w.HandsDown outer hint) :
    Itemizes w n outer operand.toList fun k ↦
      w.node (.aggregate kind distinct (operand.map (partOf u k))) hint := by
  have head : Itemizes w n outer [] fun _ ↦
      pure (if distinct then [.text "DISTINCT "] else []) := by
    split
    · exact .phrase "DISTINCT " rfl
    · exact .nil
  refine .lift_bind (x := w.spelling.aggregate kind) fun name hn ↦ ?_
  have opens : Itemizes w n outer [] fun _ ↦ pure [.text (name ++ "(")] := .text (.aggregate hn)
  cases operand with
  | none =>
    exact (opens.cons <| head.cons <| (Itemizes.phrase "*" rfl).cons <|
      (Itemizes.phrase ")" rfl).single).congr fun k ↦ by simp [Writing.concat]
  | some a =>
    exact (opens.cons <| head.cons <| (Itemizes.part (h a rfl) hh).cons <|
      (Itemizes.phrase ")" rfl).single).congr fun k ↦ by simp [Writing.concat, partOf]

theorem itemizes_table (schema : Option String) (name : String) (label : Option String) :
    Itemizes w n outer [] fun _ ↦ w.node (.table schema name label) outer := by
  have last : Itemizes w n outer [] fun _ ↦ pure [.text (outer.getD "")] := .text .hint
  cases label with
  | none =>
    exact ((itemizes_qualified schema name).cons last.single).congr fun k ↦ by
      simp [node, Writing.concat]
  | some a =>
    exact ((itemizes_qualified schema name).cons <| (itemizes_aliasClause a).cons
      last.single).congr fun k ↦ by simp [node, Writing.concat]

/-- A node is itemized, with all its children but arguments that its template does not mention:
what it is written as does not depend on how its children are written. -/
theorem itemizes_node (u : α → Tree) (hint : Option String) :
    Itemizes w n hint (w.spelling.links n) fun k ↦ w.node (n.map (partOf u k)) hint := by
  have text (s : String) (h : isPhrase s = true) : Itemizes w n hint [] fun _ ↦ pure [.text s] :=
    .phrase s h
  have part (a : α) (h : a ∈ n.children) : Itemizes w n hint [a] fun k ↦ k a hint := .part h .same
  have clause (s : String) (hs : isPhrase s = true) (a? : Option α) (h : ∀ a ∈ a?, a ∈ n.children) :
      Itemizes w n hint a?.toList fun k ↦ clause s (a?.map (partOf u k)) hint :=
    itemizes_clause s hs h .same
  have listed (as : List α) (h : ∀ a ∈ as, a ∈ n.children) :
      Itemizes w n hint as fun k ↦ listed (as.map (partOf u k)) hint := itemizes_listed h .same
  cases hn : n with
  | null => exact .phrase "NULL" rfl
  | literal value => exact .lift_bind fun s h ↦ .text (.literal h)
  | column qualifier name => exact itemizes_qualified qualifier name
  | «variable» name => exact .text (.variable rfl)
  | parameter p =>
    exact (Itemizes.items [.parameter p] (by simp [Item.IsOf, Offers])).congr fun k ↦ by
      simp [writeItems, Writing.concat, writeItem, Node.map, node]
  | placeholder id =>
    exact (Itemizes.items [.placeholder id] (by simp [Item.IsOf, Offers])).congr fun k ↦ by
      simp [writeItems, Writing.concat, writeItem, Node.map, node]
  | binary op left right =>
    exact itemizes_binary op (by simp [Node.children]) (by simp [Node.children]) .same
  | unary op operand => exact itemizes_unary op (by simp [Node.children]) .same
  | function f args => exact itemizes_function f (fun a ha ↦ ha) .same
  | aggregate kind distinct operand =>
    exact itemizes_aggregate kind distinct (fun a ha ↦ by simpa [Node.children] using ha) .same
  | cast operand type =>
    refine .lift_bind (x := w.types.find type) fun name h ↦ ?_
    subst hn
    exact ((text "CAST(" rfl).cons <| (part operand (by simp [Node.children])).cons
      (Itemizes.text (.cast h)).single).congr fun k ↦ by simp [Writing.concat, partOf]
  | case branches otherwise =>
    refine itemizes_case (fun b hb ↦ ⟨?_, ?_⟩) (fun a ha ↦ ?_) .same
    · exact List.mem_append_left _ (List.mem_flatMap.2 ⟨b, hb, by simp⟩)
    · exact List.mem_append_left _ (List.mem_flatMap.2 ⟨b, hb, by simp⟩)
    · exact List.mem_append_right _ (Option.mem_toList.2 ha)
  | row items =>
    subst hn
    exact (((text "(" rfl).cons <| (listed items fun a ha ↦ ha).cons
      (text ")" rfl).single).mono (by simp [Spelling.links, Node.children])).congr fun k ↦ by
        simp [node, Node.map, Writing.concat]
  | dynamicFilter id first others =>
    exact ((Itemizes.items [.dynamicFilter id (first :: others) hint]
      (by simp [Item.IsOf, Offers, HandsDown.same])).mono
        (by simp [Spelling.links, Node.children, Item.links])).congr fun k ↦ by
        simp [writeItems, Writing.concat, writeItem, Node.map, node, partOf, List.mapM_map,
          Function.comp_def]
  | subquery query =>
    subst hn
    exact ((text "(" rfl).cons <| (part query (by simp [Node.children])).cons
      (text ")" rfl).single).congr fun k ↦ by simp [node, Node.map, Writing.concat, partOf]
  | variant key main alternative =>
    exact (Itemizes.items [.variant key main alternative hint]
      (by simp [Item.IsOf, Offers, HandsDown.same])).congr fun k ↦ by
        simp [writeItems, Writing.concat, writeItem, Node.map, node, partOf]
  | rowNumber keys => exact itemizes_rowNumber (fun x hx ↦ List.mem_map_of_mem hx) .same
  | native text => exact .text (.native rfl)
  | table schema name label => exact itemizes_table schema name label
  | queryRef query name =>
    subst hn
    exact ((text "(" rfl).cons <| (part query (by simp [Node.children])).cons <|
      (text ")" rfl).cons (itemizes_aliasClause name).single).congr fun k ↦ by
        simp [node, Node.map, Writing.concat, partOf]
  | join kind left right on =>
    subst hn
    exact ((part left (by simp [Node.children])).cons <|
      (text (joinText kind) (by cases kind <;> rfl)).cons <|
      (part right (by simp [Node.children])).cons
      (clause " ON " rfl on (by simp +contextual [Node.children])).single).congr fun k ↦ by
        simp [node, Node.map, Writing.concat, partOf]
  | select s => exact itemizes_select fun a ha ↦ ha
  | insert target columns values =>
    subst hn
    have names : Itemizes w (.insert target columns values) hint [] fun _ ↦
        separated ", " (columns.map w.identifier) :=
      (itemizes_separated ", " rfl columns fun c _ ↦ itemizes_identifier c).mono (List.nil_subset _)
    exact (((text "INSERT INTO " rfl).cons <| (part target (by simp [Node.children])).cons <|
      (text " (" rfl).cons <| names.cons <| (text ") VALUES (" rfl).cons <|
      (listed values (by simp +contextual [Node.children])).cons
      (text ")" rfl).single).mono (by simp [Spelling.links, Node.children])).congr fun k ↦ by
        simp [node, Node.map, Writing.concat, partOf]
  | update target assignments filter =>
    subst hn
    have change (a : String × α) (ha : a ∈ assignments) :
        Itemizes w (.update target assignments filter) hint [a.2] fun k ↦
          w.assignment (a.1, partOf u k a.2) hint :=
      itemizes_assignment (by simp [Node.children, List.mem_map_of_mem ha]) .same
    have changes : Itemizes w (.update target assignments filter) hint
        (assignments.flatMap fun a ↦ [a.2]) fun k ↦ separated ", "
        ((assignments.map fun a ↦ (a.1, partOf u k a.2)).map fun a ↦ w.assignment a hint) :=
      (itemizes_separated ", " rfl assignments change).congr fun k ↦ by simp [Function.comp_def]
    exact (((text "UPDATE " rfl).cons <| (part target (by simp [Node.children])).cons <|
      (text " SET " rfl).cons <| changes.cons
      (clause " WHERE " rfl filter (by simp +contextual [Node.children])).single).mono
        (by simp [Spelling.links, Node.children, List.map_eq_flatMap])).congr fun k ↦ by
          simp [node, Node.map, Writing.concat, partOf]
  | delete target filter =>
    subst hn
    exact ((text "DELETE FROM " rfl).cons <| (part target (by simp [Node.children])).cons
      (clause " WHERE " rfl filter (by simp +contextual [Node.children])).single).congr fun k ↦ by
        simp [node, Node.map, Writing.concat, partOf]
  | createIndex index => exact itemizes_createIndex index

/-- A node is itemized. -/
theorem itemized_node (u : α → Tree) (hint : Option String) :
    IsItemized w n fun k ↦ w.node (n.map (partOf u k)) hint := (itemizes_node u hint).isItemized

end Script
end SqlWright
