import SqlWright.Plan.Printer
import SqlWright.Plan.Reader
import SqlWright.Proofs.Plan.Elements

/-!
# Documents read back from their texts

A document is printed as JSON with all fields written out, and read with the limits that the reader
sets on how deep a text is nested. Expressions are nested two deep where one is in another, and
operations one deep, so a reader that goes as deep as the text is nested reads all of it.
-/

namespace SqlWright.Plan

open Json (IsForm)

/-! ### What documents hold -/

variable {P : Nat → Prop} {Q : Literal → Prop}

mutual

/-- The positions in an expression have a property, and its constants have one. -/
def Expr.Holds (P : Nat → Prop) (Q : Literal → Prop) : Expr → Prop
  | .column i | .typeIs i _ => P i
  | .value v => Q v
  | .null | .parameter _ | .placeholder _ => True
  | .binary _ left right => left.Holds P Q ∧ right.Holds P Q
  | .unary _ operand => operand.Holds P Q
  | .function _ es | .inList _ es => Expr.AllHold P Q es

/-- The positions and the constants in some expressions have the properties. -/
def Expr.AllHold (P : Nat → Prop) (Q : Literal → Prop) : List Expr → Prop
  | [] => True
  | e :: rest => e.Holds P Q ∧ Expr.AllHold P Q rest

end

/-- The positions and the constants in a query have the properties. -/
def Query.Hold (P : Nat → Prop) (Q : Literal → Prop) : Query → Prop
  | .index _ | .raw _ _ => True
  | .filter source e | .take source e | .skip source e => source.Hold P Q ∧ e.Holds P Q
  | .select source columns => source.Hold P Q ∧ ∀ i ∈ columns, P i
  | .calculate source columns => source.Hold P Q ∧ ∀ c ∈ columns, c.expr.Holds P Q
  | .join left right _ on => left.Hold P Q ∧ right.Hold P Q ∧ ∀ p ∈ on, P p.1 ∧ P p.2
  | .aggregate source groupBy aggregates =>
    source.Hold P Q ∧ (∀ i ∈ groupBy, P i) ∧ ∀ a ∈ aggregates, ∀ i ∈ a.column, P i
  | .sort source order => source.Hold P Q ∧ ∀ k ∈ order, P k.column
  | .distinct source | .lock source _ => source.Hold P Q
  | .paging source leaving taking =>
    source.Hold P Q ∧ leaving.Holds P Q ∧ taking.Holds P Q

/-- Positions have 64 bits. -/
def IsPosition (i : Nat) : Prop := i < UInt64.size

/-! ### Expressions -/

namespace Expr

variable {depth : Nat}

theorem isForm_choice {name : String} {content : Json} {e : Expr} (h : content.IsPlain)
    (read : ofJson? (depth + 1) (.ofFields [(name, content)]) = some e) :
    IsForm (ofJson? (depth + 1)) (.ofFields [(name, content)]) e :=
  ⟨Json.isPlain_fields (by simpa using h), read⟩

/-- The fields of a choice are nested two deep in it. -/
theorem nesting_chosen {name : String} {fields : List (String × Json)}
    (h : (chosen name fields).nesting ≤ depth + 1) :
    ∃ d, depth = d + 1 ∧ ∀ f ∈ fields, f.2.nesting ≤ d + 1 := by
  have content : (Json.ofFields fields).nesting ≤ depth :=
    Json.nesting_object_le.1 h (some name, .ofFields fields) (by simp)
  obtain ⟨d, rfl, nested⟩ := Json.nesting_ofFields content
  exact ⟨d, rfl, fun f hf ↦ Nat.le_succ_of_le (nested f hf)⟩

/-- A choice with fields is a form of what is read from its fields. -/
theorem isForm_chosen (name : String) (names : List String) (js : List Json) {e : Expr}
    (h : names.Nodup) (length : js.length = names.length) (plain : ∀ j ∈ js, j.IsPlain)
    (reads : ∀ {j record : Json}, j.choice? = some (name, some record) →
      record.fields? names = some (js.map some) → ofJson? (depth + 1) j = some e) :
    IsForm (ofJson? (depth + 1)) (chosen name (names.zip js)) e :=
  isForm_choice (Json.isPlain_fields fun f hf ↦ plain f.2 (List.of_mem_zip hf).2)
    (reads (Json.choice?_ofFields name _) (Json.fields?_ofFields h length))

mutual

/-- An expression is read from its form, as deep as that is nested. -/
theorem isForm (e : Expr) (depth : Nat) (h : e.Holds IsPosition Literal.ReadsBack)
    (nested : e.toJson.nesting ≤ depth + 1) : IsForm (ofJson? (depth + 1)) e.toJson e := by
  match e with
  | .column i =>
    have form := Json.isForm_position h
    refine isForm_choice form.plain ?_
    change (do return Expr.column (← (Json.ofNat i).position?)) = _
    rw [form.reads]
    rfl
  | .value v =>
    have form := Literal.isForm h
    refine isForm_choice form.plain ?_
    change (do return Expr.value (← Literal.ofJson? v.toJson)) = _
    rw [form.reads]
    rfl
  | .null => exact ⟨.string "null", rfl⟩
  | .parameter name => exact isForm_choice (.string name) rfl
  | .placeholder key => exact isForm_choice (.string key) rfl
  | .typeIs i type =>
    have index := Json.isForm_position h
    have name := Json.isForm_string type
    refine isForm_chosen "type_is" ["column", "type_name"] [.ofNat i, .ofString type]
      (by decide) rfl (by simp [index.plain, name.plain]) fun choice fields ↦ ?_
    rw [ofJson?, choice]
    simp [fields, Json.required?, index.reads, name.reads]
  | .binary op left right =>
    rw [toJson] at nested
    obtain ⟨d, rfl, fields⟩ := nesting_chosen nested
    simp only [List.forall_mem_cons] at fields
    have name : IsForm (Json.named? Json.isVoid BinaryOp.ofName?) (.ofString op.name) op :=
      Json.isForm_named (BinaryOp.ofName?_name op)
    have left' := isForm left d h.1 fields.2.1
    have right' := isForm right d h.2 fields.2.2.1
    refine isForm_chosen "binary" ["op", "left", "right"]
      [.ofString op.name, left.toJson, right.toJson] (by decide) rfl
      (by simp [name.plain, left'.plain, right'.plain]) fun choice fields ↦ ?_
    rw [ofJson?, choice]
    simp [fields, Json.required?, name.reads, left'.reads, right'.reads]
  | .unary op operand =>
    rw [toJson] at nested
    obtain ⟨d, rfl, fields⟩ := nesting_chosen nested
    simp only [List.forall_mem_cons] at fields
    have name : IsForm (Json.named? Json.isVoid UnaryOp.ofName?) (.ofString op.name) op :=
      Json.isForm_named (UnaryOp.ofName?_name op)
    have operand' := isForm operand d h fields.2.1
    refine isForm_chosen "unary" ["op", "operand"] [.ofString op.name, operand.toJson]
      (by decide) rfl (by simp [name.plain, operand'.plain]) fun choice fields ↦ ?_
    rw [ofJson?, choice]
    simp [fields, Json.required?, name.reads, operand'.reads]
  | .function f args =>
    rw [toJson] at nested
    obtain ⟨d, rfl, fields⟩ := nesting_chosen nested
    simp only [List.forall_mem_cons] at fields
    have name : IsForm (Json.named? Json.isVoid ScalarFunction.ofName?) (.ofString f.name) f :=
      Json.isForm_named (ScalarFunction.ofName?_name f)
    have args' := isForm_all args d h fun j hj ↦
      Nat.le_succ_of_le (Json.nesting_array_le.1 fields.2.1 j hj)
    refine isForm_chosen "function" ["function", "args"]
      [.ofString f.name, .array (listToJson args)] (by decide) rfl
      (by simp [name.plain, args'.plain]) fun choice fields ↦ ?_
    rw [ofJson?, choice]
    simp [fields, Json.required?, Json.withDefault?, name.reads, args'.reads]
  | .inList id columns =>
    rw [toJson] at nested
    obtain ⟨d, rfl, fields⟩ := nesting_chosen nested
    simp only [List.forall_mem_cons] at fields
    have name := Json.isForm_string id
    have columns' := isForm_all columns d h fun j hj ↦
      Nat.le_succ_of_le (Json.nesting_array_le.1 fields.2.1 j hj)
    refine isForm_chosen "in_list" ["id", "columns"] [.ofString id, .array (listToJson columns)]
      (by decide) rfl (by simp [name.plain, columns'.plain]) fun choice fields ↦ ?_
    rw [ofJson?, choice]
    simp [fields, Json.required?, name.reads, columns'.reads]

/-- Expressions are read from their forms. -/
theorem isForm_all (es : List Expr) (depth : Nat) (h : AllHold IsPosition Literal.ReadsBack es)
    (nested : ∀ j ∈ listToJson es, j.nesting ≤ depth + 1) :
    IsForm (Json.list? (ofJson? (depth + 1))) (.array (listToJson es)) es := by
  match es with
  | [] => exact ⟨.array nofun, rfl⟩
  | e :: rest =>
    exact (isForm e depth h.1 (nested _ List.mem_cons_self)).cons
      (isForm_all rest depth h.2 fun j hj ↦ nested j (List.mem_cons_of_mem _ hj))

end

end Expr

/-- A computed column is read from its form. -/
theorem CalculationSpec.isForm {c : CalculationSpec} {depth : Nat}
    (h : c.expr.Holds IsPosition Literal.ReadsBack) (nested : c.toJson.nesting ≤ depth + 1) :
    IsForm (ofJson? (depth + 1)) c.toJson c := by
  have inner := Json.nesting_object_le.1 (Nat.le_succ_of_le nested) (some "expr", c.expr.toJson)
    (by simp)
  have name := Json.isForm_string c.name
  have expr := c.expr.isForm depth h inner
  have type := SqlType.isForm isNothing_isVoid c.type
  refine Json.isForm_record ["name", "expr", "type"]
    [.ofString c.name, c.expr.toJson, c.type.toJson] (by decide) rfl
    (by simp [name.plain, expr.plain, type.plain]) fun fields ↦ ?_
  rw [ofJson?, fields]
  simp [Json.required?, name.reads, expr.reads, type.reads]

/-! ### Queries -/

theorem ofName?_joinName (kind : JoinType) : JoinType.ofName? kind.name = some kind := by
  cases kind <;> rfl

theorem isForm_positions {columns : List Nat} (h : ∀ i ∈ columns, IsPosition i) :
    IsForm (Json.list? (·.position?)) (positions columns) columns :=
  Json.isForm_list fun i hi ↦ Json.isForm_position (h i hi)

theorem isForm_pairs {on : List (Nat × Nat)} (h : ∀ p ∈ on, IsPosition p.1 ∧ IsPosition p.2) :
    IsForm (Json.list? (Json.pair? (·.position?)))
      (.array (on.map fun (l, r) ↦ positions [l, r])) on :=
  Json.isForm_list fun p hp ↦
    Json.isForm_pair (Json.isForm_position (h p hp).1) (Json.isForm_position (h p hp).2)

/-- The name of an operation is its tag, and its other fields are a record. -/
theorem tagged?_operation (name : String) {fields : List (String × Json)}
    (h : "op" ∉ fields.map (·.1)) :
    tagged? (operation name fields) = some (.ofString name, .ofFields fields) := by
  let members := fields.map fun f ↦ (some f.1, f.2)
  have others : ∀ m ∈ members, m.1 ≠ some "op" := by
    intro m hm same
    obtain ⟨f, hf, rfl⟩ := List.mem_map.1 hm
    exact h (List.mem_map.2 ⟨f, hf, Option.some.inj same⟩)
  have tag : Json.given ((some "op", .ofString name) :: members) "op" = [.ofString name] := by
    have none : Json.given members "op" = [] := by
      rw [Json.given, List.filterMap_eq_nil_iff]
      exact fun m hm ↦ if_neg (others m hm)
    simpa [Json.given] using none
  have rest : ((some "op", Json.ofString name) :: members).filter (·.1 ≠ some "op") = members := by
    rw [List.filter_cons_of_neg (by simp), List.filter_eq_self]
    exact fun m hm ↦ by simpa using others m hm
  change tagged? (.object ((some "op", .ofString name) :: members)) = _
  rw [tagged?, tag, rest]
  rfl

theorem operationName?_ofString (isOutermost : Bool) (name : String) :
    operationName? isOutermost (.ofString name) = some name := by
  cases isOutermost <;> rfl

namespace Query

variable {depth : Nat}

theorem nesting_pos (q : Query) : 0 < q.toJson.nesting := by
  cases q <;> simp [toJson, operation, Json.ofFields, Json.nesting]

/-- The fields of an operation are nested in it. -/
theorem nesting_operation {name : String} {fields : List (String × Json)}
    (h : (operation name fields).nesting ≤ depth) :
    ∃ d, depth = d + 1 ∧ ∀ f ∈ fields, f.2.nesting ≤ d := by
  obtain ⟨d, rfl, nested⟩ := Json.nesting_ofFields h
  exact ⟨d, rfl, fun f hf ↦ nested f (List.mem_cons_of_mem _ hf)⟩

/-- The fields of an operation on a source are nested in it, and the source has fields. -/
theorem nesting_source {name field : String} {source : Query} {fields : List (String × Json)}
    (h : (operation name ((field, source.toJson) :: fields)).nesting ≤ depth) :
    ∃ d, depth = d + 2 ∧ source.toJson.nesting ≤ d + 1 ∧ ∀ f ∈ fields, f.2.nesting ≤ d + 1 := by
  obtain ⟨d, rfl, nested⟩ := nesting_operation h
  rw [List.forall_mem_cons] at nested
  obtain ⟨d, rfl⟩ : ∃ k, d = k + 1 := Nat.exists_eq_add_one.2
    (Nat.lt_of_lt_of_le source.nesting_pos nested.1)
  exact ⟨d, rfl, nested⟩

/-- An operation is a form of what is read from its fields. -/
theorem isForm_operation (name : String) (names : List String) (js : List Json)
    {isOutermost : Bool} {q : Query} (h : ("op" :: names).Nodup)
    (length : js.length = names.length) (plain : ∀ j ∈ js, j.IsPlain)
    (reads : ∀ {j record : Json}, tagged? j = some (.ofString name, record) →
      record.fields? names = some (js.map some) → ofJson? isOutermost depth j = some q) :
    IsForm (ofJson? isOutermost depth) (operation name (names.zip js)) q := by
  have untagged : "op" ∉ (names.zip js).map (·.1) := by
    rw [List.map_fst_zip (Nat.le_of_eq length.symm)]
    exact (List.nodup_cons.1 h).1
  refine ⟨Json.isPlain_fields (List.forall_mem_cons.2 ⟨.string name, fun f hf ↦ ?_⟩), ?_⟩
  · exact plain f.2 (List.of_mem_zip hf).2
  · exact reads (tagged?_operation name untagged)
      (Json.fields?_ofFields (List.nodup_cons.1 h).2 length)

section Operations

variable {isOutermost : Bool} {source left right : Query}

-- the equations of the reader are made here, once for the forms of all operations
attribute [local simp] ofJson?

/-- An operation on a source that has one field besides is a form of what it makes of the two. -/
theorem isForm_onSource {α : Type} (name field : String) {make : Query → α → Query}
    {read? : Json → Option α} {content : Json} {x : α} (h : ["op", "source", field].Nodup)
    (reader : ∀ {j record : Json}, tagged? j = some (.ofString name, record) →
      ofJson? isOutermost (depth + 1) j = record.fields? ["source", field] >>= fun
        | [source, content] => do
          return make (← Json.required? (ofJson? false depth) source)
            (← Json.required? read? content)
        | _ => none)
    (source' : IsForm (ofJson? false depth) source.toJson source)
    (content' : IsForm read? content x) :
    IsForm (ofJson? isOutermost (depth + 1))
      (operation name [("source", source.toJson), (field, content)]) (make source x) := by
  refine isForm_operation name ["source", field] [source.toJson, content] h rfl
    (by simp [source'.plain, content'.plain]) fun tag fields ↦ ?_
  rw [reader tag, fields]
  simp [Json.required?, source'.reads, content'.reads]

theorem isForm_index (table : String) :
    IsForm (ofJson? isOutermost (depth + 1)) (index table).toJson (index table) := by
  have name := Json.isForm_string table
  refine isForm_operation "index" ["table"] [.ofString table] (by decide) rfl
    (by simp [name.plain]) fun {j record} tag fields ↦ ?_
  rw [ofJson?, tag]
  change (operationName? isOutermost (.ofString "index") >>= _) = _
  rw [operationName?_ofString]
  change (record.fields? ["table"] >>= _) = _
  rw [fields]
  simp [Json.required?, name.reads]

theorem isForm_raw (sql : String) (columns : List Column) :
    IsForm (ofJson? isOutermost (depth + 1)) (raw sql columns).toJson (raw sql columns) := by
  have text := Json.isForm_string sql
  have columns' : IsForm (Json.list? (Column.ofJson? Json.isVoid))
      (.array (columns.map Column.toJson)) columns :=
    Json.isForm_list fun c _ ↦ c.isForm isNothing_isVoid
  refine isForm_operation "raw" ["sql", "columns"]
    [.ofString sql, .array (columns.map Column.toJson)] (by decide) rfl
    (by simp [text.plain, columns'.plain]) fun {j record} tag fields ↦ ?_
  rw [ofJson?, tag]
  change (operationName? isOutermost (.ofString "raw") >>= _) = _
  rw [operationName?_ofString]
  change (record.fields? ["sql", "columns"] >>= _) = _
  rw [fields]
  simp [Json.required?, text.reads, columns'.reads]

theorem isForm_paging {leaving taking : Expr}
    (source' : IsForm (ofJson? false depth) source.toJson source)
    (leaving' : IsForm (Expr.ofJson? depth) leaving.toJson leaving)
    (taking' : IsForm (Expr.ofJson? depth) taking.toJson taking) :
    IsForm (ofJson? isOutermost (depth + 1)) (paging source leaving taking).toJson
      (paging source leaving taking) := by
  refine isForm_operation "paging" ["source", "skip", "take"]
    [source.toJson, leaving.toJson, taking.toJson] (by decide) rfl
    (by simp [source'.plain, leaving'.plain, taking'.plain]) fun {j record} tag fields ↦ ?_
  rw [ofJson?, tag]
  change (operationName? isOutermost (.ofString "paging") >>= _) = _
  rw [operationName?_ofString]
  change (record.fields? ["source", "skip", "take"] >>= _) = _
  rw [fields]
  simp [Json.required?, source'.reads, leaving'.reads, taking'.reads]

theorem isForm_join {on : List (Nat × Nat)} (left' : IsForm (ofJson? false depth) left.toJson left)
    (right' : IsForm (ofJson? false depth) right.toJson right) (kind : JoinType)
    (on' : IsForm (Json.list? (Json.pair? (·.position?)))
      (.array (on.map fun (l, r) ↦ positions [l, r])) on) :
    IsForm (ofJson? isOutermost (depth + 1)) (join left right kind on).toJson
      (join left right kind on) := by
  have kind' : IsForm (Json.named? Json.isVoid JoinType.ofName?) (.ofString kind.name) kind :=
    Json.isForm_named (ofName?_joinName kind)
  refine isForm_operation "join" ["left", "right", "kind", "on"]
    [left.toJson, right.toJson, .ofString kind.name,
      .array (on.map fun (l, r) ↦ positions [l, r])]
    (by decide) rfl (by simpa [left'.plain, right'.plain, kind'.plain] using on'.plain)
    fun {j record} tag fields ↦ ?_
  rw [ofJson?, tag]
  change (operationName? isOutermost (.ofString "join") >>= _) = _
  rw [operationName?_ofString]
  change (record.fields? ["left", "right", "kind", "on"] >>= _) = _
  rw [fields]
  simp [Json.required?, Json.withDefault?, left'.reads, right'.reads, kind'.reads, on'.reads]

theorem isForm_aggregate {groupBy : List Nat} {aggregates : List Aggregation}
    (source' : IsForm (ofJson? false depth) source.toJson source)
    (groupBy' : IsForm (Json.list? (·.position?)) (positions groupBy) groupBy)
    (aggregates' : IsForm (Json.list? Aggregation.ofJson?)
      (.array (aggregates.map Aggregation.toJson)) aggregates) :
    IsForm (ofJson? isOutermost (depth + 1)) (aggregate source groupBy aggregates).toJson
      (aggregate source groupBy aggregates) := by
  refine isForm_operation "aggregate" ["source", "group_by", "aggregates"]
    [source.toJson, positions groupBy, .array (aggregates.map Aggregation.toJson)] (by decide) rfl
    (by simp [source'.plain, groupBy'.plain, aggregates'.plain]) fun {j record} tag fields ↦ ?_
  rw [ofJson?, tag]
  change (operationName? isOutermost (.ofString "aggregate") >>= _) = _
  rw [operationName?_ofString]
  change (record.fields? ["source", "group_by", "aggregates"] >>= _) = _
  rw [fields]
  simp [Json.required?, Json.withDefault?, source'.reads, groupBy'.reads, aggregates'.reads]

theorem isForm_distinct (source' : IsForm (ofJson? false depth) source.toJson source) :
    IsForm (ofJson? isOutermost (depth + 1)) (distinct source).toJson (distinct source) := by
  refine isForm_operation "distinct" ["source"] [source.toJson] (by decide) rfl
    (by simp [source'.plain]) fun {j record} tag fields ↦ ?_
  rw [ofJson?, tag]
  change (operationName? isOutermost (.ofString "distinct") >>= _) = _
  rw [operationName?_ofString]
  change (record.fields? ["source"] >>= _) = _
  rw [fields]
  simp [Json.required?, source'.reads]

theorem isForm_lock (source' : IsForm (ofJson? false depth) source.toJson source) (wanted : Lock) :
    IsForm (ofJson? isOutermost (depth + 1)) (lock source wanted).toJson (lock source wanted) := by
  have mode : IsForm (Json.named? Json.isVoid LockMode.ofName?) (.ofString wanted.mode.name)
      wanted.mode := Json.isForm_named (LockMode.ofName?_name wanted.mode)
  have behavior : IsForm (Json.named? Json.isVoid LockBehavior.ofName?)
      (.ofString wanted.behavior.name) wanted.behavior :=
    Json.isForm_named (LockBehavior.ofName?_name wanted.behavior)
  refine isForm_operation "lock" ["source", "mode", "behavior"]
    [source.toJson, .ofString wanted.mode.name, .ofString wanted.behavior.name] (by decide) rfl
    (by simp [source'.plain, mode.plain, behavior.plain]) fun {j record} tag fields ↦ ?_
  rw [ofJson?, tag]
  change (operationName? isOutermost (.ofString "lock") >>= _) = _
  rw [operationName?_ofString]
  change (record.fields? ["source", "mode", "behavior"] >>= _) = _
  rw [fields]
  simp [Json.required?, Json.withDefault?, source'.reads, mode.reads, behavior.reads]

end Operations

/-- A query is read from its form, as deep as that is nested. -/
theorem isForm (q : Query) (isOutermost : Bool) (depth : Nat)
    (h : q.Hold IsPosition Literal.ReadsBack) (nested : q.toJson.nesting ≤ depth) :
    IsForm (ofJson? isOutermost depth) q.toJson q := by
  induction q generalizing isOutermost depth with
  | index table =>
    obtain ⟨d, rfl, -⟩ := nesting_operation nested
    exact isForm_index table
  | raw sql columns =>
    obtain ⟨d, rfl, -⟩ := nesting_operation nested
    exact isForm_raw sql columns
  | filter source predicate ih =>
    obtain ⟨d, rfl, inner, fields⟩ := nesting_source nested
    simp only [List.forall_mem_cons] at fields
    refine isForm_onSource "filter" "predicate" (by decide) (fun tag ↦ ?_)
      (ih false _ h.1 inner) (predicate.isForm d h.2 fields.1)
    rw [ofJson?, tag]
    cases isOutermost <;> rfl
  | select source columns ih =>
    obtain ⟨d, rfl, inner, -⟩ := nesting_source nested
    refine isForm_onSource "select" "columns" (by decide) (fun tag ↦ ?_)
      (ih false _ h.1 inner) (isForm_positions h.2)
    rw [ofJson?, tag]
    cases isOutermost <;> rfl
  | calculate source columns ih =>
    obtain ⟨d, rfl, inner, fields⟩ := nesting_source nested
    simp only [List.forall_mem_cons] at fields
    have items := Json.nesting_array_le.1 fields.1
    have columns' : IsForm (Json.list? (CalculationSpec.ofJson? (d + 1)))
        (.array (columns.map CalculationSpec.toJson)) columns :=
      Json.isForm_list fun c hc ↦ CalculationSpec.isForm (h.2 c hc)
        (Nat.le_succ_of_le (items _ (List.mem_map_of_mem hc)))
    refine isForm_onSource "calculate" "columns" (by decide) (fun tag ↦ ?_)
      (ih false _ h.1 inner) columns'
    rw [ofJson?, tag]
    cases isOutermost <;> rfl
  | join left right kind on ihLeft ihRight =>
    obtain ⟨d, rfl, inner, fields⟩ := nesting_source nested
    simp only [List.forall_mem_cons] at fields
    exact isForm_join (ihLeft false _ h.1 inner) (ihRight false _ h.2.1 fields.1) kind
      (isForm_pairs h.2.2)
  | aggregate source groupBy aggregates ih =>
    obtain ⟨d, rfl, inner, -⟩ := nesting_source nested
    exact isForm_aggregate (ih false _ h.1 inner) (isForm_positions h.2.1)
      (Json.isForm_list fun a ha ↦ Aggregation.isForm (h.2.2 a ha))
  | sort source order ih =>
    obtain ⟨d, rfl, inner, -⟩ := nesting_source nested
    refine isForm_onSource "sort" "order" (by decide) (fun tag ↦ ?_) (ih false _ h.1 inner)
      (Json.isForm_list fun k hk ↦ SortItem.isForm (h.2 k hk))
    rw [ofJson?, tag]
    cases isOutermost <;> rfl
  | distinct source ih =>
    obtain ⟨d, rfl, inner, -⟩ := nesting_source nested
    exact isForm_distinct (ih false _ h inner)
  | take source count ih =>
    obtain ⟨d, rfl, inner, fields⟩ := nesting_source nested
    simp only [List.forall_mem_cons] at fields
    refine isForm_onSource "take" "count" (by decide) (fun tag ↦ ?_) (ih false _ h.1 inner)
      (count.isForm d h.2 fields.1)
    rw [ofJson?, tag]
    cases isOutermost <;> rfl
  | skip source count ih =>
    obtain ⟨d, rfl, inner, fields⟩ := nesting_source nested
    simp only [List.forall_mem_cons] at fields
    refine isForm_onSource "skip" "count" (by decide) (fun tag ↦ ?_) (ih false _ h.1 inner)
      (count.isForm d h.2 fields.1)
    rw [ofJson?, tag]
    cases isOutermost <;> rfl
  | paging source leaving taking ih =>
    obtain ⟨d, rfl, inner, fields⟩ := nesting_source nested
    simp only [List.forall_mem_cons] at fields
    exact isForm_paging (ih false _ h.1 inner) (leaving.isForm d h.2.1 fields.1)
      (taking.isForm d h.2.2 fields.2.1)
  | lock source wanted ih =>
    obtain ⟨d, rfl, inner, -⟩ := nesting_source nested
    exact isForm_lock (ih false _ h inner) wanted

end Query

/-! ### Documents -/

theorem TableSpec.toJson_eq (t : TableSpec) : t.toJson =
    .ofFields [("schema", t.schema.elim .null .ofString), ("name", .ofString t.name),
      ("columns", .array (t.columns.map Column.toJson)),
      ("key", .array (t.key.map .ofString))] := by
  rcases t with ⟨_ | _, _, _, _⟩ <;> rfl

/-- The description of a table is read from its form. -/
theorem TableSpec.isForm (t : TableSpec) : IsForm ofJson? t.toJson t := by
  have schema : IsForm (Json.nullable? Json.string?) (t.schema.elim .null .ofString) t.schema :=
    Json.isForm_nullable (fun s _ ↦ Json.isForm_string s) fun s ↦ nofun
  have name := Json.isForm_string t.name
  have columns : IsForm (Json.list? (Column.ofJson? Json.isNull))
      (.array (t.columns.map Column.toJson)) t.columns :=
    Json.isForm_list fun c _ ↦ c.isForm isNothing_isNull
  have key : IsForm (Json.list? Json.string?) (.array (t.key.map .ofString)) t.key :=
    Json.isForm_list fun s _ ↦ Json.isForm_string s
  rw [toJson_eq]
  refine Json.isForm_record ["schema", "name", "columns", "key"]
    [t.schema.elim .null .ofString, .ofString t.name, .array (t.columns.map Column.toJson),
      .array (t.key.map .ofString)] (by decide) rfl
    (by simp [schema.plain, name.plain, columns.plain, key.plain]) fun fields ↦ ?_
  rw [ofJson?, fields]
  simp [Json.required?, Json.withDefault?, schema.reads, name.reads, columns.reads, key.reads]

namespace Document

/-- A document is read from its form. -/
theorem isForm {d : Document} (h : d.query.Hold IsPosition Literal.ReadsBack)
    (nested : d.toJson.nesting ≤ maxDepth) : IsForm ofJson? d.toJson d := by
  have inner : d.query.toJson.nesting ≤ maxDepth - 1 :=
    Json.nesting_object_le.1 nested (some "query", d.query.toJson) (by simp)
  have tables : IsForm (Json.list? TableSpec.ofJson?) (.array (d.tables.map TableSpec.toJson))
      d.tables := Json.isForm_list fun t _ ↦ t.isForm
  have query := d.query.isForm true maxDepth h (Nat.le_trans inner (Nat.sub_le _ _))
  have sound : d.query.toJson.isSound (maxDepth - 1) = true := query.plain.isSound inner
  refine Json.isForm_record ["tables", "query"]
    [.array (d.tables.map TableSpec.toJson), d.query.toJson] (by decide) rfl
    (by simp [tables.plain, query.plain]) fun fields ↦ ?_
  rw [ofJson?, fields]
  simp [Json.withDefault?, tables.reads, sound, query.reads]

/-- A document is read back from its text, if its positions have 64 bits, its constants read back
and no more than 127 arrays and objects are nested in the text. -/
theorem ofText_text {d : Document} (h : d.query.Hold IsPosition Literal.ReadsBack)
    (nested : d.toJson.nesting ≤ maxDepth) : ofText d.toJson.text = .ok d := by
  have form := isForm h nested
  rw [ofText, form.plain.ofText?_text, Option.bind_some, form.reads]

/-- Goods of a price above `2.5` whose label has a quote and a line break. -/
def labelledGoods : Document where
  tables := [⟨some "shop", "goods", [⟨"price", .decimal 10 2, false⟩,
    ⟨"label", .varChar (some 20), true⟩], ["label"]⟩]
  query :=
    .filter (.index "goods") (.binary .and
      (.binary .gt (.column 0) (.value (.float ⟨0x4004000000000000⟩)))
      (.binary .eq (.column 1) (.value (.string "5\"\n"))))

/-- Its constants and the depth of its text are as the theorem has them. -/
theorem ofText_text_of_labelledGoods :
    labelledGoods.query.Hold IsPosition Literal.ReadsBack ∧
      labelledGoods.toJson.nesting = 8 ∧
      ofText labelledGoods.toJson.text = .ok labelledGoods := by
  have price : Literal.ReadsBack (.float ⟨0x4004000000000000⟩) :=
    ⟨by decide, by decide +kernel⟩
  have position {i : Nat} (hi : i < 2) : IsPosition i := Nat.lt_trans hi (by decide)
  have h : labelledGoods.query.Hold IsPosition Literal.ReadsBack :=
    ⟨trivial, ⟨position (by decide), price⟩, position (by decide), trivial⟩
  exact ⟨h, by decide, ofText_text h (by decide)⟩

end Document

end SqlWright.Plan
