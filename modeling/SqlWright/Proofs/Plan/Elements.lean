import SqlWright.Plan.Element
import SqlWright.Proofs.Calendar.Texts
import SqlWright.Proofs.Json.Forms

/-!
# Forms of types, constants and columns

Types, constants, columns and sort keys are read back from their forms. Of a floating point number
it is taken that its digits read back; positions have 64 bits.
-/

namespace SqlWright

open Json (IsForm)

/-! ### Types -/

/-- What types without sizes may be given with is nothing. -/
def IsNothing (isNothing : Json → Bool) : Prop :=
  ∀ members, members ≠ [] → isNothing (.object members) = false

theorem isNothing_isNull : IsNothing Json.isNull := fun _ _ ↦ rfl

theorem isNothing_isVoid : IsNothing Json.isVoid := by
  rintro (_ | ⟨m, members⟩) hm
  · exact absurd rfl hm
  · rfl

namespace SqlType

variable {isNothing : Json → Bool}

theorem ofJson?_sized (h : IsNothing isNothing) (name : String) {fields : List (String × Json)}
    (hne : fields ≠ []) :
    ofJson? isNothing (.ofFields [(name, .ofFields fields)]) = sized? name (.ofFields fields) := by
  have content : isNothing (.ofFields fields) = false := h _ (by simpa using hne)
  have unnamed : (Json.ofFields [(name, .ofFields fields)]).named? isNothing ofName? = none := by
    rw [Json.named?, Json.choice?_ofFields]
    simp [content]
  rw [ofJson?, unnamed, Json.choice?_ofFields]
  rfl

/-- A type is read from its form. -/
theorem isForm (h : IsNothing isNothing) (type : SqlType) :
    IsForm (ofJson? isNothing) type.toJson type := by
  cases type with
  | decimal precision scale =>
    have first : IsForm (Json.nat? UInt8.size) (.ofNat precision.toNat) precision.toNat :=
      Json.isForm_nat precision.toNat_lt (by decide)
    have second : IsForm (Json.nat? UInt8.size) (.ofNat scale.toNat) scale.toNat :=
      Json.isForm_nat scale.toNat_lt (by decide)
    have sizes : IsForm (sized? "decimal") (.ofFields
        [("precision", .ofNat precision.toNat), ("scale", .ofNat scale.toNat)])
        (decimal precision scale) :=
      Json.isForm_record ["precision", "scale"] [.ofNat precision.toNat, .ofNat scale.toNat]
        (by decide) rfl (by simp [first.plain, second.plain]) fun sizes ↦ by
          rw [sized?, sizes]
          simp [Json.required?, first.reads, second.reads]
    refine ⟨Json.isPlain_fields (by simp [sizes.plain]), ?_⟩
    rw [toJson, ofJson?_sized h _ (by simp), sizes.reads]
  | varChar length =>
    let size : Json := length.elim .null fun n ↦ .ofNat n.toNat
    have form : IsForm (Json.nullable? (Json.nat? UInt32.size)) size (length.map UInt32.toNat) := by
      have forms (n : Nat) (hn : n ∈ length.map UInt32.toNat) :
          IsForm (Json.nat? UInt32.size) (.ofNat n) n := by
        obtain ⟨m, -, rfl⟩ := Option.map_eq_some_iff.1 hn
        exact Json.isForm_nat m.toNat_lt (by decide)
      have form := Json.isForm_nullable forms fun n ↦ nofun
      rwa [Option.elim_map] at form
    have sizes : IsForm (sized? "var_char") (.ofFields [("length", size)]) (varChar length) :=
      Json.isForm_record ["length"] [size] (by decide) rfl (by simp [form.plain]) fun sizes ↦ by
        rw [sized?, sizes]
        · simp [Json.withDefault?, form.reads, Function.comp_def]
        · rintro rfl
          simp [Json.fields?] at sizes
    have shape : (varChar length).toJson =
        .ofFields [("var_char", .ofFields [("length", size)])] := by
      cases length <;> rfl
    rw [shape]
    refine ⟨Json.isPlain_fields (by simpa using sizes.plain), ?_⟩
    rw [ofJson?_sized h _ (by simp), sizes.reads]
  | _ => exact ⟨.string _, rfl⟩

end SqlType

/-! ### Constants -/

namespace Literal

/-- A floating point number is finite, and its digits read back. -/
def ReadsBack : Literal → Prop
  | float x => x.isFinite ∧ (numberOf x).binary64 = x
  | _ => True

theorem isForm_choice {name : String} {content : Json} {value : Literal} (h : content.IsPlain)
    (read : ofJson? (.ofFields [(name, content)]) = some value) :
    IsForm ofJson? (.ofFields [(name, content)]) value :=
  ⟨Json.isPlain_fields (by simpa using h), read⟩

/-- A constant is read from its form. -/
theorem isForm {value : Literal} (h : value.ReadsBack) : IsForm ofJson? value.toJson value := by
  cases value with
  | boolean b => exact isForm_choice (.bool b) rfl
  | string s => exact isForm_choice (.string s) rfl
  | integer i =>
    have form : IsForm (Json.int? Int64.minValue.toInt Int64.maxValue.toInt) (.ofInt i.toInt)
        i.toInt := by
      have least := i.minValue_le_toInt
      have most := i.toInt_le
      have bounds : Int64.minValue.toInt = -9223372036854775808 ∧
        Int64.maxValue.toInt = 9223372036854775807 := ⟨rfl, rfl⟩
      exact Json.isForm_int least most (by omega)
    refine isForm_choice form.plain ?_
    change (do return integer (.ofInt (← (Json.ofInt i.toInt).int? Int64.minValue.toInt
      Int64.maxValue.toInt))) = _
    rw [form.reads]
    simp
  | float x =>
    obtain ⟨finite, back⟩ := h
    have form : IsForm Json.binary64? (.number (numberOf x)) x := by
      have pointed : (numberOf x).integral = false := by
        simp only [numberOf]
        split <;> rfl
      refine ⟨.number (fun integral ↦ ?_) (by rw [back]; exact finite), ?_⟩
      · rw [pointed] at integral
        cases integral
      · simp [Json.binary64?, back, finite]
    rw [toJson, if_pos finite]
    refine isForm_choice form.plain ?_
    change (do return float (← (Json.number (numberOf x)).binary64?)) = _
    rw [form.reads]
    rfl
  | dateTime t =>
    refine isForm_choice (.string t.text) ?_
    simp [ofJson?, Json.choice?_ofFields, Json.ofString, Json.string?, t.ofText?_text]
  | date d =>
    refine isForm_choice (.string d.text) ?_
    simp [ofJson?, Json.choice?_ofFields, Json.ofString, Json.string?, d.ofText?_text]

end Literal

/-! ### Columns and sort keys -/

/-- A column is read from its form. -/
theorem Column.isForm {isNothing : Json → Bool} (h : IsNothing isNothing) (c : Column) :
    IsForm (ofJson? isNothing) c.toJson c := by
  have name := Json.isForm_string c.name
  have type := SqlType.isForm h c.type
  have nullable := Json.isForm_bool c.nullable
  refine Json.isForm_record ["name", "type", "nullable"]
    [.ofString c.name, c.type.toJson, .bool c.nullable] (by decide) rfl
    (by simp [name.plain, type.plain, nullable.plain]) fun fields ↦ ?_
  rw [ofJson?, fields]
  simp [Json.required?, Json.withDefault?, name.reads, type.reads, nullable.reads]

theorem Aggregation.toJson_eq (a : Aggregation) : a.toJson =
    .ofFields [("name", .ofString a.name), ("kind", .ofString a.kind.name),
      ("column", a.column.elim .null .ofNat), ("type", a.type.toJson)] := by
  rcases a with ⟨_, _, _ | _, _⟩ <;> rfl

/-- A computed group column is read from its form. -/
theorem Aggregation.isForm {a : Aggregation} (h : ∀ i ∈ a.column, i < UInt64.size) :
    IsForm ofJson? a.toJson a := by
  let position : Json := a.column.elim .null .ofNat
  have name := Json.isForm_string a.name
  have kind : IsForm (Json.named? Json.isVoid AggregateKind.ofName?) (.ofString a.kind.name) a.kind :=
    Json.isForm_named (AggregateKind.ofName?_name a.kind)
  have column : IsForm (Json.nullable? Json.position?) position a.column :=
    Json.isForm_nullable (fun i hi ↦ Json.isForm_position (h i hi)) fun i ↦ nofun
  have type := SqlType.isForm isNothing_isVoid a.type
  rw [toJson_eq]
  refine Json.isForm_record ["name", "kind", "column", "type"]
    [.ofString a.name, .ofString a.kind.name, position, a.type.toJson] (by decide) rfl
    (by simp [name.plain, kind.plain, column.plain, type.plain]) fun fields ↦ ?_
  rw [ofJson?, fields]
  simp [Json.required?, Json.withDefault?, name.reads, kind.reads, column.reads, type.reads]

/-- A sort key is read from its form. -/
theorem SortItem.isForm {k : SortItem} (h : k.column < UInt64.size) :
    IsForm ofJson? k.toJson k := by
  have column := Json.isForm_position h
  have ascending := Json.isForm_bool k.ascending
  refine Json.isForm_record ["column", "ascending"] [.ofNat k.column, .bool k.ascending]
    (by decide) rfl (by simp [column.plain, ascending.plain]) fun fields ↦ ?_
  rw [ofJson?, fields]
  simp [Json.required?, column.reads, ascending.reads]

end SqlWright
