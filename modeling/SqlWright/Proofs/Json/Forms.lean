import Mathlib.Algebra.Group.Nat.Defs
import SqlWright.Json.Record
import SqlWright.Proofs.Json.Values

/-!
# Forms of values

A form of a value is plain JSON that is read as the value. Forms are made of forms: lists of the
forms of their items, records of the forms of their fields.
-/

namespace SqlWright

namespace Decimal.Binary64

/-- A value is finite whose bits below the sign are less than those of an infinity. -/
theorem isFinite_ofMagnitude (negative : Bool) {magnitude : Nat}
    (h : magnitude < infinityMagnitude) : (ofMagnitude negative magnitude).isFinite := by
  have bound : magnitude < 2047 * 4503599627370496 := h
  have sign : (if negative then signBit else 0) = 2048 * 4503599627370496 ∨
      (if negative then signBit else 0) = 0 := by
    cases negative
    · exact .inr rfl
    · exact .inl rfl
  have exponent : (ofMagnitude negative magnitude).exponentField =
      ((if negative then signBit else 0) + magnitude) % 18446744073709551616 /
        4503599627370496 % 2048 := by
    rw [exponentField, ofMagnitude, UInt64.toNat_ofNat']
    rfl
  simp only [isFinite, exponent, ne_eq, decide_not, Bool.not_eq_true', decide_eq_false_iff_not]
  omega

theorem roundDiv_le (num den : Nat) : roundDiv num den ≤ num / den + 1 := by
  simp only [roundDiv]
  split
  · omega
  · split <;> omega

/-- At the scale of an integer its mantissa has at most 54 bits. -/
theorem scaleOf_bounds (n : Nat) : (n.log2 : Int) - 53 ≤ scaleOf n 1 ∧
    scaleOf n 1 ≤ max ((n.log2 : Int) - 52) (-1074) := by
  have one : Nat.log2 1 = 0 := by decide
  simp only [scaleOf, one]
  split <;> omega

/-- Integers of 64 bits are finite. -/
theorem isFinite_ofDecimal (negative : Bool) {n : Nat} (h : n < 2 ^ 64) :
    (ofDecimal negative n 0).isFinite := by
  have digits : n.repr.length ≤ 20 := by
    rw [← String.length_toList, Nat.toList_repr,
      Nat.length_toDigits_le_iff (by decide) (by decide)]
    exact Nat.lt_trans h (by decide)
  simp only [ofDecimal]
  split
  · exact isFinite_ofMagnitude negative (by decide)
  · next some =>
    rw [if_neg (by omega)]
    apply isFinite_ofMagnitude
    have positive : n ≠ 0 := fun zero ↦ some (.inl zero)
    have low : n.log2 < 64 := (Nat.log2_lt positive).2 h
    obtain ⟨least, most⟩ := scaleOf_bounds n
    have mantissa : roundDiv (n * 2 ^ (-scaleOf n 1).toNat) (1 * 2 ^ (scaleOf n 1).toNat) ≤
        2 ^ 54 := by
      have scaled : n * 2 ^ (-scaleOf n 1).toNat < 2 ^ 54 * 2 ^ (scaleOf n 1).toNat := by
        calc
          n * 2 ^ (-scaleOf n 1).toNat < 2 ^ (n.log2 + 1) * 2 ^ (-scaleOf n 1).toNat :=
            Nat.mul_lt_mul_of_pos_right Nat.lt_log2_self (Nat.two_pow_pos _)
          _ = 2 ^ (n.log2 + 1 + (-scaleOf n 1).toNat) := (Nat.pow_add ..).symm
          _ ≤ 2 ^ (54 + (scaleOf n 1).toNat) := Nat.pow_le_pow_right (by decide) (by omega)
          _ = 2 ^ 54 * 2 ^ (scaleOf n 1).toNat := Nat.pow_add ..
      have quotient := (Nat.div_lt_iff_lt_mul (Nat.two_pow_pos _)).2 scaled
      have rounded := roundDiv_le (n * 2 ^ (-scaleOf n 1).toNat) (1 * 2 ^ (scaleOf n 1).toNat)
      rw [Nat.one_mul] at rounded ⊢
      omega
    have scaled : magnitudeOfRatio n 1 < infinityMagnitude := by
      simp only [magnitudeOfRatio, Nat.pow_eq]
      generalize roundDiv _ _ = m at mantissa
      generalize scaleOf n 1 = q at least most
      have leading : leadingBit = 2 ^ 52 := rfl
      have most : infinityMagnitude = 2047 * 2 ^ 52 := rfl
      rw [leading, most]
      refine Nat.lt_of_le_of_lt (Nat.min_le_left _ _) ?_
      split
      · omega
      · have : (q + 1075).toNat * 2 ^ 52 ≤ 1086 * 2 ^ 52 := Nat.mul_le_mul_right _ (by omega)
        omega
    have ratio : n * Nat.pow 10 (Int.toNat 0) = n := Nat.mul_one n
    rw [ratio]
    exact scaled

end Decimal.Binary64

namespace Json

variable {α : Type} {read : Json → Option α} {j : Json} {x : α}

/-! ### Nesting -/

mutual

/-- How deep arrays and objects are nested. -/
def nesting : Json → Nat
  | array items => itemsNesting items + 1
  | object members => membersNesting members + 1
  | _ => 0

/-- How deep the items are nested. -/
def itemsNesting : List Json → Nat
  | [] => 0
  | j :: rest => max (nesting j) (itemsNesting rest)

/-- How deep the members are nested. -/
def membersNesting : List (Option String × Json) → Nat
  | [] => 0
  | (_, j) :: rest => max (nesting j) (membersNesting rest)

end

theorem nesting_array_le {items : List Json} {n : Nat} :
    (array items).nesting ≤ n + 1 ↔ ∀ j ∈ items, j.nesting ≤ n := by
  rw [nesting, Nat.add_le_add_iff_right]
  induction items with
  | nil => simp [itemsNesting]
  | cons j items ih => rw [itemsNesting, Nat.max_le, ih, List.forall_mem_cons]

theorem nesting_object_le {members : List (Option String × Json)} {n : Nat} :
    (object members).nesting ≤ n + 1 ↔ ∀ m ∈ members, m.2.nesting ≤ n := by
  rw [nesting, Nat.add_le_add_iff_right]
  induction members with
  | nil => simp [membersNesting]
  | cons m members ih =>
    obtain ⟨key, j⟩ := m
    rw [membersNesting, Nat.max_le, ih, List.forall_mem_cons]

/-- The fields of a record are nested in it. -/
theorem nesting_ofFields {fields : List (String × Json)} {n : Nat}
    (h : (ofFields fields).nesting ≤ n) : ∃ m, n = m + 1 ∧ ∀ f ∈ fields, f.2.nesting ≤ m := by
  cases n with
  | zero => simp [ofFields, nesting] at h
  | succ m =>
    refine ⟨m, rfl, fun f hf ↦ ?_⟩
    exact nesting_object_le.1 h (some f.1, f.2) (List.mem_map_of_mem (f := fun f ↦ (some f.1, f.2)) hf)

theorem areSound_iff {depth : Nat} {items : List Json} :
    areSound depth items = true ↔ ∀ j ∈ items, isSound depth j = true := by
  induction items with
  | nil => simp [areSound]
  | cons j items ih => simp [areSound, ih]

theorem membersAreSound_iff {depth : Nat} {members : List (Option String × Json)} :
    membersAreSound depth members = true ↔
      ∀ m ∈ members, m.1.isSome = true ∧ isSound depth m.2 = true := by
  induction members with
  | nil => simp [membersAreSound]
  | cons m members ih =>
    obtain ⟨key, j⟩ := m
    simp [membersAreSound, ih, and_assoc]

/-- A plain value is sound if it is not nested too deep. -/
theorem IsPlain.isSound (h : j.IsPlain) {depth : Nat} (hd : j.nesting ≤ depth) :
    j.isSound depth = true := by
  induction h generalizing depth with
  | null | bool | string => cases depth <;> rfl
  | number _ finite => cases depth <;> simpa [Json.isSound] using finite
  | array _ ih =>
    cases depth with
    | zero => simp [nesting] at hd
    | succ depth =>
      rw [Json.isSound, areSound_iff]
      exact fun j hj ↦ ih j hj (nesting_array_le.1 hd j hj)
  | object keys _ ih =>
    cases depth with
    | zero => simp [nesting] at hd
    | succ depth =>
      rw [Json.isSound, membersAreSound_iff]
      exact fun m hm ↦ ⟨keys m hm, ih m hm (nesting_object_le.1 hd m hm)⟩

/-! ### Forms -/

/-- The JSON is plain, and it is read as the value. -/
structure IsForm (read : Json → Option α) (j : Json) (x : α) : Prop where
  plain : j.IsPlain
  reads : read j = some x

theorem isForm_string (s : String) : IsForm string? (ofString s) s := ⟨.string s, rfl⟩

theorem isForm_bool (b : Bool) : IsForm bool? (bool b) b := ⟨.bool b, rfl⟩

theorem isForm_int {low high n : Int} (hl : low ≤ n) (hh : n ≤ high) (bound : n.natAbs < 2 ^ 64) :
    IsForm (int? low high) (ofInt n) n := by
  refine ⟨.number (fun _ ↦ rfl) (Decimal.Binary64.isFinite_ofDecimal _ bound), ?_⟩
  rw [ofInt, int?, JsonNumber.int?_ofInt]
  simp [hl, hh]

theorem isForm_nat {bound n : Nat} (h : n < bound) (hb : bound ≤ 2 ^ 64) :
    IsForm (nat? bound) (ofNat n) n := by
  have form : IsForm (int? 0 (bound - 1)) (ofNat n) n :=
    isForm_int (by omega) (by omega) (by omega)
  refine ⟨form.plain, ?_⟩
  rw [nat?, form.reads]
  rfl

theorem isForm_position {n : Nat} (h : n < UInt64.size) : IsForm position? (ofNat n) n :=
  isForm_nat h (Nat.le_refl _)

/-- A name of a choice without content. -/
theorem isForm_named {isNothing : Json → Bool} {ofName? : String → Option α} {name : String}
    (h : ofName? name = some x) : IsForm (named? isNothing ofName?) (ofString name) x :=
  ⟨.string name, h⟩

theorem IsForm.cons {js : List Json} {xs : List α} (h : IsForm read j x)
    (rest : IsForm (list? read) (array js) xs) : IsForm (list? read) (array (j :: js)) (x :: xs) := by
  constructor
  · cases rest.plain with
    | array plain => exact .array (List.forall_mem_cons.2 ⟨h.plain, plain⟩)
  · have reads : js.mapM read = some xs := rest.reads
    change (j :: js).mapM read = _
    rw [List.mapM_cons, h.reads, reads]
    rfl

theorem isForm_list {xs : List α} {f : α → Json} (h : ∀ x ∈ xs, IsForm read (f x) x) :
    IsForm (list? read) (array (xs.map f)) xs := by
  induction xs with
  | nil => exact ⟨.array nofun, rfl⟩
  | cons x xs ih =>
    exact (h x List.mem_cons_self).cons (ih fun y hy ↦ h y (List.mem_cons_of_mem _ hy))

theorem isForm_pair {f : α → Json} {a b : α} (ha : IsForm read (f a) a) (hb : IsForm read (f b) b) :
    IsForm (pair? read) (array [f a, f b]) (a, b) := by
  constructor
  · refine .array fun j hj ↦ ?_
    simp only [List.mem_cons, List.not_mem_nil, or_false] at hj
    rcases hj with rfl | rfl
    · exact ha.plain
    · exact hb.plain
  · rw [pair?, ha.reads, hb.reads]
    rfl

/-- What may be null is null, or a form that is not. -/
theorem isForm_nullable {f : α → Json} {x? : Option α} (h : ∀ x ∈ x?, IsForm read (f x) x)
    (hne : ∀ x, f x ≠ null) : IsForm (nullable? read) (x?.elim null f) x? := by
  cases x? with
  | none => exact ⟨.null, rfl⟩
  | some x =>
    have form := h x rfl
    have some : nullable? read (f x) = (read (f x)).map some := by
      unfold nullable?
      split
      · next none => exact absurd none (hne x)
      · rfl
    refine ⟨form.plain, ?_⟩
    change nullable? read (f x) = _
    rw [some, form.reads]
    rfl

/-! ### Records -/

theorem isPlain_fields {fields : List (String × Json)} (h : ∀ f ∈ fields, f.2.IsPlain) :
    (ofFields fields).IsPlain := by
  refine .object (fun m hm ↦ ?_) fun m hm ↦ ?_ <;> obtain ⟨f, hf, rfl⟩ := List.mem_map.1 hm
  · rfl
  · exact h f hf

/-- A field is given once, where no two fields have one name. -/
theorem given_ofFields {fields : List (String × Json)} (h : (fields.map (·.1)).Nodup)
    {name : String} {j : Json} (hf : (name, j) ∈ fields) :
    given (fields.map fun f ↦ (some f.1, f.2)) name = [j] := by
  induction fields with
  | nil => cases hf
  | cons f fields ih =>
    rw [List.map_cons, List.nodup_cons] at h
    have absent {name : String} (hn : name ∉ fields.map (·.1)) :
        given (fields.map fun f ↦ (some f.1, f.2)) name = [] := by
      rw [given, List.filterMap_eq_nil_iff]
      simp only [List.mem_map, forall_exists_index, and_imp, forall_apply_eq_imp_iff₂]
      intro f hf
      rw [if_neg]
      rintro ⟨⟩
      exact hn (List.mem_map_of_mem hf)
    rcases List.mem_cons.1 hf with rfl | hf
    · have rest := absent h.1
      simpa [given] using rest
    · have other : f.1 ≠ name := by
        rintro rfl
        exact h.1 (List.mem_map_of_mem (f := (·.1)) hf)
      have rest := ih h.2 hf
      simpa [given, other] using rest

theorem mapM_given {members : List (Option String × Json)} {names : List String}
    {js : List Json} (length : js.length = names.length)
    (h : ∀ f ∈ names.zip js, given members f.1 = [f.2]) :
    (names.mapM fun name ↦ match given members name with
      | [] => some none
      | [value] => some (some value)
      | _ => none) = some (js.map some) := by
  induction names generalizing js with
  | nil =>
    rw [List.length_eq_zero_iff.1 length]
    rfl
  | cons name names ih =>
    obtain _ | ⟨j, js⟩ := js
    · cases length
    rw [List.zip_cons_cons, List.forall_mem_cons] at h
    rw [List.mapM_cons, h.1, ih (Nat.succ.inj length) h.2]
    rfl

/-- The fields of a record are its values in their order. -/
theorem fields?_ofFields {names : List String} {js : List Json} (h : names.Nodup)
    (length : js.length = names.length) :
    (ofFields (names.zip js)).fields? names = some (js.map some) := by
  have keys : (names.zip js).map (·.1) = names :=
    List.map_fst_zip (Nat.le_of_eq length.symm)
  have given (f : String × Json) (hf : f ∈ names.zip js) :
      given ((names.zip js).map fun f ↦ (some f.1, f.2)) f.1 = [f.2] :=
    given_ofFields (keys.symm ▸ h) hf
  change (if ((names.zip js).map fun f ↦ (some f.1, f.2)).all (·.1.isSome) then names.mapM _
    else none) = _
  rw [if_pos (by simp)]
  exact mapM_given length given

/-- A record is a form of what is read from its fields. -/
theorem isForm_record (names : List String) (js : List Json) (h : names.Nodup)
    (length : js.length = names.length) (plain : ∀ j ∈ js, j.IsPlain)
    (reads : ∀ {j : Json}, j.fields? names = some (js.map some) → read j = some x) :
    IsForm read (ofFields (names.zip js)) x :=
  ⟨isPlain_fields fun f hf ↦ plain f.2 (List.of_mem_zip hf).2, reads (fields?_ofFields h length)⟩

/-- A name with its content is a choice. -/
theorem choice?_ofFields (name : String) (content : Json) :
    (ofFields [(name, content)]).choice? = some (name, some content) := rfl

end Json

end SqlWright
