import Mathlib.Tactic.Common
import SqlWright.Json.Printer
import SqlWright.Json.Token

/-!
# Scalars of JSON texts

Strings and numbers are read back from their texts, whatever follows them; only what would go on
with a number may not follow one.
-/

namespace SqlWright.Json

variable {rest : List Char}

/-! ### Strings -/

theorem codePoints?_unicode {a b c d : Char} {n : Nat} (h : hexadecimal? a b c d = some n) :
    codePoints? ('\\' :: 'u' :: a :: b :: c :: d :: rest) =
      (codePoints? rest).map fun r ↦ (n :: r.1, r.2 + 6) := by
  rw [codePoints?, h]
  cases codePoints? rest <;> rfl

theorem codePoints?_escape {e c : Char} (he : e ≠ 'u') (h : escape? e = some c) :
    codePoints? ('\\' :: e :: rest) =
      (codePoints? rest).map fun r ↦ (c.toNat :: r.1, r.2 + 2) := by
  rw [codePoints?.eq_4 _ _ (fun _ _ _ _ _ hu _ ↦ he hu), h]
  cases codePoints? rest <;> rfl

theorem codePoints?_plain {c : Char} (quote : c ≠ '\x22') (slash : c ≠ '\\')
    (control : ¬ c.toNat < 0x20) :
    codePoints? (c :: rest) = (codePoints? rest).map fun r ↦ (c.toNat :: r.1, r.2 + 1) := by
  rw [codePoints?.eq_5 _ _ quote (by simp [slash]) (by simp [slash]), if_neg (by simp [control, slash])]
  cases codePoints? rest <;> rfl

/-- Controls without a letter of their own are written with two zeros and two digits. -/
theorem control_digits : ∀ n < 0x20,
    List.replicate (4 - (Text.hexadecimal n).length) '0' ++ Text.hexadecimal n =
      ['0', '0', (n / 16).digitChar, (n % 16).digitChar] ∧
    hexadecimal? '0' '0' (n / 16).digitChar (n % 16).digitChar = some n := by
  decide

/-- The form of a character is read as the character. -/
theorem codePoints?_escapedChar (c : Char) (rest : List Char) :
    codePoints? (escapedChar c ++ rest) =
      (codePoints? rest).map fun r ↦ (c.toNat :: r.1, r.2 + (escapedChar c).length) := by
  unfold escapedChar
  split
  case h_8 quote slash _ _ _ _ _ =>
    split
    · next control =>
      obtain ⟨digits, number⟩ := control_digits c.toNat control
      simp only [List.append_assoc, digits]
      exact codePoints?_unicode number
    · next control => exact codePoints?_plain quote slash control
  all_goals exact codePoints?_escape (by decide) rfl

theorem codePoints?_flatMap (cs rest : List Char) :
    codePoints? (cs.flatMap escapedChar ++ '\x22' :: rest) =
      some (cs.map Char.toNat, (cs.flatMap escapedChar).length + 1) := by
  induction cs with
  | nil => rfl
  | cons c cs ih =>
    rw [List.flatMap_cons, List.append_assoc, codePoints?_escapedChar, ih]
    simp [Nat.add_comm, Nat.add_left_comm]

/-- Code points of characters are no halves of pairs. -/
theorem characters?_map (cs : List Char) : characters? none (cs.map Char.toNat) = some cs := by
  induction cs with
  | nil => rfl
  | cons c cs ih =>
    have valid := c.valid
    have whole : isHighHalf c.toNat = false ∧ isLowHalf c.toNat = false := by
      change c.toNat < 0xD800 ∨ 0xDFFF < c.toNat ∧ c.toNat < 0x110000 at valid
      simp only [isHighHalf, isLowHalf, Bool.and_eq_false_iff, decide_eq_false_iff_not]
      omega
    rw [List.map_cons, characters?, whole.1, whole.2, ih]
    simp [Char.ofNat_toNat]

/-- A string is read from its text. -/
theorem token?_stringText (s : String) (rest : List Char) :
    token? (stringText s ++ rest) = some (.scalar (.string (some s)), (stringText s).length) := by
  have shape : stringText s ++ rest =
      '\x22' :: (s.toList.flatMap escapedChar ++ '\x22' :: rest) := by
    simp [stringText]
  rw [shape, token?, codePoints?_flatMap]
  simp [characters?_map, stringText]

/-! ### Numbers -/

/-- No character that is a digit comes first. -/
def LeavesDigits (rest : List Char) : Prop := ∀ c ∈ rest.head?, c.isDigit = false

/-- Nothing that goes on with a number comes first. -/
structure LeavesNumber (rest : List Char) : Prop where
  digit : LeavesDigits rest
  point : rest.head? ≠ some '.'
  mark : rest.head? ≠ some 'e' ∧ rest.head? ≠ some 'E'

theorem digitsOf_append {digits : List Char} (hd : ∀ c ∈ digits, c.isDigit = true)
    (hr : LeavesDigits rest) : digitsOf (digits ++ rest) = digits := by
  have none : rest.takeWhile Char.isDigit = [] := by
    cases rest with
    | nil => rfl
    | cons c rest => simp [hr c (by simp)]
  rw [digitsOf, List.takeWhile_append_of_pos hd, none, List.append_nil]

/-- Digits of which the first is no zero, unless it is the only one. -/
structure IsWhole (digits : List Char) : Prop where
  digit : ∀ c ∈ digits, c.isDigit = true
  ne_nil : digits ≠ []
  zero : digits.head? = some '0' → digits = ['0']

theorem wholeDigits?_append {digits : List Char} (h : IsWhole digits) (hr : LeavesDigits rest) :
    wholeDigits? (digits ++ rest) = some digits := by
  rw [wholeDigits?, digitsOf_append h.digit hr]
  split
  · exact absurd rfl h.ne_nil
  · cases h.zero rfl
  · rfl

theorem fractionDigits?_append {digits : List Char} (hd : ∀ c ∈ digits, c.isDigit = true)
    (hne : digits ≠ []) (hr : LeavesDigits rest) :
    fractionDigits? ('.' :: (digits ++ rest)) = some digits := by
  rw [fractionDigits?, digitsOf_append hd hr, if_neg hne]

theorem fractionDigits?_none (h : rest.head? ≠ some '.') : fractionDigits? rest = some [] := by
  unfold fractionDigits?
  split
  · exact absurd rfl h
  · rfl

theorem exponent?_none (h : LeavesNumber rest) : exponent? rest = some (0, 0) := by
  cases rest with
  | nil => rfl
  | cons c rest =>
    have plain : ¬ (c = 'e' ∨ c = 'E') := by simpa [not_or] using h.mark
    simp only [exponent?, plain, if_false]

theorem isDigit_repr (n : Nat) : ∀ c ∈ n.repr.toList, c.isDigit = true := by
  rw [Nat.toList_repr]
  exact fun c hc ↦ Nat.isDigit_of_mem_toDigits (by decide) (by decide) hc

/-- An exponent is read from its mark and its digits. -/
theorem exponent?_ofInt (e : Int) (hr : LeavesDigits rest) :
    exponent? ('e' :: ((Text.ofInt e).toList ++ rest)) =
      some (e, 1 + (Text.ofInt e).toList.length) := by
  cases e with
  | ofNat n =>
    obtain ⟨c, cs, hcs⟩ : ∃ c cs, n.repr.toList = c :: cs :=
      List.exists_cons_of_ne_nil (by simp [Nat.toList_repr, Nat.toDigits_ne_nil])
    have digit : c.isDigit = true := isDigit_repr n c (by simp [hcs])
    have unsigned : (c == '+' || c == '-') = false := by
      cases hc : c == '+' || c == '-' with
      | false => rfl
      | true =>
        rw [Bool.or_eq_true, beq_iff_eq, beq_iff_eq] at hc
        rcases hc with rfl | rfl <;> cases digit
    have positive : ¬ c = '-' := by
      rintro rfl
      cases digit
    have read := digitsOf_append (isDigit_repr n) hr
    rw [hcs] at read
    have value := Text.digits?_repr n
    rw [hcs] at value
    simp only [Text.ofInt, hcs, List.cons_append] at read ⊢
    rw [exponent?, if_pos (.inl rfl)]
    simp [unsigned, read, value, positive]
  | negSucc n =>
    have read := digitsOf_append (isDigit_repr (n + 1)) hr
    have value := Text.digits?_repr (n + 1)
    have text : (Text.ofInt (.negSucc n)).toList = '-' :: (n + 1).repr.toList := by
      simp [Text.ofInt]
    rw [text, List.cons_append, exponent?, if_pos (.inl rfl)]
    generalize (n + 1).repr.toList = digits at read value
    simp [read, value, Int.negSucc_eq, Nat.add_comm, Nat.add_left_comm]

/-- Fraction in a text: nothing, or digits after a point. -/
def fractionText (fraction : List Char) : List Char :=
  if fraction = [] then [] else '.' :: fraction

/-- Exponent in a text: nothing, or digits after a mark. -/
def exponentText (exponent? : Option Int) : List Char :=
  match exponent? with
  | some e => 'e' :: (Text.ofInt e).toList
  | none => []

theorem exponent?_exponentText (e? : Option Int) (hr : LeavesNumber rest) :
    exponent? (exponentText e? ++ rest) = some (e?.getD 0, (exponentText e?).length) := by
  cases e? with
  | none => exact exponent?_none hr
  | some e =>
    have read := exponent?_ofInt e hr.digit
    rw [Nat.add_comm] at read
    exact read

theorem LeavesNumber.exponentText (hr : LeavesNumber rest) (e? : Option Int) :
    LeavesDigits (exponentText e? ++ rest) ∧ (exponentText e? ++ rest).head? ≠ some '.' := by
  cases e? with
  | none => exact ⟨hr.digit, hr.point⟩
  | some e => simp [LeavesDigits, Json.exponentText]

theorem fractionDigits?_fractionText {fraction : List Char}
    (hf : ∀ c ∈ fraction, c.isDigit = true) (digit : LeavesDigits rest)
    (point : rest.head? ≠ some '.') :
    fractionDigits? (fractionText fraction ++ rest) = some fraction := by
  unfold fractionText
  split
  · next none => rw [none, List.nil_append, fractionDigits?_none point]
  · next some => exact fractionDigits?_append hf some digit

theorem leavesDigits_fractionText (fraction : List Char) (digit : LeavesDigits rest) :
    LeavesDigits (fractionText fraction ++ rest) := by
  unfold fractionText
  split
  · exact digit
  · simp [LeavesDigits]

/-- A number is read from its sign, its digits in front of the point and after it, and its
exponent. -/
theorem number?_append (negative : Bool) (e? : Option Int) {whole fraction : List Char}
    (hw : IsWhole whole) (hf : ∀ c ∈ fraction, c.isDigit = true) (hr : LeavesNumber rest) :
    number? ((if negative then ['-'] else []) ++
        (whole ++ (fractionText fraction ++ (exponentText e? ++ rest)))) =
      some (⟨negative, fraction.isEmpty && e?.isNone, Nat.ofDigitChars 10 (whole ++ fraction) 0,
        e?.getD 0 - fraction.length⟩, (if negative then 1 else 0) + whole.length +
          (fractionText fraction).length + (exponentText e?).length) := by
  obtain ⟨digit, point⟩ := hr.exponentText e?
  have first : wholeDigits? (whole ++ (fractionText fraction ++ (exponentText e? ++ rest))) =
      some whole := wholeDigits?_append hw (leavesDigits_fractionText fraction digit)
  have second := fractionDigits?_fractionText hf digit point
  have third := exponent?_exponentText e? hr
  have length : (if fraction = [] then 0 else fraction.length + 1) =
      (fractionText fraction).length := by
    unfold fractionText
    split <;> rfl
  have integral : ((fractionText fraction).length = 0 && (exponentText e?).length = 0) =
      (fraction.isEmpty && e?.isNone) := by
    unfold fractionText
    cases fraction <;> cases e? <;> rfl
  generalize hbody : whole ++ (fractionText fraction ++ (exponentText e? ++ rest)) = body at first
  have after : body.drop whole.length = fractionText fraction ++ (exponentText e? ++ rest) := by
    rw [← hbody, List.drop_left]
  have unsigned : body.head? ≠ some '-' := by
    intro h
    obtain ⟨c, cs, rfl⟩ := List.exists_cons_of_ne_nil hw.ne_nil
    rw [← hbody] at h
    cases h
    cases hw.digit '-' List.mem_cons_self
  have sign : ((if negative then ['-'] else []) ++ body).head? = some '-' ↔ negative = true := by
    cases negative with
    | true => simp
    | false => simp [unsigned]
  have digits : (if negative then ((if negative then ['-'] else []) ++ body).drop 1
      else (if negative then ['-'] else []) ++ body) = body := by
    cases negative <;> rfl
  simp only [number?, sign, digits, first, second, third, after, length, List.drop_left,
    Option.bind_eq_bind, Option.bind_some, Bool.decide_eq_true, integral]
  rfl

theorem head?_toDigits {n : Nat} (h : 0 < n) : (Nat.toDigits 10 n).head? ≠ some '0' := by
  induction n using Nat.strongRecOn with
  | ind n ih =>
    by_cases low : n < 10
    · rw [Nat.toDigits_of_lt_base low]
      simpa using Nat.ne_of_gt h
    · have more : 0 < n / 10 := Nat.div_pos (Nat.le_of_not_lt low) (by decide)
      rw [Nat.toDigits_of_base_le (by decide) (Nat.le_of_not_lt low),
        List.head?_append, Option.or_of_isSome (by simp [Nat.toDigits_ne_nil])]
      exact ih (n / 10) (Nat.div_lt_self h (by decide)) more

theorem isWhole_repr (n : Nat) : IsWhole n.repr.toList where
  digit := isDigit_repr n
  ne_nil := by simp [Nat.toList_repr, Nat.toDigits_ne_nil]
  zero := by
    intro zero
    rcases Nat.eq_zero_or_pos n with rfl | some
    · rfl
    · rw [Nat.toList_repr] at zero
      exact absurd zero (head?_toDigits some)

theorem ofDigitChars_repr (n : Nat) : Nat.ofDigitChars 10 n.repr.toList 0 = n := by
  rw [Nat.toList_repr]
  exact Nat.ofDigitChars_toDigits (by decide) (by decide)

theorem ofDigitChars_zeros (count : Nat) (digits : List Char) :
    Nat.ofDigitChars 10 (List.replicate count '0' ++ digits) 0 = Nat.ofDigitChars 10 digits 0 := by
  induction count with
  | zero => rfl
  | succ count ih => simpa [List.replicate_succ, Nat.ofDigitChars_cons] using ih

/-- Digits with zeros in front, cut into those in front of the point and those after it. -/
theorem pointed_eq {digits : List Char} {places : Nat} (hd : IsWhole digits) (hp : 0 < places) :
    ∃ whole fraction, pointed digits places = whole ++ fractionText fraction ∧ IsWhole whole ∧
      (∀ c ∈ fraction, c.isDigit = true) ∧ fraction.length = places ∧
      Nat.ofDigitChars 10 (whole ++ fraction) 0 = Nat.ofDigitChars 10 digits 0 := by
  let wide := List.replicate (places + 1 - digits.length) '0' ++ digits
  have digit : ∀ c ∈ wide, c.isDigit = true := by
    intro c hc
    rcases List.mem_append.1 hc with zero | hc
    · rw [List.eq_of_mem_replicate zero]
      rfl
    · exact hd.digit c hc
  have length : wide.length = max (places + 1) digits.length := by
    simp only [wide, List.length_append, List.length_replicate]
    omega
  have fraction : (wide.drop (wide.length - places)).length = places := by
    rw [List.length_drop]
    omega
  have some : wide.drop (wide.length - places) ≠ [] := by
    rw [← List.length_pos_iff, fraction]
    exact hp
  refine ⟨wide.take (wide.length - places), wide.drop (wide.length - places), ?_, ?_,
    fun c hc ↦ digit c (List.mem_of_mem_drop hc), fraction, ?_⟩
  · rw [fractionText, if_neg some]
    rfl
  · by_cases short : digits.length ≤ places
    · have one : wide.length - places = 1 := by omega
      have zeros : places + 1 - digits.length = (places - digits.length) + 1 := by omega
      have whole : wide.take (wide.length - places) = ['0'] := by
        rw [one]
        simp [wide, zeros, List.replicate_succ]
      rw [whole]
      exact ⟨by simp, by simp, fun _ ↦ rfl⟩
    · have same : wide = digits := by
        have none : places + 1 - digits.length = 0 := by omega
        simp [wide, none]
      rw [same]
      have positive : 0 < digits.length - places := by omega
      refine ⟨fun c hc ↦ hd.digit c (List.mem_of_mem_take hc), ?_, ?_⟩
      · rw [← List.length_pos_iff, List.length_take]
        omega
      · intro zero
        rw [List.head?_take, if_neg (Nat.ne_of_gt positive)] at zero
        rw [hd.zero zero] at short
        simp only [List.length_singleton] at short
        omega
  · rw [List.take_append_drop]
    exact ofDigitChars_zeros _ _

/-- Digits of which the first alone stands in front of the point. -/
theorem scientific_eq {digits : List Char} (hd : IsWhole digits) :
    ∃ c cs, digits = c :: cs ∧ IsWhole [c] ∧ (∀ d ∈ cs, d.isDigit = true) ∧
      ∀ exponent, scientific digits exponent =
        [c] ++ (fractionText cs ++ exponentText (some exponent)) := by
  obtain ⟨c, cs, rfl⟩ := List.exists_cons_of_ne_nil hd.ne_nil
  have first : c.isDigit = true := hd.digit c List.mem_cons_self
  refine ⟨c, cs, rfl, ⟨by simpa using first, by simp, ?_⟩,
    fun d hc ↦ hd.digit d (List.mem_cons_of_mem _ hc), fun exponent ↦ ?_⟩
  · rintro ⟨⟩
    rfl
  · have one : ((c :: cs).length = 1) = (cs = []) := by simp
    simp only [scientific, one, fractionText, exponentText, List.take_succ_cons, List.take_zero,
      List.drop_succ_cons, List.drop_zero, List.append_assoc]

/-- What a number is written as, if it has no exponent where none is written. -/
theorem numberText_eq {n : JsonNumber} (h : n.integral → n.exponent = 0) :
    ∃ whole fraction e?, numberText n = (if n.negative then ['-'] else []) ++
        (whole ++ (fractionText fraction ++ exponentText e?)) ∧
      IsWhole whole ∧ (∀ c ∈ fraction, c.isDigit = true) ∧
      (fraction.isEmpty && e?.isNone) = n.integral ∧
      Nat.ofDigitChars 10 (whole ++ fraction) 0 = n.coefficient ∧
      e?.getD 0 - (fraction.length : Int) = n.exponent := by
  obtain ⟨negative, integral, coefficient, exponent⟩ := n
  have digits := isWhole_repr coefficient
  cases integral with
  | true =>
    refine ⟨_, [], none, ?_, digits, nofun, rfl, ?_, ?_⟩
    · simp [numberText, fractionText, exponentText]
    · rw [List.append_nil, ofDigitChars_repr]
    · simpa using (h rfl).symm
  | false =>
    by_cases near : exponent < 0 ∧ -5 < (coefficient.repr.toList.length : Int) + exponent ∧
        (coefficient.repr.toList.length : Int) + exponent ≤ 16
    · have places : 0 < (-exponent).toNat := by omega
      obtain ⟨whole, fraction, text, hw, hf, length, value⟩ := pointed_eq digits places
      refine ⟨whole, fraction, none, ?_, hw, hf, ?_, ?_, ?_⟩
      · simp only [numberText, near, and_self, if_true, Bool.false_eq_true, if_false, text,
          exponentText, List.append_nil]
      · have some : fraction ≠ [] := by
          rw [← List.length_pos_iff, length]
          exact places
        simpa using some
      · rw [value, ofDigitChars_repr]
      · simp only [Option.getD_none, length]
        omega
    · obtain ⟨c, cs, split, hw, hf, text⟩ := scientific_eq digits
      refine ⟨[c], cs, some (coefficient.repr.toList.length + exponent - 1), ?_, hw, hf, ?_, ?_,
        ?_⟩
      · simp only [numberText, near, if_false, Bool.false_eq_true, text]
      · simp
      · rw [List.singleton_append, ← split, ofDigitChars_repr]
      · change (coefficient.repr.toList.length : Int) + exponent - 1 - cs.length = exponent
        rw [split, List.length_cons]
        omega

/-- A number is read from its text. -/
theorem number?_numberText {n : JsonNumber} (h : n.integral → n.exponent = 0)
    (hr : LeavesNumber rest) :
    number? (numberText n ++ rest) = some (n, (numberText n).length) := by
  obtain ⟨whole, fraction, e?, text, hw, hf, form, value, power⟩ := numberText_eq h
  have read := number?_append n.negative e? hw hf hr
  have sign : (if n.negative then ['-'] else []).length = if n.negative then 1 else 0 := by
    cases n.negative <;> rfl
  rw [text]
  simp only [List.append_assoc, List.length_append] at read ⊢
  rw [read, form, value, power, sign]
  simp only [Nat.add_assoc]

theorem exists_numberText {n : JsonNumber} (h : n.integral → n.exponent = 0) :
    ∃ c cs, numberText n = c :: cs ∧ (c = '-' ∨ c.isDigit) := by
  obtain ⟨whole, fraction, e?, text, hw, -⟩ := numberText_eq h
  obtain ⟨c, cs, rfl⟩ := List.exists_cons_of_ne_nil hw.ne_nil
  cases hn : n.negative with
  | true => exact ⟨'-', _, by rw [text, hn]; rfl, .inl rfl⟩
  | false => exact ⟨c, _, by rw [text, hn]; rfl, .inr (hw.digit c List.mem_cons_self)⟩

theorem token?_numberText {n : JsonNumber} (h : n.integral → n.exponent = 0)
    (hr : LeavesNumber rest) :
    token? (numberText n ++ rest) = some (.scalar (.number n), (numberText n).length) := by
  obtain ⟨c, cs, text, first⟩ := exists_numberText h
  have read := number?_numberText h hr
  rw [text, List.cons_append] at read ⊢
  have other {d : Char} (hd : ¬ (d = '-' ∨ d.isDigit)) : c ≠ d := by
    rintro rfl
    exact hd first
  rw [token?.eq_9 _ _ (other (by decide)) (other (by decide)) (other (by decide))
    (other (by decide)) (other (by decide)) (other (by decide)) (other (by decide)), if_pos first,
    read]
  rfl

end SqlWright.Json
