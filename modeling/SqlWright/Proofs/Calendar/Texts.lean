import Mathlib.Algebra.Group.Nat.Defs
import Mathlib.Data.List.TakeWhile
import SqlWright.Calendar.DateTime

/-!
# Days and points in time read back from their texts

The numbers of a day and of a time are written with zeros in front, to as many digits as they are
read with. Only a year may have more digits: they follow its sign and end where the next mark is.
-/

namespace SqlWright

/-! ### Numbers with zeros in front -/

namespace Text

variable {width n : Nat} {cs : List Char}

theorem toList_padded (width n : Nat) :
    (padded width n).toList = List.replicate (width - n.repr.length) '0' ++ n.repr.toList := by
  have zeros (k : Nat) : ("".pushn '0' k).toList = List.replicate k '0' := by
    unfold String.pushn
    induction k with
    | zero => rfl
    | succ k ih => rw [Nat.repeat, String.toList_push, ih, List.replicate_succ']
  rw [padded, String.toList_append, zeros]

/-- Numbers with zeros in front read back. -/
theorem digits?_padded (width n : Nat) : digits? (padded width n).toList = some n := by
  have read := digits?_repr n
  rw [toList_padded]
  generalize n.repr.toList = digits at read ⊢
  simp only [digits?, Option.ite_none_right_eq_some, Option.some.injEq] at read ⊢
  obtain ⟨⟨ne_nil, digit⟩, value⟩ := read
  refine ⟨⟨by simp [ne_nil], ?_⟩, ?_⟩
  · rw [List.all_append, digit, Bool.and_true, List.all_replicate]
    split <;> rfl
  · rw [Nat.ofDigitChars_append, Nat.ofDigitChars_replicate_zero, Nat.mul_zero, value]

theorem length_padded (h : n < 10 ^ width) (positive : 0 < width) :
    (padded width n).toList.length = width := by
  have digits : n.repr.toList.length ≤ width := by
    rw [Nat.toList_repr]
    exact (Nat.length_toDigits_le_iff (by decide) positive).2 h
  rw [toList_padded, List.length_append, List.length_replicate, ← String.length_toList]
  omega

/-- What a number is read from are digits, and there are some. -/
theorem digit_of_digits? (h : digits? cs = some n) : cs ≠ [] ∧ ∀ c ∈ cs, c.isDigit = true := by
  simp only [digits?, Option.ite_none_right_eq_some, List.all_eq_true] at h
  exact h.1

theorem isBlank_of_isDigit {c : Char} (h : c.isDigit = true) : isBlank c = false := by
  simp only [Char.isDigit, Bool.and_eq_true, decide_eq_true_eq] at h
  have low : 48 ≤ c.toNat := h.1
  have high : c.toNat ≤ 57 := h.2
  simp only [isBlank, Bool.or_eq_false_iff, Bool.and_eq_false_iff, decide_eq_false_iff_not,
    beq_eq_false_iff_ne]
  omega

theorem trimStart_cons {c : Char} (h : isBlank c = false) : trimStart (c :: cs) = c :: cs := by
  rw [trimStart, List.dropWhile_cons_of_neg (by simp [h])]

theorem trimStart_digits (h : digits? cs = some n) (rest : List Char) :
    trimStart (cs ++ rest) = cs ++ rest := by
  obtain ⟨ne_nil, digit⟩ := digit_of_digits? h
  obtain ⟨c, cs, rfl⟩ := List.exists_cons_of_ne_nil ne_nil
  exact trimStart_cons (isBlank_of_isDigit (digit c List.mem_cons_self))

end Text

namespace Calendar

/-! ### Parts of the texts -/

/-- Digits are read as a number where no digit is left, or no more are read. -/
theorem readNumber?_append (most : Nat) {n : Nat} {digits rest : List Char}
    (h : Text.digits? digits = some n) (fits : digits.length ≤ most)
    (ends : digits.length = most ∨ ∀ c ∈ rest.head?, c.isDigit = false) :
    readNumber? most (digits ++ rest) = some (n, rest) := by
  have none : (rest.take (most - digits.length)).takeWhile Char.isDigit = [] := by
    rcases ends with rfl | ends
    · rw [Nat.sub_self, List.take_zero, List.takeWhile_nil]
    · cases rest with
      | nil => simp
      | cons c rest => cases most - digits.length <;> simp [ends c (by simp)]
  have front : ((digits ++ rest).take most).takeWhile Char.isDigit = digits := by
    rw [List.take_append, List.take_of_length_le fits,
      List.takeWhile_append_of_pos (Text.digit_of_digits? h).2, none, List.append_nil]
  rw [readNumber?, Text.trimStart_digits h]
  simp only [front, h, Option.map_some, List.drop_left]

/-- A number of so many digits is read as far as they go. -/
theorem readNumber?_padded (width n : Nat) (h : n < 10 ^ width) (positive : 0 < width)
    (rest : List Char) :
    readNumber? width ((Text.padded width n).toList ++ rest) = some (n, rest) := by
  have length := Text.length_padded h positive
  exact readNumber?_append width (Text.digits?_padded width n) (Nat.le_of_eq length) (.inl length)

theorem readMark?_cons {mark : Char} (h : Text.isBlank mark = false) (rest : List Char) :
    readMark? mark (mark :: rest) = some rest := by
  rw [readMark?, Text.trimStart_cons h]
  simp

/-- A year without a sign has four digits. -/
theorem readYear?_unsigned {n : Nat} (h : n < 10 ^ 4) (rest : List Char) :
    readYear? ((Text.padded 4 n).toList ++ rest) = some ((n : Int), rest) := by
  have read := Text.digits?_padded 4 n
  have number := readNumber?_padded 4 n h (by decide) rest
  obtain ⟨ne_nil, digit⟩ := Text.digit_of_digits? read
  rw [readYear?, Text.trimStart_digits read]
  obtain ⟨c, cs, hcs⟩ := List.exists_cons_of_ne_nil ne_nil
  have first : c.isDigit = true := digit c (by simp [hcs])
  rw [hcs, List.cons_append] at number ⊢
  split
  · next same =>
    cases same
    cases first
  · next same =>
    cases same
    cases first
  · rw [number, Option.map_some]

/-- A year with a sign is read up to the mark after it. -/
theorem readYear?_signed {sign : Char} (hs : sign = '-' ∨ sign = '+') (n : Nat)
    (rest : List Char) :
    readYear? (sign :: ((Text.padded 4 n).toList ++ '-' :: rest)) =
      some (if sign = '-' then -(n : Int) else n, '-' :: rest) := by
  have read := Text.digits?_padded 4 n
  obtain ⟨ne_nil, digit⟩ := Text.digit_of_digits? read
  have stops : ∀ c ∈ ('-' :: rest).head?, c.isDigit = false := by
    rintro _ ⟨⟩
    rfl
  have first : ((Text.padded 4 n).toList ++ '-' :: rest).head?.any Char.isDigit = true := by
    obtain ⟨c, cs, hcs⟩ := List.exists_cons_of_ne_nil ne_nil
    rw [hcs]
    exact digit c (by simp [hcs])
  have number := readNumber?_append ((Text.padded 4 n).toList ++ '-' :: rest).length read (by simp)
    (.inr stops)
  generalize (Text.padded 4 n).toList ++ '-' :: rest = cs at number first
  rcases hs with rfl | rfl
  · rw [readYear?, Text.trimStart_cons (by decide)]
    simp [number, first]
  · rw [readYear?, Text.trimStart_cons (by decide)]
    simp [number, first]

/-- A year is read up to the mark after it. -/
theorem readYear?_yearText (year : Int) (rest : List Char) :
    readYear? ((Date.yearText year).toList ++ '-' :: rest) = some (year, '-' :: rest) := by
  rw [Date.yearText]
  split
  · next short =>
    rw [readYear?_unsigned (by omega), Int.toNat_of_nonneg short.1]
  · split
    · next negative =>
      have read := readYear?_signed (.inl rfl) year.natAbs rest
      rw [if_pos rfl, ← Int.eq_neg_natAbs_of_nonpos (Int.le_of_lt negative)] at read
      simpa using read
    · next positive =>
      have read := readYear?_signed (.inr rfl) year.natAbs rest
      rw [if_neg (by decide), Int.natAbs_of_nonneg (Int.not_lt.1 positive)] at read
      simpa using read

/-! ### Days -/

namespace Date

theorem bounds (d : Date) : d.month < 100 ∧ d.day < 100 := by
  have valid := d.valid
  have month : daysOfMonth d.year d.month ≤ 31 := by
    unfold daysOfMonth
    split
    · split <;> decide
    · split <;> decide
  simp only [isDate, Bool.and_eq_true, decide_eq_true_eq] at valid
  omega

/-- A day is read from the front of what starts with its text. -/
theorem readDate?_text (d : Date) (rest : List Char) :
    readDate? (d.text.toList ++ rest) = some (d, rest) := by
  have year := readYear?_yearText d.year
    ((Text.padded 2 d.month).toList ++ '-' :: ((Text.padded 2 d.day).toList ++ rest))
  have month := readNumber?_padded 2 d.month d.bounds.1 (by decide)
    ('-' :: ((Text.padded 2 d.day).toList ++ rest))
  have day := readNumber?_padded 2 d.day d.bounds.2 (by decide) rest
  have date : ofNumbers? d.year d.month d.day = some d := dif_pos d.valid
  have text : d.text.toList ++ rest = (yearText d.year).toList ++ '-' ::
      ((Text.padded 2 d.month).toList ++ '-' :: ((Text.padded 2 d.day).toList ++ rest)) := by
    simp [Date.text]
  rw [text, readDate?, year]
  simp [readMark?_cons, Text.isBlank, month, day, date]

/-- A day is read back from its text. -/
theorem ofText?_text (d : Date) : ofText? d.text = some d := by
  have read := d.readDate?_text []
  rw [List.append_nil] at read
  rw [ofText?, read]
  rfl

end Date

/-! ### Points in time -/

namespace DateTime

theorem readFraction?_padded {width n : Nat} (h : n < 10 ^ width) (positive : 0 < width)
    (most : width ≤ 9) :
    readFraction? ('.' :: (Text.padded width n).toList) = some (n * 10 ^ (9 - width), []) := by
  have length := Text.length_padded h positive
  have read := Text.digits?_padded width n
  have front : ((Text.padded width n).toList.take 9).takeWhile Char.isDigit =
      (Text.padded width n).toList := by
    rw [List.take_of_length_le (by omega), List.takeWhile_eq_self_iff]
    exact (Text.digit_of_digits? read).2
  have behind : (Text.padded width n).toList.drop width = [] := List.drop_of_length_le (by omega)
  simp [readFraction?, front, read, length, behind]

/-- The fraction of the second is read back, whatever number of places it is written with. -/
theorem readFraction?_fractionText (t : DateTime) :
    readFraction? t.fractionText.toList = some (t.nanosecond, []) := by
  have valid := t.valid
  simp only [isTime, Bool.and_eq_true, decide_eq_true_eq] at valid
  have places {width n : Nat} (h : n < 10 ^ width) (positive : 0 < width) (most : width ≤ 9)
      (whole : n * 10 ^ (9 - width) = t.nanosecond) :
      readFraction? ("." ++ Text.padded width n).toList = some (t.nanosecond, []) := by
    rw [String.toList_append, ← whole]
    exact readFraction?_padded h positive most
  simp only [fractionText]
  split
  · next zero =>
    rw [zero]
    rfl
  · split
    · exact places (by omega) (by decide) (by decide) (by omega)
    · split
      · exact places (by omega) (by decide) (by decide) (by omega)
      · exact places (by omega) (by decide) (by decide) (by omega)

/-- A point in time is read back from its text. -/
theorem ofText?_text (t : DateTime) : ofText? t.text = some t := by
  have valid := t.valid
  simp only [isTime, Bool.and_eq_true, decide_eq_true_eq] at valid
  let fraction := t.fractionText.toList
  have date := t.date.readDate?_text ('T' :: ((Text.padded 2 t.hour).toList ++ ':' ::
    ((Text.padded 2 t.minute).toList ++ ':' :: ((Text.padded 2 t.second).toList ++ fraction))))
  have hour := readNumber?_padded 2 t.hour (by omega) (by decide)
    (':' :: ((Text.padded 2 t.minute).toList ++ ':' ::
      ((Text.padded 2 t.second).toList ++ fraction)))
  have minute := readNumber?_padded 2 t.minute (by omega) (by decide)
    (':' :: ((Text.padded 2 t.second).toList ++ fraction))
  have second := readNumber?_padded 2 t.second (by omega) (by decide) fraction
  have nanosecond := t.readFraction?_fractionText
  have text : t.text.toList = t.date.text.toList ++ 'T' :: ((Text.padded 2 t.hour).toList ++ ':' ::
      ((Text.padded 2 t.minute).toList ++ ':' ::
        ((Text.padded 2 t.second).toList ++ fraction))) := by
    simp [DateTime.text, clockText, fraction]
  have time (cs : List Char) : readMark? 'T' ('T' :: cs) = some cs := readMark?_cons rfl cs
  have colon (cs : List Char) : readMark? ':' (':' :: cs) = some cs := readMark?_cons rfl cs
  have nothing : (Text.trimStart []).isEmpty = true := rfl
  rw [ofText?, text, date]
  simp only [Option.bind_eq_bind, Option.bind_some, time, hour, colon, minute, second, fraction,
    nanosecond]
  rw [if_pos nothing, dif_pos t.valid]

end DateTime

end Calendar

end SqlWright
