import Mathlib.Data.List.TakeWhile
import SqlWright.Proofs.Calendar.Texts
import SqlWright.Proofs.Spelling.Patterns
import SqlWright.Server.Version

/-!
# Versions read back from banners

A version is read from the digits and points that a text begins with once the white space around
it is left out. Which texts have a version is said of these characters alone (`Version.HasParts`):
cut at the points, they have a part that is not empty, and the first two of these are numbers of
sixteen bits.
-/

namespace SqlWright

/-! ### Texts without the white space at their ends -/

namespace Text

variable {cs trimmed : List Char}

/-- A text is another one without the white space at its two ends. -/
structure IsTrimmed (cs trimmed : List Char) : Prop where
  ends : ∃ before after, cs = before ++ (trimmed ++ after) ∧ (∀ c ∈ before, isBlank c) ∧
    ∀ c ∈ after, isBlank c
  first : ∀ c ∈ trimmed.head?, isBlank c = false
  last : ∀ c ∈ trimmed.getLast?, isBlank c = false

theorem trimStart_of_head? (h : ∀ c ∈ cs.head?, isBlank c = false) : trimStart cs = cs := by
  cases cs with
  | nil => rfl
  | cons c cs => exact trimStart_cons (h c rfl)

/-- A text has one form without the white space at its ends. -/
theorem IsTrimmed.trim_eq (h : IsTrimmed cs trimmed) : trim cs = trimmed := by
  obtain ⟨before, after, rfl, hb, ha⟩ := h.ends
  have blank : ∀ c ∈ after.reverse, isBlank c := by simpa using ha
  have start : trimStart (trimmed ++ after) = trimStart trimmed ++ after ∨ trimmed = [] := by
    cases trimmed with
    | nil => exact .inr rfl
    | cons c trimmed =>
      have hc := h.first c rfl
      rw [List.cons_append, trimStart_cons hc, trimStart_cons hc]
      exact .inl rfl
  rw [trim, trimStart_append hb]
  obtain start | rfl := start
  · have last : ∀ c ∈ trimmed.reverse.head?, isBlank c = false := by
      simpa [List.head?_reverse] using h.last
    rw [start, trimStart_of_head? h.first, List.reverse_append, trimStart_append blank,
      trimStart_of_head? last, List.reverse_reverse]
  · have nothing : trimStart (after ++ []) = [] := trimStart_append ha
    rw [List.append_nil] at nothing
    rw [List.nil_append, nothing]
    rfl

/-- Every text ends with white space, if only with none of it. -/
theorem exists_blank_end (cs : List Char) : ∃ front after, cs = front ++ after ∧
    (∀ c ∈ after, isBlank c) ∧ ∀ c ∈ front.getLast?, isBlank c = false := by
  induction cs using List.reverseRecOn with
  | nil => exact ⟨[], [], rfl, nofun, nofun⟩
  | append_singleton cs c ih =>
    by_cases hc : isBlank c
    · obtain ⟨front, after, rfl, blank, last⟩ := ih
      refine ⟨front, after ++ [c], List.append_assoc .., ?_, last⟩
      simpa [or_imp, forall_and, hc] using blank
    · refine ⟨cs ++ [c], [], (List.append_nil _).symm, nofun, ?_⟩
      simpa using hc

theorem exists_isTrimmed (cs : List Char) : ∃ trimmed, IsTrimmed cs trimmed := by
  obtain ⟨trimmed, after, rest, blank, last⟩ := exists_blank_end (cs.dropWhile isBlank)
  refine ⟨trimmed, ⟨cs.takeWhile isBlank, after, ?_, fun c ↦ List.mem_takeWhile_imp, blank⟩, ?_,
    last⟩
  · rw [← rest, List.takeWhile_append_dropWhile]
  · intro c hc
    have stops := List.head?_dropWhile_not isBlank cs
    cases trimmed with
    | nil => cases hc
    | cons d trimmed =>
      cases hc
      rw [rest] at stops
      simpa using stops

/-! ### Texts cut at marks -/

section Marks

variable {mark : Char} {part : List Char} {parts : List (List Char)}

/-- Parts hold characters of the text that are no marks. -/
theorem of_mem_splitAt {isMark : Char → Bool} (h : part ∈ splitAt isMark cs) :
    ∀ c ∈ part, c ∈ cs ∧ isMark c = false := by
  induction cs generalizing part with
  | nil =>
    rw [splitAt, List.mem_singleton] at h
    simp [h]
  | cons d cs ih =>
    -- the first part may have got the first character
    have grown (h : part ∈ splitAt isMark cs) : ∀ c ∈ part, c ∈ d :: cs ∧ isMark c = false :=
      fun c hc ↦ (ih h c hc).imp_left (List.mem_cons_of_mem d)
    rw [splitAt] at h
    split at h
    · rcases List.mem_cons.1 h with rfl | h
      · simp
      · exact grown h
    · next plain =>
      split at h
      · next first others split =>
        rw [split] at grown ih
        rcases List.mem_cons.1 h with rfl | h
        · rintro c (_ | ⟨_, hc⟩)
          · exact ⟨List.mem_cons_self, by simpa using plain⟩
          · exact (ih List.mem_cons_self c hc).imp_left (List.mem_cons_of_mem d)
        · exact grown (List.mem_cons_of_mem _ h)
      · next none => exact absurd none (splitAt_ne_nil isMark cs)

theorem joined_cons_cons (part next : List Char) (parts : List (List Char)) :
    joined mark (part :: next :: parts) = part ++ mark :: joined mark (next :: parts) := rfl

theorem joined_cons (part : List Char) (parts : List (List Char)) :
    joined mark (part :: parts) = part ++ parts.flatMap (mark :: ·) := by
  induction parts generalizing part with
  | nil => simp [joined]
  | cons next parts ih => rw [joined_cons_cons, ih, List.flatMap_cons, List.cons_append]

theorem splitAt_of_forall (h : ∀ c ∈ part, c ≠ mark) : splitAt (· == mark) part = [part] := by
  induction part with
  | nil => rfl
  | cons c part ih =>
    obtain ⟨hc, rest⟩ := List.forall_mem_cons.1 h
    simp [splitAt, hc, ih rest]

theorem splitAt_append (h : ∀ c ∈ part, c ≠ mark) (cs : List Char) :
    splitAt (· == mark) (part ++ mark :: cs) = part :: splitAt (· == mark) cs := by
  induction part with
  | nil => simp [splitAt]
  | cons c part ih =>
    obtain ⟨hc, rest⟩ := List.forall_mem_cons.1 h
    simp [splitAt, hc, ih rest]

/-- Parts without marks are read back from the text that they are joined to. -/
theorem splitAt_joined (hne : parts ≠ []) (h : ∀ part ∈ parts, ∀ c ∈ part, c ≠ mark) :
    splitAt (· == mark) (joined mark parts) = parts := by
  induction parts with
  | nil => exact absurd rfl hne
  | cons part parts ih =>
    obtain ⟨first, others⟩ := List.forall_mem_cons.1 h
    cases parts with
    | nil => exact splitAt_of_forall first
    | cons next parts =>
      rw [joined_cons_cons, splitAt_append first, ih (List.cons_ne_nil _ _) others]

end Marks

end Text

namespace Version

open Text

variable {cs : List Char} {parts : List (List Char)}

/-! ### Parts of a text -/

/-- Whether the character is a digit or a point. -/
def isNumberChar (c : Char) : Bool := c.isDigit || c == '.'

/-- Digits between points, as far as there are any, begin the text once the white space around it
is left out. -/
structure HasParts (cs : List Char) (parts : List (List Char)) : Prop where
  ne_nil : parts ≠ []
  digits : ∀ part ∈ parts, ∀ c ∈ part, c.isDigit = true
  front : ∃ rest, IsTrimmed cs (joined '.' parts ++ rest) ∧ ∀ c ∈ rest.head?, isNumberChar c = false

theorem isBlank_of_isNumberChar {c : Char} (h : isNumberChar c = true) : isBlank c = false := by
  rw [isNumberChar, Bool.or_eq_true, beq_iff_eq] at h
  rcases h with h | rfl
  · exact isBlank_of_isDigit h
  · rfl

/-- Digits are no points. -/
theorem ne_point {c : Char} (h : c.isDigit = true) : c ≠ '.' := by
  rintro rfl
  cases h

theorem isNumberChar_joined (h : ∀ part ∈ parts, ∀ c ∈ part, c.isDigit = true) :
    ∀ c ∈ joined '.' parts, isNumberChar c = true := by
  induction parts with
  | nil => nofun
  | cons part parts ih =>
    obtain ⟨first, others⟩ := List.forall_mem_cons.1 h
    have digit : ∀ c ∈ part, isNumberChar c = true := fun c hc ↦ by
      rw [isNumberChar, first c hc, Bool.true_or]
    cases parts with
    | nil => exact digit
    | cons next parts =>
      intro c hc
      rw [joined_cons_cons, List.mem_append, List.mem_cons] at hc
      rcases hc with hc | rfl | hc
      · exact digit c hc
      · rfl
      · exact ih others c hc

/-- The parts that are not empty are those that a version is read from. -/
theorem HasParts.numberParts_eq (h : HasParts cs parts) :
    numberParts cs = parts.filter (!·.isEmpty) := by
  obtain ⟨rest, trimmed, stops⟩ := h.front
  have none : rest.takeWhile isNumberChar = [] := by
    cases rest with
    | nil => rfl
    | cons c rest => simp [stops c rfl]
  have front : (trim cs).takeWhile isNumberChar = joined '.' parts := by
    rw [trimmed.trim_eq, List.takeWhile_append_of_pos (isNumberChar_joined h.digits), none,
      List.append_nil]
  have split := splitAt_joined h.ne_nil fun part hp c hc ↦ ne_point (h.digits part hp c hc)
  rw [← front] at split
  exact congrArg (List.filter _) split

/-- Every text has parts. -/
theorem exists_hasParts (cs : List Char) : ∃ parts, HasParts cs parts := by
  obtain ⟨trimmed, h⟩ := exists_isTrimmed cs
  refine ⟨splitAt (· == '.') (trimmed.takeWhile isNumberChar), splitAt_ne_nil _ _, ?_,
    trimmed.dropWhile isNumberChar, ?_, ?_⟩
  · intro part hp c hc
    obtain ⟨mem, plain⟩ := of_mem_splitAt hp c hc
    have number := List.mem_takeWhile_imp mem
    rwa [isNumberChar, plain, Bool.or_false] at number
  · rwa [joined_splitAt, List.takeWhile_append_dropWhile]
  · intro c hc
    have stops := List.head?_dropWhile_not isNumberChar trimmed
    rw [hc] at stops
    simpa using stops

/-- Parts with a digit or a point are those of every text that has white space in front of them
and goes on with no digit and no point. -/
theorem hasParts_append {before rest : List Char} (blank : ∀ c ∈ before, isBlank c)
    (hne : parts ≠ []) (digits : ∀ part ∈ parts, ∀ c ∈ part, c.isDigit = true)
    (some : joined '.' parts ≠ []) (stops : ∀ c ∈ rest.head?, isNumberChar c = false) :
    HasParts (before ++ (joined '.' parts ++ rest)) parts := by
  have plain (c : Char) (hc : c ∈ joined '.' parts) : isBlank c = false :=
    isBlank_of_isNumberChar (isNumberChar_joined digits c hc)
  obtain ⟨rest, after, rfl, ends, last⟩ := exists_blank_end rest
  refine ⟨hne, digits, rest, ⟨⟨before, after, by simp, blank, ends⟩, ?_, ?_⟩, ?_⟩
  · intro c hc
    rw [List.head?_append_of_ne_nil _ some] at hc
    exact plain c (List.mem_of_mem_head? hc)
  · intro c hc
    rw [List.getLast?_append, Option.mem_def, Option.or_eq_some_iff] at hc
    rcases hc with hc | ⟨-, hc⟩
    · exact last c hc
    · exact plain c (List.mem_of_mem_getLast? hc)
  · intro c hc
    exact stops c (by simpa [List.head?_append] using .inl hc)

/-! ### Numbers of the parts -/

/-- Number that digits spell. -/
def valueOf (digits : List Char) : Nat := Nat.ofDigitChars 10 digits 0

theorem number?_isSome_iff {part : List Char} (hne : part ≠ [])
    (h : ∀ c ∈ part, c.isDigit = true) :
    (number? part).isSome ↔ valueOf part < UInt16.size := by
  simp only [number?, Option.isSome_map, Option.isSome_iff_exists, unsigned?_eq_some]
  constructor
  · rintro ⟨n, numeral, low⟩
    cases numeral with
    | digits _ _ => exact low
    | plus _ _ => exact absurd (h '+' List.mem_cons_self) (by decide)
  · exact fun low ↦ ⟨_, .digits hne h, low⟩

/-- Written numbers are read back. -/
theorem number?_repr (n : UInt16) : number? n.toNat.repr.toList = some n := by
  obtain ⟨⟨hne, digits⟩, value⟩ := digits?_eq_some.1 (digits?_repr n.toNat)
  have numeral := IsNumeral.digits hne digits
  rw [value] at numeral
  rw [number?, unsigned?_eq_some.2 ⟨numeral, n.toNat_lt⟩, Option.map_some, UInt16.ofNat_toNat]

theorem ofParts?_isSome_iff {major : List Char} {others : List (List Char)} :
    (ofParts? (major :: others)).isSome ↔
      (number? major).isSome ∧ ∀ minor ∈ others.head?, (number? minor).isSome := by
  cases others with
  | nil => simp [ofParts?]
  | cons minor others =>
    cases hm : number? major <;> cases hn : number? minor <;> simp [ofParts?, hm, hn]

theorem ofText_eq_ok {s : String} {v : Version} :
    ofText s = .ok v ↔ ofParts? (numberParts s.toList) = some v := by
  unfold ofText
  split
  · next w found => rw [found, Except.ok.injEq, Option.some.injEq]
  · next none => simp [none]

/-- Of the parts that are not empty there is a first one, and it and the second one, if there is
one, spell numbers of sixteen bits. -/
def Fits (parts : List (List Char)) : Prop :=
  ∃ major others, parts.filter (!·.isEmpty) = major :: others ∧
    valueOf major < UInt16.size ∧ ∀ minor ∈ others.head?, valueOf minor < UInt16.size

/-- A version is read exactly from the parts that fit. -/
theorem HasParts.ofText_iff {s : String} (h : HasParts s.toList parts) :
    (∃ v, ofText s = .ok v) ↔ Fits parts := by
  simp only [ofText_eq_ok, ← Option.isSome_iff_exists, h.numberParts_eq]
  have given : ∀ part ∈ parts.filter (!·.isEmpty),
      (number? part).isSome ↔ valueOf part < UInt16.size := by
    intro part hp
    obtain ⟨mem, some⟩ := List.mem_filter.1 hp
    exact number?_isSome_iff (by simpa using some) (h.digits part mem)
  unfold Fits
  cases found : parts.filter (!·.isEmpty) with
  | nil => simp [ofParts?]
  | cons major others =>
    rw [found, List.forall_mem_cons] at given
    have minor : (∀ part ∈ others.head?, (number? part).isSome) ↔
        ∀ part ∈ others.head?, valueOf part < UInt16.size :=
      forall₂_congr fun part hp ↦ given.2 part (List.mem_of_mem_head? hp)
    rw [ofParts?_isSome_iff, given.1, minor]
    simp

/-- A written version is read back from what begins with it and goes on with further numbers. -/
theorem ofText_of_text (v : Version) (before rest : String) (builds : List String)
    (blank : ∀ c ∈ before.toList, isBlank c = true)
    (digits : ∀ build ∈ builds, ∀ c ∈ build.toList, c.isDigit = true)
    (stops : ∀ c ∈ rest.toList.head?, isNumberChar c = false) :
    ofText (before ++ v.text ++ String.join (builds.map ("." ++ ·)) ++ rest) = .ok v := by
  have written (n : UInt16) : ∀ c ∈ n.toNat.repr.toList, c.isDigit = true :=
    (digit_of_digits? (digits?_repr n.toNat)).2
  let parts := v.major.toNat.repr.toList :: v.minor.toNat.repr.toList :: builds.map String.toList
  have text : (before ++ v.text ++ String.join (builds.map ("." ++ ·)) ++ rest).toList =
      before.toList ++ (joined '.' parts ++ rest.toList) := by
    simp [parts, Version.text, joined_cons, String.toList_join, List.flatMap_map]
  have h : HasParts (before.toList ++ (joined '.' parts ++ rest.toList)) parts := by
    refine hasParts_append blank (List.cons_ne_nil _ _) ?_ (by simp [parts, joined_cons]) stops
    refine List.forall_mem_cons.2 ⟨written _, List.forall_mem_cons.2 ⟨written _, ?_⟩⟩
    simpa using digits
  have filtered : parts.filter (!·.isEmpty) = v.major.toNat.repr.toList ::
      v.minor.toNat.repr.toList :: (builds.map String.toList).filter (!·.isEmpty) := by
    rw [List.filter_cons_of_pos (by simp), List.filter_cons_of_pos (by simp)]
  rw [ofText_eq_ok, text, h.numberParts_eq, filtered, ofParts?, number?_repr, number?_repr]
  rfl

/-- A written version with white space in front is read back, whether build numbers follow or text
that goes on with no digit and no point. And exactly those texts have a version whose digits and
points in front, cut at the points, have parts that are not empty and of which the first two are
numbers of sixteen bits. -/
theorem ofText_banner :
    (∀ (v : Version) (before rest : String) (builds : List String),
      (∀ c ∈ before.toList, isBlank c = true) →
      (∀ build ∈ builds, ∀ c ∈ build.toList, c.isDigit = true) →
      (∀ c ∈ rest.toList.head?, isNumberChar c = false) →
        ofText (before ++ v.text ++ String.join (builds.map ("." ++ ·)) ++ rest) = .ok v) ∧
    ∀ s, (∃ v, ofText s = .ok v) ↔ ∃ parts, HasParts s.toList parts ∧ Fits parts := by
  refine ⟨fun v before rest builds blank digits stops ↦ ?_, fun s ↦ ⟨fun found ↦ ?_, ?_⟩⟩
  · exact ofText_of_text v before rest builds blank digits stops
  · obtain ⟨parts, h⟩ := exists_hasParts s.toList
    exact ⟨parts, h, h.ofText_iff.1 found⟩
  · rintro ⟨parts, h, fits⟩
    exact h.ofText_iff.2 fits

/-- The banner of a server with a build number and the name of its system, and a text of one part
that spells more than sixteen bits. -/
theorem ofText_banner_of_debian :
    ofText " 15.4.1 (Debian 15.4-2)" = .ok ⟨15, 4⟩ ∧ ¬ ∃ v, ofText "65536 " = .ok v := by
  constructor
  · have blank : " ".toList.all isBlank := by decide
    have digit : "1".toList.all Char.isDigit := by decide
    refine ofText_banner.1 ⟨15, 4⟩ " " " (Debian 15.4-2)" ["1"] (List.all_eq_true.1 blank) ?_ ?_
    · exact List.forall_mem_singleton.2 (List.all_eq_true.1 digit)
    · rintro c ⟨⟩
      rfl
  · rw [ofText_banner.2]
    rintro ⟨parts, h, major, others, found, low, -⟩
    have number : numberParts "65536 ".toList = ["65536".toList] := by decide
    rw [← h.numberParts_eq, number] at found
    cases found
    exact absurd low (by decide)

end Version

end SqlWright
