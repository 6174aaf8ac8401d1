import SqlWright.Calendar.DateTime
import SqlWright.Decimal.Shortest
import SqlWright.Proofs.Lexing.Positions
import SqlWright.Proofs.Lexing.Quoting

/-!
# Texts of values

Numbers have no quotes, so they pass wherever a token may begin. Days and points in time stand
between quotes that their own characters do not close. Identifiers and strings may hold anything,
and match in every form in which the lexical rules take them.
-/

namespace SqlWright

namespace Lexicon

variable {l : Lexicon} {p q : Position} {s : String}

/-- The text matches itself from one position to another. -/
abbrev Passes (l : Lexicon) (p q : Position) (s : String) : Prop := l.Matches p q s s

/-! ### Numbers -/

theorem passes_of_isCalm (h : s.toList.all isCalm = true) : l.Passes .ground .outside s := by
  have passes := matches_of_leads (l := l) (leads_of_isCalm h)
  rwa [String.ofList_toList] at passes

theorem isCalm_of_isDigit {c : Char} (h : c.isDigit = true) : isCalm c = true := by
  simp only [isCalm, Bool.and_eq_true, bne_iff_ne]
  refine ⟨⟨?_, ?_⟩, ?_⟩ <;> rintro rfl <;> cases h

/-- What all digits have, all characters of a number have. -/
theorem repr_all {P : Char → Bool} (digit : ∀ c, c.isDigit = true → P c = true) (n : Nat) :
    n.repr.toList.all P = true := by
  rw [Nat.toList_repr, List.all_eq_true]
  intro c hc
  exact digit c (Nat.isDigit_of_mem_toDigits (by decide) (by decide) hc)

/-- Whether the character is none of those that quoted tokens and comments begin or end with. -/
def isMild (c : Char) : Bool :=
  ['\x22', '\x27', '[', ']', '-', '/'].all (c != ·)

theorem isCalm_of_isMild {c : Char} (h : isMild c = true) : isCalm c = true := by
  simp only [isMild, List.all_cons, Bool.and_eq_true] at h
  simp only [isCalm, h, Bool.and_self]

theorem isMild_of_isDigit {c : Char} (h : c.isDigit = true) : isMild c = true := by
  simp only [isMild, List.all_cons, Bool.and_eq_true, bne_iff_ne]
  refine ⟨?_, ?_, ?_, ?_, ?_, ?_, rfl⟩ <;> rintro rfl <;> cases h

theorem repr_isMild (n : Nat) : n.repr.toList.all isMild = true :=
  repr_all (fun _ ↦ isMild_of_isDigit) n

theorem mild_word {cs : List Char} (h : cs.all isMild = true) :
    (String.ofList cs).toList.all isMild = true := by
  rwa [String.toList_ofList]

theorem mild_number {before after : List Char} (n : Nat) (hb : before.all isMild = true)
    (ha : after.all isMild = true) :
    (String.ofList before ++ n.repr ++ String.ofList after).toList.all isMild = true := by
  simp only [String.toList_append, String.toList_ofList, List.all_append, hb, ha, repr_isMild,
    Bool.and_self]

theorem mild_numbers {before between after : List Char} (m n : Nat)
    (hb : before.all isMild = true) (hm : between.all isMild = true)
    (ha : after.all isMild = true) :
    (String.ofList before ++ m.repr ++ String.ofList between ++ n.repr ++
      String.ofList after).toList.all isMild = true := by
  rw [String.toList_append, String.toList_append, List.all_append, List.all_append,
    mild_number m hb hm, repr_isMild, mild_word ha]
  rfl

theorem repr_isCalm (n : Nat) : n.repr.toList.all isCalm = true :=
  repr_all (fun _ ↦ isCalm_of_isDigit) n

theorem ofInt_isCalm (i : Int) : (Text.ofInt i).toList.all isCalm = true := by
  cases i with
  | ofNat n => exact repr_isCalm n
  | negSucc n =>
    rw [Text.ofInt, String.toList_append, List.all_append, repr_isCalm]
    rfl

/-- What all digits and the point have, all characters of a number with a fraction have. -/
theorem positional_all {P : Char → Bool} (digit : ∀ c, c.isDigit = true → P c = true)
    (point : P '.' = true) (digits : Nat) (power : Int) :
    (Decimal.positional digits power).all P = true := by
  have zeros (n : Nat) : (List.replicate n '0').all P = true := by
    rw [List.all_eq_true]
    intro c hc
    rw [List.eq_of_mem_replicate hc]
    exact digit '0' rfl
  have all : digits.repr.toList.all P = true := repr_all digit digits
  unfold Decimal.positional
  extract_lets number places wide whole fraction
  have wideAll : ∀ c ∈ wide, P c = true := by
    rw [← List.all_eq_true, List.all_append, zeros, all]
    rfl
  have wholeAll : whole.all P = true :=
    List.all_eq_true.mpr fun c hc ↦ wideAll c (List.mem_of_mem_take hc)
  split
  · split
    · exact zeros 1
    · rw [List.all_append, all, zeros]
      rfl
  · split
    · exact wholeAll
    · have fractionAll : fraction.reverse.all P = true := by
        rw [List.all_eq_true]
        intro c hc
        have inFraction := (List.dropWhile_sublist _).subset (List.mem_reverse.mp hc)
        exact wideAll c (List.mem_of_mem_drop (List.mem_reverse.mp inFraction))
      rw [List.all_append, wholeAll, List.all_cons, point, fractionAll]
      rfl

theorem positional_ne_nil (digits : Nat) (power : Int) : Decimal.positional digits power ≠ [] := by
  have some : digits.repr.toList ≠ [] := by
    rw [Nat.toList_repr]
    exact Nat.toDigits_ne_nil
  unfold Decimal.positional
  extract_lets number places wide whole fraction
  have long : places + 1 ≤ wide.length := by
    simp only [wide, List.length_append, List.length_replicate]
    omega
  have whole_ne_nil : whole ≠ [] := by
    rw [← List.length_pos_iff, List.length_take]
    omega
  split
  · split
    · exact List.cons_ne_nil _ _
    · exact List.append_ne_nil_of_left_ne_nil some _
  · split
    · exact whole_ne_nil
    · exact List.append_ne_nil_of_left_ne_nil whole_ne_nil _

theorem positional_isCalm (digits : Nat) (power : Int) :
    (Decimal.positional digits power).all isCalm = true :=
  positional_all (fun _ ↦ isCalm_of_isDigit) rfl digits power

theorem floatText_isCalm (x : Decimal.Binary64) : x.text.toList.all isCalm = true := by
  have sign : (if x.isNegative then "-" else "").toList.all isCalm = true := by
    split
    · rfl
    · rfl
  unfold Decimal.Binary64.text
  split
  · rfl
  · extract_lets mark
    split
    · rw [String.toList_append, String.toList_ofList, List.all_append, sign, positional_isCalm]
      rfl
    · rw [String.toList_append, List.all_append, sign]
      rfl

theorem passes_of_isMild (h : s.toList.all isMild = true) : l.Passes .ground .outside s :=
  passes_of_isCalm (List.all_eq_true.2 fun c hc ↦ isCalm_of_isMild (List.all_eq_true.1 h c hc))

/-- A number between words passes with them. -/
theorem passes_number {before after : List Char} (n : Nat)
    (hb : l.leads p before .ground = true) (ha : l.leads .outside after q = true) :
    l.Passes p q (String.ofList before ++ n.repr ++ String.ofList after) :=
  ((matches_of_leads hb).append (passes_of_isCalm (repr_isCalm n))).append (matches_of_leads ha)

/-! ### Days and points in time -/

/-- Whether the character stands for itself in every string. -/
def isDatum (c : Char) : Bool := isCalm c && c != '\\'

/-- Inside a string, characters that stand for themselves are read as they are. -/
theorem run_datum {cs : List Char} (h : cs.all isDatum = true) (payload : List Char) :
    l.run (.inside .plain payload) cs = ([], .inside .plain (payload ++ cs)) := by
  induction cs generalizing payload with
  | nil => simp [Lexicon.run]
  | cons c cs ih =>
    simp only [List.all_cons, Bool.and_eq_true, isDatum, isCalm, bne_iff_ne, ne_eq] at h
    obtain ⟨⟨⟨⟨-, quote⟩, -⟩, backslash⟩, rest⟩ := h
    have once : l.step (.inside .plain payload) c = ([], .inside .plain (payload ++ [c])) := by
      simp [step, Quotes.closing, quote, backslash]
    rw [Lexicon.run, once, ih (by simpa [isDatum, isCalm] using rest)]
    simp

theorem passes_inside (h : s.toList.all isDatum = true) (payload : List Char) :
    l.Passes (.reading (.inside .plain payload)) (.reading (.inside .plain (payload ++ s.toList)))
      s := by
  rintro m m' ⟨rfl, rfl⟩
  rw [run_datum h]
  exact ⟨.nil, rfl, rfl⟩

theorem isDatum_of_isDigit {c : Char} (h : c.isDigit = true) : isDatum c = true := by
  rw [isDatum, isCalm_of_isDigit h, Bool.true_and, bne_iff_ne]
  rintro rfl
  cases h

theorem padded_isDatum (width n : Nat) : (Text.padded width n).toList.all isDatum = true := by
  have digits : n.repr.toList.all isDatum = true := repr_all (fun _ ↦ isDatum_of_isDigit) n
  have zeros (k : Nat) : ("".pushn '0' k).toList.all isDatum = true := by
    unfold String.pushn
    induction k with
    | zero => rfl
    | succ k ih =>
      rw [Nat.repeat, String.toList_push, List.all_append, ih]
      rfl
  unfold Text.padded
  rw [String.toList_append, List.all_append, digits, zeros]
  rfl

theorem dateText_isDatum (d : Calendar.Date) : d.text.toList.all isDatum = true := by
  have year : (Calendar.Date.yearText d.year).toList.all isDatum = true := by
    unfold Calendar.Date.yearText
    split
    · exact padded_isDatum _ _
    · rw [String.toList_append, List.all_append, padded_isDatum, Bool.and_true]
      split
      · rfl
      · rfl
  simp only [Calendar.Date.text, String.toList_append, List.all_append, year, padded_isDatum]
  rfl

theorem milliText_isDatum {mark : String} (h : mark.toList.all isDatum = true)
    (t : Calendar.DateTime) : (t.milliText mark).toList.all isDatum = true := by
  simp only [Calendar.DateTime.milliText, Calendar.DateTime.clockText, String.toList_append,
    List.all_append, dateText_isDatum, padded_isDatum, h]
  rfl

/-- A value between quotes, if its characters stand for themselves, passes with the words around
it. -/
theorem passes_between {before after : List Char} (h : s.toList.all isDatum = true)
    (hb : l.leads .ground before (.reading (.inside .plain [])) = true)
    (ha : ∀ payload, l.leads (.reading (.inside .plain payload)) after .outside = true) :
    l.Passes .ground .outside (String.ofList before ++ s ++ String.ofList after) :=
  ((matches_of_leads hb).append (passes_inside h [])).append (matches_of_leads (ha _))

theorem passes_dateTime (t : Calendar.DateTime) :
    l.Passes .ground .outside ("TIMESTAMP '" ++ t.milliText " " ++ "'") :=
  passes_between (milliText_isDatum (by decide) t) rfl fun _ ↦ rfl

theorem passes_date (d : Calendar.Date) : l.Passes .ground .outside ("DATE '" ++ d.text ++ "'") :=
  passes_between (dateText_isDatum d) rfl fun _ ↦ rfl

/-! ### Identifiers and strings -/

/-- Texts quoted in one form match whatever they hold. -/
theorem matches_of_closing {form : Quotes} {x y : String} {cs cs' : List Char}
    (hx : l.run .ground x.toList = ([], .closing form cs))
    (hy : l.run .ground y.toList = ([], .closing form cs')) : l.Matches .ground .outside x y := by
  rintro m m' ⟨rfl, rfl⟩
  rw [hx, hy]
  exact ⟨.nil, .closing form cs cs'⟩

theorem matches_doubleQuotes (x y : String) :
    l.Matches .ground .outside (Quoting.doubleQuotes x) (Quoting.doubleQuotes y) :=
  matches_of_closing (run_doubleQuotes x) (run_doubleQuotes y)

theorem matches_brackets (h : l.brackets = true) (x y : String) :
    l.Matches .ground .outside (Quoting.brackets x) (Quoting.brackets y) :=
  matches_of_closing (run_brackets h x) (run_brackets h y)

theorem matches_quotedString (d : Dialect) (v : Version) (x y : String) :
    (d.lexicon v).Matches .ground .outside (d.quotedString v x) (d.quotedString v y) :=
  matches_of_closing (d.run_quotedString v x) (d.run_quotedString v y)

end Lexicon

end SqlWright
