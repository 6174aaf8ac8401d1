import SqlWright.Proofs.Lexing.Showing

/-!
# Texts without comments

A comment begins with two characters outside quoted tokens. A text is silent if no comment begins in
it, or where it meets another text, whatever stands before it that leaves no quoted token open; and
it leaves none open itself. So what is put together from silent texts has no comment.
-/

namespace SqlWright

variable {l : Lexicon} {m : Mode} {c : Char} {s t cs : List Char}

/-- Whether no quoted token is open, and the one before, if there is one, is of a form that the
lexical rules have. -/
def Mode.isOpen (l : Lexicon) : Mode → Bool
  | .ground | .word _ => true
  | .closing form _ => form != .escaped || l.escapeStrings
  | .inside _ _ | .escape _ _ => false

namespace Lexicon

/-- Character that makes a comment begin where it stands behind the character. -/
def commentMark? (c : Char) : Option Char :=
  if c = '-' then some '-' else if c = '/' then some '*' else none

/-- Whether no comment begins with the character in front of a text, whatever follows the text. -/
def beginsNone (c : Char) (rest : List Char) : Bool :=
  (commentMark? c).all fun mark ↦ rest.head?.any (· != mark)

/-- Whether no comment begins in the text outside quoted tokens, whatever follows it. -/
def isQuiet (l : Lexicon) : Mode → List Char → Bool
  | _, [] => true
  | m, c :: cs => (m.isQuoted || beginsNone c cs) && l.isQuiet (l.step m c).2 cs

/-- After any text that leaves no quoted token open, no comment begins in the text, and it leaves
no quoted token open. -/
def Silent (l : Lexicon) (s : List Char) : Prop :=
  ∀ m : Mode, m.isOpen l = true → (l.run m s).2.isOpen l = true ∧ l.isQuiet m s = true

theorem beginsNone_append (h : beginsNone c s = true) (t : List Char) :
    beginsNone c (s ++ t) = true := by
  simp only [beginsNone, Option.all_eq_true] at h ⊢
  intro mark hm
  cases s with
  | nil => exact absurd (h mark hm) Bool.false_ne_true
  | cons d s => exact h mark hm

theorem isQuiet_append (hs : l.isQuiet m s = true) (ht : l.isQuiet (l.run m s).2 t = true) :
    l.isQuiet m (s ++ t) = true := by
  induction s generalizing m with
  | nil => exact ht
  | cons c s ih =>
    simp only [isQuiet, Bool.and_eq_true, Bool.or_eq_true] at hs
    rw [List.cons_append, isQuiet, ih hs.2 ht, Bool.and_true, Bool.or_eq_true]
    exact hs.1.imp_right fun none ↦ beginsNone_append none t

theorem isQuiet_of_append (h : l.isQuiet m (s ++ t) = true) :
    l.isQuiet (l.run m s).2 t = true := by
  induction s generalizing m with
  | nil => exact h
  | cons c s ih =>
    rw [List.cons_append, isQuiet, Bool.and_eq_true] at h
    exact ih h.2

namespace Silent

theorem nil : l.Silent [] := fun _ ho ↦ ⟨ho, rfl⟩

/-- Silent texts one after the other are a silent text. -/
theorem append (hs : l.Silent s) (ht : l.Silent t) : l.Silent (s ++ t) := by
  intro m ho
  obtain ⟨opens, quiet⟩ := hs m ho
  obtain ⟨opens', quiet'⟩ := ht _ opens
  rw [run_append]
  exact ⟨opens', isQuiet_append quiet quiet'⟩

/-- In a silent text no comment shows. -/
theorem not_shows {text part : String} (h : l.Silent text.toList) (c mark : Char)
    (hp : part.toList = [c, mark]) (hm : commentMark? c = some mark) : ¬l.Shows part text := by
  rintro ⟨before, after, rfl, outside⟩
  have first := outside [] (List.nil_prefix)
  rw [List.append_nil] at first
  have quiet := (h .ground rfl).2
  rw [String.toList_append, String.toList_append, hp, List.append_assoc] at quiet
  have quiet := isQuiet_of_append quiet
  simp [isQuiet, first, beginsNone, hm] at quiet

end Silent

/-! ### Texts without dashes, slashes and quotes -/

theorem isOpen_start (h : isMild c = true) : (l.start c).2.isOpen l = true := by
  obtain ground | word := start_isCalm (l := l) (isCalm_of_isMild h)
  · rw [ground]
    rfl
  · rw [word]
    rfl

theorem isOpen_step (ho : m.isOpen l = true) (h : isMild c = true) :
    (l.step m c).2.isOpen l = true := by
  have started := isOpen_start (l := l) h
  simp only [isMild, List.all_cons, Bool.and_eq_true, bne_iff_ne, ne_eq] at h
  obtain ⟨noDouble, noSingle, -, noBracket, -⟩ := h
  cases m with
  | inside | escape => cases ho
  | ground => exact started
  | word text =>
    simp only [step, beq_iff_eq, noSingle, if_false]
    split
    · rfl
    · exact started
  | closing form payload =>
    have other : c ≠ form.closing := by cases form <;> assumption
    simp only [step, beq_iff_eq, other, if_false]
    exact started

theorem beginsNone_of_isMild (h : isMild c = true) (cs : List Char) : beginsNone c cs = true := by
  simp only [isMild, List.all_cons, Bool.and_eq_true, bne_iff_ne, ne_eq] at h
  obtain ⟨-, -, -, -, noDash, noSlash, -⟩ := h
  simp [beginsNone, commentMark?, noDash, noSlash]

theorem Silent.cons (h : isMild c = true) (hs : l.Silent s) : l.Silent (c :: s) := by
  intro m ho
  obtain ⟨opens, quiet⟩ := hs _ (isOpen_step ho h)
  refine ⟨opens, ?_⟩
  rw [isQuiet, beginsNone_of_isMild h, Bool.or_true, quiet, Bool.and_self]

theorem silent_of_isMild (h : s.all isMild = true) : l.Silent s := by
  induction s with
  | nil => exact .nil
  | cons c s ih =>
    rw [List.all_cons, Bool.and_eq_true] at h
    exact .cons h.1 (ih h.2)

/-- A text that is given by its characters is silent if they are mild. -/
theorem silent_of_mild {cs : List Char} (h : cs.all isMild = true) :
    l.Silent (String.ofList cs).toList := silent_of_isMild (mild_word h)

/-- Whether the text is silent: from some character on that no token goes on with it is known how
it is read, and before there are no dashes, slashes and quotes. -/
def isSteady (l : Lexicon) : List Char → Bool
  | [] => true
  | c :: cs =>
    isMild c && l.isSteady cs ||
      isBreak c && l.isQuiet .ground (c :: cs) && (l.run .ground (c :: cs)).2.isOpen l

theorem silent_of_isSteady (h : l.isSteady s = true) : l.Silent s := by
  induction s with
  | nil => exact .nil
  | cons c s ih =>
    simp only [isSteady, Bool.or_eq_true, Bool.and_eq_true] at h
    obtain ⟨mild, steady⟩ | ⟨⟨breaks, quiet⟩, opens⟩ := h
    · exact .cons mild (ih steady)
    · intro m ho
      have outside : m.Outside m := by
        cases m with
        | ground => exact .ground
        | word text => exact .word text
        | closing form payload => exact .closing form payload payload
        | inside | escape => cases ho
      obtain ⟨-, same, -⟩ := step_break (l := l) breaks outside
      have ground : (l.step .ground c).2 = (l.start c).2 := rfl
      rw [isQuiet, Bool.and_eq_true, Bool.or_eq_true, ground] at quiet
      refine ⟨?_, ?_⟩
      · rw [run, same]
        exact opens
      · rw [isQuiet, same, quiet.2, Bool.and_true, Bool.or_eq_true]
        exact .inr (quiet.1.resolve_left Bool.false_ne_true)

/-! ### Quoted texts -/

/-- Inside a quoted token, a text in which the delimiter is written twice, and the escape if it is
one, neither ends the token nor begins a comment. -/
theorem inside_doubled {form : Quotes} {isDoubled : Char → Bool}
    (closing : isDoubled form.closing = true)
    (escape : l.hasEscapes form = true → isDoubled '\\' = true)
    (only : ∀ c, isDoubled c = true → c = form.closing ∨ c = '\\') (cs payload : List Char) :
    ∃ payload', (l.run (.inside form payload) (Quoting.doubled isDoubled cs)).2 =
        .inside form payload' ∧
      l.isQuiet (.inside form payload) (Quoting.doubled isDoubled cs) = true := by
  induction cs generalizing payload with
  | nil => exact ⟨payload, rfl, rfl⟩
  | cons c cs ih =>
    have once : ∃ payload', (l.run (.inside form payload)
        (if isDoubled c then [c, c] else [c])).2 = .inside form payload' ∧
        l.isQuiet (.inside form payload) (if isDoubled c then [c, c] else [c]) = true := by
      have delimiter : beginsNone form.closing [] = true := by cases form <;> rfl
      have backslash : '\\' ≠ form.closing := by cases form <;> decide
      by_cases hd : isDoubled c
      · rw [if_pos hd]
        obtain rfl | rfl := only c hd
        · simp [run, step, isQuiet, Mode.isQuoted, delimiter]
        · by_cases escapes : l.hasEscapes form
          · simp [run, step, isQuiet, Mode.isQuoted, backslash, escapes]
          · simp [run, step, isQuiet, Mode.isQuoted, backslash, escapes]
      · rw [if_neg hd]
        have other : c ≠ form.closing := by
          rintro rfl
          exact hd closing
        have plain : (c == '\\' && l.hasEscapes form) = false := by
          rw [Bool.and_eq_false_imp, beq_iff_eq]
          rintro rfl
          exact Bool.eq_false_iff.2 fun escapes ↦ hd (escape escapes)
        simp [run, step, isQuiet, Mode.isQuoted, other, plain]
    obtain ⟨payload₁, first, quiet⟩ := once
    obtain ⟨payload', rest, quiet'⟩ := ih payload₁
    refine ⟨payload', ?_, ?_⟩
    · rw [Quoting.doubled, List.flatMap_cons, run_append, first]
      exact rest
    · rw [Quoting.doubled, List.flatMap_cons]
      exact isQuiet_append quiet (by rw [first]; exact quiet')

theorem opened?_cases {q : Char} {form : Quotes} (hq : l.opened? q = some form) :
    q = '\x22' ∧ form = .doubleQuoted ∨ q = '\x27' ∧ form = .plain ∨
      q = '[' ∧ form = .bracketed := by
  unfold opened? at hq
  split_ifs at hq with h₁ h₂ h₃
  · exact .inl ⟨by simpa using h₁, (Option.some.inj hq).symm⟩
  · exact .inr (.inl ⟨by simpa using h₂, (Option.some.inj hq).symm⟩)
  · rw [Bool.and_eq_true, beq_iff_eq] at h₃
    exact .inr (.inr ⟨h₃.1, (Option.some.inj hq).symm⟩)

/-- A character that opens a quoted token of its own opens one wherever none is open, or goes on
with the one before. -/
theorem step_opening {q : Char} {form : Quotes} (hq : l.opened? q = some form)
    (ho : m.isOpen l = true) : ∃ form' payload, (l.step m q).2 = .inside form' payload ∧
      form'.closing = form.closing ∧ (form' = .escaped → l.escapeStrings = true) := by
  have started : (l.start q).2 = .inside form [] := by simp [start, hq]
  obtain ⟨own, same⟩ : (form = .escaped → l.escapeStrings = true) ∧
      ∀ form' : Quotes, q = form'.closing → form'.closing = form.closing := by
    obtain ⟨rfl, rfl⟩ | ⟨rfl, rfl⟩ | ⟨rfl, rfl⟩ := opened?_cases hq
    all_goals exact ⟨by rintro ⟨⟩, by rintro (_ | _) <;> decide⟩
  cases m with
  | inside | escape => cases ho
  | ground => exact ⟨form, [], started, rfl, own⟩
  | word text =>
    obtain ⟨rfl, rfl⟩ | ⟨rfl, rfl⟩ | ⟨rfl, rfl⟩ := opened?_cases hq
    · exact ⟨_, [], started, rfl, own⟩
    · -- A word in front of the quote may mark the string.
      have noWord : isWordChar '\x27' = false := rfl
      cases hm : l.marked? text with
      | none => exact ⟨.plain, [], by simp [step, noWord, hm], rfl, by rintro ⟨⟩⟩
      | some form' =>
        refine ⟨form', [], by simp [step, noWord, hm], ?_⟩
        unfold marked? at hm
        split at hm
        · cases hm
          exact ⟨rfl, by rintro ⟨⟩⟩
        · cases hm
          exact ⟨rfl, by rintro ⟨⟩⟩
        · rw [Option.ite_none_right_eq_some] at hm
          exact ⟨by cases hm.2; rfl, fun _ ↦ hm.1⟩
        · rw [Option.ite_none_right_eq_some] at hm
          exact ⟨by cases hm.2; rfl, fun _ ↦ hm.1⟩
        · cases hm
    · exact ⟨_, [], started, rfl, own⟩
  | closing form' payload =>
    by_cases closes : q = form'.closing
    · refine ⟨form', payload ++ [q], by simp [step, closes], same form' closes, ?_⟩
      rintro rfl
      simpa [Mode.isOpen] using ho
    · exact ⟨form, [], by simp [step, closes, started], rfl, own⟩

/-- A text between quotes is silent if the delimiter is written twice in it, and the backslash where
it may be an escape. -/
theorem silent_quoted {q : Char} {form : Quotes} (hq : l.opened? q = some form)
    (isDoubled : Char → Bool) (closing : isDoubled form.closing = true)
    (escape : form.closing = '\x27' → l.escapeStrings = true ∨ l.backslashes = true →
      isDoubled '\\' = true)
    (only : ∀ c, isDoubled c = true → c = form.closing ∨ c = '\\') (cs : List Char) :
    l.Silent (q :: (Quoting.doubled isDoubled cs ++ [form.closing])) := by
  intro m ho
  obtain ⟨form', payload, first, same, formed⟩ := step_opening hq ho
  have escapes (h : l.hasEscapes form' = true) : isDoubled '\\' = true := by
    cases form' with
    | doubleQuoted | bracketed => cases h
    | plain | national => exact escape same.symm (.inr h)
    | escaped => exact escape same.symm (.inl (formed rfl))
  rw [← same] at closing only ⊢
  obtain ⟨payload', ends, quiet⟩ := inside_doubled closing escapes only cs payload
  have last : (l.step (.inside form' payload') form'.closing).2 = .closing form' payload' := by
    simp [step]
  refine ⟨?_, ?_⟩
  · rw [run, first, run_append, ends]
    simp only [run, last, Mode.isOpen, Bool.or_eq_true, bne_iff_ne]
    exact (Classical.em (form' = .escaped)).symm.imp_right formed
  · have none : beginsNone q [] = true := by
      obtain ⟨rfl, -⟩ | ⟨rfl, -⟩ | ⟨rfl, -⟩ := opened?_cases hq <;> rfl
    have mark : beginsNone form'.closing [] = true := by cases form' <;> rfl
    rw [isQuiet, first, Bool.and_eq_true, Bool.or_eq_true]
    refine ⟨.inr (beginsNone_append none _), isQuiet_append quiet ?_⟩
    rw [ends, isQuiet, mark, Bool.or_true]
    rfl

theorem silent_enclosed (form : Quotes) {opening : String} {q : Char} (ho : opening.toList = [q])
    (hq : l.opened? q = some form) {isDoubled : Char → Bool}
    (closing : isDoubled form.closing = true)
    (escape : form.closing = '\x27' → l.escapeStrings = true ∨ l.backslashes = true →
      isDoubled '\\' = true)
    (only : ∀ c, isDoubled c = true → c = form.closing ∨ c = '\\') (cs : List Char) :
    l.Silent (Quoting.enclosed opening form.closing isDoubled cs).toList := by
  rw [Quoting.enclosed, String.toList_append, String.toList_ofList, ho]
  exact silent_quoted hq isDoubled closing escape only cs

theorem silent_doubleQuotes (name : String) : l.Silent (Quoting.doubleQuotes name).toList :=
  silent_enclosed .doubleQuoted rfl rfl rfl (fun h ↦ absurd h (by decide))
    (fun _ hc ↦ .inl (eq_of_beq hc)) _

theorem silent_brackets (h : l.brackets = true) (name : String) :
    l.Silent (Quoting.brackets name).toList := by
  have opened : l.opened? '[' = some .bracketed := by simp [opened?, h]
  exact silent_enclosed .bracketed rfl opened rfl (fun h ↦ absurd h (by decide))
    (fun _ hc ↦ .inl (eq_of_beq hc)) _

theorem silent_plainString (h : l.escapeStrings = false) (h' : l.backslashes = false)
    (value : String) : l.Silent (Quoting.plainString value).toList :=
  silent_enclosed .plain rfl rfl rfl (by simp [h, h']) (fun _ hc ↦ .inl (eq_of_beq hc)) _

theorem silent_backslashString (value : String) :
    l.Silent (Quoting.backslashString value).toList :=
  silent_enclosed .plain rfl rfl rfl (fun _ _ ↦ rfl)
    (fun _ hc ↦ (Bool.or_eq_true_iff.1 hc).imp eq_of_beq eq_of_beq) _

/-- Strings are silent in the lexical rules that they are quoted for. -/
theorem silent_quotedString (d : Dialect) (v : Version) (value : String) :
    (d.lexicon v).Silent (d.quotedString v value).toList := by
  cases d with
  | postgreSql =>
    unfold Dialect.quotedString
    by_cases marked : v.isSince ⟨8, 1⟩
    · simp only [marked, if_true, Quoting.escapeString, String.toList_append]
      exact .append (silent_of_isMild rfl) (silent_backslashString value)
    · simp only [marked, Bool.false_eq_true, if_false]
      exact silent_backslashString value
  | sqlServer =>
    simp only [Dialect.quotedString, Quoting.nationalString, String.toList_append]
    exact .append (silent_of_isMild rfl) (silent_plainString rfl rfl value)
  | oracle => exact silent_plainString rfl rfl value

/-! ### Numbers, days and points in time -/

/-- A dash in front of a number does not begin a comment. -/
theorem silent_negative (h : s.all isMild = true) (some : s ≠ []) : l.Silent ('-' :: s) := by
  obtain ⟨c, cs, rfl⟩ := List.exists_cons_of_ne_nil some
  obtain ⟨opens, quiet⟩ := silent_of_isMild (l := l) h .ground rfl
  have dash : c ≠ '-' := by
    rintro rfl
    cases h
  have read : l.step .ground '-' = ([.symbol '-'], .ground) := rfl
  have breaks : isBreak '-' = true := rfl
  refine silent_of_isSteady ?_
  rw [isSteady, isQuiet, run, read, breaks, quiet, opens]
  simp [beginsNone, commentMark?, dash]

theorem silent_ofInt (i : Int) : l.Silent (Text.ofInt i).toList := by
  cases i with
  | ofNat n => exact silent_of_isMild (repr_isMild n)
  | negSucc n =>
    rw [Text.ofInt, String.toList_append]
    refine silent_negative (repr_isMild (n + 1)) ?_
    rw [Nat.toList_repr]
    exact Nat.toDigits_ne_nil

theorem silent_floatText (x : Decimal.Binary64) : l.Silent x.text.toList := by
  have signed {number : List Char} (h : number.all isMild = true) (some : number ≠ []) :
      l.Silent ((if x.isNegative then "-" else "").toList ++ number) := by
    split
    · exact silent_negative h some
    · exact silent_of_isMild h
  unfold Decimal.Binary64.text
  split
  · exact silent_of_isMild rfl
  · extract_lets mark
    split
    · rw [String.toList_append, String.toList_ofList]
      exact signed (positional_all (fun _ ↦ isMild_of_isDigit) rfl _ _) (positional_ne_nil _ _)
    · rw [String.toList_append]
      exact signed rfl (by decide)

/-- A value between quotes is silent if its characters stand for themselves. -/
theorem silent_datum (h : s.all isDatum = true) : l.Silent ('\x27' :: (s ++ ['\x27'])) := by
  have same : Quoting.doubled (fun c ↦ c == '\x27' || c == '\\') s = s := by
    induction s with
    | nil => rfl
    | cons c s ih =>
      rw [List.all_cons, Bool.and_eq_true] at h
      have single : ¬(c = '\x27' ∨ c = '\\') := by
        rintro (rfl | rfl) <;> exact absurd h.1 (by decide)
      have rest := ih h.2
      simp only [Quoting.doubled, List.flatMap_cons, Bool.or_eq_true, beq_iff_eq, single,
        if_false] at rest ⊢
      rw [rest, List.singleton_append]
  have opened : l.opened? '\x27' = some .plain := rfl
  have quoted := silent_quoted opened (fun c ↦ c == '\x27' || c == '\\') rfl (fun _ _ ↦ rfl)
    (fun _ hc ↦ (Bool.or_eq_true_iff.1 hc).imp eq_of_beq eq_of_beq) s
  rw [same] at quoted
  exact quoted

/-! ### Templates -/

/-- Characters in front of the first slot, and those behind each slot up to the next. -/
def runs : List Template.Symbol → List Char × List (List Char)
  | [] => ([], [])
  | .char c :: rest => (c :: (runs rest).1, (runs rest).2)
  | .slot _ :: rest => ([], (runs rest).1 :: (runs rest).2)

/-- Whether the texts between the slots of a pattern are silent. -/
def isSteadyPattern (l : Lexicon) (cs : List Char) : Bool :=
  Template.hasThreeSlots cs && (List.range 4).all fun arity ↦
    let r := runs (Template.symbols arity 0 cs)
    l.isSteady r.1 && r.2.all l.isSteady

/-- Whether the texts that a template puts around its arguments are silent. -/
def hasSteadyTexts (l : Lexicon) : Template → Bool
  | .call name | .separated name => name.toList.all isMild
  | .pattern text => l.isSteadyPattern text.toList

theorem steady_call {cs : List Char} (h : cs.all isMild = true) :
    l.hasSteadyTexts (.call (String.ofList cs)) = true := by
  rwa [hasSteadyTexts, String.toList_ofList]

theorem steady_separated {cs : List Char} (h : cs.all isMild = true) :
    l.hasSteadyTexts (.separated (String.ofList cs)) = true := by
  rwa [hasSteadyTexts, String.toList_ofList]

theorem steady_pattern {cs : List Char} (h : l.isSteadyPattern cs = true) :
    l.hasSteadyTexts (.pattern (String.ofList cs)) = true := by
  rwa [hasSteadyTexts, String.toList_ofList]

theorem steady_pattern_append {cs ds : List Char} (h : l.isSteadyPattern (cs ++ ds) = true) :
    l.hasSteadyTexts (.pattern (String.ofList cs ++ String.ofList ds)) = true := by
  rw [← String.ofList_append]
  exact steady_pattern h

/-- The text that the parts begin with, if they do, is the first run, and the others are among the
runs behind it. -/
def HasRuns (r : List Char × List (List Char)) : List TemplatePart → Prop
  | .text s :: parts => s.toList = r.1 ∧ ∀ s', .text s' ∈ parts → s'.toList ∈ r.2
  | parts => r.1 = [] ∧ ∀ s', .text s' ∈ parts → s'.toList ∈ r.2

theorem HasRuns.mem {r : List Char × List (List Char)} {parts : List TemplatePart}
    (h : HasRuns r parts) {text : String} (mem : .text text ∈ parts) :
    text.toList ∈ r.1 :: r.2 := by
  match parts, h with
  | [], _ => cases mem
  | .arg _ :: _, h => exact List.mem_cons_of_mem _ (h.2 text mem)
  | .text s :: parts, h =>
    obtain same | mem := List.mem_cons.1 mem
    · cases same
      exact List.mem_cons.2 (.inl h.1)
    · exact List.mem_cons_of_mem _ (h.2 text mem)

theorem hasRuns_joined (symbols : List Template.Symbol) :
    HasRuns (runs symbols) (Template.joined symbols) := by
  induction symbols with
  | nil => exact ⟨rfl, fun _ mem ↦ absurd mem List.not_mem_nil⟩
  | cons symbol rest ih =>
    cases symbol with
    | slot i =>
      refine ⟨rfl, fun s mem ↦ ih.mem ?_⟩
      exact (List.mem_cons.1 mem).resolve_left (by rintro ⟨⟩)
    | char c =>
      simp only [Template.joined, runs]
      generalize Template.joined rest = parts at ih ⊢
      cases parts with
      | nil => exact ⟨by simp [ih.1], ih.2⟩
      | cons part parts =>
        cases part with
        | arg i => exact ⟨by simp [ih.1], ih.2⟩
        | text s => exact ⟨by simp [ih.1], ih.2⟩

theorem text_of_mem_separated {separator text : String} {args : List Nat}
    (h : .text text ∈ List.intersperse (.text separator) (args.map TemplatePart.arg)) :
    text = separator := by
  induction args with
  | nil => cases h
  | cons i args ih =>
    cases args with
    | nil => simp at h
    | cons j args =>
      simp only [List.map_cons, List.intersperse, List.mem_cons, reduceCtorEq, false_or,
        TemplatePart.text.injEq] at h ih
      exact h.elim id ih

/-- The texts that a template puts around its arguments are silent, however many arguments there
are. -/
theorem silent_of_mem_parts {t : Template} (h : l.hasSteadyTexts t = true) {arity : Nat}
    {text : String} (mem : .text text ∈ t.parts arity) : l.Silent text.toList := by
  cases t with
  | call name =>
    simp only [Template.parts, Template.separatedArgs, List.cons_append, List.mem_cons,
      List.mem_append, TemplatePart.text.injEq, List.not_mem_nil, or_false] at mem
    obtain rfl | mem | rfl := mem
    · rw [String.toList_append]
      exact .append (silent_of_isMild h) (silent_of_isMild rfl)
    · rw [text_of_mem_separated mem]
      exact silent_of_isMild rfl
    · exact silent_of_isMild rfl
  | separated operator =>
    simp only [Template.parts, Template.separatedArgs, List.cons_append, List.mem_cons,
      List.mem_append, TemplatePart.text.injEq, List.not_mem_nil, or_false] at mem
    obtain rfl | mem | rfl := mem
    · exact silent_of_isMild rfl
    · rw [text_of_mem_separated mem, String.toList_append, String.toList_append]
      exact ((silent_of_isMild rfl).append (silent_of_isMild h)).append (silent_of_isMild rfl)
    · exact silent_of_isMild rfl
  | pattern pattern =>
    simp only [hasSteadyTexts, isSteadyPattern, Bool.and_eq_true, List.all_eq_true,
      List.mem_range] at h
    have steady : ∀ run ∈ (runs (Template.symbols arity 0 pattern.toList)).1 ::
        (runs (Template.symbols arity 0 pattern.toList)).2, l.isSteady run = true := by
      rw [List.forall_mem_cons]
      by_cases low : arity < 4
      · exact h.2 arity low
      · rw [Template.symbols_of_le h.1 (by omega)]
        exact h.2 3 (by omega)
    exact silent_of_isSteady (steady _ ((hasRuns_joined _).mem mem))

end Lexicon

end SqlWright
