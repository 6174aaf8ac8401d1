import SqlWright.Proofs.Lexing.Lexer

/-!
# Texts that are taken apart alike

Two texts match from one position to another if reading them from there completes tokens that are
alike and ends there. A position says what is known of the two readings: that both are in the same
mode, or that both are outside quoted tokens, after tokens that may be quoted differently. Texts
that match one after the other match as one, a text that goes on after any token begins with a
character that no token goes on with, and quoted texts of one form match whatever they hold.
-/

namespace SqlWright

/-- Tokens that are alike to the same tokens are alike. -/
theorem Token.forall₂_of_common {ts us vs : List Token} (h : List.Forall₂ Token.Alike ts vs)
    (h' : List.Forall₂ Token.Alike us vs) : List.Forall₂ Token.Alike ts us := by
  induction h generalizing us with
  | nil =>
    cases h'
    exact .nil
  | cons first rest ih =>
    cases h' with
    | cons first' rest' =>
      refine .cons ?_ (ih rest')
      cases first with
      | word text =>
        cases first'
        exact .word text
      | symbol c =>
        cases first'
        exact .symbol c
      | quoted form payload payload' =>
        cases first' with
        | quoted _ payload'' => exact .quoted form payload payload''

/-- Both readings are outside quoted tokens, at one point of tokens that are alike. -/
inductive Mode.Outside : Mode → Mode → Prop where
  | ground : Outside .ground .ground
  | word (text : List Char) : Outside (.word text) (.word text)
  | closing (form : Quotes) (payload payload' : List Char) :
    Outside (.closing form payload) (.closing form payload')

/-- What is known of two readings. -/
inductive Position where
  /-- Both are in the mode. -/
  | reading (m : Mode)
  /-- Both are outside quoted tokens. -/
  | outside
  deriving DecidableEq

namespace Position

/-- Position between tokens. -/
abbrev ground : Position := reading .ground

/-- The position is that of two readings. -/
def Holds : Position → Mode → Mode → Prop
  | reading m, m₁, m₂ => m₁ = m ∧ m₂ = m
  | outside, m₁, m₂ => Mode.Outside m₁ m₂

/-- Whether two readings at the first position are at the second too. -/
def isWithin : Position → Position → Bool
  | reading m, reading m' => m = m'
  | reading .ground, outside | reading (.word _), outside | reading (.closing _ _), outside => true
  | reading _, outside => false
  | outside, p => p = outside

theorem isWithin_refl (p : Position) : p.isWithin p = true := by
  cases p <;> simp [isWithin]

theorem Holds.of_isWithin {p q : Position} (h : p.isWithin q = true) {m₁ m₂ : Mode}
    (hp : p.Holds m₁ m₂) : q.Holds m₁ m₂ := by
  cases p with
  | outside =>
    cases q with
    | outside => exact hp
    | reading m => cases h
  | reading m =>
    obtain ⟨rfl, rfl⟩ := hp
    cases q with
    | reading m' =>
      have same : m₂ = m' := of_decide_eq_true h
      exact ⟨same, same⟩
    | outside =>
      cases m₂ with
      | ground => exact .ground
      | word text => exact .word text
      | closing form payload => exact .closing form payload payload
      | inside form payload => cases h
      | escape form payload => cases h

theorem Holds.right {p : Position} {m m' : Mode} (h : p.Holds m m') : p.Holds m' m' := by
  cases p with
  | reading m₀ => exact ⟨h.2, h.2⟩
  | outside =>
    cases h with
    | ground => exact .ground
    | word text => exact .word text
    | closing form payload payload' => exact .closing form payload' payload'

theorem Holds.of_common {p : Position} {m m' m'' : Mode} (h : p.Holds m m'') (h' : p.Holds m' m'') :
    p.Holds m m' := by
  cases p with
  | reading m₀ => exact ⟨h.1, h'.1⟩
  | outside =>
    cases h with
    | ground =>
      cases h'
      exact .ground
    | word text =>
      cases h'
      exact .word text
    | closing form payload payload' =>
      cases h' with
      | closing _ payload'' => exact .closing form payload payload''

end Position

namespace Lexicon

variable {l : Lexicon} {p q r : Position} {s s' t t' : String}

/-- Reading the two texts from the first position completes tokens that are alike, and ends at the
second. -/
def Matches (l : Lexicon) (p q : Position) (s s' : String) : Prop :=
  ∀ m m', p.Holds m m' →
    List.Forall₂ Token.Alike (l.run m s.toList).1 (l.run m' s'.toList).1 ∧
      q.Holds (l.run m s.toList).2 (l.run m' s'.toList).2

namespace Matches

theorem weaken (h : l.Matches p q s s') (hq : q.isWithin r = true) : l.Matches p r s s' :=
  fun m m' hp ↦ ⟨(h m m' hp).1, (h m m' hp).2.of_isWithin hq⟩

theorem strengthen (h : l.Matches q r s s') (hp : p.isWithin q = true) : l.Matches p r s s' :=
  fun m m' hm ↦ h m m' (hm.of_isWithin hp)

/-- Texts that match the same text match each other. -/
theorem of_common (h : l.Matches p q s t) (h' : l.Matches p q s' t) : l.Matches p q s s' := by
  intro m m' hm
  obtain ⟨tokens, ends⟩ := h m m' hm
  obtain ⟨tokens', ends'⟩ := h' m' m' hm.right
  exact ⟨Token.forall₂_of_common tokens tokens', ends.of_common ends'⟩

/-- Texts that match one after the other match as one. -/
theorem append (h : l.Matches p q s s') (h' : l.Matches q r t t') :
    l.Matches p r (s ++ t) (s' ++ t') := by
  intro m m' hp
  obtain ⟨tokens, hq⟩ := h m m' hp
  obtain ⟨tokens', hr⟩ := h' _ _ hq
  simp only [String.toList_append, run_append]
  exact ⟨List.rel_append tokens tokens', hr⟩

theorem empty : l.Matches p p "" "" := fun _ _ hp ↦ ⟨.nil, hp⟩

/-- Texts that match match as one with a text between any two. -/
theorem intercalate {separator : String} {texts texts' : List String}
    (hs : l.Matches .outside .ground separator separator)
    (h : List.Forall₂ (l.Matches .ground .outside) texts texts') :
    l.Matches .ground .outside (separator.intercalate texts) (separator.intercalate texts') := by
  induction h with
  | nil => exact weaken empty rfl
  | @cons a b as bs first rest ih =>
    cases rest with
    | nil => simpa only [String.intercalate_singleton] using first
    | cons second rest =>
      simp only [String.intercalate_cons_cons]
      exact (first.append hs).append ih

/-- The tokens of texts that match are alike. -/
theorem tokens (h : l.Matches .ground .outside s s') :
    List.Forall₂ Token.Alike (l.tokens s) (l.tokens s') := by
  obtain ⟨completed, last⟩ := h .ground .ground ⟨rfl, rfl⟩
  have finished {m m' : Mode} (h : m.Outside m') : List.Forall₂ Token.Alike m.finish m'.finish := by
    cases h with
    | ground => exact .nil
    | word text => exact .cons (.word text) .nil
    | closing form payload payload' => exact .cons (.quoted form payload payload') .nil
  exact List.rel_append completed (finished last)

end Matches

/-! ### Texts without names -/

theorem start_alike (c : Char) : List.Forall₂ Token.Alike (l.start c).1 (l.start c).1 := by
  unfold start
  split
  · exact .nil
  · split
    · exact .nil
    · split
      · exact .nil
      · exact .cons (.symbol c) .nil

theorem step_alike (m : Mode) (c : Char) :
    List.Forall₂ Token.Alike (l.step m c).1 (l.step m c).1 := by
  cases m with
  | ground => exact start_alike c
  | word text =>
    simp only [step]
    split
    · exact .nil
    · split
      · split
        · exact .nil
        · exact .cons (.word text) .nil
      · exact .cons (.word text) (start_alike c)
  | inside form payload =>
    simp only [step]
    split
    · exact .nil
    · split
      · exact .nil
      · exact .nil
  | escape form payload => exact .nil
  | closing form payload =>
    simp only [step]
    split
    · exact .nil
    · exact .cons (.quoted form payload payload) (start_alike c)

/-- A text is taken apart like itself: no token is complete that is not closed. -/
theorem run_alike (m : Mode) (cs : List Char) :
    List.Forall₂ Token.Alike (l.run m cs).1 (l.run m cs).1 := by
  induction cs generalizing m with
  | nil => exact .nil
  | cons c cs ih => exact List.rel_append (step_alike m c) (ih _)

/-- Whether no token goes on with the character, whatever it is a token of. -/
def isBreak (c : Char) : Bool :=
  !isWordChar c && c != '\x22' && c != '\x27' && c != ']'

/-- A character that no token goes on with ends the tokens before it, and is read as at the start
of a token. -/
theorem step_break {c : Char} (h : isBreak c = true) {m m' : Mode} (hm : m.Outside m') :
    List.Forall₂ Token.Alike (l.step m c).1 (l.step m' c).1 ∧
      (l.step m c).2 = (l.start c).2 ∧ (l.step m' c).2 = (l.start c).2 := by
  simp only [isBreak, Bool.and_eq_true, bne_iff_ne, ne_eq, Bool.not_eq_true'] at h
  obtain ⟨⟨⟨noWord, noDouble⟩, noSingle⟩, noBracket⟩ := h
  cases hm with
  | ground => exact ⟨start_alike c, rfl, rfl⟩
  | word text =>
    have ends : l.step (.word text) c = (.word text :: (l.start c).1, (l.start c).2) := by
      simp [step, noWord, noSingle]
    rw [ends]
    exact ⟨.cons (.word text) (start_alike c), rfl, rfl⟩
  | closing form payload payload' =>
    have other : c ≠ form.closing := by
      cases form <;> assumption
    have ends (x : List Char) :
        l.step (.closing form x) c = (.quoted form x :: (l.start c).1, (l.start c).2) := by
      simp [step, other]
    rw [ends, ends]
    exact ⟨.cons (.quoted form payload payload') (start_alike c), rfl, rfl⟩

/-- Position that a text leads to. After any token it has to begin with a character that no token
goes on with. -/
def after (l : Lexicon) : Position → List Char → Option Position
  | p, [] => some p
  | .reading m, cs => some (.reading (l.run m cs).2)
  | .outside, c :: cs => if isBreak c then some (.reading (l.run .ground (c :: cs)).2) else none

theorem after_reading (m : Mode) (cs : List Char) :
    l.after (.reading m) cs = some (.reading (l.run m cs).2) := by
  cases cs <;> rfl

theorem after_cons (p : Position) (c : Char) (cs : List Char) :
    l.after p (c :: cs) = (l.after p [c]).bind fun q ↦ l.after q cs := by
  cases p with
  | reading m => exact (after_reading (l.step m c).2 cs).symm
  | outside =>
    by_cases breaks : isBreak c
    · have first : l.after .outside [c] = some (.reading (l.step .ground c).2) := if_pos breaks
      rw [first]
      exact (if_pos breaks).trans (after_reading (l.step .ground c).2 cs).symm
    · have first : l.after .outside [c] = none := if_neg breaks
      rw [first]
      exact if_neg breaks

/-- Whether the characters lead from the first position to the second. -/
def leads (l : Lexicon) (p : Position) (cs : List Char) (q : Position) : Bool :=
  (l.after p cs).any (·.isWithin q)

/-- A text that leads from a position to another matches itself there. -/
theorem matches_of_leads {cs : List Char} (h : l.leads p cs q = true) :
    l.Matches p q (String.ofList cs) (String.ofList cs) := by
  unfold leads at h
  intro m m' hp
  rw [String.toList_ofList]
  cases cs with
  | nil => exact ⟨.nil, hp.of_isWithin (by simpa [after] using h)⟩
  | cons c cs =>
    cases p with
    | reading m₀ =>
      obtain ⟨rfl, rfl⟩ := hp
      have within : (Position.reading (l.run m' (c :: cs)).2).isWithin q = true := h
      exact ⟨run_alike m' (c :: cs), .of_isWithin within ⟨rfl, rfl⟩⟩
    | outside =>
      simp only [after] at h
      split at h
      next breaks =>
        have within : (Position.reading (l.run .ground (c :: cs)).2).isWithin q = true := h
        obtain ⟨tokens, left, right⟩ := step_break (l := l) breaks hp
        have rest := run_alike (l := l) (l.start c).2 cs
        simp only [run, left, right]
        exact ⟨List.rel_append tokens rest, .of_isWithin within ⟨rfl, rfl⟩⟩
      next => cases h

/-! ### Calm texts -/

/-- Whether no quoted token begins with the character. -/
def isCalm (c : Char) : Bool := c != '\x22' && c != '\x27' && c != '['

theorem opened?_of_isCalm {c : Char} (h : isCalm c = true) : l.opened? c = none := by
  simp only [isCalm, Bool.and_eq_true, bne_iff_ne, ne_eq] at h
  simp [opened?, h]

theorem start_isCalm {c : Char} (h : isCalm c = true) :
    (l.start c).2 = .ground ∨ (l.start c).2 = .word [c] := by
  simp only [start, opened?_of_isCalm h]
  split
  · exact .inr rfl
  · split
    · exact .inl rfl
    · exact .inl rfl

theorem step_isCalm {m : Mode} {c : Char} (h : isCalm c = true)
    (hm : m = .ground ∨ ∃ w, m = .word w) :
    (l.step m c).2 = .ground ∨ ∃ w, (l.step m c).2 = .word w := by
  obtain rfl | ⟨w, rfl⟩ := hm
  · exact (start_isCalm h).imp_right fun h ↦ ⟨_, h⟩
  · have quote : c ≠ '\x27' := by
      rintro rfl
      cases h
    simp only [step, beq_iff_eq, quote, if_false]
    split
    · exact .inr ⟨_, rfl⟩
    · exact (start_isCalm h).imp_right fun h ↦ ⟨_, h⟩

/-- A text without quotes is read to between tokens or into a word. -/
theorem run_isCalm {m : Mode} {cs : List Char} (h : cs.all isCalm = true)
    (hm : m = .ground ∨ ∃ w, m = .word w) :
    (l.run m cs).2 = .ground ∨ ∃ w, (l.run m cs).2 = .word w := by
  induction cs generalizing m with
  | nil => exact hm
  | cons c cs ih =>
    rw [List.all_cons, Bool.and_eq_true] at h
    exact ih h.2 (step_isCalm h.1 hm)

/-- A text without quotes leads from between tokens to outside quoted tokens. -/
theorem leads_of_isCalm {cs : List Char} (h : cs.all isCalm = true) :
    l.leads .ground cs .outside = true := by
  unfold leads
  cases cs with
  | nil => rfl
  | cons c cs =>
    simp only [after, Option.any_some]
    obtain h | ⟨w, h⟩ := run_isCalm (l := l) h (.inl rfl)
    · rw [h]
      rfl
    · rw [h]
      rfl

end Lexicon

end SqlWright
