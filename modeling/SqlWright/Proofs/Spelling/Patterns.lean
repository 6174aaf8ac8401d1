import Mathlib.Data.List.Chain
import SqlWright.Spelling.Template

/-!
# Patterns

A pattern loses nothing when it is taken apart: its parts, with the slots that the arguments were
read from, make up the pattern again. The slots are all the places where a number of an argument
stands in braces (`Template.exists_isReading`). A slot has no brace inside, so two slots do not
overlap, and a brace that opens none hides none of the slots after it.
-/

namespace SqlWright

namespace Text

/-- The characters spell the number with digits, at least one, after an optional plus sign. -/
inductive IsNumeral : List Char → Nat → Prop
  | digits {ds : List Char} (some : ds ≠ []) (all : ∀ d ∈ ds, d.isDigit = true) :
      IsNumeral ds (Nat.ofDigitChars 10 ds 0)
  | plus {ds : List Char} (some : ds ≠ []) (all : ∀ d ∈ ds, d.isDigit = true) :
      IsNumeral ('+' :: ds) (Nat.ofDigitChars 10 ds 0)

theorem digits?_eq_some {ds : List Char} {n : Nat} :
    digits? ds = some n ↔
      (ds ≠ [] ∧ ∀ d ∈ ds, d.isDigit = true) ∧ Nat.ofDigitChars 10 ds 0 = n := by
  rw [digits?, Option.ite_none_right_eq_some, List.all_eq_true, Option.some.injEq]

/-- Exactly the numerals of numbers within the bound are read. -/
theorem unsigned?_eq_some {bound n : Nat} {cs : List Char} :
    unsigned? bound cs = some n ↔ IsNumeral cs n ∧ n < bound := by
  unfold unsigned?
  rw [Option.filter_eq_some_iff, decide_eq_true_eq]
  refine and_congr_left fun _ ↦ ⟨fun read ↦ ?_, fun numeral ↦ ?_⟩
  · split at read
    · obtain ⟨⟨some, all⟩, rfl⟩ := digits?_eq_some.1 read
      exact .plus some all
    · obtain ⟨⟨some, all⟩, rfl⟩ := digits?_eq_some.1 read
      exact .digits some all
  · cases numeral with
    | plus some all => exact digits?_eq_some.2 ⟨⟨some, all⟩, rfl⟩
    | digits some all =>
      refine Eq.trans ?_ (digits?_eq_some.2 ⟨⟨some, all⟩, rfl⟩)
      split
      · exact absurd (all '+' (List.mem_cons_self ..)) (by decide)
      · rfl

namespace IsNumeral

variable {cs : List Char} {n : Nat}

theorem digit_or_plus (h : IsNumeral cs n) : ∀ c ∈ cs, c.isDigit = true ∨ c = '+' := by
  intro c mem
  cases h with
  | digits _ all => exact .inl (all c mem)
  | plus _ all =>
    rw [List.mem_cons] at mem
    exact mem.symm.imp_left (all c)

theorem opening_not_mem (h : IsNumeral cs n) : '\x7b' ∉ cs := by
  intro mem
  obtain digit | plus := h.digit_or_plus _ mem
  · exact absurd digit (by decide)
  · exact absurd plus (by decide)

theorem ne_closing (h : IsNumeral cs n) : ∀ c ∈ cs, c ≠ '\x7d' := by
  rintro c mem rfl
  obtain digit | plus := h.digit_or_plus _ mem
  · exact absurd digit (by decide)
  · exact absurd plus (by decide)

end IsNumeral

end Text

namespace Template

variable {arity i : Nat} {slot rest cs : List Char}

/-- The characters are a slot for the argument: a numeral of its number in braces. -/
def IsSlot (arity i : Nat) (cs : List Char) : Prop :=
  ∃ ds, cs = '\x7b' :: (ds ++ ['\x7d']) ∧ Text.IsNumeral ds i ∧ i < arity

/-! ### Slots of a text -/

theorem takeWhile_slot {ds : List Char} (h : Text.IsNumeral ds i) (rest : List Char) :
    (ds ++ '\x7d' :: rest).takeWhile (· ≠ '\x7d') = ds := by
  rw [List.takeWhile_append_of_pos fun c mem ↦ decide_eq_true (h.ne_closing c mem),
    List.takeWhile_cons_of_neg (by simp), List.append_nil]

/-- A slot is read off the characters after its opening brace. -/
theorem slot?_append {ds : List Char} (h : Text.IsNumeral ds i) (low : i < arity)
    (rest : List Char) : slot? arity (ds ++ '\x7d' :: rest) = some (i, ds.length + 1) := by
  have shorter : ds.length < (ds ++ '\x7d' :: rest).length := by simp
  rw [slot?, takeWhile_slot h, if_pos shorter, Text.unsigned?_eq_some.2 ⟨h, low⟩]
  rfl

/-- Only slots are read. -/
theorem isSlot_of_slot? {n : Nat} (h : slot? arity cs = some (i, n)) :
    ∃ slot rest, '\x7b' :: cs = slot ++ rest ∧ IsSlot arity i slot := by
  simp only [slot?, Option.ite_none_right_eq_some, Option.map_eq_some_iff, Prod.mk.injEq,
    Text.unsigned?_eq_some] at h
  obtain ⟨shorter, _, ⟨numeral, low⟩, rfl, -⟩ := h
  have whole := List.takeWhile_append_dropWhile (p := (· ≠ '\x7d')) (l := cs)
  cases dropped : cs.dropWhile (· ≠ '\x7d') with
  | nil =>
    have length := congrArg List.length whole
    rw [dropped, List.append_nil] at length
    omega
  | cons c rest =>
    have closing : c = '\x7d' := by
      have stops := List.head?_dropWhile_not (· ≠ '\x7d') cs
      rw [dropped] at stops
      simpa using stops
    subst closing
    refine ⟨_, rest, ?_, _, rfl, numeral, low⟩
    rw [List.cons_append, List.append_assoc, List.singleton_append, ← dropped, whole]

/-- At most one slot begins a text. -/
theorem IsSlot.unique {i' : Nat} {slot' rest' : List Char} (h : IsSlot arity i slot)
    (h' : IsSlot arity i' slot') (same : slot ++ rest = slot' ++ rest') :
    i = i' ∧ slot = slot' := by
  obtain ⟨ds, rfl, numeral, low⟩ := h
  obtain ⟨ds', rfl, numeral', low'⟩ := h'
  simp only [List.cons_append, List.append_assoc, List.nil_append, List.cons.injEq, true_and]
    at same
  have read := slot?_append numeral low rest
  rw [same, slot?_append numeral' low' rest'] at read
  have inner := takeWhile_slot numeral rest
  rw [same, takeWhile_slot numeral' rest'] at inner
  exact ⟨(Prod.mk.inj (Option.some.inj read)).1.symm, by rw [inner]⟩

/-- The only brace that opens in a slot is its first character. -/
theorem IsSlot.opening {before after : List Char} (h : IsSlot arity i slot)
    (split : slot = before ++ '\x7b' :: after) : before = [] := by
  obtain ⟨ds, rfl, numeral, -⟩ := h
  cases before with
  | nil => rfl
  | cons c before =>
    have inside : '\x7b' ∈ ds ++ ['\x7d'] := by
      rw [(List.cons.inj split).2]
      simp
    rw [List.mem_append, List.mem_singleton] at inside
    exact absurd (inside.resolve_right (by decide)) numeral.opening_not_mem

/-! ### Symbols -/

theorem symbols_skip (arity : Nat) (cs rest : List Char) :
    symbols arity cs.length (cs ++ rest) = symbols arity 0 rest := by
  induction cs with
  | nil => rfl
  | cons c cs ih => exact ih

/-- A slot is one symbol. -/
theorem symbols_slot (h : IsSlot arity i slot) (rest : List Char) :
    symbols arity 0 (slot ++ rest) = .slot i :: symbols arity 0 rest := by
  obtain ⟨ds, rfl, numeral, low⟩ := h
  have skipped := symbols_skip arity (ds ++ ['\x7d']) rest
  rw [List.append_assoc, List.singleton_append, List.length_append, List.length_singleton]
    at skipped
  rw [List.cons_append, List.append_assoc, List.singleton_append, symbols, if_pos rfl,
    slot?_append numeral low]
  exact congrArg _ skipped

/-- A character that begins no slot stands for itself. -/
theorem symbols_char {c : Char}
    (h : ∀ i slot rest, c :: cs = slot ++ rest → ¬IsSlot arity i slot) :
    symbols arity 0 (c :: cs) = .char c :: symbols arity 0 cs := by
  rw [symbols]
  split
  next opens =>
    split
    next i n read =>
      obtain ⟨slot, rest, same, isSlot⟩ := isSlot_of_slot? read
      exact absurd isSlot (h i slot rest (opens ▸ same))
    next => rfl
  next => rfl

end Template

/-! ### Parts with their sources -/

/-- Part of a pattern, with the characters that it was read from. -/
abbrev SourcedPart := TemplatePart × List Char

namespace SourcedPart

/-- Whether the part is a text. -/
def isText : SourcedPart → Bool
  | (.text _, _) => true
  | (.arg _, _) => false

/-- A text is read from itself and is not empty; an argument is read from a slot. -/
inductive IsFrom (arity : Nat) : SourcedPart → Prop
  | text {s : String} (some : s ≠ "") : IsFrom arity (.text s, s.toList)
  | arg {i : Nat} {slot : List Char} (h : Template.IsSlot arity i slot) :
      IsFrom arity (.arg i, slot)

/-- Characters that the pieces were read from. -/
def sources (pieces : List SourcedPart) : List Char := (pieces.map Prod.snd).flatten

/-- Pieces with a character before them, which the first text takes in. -/
def push (c : Char) : List SourcedPart → List SourcedPart
  | (.text s, source) :: pieces => (.text (String.singleton c ++ s), c :: source) :: pieces
  | pieces => (.text (String.singleton c), [c]) :: pieces

@[simp]
theorem sources_nil : sources [] = [] := rfl

@[simp]
theorem sources_cons (piece : SourcedPart) (pieces : List SourcedPart) :
    sources (piece :: pieces) = piece.2 ++ sources pieces := rfl

@[simp]
theorem sources_push (c : Char) (pieces : List SourcedPart) :
    sources (push c pieces) = c :: sources pieces := by
  unfold push
  split <;> rfl

/-- A character goes to what stands before an argument. -/
theorem push_append (c : Char) (left : List SourcedPart) (i : Nat) (slot : List Char)
    (right : List SourcedPart) :
    push c (left ++ (.arg i, slot) :: right) = push c left ++ (.arg i, slot) :: right := by
  match left with
  | [] => rfl
  | (.text _, _) :: _ => rfl
  | (.arg _, _) :: _ => rfl

/-- A character of the sources is in one of them. -/
theorem exists_of_sources {pieces : List SourcedPart} {before after : List Char} {c : Char}
    (h : sources pieces = before ++ c :: after) :
    ∃ left piece right inner outer, pieces = left ++ piece :: right ∧
      piece.2 = inner ++ c :: outer ∧ sources left ++ inner = before ∧
      outer ++ sources right = after := by
  induction pieces generalizing before with
  | nil => simp at h
  | cons piece pieces ih =>
    rw [sources_cons] at h
    have place : (∃ rest, before = piece.2 ++ rest ∧ sources pieces = rest ++ c :: after) ∨
        ∃ rest, piece.2 = before ++ c :: rest ∧ rest ++ sources pieces = after := by
      obtain later | ⟨rest, same, h⟩ := List.append_eq_append_iff.1 h
      · exact .inl later
      · cases rest with
        | nil => exact .inl ⟨[], by rw [same, List.append_nil, List.append_nil], h.symm⟩
        | cons d rest =>
          obtain ⟨rfl, rfl⟩ := List.cons.inj h
          exact .inr ⟨rest, same, rfl⟩
    clear h
    obtain ⟨rest, rfl, h⟩ | ⟨rest, source, rfl⟩ := place
    · obtain ⟨left, p, right, inner, outer, rfl, source, rfl, rfl⟩ := ih h
      exact ⟨piece :: left, p, right, inner, outer, rfl, source,
        by rw [sources_cons, List.append_assoc], rfl⟩
    · exact ⟨[], piece, pieces, before, rest, rfl, source, rfl, rfl⟩

theorem map_push (c : Char) {pieces : List SourcedPart} {symbols : List Template.Symbol}
    (h : pieces.map Prod.fst = Template.joined symbols) :
    (push c pieces).map Prod.fst = Template.joined (.char c :: symbols) := by
  rw [Template.joined, ← h]
  match pieces with
  | [] => rfl
  | (.text _, _) :: _ => rfl
  | (.arg _, _) :: _ => rfl

theorem isFrom_push {arity : Nat} (c : Char) {pieces : List SourcedPart}
    (h : ∀ piece ∈ pieces, piece.IsFrom arity) : ∀ piece ∈ push c pieces, piece.IsFrom arity := by
  have text (s : String) : IsFrom arity (.text (String.singleton c ++ s), c :: s.toList) := by
    have some : String.singleton c ++ s ≠ "" := by simp [← String.toList_inj]
    simpa using IsFrom.text some
  match pieces with
  | (.text s, source) :: pieces =>
    obtain ⟨first, others⟩ := List.forall_mem_cons.1 h
    cases first
    exact List.forall_mem_cons.2 ⟨text s, others⟩
  | [] => exact List.forall_mem_cons.2 ⟨by simpa using text "", h⟩
  | (.arg i, slot) :: pieces => exact List.forall_mem_cons.2 ⟨by simpa using text "", h⟩

theorem isChain_push (c : Char) {pieces : List SourcedPart}
    (h : pieces.IsChain fun p q ↦ ¬(p.isText = true ∧ q.isText = true)) :
    (push c pieces).IsChain fun p q ↦ ¬(p.isText = true ∧ q.isText = true) := by
  match pieces with
  | (.text s, source) :: pieces =>
    rw [List.isChain_cons] at h
    exact List.isChain_cons.2 h
  | [] => exact .singleton _
  | (.arg i, slot) :: pieces => exact .cons_cons (fun both ↦ Bool.false_ne_true both.2) h

end SourcedPart

namespace Template

open SourcedPart

/-- The pieces make up the text: each was read from its characters, no two texts stand side by
side, and every slot of the text, wherever it stands, is an argument. -/
structure IsReading (arity : Nat) (text : List Char) (pieces : List SourcedPart) : Prop where
  sources : sources pieces = text
  isFrom : ∀ piece ∈ pieces, piece.IsFrom arity
  apart : pieces.IsChain fun p q ↦ ¬(p.isText = true ∧ q.isText = true)
  slots : ∀ before i slot after, text = before ++ (slot ++ after) → IsSlot arity i slot →
    ∃ left right, pieces = left ++ (.arg i, slot) :: right ∧ SourcedPart.sources left = before

namespace IsReading

variable {arity i : Nat} {text slot : List Char} {pieces : List SourcedPart}

theorem nil (arity : Nat) : IsReading arity [] [] where
  sources := rfl
  isFrom := nofun
  apart := .nil
  slots := by
    rintro before i slot after same ⟨ds, rfl, -⟩
    simp at same

/-- A slot before a text that was read. -/
theorem slot_append (isSlot : IsSlot arity i slot) (h : IsReading arity text pieces) :
    IsReading arity (slot ++ text) ((.arg i, slot) :: pieces) where
  sources := by rw [sources_cons, h.sources]
  isFrom := List.forall_mem_cons.2 ⟨.arg isSlot, h.isFrom⟩
  apart := by
    refine List.isChain_cons.2 ⟨fun _ _ both ↦ ?_, h.apart⟩
    exact absurd both.1 Bool.false_ne_true
  slots := by
    intro before j slot' after same isSlot'
    obtain ⟨inside, rfl, rest⟩ | ⟨before', rfl, rest⟩ := List.append_eq_append_iff.1 same.symm
    · cases inside with
      | nil =>
        -- The other slot begins where this one ends.
        obtain ⟨left, right, rfl, sourced⟩ := h.slots [] j slot' after rest.symm isSlot'
        exact ⟨(.arg i, before ++ []) :: left, right, rfl,
          by rw [sources_cons, sourced, List.append_nil, List.append_nil]⟩
      | cons c inside =>
        obtain rfl : '\x7b' = c := by
          obtain ⟨ds, rfl, -⟩ := isSlot'
          exact (List.cons.inj rest).1
        obtain rfl := isSlot.opening rfl
        obtain ⟨rfl, rfl⟩ := isSlot'.unique isSlot rest
        exact ⟨[], pieces, rfl, rfl⟩
    · obtain ⟨left, right, rfl, sourced⟩ := h.slots before' j slot' after rest isSlot'
      exact ⟨(.arg i, slot) :: left, right, rfl, by rw [sources_cons, sourced]⟩

/-- A character that begins no slot before a text that was read. -/
theorem push {c : Char} (plain : ∀ i slot rest, c :: text = slot ++ rest → ¬IsSlot arity i slot)
    (h : IsReading arity text pieces) : IsReading arity (c :: text) (push c pieces) where
  sources := by rw [sources_push, h.sources]
  isFrom := isFrom_push c h.isFrom
  apart := isChain_push c h.apart
  slots := by
    intro before i slot after same isSlot
    cases before with
    | nil => exact absurd isSlot (plain i slot after same)
    | cons d before =>
      obtain ⟨rfl, rest⟩ := List.cons.inj same
      obtain ⟨left, right, rfl, rfl⟩ := h.slots before i slot after rest isSlot
      exact ⟨SourcedPart.push c left, right, push_append c left i slot right, sources_push c left⟩

/-- A brace that opens no slot is in a text. -/
theorem brace {before after : List Char} (h : IsReading arity text pieces)
    (same : text = before ++ '\x7b' :: after)
    (plain : ∀ i slot rest, '\x7b' :: after = slot ++ rest → ¬IsSlot arity i slot) :
    ∃ left right s inner outer, pieces = left ++ (.text s, s.toList) :: right ∧
      s.toList = inner ++ '\x7b' :: outer ∧ SourcedPart.sources left ++ inner = before := by
  obtain ⟨left, piece, right, inner, outer, rfl, source, rfl, rfl⟩ :=
    exists_of_sources (h.sources.trans same)
  have isFrom := h.isFrom piece (by simp)
  cases isFrom with
  | text some => exact ⟨left, right, _, inner, outer, rfl, source, rfl⟩
  | arg isSlot =>
    obtain rfl := isSlot.opening source
    exact absurd isSlot (plain _ _ (SourcedPart.sources right) (congrArg (· ++ _) source.symm))

end IsReading

/-- The parts of a pattern are a reading of it. -/
theorem exists_isReading (arity : Nat) (cs : List Char) :
    ∃ pieces : List SourcedPart, pieces.map Prod.fst = joined (symbols arity 0 cs) ∧
      IsReading arity cs pieces := by
  induction length : cs.length using Nat.strong_induction_on generalizing cs with
  | h n ih =>
    by_cases opens : ∃ i slot rest, cs = slot ++ rest ∧ IsSlot arity i slot
    · obtain ⟨i, slot, rest, rfl, isSlot⟩ := opens
      have shorter : rest.length < n := by
        obtain ⟨ds, rfl, -⟩ := isSlot
        simp at length
        omega
      obtain ⟨pieces, parts, reading⟩ := ih rest.length shorter rest rfl
      refine ⟨(.arg i, slot) :: pieces, ?_, reading.slot_append isSlot⟩
      rw [symbols_slot isSlot, joined, List.map_cons, parts]
    · have plain (i slot rest) (same : cs = slot ++ rest) : ¬IsSlot arity i slot :=
        fun isSlot ↦ opens ⟨i, slot, rest, same, isSlot⟩
      cases cs with
      | nil => exact ⟨[], rfl, .nil arity⟩
      | cons c cs =>
        have shorter : cs.length < n := length ▸ Nat.lt_succ_self _
        obtain ⟨pieces, parts, reading⟩ := ih cs.length shorter cs rfl
        refine ⟨SourcedPart.push c pieces, ?_, reading.push plain⟩
        rw [symbols_char plain, map_push c parts]

/-- A pattern loses nothing when it is taken apart for a number of arguments. Its parts mention
only arguments there are, and with the slots that these were read from they make up the pattern
again; no text is empty or next to another. Every slot becomes an argument, and every brace that
opens no slot stays in a text, whatever stands around them. -/
theorem parts_pattern (text : String) (arity : Nat) :
    (∀ i, .arg i ∈ (pattern text).parts arity → i < arity) ∧
      ∃ pieces : List SourcedPart, pieces.map Prod.fst = (pattern text).parts arity ∧
        IsReading arity text.toList pieces ∧
        ∀ before after, text.toList = before ++ '\x7b' :: after →
          (∀ i slot rest, '\x7b' :: after = slot ++ rest → ¬IsSlot arity i slot) →
            ∃ left right s inner outer, pieces = left ++ (.text s, s.toList) :: right ∧
              s.toList = inner ++ '\x7b' :: outer ∧ SourcedPart.sources left ++ inner = before := by
  obtain ⟨pieces, parts, reading⟩ := exists_isReading arity text.toList
  refine ⟨fun i mem ↦ ?_, pieces, parts, reading, fun _ _ ↦ reading.brace⟩
  rw [Template.parts, ← parts, List.mem_map] at mem
  obtain ⟨⟨_, slot⟩, mem, rfl⟩ := mem
  cases reading.isFrom _ mem with
  | arg isSlot =>
    obtain ⟨_, -, -, low⟩ := isSlot
    exact low

/-- Slots are found behind a brace that opens none, and a slot of no argument is a text. -/
example : (pattern "\x7b\x7b0\x7d, \x7b2\x7d\x7b+01\x7d").parts 2 =
    [.text "\x7b", .arg 0, .text ", \x7b2\x7d", .arg 1] := by
  decide

end Template

/-! ### Arguments of templates -/

/-- Number of the argument that a part stands for. -/
def TemplatePart.index? : TemplatePart → Option Nat
  | .text _ => none
  | .arg i => some i

namespace Template

/-- Numbers of the arguments that a template writes. -/
def args (arity : Nat) (t : Template) : List Nat := (t.parts arity).filterMap (·.index?)

theorem mem_args {t : Template} {arity i : Nat} : i ∈ t.args arity ↔ .arg i ∈ t.parts arity := by
  rw [args, List.mem_filterMap]
  constructor
  · rintro ⟨part, mem, hi⟩
    cases part with
    | text s => cases hi
    | arg j =>
      cases hi
      exact mem
  · exact fun mem ↦ ⟨.arg i, mem, rfl⟩

theorem index?_separated (separator : String) (ns : List Nat) :
    ((ns.map TemplatePart.arg).intersperse (.text separator)).filterMap (·.index?) = ns := by
  induction ns with
  | nil => rfl
  | cons n ns ih =>
    cases ns with
    | nil => rfl
    | cons m ns => simpa [TemplatePart.index?] using ih

/-- A call writes all arguments. -/
theorem args_call (name : String) (arity : Nat) : (call name).args arity = List.range arity := by
  have ends (s : String) : [TemplatePart.text s].filterMap (·.index?) = [] := rfl
  rw [args, parts, List.cons_append, List.filterMap_cons_none rfl, List.filterMap_append,
    separatedArgs, index?_separated, ends, List.append_nil]

end Template

end SqlWright
