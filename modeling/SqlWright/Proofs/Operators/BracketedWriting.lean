import SqlWright.Proofs.Lexing.Comments
import SqlWright.Proofs.Operators.Brackets

/-!
# Writings that are one operand

What is written counts as the texts do that an execution gives it. Writings one after the other
count on, and a template is an operand if its own texts put all its arguments in brackets.
-/

namespace SqlWright

open WordMode

namespace Writing

variable {l : Lexicon} {s : Settled} {count : Nat → TokenRole → Option Nat} {p q r : Position}
  {i j k : Nat} {x x' y : Writing Chain} {xs : List (Writing Chain)} {β : Type} {t : String}

/-- Every text that the execution gives what is written leads from one position to the other, and
takes the count from one number to the other. -/
def Spans (l : Lexicon) (s : Settled) (count : Nat → TokenRole → Option Nat) (p : Position)
    (j : Nat) (q : Position) (k : Nat) (x : Writing Chain) : Prop :=
  ∀ t, Gives s x t → l.Spans count p j q k t

/-- What is written is a whole text. -/
abbrev IsWhole (l : Lexicon) (s : Settled) (x : Writing Chain) : Prop :=
  Spans l s depthAfter? .ground 0 .outside 0 x

/-- What is written goes on after any token, and closes the brackets that it opens. -/
abbrev GoesOn (l : Lexicon) (s : Settled) (x : Writing Chain) : Prop :=
  Spans l s depthAfter? .outside 0 .outside 0 x

/-- What is written is an operand. -/
abbrev IsOperand (l : Lexicon) (s : Settled) (x : Writing Chain) : Prop :=
  Spans l s operandAfter? .ground 0 .outside 1 x

namespace Spans

theorem congr (h : Spans l s count p j q k x) (he : x' = x) : Spans l s count p j q k x' := by
  rw [he]
  exact h

theorem pure_text (h : l.Spans count p j q k t) : Spans l s count p j q k (pure [.text t]) := by
  intro u given
  obtain rfl := gives_text given
  exact h

/-- A fixed text counts as its characters do. -/
theorem text {cs : List Char} (h : l.spans count p j cs q k = true) :
    Spans l s count p j q k (pure [.text (String.ofList cs)]) := pure_text (Lexicon.spans_text h)

theorem none : Spans l s count p j p j (pure []) := by
  rintro t ⟨named, c, named', run, rendered⟩
  cases pure_ok.1 run
  cases rendered
  exact .empty

theorem throw (e : Error) : Spans l s count p j q k (throw e) := by
  rintro t ⟨named, c, named', run, -⟩
  cases run

theorem lift {e : Except Error β} {f : β → Writing Chain}
    (h : ∀ b, e = .ok b → Spans l s count p j q k (f b)) :
    Spans l s count p j q k (liftM e >>= f) := by
  intro t given
  obtain ⟨b, hb, given⟩ := gives_lift given
  exact h b hb t given

theorem weaken (h : Spans l s count p j q k x) (hq : q.isWithin r = true) :
    Spans l s count p j r k x := fun t given ↦ (h t given).weaken hq

theorem within (h : Spans l s depthAfter? p j q k x) (more : Nat) :
    Spans l s depthAfter? p (j + more) q (k + more) x := fun t given ↦ (h t given).within more

theorem enclosed (h : Spans l s depthAfter? p j q k x) :
    Spans l s operandAfter? p (j + 2) q (k + 2) x := fun t given ↦ (h t given).enclosed

theorem of_operand (h : Spans l s operandAfter? p j q k x) :
    Spans l s depthAfter? p (j - 1) q (k - 1) x := fun t given ↦ (h t given).of_operand

theorem again (h : IsOperand l s x) : Spans l s operandAfter? .ground 1 .outside 1 x :=
  fun t given ↦ Lexicon.IsOperand.again (h t given)

theorem nil : Spans l s count p j p j (concat []) := none

theorem cons (h : Spans l s count p i q j x) (hs : Spans l s count q j r k (concat xs)) :
    Spans l s count p i r k (concat (x :: xs)) := by
  intro t given
  obtain ⟨u, v, hu, hv, rfl⟩ := gives_cons given
  exact (h u hu).append (hs v hv)

theorem single (h : Spans l s count p j q k x) : Spans l s count p j q k (concat [x]) := h.cons nil

theorem append (h : Spans l s count p i q j x) (h' : Spans l s count q j r k y) :
    Spans l s count p i r k (do return (← x) ++ (← y)) :=
  (h.cons h'.single).congr (by simp [concat])

/-- A fixed text that may be left out counts on if it leads to where it begins. -/
theorem optional {b : Bool} {cs : List Char} (h : l.spans count p j cs p j = true) :
    Spans l s count p j p j (pure (if b then [.text (String.ofList cs)] else [])) := by
  cases b with
  | true => exact text h
  | false => exact none

/-- What goes on one after the other goes on. -/
theorem concat {xs : List (Writing Chain)} (h : ∀ x ∈ xs, Spans l s count p j p j x) :
    Spans l s count p j p j (concat xs) := by
  induction xs with
  | nil => exact nil
  | cons x xs ih =>
    rw [List.forall_mem_cons] at h
    exact h.1.cons (ih h.2)

end Spans

/-! ### Templates -/

theorem gives_text_cons {u : String} : Gives s (concat (pure [.text u] :: xs)) t ↔
    ∃ v, Gives s (concat xs) v ∧ t = u ++ v := by
  constructor
  · intro given
    obtain ⟨_, v, first, rest, rfl⟩ := gives_cons given
    obtain rfl := gives_text first
    exact ⟨v, rest, rfl⟩
  · rintro ⟨v, ⟨named, c, named', run, rendered⟩, rfl⟩
    exact ⟨named, [.text u] ++ c, named', concat_ok.2 ⟨_, _, _, rfl, run, rfl⟩,
      Settled.renderChain_append_ok.2 ⟨u, v, renderChain_text_ok.2 rfl, rendered, rfl⟩⟩

/-- The text is made of the characters, and of texts with a property between any two of them. -/
inductive Woven (P : String → Prop) : List Char → List (List Char) → String → Prop where
  | last (cs : List Char) : Woven P cs [] (String.ofList cs)
  | slot {cs next : List Char} {rest : List (List Char)} {u v : String} :
    P u → Woven P next rest v → Woven P cs (next :: rest) (String.ofList cs ++ u ++ v)

theorem Woven.cons {P : String → Prop} {cs : List Char} {rest : List (List Char)}
    (h : Woven P cs rest t) (c : Char) :
    Woven P (c :: cs) rest (String.singleton c ++ t) := by
  have first (cs : List Char) :
      String.singleton c ++ String.ofList cs = String.ofList (c :: cs) :=
    String.toList_inj.1 (by simp)
  cases h with
  | last =>
    rw [first]
    exact .last _
  | slot hu hv =>
    rw [String.append_assoc, ← String.append_assoc, first, ← String.append_assoc]
    exact .slot hu hv

/-- A pattern is written as its characters with the arguments in its slots. -/
theorem woven_of_joined {P : String → Prop} {arg : Nat → Writing Chain}
    (each : ∀ i u, Gives s (arg i) u → P u) {symbols : List Template.Symbol}
    (h : Gives s (Script.template (Template.joined symbols) arg) t) :
    Woven P (Lexicon.runs symbols).1 (Lexicon.runs symbols).2 t := by
  simp only [Script.template_eq] at h
  induction symbols generalizing t with
  | nil =>
    obtain ⟨named, c, named', run, rendered⟩ := h
    cases pure_ok.1 run
    cases rendered
    exact .last []
  | cons symbol rest ih =>
    cases symbol with
    | slot i =>
      obtain ⟨u, v, hu, hv, rfl⟩ := gives_cons h
      have woven : Woven P _ _ (String.ofList [] ++ u ++ v) := .slot (each i u hu) (ih hv)
      have empty : String.ofList [] = "" := rfl
      rwa [empty, String.empty_append] at woven
    | char c =>
      obtain ⟨v, hv, rfl⟩ : ∃ v, Gives s
          (concat ((Template.joined rest).map (Script.templatePart arg))) v ∧
          t = String.singleton c ++ v := by
        rw [Template.joined] at h
        generalize Template.joined rest = parts at h ⊢
        cases parts with
        | nil => exact gives_text_cons.1 h
        | cons part parts =>
          cases part with
          | arg i => exact gives_text_cons.1 h
          | text u =>
            obtain ⟨v, hv, rfl⟩ := gives_text_cons.1 h
            exact ⟨u ++ v, gives_text_cons.2 ⟨v, hv, rfl⟩, String.append_assoc⟩
      exact (ih hv).cons c

end Writing

namespace Lexicon

variable {l : Lexicon} {count : Nat → TokenRole → Option Nat} {p : Position} {j : Nat}
  {cs : List Char} {rest : List (List Char)} {t : String}

/-- Whether the characters are those of an operand, with whole texts in brackets between any two
runs of them. -/
def spansRuns (l : Lexicon) : Position → Nat → List Char → List (List Char) → Bool
  | p, j, cs, [] => l.spans operandAfter? p j cs .outside 1
  | p, j, cs, next :: rest =>
    match l.countAfter? operandAfter? j cs with
    | some k => 2 ≤ k && l.spans operandAfter? p j cs .ground k && spansRuns l .outside k next rest
    | none => false

theorem spans_of_woven (h : l.spansRuns p j cs rest = true)
    (woven : Writing.Woven l.IsWhole cs rest t) : l.Spans operandAfter? p j .outside 1 t := by
  induction woven generalizing p j with
  | last cs => exact spans_text h
  | @slot cs next rest u v whole _ ih =>
    rw [spansRuns] at h
    split at h
    next k _ =>
      simp only [Bool.and_eq_true, decide_eq_true_eq] at h
      obtain ⟨⟨inner, first⟩, last⟩ := h
      obtain ⟨k, rfl⟩ := Nat.exists_eq_add_of_le' inner
      exact ((spans_text first).append (whole.spans k).enclosed).append (ih last)
    next => cases h

/-- Whether the pattern puts whole arguments in brackets, and is an operand, whatever their
number. -/
def enclosesPattern (l : Lexicon) (cs : List Char) : Bool :=
  Template.hasThreeSlots cs && (List.range 4).all fun arity ↦
    let r := runs (Template.symbols arity 0 cs)
    l.spansRuns .ground 0 r.1 r.2

/-- Whether the template puts whole arguments in brackets, and is an operand, whatever their
number. -/
def encloses (l : Lexicon) : Template → Bool
  | .call name => l.spans operandAfter? .ground 0 (name.toList ++ ['(']) .ground 2
  | .separated operator =>
    l.spans operandAfter? .outside 2 (' ' :: (operator.toList ++ [' '])) .ground 2
  | .pattern text => l.enclosesPattern text.toList

theorem encloses_call {cs : List Char}
    (h : l.spans operandAfter? .ground 0 (cs ++ ['(']) .ground 2 = true) :
    l.encloses (.call (String.ofList cs)) = true := by
  rwa [encloses, String.toList_ofList]

theorem encloses_separated {cs : List Char}
    (h : l.spans operandAfter? .outside 2 (' ' :: (cs ++ [' '])) .ground 2 = true) :
    l.encloses (.separated (String.ofList cs)) = true := by
  rwa [encloses, String.toList_ofList]

theorem encloses_pattern {cs : List Char} (h : l.enclosesPattern cs = true) :
    l.encloses (.pattern (String.ofList cs)) = true := by
  rwa [encloses, String.toList_ofList]

theorem encloses_pattern_append {cs ds : List Char} (h : l.enclosesPattern (cs ++ ds) = true) :
    l.encloses (.pattern (String.ofList cs ++ String.ofList ds)) = true := by
  rw [← String.ofList_append]
  exact encloses_pattern h

end Lexicon

namespace Writing

variable {l : Lexicon} {s : Settled} {arg : Nat → Writing Chain}

/-- Whole arguments with a text between any two, and a closing bracket behind them. -/
theorem spans_separated {separator : String}
    (hs : l.Spans operandAfter? .outside 2 .ground 2 separator)
    (each : ∀ i, IsWhole l s (arg i)) (args : List Nat) :
    Spans l s operandAfter? .ground 2 .outside 1 (Script.template
      (List.intersperse (.text separator) (args.map .arg) ++ [.text ")"]) arg) := by
  simp only [Script.template_eq]
  induction args with
  | nil => exact .single (.text rfl)
  | cons i args ih =>
    cases args with
    | nil => exact .cons (each i).enclosed <| .single (.text rfl)
    | cons j args => exact .cons (each i).enclosed <| .cons (.pure_text hs) ih

/-- A template that puts its arguments in brackets is an operand if these are whole. -/
theorem isOperand_template {t : Template} (h : l.encloses t = true)
    (each : ∀ i, IsWhole l s (arg i)) (arity : Nat) :
    IsOperand l s (Script.template (t.parts arity) arg) := by
  cases t with
  | call name =>
    have opens : l.Spans operandAfter? .ground 0 .ground 2 (name ++ "(") :=
      Lexicon.spans_of_toList (by rw [String.toList_append]; exact h)
    have comma : l.Spans operandAfter? .outside 2 .ground 2 ", " := Lexicon.spans_text rfl
    have rest := spans_separated comma each (List.range arity)
    simp only [Script.template_eq] at rest ⊢
    exact .cons (.pure_text opens) rest
  | separated operator =>
    have between : l.Spans operandAfter? .outside 2 .ground 2 (" " ++ operator ++ " ") :=
      Lexicon.spans_of_toList (by rw [String.toList_append, String.toList_append]; exact h)
    have rest := spans_separated between each (List.range arity)
    simp only [Script.template_eq] at rest ⊢
    exact .cons (.text rfl) rest
  | pattern text =>
    simp only [Lexicon.encloses, Lexicon.enclosesPattern, Bool.and_eq_true, List.all_eq_true,
      List.mem_range] at h
    have counted : l.spansRuns .ground 0 (Lexicon.runs (Template.symbols arity 0 text.toList)).1
        (Lexicon.runs (Template.symbols arity 0 text.toList)).2 = true := by
      by_cases low : arity < 4
      · exact h.2 arity low
      · rw [Template.symbols_of_le h.1 (by omega)]
        exact h.2 3 (by omega)
    intro t given
    exact Lexicon.spans_of_woven counted
      (woven_of_joined (fun i u hu ↦ Lexicon.spans_iff_isWhole.1 (each i u hu)) given)

end Writing

end SqlWright
