import SqlWright.Proofs.Lexing.Positions
import SqlWright.Spelling.Template

/-!
# Templates that keep tokens apart

A template is admitted if its own texts open no quotes that they do not close, and separate its
arguments from each other and from what they say themselves. A pattern is taken apart differently
for every number of arguments, but for three and more it is taken apart alike, since no pattern
has slots beyond the third.
-/

namespace SqlWright

namespace Template

/-- Number of the argument that a slot names, however many arguments there are. -/
def slotNumber? (cs : List Char) : Option Nat :=
  let inner := cs.takeWhile (· ≠ '\x7d')
  Text.digits? (match inner with
    | '+' :: rest => rest
    | _ => inner)

theorem slot?_eq (arity : Nat) (cs : List Char) : slot? arity cs =
    if (cs.takeWhile (· ≠ '\x7d')).length < cs.length then
      ((slotNumber? cs).filter (· < arity)).map fun i ↦
        (i, (cs.takeWhile (· ≠ '\x7d')).length + 1)
    else none := rfl

/-- Whether every slot of the text names one of the first three arguments. -/
def hasThreeSlots : List Char → Bool
  | [] => true
  | _ :: cs => (slotNumber? cs).all (· < 3) && hasThreeSlots cs

theorem slot?_of_le {cs : List Char} (h : (slotNumber? cs).all (· < 3) = true) {arity : Nat}
    (ha : 3 ≤ arity) : slot? arity cs = slot? 3 cs := by
  have named : (slotNumber? cs).filter (· < arity) = (slotNumber? cs).filter (· < 3) := by
    cases hn : slotNumber? cs with
    | none => rfl
    | some i =>
      have low : i < 3 := by simpa [hn] using h
      have inBounds : i < arity := by omega
      simp [Option.filter, low, inBounds]
  rw [slot?_eq, slot?_eq, named]

/-- Three arguments and more are put into a pattern alike. -/
theorem symbols_of_le {cs : List Char} (h : hasThreeSlots cs = true) {arity : Nat} (ha : 3 ≤ arity)
    (skip : Nat) : symbols arity skip cs = symbols 3 skip cs := by
  induction cs generalizing skip with
  | nil => simp [symbols]
  | cons c cs ih =>
    simp only [hasThreeSlots, Bool.and_eq_true] at h
    cases skip with
    | succ skip => exact ih h.2 skip
    | zero =>
      unfold symbols
      simp only [slot?_of_le h.1 ha, ih h.2]

end Template

namespace Lexicon

variable {l : Lexicon}

/-- Whether the symbols of a pattern lead from the position to outside quoted tokens, if each
argument stands where a token may begin, and leads outside quoted tokens itself. -/
def leadsSymbols (l : Lexicon) : Position → List Template.Symbol → Bool
  | p, [] => p.isWithin .outside
  | p, .slot _ :: rest => p.isWithin .ground && leadsSymbols l .outside rest
  | p, .char c :: rest =>
    match l.after p [c] with
    | some q => leadsSymbols l q rest
    | none => false

/-- Whether a pattern keeps its arguments apart and leaves no quotes open. -/
def admitsPattern (l : Lexicon) (cs : List Char) : Bool :=
  Template.hasThreeSlots cs &&
    (List.range 4).all fun arity ↦ l.leadsSymbols .ground (Template.symbols arity 0 cs)

/-- Whether the template keeps its arguments apart and leaves no quotes open. -/
def admits (l : Lexicon) : Template → Bool
  | .call name | .separated name => name.toList.all isCalm
  | .pattern text => l.admitsPattern text.toList

theorem admits_call {cs : List Char} (h : cs.all isCalm = true) :
    l.admits (.call (String.ofList cs)) = true := by
  rwa [admits, String.toList_ofList]

theorem admits_separated {cs : List Char} (h : cs.all isCalm = true) :
    l.admits (.separated (String.ofList cs)) = true := by
  rwa [admits, String.toList_ofList]

theorem admits_pattern {cs : List Char} (h : l.admitsPattern cs = true) :
    l.admits (.pattern (String.ofList cs)) = true := by
  rwa [admits, String.toList_ofList]

theorem admits_pattern_append {cs ds : List Char} (h : l.admitsPattern (cs ++ ds) = true) :
    l.admits (.pattern (String.ofList cs ++ String.ofList ds)) = true := by
  rw [← String.ofList_append]
  exact admits_pattern h

/-- An admitted pattern leads to outside quoted tokens, whatever the number of its arguments. -/
theorem leadsSymbols_of_admits {text : String} (h : l.admits (.pattern text) = true) (arity : Nat) :
    l.leadsSymbols .ground (Template.symbols arity 0 text.toList) = true := by
  simp only [admits, admitsPattern, Bool.and_eq_true, List.all_eq_true, List.mem_range] at h
  by_cases low : arity < 4
  · exact h.2 arity low
  · rw [Template.symbols_of_le h.1 (by omega)]
    exact h.2 3 (by omega)

/-! ### Parts -/

/-- Whether the parts of a template lead from the position to outside quoted tokens, if each
argument stands where a token may begin, and leads outside quoted tokens itself. -/
def leadsParts (l : Lexicon) : Position → List TemplatePart → Bool
  | p, [] => p.isWithin .outside
  | p, .arg _ :: rest => p.isWithin .ground && leadsParts l .outside rest
  | p, .text s :: rest =>
    match l.after p s.toList with
    | some q => leadsParts l q rest
    | none => false

theorem leadsParts_text (p : Position) (c : Char) (s : String) (rest : List TemplatePart) :
    l.leadsParts p (.text (String.singleton c ++ s) :: rest) =
      match l.after p [c] with
      | some q => l.leadsParts q (.text s :: rest)
      | none => false := by
  have chars : (String.singleton c ++ s).toList = c :: s.toList := by simp
  rw [leadsParts, chars, after_cons]
  cases l.after p [c] with
  | none => rfl
  | some q => rfl

/-- Putting neighbouring characters together keeps what a pattern leads to. -/
theorem leadsParts_joined (p : Position) (symbols : List Template.Symbol) :
    l.leadsParts p (Template.joined symbols) = l.leadsSymbols p symbols := by
  induction symbols generalizing p with
  | nil => rfl
  | cons symbol rest ih =>
    cases symbol with
    | slot i => simp only [Template.joined, leadsParts, leadsSymbols, ih]
    | char c =>
      have alone (parts : List TemplatePart) :
          l.leadsParts p (.text (String.singleton c) :: parts) =
            match l.after p [c] with
            | some q => l.leadsParts q parts
            | none => false := by
        simp [leadsParts]
      rw [leadsSymbols]
      simp only [← ih, Template.joined]
      split
      next s parts joined =>
        rw [leadsParts_text, joined]
      next => exact alone _

/-- Arguments with a text between any two, and another at their end. -/
theorem leadsParts_separated {separator last : String}
    (hs : l.after .outside separator.toList = some .ground)
    (hl : l.after .outside last.toList = some .ground)
    (hg : l.after .ground last.toList = some .ground) (args : List Nat) :
    l.leadsParts .ground (List.intersperse (.text separator) (args.map .arg) ++ [.text last]) =
      true := by
  induction args with
  | nil => simp [leadsParts, hg, Position.isWithin]
  | cons i args ih =>
    cases args with
    | nil => simp [leadsParts, hl, Position.isWithin]
    | cons j args =>
      simp only [List.map_cons, List.intersperse, List.cons_append] at ih ⊢
      simp [leadsParts, hs, Position.isWithin] at ih ⊢
      exact ih

/-- Characters without quotes, and a bracket or a blank after them, are read to between tokens. -/
theorem run_symbol {cs : List Char} (h : cs.all isCalm = true) {c : Char}
    (hc : c = '(' ∨ c = ' ') : (l.run .ground (cs ++ [c])).2 = .ground := by
  have ends {m : Mode} (hm : m = .ground ∨ ∃ w, m = .word w) : (l.step m c).2 = .ground := by
    obtain rfl | ⟨w, rfl⟩ := hm
    · obtain rfl | rfl := hc <;> rfl
    · obtain rfl | rfl := hc <;> rfl
  rw [run_append]
  exact ends (run_isCalm h (.inl rfl))

/-- An admitted template leads to outside quoted tokens, whatever the number of its arguments. -/
theorem leadsParts_of_admits {t : Template} (h : l.admits t = true) (arity : Nat) :
    l.leadsParts .ground (t.parts arity) = true := by
  cases t with
  | call name =>
    have opens : l.after .ground (name ++ "(").toList = some .ground := by
      rw [String.toList_append, after_reading, show "(".toList = ['('] from rfl,
        run_symbol h (.inl rfl)]
    change l.leadsParts .ground (.text (name ++ "(") :: (_ ++ _)) = true
    rw [leadsParts, opens]
    exact leadsParts_separated rfl rfl rfl (List.range arity)
  | separated operator =>
    have between : l.after .outside (" " ++ operator ++ " ").toList = some .ground := by
      rw [String.toList_append, String.toList_append, List.append_assoc]
      change some (Position.reading (l.run .ground (operator.toList ++ [' '])).2) = _
      rw [run_symbol h (.inr rfl)]
    change l.leadsParts .ground (.text "(" :: (_ ++ _)) = true
    rw [leadsParts]
    exact leadsParts_separated between rfl rfl (List.range arity)
  | pattern text =>
    change l.leadsParts .ground (Template.joined _) = true
    rw [leadsParts_joined]
    exact leadsSymbols_of_admits h arity

end Lexicon

end SqlWright
