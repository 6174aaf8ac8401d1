import SqlWright.Proofs.Command.Settling
import SqlWright.Proofs.Lexing.Rules

/-!
# Chains that are taken apart alike

Two writings are alike from one position to another if both fail, or both name the same parameters
and give chains whose texts match there, or which an execution settles neither of. Alike writings
one after the other are alike.
-/

namespace SqlWright

/-- The texts of the two chains match, if the execution settles them. -/
def Lexicon.Renders (l : Lexicon) (s : Settled) (p q : Position) (c c' : Chain) : Prop :=
  Agree (l.Matches p q) (s.renderChain c) (s.renderChain c')

namespace Lexicon.Renders

variable {l : Lexicon} {s : Settled} {p q r : Position} {c c' d d' : Chain}

theorem nil : l.Renders s p p [] [] := .ok .empty

theorem text {t t' : String} (h : l.Matches p q t t') : l.Renders s p q [.text t] [.text t'] := by
  unfold Renders
  rw [Settled.renderChain_single (t := t) rfl, Settled.renderChain_single (t := t') rfl]
  exact .ok h

theorem append (h : l.Renders s p q c c') (h' : l.Renders s q r d d') :
    l.Renders s p r (c ++ d) (c' ++ d') := by
  unfold Renders
  rw [Settled.renderChain_append_eq, Settled.renderChain_append_eq]
  apply h.bind
  intro t t' first
  apply h'.bind
  intro u u' second
  exact .ok (first.append second)

theorem weaken (h : l.Renders s p q c c') (hq : q.isWithin r = true) : l.Renders s p r c c' :=
  h.mono fun _ _ matched ↦ matched.weaken hq

theorem strengthen (h : l.Renders s q r c c') (hp : p.isWithin q = true) : l.Renders s p r c c' :=
  h.mono fun _ _ matched ↦ matched.strengthen hp

theorem piece {x y : Piece} (h : Agree (l.Matches p q) (s.renderPiece x) (s.renderPiece y)) :
    l.Renders s p q [x] [y] := by
  unfold Renders
  rw [Settled.renderChain, Settled.renderChain]
  apply h.bind
  intro t t' matched
  exact .ok (matched.append .empty)

/-- Both chains have the branch that is taken. -/
theorem «variant» {key : VariantKey} (h : l.Renders s p q c c') (h' : l.Renders s p q d d') :
    l.Renders s p q [.variant key (Chain.normalized c) (Chain.normalized d)]
      [.variant key (Chain.normalized c') (Chain.normalized d')] := by
  apply piece
  simp only [Settled.renderPiece, Settled.renderChain_normalized_eq]
  split
  · exact h'
  · exact h

theorem renderAll {cs ds : List Chain} (h : List.Forall₂ (l.Renders s p q) cs ds) :
    Agree (fun ts us ↦ List.Forall₂ (l.Matches p q) ts us ∧ ts.length = cs.length)
      (s.renderAll cs) (s.renderAll ds) := by
  induction h with
  | nil => exact .ok ⟨.nil, rfl⟩
  | cons first rest ih =>
    rw [Settled.renderAll, Settled.renderAll]
    apply first.bind
    intro t t' matched
    apply ih.bind
    rintro ts us ⟨all, length⟩
    exact .ok ⟨.cons matched all, congrArg (· + 1) length⟩

/-- Rows that keep tokens apart do so in a test of expressions of their number. -/
theorem membership {texts texts' : List String} {rows : List (List String)}
    (h : List.Forall₂ (l.Matches .ground .outside) texts texts')
    (width : ∀ row ∈ rows, row.length = texts.length)
    (clear : ∀ row ∈ rows, ∀ text ∈ row, l.Passes .ground .outside text) :
    l.Matches .ground .outside (Settled.membership texts rows)
      (Settled.membership texts' rows) := by
  have comma : l.Passes .outside .ground ", " := Lexicon.matches_of_leads (by rfl)
  have between {texts : List String} (h : ∀ text ∈ texts, l.Passes .ground .outside text) :
      l.Passes .ground .outside (", ".intercalate texts) :=
    .intercalate comma (List.forall₂_same.mpr h)
  have closing : l.Passes .outside .outside ")" := Lexicon.matches_of_leads (by rfl)
  have opening : l.Passes .ground .ground "(" := Lexicon.matches_of_leads (by rfl)
  have several : l.Matches .ground .outside
      ("(" ++ ", ".intercalate texts ++ ") IN (" ++
        ", ".intercalate (rows.map fun row ↦ "(" ++ ", ".intercalate row ++ ")") ++ ")")
      ("(" ++ ", ".intercalate texts' ++ ") IN (" ++
        ", ".intercalate (rows.map fun row ↦ "(" ++ ", ".intercalate row ++ ")") ++ ")") := by
    have test : l.Passes .outside .ground ") IN (" := Lexicon.matches_of_leads (by rfl)
    have rowTexts : l.Passes .ground .outside
        (", ".intercalate (rows.map fun row ↦ "(" ++ ", ".intercalate row ++ ")")) := by
      apply between
      rw [List.forall_mem_map]
      intro row hr
      exact (opening.append (between (clear row hr))).append closing
    exact (((opening.append (.intercalate comma h)).append test).append rowTexts).append closing
  cases h with
  | nil => exact several
  | @cons text text' texts texts' first rest =>
    cases rest with
    | cons second rest => exact several
    | nil =>
      have test : l.Passes .outside .ground " IN (" := Lexicon.matches_of_leads (by rfl)
      have values : l.Passes .ground .outside (", ".intercalate (rows.map String.join)) := by
        apply between
        rw [List.forall_mem_map]
        intro row hr
        obtain ⟨text, rfl⟩ := List.length_eq_one_iff.mp (width row hr)
        simpa using clear [text] hr text (List.mem_singleton_self text)
      exact ((first.append test).append values).append closing

/-- Both chains test their expressions against the rows that are bound. -/
theorem dynamicFilter {id : String} {cs ds : List Chain}
    (h : List.Forall₂ (l.Renders s .ground .outside) cs ds)
    (clear : ∀ rows, s.bindings.rows? id = some rows →
      ∀ row ∈ rows, ∀ text ∈ row, l.Passes .ground .outside text) :
    l.Renders s .ground .outside [.dynamicFilter id cs] [.dynamicFilter id ds] := by
  apply piece
  rw [Settled.renderPiece, Settled.renderPiece, h.length_eq]
  cases bound : s.bindings.rows? id with
  | none => exact .error _ _
  | some rows =>
    by_cases empty : rows.isEmpty
    · simp only [empty, if_true]
      exact .ok (Lexicon.matches_of_leads (by rfl))
    · simp only [empty]
      cases fits : rows.find? (·.length ≠ ds.length) with
      | some row => exact .error _ _
      | none =>
        apply (renderAll h).bind
        rintro texts texts' ⟨matched, length⟩
        have width (row : List String) (hr : row ∈ rows) : row.length = texts.length := by
          simpa [length, h.length_eq] using List.find?_eq_none.mp fits row hr
        exact .ok (membership matched width (clear rows bound))

end Lexicon.Renders

/-- Both writings fail, or both name the same parameters and give chains that render to texts that
match. -/
def Writing.Alike (l : Lexicon) (s : Settled) (p q : Position) (x y : Writing Chain) : Prop :=
  ∀ named, Agree (fun r r' ↦ r.2 = r'.2 ∧ l.Renders s p q r.1 r'.1) (x named) (y named)

namespace Writing.Alike

variable {l : Lexicon} {s : Settled} {p q r : Position} {x x' y y' : Writing Chain}
  {xs ys : List (Writing Chain)} {β γ : Type}

theorem congr (h : Alike l s p q x y) (hx : x' = x) (hy : y' = y) : Alike l s p q x' y' := by
  rw [hx, hy]
  exact h

/-- Writings that are alike to the same writing are alike. -/
theorem of_common (h : Alike l s p q x y) (h' : Alike l s p q x' y) : Alike l s p q x x' := by
  intro named
  apply (h named).of_common (h' named)
  rintro r r' r'' ⟨same, rendered⟩ ⟨same', rendered'⟩
  refine ⟨same.trans same'.symm, ?_⟩
  exact Agree.of_common rendered rendered' fun _ _ _ matched matched' ↦ matched.of_common matched'

theorem pure {c c' : Chain} (h : l.Renders s p q c c') : Alike l s p q (pure c) (pure c') :=
  fun _ ↦ .ok ⟨rfl, h⟩

theorem throw (e e' : Error) : Alike l s p q (throw e) (throw e') := fun _ ↦ .error e e'

theorem none : Alike l s p p (Pure.pure []) (Pure.pure []) := pure .nil

/-- A fixed text is written alike if it leads from the one position to the other. -/
theorem text {cs : List Char} (h : l.leads p cs q = true) :
    Alike l s p q (Pure.pure [.text (String.ofList cs)]) (Pure.pure [.text (String.ofList cs)]) :=
  pure (.text (Lexicon.matches_of_leads h))

theorem weaken (h : Alike l s p q x y) (hq : q.isWithin r = true) : Alike l s p r x y :=
  fun named ↦ (h named).mono fun _ _ both ↦ ⟨both.1, both.2.weaken hq⟩

theorem strengthen (h : Alike l s q r x y) (hp : p.isWithin q = true) : Alike l s p r x y :=
  fun named ↦ (h named).mono fun _ _ both ↦ ⟨both.1, both.2.strengthen hp⟩

/-- A fixed text that may be left out is written alike if it leads to where it begins. -/
theorem optional {b : Bool} {cs : List Char} (h : l.leads p cs p = true) :
    Alike l s p p (Pure.pure (if b then [.text (String.ofList cs)] else []))
      (Pure.pure (if b then [.text (String.ofList cs)] else [])) := by
  cases b with
  | true => exact text h
  | false => exact none

/-- What follows results that are related is alike. -/
theorem lift {e : Except Error β} {e' : Except Error γ} {R : β → γ → Prop}
    {f : β → Writing Chain} {g : γ → Writing Chain} (h : Agree R e e')
    (hf : ∀ a b, R a b → Alike l s p q (f a) (g b)) :
    Alike l s p q (liftM e >>= f) (liftM e' >>= g) := by
  cases h with
  | error e e' => exact throw e e'
  | ok both => exact hf _ _ both

/-- What follows one result is alike. -/
theorem lift_same {e : Except Error β} {f g : β → Writing Chain}
    (h : ∀ a, e = .ok a → Alike l s p q (f a) (g a)) :
    Alike l s p q (liftM e >>= f) (liftM e >>= g) := by
  cases he : e with
  | error e => exact throw e e
  | ok a => exact h a he

theorem append (h : Alike l s p q x y) (h' : Alike l s q r x' y') :
    Alike l s p r (do return (← x) ++ (← x')) (do return (← y) ++ (← y')) := by
  intro named
  apply (h named).bind
  rintro ⟨c, named₁⟩ ⟨c', named₂⟩ ⟨same, first⟩
  change named₁ = named₂ at same
  subst same
  apply (h' named₁).bind
  rintro ⟨d, named₃⟩ ⟨d', named₄⟩ ⟨same', second⟩
  exact .ok ⟨same', first.append second⟩

theorem nil : Alike l s p p (concat []) (concat []) := none

theorem cons (h : Alike l s p q x y) (hs : Alike l s q r (concat xs) (concat ys)) :
    Alike l s p r (concat (x :: xs)) (concat (y :: ys)) :=
  (h.append hs).congr (concat_cons x xs) (concat_cons y ys)

theorem single (h : Alike l s p q x y) : Alike l s p q (concat [x]) (concat [y]) := h.cons nil

end Writing.Alike

end SqlWright
