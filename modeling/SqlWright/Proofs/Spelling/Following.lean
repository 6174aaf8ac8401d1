import SqlWright.Proofs.Command.ItemizedNodes
import SqlWright.Proofs.Command.Writing

/-!
# Writing with another spelling

What one spelling writes is compared with what another one writes of the same statement. A
`Demand` says what is asked for: whether the texts are to be the same, and what is to be known of
a rule that the first spelling lacks. Each construct follows if its parts do.
-/

namespace SqlWright

variable {α β γ δ : Type}

/-- What is asked of a second spelling in place of a first one. -/
structure Demand where
  /-- The texts are the same, and the parameters have the same names. -/
  same : Prop
  /-- Known of a rule that the first spelling lacks. -/
  lacks : Rule → Prop

namespace Demand

/-- Equal if the same is asked for. -/
def Matches (q : Demand) (a b : α) : Prop := q.same → b = a

/-- The second succeeds where the first does, with a related result, and the first fails for the
lack of a rule only if that is known of the rule. -/
structure Meets (q : Demand) (R : α → β → Prop) (x : Except Error α) (y : Except Error β) :
    Prop where
  ok : ∀ a, x = .ok a → ∃ b, y = .ok b ∧ R a b
  missing : ∀ name rule, x = .error (.missingRule name rule) → q.lacks rule

/-- Writing that meets the demand, whatever parameters were named before, or if the same is asked
for, after the same ones. -/
def Follows (q : Demand) (R : α → β → Prop) (m : Writing α) (m' : Writing β) : Prop :=
  ∀ named named', q.Matches named named' →
    q.Meets (fun r r' ↦ R r.1 r'.1 ∧ q.Matches r.2 r'.2) (m named) (m' named')

/-- Writing of chains that are the same if that is asked for. -/
abbrev Copies (q : Demand) (m m' : Writing Chain) : Prop := q.Follows q.Matches m m'

variable {q : Demand} {R : α → β → Prop} {S : γ → δ → Prop}

theorem Matches.refl (a : α) : q.Matches a a := fun _ ↦ rfl

theorem Matches.map {a b : α} (h : q.Matches a b) (f : α → β) : q.Matches (f a) (f b) :=
  fun same ↦ congrArg f (h same)

theorem Matches.append {a b c d : Chain} (h : q.Matches a b) (h' : q.Matches c d) :
    q.Matches (a ++ c) (b ++ d) :=
  fun same ↦ by rw [h same, h' same]

namespace Meets

theorem pure {a : α} {b : β} (h : R a b) : q.Meets R (.ok a) (.ok b) := by
  constructor
  · rintro _ ⟨⟩
    exact ⟨b, rfl, h⟩
  · nofun

/-- A failure for another reason asks for nothing. -/
theorem error {e : Error} {y : Except Error β} (he : ∀ name rule, e ≠ .missingRule name rule) :
    q.Meets R (.error e) y := by
  constructor
  · nofun
  · rintro name rule ⟨⟩
    exact absurd rfl (he name rule)

/-- Nor does the failure for a feature that the server does not have. -/
theorem unsupported {s : Spelling} {feature : String} {y : Except Error β} :
    q.Meets R (.error (s.unsupported feature)) y :=
  error fun _ _ h ↦ by cases h

theorem imp {x : Except Error α} {y : Except Error β} {R' : α → β → Prop} (h : q.Meets R x y)
    (hr : ∀ a b, R a b → R' a b) : q.Meets R' x y where
  ok a ha := by
    obtain ⟨b, hb, both⟩ := h.ok a ha
    exact ⟨b, hb, hr a b both⟩
  missing := h.missing

theorem bind {x : Except Error α} {y : Except Error β} {f : α → Except Error γ}
    {g : β → Except Error δ} (h : q.Meets R x y) (hf : ∀ a b, R a b → q.Meets S (f a) (g b)) :
    q.Meets S (x >>= f) (y >>= g) := by
  cases x with
  | error e =>
    constructor
    · nofun
    · rintro name rule ⟨⟩
      exact h.missing name rule rfl
  | ok a =>
    obtain ⟨b, rfl, both⟩ := h.ok a rfl
    exact hf a b both

/-- The same use of a rule meets the demand if the rules do. -/
theorem map {x y : Except Error α} (h : q.Meets q.Matches x y) (f : α → β) :
    q.Meets q.Matches (do return f (← x)) (do return f (← y)) :=
  h.bind fun _ _ same ↦ .pure (same.map f)

end Meets

namespace Follows

theorem pure {a : α} {b : β} (h : R a b) : q.Follows R (pure a) (pure b) :=
  fun _ _ named ↦ .pure ⟨h, named⟩

theorem lift {x : Except Error α} {y : Except Error β} (h : q.Meets R x y) :
    q.Follows R (liftM x : Writing α) (liftM y : Writing β) := by
  intro named named' same
  cases x with
  | error e =>
    constructor
    · nofun
    · rintro name rule ⟨⟩
      exact h.missing name rule rfl
  | ok a =>
    obtain ⟨b, rfl, both⟩ := h.ok a rfl
    exact .pure ⟨both, same⟩

theorem unsupported {s : Spelling} {feature : String} {m' : Writing β} :
    q.Follows R (throw (s.unsupported feature) : Writing α) m' :=
  fun _ _ _ ↦ .unsupported

theorem bind {m : Writing α} {m' : Writing β} {f : α → Writing γ} {g : β → Writing δ}
    (h : q.Follows R m m') (hf : ∀ a b, R a b → q.Follows S (f a) (g b)) :
    q.Follows S (m >>= f) (m' >>= g) :=
  fun named named' same ↦ (h named named' same).bind fun _ _ both ↦ hf _ _ both.1 _ _ both.2

theorem congr {m₁ m₂ : Writing α} {m₁' m₂' : Writing β} (h : q.Follows R m₁ m₁') (e : m₂ = m₁)
    (e' : m₂' = m₁') : q.Follows R m₂ m₂' := by
  rwa [e, e']

theorem mapM {f : γ → Writing α} {g : γ → Writing β} {l : List γ}
    (h : ∀ c ∈ l, q.Follows R (f c) (g c)) :
    q.Follows (List.Forall₂ R) (l.mapM f) (l.mapM g) := by
  induction l with
  | nil =>
    rw [List.mapM_nil, List.mapM_nil]
    exact pure .nil
  | cons c l ih =>
    rw [List.mapM_cons, List.mapM_cons]
    rw [List.forall_mem_cons] at h
    exact h.1.bind fun _ _ first ↦ (ih h.2).bind fun _ _ rest ↦ pure (.cons first rest)

end Follows

theorem Follows.text {s t : String} (h : q.Matches s t) :
    q.Copies (Pure.pure [.text s]) (Pure.pure [.text t]) :=
  .pure (h.map fun s ↦ [Piece.text s])

theorem Follows.fixed (c : Chain) : q.Copies (Pure.pure c) (Pure.pure c) := .pure (.refl c)

theorem matches_of_forall₂ {as bs : List α} (h : List.Forall₂ q.Matches as bs) :
    q.Matches as bs := by
  intro same
  induction h with
  | nil => rfl
  | cons first _ ih => rw [first same, ih]

namespace Copies

variable {m m' n n' : Writing Chain}

theorem append (h : q.Copies m m') (h' : q.Copies n n') :
    q.Copies (do return (← m) ++ (← n)) (do return (← m') ++ (← n')) :=
  h.bind fun _ _ first ↦ h'.bind fun _ _ rest ↦ .pure (first.append rest)

theorem concat {xs ys : List (Writing Chain)} (h : List.Forall₂ q.Copies xs ys) :
    q.Copies (Writing.concat xs) (Writing.concat ys) := by
  induction h with
  | nil => exact .fixed []
  | cons first _ ih =>
    rw [Writing.concat_cons, Writing.concat_cons]
    exact first.append ih

theorem concat_map {f g : γ → Writing Chain} {l : List γ} (h : ∀ c ∈ l, q.Copies (f c) (g c)) :
    q.Copies (Writing.concat (l.map f)) (Writing.concat (l.map g)) := by
  apply concat
  rwa [List.forall₂_map_left_iff, List.forall₂_map_right_iff, List.forall₂_same]

theorem separated (separator : String) {xs ys : List (Writing Chain)}
    (h : List.Forall₂ q.Copies xs ys) :
    q.Copies (Script.separated separator xs) (Script.separated separator ys) := by
  induction h with
  | nil => exact .fixed []
  | @cons x y xs ys first rest ih =>
    cases rest with
    | nil => exact first
    | cons second rest =>
      exact first.bind fun _ _ before ↦ ih.bind fun _ _ after ↦
        .pure ((before.append (.refl [.text separator])).append after)

theorem separated_map (separator : String) {f g : γ → Writing Chain} {l : List γ}
    (h : ∀ c ∈ l, q.Copies (f c) (g c)) :
    q.Copies (Script.separated separator (l.map f)) (Script.separated separator (l.map g)) := by
  apply separated
  rwa [List.forall₂_map_left_iff, List.forall₂_map_right_iff, List.forall₂_same]

/-! ### Where only success is asked for -/

/-- If the texts may differ, what follows a writing that can succeed always succeeds. -/
theorem succeeds (h : q.Copies m m') (differ : ¬q.same) {named : List Parameter}
    {r : Chain × List Parameter} (hm : m named = .ok r) : m'.Succeeds := by
  intro named'
  obtain ⟨r', hr, -⟩ := (h named named' fun same ↦ absurd same differ).ok r hm
  exact ⟨r', hr⟩

/-- If the texts may differ and nothing is asked about rules, all that is asked for is success. -/
theorem of_succeeds (differ : ¬q.same) (known : ∀ rule, q.lacks rule)
    (h : ∀ named r, m named = .ok r → m'.Succeeds) : q.Copies m m' := by
  intro named named' _
  constructor
  · intro r hr
    obtain ⟨r', hr'⟩ := h named r hr named'
    exact ⟨r', hr', fun same ↦ absurd same differ, fun same ↦ absurd same differ⟩
  · exact fun _ rule _ ↦ known rule

end Copies

end Demand

/-! ### Success of a part -/

namespace Writing

theorem Succeeds.concat {l : List (Writing Chain)} (h : ∀ x ∈ l, Succeeds x) :
    Succeeds (concat l) := (Succeeds.mapM h).bind fun _ ↦ .pure _

/-- Chains that are written one after the other are written each. -/
theorem exists_of_concat_ok {l : List (Writing Chain)} {named : List Parameter}
    {r : Chain × List Parameter} (h : Writing.concat l named = .ok r) :
    ∀ x ∈ l, ∃ named r, x named = .ok r := by
  induction l generalizing named r with
  | nil => exact List.forall_mem_nil _
  | cons x l ih =>
    obtain ⟨c, named₁, c', hx, hl, -⟩ := concat_ok.mp h
    exact List.forall_mem_cons.mpr ⟨⟨named, _, hx⟩, ih hl⟩

end Writing

end SqlWright
