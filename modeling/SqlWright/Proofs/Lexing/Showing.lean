import SqlWright.Proofs.Lexing.Statements

/-!
# Texts that show in others

A part shows in a text if it stands there and is read outside quoted tokens from end to end: no
name and no string hides it. What is written shows a part if one of its pieces does and the pieces
before it leave no quoted token open.
-/

namespace SqlWright

variable {α : Type}

/-- Whether the reading is inside a quoted token. -/
def Mode.isQuoted : Mode → Bool
  | .inside _ _ | .escape _ _ => true
  | .ground | .word _ | .closing _ _ => false

theorem Mode.Outside.isQuoted {m m' : Mode} (h : m.Outside m') : m.isQuoted = false := by
  cases h <;> rfl

namespace Lexicon

variable {l : Lexicon}

/-- The part stands in the text, and is read outside quoted tokens from end to end. -/
def Shows (l : Lexicon) (part text : String) : Prop :=
  ∃ before after, text = before ++ part ++ after ∧
    ∀ read, read <+: part.toList → (l.run .ground (before.toList ++ read)).2.isQuoted = false

/-- Whether the text opens no quoted token and goes on with no token that stands before it. -/
def isPlain (cs : List Char) : Bool := cs.all isCalm && cs.head?.all isBreak

theorem isPlain_of_isInitial {cs cs' : List Char} (h : isPlain cs' = true) (hp : cs <+: cs') :
    isPlain cs = true := by
  obtain ⟨rest, rfl⟩ := hp
  cases cs with
  | nil => rfl
  | cons c cs => simp_all [isPlain]

theorem isQuoted_run {m : Mode} (hm : m.Outside m) {cs : List Char} (h : isPlain cs = true) :
    (l.run m cs).2.isQuoted = false := by
  cases cs with
  | nil => exact hm.isQuoted
  | cons c cs =>
    simp only [isPlain, List.all_cons, List.head?_cons, Option.all_some, Bool.and_eq_true] at h
    obtain ⟨-, first, -⟩ := step_break (l := l) h.2 hm
    have calm : (l.start c).2 = .ground ∨ ∃ text, (l.start c).2 = .word text :=
      (start_isCalm h.1.1).imp_right fun word ↦ ⟨_, word⟩
    simp only [run, first]
    obtain ends | ⟨text, ends⟩ := run_isCalm (l := l) h.1.2 calm
    · rw [ends]
      rfl
    · rw [ends]
      rfl

/-- A plain part shows after a text that leaves no quoted token open. -/
theorem shows_append {before part : String} (h : l.Passes .ground .outside before)
    (plain : isPlain part.toList = true) (after : String) :
    l.Shows part (before ++ part ++ after) := by
  refine ⟨before, after, rfl, fun read hr ↦ ?_⟩
  obtain ⟨-, ends⟩ := h .ground .ground ⟨rfl, rfl⟩
  rw [run_append]
  exact isQuoted_run ends (isPlain_of_isInitial plain hr)

/-- What shows in a text stands in it. -/
theorem Shows.isInfix {part text : String} (h : l.Shows part text) :
    part.toList <:+: text.toList := by
  obtain ⟨before, after, rfl, -⟩ := h
  exact ⟨before.toList, after.toList, by simp⟩

/-- In a string the words of a lock do not show, though they stand there. -/
example : (run ⟨false, false, false⟩ .ground "SELECT ' FOR".toList).2.isQuoted = true := rfl

end Lexicon

namespace Writing

variable {l : Lexicon} {s : Settled} {parts : String → Prop} {p q : Position} {x : Writing Chain}
  {xs : List (Writing Chain)} {β : Type}

/-- One of the parts stands in every text that the execution gives what is written, after what
leads from the position to outside quoted tokens. -/
def Displays (l : Lexicon) (s : Settled) (parts : String → Prop) (p : Position)
    (x : Writing Chain) : Prop :=
  ∀ named r text, x named = .ok r → s.renderChain r.1 = .ok text →
    ∃ before part after, parts part ∧ l.Passes p .outside before ∧ text = before ++ part ++ after

/-- What is written alike leads from the one position to the other. -/
theorem Alike.passes (h : Alike l s p q x x) {named : List Parameter}
    {r : Chain × List Parameter} (run : x named = .ok r) {text : String}
    (ht : s.renderChain r.1 = .ok text) : l.Passes p q text := by
  have both := h named
  rw [run] at both
  cases both with
  | ok both =>
    have rendered := both.2
    unfold Lexicon.Renders at rendered
    rw [ht] at rendered
    cases rendered with
    | ok matched => exact matched

namespace Displays

theorem text {part : String} (h : parts part) :
    Displays l s parts .outside (pure [.text part]) := by
  rintro named _ _ ⟨⟩ ht
  rw [Settled.renderChain_single rfl] at ht
  cases ht
  exact ⟨"", part, "", h, .empty, by simp⟩

theorem lift {e : Except Error β} {f : β → Writing Chain}
    (h : ∀ a, e = .ok a → Displays l s parts p (f a)) : Displays l s parts p (liftM e >>= f) := by
  intro named r text run ht
  obtain ⟨a, named₁, ha, rest⟩ := bind_ok.mp run
  exact h a (lift_ok.mp ha).1 named₁ r text rest ht

/-- The first of what is written shows a part. -/
theorem head (h : Displays l s parts p x) : Displays l s parts p (concat (x :: xs)) := by
  intro named r text run ht
  obtain ⟨c, named₁, d, hc, -, joined⟩ := concat_ok.mp run
  rw [joined, Settled.renderChain_append_ok] at ht
  obtain ⟨first, rest, hfirst, -, rfl⟩ := ht
  obtain ⟨before, part, after, hp, passes, rfl⟩ := h named (c, named₁) first hc hfirst
  exact ⟨before, part, after ++ rest, hp, passes, String.append_assoc ..⟩

/-- What is written after the first shows a part. -/
theorem tail (h : Alike l s p q x x) (hs : Displays l s parts q (concat xs)) :
    Displays l s parts p (concat (x :: xs)) := by
  intro named r text run ht
  obtain ⟨c, named₁, d, hc, hd, joined⟩ := concat_ok.mp run
  rw [joined, Settled.renderChain_append_ok] at ht
  obtain ⟨first, rest, hfirst, hrest, rfl⟩ := ht
  obtain ⟨before, part, after, hp, passes, rfl⟩ := hs named₁ (d, r.2) rest hd hrest
  refine ⟨first ++ before, part, after, hp, (h.passes hc hfirst).append passes, ?_⟩
  simp only [String.append_assoc]

end Displays

end Writing

namespace Script

open Writing

variable {w : Script} {l : Lexicon} {s : Settled} {parts : String → Prop} {u : α → Tree}
  {k : Writer α} {hint : Option String}

/-! ### Row sources -/

/-- A table shows its hint. -/
theorem displays_table (rules : w.Lexes l) (schema : Option String) (name : String)
    (label : Option String) {part : String} (h : parts part) :
    Displays l s parts .ground (w.node (.table schema name label) (some part)) := by
  have table : WrittenAlike l s (w.qualified schema name) (w.qualified schema name) :=
    alike_qualified rules rfl name name
  have hinted : Displays l s parts .outside (concat [pure [.text part]]) := .head (.text h)
  cases label with
  | none =>
    have shown := Displays.tail table hinted
    have written : w.node (.table schema name none) (some part) =
        concat [w.qualified schema name, pure [.text part]] := by simp [node, concat]
    rwa [written]
  | some label =>
    have shown := Displays.tail table (.tail (alike_aliasClause rules label label) hinted)
    have written : w.node (.table schema name (some label)) (some part) =
        concat [w.qualified schema name, w.aliasClause label, pure [.text part]] := by
      simp [node, concat]
    rwa [written]

/-- A derived table shows what its query shows. -/
theorem displays_queryRef {query : α} (label : String)
    (h : Displays l s parts .ground (k query hint)) :
    Displays l s parts .ground (w.node ((Node.queryRef query label).map (partOf u k)) hint) := by
  have shown : Displays l s parts .ground
      (concat [pure [.text "("], k query hint, pure [.text ")"], w.aliasClause label]) :=
    .tail (.text (by rfl)) (.head h)
  have written : w.node ((Node.queryRef query label).map (partOf u k)) hint =
      concat [pure [.text "("], k query hint, pure [.text ")"], w.aliasClause label] := by
    simp [node, Node.map, concat, partOf]
  rwa [written]

/-- A join shows what one of its sides shows. -/
theorem displays_join {left right : α} (kind : JoinKind) (on : Option α)
    (hl : WrittenAlike l s (k left hint) (k left hint))
    (h : Displays l s parts .ground (k left hint) ∨ Displays l s parts .ground (k right hint)) :
    Displays l s parts .ground (w.node ((Node.join kind left right on).map (partOf u k)) hint) := by
  have written : w.node ((Node.join kind left right on).map (partOf u k)) hint =
      concat [k left hint, pure [.text (joinText kind)], k right hint,
        clause " ON " (on.map (partOf u k)) hint] := by
    simp [node, Node.map, concat, partOf]
  rw [written]
  obtain h | h := h
  · exact .head h
  · exact .tail hl (.tail (alike_joinText kind) (.head h))

/-! ### Selects -/

section Selects

variable {q : Select α} {lock : Option LockClause} {paging : Option PagingClause}

/-- A select shows what its row source shows. -/
theorem displays_clauses_source (rules : w.Lexes l)
    (each : ∀ a ∈ q.children, WrittenAlike l s (k a none) (k a none)) {source : α}
    (hs : q.source = some source)
    (h : Displays l s parts .ground (k source (tableHint lock hint))) :
    Displays l s parts .ground (w.clauses (q.map (partOf u k)) paging lock hint) := by
  simp only [Select.children, Select.exprs, List.mem_append, or_imp, forall_and,
    List.forall_mem_map, Option.mem_toList] at each
  obtain ⟨⟨⟨⟨⟨⟨⟨columns, -⟩, -⟩, -⟩, -⟩, -⟩, limits⟩, -⟩ := each
  have blank := alike_columnList (u := u) rules columns
  have list : WrittenAlike l s (w.columnList (q.map (partOf u k)))
      (w.columnList (q.map (partOf u k))) := blank.of_common blank
  have written : w.source (q.map (partOf u k)).source (tableHint lock hint) =
      concat [pure [.text " FROM "], k source (tableHint lock hint)] := by
    simp [Script.source, Select.map, hs, concat, partOf]
  have sources : Displays l s parts .outside
      (w.source (q.map (partOf u k)).source (tableHint lock hint)) := by
    rw [written]
    exact .tail (.text (by rfl)) (.head h)
  exact .tail (.text (by rfl)) <| .tail (.optional (by rfl)) <|
    .tail (alike_topClause limits paging) <| .tail list (.head sources)

/-- A select shows the clause of its lock at its end. -/
theorem displays_clauses_suffix (rules : w.Lexes l) (passes : HintPasses l hint)
    (each : ∀ a ∈ q.children, ∀ hint, HintPasses l hint → WrittenAlike l s (k a hint) (k a hint))
    {part : String} (h : parts part) :
    Displays l s parts .ground
      (w.clauses (q.map (partOf u k)) paging (some (.suffix part)) hint) := by
  have unlocked : ∀ clause ∈ (none : Option LockClause), l.Passes .outside .outside clause.text :=
    nofun
  have blank : WrittenAlike l s (w.clauses (q.map (partOf u k)) paging none hint)
      (w.clauses (q.blanked.map (partOf u k)) paging none hint) :=
    alike_clauses rules unlocked passes each paging
  have before : WrittenAlike l s (w.clauses (q.map (partOf u k)) paging none hint)
      (w.clauses (q.map (partOf u k)) paging none hint) := blank.of_common blank
  have written : w.clauses (q.map (partOf u k)) paging (some (.suffix part)) hint =
      concat [w.clauses (q.map (partOf u k)) paging none hint, pure [.text part]] := by
    simp only [clauses_eq, concat_cons, lockSuffix, tableHint, bind_assoc, pure_bind,
      List.append_nil]
    rfl
  rw [written]
  exact .tail before (.head (.text h))

end Selects

/-- A statement leaves no quoted token open if its nodes do not. -/
theorem alike_self (rules : w.Lexes l) {t : Tree}
    (clear : t.Everywhere (Node.IsClear l s w.mark)) (passes : HintPasses l hint) :
    WrittenAlike l s (w.tree t hint) (w.tree t hint) :=
  alike_of_blanked rules rfl clear clear passes

end Script

end SqlWright
