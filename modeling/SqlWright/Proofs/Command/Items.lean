import SqlWright.Command.OfTree
import SqlWright.Proofs.Spelling.Patterns

/-!
# What a node is written as

A node is written as texts around its children, each of which is written in full under a hint for
tables. Which texts and which children does not depend on how the children are written: a node is
itemized. So two ways to write the children are compared item by item. The texts are of a few kinds,
and all children are among the items but arguments that a template does not mention.
-/

namespace SqlWright

variable {α β : Type}

/-- Item of what a node is written as. -/
inductive Item (α : Type) where
  | text (text : String)
  | part (link : α) (hint : Option String)
  | parameter (parameter : Parameter)
  | placeholder (id : Placeholder)
  | variant (key : VariantKey) (main alternative : α) (hint : Option String)
  | dynamicFilter (id : String) (expressions : List α) (hint : Option String)

/-- The item is a text, a child of the node, or what the node itself leaves to be settled. -/
def Item.IsOf (n : Node α) : Item α → Prop
  | text _ => True
  | part link _ => link ∈ n.children
  | parameter p => n = .parameter p
  | placeholder id => n = .placeholder id
  | variant key main alternative _ => n = .variant key main alternative
  | dynamicFilter id expressions _ =>
    ∃ first others, n = .dynamicFilter id first others ∧ expressions = first :: others

/-- Children of the node that the item writes. -/
def Item.links : Item α → List α
  | text _ | parameter _ | placeholder _ => []
  | part link _ => [link]
  | variant _ main alternative _ => [main, alternative]
  | dynamicFilter _ expressions _ => expressions

/-- Children of a node that are written in a spelling: all but arguments that a template does not
mention. -/
def Spelling.links (s : Spelling) : Node α → List α
  | .function f args =>
    match s.functionTemplate f with
    | .ok t => (t.args args.length).flatMap fun i ↦ args[i]?.toList
    | .error _ => []
  | .binary op left right =>
    match s.operatorTemplate op with
    | .ok t => (t.args 2).flatMap fun i ↦ [if i = 0 then left else right]
    | .error _ => []
  | n => n.children

/-- Way to write the children of a node. -/
abbrev Writer (α : Type) := α → Option String → Writing Chain

namespace Writing

variable {γ δ : Type} {m : Writing γ} {f : γ → Writing δ} {named named' : List Parameter}

theorem bind_ok {r : δ × List Parameter} :
    (m >>= f) named = .ok r ↔ ∃ a named', m named = .ok (a, named') ∧ f a named' = .ok r := by
  change Except.bind (m named) _ = _ ↔ _
  rcases m named with e | ⟨a, named'⟩
  · exact ⟨nofun, nofun⟩
  · refine ⟨fun h ↦ ⟨a, named', rfl, h⟩, ?_⟩
    rintro ⟨a, named', ⟨⟩, h⟩
    exact h

theorem pure_ok {a : γ} {r : γ × List Parameter} :
    (pure a : Writing γ) named = .ok r ↔ r = (a, named) :=
  ⟨fun h ↦ by cases h; rfl, fun h ↦ h ▸ rfl⟩

theorem lift_ok {x : Except Error γ} {r : γ × List Parameter} :
    (liftM x : Writing γ) named = .ok r ↔ x = .ok r.1 ∧ r.2 = named := by
  obtain ⟨a, named'⟩ := r
  cases x with
  | error e => exact ⟨nofun, nofun⟩
  | ok b =>
    constructor
    · rintro ⟨⟩
      exact ⟨rfl, rfl⟩
    · rintro ⟨⟨⟩, rfl⟩
      rfl

/-- Chains written one after the other, as one chain. -/
def concat (l : List (Writing Chain)) : Writing Chain := return (← l.mapM id).flatten

theorem concat_cons (x : Writing Chain) (l : List (Writing Chain)) :
    concat (x :: l) = do return (← x) ++ (← concat l) := by
  simp [concat]

theorem concat_append (l l' : List (Writing Chain)) :
    concat (l ++ l') = do return (← concat l) ++ (← concat l') := by
  simp [concat]

theorem concat_ok {x : Writing Chain} {l : List (Writing Chain)} {r : Chain × List Parameter} :
    concat (x :: l) named = .ok r ↔ ∃ c named₁ c', x named = .ok (c, named₁) ∧
      concat l named₁ = .ok (c', r.2) ∧ r.1 = c ++ c' := by
  simp only [concat_cons, bind_ok, pure_ok]
  constructor
  · rintro ⟨c, named₁, hc, c', named₂, hc', rfl⟩
    exact ⟨c, named₁, c', hc, hc', rfl⟩
  · rintro ⟨c, named₁, c', hc, hc', he⟩
    exact ⟨c, named₁, hc, c', r.2, hc', Prod.ext he rfl⟩

end Writing

namespace Script

open Writing

variable {w : Script} {n : Node α} {m m' : Writer α → Writing Chain}

/-- Chain of an item, given how the children are written. -/
def writeItem (w : Script) (k : Writer α) : Item α → Writing Chain
  | .text s => return [.text s]
  | .part link hint => k link hint
  | .parameter p => w.parameter p
  | .placeholder id => return [.placeholder id]
  | .variant key main alternative hint => do
    let main ← k main hint
    let alternative ← k alternative hint
    return [.variant key main.normalized alternative.normalized]
  | .dynamicFilter id expressions hint => do
    let expressions ← expressions.mapM fun c ↦ return Chain.normalized (← k c hint)
    return [.dynamicFilter id expressions]

/-- Chain of some items. -/
def writeItems (w : Script) (k : Writer α) (items : List (Item α)) : Writing Chain :=
  concat (items.map (w.writeItem k))

/-- What is written comes to items of the node, or to a failure, however its children are
written. -/
def IsItemized (w : Script) (n : Node α) (m : Writer α → Writing Chain) : Prop :=
  ∃ items? : Option (List (Item α)), (∀ items ∈ items?, ∀ i ∈ items, i.IsOf n) ∧
    ∀ k named r, m k named = .ok r ↔ ∃ items ∈ items?, w.writeItems k items named = .ok r

/-! ### Texts and hints of items -/

/-- Whether the text has words, blanks, commas, parentheses and symbols that no other symbol goes
on with. -/
def isPhrase (s : String) : Bool :=
  s.toList.all fun c ↦ c.isAlphanum || [' ', '_', ',', '.', '(', ')', '=', '*'].contains c

/-- The text may stand around the children of a node that is written under a hint: it is the same
in every spelling, or the spelling has it. -/
inductive Wording (w : Script) (n : Node α) (hint : Option String) : String → Prop
  | phrase {s : String} (h : isPhrase s = true) : Wording w n hint s
  | minus : Wording w n hint "-("
  | identifier {name s : String} (h : w.spelling.quoteIdentifier name = .ok s) : Wording w n hint s
  | tableAlias {s : String} (h : w.spelling.tableAlias = .ok s) : Wording w n hint s
  | literal {value : Literal} {s : String} (h : w.spelling.literal value = .ok s) :
    Wording w n hint s
  | «variable» {name : String} (h : n = .variable name) : Wording w n hint (w.mark ++ name)
  | native {s : String} (h : n = .native s) : Wording w n hint s
  | function {f : ScalarFunction} {t : Template} {arity : Nat} {s : String}
    (ht : w.spelling.functionTemplate f = .ok t) (hs : .text s ∈ t.parts arity) :
    Wording w n hint s
  | operator {op : BinaryOp} {t : Template} {s : String}
    (ht : w.spelling.operatorTemplate op = .ok t) (hs : .text s ∈ t.parts 2) : Wording w n hint s
  | aggregate {kind : AggregateKind} {name : String} (h : w.spelling.aggregate kind = .ok name) :
    Wording w n hint (name ++ "(")
  | cast {type : SqlType} {name : String} (h : w.types.find type = .ok name) :
    Wording w n hint (" AS " ++ name ++ ")")
  | fromless {name : String} (h : w.spelling.fromless = .ok (.table name)) :
    Wording w n hint (" FROM " ++ name)
  | offsetOrdering {s : String} (h : w.spelling.offsetOrdering = .ok s) : Wording w n hint s
  | fillFactor {percent : UInt8} {s : String} (h : w.spelling.fillFactor percent = .ok (some s)) :
    Wording w n hint s
  | lock {l : Lock} {s : String} (h : w.spelling.lock l = .ok (.suffix s)) : Wording w n hint s
  | hint : Wording w n hint (hint.getD "")

/-- A child is written under no hint, that of its node, or that of a lock. -/
inductive HandsDown (w : Script) (hint : Option String) : Option String → Prop
  | none : HandsDown w hint none
  | same : HandsDown w hint hint
  | lock {l : Lock} {s : String} (h : w.spelling.lock l = .ok (.tableHint s)) :
    HandsDown w hint (some s)

/-- The texts and hints of the item are those of a node that is written under the hint. -/
def Offers (w : Script) (n : Node α) (hint : Option String) : Item α → Prop
  | .text s => w.Wording n hint s
  | .part _ h | .variant _ _ _ h | .dynamicFilter _ _ h => w.HandsDown hint h
  | .parameter _ | .placeholder _ => True

/-- What is written under a hint comes to items of the node, or to a failure, however its children
are written, and the links are among those of the items. -/
def Itemizes (w : Script) (n : Node α) (hint : Option String) (links : List α)
    (m : Writer α → Writing Chain) : Prop :=
  ∃ items? : Option (List (Item α)),
    (∀ items ∈ items?, (∀ i ∈ items, i.IsOf n ∧ w.Offers n hint i) ∧
      ∀ a ∈ links, ∃ i ∈ items, a ∈ i.links) ∧
    ∀ k named r, m k named = .ok r ↔ ∃ items ∈ items?, w.writeItems k items named = .ok r

namespace Itemizes

variable {outer : Option String} {links links' : List α}

theorem isItemized (h : Itemizes w n outer links m) : IsItemized w n m := by
  obtain ⟨items?, offered, hm⟩ := h
  exact ⟨items?, fun items mem i hi ↦ ((offered items mem).1 i hi).1, hm⟩

theorem congr (h : Itemizes w n outer links m) (he : ∀ k, m' k = m k) :
    Itemizes w n outer links m' := by
  obtain ⟨items?, offered, hm⟩ := h
  exact ⟨items?, offered, fun k named r ↦ by rw [he]; exact hm k named r⟩

theorem mono (h : Itemizes w n outer links m) (hl : links' ⊆ links) :
    Itemizes w n outer links' m := by
  obtain ⟨items?, offered, hm⟩ := h
  refine ⟨items?, fun items mem ↦ ?_, hm⟩
  exact ⟨(offered items mem).1, fun a ha ↦ (offered items mem).2 a (hl ha)⟩

theorem items (l : List (Item α)) (h : ∀ i ∈ l, i.IsOf n ∧ w.Offers n outer i) :
    Itemizes w n outer (l.flatMap (·.links)) fun k ↦ w.writeItems k l := by
  refine ⟨some l, ?_, by simp⟩
  rintro _ ⟨⟩
  exact ⟨h, fun a ha ↦ List.mem_flatMap.1 ha⟩

theorem throw (e : Error) : Itemizes w n outer links fun _ ↦ throw e :=
  ⟨none, nofun, fun _ _ _ ↦ ⟨nofun, nofun⟩⟩

theorem nil : Itemizes w n outer [] fun _ ↦ pure [] := items [] nofun

theorem text {s : String} (h : w.Wording n outer s) :
    Itemizes w n outer [] fun _ ↦ pure [.text s] :=
  (items [.text s] (by simpa [Item.IsOf, Offers] using h)).congr fun k ↦ by
    simp [writeItems, concat, writeItem]

theorem phrase (s : String) (h : isPhrase s = true) :
    Itemizes w n outer [] fun _ ↦ pure [.text s] := text (.phrase h)

theorem part {a : α} (h : a ∈ n.children) {hint : Option String} (hh : w.HandsDown outer hint) :
    Itemizes w n outer [a] fun k ↦ k a hint :=
  (items [.part a hint] (by simpa [Item.IsOf, Offers] using ⟨h, hh⟩)).congr fun k ↦ by
    simp [writeItems, concat, writeItem]

theorem lift_bind {x : Except Error β} {f : β → Writer α → Writing Chain}
    (h : ∀ b, x = .ok b → Itemizes w n outer links (f b)) :
    Itemizes w n outer links fun k ↦ (liftM x : Writing β) >>= fun b ↦ f b k := by
  cases x with
  | error e => exact ⟨none, nofun, fun _ _ _ ↦ ⟨nofun, nofun⟩⟩
  | ok b => exact (h b rfl).congr fun k ↦ rfl

theorem append (h : Itemizes w n outer links m) (h' : Itemizes w n outer links' m') :
    Itemizes w n outer (links ++ links') fun k ↦ do return (← m k) ++ (← m' k) := by
  obtain ⟨items?, offered, hm⟩ := h
  obtain ⟨items?', offered', hm'⟩ := h'
  refine ⟨do return (← items?) ++ (← items?'), ?_, fun k named r ↦ ?_⟩
  · cases items? with
    | none => exact nofun
    | some xs =>
      cases items?' with
      | none => exact nofun
      | some ys =>
        rintro _ ⟨⟩
        obtain ⟨isOf, all⟩ := offered xs rfl
        obtain ⟨isOf', all'⟩ := offered' ys rfl
        refine ⟨fun i hi ↦ (List.mem_append.1 hi).elim (isOf i) (isOf' i), fun a ha ↦ ?_⟩
        obtain ha | ha := List.mem_append.1 ha
        · obtain ⟨i, hi, mem⟩ := all a ha
          exact ⟨i, List.mem_append_left _ hi, mem⟩
        · obtain ⟨i, hi, mem⟩ := all' a ha
          exact ⟨i, List.mem_append_right _ hi, mem⟩
  · simp only [bind_ok, hm, hm', pure_ok]
    constructor
    · rintro ⟨c, named₁, ⟨xs, hxs, hc⟩, c', named₂, ⟨ys, hys, hc'⟩, rfl⟩
      refine ⟨xs ++ ys, ?_, ?_⟩
      · rw [Option.mem_def.1 hxs, Option.mem_def.1 hys]
        rfl
      · rw [writeItems, List.map_append, concat_append]
        exact bind_ok.2 ⟨c, named₁, hc, bind_ok.2 ⟨c', named₂, hc', rfl⟩⟩
    · rintro ⟨_, hzs, hz⟩
      cases items? with
      | none => cases hzs
      | some xs =>
        cases items?' with
        | none => cases hzs
        | some ys =>
          cases hzs
          rw [writeItems, List.map_append, concat_append] at hz
          obtain ⟨c, named₁, hc, hz⟩ := bind_ok.1 hz
          obtain ⟨c', named₂, hc', hz⟩ := bind_ok.1 hz
          exact ⟨c, named₁, ⟨xs, rfl, hc⟩, c', named₂, ⟨ys, rfl, hc'⟩, pure_ok.1 hz⟩

theorem cons {ms : Writer α → List (Writing Chain)} (h : Itemizes w n outer links m)
    (hs : Itemizes w n outer links' fun k ↦ concat (ms k)) :
    Itemizes w n outer (links ++ links') fun k ↦ concat (m k :: ms k) :=
  (h.append hs).congr fun k ↦ concat_cons (m k) (ms k)

theorem single (h : Itemizes w n outer links m) :
    Itemizes w n outer links fun k ↦ concat [m k] :=
  (h.cons nil).mono (List.subset_append_left links [])

theorem concat {γ : Type} {f : γ → Writer α → Writing Chain} {g : γ → List α} (l : List γ)
    (h : ∀ c ∈ l, Itemizes w n outer (g c) (f c)) :
    Itemizes w n outer (l.flatMap g) fun k ↦ concat (l.map fun c ↦ f c k) := by
  induction l with
  | nil => exact nil
  | cons c l ih =>
    rw [List.forall_mem_cons] at h
    exact h.1.cons (ih h.2)

end Itemizes

end Script
end SqlWright
