import SqlWright.Proofs.Command.NormalChains
import SqlWright.Proofs.Lexing.Chains

/-!
# Frozen commands

A command is frozen exactly if its chain is made of texts only, and every execution gives a frozen
command the same text. The chains inside the chain of a statement's command, which are the branches
of variants and the expressions of filters, are normal however deep they stand.
-/

namespace SqlWright

variable {α β γ : Type}

/-! ### Chains inside chains -/

/-- The chain is a branch of a variant or an expression of a filter. -/
inductive Piece.Holds : Piece → Chain → Prop
  | main {key : VariantKey} {main alternative : Chain} :
    Holds (.variant key main alternative) main
  | alternative {key : VariantKey} {main alternative : Chain} :
    Holds (.variant key main alternative) alternative
  | expression {id : String} {expressions : List Chain} {e : Chain} (h : e ∈ expressions) :
    Holds (.dynamicFilter id expressions) e

theorem Piece.Holds.isText {p : Piece} {c : Chain} (h : p.Holds c) : p.isText = false := by
  cases h <;> rfl

namespace Chain

variable {c d e : Chain} {p : Piece}

/-- The second chain stands inside the first, at any depth. -/
def Nests : Chain → Chain → Prop := Relation.TransGen fun c d ↦ ∃ p ∈ c, p.Holds d

/-- All chains inside the chain are normal. -/
def IsNormalWithin (c : Chain) : Prop := ∀ d, c.Nests d → d.IsNormal

theorem nests_iff : c.Nests e ↔ ∃ p ∈ c, ∃ d, p.Holds d ∧ (d = e ∨ d.Nests e) := by
  rw [Nests, Relation.TransGen.head'_iff]
  constructor
  · rintro ⟨d, ⟨p, hp, holds⟩, path⟩
    exact ⟨p, hp, d, holds, (Relation.reflTransGen_iff_eq_or_transGen.1 path).imp_left Eq.symm⟩
  · rintro ⟨p, hp, d, holds, path⟩
    exact ⟨d, ⟨p, hp, holds⟩, Relation.reflTransGen_iff_eq_or_transGen.2 (path.imp_left Eq.symm)⟩

/-- The chains inside are normal, and so are those inside them. -/
theorem isNormalWithin_iff :
    c.IsNormalWithin ↔ ∀ p ∈ c, ∀ d, p.Holds d → d.IsNormal ∧ d.IsNormalWithin := by
  constructor
  · intro h p hp d holds
    exact ⟨h d (nests_iff.2 ⟨p, hp, d, holds, .inl rfl⟩),
      fun e inner ↦ h e (nests_iff.2 ⟨p, hp, d, holds, .inr inner⟩)⟩
  · intro h e nested
    obtain ⟨p, hp, d, holds, rfl | inner⟩ := nests_iff.1 nested
    · exact (h p hp d holds).1
    · exact (h p hp d holds).2 e inner

theorem IsNormalWithin.append (hc : c.IsNormalWithin) (hd : d.IsNormalWithin) :
    IsNormalWithin (c ++ d) := by
  rw [isNormalWithin_iff] at hc hd ⊢
  exact List.forall_mem_append.2 ⟨hc, hd⟩

/-- Putting texts together leaves the chains inside as they are. -/
theorem IsNormalWithin.normalized (h : c.IsNormalWithin) : IsNormalWithin c.normalized := by
  rw [isNormalWithin_iff] at h ⊢
  exact fun p hp d holds ↦ h p ((mem_normalized holds.isText).1 hp) d holds

theorem isNormalWithin_nil : IsNormalWithin [] := isNormalWithin_iff.2 nofun

theorem isNormalWithin_text (s : String) : IsNormalWithin [.text s] :=
  isNormalWithin_iff.2 (by simpa using fun _ holds ↦ nomatch holds)

theorem isNormalWithin_placeholder (id : Placeholder) : IsNormalWithin [.placeholder id] :=
  isNormalWithin_iff.2 (by simpa using fun _ holds ↦ nomatch holds)

theorem isNormalWithin_variant (key : VariantKey) (hc : c.IsNormalWithin) (hd : d.IsNormalWithin) :
    IsNormalWithin [.variant key c.normalized d.normalized] := by
  rw [isNormalWithin_iff, List.forall_mem_singleton]
  rintro _ (_ | _)
  · exact ⟨isNormal_normalized c, hc.normalized⟩
  · exact ⟨isNormal_normalized d, hd.normalized⟩

theorem isNormalWithin_dynamicFilter (id : String) {expressions : List Chain}
    (h : ∀ e ∈ expressions, e.IsNormal ∧ e.IsNormalWithin) :
    IsNormalWithin [.dynamicFilter id expressions] := by
  rw [isNormalWithin_iff, List.forall_mem_singleton]
  rintro e (_ | _ | ⟨mem⟩)
  exact h e mem

end Chain

/-! ### Writing -/

/-- Whatever is written has a property. -/
def Writing.Ensures (m : Writing β) (P : β → Prop) : Prop :=
  ∀ named c named', m named = .ok (c, named') → P c

namespace Writing.Ensures

variable {P : β → Prop} {Q : γ → Prop}

theorem pure {c : β} (h : P c) : Ensures (pure c) P := by
  rintro named _ _ ⟨⟩
  exact h

theorem bind {m : Writing β} {f : β → Writing γ} (hm : m.Ensures P) (hf : ∀ c, P c → (f c).Ensures Q) :
    Ensures (m >>= f) Q := by
  intro named c named' run
  obtain ⟨c₁, named₁, first, rest⟩ := Writing.bind_ok.1 run
  exact hf c₁ (hm _ _ _ first) _ _ _ rest

theorem mapM {f : α → Writing β} {l : List α} (h : ∀ a ∈ l, (f a).Ensures P) :
    (l.mapM f).Ensures fun cs ↦ ∀ c ∈ cs, P c := by
  induction l with
  | nil => exact pure nofun
  | cons a l ih =>
    rw [List.mapM_cons]
    rw [List.forall_mem_cons] at h
    exact h.1.bind fun c hc ↦ (ih h.2).bind fun cs hcs ↦ pure (List.forall_mem_cons.2 ⟨hc, hcs⟩)

open Chain

theorem parameter (w : Script) (p : Parameter) : (w.parameter p).Ensures IsNormalWithin := by
  intro named c named' run
  unfold Script.parameter at run
  split at run <;> cases run <;> exact isNormalWithin_text _

theorem writeItem {w : Script} {n : Node α} {k : Writer α}
    (h : ∀ a ∈ n.children, ∀ hint, (k a hint).Ensures IsNormalWithin) {i : Item α} (hi : i.IsOf n) :
    (w.writeItem k i).Ensures IsNormalWithin := by
  cases i with
  | text s => exact pure (isNormalWithin_text s)
  | part a hint => exact h a hi hint
  | parameter p => exact parameter w p
  | placeholder id => exact pure (isNormalWithin_placeholder id)
  | variant key main alternative hint =>
    cases hi
    exact (h main (by simp [Node.children]) hint).bind fun _ hc ↦
      (h alternative (by simp [Node.children]) hint).bind fun _ hd ↦
        pure (isNormalWithin_variant key hc hd)
  | dynamicFilter id expressions hint =>
    obtain ⟨first, others, rfl, rfl⟩ := hi
    have expressions := mapM (P := fun e : Chain ↦ e.IsNormal ∧ e.IsNormalWithin) fun a ha ↦
      (h a ha hint).bind fun c hc ↦ pure ⟨isNormal_normalized c, hc.normalized⟩
    exact expressions.bind fun es hes ↦ pure (isNormalWithin_dynamicFilter id hes)

theorem writeItems {w : Script} {n : Node α} {k : Writer α}
    (h : ∀ a ∈ n.children, ∀ hint, (k a hint).Ensures IsNormalWithin) {items : List (Item α)}
    (hi : ∀ i ∈ items, i.IsOf n) : (w.writeItems k items).Ensures IsNormalWithin := by
  induction items with
  | nil => exact pure isNormalWithin_nil
  | cons i items ih =>
    rw [List.forall_mem_cons] at hi
    simp only [Script.writeItems, List.map_cons, Writing.concat_cons]
    exact (writeItem h hi.1).bind fun _ hc ↦ (ih hi.2).bind fun _ hd ↦ pure (hc.append hd)

end Writing.Ensures

/-- The chains inside a written chain are normal. -/
theorem Script.isNormalWithin_tree (w : Script) (t : Tree) (hint : Option String) :
    (w.tree t hint).Ensures Chain.IsNormalWithin := by
  induction t using Tree.induction_children generalizing hint with
  | h i n ih =>
    intro named c named' run
    obtain ⟨items?, isOf, itemized⟩ := Script.itemized_node (w := w) (n := n) id hint
    rw [Script.tree_mk] at run
    obtain ⟨items, mem, run⟩ := (itemized _ _ _).1 run
    exact Writing.Ensures.writeItems ih (isOf items mem) _ _ _ run

/-! ### Frozen commands -/

namespace Chain

variable {c : Chain}

/-- The normal form of a chain has texts only if the chain has. -/
theorem forall_isText_normalized : (∀ p ∈ c.normalized, p.isText) ↔ ∀ p ∈ c, p.isText := by
  have transfer {c d : Chain} (h : ∀ p : Piece, p.isText = false → p ∈ d → p ∈ c)
      (texts : ∀ p ∈ c, p.isText) (p : Piece) (hp : p ∈ d) : p.isText := by
    by_contra other
    rw [Bool.not_eq_true] at other
    simp [texts p (h p other hp)] at other
  exact ⟨transfer fun p hp ↦ (mem_normalized hp).2, transfer fun p hp ↦ (mem_normalized hp).1⟩

/-- A normal chain of texts is that of a single text. -/
theorem IsNormal.exists_eq_ofText (h : c.IsNormal) (texts : ∀ p ∈ c, p.isText) :
    ∃ s, c = ofText s := by
  match c, h, texts with
  | [], _, _ => exact ⟨"", rfl⟩
  | [p], h, texts =>
    cases p with
    | text s =>
      have written : s ≠ "" := fun empty ↦ h.nonempty (by simp [empty])
      exact ⟨s, (if_neg written).symm⟩
    | _ => cases texts _ List.mem_cons_self
  | p :: q :: rest, h, texts =>
    have apart := (List.isChain_cons_cons.1 h.apart).1
    exact (apart ⟨texts p (by simp), texts q (by simp)⟩).elim

end Chain

namespace Command

theorem isFrozen_iff {c : Command} : c.isFrozen ↔ c.chain = [] ∨ ∃ s, c.chain = [.text s] := by
  rw [isFrozen, frozen?]
  split
  next h => simp [h]
  next s h => simp [h]
  next empty single => simpa using ⟨empty, single⟩

/-- A command is frozen exactly if it is made of texts only. -/
theorem isFrozen_ofChain {chain : Chain} {parameters : List (Parameter × String)} :
    (ofChain chain parameters).isFrozen ↔ ∀ p ∈ chain, p.isText := by
  rw [isFrozen_iff, ← Chain.forall_isText_normalized]
  change chain.normalized = [] ∨ (∃ s, chain.normalized = [.text s]) ↔ _
  constructor
  · rintro (h | ⟨s, h⟩) <;> simp [h, Piece.isText]
  · intro texts
    obtain ⟨s, h⟩ := (Chain.isNormal_normalized chain).exists_eq_ofText texts
    rw [h, Chain.ofText]
    split
    · exact .inl rfl
    · exact .inr ⟨s, rfl⟩

theorem text_of_frozen? {c : Command} {s : String} (h : c.frozen? = some s) (b : Bindings) :
    c.text b = .ok s := by
  rw [text, h]

/-- A frozen command has one text, which is what rendering its chain gives, whatever is bound. -/
theorem exists_text_of_isFrozen {c : Command} (h : c.isFrozen) :
    ∃ s, ∀ (b : Bindings) (defaults : List (Placeholder × String)),
      ({ c with defaults } : Command).text b = .ok s ∧
        Settled.renderChain ⟨b, defaults⟩ c.chain = .ok s := by
  obtain ⟨s, hs⟩ := Option.isSome_iff_exists.1 h
  refine ⟨s, fun b defaults ↦ ?_⟩
  have frozen : ({ c with defaults } : Command).text b = .ok s :=
    text_of_frozen? (c := { c with defaults }) hs b
  exact ⟨frozen, (text_eq _ b).symm.trans frozen⟩

/-- A command keeps what stands in the chain that it is made of, in order and normally: pushing the
pieces one by one comes to its chain. It is frozen exactly if it is made of texts only, and then it
has one text whatever is bound. All chains inside the command of a statement are normal too. -/
theorem ofChain_isNormal :
    (∀ (chain : Chain) (parameters : List (Parameter × String)),
      (ofChain chain parameters).chain = Chain.append [] chain ∧
        (ofChain chain parameters).chain.IsNormal ∧
        (ofChain chain parameters).chain.symbols = chain.symbols ∧
        (ofChain chain parameters).parameters = parameters ∧
        ((ofChain chain parameters).isFrozen ↔ ∀ p ∈ chain, p.isText)) ∧
      (∀ c : Command, c.isFrozen → ∃ s, ∀ (b : Bindings) (defaults : List (Placeholder × String)),
        ({ c with defaults } : Command).text b = .ok s ∧
          Settled.renderChain ⟨b, defaults⟩ c.chain = .ok s) ∧
      ∀ (t : Tree) (spelling : Spelling) (types : TypeNames) (c : Command),
        t.command spelling types = .ok c →
          c.chain.IsNormal ∧ ∀ d, c.chain.Nests d → d.IsNormal := by
  refine ⟨fun chain parameters ↦ ?_, fun c ↦ exists_text_of_isFrozen, fun t spelling types c h ↦ ?_⟩
  · exact ⟨Chain.normalized_eq_append chain, Chain.isNormal_normalized chain,
      Chain.symbols_normalized chain, rfl, isFrozen_ofChain⟩
  · obtain ⟨mark, chain, named, -, run, rfl⟩ := Tree.command_ok.1 h
    have within := Script.isNormalWithin_tree ⟨spelling, types, mark⟩ t none [] chain named run
    exact ⟨Chain.isNormal_normalized chain, within.normalized⟩

/-- Filter by a filter, which is one branch of a variant, and by a column. -/
def nestedFilter : Tree :=
  let column : Tree := .mk 1 (.column none "a")
  let inner : Tree := .mk 3 (.dynamicFilter "inner" (.mk 2 (.binary .plus column column)) [])
  .mk 6 (.unary .negation
    (.mk 5 (.dynamicFilter "outer" (.mk 4 (.variant (.named "once") inner column)) [column])))

/-- Chain of the filter that stands in the variant. -/
def innerFilter : Chain := [.dynamicFilter "inner" [[.text "\"a\" + \"a\""]]]

/-- Command of the filter. -/
def nestedFilterCommand : Command where
  chain := [.text "NOT (", .dynamicFilter "outer"
    [[.variant (.named "once") innerFilter [.text "\"a\""]], [.text "\"a\""]], .text ")"]
  parameters := []

/-- The operands of the sum and its operator are one text, three chains deep. Texts and an empty
text come to a frozen command. -/
theorem ofChain_isNormal_of_nestedFilter :
    nestedFilter.command (Dialect.postgreSql.spelling ⟨9, 0⟩)
        (Dialect.postgreSql.typeNames ⟨9, 0⟩) = .ok nestedFilterCommand ∧
      nestedFilterCommand.chain.Nests [.text "\"a\" + \"a\""] ∧
      Chain.IsNormal [.text "\"a\" + \"a\""] ∧
      (ofChain [.text "SELECT ", .text "", .text "1"] []).isFrozen ∧
      ∃ s, ∀ b, (ofChain [.text "SELECT ", .text "", .text "1"] []).text b = .ok s := by
  obtain ⟨kept, frozen, nested⟩ := ofChain_isNormal
  have written : nestedFilter.command (Dialect.postgreSql.spelling ⟨9, 0⟩)
      (Dialect.postgreSql.typeNames ⟨9, 0⟩) = .ok nestedFilterCommand := rfl
  have outer : nestedFilterCommand.chain.Nests [.variant (.named "once") innerFilter [.text "\"a\""]] :=
    .single ⟨_, List.mem_cons_of_mem _ List.mem_cons_self, .expression List.mem_cons_self⟩
  have branch : nestedFilterCommand.chain.Nests innerFilter :=
    .tail outer ⟨_, List.mem_singleton_self _, .main⟩
  have sum : nestedFilterCommand.chain.Nests [.text "\"a\" + \"a\""] :=
    .tail branch ⟨_, List.mem_singleton_self _, .expression (List.mem_singleton_self _)⟩
  have texts := (kept [.text "SELECT ", .text "", .text "1"] []).2.2.2.2.2
    (by simp [Piece.isText])
  obtain ⟨s, hs⟩ := frozen _ texts
  exact ⟨written, sum, (nested _ _ _ _ written).2 _ sum, texts, s, fun b ↦ (hs b []).1⟩

end Command

end SqlWright
