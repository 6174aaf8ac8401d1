import SqlWright.Proofs.Command.Rewriting
import SqlWright.Spelling.OfDialect

/-!
# Statements as an execution settles them

A command leaves its variants and placeholders to the execution. The same text comes of the
statement in which they are settled before it is written, as long as the branches that are taken
need the parentheses that the variants themselves are given: a variant is never put in
parentheses, while a binary expression may be.
-/

namespace SqlWright

variable {α : Type}

/-! ### Texts of chains -/

namespace Settled

variable {s : Settled}

theorem append_ok {x y : Except Error String} {t : String} :
    (do return (← x) ++ (← y)) = Except.ok t ↔ ∃ u v, x = .ok u ∧ y = .ok v ∧ t = u ++ v := by
  cases x with
  | error e => exact ⟨nofun, nofun⟩
  | ok u =>
    cases y with
    | error e => exact ⟨nofun, nofun⟩
    | ok v =>
      constructor
      · rintro ⟨⟩
        exact ⟨u, v, rfl, rfl, rfl⟩
      · rintro ⟨_, _, ⟨⟩, ⟨⟩, rfl⟩
        rfl

theorem renderChain_cons_ok {p : Piece} {c : Chain} {t : String} :
    s.renderChain (p :: c) = .ok t ↔
      ∃ x y, s.renderPiece p = .ok x ∧ s.renderChain c = .ok y ∧ t = x ++ y := by
  rw [renderChain]
  exact append_ok

theorem renderChain_single {p : Piece} {t : String} (h : s.renderPiece p = .ok t) :
    s.renderChain [p] = .ok t :=
  renderChain_cons_ok.2 ⟨t, "", h, rfl, by simp⟩

theorem renderChain_append_eq (c d : Chain) : s.renderChain (c ++ d) =
    (do return (← s.renderChain c) ++ (← s.renderChain d)) := by
  induction c with
  | nil =>
    rw [List.nil_append, renderChain]
    cases s.renderChain d with
    | error e => rfl
    | ok t => exact congrArg Except.ok String.empty_append.symm
  | cons p c ih =>
    rw [List.cons_append, renderChain, ih, renderChain]
    cases s.renderPiece p with
    | error e => rfl
    | ok x =>
      cases s.renderChain c with
      | error e => rfl
      | ok y =>
        cases s.renderChain d with
        | error e => rfl
        | ok z => exact congrArg Except.ok String.append_assoc.symm

theorem renderChain_append_ok {c d : Chain} {t : String} :
    s.renderChain (c ++ d) = .ok t ↔
      ∃ x y, s.renderChain c = .ok x ∧ s.renderChain d = .ok y ∧ t = x ++ y := by
  rw [renderChain_append_eq]
  exact append_ok

theorem renderChain_append {c d : Chain} {x y : String} (hc : s.renderChain c = .ok x)
    (hd : s.renderChain d = .ok y) : s.renderChain (c ++ d) = .ok (x ++ y) :=
  renderChain_append_ok.2 ⟨x, y, hc, hd, rfl⟩

theorem renderChain_ofText (t : String) : s.renderChain (Chain.ofText t) = .ok t := by
  unfold Chain.ofText
  split
  next h => exact h ▸ rfl
  next => exact renderChain_single rfl

theorem renderChain_ofText_append (t : String) (c : Chain) :
    s.renderChain (Chain.ofText t ++ c) = (do return t ++ (← s.renderChain c)) := by
  rw [renderChain_append_eq, renderChain_ofText]
  rfl

theorem renderChain_normalizedAfter_eq (c : Chain) (pending : String) :
    s.renderChain (Chain.normalizedAfter pending c) = (do return pending ++ (← s.renderChain c)) := by
  induction c generalizing pending with
  | nil =>
    rw [Chain.normalizedAfter, renderChain_ofText]
    exact congrArg Except.ok String.append_empty.symm
  | cons p c ih =>
    have settled : s.renderChain (Chain.ofText pending ++ p :: Chain.normalizedAfter "" c) =
        (do return pending ++ (← s.renderChain (p :: c))) := by
      rw [renderChain_ofText_append, renderChain, renderChain, ih]
      cases s.renderPiece p with
      | error e => rfl
      | ok x =>
        cases s.renderChain c with
        | error e => rfl
        | ok y => exact congrArg (fun t ↦ Except.ok (pending ++ (x ++ t))) String.empty_append
    cases p with
    | text t =>
      rw [Chain.normalizedAfter, ih, renderChain]
      cases s.renderChain c with
      | error e => rfl
      | ok y => exact congrArg Except.ok String.append_assoc
    | placeholder id => exact settled
    | variant key main alternative => exact settled
    | dynamicFilter id expressions => exact settled

/-- Putting texts together keeps what comes of a chain. -/
theorem renderChain_normalized_eq (c : Chain) :
    s.renderChain (Chain.normalized c) = s.renderChain c := by
  rw [Chain.normalized, renderChain_normalizedAfter_eq]
  cases s.renderChain c with
  | error e => rfl
  | ok t => exact congrArg Except.ok String.empty_append

theorem renderChain_normalized {c : Chain} {t : String} (h : s.renderChain c = .ok t) :
    s.renderChain c.normalized = .ok t :=
  (renderChain_normalized_eq c).trans h

end Settled

/-- The text of a command is that of its chain, frozen or not. -/
theorem Command.text_eq (c : Command) (b : Bindings) :
    c.text b = Settled.renderChain ⟨b, c.defaults⟩ c.chain := by
  rw [text, frozen?]
  split
  next h =>
    split at h
    next hc =>
      cases h
      rw [hc]
      rfl
    next s hc =>
      cases h
      rw [hc, Settled.renderChain_single rfl]
    next => cases h
  next => rfl

theorem Command.text_ofChain {chain : Chain} {b : Bindings} {t : String}
    (h : Settled.renderChain ⟨b, []⟩ chain = .ok t) (parameters : List (Parameter × String)) :
    (ofChain chain parameters).text b = .ok t :=
  (text_eq _ b).trans (Settled.renderChain_normalized h)

/-! ### Settled statements -/

/-- Text that an execution gives a placeholder, if it gives one. -/
def Bindings.textOf (b : Bindings) (id : Placeholder) : String :=
  (Settled.placeholder ⟨b, []⟩ id).toOption.getD ""

/-- The execution settles the node: it names no parameter, filters by no rows, and a placeholder
has a text. -/
def Node.IsSettledBy (b : Bindings) : Node α → Prop
  | .parameter _ | .dynamicFilter _ _ _ => False
  | .placeholder id => ∃ s, Settled.placeholder ⟨b, []⟩ id = .ok s
  | _ => True

namespace Tree

/-- Statement with the branches that an execution takes for its variants, and with the texts for
its placeholders. -/
def settled (b : Bindings) : Tree → Tree :=
  rewritten fun
    | .variant key main alternative => if b.isAlternative key then alternative else main
    | .placeholder id => mk 0 (.native (b.textOf id))
    | n => mk 0 n

/-- The execution settles every node. -/
inductive IsSettledBy (b : Bindings) : Tree → Prop where
  | mk {i : Nat} {n : Node Tree} (root : n.IsSettledBy b)
      (below : ∀ c ∈ n.children, c.IsSettledBy b) : IsSettledBy b (.mk i n)

/-- Outside the branches that are not taken, every node puts the same of its children in
parentheses before and after they are settled. -/
def GroupsAsSettled (spelling : Spelling) (b : Bindings) (t : Tree) : Prop :=
  t.fold fun
    | .variant key main alternative => if b.isAlternative key then alternative.2 else main.2
    | n => (n.map (·.1)).GroupsAlike spelling (fun t ↦ t) (settled b) ∧ ∀ c ∈ n.children, c.2

variable {b : Bindings} {spelling : Spelling} {i : Nat} {n : Node Tree}

theorem isSettledBy_mk :
    (mk i n).IsSettledBy b ↔ n.IsSettledBy b ∧ ∀ c ∈ n.children, c.IsSettledBy b :=
  ⟨fun ⟨root, below⟩ ↦ ⟨root, below⟩, fun h ↦ .mk h.1 h.2⟩

theorem settled_variant (key : VariantKey) (main alternative : Tree) :
    (mk i (.variant key main alternative)).settled b =
      if b.isAlternative key then alternative.settled b else main.settled b :=
  rewritten_mk _ i _

theorem settled_placeholder (id : Placeholder) :
    (mk i (.placeholder id)).settled b = mk 0 (.native (b.textOf id)) :=
  rewritten_mk _ i _

theorem settled_of_ne (hv : ∀ key main alternative, n ≠ .variant key main alternative)
    (hq : ∀ id, n ≠ .placeholder id) : (mk i n).settled b = mk 0 (n.map (settled b)) := by
  rw [settled, rewritten_mk]
  cases n with
  | variant key main alternative => exact (hv key main alternative rfl).elim
  | placeholder id => exact (hq id rfl).elim
  | _ => rfl

theorem groupsAsSettled_variant {key : VariantKey} {main alternative : Tree} :
    (mk i (.variant key main alternative)).GroupsAsSettled spelling b ↔
      if b.isAlternative key then alternative.GroupsAsSettled spelling b
      else main.GroupsAsSettled spelling b := by
  rw [GroupsAsSettled, fold_mk]
  exact Iff.rfl

theorem groupsAsSettled_of_ne (hv : ∀ key main alternative, n ≠ .variant key main alternative) :
    (mk i n).GroupsAsSettled spelling b ↔
      n.GroupsAlike spelling (fun t ↦ t) (settled b) ∧
        ∀ c ∈ n.children, c.GroupsAsSettled spelling b := by
  have all : (∀ c ∈ (n.map fun t ↦ (t, GroupsAsSettled spelling b t)).children, c.2) ↔
      ∀ c ∈ n.children, c.GroupsAsSettled spelling b := by
    rw [Node.children_map, List.forall_mem_map]
  have root : (n.map fun t ↦ (t, GroupsAsSettled spelling b t)).map (·.1) = n := by
    rw [Node.map_map]
    exact n.map_id
  have alike : (_ : Prop) ↔ _ := iff_of_eq
    (congrArg (Node.GroupsAlike spelling (fun t ↦ t) (settled b)) root)
  rw [GroupsAsSettled, fold_mk]
  cases n with
  | variant key main alternative => exact (hv key main alternative rfl).elim
  | _ => exact and_congr alike all

end Tree

/-! ### Writing what is settled -/

/-- If both can be written, the settled writing comes to the text that the execution gives the
other, and is the same in every execution. -/
def Writing.Settles (b : Bindings) (x y : Writing Chain) : Prop :=
  ∀ l r l' r', x l = .ok r → y l' = .ok r' →
    ∃ t, Settled.renderChain ⟨b, []⟩ r.1 = .ok t ∧ ∀ s, Settled.renderChain s r'.1 = .ok t

namespace Script

variable {w : Script} {b : Bindings} {n : Node α} {k k' : Writer α}

theorem settles_item (h : ∀ a ∈ n.children, ∀ hint, Writing.Settles b (k a hint) (k' a hint))
    (hn : n.kind ≠ .parameter ∧ n.kind ≠ .placeholder ∧ n.kind ≠ .variant ∧
      n.kind ≠ .dynamicFilter) {i : Item α} (hi : i.IsOf n) :
    Writing.Settles b (w.writeItem k i) (w.writeItem k' i) := by
  cases i with
  | text s =>
    rintro l _ l' _ ⟨⟩ ⟨⟩
    exact ⟨s, Settled.renderChain_single rfl, fun _ ↦ Settled.renderChain_single rfl⟩
  | part a hint => exact h a hi hint
  | parameter p => exact (hn.1 (hi ▸ rfl)).elim
  | placeholder id => exact (hn.2.1 (hi ▸ rfl)).elim
  | variant key main alternative hint => exact (hn.2.2.1 (hi ▸ rfl)).elim
  | dynamicFilter id expressions hint =>
    obtain ⟨first, others, rfl, -⟩ := hi
    exact (hn.2.2.2 rfl).elim

theorem settles_items (h : ∀ a ∈ n.children, ∀ hint, Writing.Settles b (k a hint) (k' a hint))
    (hn : n.kind ≠ .parameter ∧ n.kind ≠ .placeholder ∧ n.kind ≠ .variant ∧
      n.kind ≠ .dynamicFilter) {items : List (Item α)} (hi : ∀ i ∈ items, i.IsOf n) :
    Writing.Settles b (w.writeItems k items) (w.writeItems k' items) := by
  induction items with
  | nil =>
    rintro l _ l' _ ⟨⟩ ⟨⟩
    exact ⟨"", rfl, fun _ ↦ rfl⟩
  | cons i items ih =>
    rw [List.forall_mem_cons] at hi
    intro l r l' r' run run'
    obtain ⟨c, l₁, d, hc, hd, hr⟩ := Writing.concat_ok.1 run
    obtain ⟨c', l₁', d', hc', hd', hr'⟩ := Writing.concat_ok.1 run'
    obtain ⟨t, ht, settled⟩ := settles_item h hn hi.1 _ _ _ _ hc hc'
    obtain ⟨t', ht', settled'⟩ := ih hi.2 _ _ _ _ hd hd'
    refine ⟨t ++ t', ?_, fun s ↦ ?_⟩
    · rw [hr]
      exact Settled.renderChain_append ht ht'
    · rw [hr']
      exact Settled.renderChain_append (settled s) (settled' s)

/-- A select that can be written has its lock, if it has one. -/
theorem lock?_of_select {s : Select Part} {hint : Option String} {l : List Parameter}
    {r : Chain × List Parameter} (h : w.select s hint l = .ok r) :
    ∃ lock, w.lock? s = .ok lock := by
  rw [select_eq] at h
  obtain ⟨_, _, -, h⟩ := Writing.bind_ok.1 h
  obtain ⟨lock, _, hl, -⟩ := Writing.bind_ok.1 h
  exact ⟨lock, (Writing.lift_ok.1 hl).1⟩

theorem lock?_ok {s : Select Part} {lock : Option LockClause} (h : w.lock? s = .ok lock) :
    s.lock.mapM w.spelling.lock = .ok lock := by
  unfold lock? at h
  cases hl : s.lock with
  | none =>
    rw [hl] at h
    exact h
  | some l =>
    rw [hl] at h
    cases hc : w.spelling.lock l with
    | error e =>
      simp only [hc] at h
      cases h
    | ok clause =>
      have given : (some l).mapM w.spelling.lock = .ok (some clause) :=
        congrArg (some <$> ·) hc
      rw [given]
      simp only [hc] at h
      cases clause with
      | tableHint text => exact h
      | suffix text =>
        change (if _ then _ else _) = _ at h
        split at h
        · exact h
        · cases h

/-- A select without a lock has no clause for it, and one with a lock that of the spelling. -/
theorem lock?_cases {s : Select Part} {lock : Option LockClause} (h : w.lock? s = .ok lock) :
    (s.lock = none ∧ lock = none) ∨
      ∃ m clause, s.lock = some m ∧ w.spelling.lock m = .ok clause ∧ lock = some clause := by
  have spelled := lock?_ok h
  cases hs : s.lock with
  | none =>
    rw [hs] at spelled
    cases spelled
    exact .inl ⟨rfl, rfl⟩
  | some m =>
    rw [hs] at spelled
    change some <$> w.spelling.lock m = .ok lock at spelled
    cases hm : w.spelling.lock m with
    | error e =>
      rw [hm] at spelled
      cases spelled
    | ok clause =>
      rw [hm] at spelled
      cases spelled
      exact .inr ⟨m, clause, rfl, hm, rfl⟩

/-- What the children look like decides whether a select has its lock, not which. -/
theorem lock?_settled {s : Select α} {u v : α → Tree} {hint : Option String}
    {l l' : List Parameter} {r r' : Chain × List Parameter}
    (h : w.select (s.map (partOf u k)) hint l = .ok r)
    (h' : w.select (s.map (partOf v k')) hint l' = .ok r') :
    w.lock? (s.map (partOf u k')) = w.lock? (s.map (partOf v k')) := by
  obtain ⟨lock, hl⟩ := lock?_of_select h
  obtain ⟨lock', hl'⟩ := lock?_of_select h'
  rw [lock?_congr k' k rfl, hl, hl']
  have before : s.lock.mapM w.spelling.lock = .ok lock := lock?_ok hl
  have after : s.lock.mapM w.spelling.lock = .ok lock' := lock?_ok hl'
  exact before.symm.trans after

theorem settles_tree {t : Tree} (ht : t.IsSettledBy b) (hg : t.GroupsAsSettled w.spelling b)
    (hint : Option String) : Writing.Settles b (w.tree t hint) (w.tree (t.settled b) hint) := by
  induction ht generalizing hint with
  | @mk i n root below ih =>
    have other (hn : n.kind ≠ .parameter ∧ n.kind ≠ .placeholder ∧ n.kind ≠ .variant ∧
        n.kind ≠ .dynamicFilter) :
        Writing.Settles b (w.tree (.mk i n) hint) (w.tree ((Tree.mk i n).settled b) hint) := by
      have hv : ∀ key main alternative, n ≠ .variant key main alternative := by
        rintro _ _ _ rfl
        exact hn.2.2.1 rfl
      have hq : ∀ id, n ≠ .placeholder id := by
        rintro _ rfl
        exact hn.2.1 rfl
      obtain ⟨alike, children⟩ := (Tree.groupsAsSettled_of_ne hv).1 hg
      let k' : Writer Tree := fun t ↦ w.tree (t.settled b)
      obtain ⟨items?, isOf, itemized⟩ := itemized_node (w := w) (n := n) (fun t ↦ t) hint
      intro l r l' r' run run'
      rw [tree_mk] at run
      rw [Tree.settled_of_ne hv hq, tree_mk_map] at run'
      have same : w.node (n.map (partOf (fun t ↦ t) k')) hint =
          w.node (n.map (partOf (Tree.settled b) k')) hint := by
        refine node_congr alike ?_ hint
        rintro s rfl
        exact lock?_settled run run'
      rw [← same] at run'
      obtain ⟨items, mem, run⟩ := (itemized _ _ _).1 run
      obtain ⟨items', mem', run'⟩ := (itemized _ _ _).1 run'
      cases Option.mem_unique mem mem'
      exact settles_items (fun c hc hint ↦ ih c hc (children c hc) hint) hn (isOf items mem)
        l r l' r' run run'
    cases n with
    | parameter | dynamicFilter => exact root.elim
    | placeholder id =>
      obtain ⟨t, ht⟩ := root
      have text : b.textOf id = t := by rw [Bindings.textOf, ht]; rfl
      rw [Tree.settled_placeholder, text]
      rintro l _ l' _ ⟨⟩ ⟨⟩
      exact ⟨t, Settled.renderChain_single ht, fun _ ↦ Settled.renderChain_single rfl⟩
    | variant key main alternative =>
      intro l r l' r' run run'
      rw [tree_mk] at run
      obtain ⟨c, l₁, hmain, run⟩ := Writing.bind_ok.1 run
      obtain ⟨d, l₂, halternative, ⟨⟩⟩ := Writing.bind_ok.1 run
      rw [Tree.groupsAsSettled_variant] at hg
      rw [Tree.settled_variant] at run'
      by_cases chosen : b.isAlternative key
      · rw [if_pos chosen] at hg run'
        obtain ⟨t, ht, settled⟩ := ih alternative (by simp [Node.children]) hg hint _ _ _ _
          halternative run'
        refine ⟨t, Settled.renderChain_single ?_, settled⟩
        simp only [Settled.renderPiece, if_pos chosen]
        exact Settled.renderChain_normalized ht
      · rw [if_neg chosen] at hg run'
        obtain ⟨t, ht, settled⟩ := ih main (by simp [Node.children]) hg hint _ _ _ _ hmain run'
        refine ⟨t, Settled.renderChain_single ?_, settled⟩
        simp only [Settled.renderPiece, if_neg chosen]
        exact Settled.renderChain_normalized ht
    | _ => exact other (by simp [Node.kind])

end Script

namespace Tree

variable {t : Tree} {b : Bindings} {spelling : Spelling} {types : TypeNames} {c d : Command}

/-- A command has the text of the settled statement, if that can be written too: settling the
variants and placeholders before or after writing is the same where the branches taken are put
in parentheses as the variants are. -/
theorem text_settled (settled : t.IsSettledBy b) (alike : t.GroupsAsSettled spelling b)
    (h : t.command spelling types = .ok c) (h' : (t.settled b).command spelling types = .ok d) :
    ∃ s, c.text b = .ok s ∧ ∀ b', d.text b' = .ok s := by
  obtain ⟨mark, chain, _, hm, run, rfl⟩ := command_ok.1 h
  obtain ⟨_, chain', _, hm', run', rfl⟩ := command_ok.1 h'
  cases hm.symm.trans hm'
  obtain ⟨s, hs, fixed⟩ := Script.settles_tree (w := ⟨spelling, types, mark⟩) settled alike none
    _ _ _ _ run run'
  exact ⟨s, Command.text_ofChain hs _, fun b' ↦ Command.text_ofChain (fixed ⟨b', []⟩) _⟩

/-- Sum of a placeholder, or of no value, and a column. -/
def placeholderSum : Tree :=
  mk 0 (.binary .plus
    (mk 0 (.variant (.named "k") (mk 0 (.placeholder (.key "a"))) null))
    (mk 0 (.column none "x")))

/-- Execution with a text for the placeholder. -/
def oneBound : Bindings := { placeholders := [(.key "a", "1")] }

/-- The branch that is taken needs no parentheses. -/
theorem text_settled_of_placeholderSum :
    placeholderSum.IsSettledBy oneBound ∧
      placeholderSum.GroupsAsSettled (Dialect.postgreSql.spelling ⟨9, 0⟩) oneBound ∧
      ∃ c d, placeholderSum.command (Dialect.postgreSql.spelling ⟨9, 0⟩)
          (Dialect.postgreSql.typeNames ⟨9, 0⟩) = .ok c ∧
        (placeholderSum.settled oneBound).command (Dialect.postgreSql.spelling ⟨9, 0⟩)
          (Dialect.postgreSql.typeNames ⟨9, 0⟩) = .ok d ∧
        ∃ s, c.text oneBound = .ok s ∧ ∀ b, d.text b = .ok s := by
  have settled : placeholderSum.IsSettledBy oneBound := by
    simp [placeholderSum, isSettledBy_mk, Node.IsSettledBy, Node.children, null]
    exact ⟨"1", rfl⟩
  have alike : placeholderSum.GroupsAsSettled (Dialect.postgreSql.spelling ⟨9, 0⟩) oneBound := by
    refine (groupsAsSettled_of_ne fun _ _ _ h ↦ by cases h).2 ⟨⟨rfl, rfl⟩, ?_⟩
    simp [Node.children, groupsAsSettled_variant, groupsAsSettled_of_ne, Node.GroupsAlike,
      oneBound, Bindings.isAlternative]
  exact ⟨settled, alike, _, _, rfl, rfl, text_settled settled alike rfl rfl⟩

/-- Comparison of a comparison, or of no value, with a column. -/
def comparedVariant : Tree :=
  mk 0 (.binary .eq
    (mk 0 (.variant (.named "k")
      (mk 0 (.binary .eq (mk 0 (.column none "x")) (mk 0 (.column none "y")))) null))
    (mk 0 (.column none "z")))

/-- The branch that is taken needs parentheses, which the variant does not get. -/
theorem comparedVariant_text_ne_settled :
    comparedVariant.IsSettledBy {} ∧
      ∃ c d, comparedVariant.command (Dialect.postgreSql.spelling ⟨9, 0⟩)
          (Dialect.postgreSql.typeNames ⟨9, 0⟩) = .ok c ∧
        (comparedVariant.settled {}).command (Dialect.postgreSql.spelling ⟨9, 0⟩)
          (Dialect.postgreSql.typeNames ⟨9, 0⟩) = .ok d ∧
        c.text {} = .ok "\"x\" = \"y\" = \"z\"" ∧
        d.text {} = .ok "(\"x\" = \"y\") = \"z\"" := by
  let c : Command := ⟨[.variant (.named "k") [.text "\"x\" = \"y\""] [.text "NULL"],
    .text " = \"z\""], [], [], 0⟩
  let d : Command := ⟨[.text "(\"x\" = \"y\") = \"z\""], [], [], 0⟩
  refine ⟨?_, c, d, rfl, rfl, rfl, rfl⟩
  simp [comparedVariant, isSettledBy_mk, Node.IsSettledBy, Node.children, null]

end Tree

end SqlWright
