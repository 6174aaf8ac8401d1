import SqlWright.Proofs.Locks.Passing

/-!
# Tables with hints

Where a row lock is a hint of tables, a statement is written as one without locks in which each
table has its hint for a part of its text (`Tree.hinted`): the hint of the innermost locked select
that has the table in its FROM clause, be it through joins and derived tables, and none where
there is no such select. A node in a FROM clause that is none of these passes the hint on to
places where it does not belong, so this is true of statements that have no table there
(`Tree.KeepsHints`).
-/

namespace SqlWright

variable {α : Type}

namespace Spelling

/-- Row locks are hints of tables, if they can be written. -/
def LocksByHint (spelling : Spelling) : Prop :=
  ∀ l clause, spelling.lock l = .ok clause → ∃ text, clause = .tableHint text

/-- Hint for the tables in the FROM clause of a node: that of its own lock, else the one around
the node. -/
def fromHint (spelling : Spelling) (n : Node α) (inherited : Option String) : Option String :=
  match n with
  | .select s =>
    match s.lock.map spelling.lock with
    | some (.ok (.tableHint text)) => some text
    | _ => inherited
  | _ => inherited

/-- Name of a table, with the name of its schema if it has one. -/
def qualifiedText (spelling : Spelling) (schema : Option String) (name : String) :
    Except Error String :=
  match schema with
  | some s => return (← spelling.quoteIdentifier s) ++ "." ++ (← spelling.quoteIdentifier name)
  | none => spelling.quoteIdentifier name

/-- Table as it stands in a FROM clause, without a hint. -/
def tableText (spelling : Spelling) (schema : Option String) (name : String)
    (label : Option String) : Except Error String :=
  match label with
  | some a => return (← spelling.qualifiedText schema name) ++
      ((← spelling.tableAlias) ++ (← spelling.quoteIdentifier a))
  | none => spelling.qualifiedText schema name

end Spelling

/-- Node that locks no rows. -/
def Node.unlocked : Node α → Node α
  | .select s => .select { s with lock := none }
  | n => n

namespace Tree

/-- Node of a statement without locks in which the tables have their hints, given how its
children become such statements under a hint. -/
def hintedNode (spelling : Spelling) (n : Node (Option String → Tree)) (hint : Option String) :
    Tree :=
  match n with
  | .table schema name label =>
    match spelling.tableText schema name label with
    | .ok text => mk 0 (.native (text ++ hint.getD ""))
    | .error _ => null
  | n => mk 0 (n.unlocked.marked.map fun c ↦ c.2 (if c.1 then spelling.fromHint n hint else none))

/-- Statement without locks in which each table has the hint of the innermost locked select that
has it in its FROM clause, or else the given one if links of FROM clauses alone lead to it. -/
def hinted (spelling : Spelling) (t : Tree) (hint : Option String) : Tree :=
  t.fold (fun n hint ↦ hintedNode spelling (n.map (·.2)) hint) hint

/-- A hint would come to a table: no lock stands between. -/
def exposed (t : Tree) : Bool :=
  t.fold fun
    | .table _ _ _ => true
    | .select s => s.lock.isNone && s.source.any (·.2)
    | n => n.children.any (·.2)

/-- Below a hint, tables that are not to have it are out of its reach. -/
inductive KeepsHints (spelling : Spelling) : Option String → Tree → Prop where
  | mk {hint : Option String} {i : Nat} {n : Node Tree}
    (sources : ∀ c, (true, c) ∈ n.marked.children → KeepsHints spelling (spelling.fromHint n hint) c)
    (others : ∀ c, (false, c) ∈ n.marked.children → KeepsHints spelling none c)
    (apart : ∀ c, (false, c) ∈ n.marked.children → n.kind ≠ .select → hint ≠ none →
      c.exposed = false) :
    KeepsHints spelling hint (.mk i n)

section Equations

variable {spelling : Spelling} {i : Nat} {n : Node Tree} {hint : Option String}

theorem hinted_table {schema : Option String} {name : String} {label : Option String} {text : String}
    (h : spelling.tableText schema name label = .ok text) :
    (mk i (.table schema name label)).hinted spelling hint =
      mk 0 (.native (text ++ hint.getD "")) := by
  rw [hinted, fold_mk]
  simp only [Node.map, hintedNode, h]

theorem fromHint_map {β : Type} (f : Tree → β) (n : Node Tree) (hint : Option String) :
    spelling.fromHint (n.map f) hint = spelling.fromHint n hint := by
  cases n <;> rfl

theorem unlocked_map {β : Type} (f : Tree → β) (n : Node Tree) :
    (n.map f).unlocked.marked = n.unlocked.marked.map fun c ↦ (c.1, f c.2) := by
  cases n <;> simp [Node.unlocked, Node.marked, Node.map, Select.marked, Select.map, SortKey.map,
    OutputColumn.map, Function.comp_def]

/-- What a child of a node becomes. -/
def hintedChild (spelling : Spelling) (n : Node Tree) (hint : Option String) (c : Bool × Tree) :
    Tree :=
  c.2.hinted spelling (if c.1 then spelling.fromHint n hint else none)

theorem hinted_mk (h : n.kind ≠ .table) : (mk i n).hinted spelling hint =
    mk 0 (n.unlocked.marked.map (hintedChild spelling n hint)) := by
  have step (m : Node (Option String → Tree)) (hm : m.kind ≠ .table) :
      hintedNode spelling m hint =
        mk 0 (m.unlocked.marked.map fun c ↦
          c.2 (if c.1 then spelling.fromHint m hint else none)) := by
    cases m <;> first | contradiction | rfl
  rw [hinted, fold_mk, Node.map_map, step _ (by rwa [Node.kind_map]), fromHint_map, unlocked_map,
    Node.map_map]
  rfl

theorem binaryOp?_hinted (t : Tree) (hint : Option String) :
    (t.hinted spelling hint).binaryOp? = t.binaryOp? := by
  obtain ⟨i, n⟩ := t
  by_cases h : n.kind = .table
  · cases n with
    | table schema name label =>
      rw [hinted, fold_mk]
      simp only [Node.map, hintedNode]
      split <;> rfl
    | _ => cases h
  · rw [hinted_mk h]
    cases n <;> rfl

theorem exposed_mk : (mk i n).exposed = match n with
    | .table _ _ _ => true
    | .select s => s.lock.isNone && s.source.any exposed
    | n => n.children.any exposed := by
  have all : (n.map fun t ↦ (t, exposed t)).children.any (·.2) = n.children.any exposed := by
    simp [Function.comp_def]
  rw [exposed, fold_mk]
  cases n with
  | table => rfl
  | select s =>
    simp only [Node.map, Select.map]
    cases s.source <;> rfl
  | _ => exact all

end Equations

end Tree

/-! ### Chains that follow others -/

/-- Whenever the first can be written, the second can be written to a chain of the same normal
form, and gives the parameters the same names. -/
def Writing.Follows (x y : Writing Chain) : Prop :=
  ∀ l c l', x l = .ok (c, l') → ∃ c', y l = .ok (c', l') ∧ c.normalized = c'.normalized

theorem Writing.mapM_ok_of_ok {γ δ : Type} {f g : γ → Writing δ} {as : List γ}
    (h : ∀ a ∈ as, ∀ l r, f a l = .ok r → g a l = .ok r) {l : List Parameter}
    {r : List δ × List Parameter} (run : as.mapM f l = .ok r) : as.mapM g l = .ok r := by
  induction as generalizing l r with
  | nil => exact run
  | cons a as ih =>
    rw [List.forall_mem_cons] at h
    rw [List.mapM_cons] at run ⊢
    obtain ⟨d, l₁, hd, run⟩ := bind_ok.mp run
    obtain ⟨ds, l₂, hds, run⟩ := bind_ok.mp run
    exact bind_ok.mpr ⟨d, l₁, h.1 _ _ hd, bind_ok.mpr ⟨ds, l₂, ih h.2 hds, run⟩⟩

namespace Script

open Writing

variable {w : Script} {n : Node α} {k k' : Writer α}

theorem follows_item (h : ∀ a ∈ n.children, ∀ hint, Follows (k a hint) (k' a hint)) {i : Item α}
    (hi : i.IsOf n) : Follows (w.writeItem k i) (w.writeItem k' i) := by
  intro l c l' run
  cases i with
  | text s => exact ⟨c, run, rfl⟩
  | part a hint => exact h a hi hint l c l' run
  | parameter p => exact ⟨c, run, rfl⟩
  | placeholder id => exact ⟨c, run, rfl⟩
  | variant key main alternative hint =>
    cases hi
    obtain ⟨x, l₁, hmain, run⟩ := bind_ok.mp run
    obtain ⟨y, l₂, halternative, ⟨⟩⟩ := bind_ok.mp run
    obtain ⟨x', hmain', ex⟩ := h main (by simp [Node.children]) hint _ _ _ hmain
    obtain ⟨y', halternative', ey⟩ := h alternative (by simp [Node.children]) hint _ _ _ halternative
    refine ⟨_, bind_ok.mpr ⟨x', l₁, hmain', bind_ok.mpr ⟨y', _, halternative', rfl⟩⟩, ?_⟩
    rw [ex, ey]
  | dynamicFilter id expressions hint =>
    obtain ⟨first, others, rfl, rfl⟩ := hi
    rw [Node.children] at h
    have each (a : α) (ha : a ∈ first :: others) (l : List Parameter) (r : Chain × List Parameter)
        (run : (do return Chain.normalized (← k a hint) : Writing Chain) l = .ok r) :
        (do return Chain.normalized (← k' a hint) : Writing Chain) l = .ok r := by
      obtain ⟨x, l₁, hx, ⟨⟩⟩ := bind_ok.mp run
      obtain ⟨x', hx', e⟩ := h a ha hint _ _ _ hx
      rw [e]
      exact bind_ok.mpr ⟨x', l₁, hx', rfl⟩
    obtain ⟨cs, l₁, hcs, ⟨⟩⟩ := bind_ok.mp run
    exact ⟨_, bind_ok.mpr ⟨cs, _, mapM_ok_of_ok each hcs, rfl⟩, rfl⟩

theorem follows_items (h : ∀ a ∈ n.children, ∀ hint, Follows (k a hint) (k' a hint))
    {items : List (Item α)} (hi : ∀ i ∈ items, i.IsOf n) :
    Follows (w.writeItems k items) (w.writeItems k' items) := by
  induction items with
  | nil =>
    intro l c l' run
    exact ⟨c, run, rfl⟩
  | cons i items ih =>
    rw [List.forall_mem_cons] at hi
    intro l c l' run
    obtain ⟨x, l₁, y, hx, hy, e⟩ := concat_ok.mp run
    obtain ⟨x', hx', ex⟩ := follows_item h hi.1 _ _ _ hx
    obtain ⟨y', hy', ey⟩ := ih hi.2 _ _ _ hy
    refine ⟨x' ++ y', concat_ok.mpr ⟨x', l₁, y', hx', hy', rfl⟩, ?_⟩
    rw [show c = x ++ y from e]
    exact Chain.normalized_append ex ey

/-- What a node is written as follows from what its children are written as. -/
theorem follows_node (u : α → Tree) (hint : Option String)
    (h : ∀ a ∈ n.children, ∀ hint, Follows (k a hint) (k' a hint)) :
    Follows (w.node (n.map (partOf u k)) hint) (w.node (n.map (partOf u k')) hint) := by
  obtain ⟨items?, isOf, itemized⟩ := itemized_node (w := w) (n := n) u hint
  intro l c l' run
  obtain ⟨items, mem, run⟩ := (itemized _ _ _).mp run
  obtain ⟨c', run', e⟩ := follows_items h (isOf items mem) l c l' run
  exact ⟨c', (itemized _ _ _).mpr ⟨items, mem, run'⟩, e⟩

end Script

/-! ### Statements under a hint -/

namespace Script

open Writing

variable {w : Script} {hint : Option String}

/-- A lock that can be written is a hint. -/
theorem lock_cases (locks : w.spelling.LocksByHint) {s : Select Part} {lock : Option LockClause}
    (h : w.lock? s = .ok lock) :
    (s.lock = none ∧ lock = none) ∨
      ∃ l text, s.lock = some l ∧ w.spelling.lock l = .ok (.tableHint text) ∧
        lock = some (.tableHint text) := by
  obtain none | ⟨l, clause, hl, hc, rfl⟩ := lock?_cases h
  · exact .inl none
  · obtain ⟨text, rfl⟩ := locks l clause hc
    exact .inr ⟨l, text, hl, hc, rfl⟩

/-- A lock that is a hint leaves nothing for the end of a select, and goes to its FROM clause. -/
theorem fromHint_eq (locks : w.spelling.LocksByHint) {s : Select Part} {lock : Option LockClause}
    (h : w.lock? s = .ok lock) (hint : Option String) :
    lockSuffix lock = [] ∧ w.spelling.fromHint (.select s) hint = tableHint lock hint := by
  obtain ⟨hl, rfl⟩ | ⟨l, text, hl, hc, rfl⟩ := lock_cases locks h
  · simp [lockSuffix, tableHint, Spelling.fromHint, hl]
  · simp [lockSuffix, tableHint, Spelling.fromHint, hl, hc]

private theorem source_of_not_exposed (locks : w.spelling.LocksByHint) {s : Select Tree}
    {lock : Option LockClause} (h : w.lock? (s.map (partOf id w.tree)) = .ok lock)
    (hs : (s.lock.isNone && s.source.any Tree.exposed) = false) (hint : Option String)
    (ih : ∀ c ∈ s.source, c.exposed = false → w.tree c hint = w.tree c none) :
    w.source (s.source.map (partOf id w.tree)) (tableHint lock hint) =
      w.source (s.source.map (partOf id w.tree)) (tableHint lock none) := by
  obtain ⟨hl, rfl⟩ | ⟨l, text, hl, hc, rfl⟩ := lock_cases locks h
  · have unlocked : s.lock = none := hl
    cases hc : s.source with
    | none => rfl
    | some c =>
      rw [unlocked, hc] at hs
      have same : w.tree c hint = w.tree c none := ih c hc hs
      simp only [Script.source, Option.map_some, tableHint, partOf, same]
  · rfl

/-- Out of the reach of a hint a statement is written alike under every one. -/
theorem tree_of_not_exposed (locks : w.spelling.LocksByHint) {t : Tree} (h : t.exposed = false)
    (hint : Option String) : w.tree t hint = w.tree t none := by
  induction t using Tree.induction_children with
  | h i n ih =>
    rw [Tree.exposed_mk] at h
    rw [tree_mk, tree_mk]
    by_cases table : n.kind = .table
    · cases n with
      | table => cases h
      | _ => cases table
    · by_cases select : n.kind = .select
      · cases n with
        | select s =>
          change w.select _ hint = w.select _ none
          rw [select_eq, select_eq]
          refine bind_congr fun paging ↦ ?_
          cases hl : w.lock? (s.map (partOf id w.tree)) with
          | error e => rfl
          | ok lock =>
            have source := source_of_not_exposed locks hl h hint fun c hc ↦
              ih c (by simp [Node.children, Select.children, Option.mem_def.mp hc])
            change w.clauses _ _ _ hint = w.clauses _ _ _ none
            unfold clauses
            rw [show (s.map (partOf id w.tree)).source = s.source.map (partOf id w.tree) from rfl,
              source]
        | _ => cases select
      · have hidden : n.children.any Tree.exposed = false := by
          cases n <;> first | contradiction | exact h
        have same : n.map (partOf id (given w.tree fun _ ↦ hint)) =
            n.map (partOf id (given w.tree fun _ ↦ none)) := by
          apply Node.map_congr
          intro c hc
          have apart : c.exposed = false := by
            simpa using List.any_eq_false.mp hidden c hc
          exact congrArg (Prod.mk c) (funext fun _ ↦ ih c hc apart)
        calc
          w.node (n.map (partOf id w.tree)) hint =
              w.node (n.map (partOf id (given w.tree fun _ ↦ hint))) none :=
            node_given table select hint
          _ = w.node (n.map (partOf id (given w.tree fun _ ↦ none))) none := by rw [same]
          _ = w.node (n.map (partOf id w.tree)) none := (node_given table select none).symm

/-! ### Tables -/

/-- What is written is a text and names no parameters. -/
def IsText (x : Writing Chain) (text : Except Error String) : Prop :=
  ∀ l c l', x l = .ok (c, l') →
    ∃ s, text = .ok s ∧ l' = l ∧ c.normalized = Chain.normalized [.text s]

theorem isText_pure (s : String) : IsText (pure [.text s]) (pure s) := by
  rintro l _ _ ⟨⟩
  exact ⟨s, rfl, rfl, rfl⟩

theorem isText_lift (e : Except Error String) : IsText (do return [.text (← e)]) e := by
  intro l c l' run
  obtain ⟨s, l₁, hs, ⟨⟩⟩ := bind_ok.mp run
  obtain ⟨ok, rfl⟩ := lift_ok.mp hs
  exact ⟨s, ok, rfl, rfl⟩

theorem IsText.append {x y : Writing Chain} {e e' : Except Error String} (h : IsText x e)
    (h' : IsText y e') : IsText (do return (← x) ++ (← y)) (do return (← e) ++ (← e')) := by
  intro l c l' run
  obtain ⟨d, l₁, hd, run⟩ := bind_ok.mp run
  obtain ⟨d', l₂, hd', ⟨⟩⟩ := bind_ok.mp run
  obtain ⟨s, rfl, rfl, es⟩ := h _ _ _ hd
  obtain ⟨s', rfl, rfl, es'⟩ := h' _ _ _ hd'
  refine ⟨s ++ s', rfl, rfl, ?_⟩
  rw [Chain.normalized_append es es']
  simp [Chain.normalized, Chain.normalizedAfter]

theorem isText_qualified (schema : Option String) (name : String) :
    IsText (w.qualified schema name) (w.spelling.qualifiedText schema name) := by
  cases schema with
  | none => exact isText_lift _
  | some s =>
    have written := ((isText_lift (w.spelling.quoteIdentifier s)).append (isText_pure ".")).append
      (isText_lift (w.spelling.quoteIdentifier name))
    simpa [qualified, identifier, Spelling.qualifiedText] using written

theorem isText_table (schema : Option String) (name : String) (label hint : Option String) :
    IsText (w.node (.table schema name label) hint)
      (do return (← w.spelling.tableText schema name label) ++ hint.getD "") := by
  cases label with
  | none =>
    have written := (isText_qualified (w := w) schema name).append (isText_pure (hint.getD ""))
    simpa [node, Spelling.tableText] using written
  | some a =>
    have named := (isText_lift w.spelling.tableAlias).append
      (isText_lift (w.spelling.quoteIdentifier a))
    have written := ((isText_qualified (w := w) schema name).append named).append
      (isText_pure (hint.getD ""))
    simpa [node, aliasClause, identifier, Spelling.tableText] using written

/-! ### Statements with hints -/

/-- Hint that a child of a node is written under. -/
def passedHint (w : Script) (n : Node Tree) (hint : Option String) (c : Bool × Tree) :
    Option String :=
  if c.1 then w.spelling.fromHint n hint else if n.kind = .select then none else hint

theorem unlocked_eq {n : Node α} (h : n.kind ≠ .select) : n.unlocked = n := by
  cases n <;> first | contradiction | rfl

theorem lock_unlocked {n : Node α} {s : Select (Bool × α)} (h : n.unlocked.marked = .select s) :
    s.lock = none := by
  cases n with
  | select x =>
    cases h
    rfl
  | _ => cases h

theorem kind_unlocked (n : Node α) : n.unlocked.marked.kind = n.kind := by
  cases n <;> rfl

/-- A node with a hint is written as one without locks whose children know their hints. -/
theorem node_unlocked (locks : w.spelling.LocksByHint) {n : Node Tree} (table : n.kind ≠ .table)
    {l : List Parameter} {r : Chain × List Parameter}
    (run : w.node (n.map (partOf id w.tree)) hint l = .ok r) :
    w.node (n.unlocked.marked.map (partOf (·.2)
      (given (fun c ↦ w.tree c.2) (w.passedHint n hint)))) none l = .ok r := by
  by_cases select : n.kind = .select
  · cases n with
    | select s =>
      change w.select _ hint l = _ at run
      change w.select _ none l = _
      rw [select_eq] at run ⊢
      obtain ⟨paging, l₁, hp, run⟩ := bind_ok.mp run
      obtain ⟨lock, l₂, hl, written⟩ := bind_ok.mp run
      have hlock : w.lock? (s.map (partOf id w.tree)) = .ok lock := (lift_ok.mp hl).1
      obtain rfl : l₂ = l₁ := (lift_ok.mp hl).2
      obtain ⟨suffix, passed⟩ := fromHint_eq locks hlock hint
      have hints : w.passedHint (.select s) hint = childHint lock hint := by
        funext c
        rw [childHint, ← passed]
        rfl
      rw [hints]
      refine bind_ok.mpr ⟨paging, l₂, ?_, bind_ok.mpr ⟨none, l₂, rfl, ?_⟩⟩
      · rw [← hp]
        simp [paging?, Select.isPaged, Select.map, Select.marked]
      · rw [clauses_given suffix] at written
        exact written
    | _ => cases select
  · have same : (partOf (·.2) (given (fun c : Bool × Tree ↦ w.tree c.2) (w.passedHint n hint))) =
        fun c ↦ partOf id (given w.tree fun _ ↦ hint) c.2 := by
      have passed : w.spelling.fromHint n hint = hint := by
        cases n <;> first | contradiction | rfl
      funext c
      have hc : w.passedHint n hint c = hint := by simp [passedHint, passed, select]
      exact congrArg (Prod.mk c.2) (funext fun _ ↦ congrArg (w.tree c.2) hc)
    rw [unlocked_eq select, same, n.marked_map (partOf id (given w.tree fun _ ↦ hint)),
      ← node_given table select hint]
    exact run

/-- A node without locks is written alike from children that are written under no hint. -/
theorem node_given_none {n : Node α} {u : α → Tree} {k : Writer α} (table : n.kind ≠ .table)
    (unlocked : ∀ s, n = .select s → s.lock = none) :
    w.node (n.map (partOf u (given k fun _ ↦ none))) none = w.node (n.map (partOf u k)) none := by
  by_cases select : n.kind = .select
  · cases n with
    | select s =>
      have unhinted : given (fun p : Bool × α ↦ given k (fun _ ↦ none) p.2) (childHint none none) =
          given (fun p ↦ k p.2) (childHint none none) := by
        funext p _
        have hp : childHint none none p = none := by
          unfold childHint
          split <;> rfl
        exact (congrArg (k p.2) hp).symm
      have lock (f : α → Part) : w.lock? (s.map f) = .ok none := by
        simp only [lock?, Select.map, unlocked s rfl]
        rfl
      change w.select _ _ = w.select _ _
      rw [select_eq, select_eq, paging?_map (partOf u (given k fun _ ↦ none)) (partOf u k)]
      congr 1
      funext paging
      rw [lock, lock]
      change w.clauses _ _ _ _ = w.clauses _ _ _ _
      rw [clauses_given (k := given k fun _ ↦ none) rfl, clauses_given (k := k) rfl, unhinted]
    | _ => cases select
  · exact (node_given table select none).symm

theorem groupsAlike_of_binaryOp? {spelling : Spelling} {n : Node α} {u v : α → Tree}
    (h : ∀ a, (u a).binaryOp? = (v a).binaryOp?) : n.GroupsAlike spelling u v := by
  cases n with
  | binary op left right => simp [Node.GroupsAlike, BinaryOp.takesApart, h]
  | unary op a => cases op <;> simp [Node.GroupsAlike, h]
  | function f args => exact .inr fun a _ ↦ by rw [h]
  | _ => trivial

theorem children_unlocked (n : Node α) : n.unlocked.marked.children = n.marked.children := by
  cases n <;> rfl

/-- A statement under a hint is written as the one without locks whose tables have their hints. -/
theorem follows_hinted (locks : w.spelling.LocksByHint) {t : Tree}
    (keeps : t.KeepsHints w.spelling hint) :
    Follows (w.tree t hint) (w.tree (t.hinted w.spelling hint) none) := by
  induction keeps with
  | @mk hint i n sources others apart ihSources ihOthers =>
    intro l c l' run
    rw [tree_mk] at run
    by_cases table : n.kind = .table
    · cases n with
      | table schema name label =>
        obtain ⟨s, hs, rfl, e⟩ := isText_table schema name label hint l c l' run
        cases text : w.spelling.tableText schema name label with
        | error e =>
          rw [text] at hs
          cases hs
        | ok text' =>
          rw [text] at hs
          cases hs
          rw [Tree.hinted_table text]
          exact ⟨_, rfl, e⟩
      | _ => cases table
    · let f := Tree.hintedChild w.spelling n hint
      have looks (c : Bool × Tree) : c.2.binaryOp? = (f c).binaryOp? :=
        (Tree.binaryOp?_hinted c.2 _).symm
      have children : ∀ c ∈ n.unlocked.marked.children, ∀ h,
          Follows (given (fun c ↦ w.tree c.2) (w.passedHint n hint) c h)
            (given (fun c ↦ w.tree (f c)) (fun _ ↦ none) c h) := by
        rintro ⟨isSource, c⟩ hc -
        rw [children_unlocked] at hc
        cases isSource with
        | true => exact ihSources c hc
        | false =>
          change Follows (w.tree c (if n.kind = .select then none else hint)) _
          have same : w.tree c (if n.kind = .select then none else hint) = w.tree c none := by
            split
            · rfl
            · next select =>
              by_cases none : hint = none
              · rw [none]
              · exact tree_of_not_exposed locks (apart c hc select none) hint
          rw [same]
          exact ihOthers c hc
      have written := node_unlocked locks table run
      rw [node_congr (groupsAlike_of_binaryOp? looks) fun s hs ↦ ?_] at written
      · obtain ⟨c', run', e⟩ := follows_node f none children _ _ _ written
        rw [Tree.hinted_mk table, tree_mk_map]
        refine ⟨c', ?_, e⟩
        rw [← run', node_given_none (by rwa [kind_unlocked]) fun s hs ↦ lock_unlocked hs]
      · simp only [lock?, Select.map, lock_unlocked hs]

end Script

/-- Every version of SQL Server locks by hints. -/
theorem Spelling.SqlServer.locksByHint (v : Version) : (spelling v).LocksByHint := by
  intro l clause h
  have rule : (spelling v).resolve .lock (·.lock) = .ok lock := by
    unfold spelling
    split <;> split <;> rfl
  rw [Spelling.lock, rule] at h
  cases h
  exact ⟨_, rfl⟩

namespace Tree

variable {t : Tree} {spelling : Spelling} {types : TypeNames} {c : Command}

theorem keepsHints_mk {hint : Option String} {i : Nat} {n : Node Tree} :
    (mk i n).KeepsHints spelling hint ↔
      (∀ c, (true, c) ∈ n.marked.children → c.KeepsHints spelling (spelling.fromHint n hint)) ∧
      (∀ c, (false, c) ∈ n.marked.children → c.KeepsHints spelling none) ∧
      ∀ c, (false, c) ∈ n.marked.children → n.kind ≠ .select → hint ≠ none → c.exposed = false :=
  ⟨fun ⟨sources, others, apart⟩ ↦ ⟨sources, others, apart⟩,
    fun ⟨sources, others, apart⟩ ↦ ⟨sources, others, apart⟩⟩

/-- Where locks are hints, a statement has the command of the one without locks in which each
table has the hint of the innermost locked select that has it in its FROM clause, and no hint
where there is none. -/
theorem command_hinted (locks : spelling.LocksByHint) (keeps : t.KeepsHints spelling none)
    (h : t.command spelling types = .ok c) :
    (t.hinted spelling none).command spelling types = .ok c := by
  obtain ⟨mark, chain, parameters, hm, run, rfl⟩ := command_ok.mp h
  obtain ⟨chain', run', e⟩ := Script.follows_hinted (w := ⟨spelling, types, mark⟩) locks keeps
    _ _ _ run
  refine command_ok.mpr ⟨mark, chain', parameters, hm, run', ?_⟩
  rw [Command.ofChain, Command.ofChain, e]

/-- Test for rows of a table. -/
def rowsOf (table : String) : Tree :=
  mk 0 (.unary .existence (mk 0 (.subquery (mk 0 (.select
    { source := some (mk 0 (.table none table none)) })))))

/-- Locked join of a table and a derived table, with a filter that reads a third. -/
def lockedDerived : Tree :=
  mk 0 (.select {
    source := some (mk 0 (.join .cross (mk 0 (.table none "a" none))
      (mk 0 (.queryRef (mk 0 (.select
        { source := some (mk 0 (.table none "b" none)) })) "d")) none))
    filter := some (rowsOf "c")
    lock := some ⟨.update, .wait⟩ })

/-- Both joined tables have the hint, and the one that the filter reads has none. -/
theorem command_hinted_of_lockedDerived :
    (Dialect.sqlServer.spelling ⟨10, 0⟩).LocksByHint ∧
      lockedDerived.KeepsHints (Dialect.sqlServer.spelling ⟨10, 0⟩) none ∧
      ∃ c, lockedDerived.command (Dialect.sqlServer.spelling ⟨10, 0⟩)
          (Dialect.sqlServer.typeNames ⟨10, 0⟩) = .ok c ∧
        (lockedDerived.hinted (Dialect.sqlServer.spelling ⟨10, 0⟩) none).command
          (Dialect.sqlServer.spelling ⟨10, 0⟩) (Dialect.sqlServer.typeNames ⟨10, 0⟩) = .ok c ∧
        c.text {} = .ok ("SELECT * FROM [a] WITH (UPDLOCK, ROWLOCK) CROSS JOIN " ++
          "(SELECT * FROM [b] WITH (UPDLOCK, ROWLOCK)) AS [d] WHERE EXISTS (SELECT * FROM [c])") := by
  have locks : (Dialect.sqlServer.spelling ⟨10, 0⟩).LocksByHint :=
    Spelling.SqlServer.locksByHint _
  have keeps : lockedDerived.KeepsHints (Dialect.sqlServer.spelling ⟨10, 0⟩) none := by
    simp [lockedDerived, rowsOf, keepsHints_mk, Node.marked, Select.marked, Node.children,
      Select.children, Select.exprs, Select.map, Node.map]
  exact ⟨locks, keeps, _, rfl, command_hinted locks keeps rfl, rfl⟩

/-- Locked join of two tables on a condition that reads a third. -/
def lockedJoin : Tree :=
  mk 0 (.select {
    source := some (mk 0 (.join .inner (mk 0 (.table none "a" none)) (mk 0 (.table none "b" none))
      (some (rowsOf "c"))))
    lock := some ⟨.update, .wait⟩ })

/-- The table that the condition of a join reads has the hint as well. -/
theorem lockedJoin_command_ne_hinted :
    ∃ c d, lockedJoin.command (Dialect.sqlServer.spelling ⟨10, 0⟩)
        (Dialect.sqlServer.typeNames ⟨10, 0⟩) = .ok c ∧
      (lockedJoin.hinted (Dialect.sqlServer.spelling ⟨10, 0⟩) none).command
        (Dialect.sqlServer.spelling ⟨10, 0⟩) (Dialect.sqlServer.typeNames ⟨10, 0⟩) = .ok d ∧
      c.text {} = .ok ("SELECT * FROM [a] WITH (UPDLOCK, ROWLOCK) INNER JOIN " ++
        "[b] WITH (UPDLOCK, ROWLOCK) ON EXISTS (SELECT * FROM [c] WITH (UPDLOCK, ROWLOCK))") ∧
      d.text {} = .ok ("SELECT * FROM [a] WITH (UPDLOCK, ROWLOCK) INNER JOIN " ++
        "[b] WITH (UPDLOCK, ROWLOCK) ON EXISTS (SELECT * FROM [c])") :=
  ⟨_, _, rfl, rfl, rfl, rfl⟩

end Tree

end SqlWright
