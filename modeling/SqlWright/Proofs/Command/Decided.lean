import SqlWright.Compiler
import SqlWright.Proofs.Command.Complete
import SqlWright.Proofs.Drafting.Derivation
import SqlWright.Proofs.Drafting.Outcome
import SqlWright.Proofs.Drafting.Writable

/-!
# Which relations have commands

Every supported server pages, by clauses or by row numbers, and its spelling has a rule for
all that it can do. So a relation without locks has a command there exactly if it is well
formed, and what is refused is a column or an argument of the caller.
-/

namespace SqlWright

variable {server : Server} {r : Relation} {s : Statement}

/-- The server limits rows and leaves rows out, or else numbers them. -/
def Server.Pages (server : Server) : Prop :=
  (server.limit = true ∧ server.offset = true) ∨ server.rowNumber = true

/-- Every server pages. -/
theorem Server.pages_capabilities (dialect : Dialect) (version : Version) :
    (capabilities dialect version).Pages := by
  cases dialect with
  | postgreSql => exact .inl ⟨rfl, rfl⟩
  | sqlServer | oracle => exact .inr rfl

namespace Relation

/-- A server that pages has a strategy for every operation. -/
theorem taken_standard (h : server.Pages) (r : Relation) : r.Taken server Strategy.standard := by
  have native : Strategy.native ∈ Strategy.standard := by decide
  have numbered : Strategy.numberedPages ∈ Strategy.standard := by decide
  have page {hasClauses : Bool} (hc : server.limit = true ∧ server.offset = true → hasClauses) :
      PageTaken server Strategy.standard hasClauses := by
    rcases h with h | h
    · exact .inl ⟨native, hc h⟩
    · exact .inr ⟨numbered, h⟩
  induction r with
  | table _ | native _ _ => exact native
  | filter _ _ ih | project _ _ ih | extend _ _ ih | aggregate _ _ _ ih | sort _ _ ih
  | distinct _ ih | lock _ _ ih => exact ⟨native, ih⟩
  | join a b _ _ iha ihb => exact ⟨native, iha, ihb⟩
  | take _ _ ih => exact ⟨page And.left, ih⟩
  | skip _ _ ih => exact ⟨page And.right, ih⟩
  | page _ _ _ ih => exact ⟨page fun hc ↦ by simp [hc], ih⟩

/-- The statement of a relation without locks and with finite constants is writable. -/
theorem writableFrom_statement {strategies : List Strategy} (free : r.LockFree)
    (finite : r.FloatsFinite) (h : r.statement server strategies = .ok s) :
    s.draft.graph.WritableFrom server s.tree.id := by
  obtain ⟨c, d, hc, rfl⟩ := statement_ok h
  have empty : ({} : Draft).graph.Writable server := by
    intro r
    cases r with
    | zero => trivial
    | succ r => trivial
  obtain ⟨graph, select⟩ := keeps_draft free finite _ _ _ hc empty
  have writable : (Node.select c.select).Writable server := select c rfl
  refine ⟨graph.add (Node.writable_map.2 writable), ?_⟩
  change ((d.graph.add ((Node.select c.select).map Tree.id)).2.kind
    (d.graph.add ((Node.select c.select).map Tree.id)).1) = .select
  simp [Graph.add, Graph.kind, Graph.get, Graph.size, Node.map, Node.isNull, Node.kind]

end Relation

namespace Compiler

variable {c : Compiler}

/-- A relation without a statement has no command. -/
theorem command_error {e : Error} (h : r.statement c.server c.strategies = .error e) :
    c.command r = .error e := by
  rw [command, h]
  rfl

/-- The command of a relation is that of its simplified statement. -/
theorem command_eq {g : Graph} {count : Nat} (h : r.statement c.server c.strategies = .ok s)
    (hg : s.draft.graph.simplify s.tree.id c.simplifications = (g, .ok count)) :
    c.command r = (g.tree s.tree.id).command c.spelling c.types := by
  rw [command, h]
  change c.statementCommand s.draft.graph s.tree.id = _
  rw [statementCommand, hg]

/-- Every supported version has a compiler. It has a command for a relation without locks and
with finite constants exactly if the relation is well formed, refuses all others for what the
caller wrote, and every part becomes a select with a column for each position of the part. -/
theorem exists_build_decides {dialect : Dialect} {version : Version}
    (supported : version.isSince dialect.oldest) :
    ∃ c, build dialect version Simplification.standard = .ok c ∧
      ∀ r : Relation, r.LockFree → r.FloatsFinite →
        ((∃ command, c.command r = .ok command) ↔ r.WellFormed) ∧
        (∀ e, c.command r = .error e → e.IsRefusal) ∧
        ∀ p ∈ r.parts, ∀ d s d', p.draft c.server c.strategies d = .ok (some s, d') →
          s.HasWidth p.width := by
  let c := standard dialect version
  refine ⟨c, build_standard supported, fun r free finite ↦ ?_⟩
  have taken : r.Taken c.server c.strategies :=
    Relation.taken_standard (Server.pages_capabilities dialect version) r
  have statement : (∃ s, r.statement c.server c.strategies = .ok s) ↔ _ ∧ r.WellFormed :=
    Relation.exists_statement_iff
  have parts (p : Relation) (d : Draft) (s : Compiled) (d' : Draft)
      (h : p.draft c.server c.strategies d = .ok (some s, d')) : s.HasWidth p.width :=
    ((Relation.offers_draft p).some h).2.2
  rcases hs : r.statement c.server c.strategies with e | s
  · have failed : ¬r.WellFormed := fun h ↦ by
      obtain ⟨s, h⟩ := statement.2 ⟨taken, h⟩
      rw [hs] at h
      cases h
    rw [command_error hs]
    refine ⟨⟨nofun, fun h ↦ (failed h).elim⟩, fun e' h ↦ ?_, fun p _ ↦ parts p⟩
    cases h
    exact Relation.statement_refused taken hs
  · obtain ⟨g, count, hg, writable⟩ :=
      (Relation.writableFrom_statement free finite hs).exists_simplify c.simplifications
    obtain ⟨text, (ht : (g.tree s.tree.id).command c.spelling c.types = .ok text)⟩ :=
      (writable.tree s.tree.id).exists_command (Spelling.complete_dialect dialect version)
    rw [command_eq hs hg, ht]
    exact ⟨⟨fun _ ↦ (statement.1 ⟨s, hs⟩).2, fun _ ↦ ⟨text, rfl⟩⟩, nofun, fun p _ ↦ parts p⟩

/-- Rows of a table of one column after the first two. -/
def laterRows (columns : List Nat) : Relation :=
  .skip (.project (.table ⟨none, "t", [⟨"id", .int32, false⟩], [0]⟩) columns)
    (.constant (.integer 2))

/-- The oldest server without clauses leaves rows out, and refuses a column there is not. -/
theorem exists_build_decides_of_oracle9 :
    Version.isSince ⟨9, 0⟩ Dialect.oracle.oldest ∧
      ∃ c, build .oracle ⟨9, 0⟩ Simplification.standard = .ok c ∧
        (∃ command, c.command (laterRows [0]) = .ok command) ∧
        ¬∃ command, c.command (laterRows [1]) = .ok command := by
  have supported : Version.isSince ⟨9, 0⟩ Dialect.oracle.oldest := by decide
  obtain ⟨c, hc, decides⟩ := exists_build_decides supported
  refine ⟨supported, c, hc, ?_, ?_⟩
  · rw [(decides (laterRows [0]) trivial ⟨trivial, trivial⟩).1]
    simp [laterRows, Relation.WellFormed, Relation.width, Scalar.Fits]
  · rw [(decides (laterRows [1]) trivial ⟨trivial, trivial⟩).1]
    simp [laterRows, Relation.WellFormed, Relation.width, Scalar.Fits]

end Compiler

end SqlWright
