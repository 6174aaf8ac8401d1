import SqlWright.Relation.NumberedPage
import SqlWright.Server.Capabilities

/-!
# Statements of relations

Strategies turn a relation into a select; of a list of strategies the first that
takes an operation decides. The native strategy takes what the server can do by
itself, the other one pages by row numbers.
-/

namespace SqlWright

/-- Way of turning an operation into a select. -/
inductive Strategy where
  | native
  | numberedPages
  deriving DecidableEq

namespace Strategy

/-- Name in messages and documents. -/
def name : Strategy → String
  | native => "sql"
  | numberedPages => "row_number_paging"

/-- Strategy that has the name. -/
def ofName? (s : String) : Option Strategy := [native, numberedPages].find? (·.name == s)

/-- Strategies that are tried unless others are asked for. -/
def standard : List Strategy := [native, numberedPages]

/-- Result of the first strategy that has one. -/
def firstOf (attempt : Strategy → Drafting (Option Compiled)) :
    List Strategy → Drafting (Option Compiled)
  | [] => return none
  | s :: rest => do
    match ← attempt s with
    | some c => return some c
    | none => firstOf attempt rest

/-- Change of the select of a source, if the source has one. -/
def on (source : Drafting (Option Compiled)) (change : Compiled → Drafting Compiled) :
    Drafting (Option Compiled) := do
  match ← source with
  | some c => return some (← change c)
  | none => return none

/-- Attempt at an operation that only the native strategy takes. -/
def ifNative (attempt : Drafting (Option Compiled)) : Strategy → Drafting (Option Compiled)
  | native => attempt
  | numberedPages => return none

/-- Attempt at a page: natively if the server has the clauses, or by row numbers if it has
those. -/
def attemptPage (server : Server) (hasClauses : Bool) (source : Drafting (Option Compiled))
    (change : Compiled → Drafting Compiled) (skip take : Option Scalar) :
    Strategy → Drafting (Option Compiled)
  | native => if hasClauses then on source change else return none
  | numberedPages =>
    if server.rowNumber then on source (·.numberedPage skip take) else return none

end Strategy

namespace Relation

open Strategy

/-- Select of a relation, if one of the strategies takes each of its operations. -/
def draft (server : Server) (strategies : List Strategy) : Relation →
    Drafting (Option Compiled)
  | table t => firstOf (ifNative (some <$> Compiled.ofTable t)) strategies
  | native sql header => firstOf (ifNative (some <$> Compiled.ofNative sql header)) strategies
  | filter source predicate =>
    let source := draft server strategies source
    firstOf (ifNative (on source fun c ↦ do (← c.wrapFor .filter).filter predicate)) strategies
  | project source columns =>
    let source := draft server strategies source
    firstOf (ifNative (on source fun c ↦ do (← c.wrapFor .project).project columns)) strategies
  | extend source columns =>
    let source := draft server strategies source
    firstOf (ifNative (on source fun c ↦ do (← c.wrapFor .extend).extend columns)) strategies
  | join left right type pairs =>
    let left := draft server strategies left
    let right := draft server strategies right
    firstOf (ifNative do
      match ← left with
      | none => return none
      | some l =>
        match ← right with
        | none => return none
        | some r => l.join r type pairs) strategies
  | aggregate source groupBy aggregates =>
    let source := draft server strategies source
    firstOf (ifNative (on source fun c ↦ do
      (← c.wrapFor .aggregate).aggregate groupBy aggregates)) strategies
  | sort source order =>
    let source := draft server strategies source
    firstOf (ifNative (on source fun c ↦ do (← c.wrapFor .sort).sort order)) strategies
  | distinct source =>
    let source := draft server strategies source
    firstOf (ifNative (on source fun c ↦ do return (← c.wrapFor .distinct).distinct)) strategies
  | take inner count =>
    let source := draft server strategies inner
    firstOf (attemptPage server server.limit source
      (fun c ↦ do c.limit (← Draft.scalar [] count) !inner.isPaging) none (some count)) strategies
  | skip inner count =>
    let source := draft server strategies inner
    firstOf (attemptPage server server.offset source
      (fun c ↦ do
        let c ← c.wrapFor .skip
        c.offset (← Draft.scalar [] count) !inner.isPaging)
      (some count) none) strategies
  | page inner leaving taking =>
    let source := draft server strategies inner
    firstOf (attemptPage server (server.limit && server.offset) source
      (fun c ↦ do
        let c ← c.wrapFor .skip
        let skipped ← c.offset (← Draft.scalar [] leaving) !inner.isPaging
        skipped.limit (← Draft.scalar [] taking) false)
      (some leaving) (some taking)) strategies
  | lock source wanted =>
    let source := draft server strategies source
    firstOf (ifNative (on source fun c ↦ return c.lock wanted)) strategies

end Relation

/-- Statement of a relation: its tree, the header of its rows, and the draft it was made in,
whose graph holds the tree. -/
structure Statement where
  tree : Tree
  header : Header
  draft : Draft

/-- Statement of a relation for a server. -/
def Relation.statement (r : Relation) (server : Server) (strategies : List Strategy) :
    Except Error Statement := do
  let (compiled?, d) ← (r.draft server strategies).run {}
  match compiled? with
  | some c =>
    let (tree, d) ← (Draft.node (.select c.select)).run d
    return ⟨tree, c.header, d⟩
  | none => throw (.notCompilable r.operation)

end SqlWright
