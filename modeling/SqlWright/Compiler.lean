import SqlWright.Command.OfTree
import SqlWright.Dom.Graph.Simplify
import SqlWright.Relation.Compile
import SqlWright.Spelling.OfDialect
import SqlWright.Text.Escaped

/-!
# Compilers

All that compiling for one server takes: what the server can do, how it spells
statements, how relations are turned into selects, and the simplifications that
statements undergo before they are written.
-/

namespace SqlWright

/-- Compiler for one server. -/
structure Compiler where
  server : Server
  spelling : Spelling
  types : TypeNames
  strategies : List Strategy
  simplifications : List Simplification

namespace Compiler

/-- Compiler for a version of a server that is supported. -/
def build (dialect : Dialect) (version : Version) (simplifications : List Simplification) :
    Except Error Compiler :=
  return {
    server := ← Server.build dialect version
    spelling := dialect.spelling version
    types := dialect.typeNames version
    strategies := Strategy.standard
    simplifications }

/-- Compiler for a version of a server with the strategies and the simplifications there are. -/
def standard (dialect : Dialect) (version : Version) : Compiler where
  server := .capabilities dialect version
  spelling := dialect.spelling version
  types := dialect.typeNames version
  strategies := Strategy.standard
  simplifications := Simplification.standard

/-- It is the one that is built for a version that is supported. -/
theorem build_standard {dialect : Dialect} {version : Version}
    (supported : version.isSince dialect.oldest) :
    build dialect version Simplification.standard = .ok (standard dialect version) := by
  simp only [build, Server.build, if_pos supported]
  rfl

/-- Command of the statement under a node. -/
def statementCommand (c : Compiler) (g : Graph) (root : Ref) : Except Error Command := do
  match g.simplify root c.simplifications with
  | (_, .error e) => throw e
  | (g, .ok _) => (g.tree root).command c.spelling c.types

/-- Command of a relation. -/
def command (c : Compiler) (r : Relation) : Except Error Command := do
  let s ← r.statement c.server c.strategies
  c.statementCommand s.draft.graph s.tree.id

/-- Names of the layers of the spelling. -/
def layerNames (c : Compiler) : List String := c.spelling.layers.map (·.name)

/-- Description of the compiler: server, layers of the spelling, strategies. -/
def text (c : Compiler) : String :=
  "Driver \x7b server: " ++ Text.quoted c.server.text ++ ", translator: " ++
    Text.quotedList c.layerNames ++ ", compilers: " ++
    Text.quotedList (c.strategies.map (·.name)) ++ " \x7d"

end Compiler

end SqlWright
