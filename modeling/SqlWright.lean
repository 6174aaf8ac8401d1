import SqlWright.Catalog
import SqlWright.Dom.Graph.Copy
import SqlWright.Json.Printer
import SqlWright.Main
import SqlWright.Plan.Printer
import SqlWright.Proofs.Relation.Names
import SqlWright.Proofs.Relation.Wrapping
import SqlWright.Proofs.Drafting.Writable
import SqlWright.Proofs.Command.Decided
import SqlWright.Proofs.Meaning.Interpretation
import SqlWright.Proofs.Meaning.Statement
import SqlWright.Proofs.Meaning.Expression
import SqlWright.Proofs.Meaning.Outputs
import SqlWright.Proofs.Meaning.Preservation
import SqlWright.Proofs.Meaning.Sorting
import SqlWright.Proofs.Drafting.Expressions
import SqlWright.Proofs.Paging.Numbering
import SqlWright.Proofs.Paging.Counts
import SqlWright.Proofs.Paging.Ordering
import SqlWright.Proofs.Paging.NumberedRows
import SqlWright.Proofs.Paging.Chains
import SqlWright.Proofs.Paging.Limits
import SqlWright.Proofs.Meaning.OuterJoin
import SqlWright.Proofs.Aggregates.Placement
import SqlWright.Proofs.Aggregates.Selects
import SqlWright.Proofs.Scopes.Statements
import SqlWright.Proofs.Simplification.Values
import SqlWright.Proofs.Meaning.NullSafety
import SqlWright.Proofs.Command.ParameterNames
import SqlWright.Proofs.Command.Settling
import SqlWright.Proofs.Command.Resolving
import SqlWright.Proofs.Plan.Parameters
import SqlWright.Proofs.Copying.Images
import SqlWright.Proofs.Copying.Isomorphism
import SqlWright.Proofs.Copying.Independence
import SqlWright.Proofs.Locks.Passing
import SqlWright.Proofs.Locks.TableHints
import SqlWright.Proofs.Lexing.Statements
import SqlWright.Proofs.Editing.Kinds
import SqlWright.Proofs.Server.Capabilities
import SqlWright.Proofs.Spelling.Fallthrough
import SqlWright.Proofs.Spelling.Patterns
import SqlWright.Proofs.Spelling.Versions
import SqlWright.Proofs.Operators.Commands
import SqlWright.Proofs.Operators.Expressions
import SqlWright.Proofs.Lexing.Showing
import SqlWright.Proofs.Locks.Commands
import SqlWright.Proofs.Plan.Documents
import SqlWright.Proofs.Simplification.Repeated
import SqlWright.Proofs.Ordering.Distinct
import SqlWright.Proofs.Ordering.SimplifiedKeys
import SqlWright.Proofs.Lexing.Uncommented
import SqlWright.Proofs.Command.Collected
import SqlWright.Proofs.Settings.ConnectionStrings
import SqlWright.Proofs.Server.VersionTexts
import SqlWright.Proofs.Ordering.Projections
import SqlWright.Proofs.Editing.Links
import SqlWright.Proofs.Walks.Stack
import SqlWright.Proofs.Command.Frozen
