import CandidateSearch.Compile
import CandidateSearch.Decimal.Arithmetic
import CandidateSearch.Decimal.Basic
import CandidateSearch.Decimal.Binary
import CandidateSearch.Decimal.Elementary
import CandidateSearch.Decimal.Text
import CandidateSearch.Fault
import CandidateSearch.Grammar.Annotation
import CandidateSearch.Grammar.Cursor
import CandidateSearch.Grammar.Expression
import CandidateSearch.Grammar.Module
import CandidateSearch.Grammar.Statement
import CandidateSearch.Library.Loading
import CandidateSearch.Library.Logged
import CandidateSearch.Library.Sources
import CandidateSearch.Listing.Expr
import CandidateSearch.Listing.Lines
import CandidateSearch.Listing.Names
import CandidateSearch.Listing.Program
import CandidateSearch.Log
import CandidateSearch.Number.Digits
import CandidateSearch.Number.Shortest
import CandidateSearch.Number.Text
import CandidateSearch.Plan.Basic
import CandidateSearch.Plan.Eval
import CandidateSearch.Plan.Manifest
import CandidateSearch.Plan.OfSchedule
import CandidateSearch.Resolved.Basic
import CandidateSearch.Resolved.OfSyntax
import CandidateSearch.Schedule.Blocks
import CandidateSearch.Schedule.Order
import CandidateSearch.Schedule.Phase
import CandidateSearch.Search.Generator
import CandidateSearch.Search.Journal
import CandidateSearch.Search.Machine
import CandidateSearch.Search.Script
import CandidateSearch.Search.Solutions
import CandidateSearch.Search.Job
import CandidateSearch.Source.Document
import CandidateSearch.Source.Problem
import CandidateSearch.Source.Span
import CandidateSearch.Store
import CandidateSearch.Syntax.Expr
import CandidateSearch.Syntax.Module
import CandidateSearch.Syntax.Ty
import CandidateSearch.Text.Hidden
import CandidateSearch.Text.Json
import CandidateSearch.Text.Quoted
import CandidateSearch.Token.Basic
import CandidateSearch.Token.Scan
import CandidateSearch.Value
import CandidateSearch.Proofs.Schedule.Ordering
import CandidateSearch.Proofs.Schedule.Joining
import CandidateSearch.Proofs.Schedule.WriteBeforeRead
import CandidateSearch.Proofs.Schedule.BeforeTests
import CandidateSearch.Proofs.Schedule.Renumbering
import CandidateSearch.Proofs.Schedule.Finishing
import CandidateSearch.Proofs.Schedule.Rescheduling
import CandidateSearch.Proofs.Search.Direct
import CandidateSearch.Proofs.Search.Refinement
import CandidateSearch.Proofs.Declarative.Lowering
import CandidateSearch.Proofs.Declarative.Planning
import CandidateSearch.Proofs.Declarative.Branches
import CandidateSearch.Proofs.Declarative.Enumeration
import CandidateSearch.Proofs.Declarative.Entry
import CandidateSearch.Proofs.Search.Finished
import CandidateSearch.Proofs.Declarative.Placing
import CandidateSearch.Proofs.Declarative.Correctness
import CandidateSearch.Proofs.Grammar.Quiet
import CandidateSearch.Proofs.Grammar.Whole
import CandidateSearch.Proofs.Compiling.Lowered
import CandidateSearch.Proofs.Compiling.Placeholders
import CandidateSearch.Proofs.Compiling.WellFormed
import CandidateSearch.Proofs.Search.InRange
import CandidateSearch.Proofs.Grammar.Scopes
import CandidateSearch.Proofs.Compiling.Checks
import CandidateSearch.Proofs.Compiling.Names
import CandidateSearch.Proofs.Search.Acts
import CandidateSearch.Proofs.Search.Derivation
import CandidateSearch.Proofs.Search.Leftovers
import CandidateSearch.Proofs.Search.Constraints
import CandidateSearch.Proofs.Search.Outcomes
import CandidateSearch.Proofs.Search.Inputs
import CandidateSearch.Proofs.Search.References
import CandidateSearch.Proofs.Library.Closure
import CandidateSearch.Proofs.Token.Rules
import CandidateSearch.Proofs.Token.Lossless
import CandidateSearch.Proofs.Typing.Soundness
import CandidateSearch.Proofs.Grammar.Derivation
import CandidateSearch.Proofs.Grammar.Reading
import CandidateSearch.Proofs.Grammar.Phrases
import CandidateSearch.Proofs.Grammar.Arguments
import CandidateSearch.Proofs.Grammar.Sources
import CandidateSearch.Proofs.Schedule.Pruning
import CandidateSearch.Proofs.Listing.Conversions
import CandidateSearch.Proofs.Search.Footprint
import CandidateSearch.Proofs.Listing.Names
import CandidateSearch.Proofs.Listing.Operands
import CandidateSearch.Proofs.Listing.Clashes
import CandidateSearch.Proofs.Compiling.Stages
import CandidateSearch.Proofs.Search.Ranges
import CandidateSearch.Proofs.Grammar.RoundTrip
import CandidateSearch.Proofs.Grammar.WrittenTypes
import CandidateSearch.Proofs.Compiling.ManifestTypes
import CandidateSearch.Proofs.Decimal.Operations
import CandidateSearch.Proofs.Decimal.Quotients
import CandidateSearch.Proofs.Decimal.Remainders
import CandidateSearch.Proofs.Decimal.Powers
import CandidateSearch.Proofs.Decimal.Signs
import CandidateSearch.Proofs.Search.Limits
import CandidateSearch.Proofs.Grammar.Progress
import CandidateSearch.Proofs.Grammar.Unbounded
import CandidateSearch.Proofs.Grammar.Located
import CandidateSearch.Proofs.Source.Lines
import CandidateSearch.Proofs.Source.Pointers
