import VersionRange.CommandLine.Invocation
import VersionRange.CommandLine.Report
import VersionRange.Datum
import VersionRange.Decimal.Shortest
import VersionRange.Expression
import VersionRange.Expression.Parser
import VersionRange.Expression.Progress
import VersionRange.Failure
import VersionRange.Formula
import VersionRange.Limits
import VersionRange.Literal
import VersionRange.Lookahead
import VersionRange.Main
import VersionRange.Proofs.BoundText
import VersionRange.Proofs.BuildOrder
import VersionRange.Proofs.BuildSorts
import VersionRange.Proofs.Characters
import VersionRange.Proofs.Comparisons
import VersionRange.Proofs.Completeness
import VersionRange.Proofs.Completions
import VersionRange.Proofs.Composition
import VersionRange.Proofs.Concatenation
import VersionRange.Proofs.Coverage
import VersionRange.Proofs.Cursors
import VersionRange.Proofs.Cuts
import VersionRange.Proofs.Depth
import VersionRange.Proofs.Diagnosis
import VersionRange.Proofs.Drafts
import VersionRange.Proofs.Evaluation
import VersionRange.Proofs.Expectations
import VersionRange.Proofs.ExpressionText
import VersionRange.Proofs.Failures
import VersionRange.Proofs.Faults
import VersionRange.Proofs.FullVersions
import VersionRange.Proofs.Grammar
import VersionRange.Proofs.Increments
import VersionRange.Proofs.LabelText
import VersionRange.Proofs.Labels
import VersionRange.Proofs.LeastBounds
import VersionRange.Proofs.Locality
import VersionRange.Proofs.Lookaheads
import VersionRange.Proofs.Nesting
import VersionRange.Proofs.NestingLimit
import VersionRange.Proofs.Numerals
import VersionRange.Proofs.Outcomes
import VersionRange.Proofs.Precedence
import VersionRange.Proofs.Printing
import VersionRange.Proofs.Queries
import VersionRange.Proofs.Reading
import VersionRange.Proofs.Reports
import VersionRange.Proofs.Reprinting
import VersionRange.Proofs.Rereading
import VersionRange.Proofs.Respacing
import VersionRange.Proofs.Scanning
import VersionRange.Proofs.Shorthands
import VersionRange.Proofs.Snapshots
import VersionRange.Proofs.SortKeys
import VersionRange.Proofs.Soundness
import VersionRange.Proofs.StableSorts
import VersionRange.Proofs.Successors
import VersionRange.Proofs.Truncation
import VersionRange.Proofs.VersionSets
import VersionRange.Proofs.VersionText
import VersionRange.Shorthand
import VersionRange.Sorting
import VersionRange.Text.Blank
import VersionRange.Text.DecimalDigit
import VersionRange.Text.Fields
import VersionRange.Text.Numeral
import VersionRange.Text.Plain
import VersionRange.Text.Printable
import VersionRange.Text.Quoted
import VersionRange.Token
import VersionRange.Token.Cursor
import VersionRange.Token.Tokenization
import VersionRange.Version.Basic
import VersionRange.Version.BuildOrder
import VersionRange.Version.Diagnosis
import VersionRange.Version.Draft
import VersionRange.Version.Fault
import VersionRange.Version.Grammar
import VersionRange.Version.Identifier
import VersionRange.Version.Increment
import VersionRange.Version.Label
import VersionRange.Version.Order
import VersionRange.Version.Parser
import VersionRange.Version.SortKey
import VersionRange.Version.Sorting
import VersionRange.Version.Writing
import VersionRange.VersionSet
