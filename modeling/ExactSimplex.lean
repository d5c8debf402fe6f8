import ExactSimplex.CommandLine.Arguments
import ExactSimplex.CommandLine.FileTree
import ExactSimplex.CommandLine.ReadFailure
import ExactSimplex.CommandLine.Session
import ExactSimplex.Editor.Diagnostic
import ExactSimplex.Editor.Highlight
import ExactSimplex.Engine.Drive
import ExactSimplex.Engine.Failure
import ExactSimplex.Engine.Plan
import ExactSimplex.Engine.Run
import ExactSimplex.Explained.Pivoting
import ExactSimplex.Explained.Program
import ExactSimplex.Explained.Solution
import ExactSimplex.Json.Basic
import ExactSimplex.Json.Decode
import ExactSimplex.Json.Program
import ExactSimplex.Json.Tableau
import ExactSimplex.Json.Text
import ExactSimplex.Json.Trace
import ExactSimplex.LinearForm.Basic
import ExactSimplex.LinearForm.Text
import ExactSimplex.Main
import ExactSimplex.Numeral
import ExactSimplex.Pivoting.Entering
import ExactSimplex.Pivoting.Exchange
import ExactSimplex.Pivoting.Failure
import ExactSimplex.Pivoting.Leaving
import ExactSimplex.Pivoting.Ratio
import ExactSimplex.Pivoting.RowOperation
import ExactSimplex.Pivoting.Rule
import ExactSimplex.Pivoting.Start
import ExactSimplex.Program.Basic
import ExactSimplex.Program.Declarations
import ExactSimplex.Program.Relation
import ExactSimplex.Program.Text
import ExactSimplex.Proofs.Engine.Drive
import ExactSimplex.Proofs.Engine.Iteration
import ExactSimplex.Proofs.Engine.Reached
import ExactSimplex.Proofs.Engine.Termination
import ExactSimplex.Proofs.Engine.Trail
import ExactSimplex.Proofs.Engine.Improvement
import ExactSimplex.Proofs.LinearForm.Value
import ExactSimplex.Proofs.Pivoting.Bland
import ExactSimplex.Proofs.Pivoting.Choice
import ExactSimplex.Proofs.Pivoting.Exchange
import ExactSimplex.Proofs.Program.Feasible
import ExactSimplex.Proofs.Program.WellFormed
import ExactSimplex.Proofs.Solution.Optimality
import ExactSimplex.Proofs.Solution.Points
import ExactSimplex.Proofs.Solution.Reading
import ExactSimplex.Proofs.Solution.Unboundedness
import ExactSimplex.Proofs.Standard.Closing
import ExactSimplex.Proofs.Standard.Meaning
import ExactSimplex.Proofs.Tableau.Basis
import ExactSimplex.Proofs.Tableau.Columns
import ExactSimplex.Proofs.Tableau.Equation
import ExactSimplex.Proofs.Tableau.Exchange
import ExactSimplex.Proofs.Tableau.Layout
import ExactSimplex.Rational.Basic
import ExactSimplex.Rational.Literal
import ExactSimplex.Solution.Basic
import ExactSimplex.Solution.Reading
import ExactSimplex.Solve
import ExactSimplex.Source.Fault
import ExactSimplex.Source.Lexer
import ExactSimplex.Source.Reader
import ExactSimplex.Source.Rule
import ExactSimplex.Source.Token
import ExactSimplex.Standard.Form
import ExactSimplex.Standard.FreshName
import ExactSimplex.Tableau.Basic
import ExactSimplex.Tableau.Layout
import ExactSimplex.Tableau.Text
import ExactSimplex.Text.Blank
import ExactSimplex.Text.Line
import ExactSimplex.Text.Split
import ExactSimplex.Trace.Conversion
import ExactSimplex.Trace.Kind
import ExactSimplex.Trace.Report
import ExactSimplex.Trace.State
import ExactSimplex.Variable
import ExactSimplex.Proofs.Engine.Shown
import ExactSimplex.Proofs.Engine.Progress
import ExactSimplex.Proofs.Rational.Text
import ExactSimplex.Proofs.Source.Tokens
import ExactSimplex.Proofs.Source.Expression
import ExactSimplex.Proofs.LinearForm.Terms
import ExactSimplex.Proofs.Text.Line
import ExactSimplex.Proofs.Source.Lines
import ExactSimplex.Proofs.Program.Text
import ExactSimplex.Proofs.Source.RoundTrip
import ExactSimplex.Proofs.Source.Sound
import ExactSimplex.Proofs.Source.Reformat
import ExactSimplex.Proofs.Rational.Literal
import ExactSimplex.Proofs.Source.Lexemes
import ExactSimplex.Proofs.Except
import ExactSimplex.Proofs.Source.Grammar
import ExactSimplex.Proofs.Source.Derivation
import ExactSimplex.Proofs.Text.Character
import ExactSimplex.Proofs.Source.Forms
import ExactSimplex.Proofs.Source.Acceptance
import ExactSimplex.Proofs.Engine.Agreement
import ExactSimplex.Proofs.Mirror.Image
import ExactSimplex.Proofs.Mirror.Pivoting
import ExactSimplex.Proofs.Mirror.Run
import ExactSimplex.Proofs.Engine.Conversions
import ExactSimplex.Proofs.Engine.Runs
import ExactSimplex.Proofs.Engine.Inside
import ExactSimplex.Proofs.Engine.Limit
import ExactSimplex.Proofs.Engine.Replay
import ExactSimplex.Proofs.Engine.Nesting
import ExactSimplex.Proofs.Engine.Resuming
import ExactSimplex.Proofs.LinearForm.Stored
import ExactSimplex.Proofs.Json.RoundTrip
import ExactSimplex.Proofs.LinearForm.Equality
import ExactSimplex.Proofs.Json.Obtained
import ExactSimplex.Proofs.Text.Break
import ExactSimplex.Proofs.Source.Placement
import ExactSimplex.Proofs.Source.Cursor
import ExactSimplex.Proofs.Source.Tiling
import ExactSimplex.Proofs.Source.Gaps
import ExactSimplex.Proofs.Source.Rearrangement
import ExactSimplex.Proofs.Traversal
import ExactSimplex.Proofs.Guarded.Basic
import ExactSimplex.Proofs.Guarded.Tableau
import ExactSimplex.Proofs.Guarded.Pivoting
import ExactSimplex.Proofs.Guarded.Run
import ExactSimplex.Proofs.Pivoting.Record
import ExactSimplex.Proofs.Pivoting.Bound
import ExactSimplex.Proofs.Standard.Structure
import ExactSimplex.Proofs.Pivoting.Selection
import ExactSimplex.Proofs.Rational.Acceptance
import ExactSimplex.Proofs.Source.Located
import ExactSimplex.Proofs.Source.Shape
import ExactSimplex.Proofs.Source.Refusal
import ExactSimplex.Proofs.Editor.Diagnostic
import ExactSimplex.Proofs.Rational.Decimal
import ExactSimplex.Proofs.LinearForm.Algebra
import ExactSimplex.Proofs.Standard.Probing
