import ConfTree.Address
import ConfTree.CommandLine.Arguments
import ConfTree.CommandLine.Given
import ConfTree.CommandLine.Run
import ConfTree.CommandLine.Suggestion
import ConfTree.Configuration
import ConfTree.Declaration
import ConfTree.Eval.Cast
import ConfTree.Eval.Compute
import ConfTree.Eval.Evaluator
import ConfTree.Eval.Functions
import ConfTree.Eval.Host
import ConfTree.Eval.Operators
import ConfTree.Eval.Order
import ConfTree.Eval.Sequence
import ConfTree.Expr.Basic
import ConfTree.Expr.Grammar
import ConfTree.Expr.Reader
import ConfTree.Expr.Record
import ConfTree.Expr.Token
import ConfTree.Fault.Address
import ConfTree.Fault.Basic
import ConfTree.Fault.Construction
import ConfTree.Fault.Eval
import ConfTree.Fault.Report
import ConfTree.Files.Content
import ConfTree.Files.Opening
import ConfTree.Files.Path
import ConfTree.Files.Snapshot
import ConfTree.Files.Units
import ConfTree.Inspection
import ConfTree.Json.Read
import ConfTree.Json.Write
import ConfTree.Key
import ConfTree.Main
import ConfTree.Modifier.Apply
import ConfTree.Modifier.Factory
import ConfTree.Number.Basic
import ConfTree.Number.Decimal
import ConfTree.Number.Power
import ConfTree.Output.Format
import ConfTree.Output.Shape
import ConfTree.Overrides
import ConfTree.Proofs.Accord
import ConfTree.Proofs.Accord.Work
import ConfTree.Proofs.Addresses.Form
import ConfTree.Proofs.Addresses.Walk
import ConfTree.Proofs.Arithmetic
import ConfTree.Proofs.Ascent
import ConfTree.Proofs.Casts
import ConfTree.Proofs.CodePoints
import ConfTree.Proofs.Comprehensions
import ConfTree.Proofs.Copies.Declared
import ConfTree.Proofs.Copies.Entry
import ConfTree.Proofs.Copies.Exact
import ConfTree.Proofs.Copies.Extension
import ConfTree.Proofs.Copies.Fresh
import ConfTree.Proofs.Copies.Independence
import ConfTree.Proofs.Copies.Later
import ConfTree.Proofs.Copies.Law
import ConfTree.Proofs.Creation
import ConfTree.Proofs.Cycles.Attended
import ConfTree.Proofs.Cycles.Configuration
import ConfTree.Proofs.Cycles.Course
import ConfTree.Proofs.Cycles.Typed
import ConfTree.Proofs.Cycles.Work
import ConfTree.Proofs.Discipline
import ConfTree.Proofs.Discipline.Editing
import ConfTree.Proofs.Discipline.Evaluation
import ConfTree.Proofs.Discipline.Work
import ConfTree.Proofs.Edits
import ConfTree.Proofs.Equality
import ConfTree.Proofs.Judgement
import ConfTree.Proofs.Keys.Form
import ConfTree.Proofs.Keys.Pattern
import ConfTree.Proofs.Keys.Splitting
import ConfTree.Proofs.Limits
import ConfTree.Proofs.Location
import ConfTree.Proofs.Merging
import ConfTree.Proofs.Ordering
import ConfTree.Proofs.Overrides.Apply
import ConfTree.Proofs.Overrides.Below
import ConfTree.Proofs.Overrides.Edit
import ConfTree.Proofs.Overrides.Law
import ConfTree.Proofs.Overrides.Reading
import ConfTree.Proofs.Overrides.Resolve
import ConfTree.Proofs.Overrides.Settle
import ConfTree.Proofs.Planting
import ConfTree.Proofs.Progress
import ConfTree.Proofs.Progressions
import ConfTree.Proofs.Readings
import ConfTree.Proofs.Refinement
import ConfTree.Proofs.Refinement.Work
import ConfTree.Proofs.Remainders
import ConfTree.Proofs.Renaming.Actions
import ConfTree.Proofs.Renaming.Configurations
import ConfTree.Proofs.Renaming.Editing
import ConfTree.Proofs.Renaming.Evaluation
import ConfTree.Proofs.Renaming.Functions
import ConfTree.Proofs.Renaming.Known
import ConfTree.Proofs.Renaming.Objects
import ConfTree.Proofs.Renaming.Stores
import ConfTree.Proofs.Renaming.Values
import ConfTree.Proofs.Renaming.Work
import ConfTree.Proofs.Rounding
import ConfTree.Proofs.Runs
import ConfTree.Proofs.Scoping
import ConfTree.Proofs.Slices
import ConfTree.Proofs.Sorting
import ConfTree.Proofs.Syntax.Cut
import ConfTree.Proofs.Syntax.Display
import ConfTree.Proofs.Syntax.Ladder
import ConfTree.Proofs.Syntax.Numeral
import ConfTree.Proofs.Syntax.Outcome
import ConfTree.Proofs.Syntax.Primary
import ConfTree.Proofs.Syntax.Rendering
import ConfTree.Proofs.Syntax.Reparse
import ConfTree.Proofs.Syntax.Source
import ConfTree.Proofs.Syntax.Target
import ConfTree.Proofs.Syntax.Token
import ConfTree.Proofs.Syntax.WellFormed
import ConfTree.Proofs.Termination.Configuration
import ConfTree.Proofs.Termination.Grading
import ConfTree.Proofs.Termination.Overriding
import ConfTree.Proofs.Termination.Sowing
import ConfTree.Proofs.Termination.Spending
import ConfTree.Proofs.Termination.Stepwise
import ConfTree.Proofs.Termination.Work
import ConfTree.Proofs.Trails
import ConfTree.Proofs.Transforms
import ConfTree.Proofs.UnitNames.Paths
import ConfTree.Proofs.UnitNames.Refusal
import ConfTree.Proofs.Watch
import ConfTree.Proofs.WellFormed
import ConfTree.Proofs.WellFormed.Aside
import ConfTree.Proofs.WellFormed.Configuration
import ConfTree.Proofs.WellFormed.Growth
import ConfTree.Proofs.WellFormed.Replacing
import ConfTree.Proofs.WellFormed.Upkeep
import ConfTree.Proofs.WholeNumbers
import ConfTree.Registry
import ConfTree.Settings
import ConfTree.Settings.Sources
import ConfTree.Text.Basic
import ConfTree.Text.Blank
import ConfTree.Text.Case
import ConfTree.Text.CaseTable
import ConfTree.Text.Quote
import ConfTree.Tree.Action
import ConfTree.Tree.Content
import ConfTree.Tree.Edit
import ConfTree.Tree.Expression
import ConfTree.Tree.Invoke
import ConfTree.Tree.Navigate
import ConfTree.Tree.Outline
import ConfTree.Tree.Resolve
import ConfTree.Tree.Store
import ConfTree.Tree.Unit
import ConfTree.Value.Basic
import ConfTree.Value.Coercion
import ConfTree.Value.Display
import ConfTree.Value.Equality
import ConfTree.Value.Pairs
import ConfTree.Yaml.Block
import ConfTree.Yaml.Node
import ConfTree.Yaml.Place
import ConfTree.Yaml.Plain
import ConfTree.Yaml.Quoted
import ConfTree.Yaml.Read
import ConfTree.Yaml.Scalar
import ConfTree.Yaml.Style
import ConfTree.Yaml.Write
