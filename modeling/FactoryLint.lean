import FactoryLint.Main
import FactoryLint.Settings.Document
import FactoryLint.Proofs.Rewrite.Apply
import FactoryLint.Proofs.Rewrite.Emit
import FactoryLint.Proofs.Php.Term
import FactoryLint.Proofs.Php.Reach
import FactoryLint.Proofs.Php.Literals
import FactoryLint.Proofs.Rule.Edits
import FactoryLint.Proofs.Edit.Canonical
import FactoryLint.Proofs.Php.Stops
import FactoryLint.Proofs.Php.Nesting
import FactoryLint.Proofs.Rule.Containers
import FactoryLint.Proofs.Edit.Splice
import FactoryLint.Proofs.Rule.Applied
import FactoryLint.Proofs.Text.Shift
import FactoryLint.Proofs.Php.Patch
import FactoryLint.Proofs.Php.Naming
import FactoryLint.Proofs.Php.Renamed
import FactoryLint.Proofs.Php.PatchReach
import FactoryLint.Proofs.Rule.Patched
import FactoryLint.Proofs.Project.Once
import FactoryLint.Proofs.Classes.Ancestors
import FactoryLint.Proofs.Classes.Sharing
import FactoryLint.Proofs.Php.Declared
import FactoryLint.Proofs.Classes.Enclosing
import FactoryLint.Proofs.Rule.Gate
import FactoryLint.Proofs.Rule.Nested
import FactoryLint.Proofs.Php.Misread
import FactoryLint.Proofs.Arena.Acyclic
import FactoryLint.Proofs.Rewrite.Settled
import FactoryLint.Proofs.Rewrite.Again
import FactoryLint.Proofs.Rewrite.Replaced
import FactoryLint.Proofs.Rewrite.Sequence
import FactoryLint.Proofs.Text.Gaps
import FactoryLint.Proofs.Php.Recorded
import FactoryLint.Proofs.Php.ClassLines
import FactoryLint.Proofs.Php.Layout.Parallel
import FactoryLint.Proofs.Php.Layout.Nested
import FactoryLint.Proofs.Php.Layout.Expr
import FactoryLint.Proofs.Php.Layout.Statement
import FactoryLint.Proofs.Php.Layout.Declaration
import FactoryLint.Proofs.Php.Layout.Laid
import FactoryLint.Proofs.Php.Layout.Written
import FactoryLint.Proofs.Php.Layout.Imported
import FactoryLint.Proofs.Php.Layout.Invariance
import FactoryLint.Proofs.Edit.Faults
import FactoryLint.Proofs.Edit.Simultaneous
import FactoryLint.Proofs.Text.ByteOrder
import FactoryLint.Proofs.Edit.Relabelled
import FactoryLint.Proofs.Edit.AnyOrder
import FactoryLint.Proofs.Rewrite.Depth
import FactoryLint.Proofs.Rewrite.Printed
import FactoryLint.Proofs.Path
import FactoryLint.Proofs.Project.Files
import FactoryLint.Proofs.Report.Append
import FactoryLint.Proofs.Report.Totals
import FactoryLint.Proofs.CommandLine.Outcome
import FactoryLint.Proofs.CommandLine.Effect
import FactoryLint.Proofs.Classes.Indexed
import FactoryLint.Proofs.Tree.Place
import FactoryLint.Proofs.Arena.Preorder
import FactoryLint.Proofs.Php.Order
import FactoryLint.Proofs.Rule.Growth
import FactoryLint.Proofs.Classes.Spelling
import FactoryLint.Proofs.Php.Enclosing
import FactoryLint.Proofs.Project.Findings
import FactoryLint.Proofs.Project.Excluded
import FactoryLint.Proofs.Project.Beneath
import FactoryLint.Proofs.CommandLine.Collected
import FactoryLint.Proofs.Arena.Forest
import FactoryLint.Proofs.Arena.Refilled
import FactoryLint.Proofs.Php.Spans
import FactoryLint.Proofs.Rewrite.Ends
import FactoryLint.Proofs.Rewrite.Forest
