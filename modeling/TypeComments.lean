import TypeComments.Assertion.Basic
import TypeComments.Assertion.Parse
import TypeComments.Assertion.Source
import TypeComments.Binding
import TypeComments.Check
import TypeComments.Comment
import TypeComments.Comment.Scan
import TypeComments.Diagnostic
import TypeComments.Directive
import TypeComments.Edit
import TypeComments.Findings
import TypeComments.Fix
import TypeComments.Host
import TypeComments.Line
import TypeComments.LineTable
import TypeComments.LineTable.Numbers
import TypeComments.LineTable.Search
import TypeComments.Location
import TypeComments.Options
import TypeComments.Proofs.Accounting
import TypeComments.Proofs.Assertion.Contributions
import TypeComments.Proofs.Assertion.Insertion
import TypeComments.Proofs.Assertion.OnePerLine
import TypeComments.Proofs.Assertion.Parse
import TypeComments.Proofs.Assertion.Records
import TypeComments.Proofs.Assertion.Returns
import TypeComments.Proofs.Binding
import TypeComments.Proofs.Binding.FirstNode
import TypeComments.Proofs.CaretBlock
import TypeComments.Proofs.CaretLines
import TypeComments.Proofs.CaretNesting
import TypeComments.Proofs.CaretRange
import TypeComments.Proofs.CaretRewrite
import TypeComments.Proofs.CaretTarget
import TypeComments.Proofs.CleanReport
import TypeComments.Proofs.Code
import TypeComments.Proofs.Comment
import TypeComments.Proofs.Comment.Scan
import TypeComments.Proofs.Comment.Standing
import TypeComments.Proofs.Directive.Grammar
import TypeComments.Proofs.Edit
import TypeComments.Proofs.Edit.Conflict
import TypeComments.Proofs.Edit.PastEnd
import TypeComments.Proofs.Edit.Splice
import TypeComments.Proofs.FixedCode
import TypeComments.Proofs.LineTable.Location
import TypeComments.Proofs.LineTable.Partition
import TypeComments.Proofs.LineTable.Search
import TypeComments.Proofs.Lines
import TypeComments.Proofs.Options
import TypeComments.Proofs.RoundTrip
import TypeComments.Proofs.SafeFixes
import TypeComments.Proofs.Satisfied
import TypeComments.Proofs.Snapshot.Calls
import TypeComments.Proofs.Snapshot.Convergence
import TypeComments.Proofs.Snapshot.Effect
import TypeComments.Proofs.Snapshot.Memory
import TypeComments.Proofs.Snapshot.Writing
import TypeComments.Proofs.Text.Bytes
import TypeComments.Proofs.Tree.Deepest
import TypeComments.Proofs.Tree.Growth
import TypeComments.Proofs.Tree.PreOrder
import TypeComments.Proofs.TypeText.Alignment
import TypeComments.Proofs.TypeText.Gaps
import TypeComments.Proofs.TypeText.Reading
import TypeComments.Proofs.TypeText.Symbols
import TypeComments.Proofs.TypeText.Words
import TypeComments.Proofs.Unmarked
import TypeComments.Reconciliation
import TypeComments.Report.Basic
import TypeComments.Report.Fixing
import TypeComments.Snapshot.Guard
import TypeComments.Snapshot.Store
import TypeComments.Snapshot.Update
import TypeComments.Span
import TypeComments.Text.Basic
import TypeComments.Text.Blank
import TypeComments.Tree.Basic
import TypeComments.Tree.Walk
import TypeComments.TypeText.Gaps
import TypeComments.TypeText.Match
import TypeComments.TypeText.ReadonlyArray
