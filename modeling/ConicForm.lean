import ConicForm.Axis
import ConicForm.Backend.Clarabel
import ConicForm.Backend.Osqp
import ConicForm.Block
import ConicForm.Block.OfNode
import ConicForm.Block.Rules
import ConicForm.Block.Value
import ConicForm.Cone
import ConicForm.Cone.Dims
import ConicForm.Cone.Grouping
import ConicForm.Decimal.Numeral
import ConicForm.Decimal.Shortest
import ConicForm.Diagnosis
import ConicForm.Double
import ConicForm.Failure
import ConicForm.Grid
import ConicForm.Journal
import ConicForm.Keyed
import ConicForm.Label
import ConicForm.Layout
import ConicForm.Leaves
import ConicForm.Matrix
import ConicForm.Matrix.Rows
import ConicForm.Node
import ConicForm.Node.Build
import ConicForm.Node.Meaning
import ConicForm.Numbers
import ConicForm.Numbers.Reading
import ConicForm.Options
import ConicForm.Point
import ConicForm.Program
import ConicForm.Proofs.Acceptance
import ConicForm.Proofs.AffineMaps
import ConicForm.Proofs.Arrays
import ConicForm.Proofs.Assembly
import ConicForm.Proofs.BlockSums
import ConicForm.Proofs.Builders
import ConicForm.Proofs.CachedCalls
import ConicForm.Proofs.Coefficients
import ConicForm.Proofs.ColumnEntries
import ConicForm.Proofs.Columns
import ConicForm.Proofs.Compilation
import ConicForm.Proofs.Completeness
import ConicForm.Proofs.ConeMembership
import ConicForm.Proofs.Constants
import ConicForm.Proofs.ConstraintRows
import ConicForm.Proofs.Copies
import ConicForm.Proofs.Entries
import ConicForm.Proofs.ExtendedRationals
import ConicForm.Proofs.FirstRefusals
import ConicForm.Proofs.Forms
import ConicForm.Proofs.IndexedBlocks
import ConicForm.Proofs.LinearRows
import ConicForm.Proofs.ListRules
import ConicForm.Proofs.Locality
import ConicForm.Proofs.MalformedProblems
import ConicForm.Proofs.Offsets
import ConicForm.Proofs.Packing
import ConicForm.Proofs.Places
import ConicForm.Proofs.PlainAssembly
import ConicForm.Proofs.Rationals
import ConicForm.Proofs.ReachedVariables
import ConicForm.Proofs.Refusals
import ConicForm.Proofs.Regularity
import ConicForm.Proofs.RenamedBlocks
import ConicForm.Proofs.RenamedLayouts
import ConicForm.Proofs.RenamedPrograms
import ConicForm.Proofs.Reordering
import ConicForm.Proofs.ReportedValue
import ConicForm.Proofs.Reshaping
import ConicForm.Proofs.Residuals
import ConicForm.Proofs.Results
import ConicForm.Proofs.RowLayout
import ConicForm.Proofs.RowPartition
import ConicForm.Proofs.RuleImages
import ConicForm.Proofs.Rules
import ConicForm.Proofs.SeenVariables
import ConicForm.Proofs.Selections
import ConicForm.Proofs.Senses
import ConicForm.Proofs.Sharing
import ConicForm.Proofs.Slack
import ConicForm.Proofs.Slices
import ConicForm.Proofs.SolverAgreement
import ConicForm.Proofs.Stacking
import ConicForm.Proofs.StatedRows
import ConicForm.Proofs.Subnodes
import ConicForm.Proofs.Sums
import ConicForm.Proofs.Tilings
import ConicForm.Proofs.Values
import ConicForm.Proofs.VariableWalk
import ConicForm.Proofs.Variables
import ConicForm.Proofs.ZeroResidual
import ConicForm.Report
import ConicForm.Residual
import ConicForm.Shape
import ConicForm.Shape.Argument
import ConicForm.Slice
import ConicForm.Solution
import ConicForm.Solve
import ConicForm.Sparse
import ConicForm.Tensor
import ConicForm.Tensor.Broadcast
import ConicForm.Tensor.Product
import ConicForm.Tensor.Rows
import ConicForm.Tensor.Select
import ConicForm.Tensor.Text
import ConicForm.Text.Printable
import ConicForm.Text.Quoted
import ConicForm.Total
import ConicForm.Value
import ConicForm.Value.Number
import ConicForm.Value.Order
import ConicForm.Value.Printer
import ConicForm.Variable
import ConicForm.Variable.Occurrences
import ConicForm.Proofs.WindowedStacks
import ConicForm.Proofs.LabelledRows
import ConicForm.Proofs.Arrangements
import ConicForm.Proofs.MovedRows
import ConicForm.Proofs.AddressMaps
import ConicForm.Proofs.ConeGroups
import ConicForm.Proofs.Scalars
import ConicForm.Proofs.BlockAlgebra
