import Constitutive.Behaviour.Description
import Constitutive.Behaviour.Document
import Constitutive.Behaviour.Fault
import Constitutive.Behaviour.Hypothesis
import Constitutive.Behaviour.Role
import Constitutive.Behaviour.Setting
import Constitutive.Behaviour.Tensor
import Constitutive.Behaviour.Variable
import Constitutive.Code.Line
import Constitutive.Code.Stmt
import Constitutive.Compiler
import Constitutive.Decimal.Binary
import Constitutive.Decimal.Numeral
import Constitutive.Decimal.Shortest
import Constitutive.Decimal.Text
import Constitutive.Json.Basic
import Constitutive.Json.Parser
import Constitutive.Json.Printer
import Constitutive.Json.Record
import Constitutive.Json.Token
import Constitutive.Numeric.Difference
import Constitutive.Numeric.Elimination
import Constitutive.Numeric.Inverse
import Constitutive.Numeric.Newton
import Constitutive.Numeric.Polynomial
import Constitutive.Numeric.Scalar
import Constitutive.Numeric.Scaling
import Constitutive.Numeric.Sized
import Constitutive.Numeric.Step
import Constitutive.Numeric.Vec
import Constitutive.Proofs.Behaviour.Document
import Constitutive.Proofs.Closed
import Constitutive.Proofs.Code.Execution
import Constitutive.Proofs.Code.Frames
import Constitutive.Proofs.Code.IndexLoops
import Constitutive.Proofs.Code.Insertions
import Constitutive.Proofs.Code.Output
import Constitutive.Proofs.Code.References
import Constitutive.Proofs.Code.Rows
import Constitutive.Proofs.Compiler
import Constitutive.Proofs.Decimal.Nearest
import Constitutive.Proofs.Decimal.Numeral
import Constitutive.Proofs.Decimal.Shortest
import Constitutive.Proofs.DeclarationOrder
import Constitutive.Proofs.Faults
import Constitutive.Proofs.Hypotheses
import Constitutive.Proofs.Json.Record
import Constitutive.Proofs.Nesting
import Constitutive.Proofs.Numeric.Affine
import Constitutive.Proofs.Numeric.Difference
import Constitutive.Proofs.Numeric.Discrepancy
import Constitutive.Proofs.Numeric.DogLeg
import Constitutive.Proofs.Numeric.Double
import Constitutive.Proofs.Numeric.Elimination
import Constitutive.Proofs.Numeric.Evaluations
import Constitutive.Proofs.Numeric.Inverse
import Constitutive.Proofs.Numeric.Newton
import Constitutive.Proofs.Numeric.SecantUpdate
import Constitutive.Proofs.Numeric.Sums
import Constitutive.Proofs.OffsetNames
import Constitutive.Proofs.Reindentation
import Constitutive.Proofs.Reports
import Constitutive.Proofs.Scheme.Changes
import Constitutive.Proofs.Scheme.CodeText
import Constitutive.Proofs.Scheme.Draft
import Constitutive.Proofs.Scheme.Exchange
import Constitutive.Proofs.Scheme.Finished
import Constitutive.Proofs.Scheme.Numbers
import Constitutive.Proofs.Scheme.Origins
import Constitutive.Proofs.Scheme.Parameters
import Constitutive.Proofs.Scheme.Requests
import Constitutive.Proofs.Scheme.Runs
import Constitutive.Proofs.Scheme.Scaling
import Constitutive.Proofs.Scheme.ZeroFactors
import Constitutive.Proofs.Section.Blocks
import Constitutive.Proofs.Section.Inverse
import Constitutive.Proofs.Section.Jacobian
import Constitutive.Proofs.Section.Loop
import Constitutive.Proofs.Section.Orderly
import Constitutive.Proofs.Solver.Secant
import Constitutive.Proofs.Text.Access
import Constitutive.Proofs.Text.Braces
import Constitutive.Proofs.Text.Bytes
import Constitutive.Proofs.Text.Lexeme
import Constitutive.Proofs.Text.Page
import Constitutive.Proofs.Text.Runs
import Constitutive.Proofs.Text.Solid
import Constitutive.Proofs.Unknowns.Layout
import Constitutive.Proofs.Unknowns.Location
import Constitutive.Proofs.Unknowns.MadeNames
import Constitutive.Proofs.Unknowns.Names
import Constitutive.Proofs.Unknowns.Roster
import Constitutive.Proofs.Unknowns.Splits
import Constitutive.Proofs.Unknowns.Tiling
import Constitutive.Proofs.Widths
import Constitutive.Scheme.CodeText
import Constitutive.Scheme.Document
import Constitutive.Scheme.Draft
import Constitutive.Scheme.Factors
import Constitutive.Scheme.Limits
import Constitutive.Scheme.Notice
import Constitutive.Scheme.Tolerances
import Constitutive.Section.Blueprint
import Constitutive.Section.Difference
import Constitutive.Section.Inverse
import Constitutive.Section.Kind
import Constitutive.Section.Loop
import Constitutive.Solver.Builtin
import Constitutive.Solver.Strategy
import Constitutive.Text.Blank
import Constitutive.Text.Lexeme
import Constitutive.Text.Page
import Constitutive.Unknowns.Derivative
import Constitutive.Unknowns.Layout
import Constitutive.Unknowns.Roster
