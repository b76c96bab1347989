import ConstNarrow.Primitive
import ConstNarrow.Text.Quoted
import ConstNarrow.Text.Numeral
import ConstNarrow.Binary64.Text
import ConstNarrow.Decimal.Arithmetic
import ConstNarrow.Decimal.Text
import ConstNarrow.Singleton
import ConstNarrow.Operator.Fold
import ConstNarrow.Ty.Basic
import ConstNarrow.Ty.Render
import ConstNarrow.Ty.Assignable
import ConstNarrow.Ty.Narrowed
import ConstNarrow.Ty.Default
import ConstNarrow.Ty.Numeric
import ConstNarrow.Literal
import ConstNarrow.Value
import ConstNarrow.Expr
import ConstNarrow.Module.Basic
import ConstNarrow.Module.Graph
import ConstNarrow.Module.Dependency
import ConstNarrow.Report.Suggestion
import ConstNarrow.Report.Diagnostic
import ConstNarrow.Report.Log
import ConstNarrow.Report.Journal
import ConstNarrow.Settings.Document
import ConstNarrow.Settings.Basic
import ConstNarrow.Validation
import ConstNarrow.Table
import ConstNarrow.Checker.State
import ConstNarrow.Checker.Commit
import ConstNarrow.Checker.Evaluate
import ConstNarrow.Checker.Resolve
import ConstNarrow.Proofs.Components
import ConstNarrow.Proofs.Dependency
import ConstNarrow.Proofs.Concrete
import ConstNarrow.Proofs.DependencyOrder
import ConstNarrow.Proofs.FinalTypes
import ConstNarrow.Proofs.OnDemand
import ConstNarrow.Proofs.OrderIndependence
import ConstNarrow.Proofs.Locality
import ConstNarrow.Proofs.Likeness
import ConstNarrow.Proofs.Sessions
import ConstNarrow.Proofs.Trees
import ConstNarrow.Proofs.Refinement
import ConstNarrow.Proofs.Validated
import ConstNarrow.Proofs.Inference
import ConstNarrow.Proofs.Footprint
import ConstNarrow.Proofs.TreeEvaluation
import ConstNarrow.Proofs.SingleDomain
import ConstNarrow.Proofs.Committed
import ConstNarrow.Proofs.Targets
import ConstNarrow.Proofs.TreeCommit
import ConstNarrow.Proofs.ForestCheck
import ConstNarrow.Proofs.Passages
import ConstNarrow.Proofs.CommittedConstants
import ConstNarrow.Proofs.Positions
import ConstNarrow.Proofs.CommitVisits
import ConstNarrow.Proofs.ConstantPositions
import ConstNarrow.Proofs.Grouping
import ConstNarrow.Proofs.Termination
import ConstNarrow.Proofs.ValuesPassOn
import ConstNarrow.Proofs.Pruning
import ConstNarrow.Proofs.PrunedValidation
import ConstNarrow.Proofs.Outcomes
import ConstNarrow.Proofs.Reports
import ConstNarrow.Proofs.PrunedCheck
import ConstNarrow.Proofs.ValidationReports
import ConstNarrow.Proofs.NumericPriority
import ConstNarrow.Proofs.Giving
import ConstNarrow.Proofs.Revalidation
import ConstNarrow.Proofs.Ambiguity
import ConstNarrow.Proofs.Aliases
import ConstNarrow.Proofs.Narrowing
import ConstNarrow.Proofs.SameSources
import ConstNarrow.Proofs.Unions
import ConstNarrow.Proofs.NamedUnions
import ConstNarrow.Proofs.DecimalRounding
import ConstNarrow.Proofs.DecimalArithmetic
import ConstNarrow.Proofs.DecimalRange
import ConstNarrow.Proofs.DecimalText
import ConstNarrow.Proofs.IntegerLiterals
import ConstNarrow.Proofs.WordArithmetic
import ConstNarrow.Proofs.OperatorTable
import ConstNarrow.Proofs.ConstantValues
import ConstNarrow.Proofs.Filling
import ConstNarrow.Proofs.Contagion
import ConstNarrow.Proofs.Merging
import ConstNarrow.Proofs.Reordering
import ConstNarrow.Proofs.EditDistance
