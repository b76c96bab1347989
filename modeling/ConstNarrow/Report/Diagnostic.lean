/-
**Diagnostics**: what is reported about an expression.

A diagnostic has a problem, the expression that it is about, and a severity. A problem says exactly
what is wrong; its code is the coarse class that a caller may tell apart.
-/
import ConstNarrow.Expr
import ConstNarrow.Ty.Render
import ConstNarrow.Report.Suggestion

set_option autoImplicit false

namespace ConstNarrow

/-- How serious a report is. -/
inductive Severity where
  | error
  | warning
deriving DecidableEq, Repr

/-- The classes of problems. -/
inductive ErrorCode where
  | notAConstantExpression
  | undefinedSymbol
  | undefinedModule
  | incompatibleTypes
  | invalidConstExpression
  | ambiguousType
  | outOfRange
  | duplicateKey
  | invalidListConstructorElementType
deriving DecidableEq, Repr

/-- What the operand of a spread has to be. -/
inductive SpreadKind where
  | tuple
  | record
deriving DecidableEq, Repr

/-- What can be wrong with an expression. -/
inductive Problem where
  | notAConstant (name : String)
  | unsupported (form : String)
  | selfReference (name : String)
  | resolutionTooDeep (name : String) (limit : Nat)
  | constantCycle (names : List String)
  | undefinedSymbol (name : String) (suggestion : Option String)
  | undefinedModule (moduleName : String)
  | incompatibleTypes (expected found : Ty)
  | spreadMismatch (expected : SpreadKind) (found : Ty)
  | invalidOperands (op : String) (operands : List Ty)
  | foldFailed (op : String) (operands : List Ty)
  | ambiguousType (candidates : Ty)
  | outOfRange (text : String)
  | duplicateKey (key : String)
  | noDefault (ty : Ty)

/-- A problem at an expression. -/
structure Diagnostic where
  location : ExprId
  severity : Severity
  problem : Problem

namespace Severity

/-- The word in front of a report. -/
def label : Severity → String
  | .error => "error"
  | .warning => "warning"

end Severity

namespace ErrorCode

/-- The name of the class. -/
def name : ErrorCode → String
  | .notAConstantExpression => "NotAConstantExpression"
  | .undefinedSymbol => "UndefinedSymbol"
  | .undefinedModule => "UndefinedModule"
  | .incompatibleTypes => "IncompatibleTypes"
  | .invalidConstExpression => "InvalidConstExpression"
  | .ambiguousType => "AmbiguousType"
  | .outOfRange => "OutOfRange"
  | .duplicateKey => "DuplicateKey"
  | .invalidListConstructorElementType => "InvalidListConstructorElementType"

end ErrorCode

/-- The word for what a spread needs. -/
def SpreadKind.name : SpreadKind → String
  | .tuple => "tuple"
  | .record => "record"

namespace Problem

/-- The class of a problem. -/
def code : Problem → ErrorCode
  | .notAConstant _ => .notAConstantExpression
  | .unsupported _ => .notAConstantExpression
  | .selfReference _ => .notAConstantExpression
  | .resolutionTooDeep _ _ => .notAConstantExpression
  | .constantCycle _ => .notAConstantExpression
  | .undefinedSymbol _ _ => .undefinedSymbol
  | .undefinedModule _ => .undefinedModule
  | .incompatibleTypes _ _ => .incompatibleTypes
  | .spreadMismatch _ _ => .incompatibleTypes
  | .invalidOperands _ _ => .invalidConstExpression
  | .foldFailed _ _ => .invalidConstExpression
  | .ambiguousType _ => .ambiguousType
  | .outOfRange _ => .outOfRange
  | .duplicateKey _ => .duplicateKey
  | .noDefault _ => .invalidListConstructorElementType

/-- The stable identifier of a problem. -/
def identifier : Problem → String
  | .notAConstant _ => "const_eval::not_a_constant"
  | .unsupported _ => "const_eval::unsupported_syntax"
  | .selfReference _ => "const_eval::self_reference"
  | .resolutionTooDeep _ _ => "const_eval::resolution_too_deep"
  | .constantCycle _ => "const_eval::constant_cycle"
  | .undefinedSymbol _ _ => "const_eval::undefined_symbol"
  | .undefinedModule _ => "const_eval::undefined_module"
  | .incompatibleTypes _ _ => "const_eval::incompatible_types"
  | .spreadMismatch _ _ => "const_eval::spread_mismatch"
  | .invalidOperands _ _ => "const_eval::invalid_operands"
  | .foldFailed _ _ => "const_eval::fold_failed"
  | .ambiguousType _ => "const_eval::ambiguous_type"
  | .outOfRange _ => "const_eval::out_of_range"
  | .duplicateKey _ => "const_eval::duplicate_key"
  | .noDefault _ => "const_eval::invalid_list_constructor_element_type"

/-- A text set off as a piece of the program. -/
def ticked (text : String) : String := "`" ++ text ++ "`"

/-- The types of operands, as they are listed. -/
def renderOperands (operands : List Ty) : String :=
  " and ".intercalate (operands.map fun ty => ticked ty.render)

/-- The names along a cycle. -/
def cyclePath (names : List String) : String := " -> ".intercalate names

/-- The explanation that is shown. -/
def message : Problem → String
  | .notAConstant name => ticked name ++ " is not a constant"
  | .unsupported form => form ++ " is not allowed in a constant expression"
  | .selfReference name => ticked name ++ " refers to itself while it is being resolved"
  | .resolutionTooDeep name limit =>
    "resolving " ++ ticked name ++ " nests deeper than " ++ Text.renderInt limit ++ " constants"
  | .constantCycle names => "constants form a cycle: " ++ cyclePath names
  | .undefinedSymbol name _ => "undefined symbol " ++ ticked name
  | .undefinedModule moduleName => "undefined module " ++ ticked moduleName
  | .incompatibleTypes expected found =>
    "incompatible types: expected " ++ ticked expected.render ++ ", found " ++ ticked found.render
  | .spreadMismatch expected found =>
    "spread operand must be a " ++ expected.name ++ ", found " ++ ticked found.render
  | .invalidOperands op operands =>
    "operator " ++ ticked op ++ " is not defined for " ++ renderOperands operands
  | .foldFailed op operands =>
    ticked op ++ " cannot be evaluated at compile time for " ++ renderOperands operands
  | .ambiguousType candidates =>
    "ambiguous type: " ++ ticked candidates.render ++ " could be any of its members"
  | .outOfRange text => ticked text ++ " is out of range for every numeric type it could be"
  | .duplicateKey key => "duplicate key " ++ ticked key
  | .noDefault ty =>
    "cannot fill missing members of type " ++ ticked ty.render ++ ": it has no default value"

/-- The advice that goes with a problem. -/
def help? : Problem → Option String
  | .undefinedSymbol _ (some name) => some (Suggestion.render name)
  | _ => none

end Problem

namespace Diagnostic

/-- A report of full severity. -/
def error (location : ExprId) (problem : Problem) : Diagnostic := ⟨location, .error, problem⟩

/-- The report as it is shown. -/
def render (d : Diagnostic) : String := d.severity.label ++ ": " ++ d.problem.message

end Diagnostic

end ConstNarrow
