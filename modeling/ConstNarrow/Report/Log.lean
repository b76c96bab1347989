/-
**The log**: what happened on the way, for whoever follows a run. Events are kept as such; their
wording is made when they are shown.
-/
import ConstNarrow.Report.Diagnostic

set_option autoImplicit false

namespace ConstNarrow

/-- How much of the log is shown. -/
inductive LogLevel where
  | error
  | warn
  | debug
  | trace
deriving DecidableEq, Repr

/-- How a committed type can fail to fit the expression that it is committed to. -/
inductive Violation where
  | listAgainst (expr : ExprId) (target : Ty)
  | noMember (expr : ExprId) (index : Nat) (target : Ty)
  | recordAgainst (expr : ExprId) (target : Ty)
  | noField (expr : ExprId) (name : Option String) (target : Ty)
  | noReading (current target : Ty) (expr : ExprId)

/-- The things that are logged. -/
inductive Event where
  | violated (violation : Violation)
  | rejectingCycle (names : List String)
  | resolving (name : String)
  | resolved (name : String) (ty : Ty)
  | noSingleValue (name : String) (ty : Ty)
  | noNarrowing (ty : Ty)
  | noDefault (ty : Ty)
  | ambiguous (candidates : Ty)
  | droppedDiagnostic (diagnostic : Diagnostic)
  | dependencyGraph (nodes edges : Nat)
  | erroneousList (expr : ExprId)
  | prunedOperand (expr : ExprId) (readings : Nat) (kept : Ty)
  | notFolded (op : BinaryOp) (lhs rhs : Singleton)

namespace LogLevel

/-- The word in front of an entry. -/
def label : LogLevel → String
  | .error => "ERROR"
  | .warn => "WARN"
  | .debug => "DEBUG"
  | .trace => "TRACE"

/-- The position of a level: the lower, the more urgent. -/
def index : LogLevel → Nat
  | .error => 0
  | .warn => 1
  | .debug => 2
  | .trace => 3

end LogLevel

/-- An expression as it is named in the log. -/
def exprLabel (id : ExprId) : String := "Idx::<Expr>(" ++ Text.renderInt id ++ ")"

/-- A name that may be missing, as it is shown in the log. -/
def nameLabel : Option String → String
  | some name => "Some(" ++ Text.quoted name ++ ")"
  | none => "None"

/-- The wording of a violation. -/
def Violation.message : Violation → String
  | .listAgainst expr target =>
    "list " ++ exprLabel expr ++ " resolved against " ++ Problem.ticked target.render
  | .noMember expr index target =>
    "list " ++ exprLabel expr ++ " has no member " ++ Text.renderInt index ++ " in "
      ++ Problem.ticked target.render
  | .recordAgainst expr target =>
    "record " ++ exprLabel expr ++ " resolved against " ++ Problem.ticked target.render
  | .noField expr name target =>
    "record " ++ exprLabel expr ++ " has no field " ++ nameLabel name ++ " in "
      ++ Problem.ticked target.render
  | .noReading current target expr =>
    "no reading of " ++ Problem.ticked current.render ++ " fits " ++ Problem.ticked target.render
      ++ " at " ++ exprLabel expr

namespace Event

/-- The level of an event. -/
def level : Event → LogLevel
  | .violated _ => .error
  | .rejectingCycle _ => .warn
  | .resolving _ => .debug
  | .resolved _ _ => .debug
  | .noSingleValue _ _ => .debug
  | .noNarrowing _ => .debug
  | .noDefault _ => .debug
  | .ambiguous _ => .debug
  | .droppedDiagnostic _ => .trace
  | .dependencyGraph _ _ => .trace
  | .erroneousList _ => .trace
  | .prunedOperand _ _ _ => .trace
  | .notFolded _ _ _ => .trace

/-- The wording of an event. -/
def message : Event → String
  | .violated violation => "constant resolver invariant violated: " ++ violation.message
  | .rejectingCycle names => "rejecting constant cycle: " ++ Problem.cyclePath names
  | .resolving name => "resolving constant " ++ Problem.ticked name
  | .resolved name ty => "resolved constant " ++ Problem.ticked name ++ ": " ++ ty.render
  | .noSingleValue name ty =>
    "constant " ++ Problem.ticked name ++ " has type " ++ Problem.ticked ty.render
      ++ " but no single value"
  | .noNarrowing ty => "no narrowing for " ++ ty.render
  | .noDefault ty => (Problem.noDefault ty).message
  | .ambiguous candidates =>
    "ambiguous narrowing to " ++ Problem.ticked candidates.render ++ " outside of a constant"
  | .droppedDiagnostic diagnostic => "dropping muted diagnostic: " ++ diagnostic.render
  | .dependencyGraph nodes edges =>
    "const dependency graph: " ++ Text.renderInt nodes ++ " nodes, " ++ Text.renderInt edges
      ++ " edges"
  | .erroneousList expr => "list " ++ exprLabel expr ++ " has erroneous members"
  | .prunedOperand expr readings kept =>
    "pruned operand " ++ exprLabel expr ++ " from " ++ Text.renderInt readings ++ " to "
      ++ kept.render ++ " readings"
  | .notFolded op lhs rhs =>
    op.symbol ++ " does not fold for " ++ lhs.render ++ " and " ++ rhs.render

/-- The entry as it is shown. -/
def render (e : Event) : String := e.level.label ++ " " ++ e.message

/-- The entries of a log that are shown at a level. -/
def shownAt (level : LogLevel) (events : List Event) : List String :=
  (events.filter fun e => e.level.index ≤ level.index).map render

end Event

end ConstNarrow
