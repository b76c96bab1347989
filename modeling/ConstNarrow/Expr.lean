/-
**Constant expressions.** Expressions refer to their parts by number, so that a part may be shared
and may stand anywhere in the module.
-/
import ConstNarrow.Literal
import ConstNarrow.Operator.Basic

set_option autoImplicit false

namespace ConstNarrow

/-- The number of an expression in its module. -/
abbrev ExprId := Nat

/-- The number of a constant in its module. -/
abbrev ConstId := Nat

/-- The number of a scope in its module. -/
abbrev ScopeId := Nat

/-- An item of a list constructor. -/
inductive ListItem where
  | member (value : ExprId)
  /-- the members of another list -/
  | spread (operand : ExprId)
deriving DecidableEq, Repr

/-- A field of a record constructor. -/
inductive RecordField where
  | named (name : String) (value : ExprId)
  /-- a field whose name is the value of an expression -/
  | computed (key value : ExprId)
  /-- a field that has the name and the value of what it refers to -/
  | reference (expr : ExprId)
  /-- the fields of another record -/
  | spread (operand : ExprId)
deriving DecidableEq, Repr

/-- The forms of expressions. -/
inductive Expr where
  /-- a gap that is left where the text could not be understood -/
  | missing
  | literal (literal : Literal)
  /-- a name, perhaps one of another module -/
  | reference (source : Option String) (name : String)
  | list (items : List ListItem)
  | record (fields : List RecordField)
  | binary (op : BinaryOp) (lhs rhs : ExprId)
  | unary (op : UnaryOp) (operand : ExprId)
  | group (inner : ExprId)
  /-- a form that is never constant, with the words for it -/
  | unsupported (form : String)
deriving DecidableEq, Repr

/-- The expression of an item. -/
def ListItem.expr : ListItem → ExprId
  | .member value => value
  | .spread operand => operand

/-- The expressions of a field, a computed key first. -/
def RecordField.exprs : RecordField → List ExprId
  | .named _ value => [value]
  | .computed key value => [key, value]
  | .reference expr => [expr]
  | .spread operand => [operand]

/-- The parts of an expression in the order in which they are written. -/
def Expr.children : Expr → List ExprId
  | .list items => items.map ListItem.expr
  | .record fields => fields.flatMap RecordField.exprs
  | .binary _ lhs rhs => [lhs, rhs]
  | .unary _ operand => [operand]
  | .group inner => [inner]
  | .missing => []
  | .literal _ => []
  | .reference _ _ => []
  | .unsupported _ => []

end ConstNarrow
