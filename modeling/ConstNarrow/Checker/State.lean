/-
**The state of a check**, and the small operations on it.

A program is a module with what it imports and the settings. While it is checked, each constant is
untouched, being resolved or resolved, and each expression that was evaluated has a type. A
computation on the state may come to no end: an expression that contains itself has no type. All
recursion is bounded, and a computation that reaches the bound gives no result.
-/
import ConstNarrow.Module.Dependency
import ConstNarrow.Settings.Basic
import ConstNarrow.Table
import ConstNarrow.Validation
import ConstNarrow.Value

set_option autoImplicit false

namespace ConstNarrow

/-- What another module offers under a name. -/
inductive Export where
  /-- a constant with its final type -/
  | constant (ty : Ty)
  | other

/-- A module to check, the modules that it imports by their aliases, and the settings. -/
structure Program where
  source : Module
  imports : List (String × List (String × Export))
  settings : Settings

/-- The types of the operands and of the result with which an operator is used. -/
structure Signature where
  params : List Ty
  result : Ty

/-- How far a constant is. -/
inductive Status where
  | resolving
  | resolved (ty : Ty)

/-- What an expression is evaluated under: the type that is expected, if any, and the scope. -/
structure Frame where
  expected : Option Ty
  scope : ScopeId

/-- The frame with another expectation. -/
def Frame.expecting (frame : Frame) (expected : Option Ty) : Frame := { frame with expected }

/-- The state of a check. -/
structure Checker where
  status : Table Status
  exprTypes : Table Ty
  signatures : Table Signature
  values : Table Value
  journal : Journal
  /-- how many constants are being resolved because others refer to them -/
  depth : Nat
  /-- the value of the constant that is being validated -/
  anchor : Option ExprId

/-- A computation on the state, which may reach the bound of its recursion. -/
abbrev CheckM := StateT Checker Option

namespace Checker

/-- The state before anything is checked. -/
def start : Checker := ⟨.empty, .empty, .empty, .empty, .empty, 0, none⟩

/-- The result of a computation that has reached its bound: none. -/
def exhausted {α : Type} : CheckM α := fun _ => none

/-- Adds an event to the log. -/
def note (e : Event) : CheckM Unit := modify fun s => { s with journal := s.journal.note e }

/-- Reports a problem. -/
def report (location : ExprId) (problem : Problem) : CheckM Unit :=
  modify fun s => { s with journal := s.journal.report (.error location problem) }

/-- Reports a problem and gives the error type. -/
def fail (location : ExprId) (problem : Problem) : CheckM Ty := do
  report location problem
  pure .error

/-- The type of an expression so far. -/
def typeOf? (id : ExprId) : CheckM (Option Ty) := return (← get).exprTypes.get? id

/-- Sets the type of an expression. -/
def setType (id : ExprId) (ty : Ty) : CheckM Unit :=
  modify fun s => { s with exprTypes := s.exprTypes.insert id ty }

/-- Sets the signature of an operator. -/
def setSignature (id : ExprId) (signature : Signature) : CheckM Unit :=
  modify fun s => { s with signatures := s.signatures.insert id signature }

/-- Sets how far a constant is. -/
def setStatus (id : ConstId) (status : Status) : CheckM Unit :=
  modify fun s => { s with status := s.status.insert id status }

/-- Sets the value of a constant. -/
def setValue (id : ConstId) (value : Value) : CheckM Unit :=
  modify fun s => { s with values := s.values.insert id value }

/-- Runs a validation on the journal of the check, with its reports at the anchor. -/
def validation (p : Program) {α : Type} (v : Site → Validation α) :
    CheckM (Except NarrowError α) := do
  let s ← get
  let (result, journal) := (v ⟨s.anchor, p.settings.ambiguity⟩).run s.journal
  set { s with journal }
  pure result

/-- Runs a validation with its reports at the value of a constant. -/
def anchored (p : Program) {α : Type} (value : ExprId) (v : Site → Validation α) :
    CheckM (Except NarrowError α) := do
  let outer := (← get).anchor
  modify fun s => { s with anchor := some value }
  let result ← validation p v
  modify fun s => { s with anchor := outer }
  pure result

/-- The narrowed type; the log names what has no narrowing. -/
def narrow (ty : Ty) : CheckM Ty := do
  modify fun s => { s with journal := s.journal.noteAll (ty.withoutNarrowing.map .noNarrowing) }
  pure ty.narrowed

end Checker

end ConstNarrow
