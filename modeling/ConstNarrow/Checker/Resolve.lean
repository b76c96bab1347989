/-
**Checking a module**: all constants are resolved, each group after those that it depends on, and
cyclic groups are rejected as a whole. A constant may also be resolved on its own; what it depends
on is then resolved on the way.
-/
import ConstNarrow.Checker.Evaluate

set_option autoImplicit false

namespace ConstNarrow

/-- What the log says about the dependencies of a module. -/
def Module.groupingEvent (m : Module) : Event :=
  .dependencyGraph m.constants.size m.dependencyCount

namespace Checker

/-- Resolves a constant and gives its final type. -/
def resolve (p : Program) (id : ConstId) : CheckM Ty := resolveWith p (evaluate p) id

/-- Rejects a cycle of constants, unless one of them has been met before. -/
def refuseCycle (p : Program) (members : List ConstId) : CheckM Unit := do
  let s ← get
  if members.any s.status.contains then pure ()
  else do
    let constants := members.filterMap fun id => p.source.constants[id]?
    let names := constants.map Constant.name
    note (.rejectingCycle names)
    members.forM fun id => setStatus id (.resolved .error)
    match constants with
    | first :: _ => report first.value (.constantCycle names)
    | [] => pure ()

/-- Resolves the constants of a group, each by `resolve`. -/
def resolveGroup (p : Program) (resolve : ConstId → CheckM Ty) (group : ConstGroup) : CheckM Unit :=
  if group.isCyclic then refuseCycle p group.members
  else group.members.forM fun id => do
    let _ ← resolve id

/-- Resolves all constants of the module, each by `resolve`, group after group. -/
def resolveGroups (p : Program) (resolve : ConstId → CheckM Ty) : CheckM Unit := do
  note p.source.groupingEvent
  p.source.groups.forM (resolveGroup p resolve)

/-- Resolves all constants of the module. -/
def resolveAll (p : Program) : CheckM Unit := resolveGroups p (resolve p)

/-- Validates an inferred type against an expected one. -/
def validType (p : Program) (expected inferred : Ty) : CheckM (Except NarrowError Ty) :=
  validation p fun site => validate site expected inferred

/-- The default of a type. -/
def fillValue (p : Program) (ty : Ty) : CheckM (Except NarrowError Ty) :=
  validation p fun site => Validation.fill site ty

end Checker

/-- What a check finds out. -/
structure CheckResult where
  constTypes : Table Ty
  exprTypes : Table Ty
  signatures : Table Signature
  values : Table Value
  diagnostics : List Diagnostic

/-- The findings of a check. A constant that is not resolved has no type. -/
def Checker.finish (s : Checker) : CheckResult where
  constTypes := s.status.filterMap fun
    | .resolved ty => some ty
    | .resolving => none
  exprTypes := s.exprTypes
  signatures := s.signatures
  values := s.values
  diagnostics := s.journal.diagnostics.toList

/-- The state after all constants of a program are resolved. -/
def Program.run (p : Program) : Option Checker := ((Checker.resolveAll p).run .start).map Prod.snd

/-- Checks a program. There is a result unless an expression contains itself. -/
def Program.check (p : Program) : Option CheckResult := p.run.map Checker.finish

end ConstNarrow
