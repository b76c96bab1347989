/-
**Dependencies between constants**, and the groups in which constants depend on each other.

A constant depends on another if an expression within its value is a plain name that stands for the
other one, seen from the first one's scope. Names of other modules make no dependency, since those
modules are settled. A group is cyclic if its constants lie on a cycle of dependencies.
-/
import ConstNarrow.Module.Basic
import ConstNarrow.Module.Graph

set_option autoImplicit false

namespace ConstNarrow

/-- Constants that depend on each other, in the order of their declaration. -/
structure ConstGroup where
  members : List ConstId
  isCyclic : Bool
deriving DecidableEq, Repr

namespace Module

/-- The constant that an expression refers to from a scope. -/
def referredConstant? (m : Module) (scope : ScopeId) (id : ExprId) : Option ConstId :=
  match m.expr id with
  | .reference none name =>
    match m.lookup scope name with
    | .bound (.constant target) => some target
    | _ => none
  | _ => none

/-- The constants that an expression and its parts refer to, down to a given depth: the expression
itself first, then its parts from the last to the first. -/
def referredWithin (m : Module) (scope : ScopeId) : Nat → ExprId → List ConstId
  | 0, _ => []
  | n + 1, id =>
    (m.referredConstant? scope id).toList
      ++ (m.expr id).children.reverse.flatMap (m.referredWithin scope n)

/-- The constants that a constant depends on, with repetitions. Expressions that do not contain
themselves are no deeper than there are expressions. -/
def dependencies (m : Module) (id : ConstId) : List ConstId :=
  match m.constants[id]? with
  | none => []
  | some constant => m.referredWithin constant.scope m.exprs.size constant.value

/-- All dependencies, from the first constant to the last. -/
def dependencyEdges (m : Module) : List (ConstId × ConstId) :=
  m.constIds.flatMap fun id => (m.dependencies id).map fun target => (id, target)

/-- Whether a constant depends on itself directly. -/
def dependsOnItself (m : Module) (id : ConstId) : Bool := (m.dependencies id).contains id

/-- For each constant those that it depends on, each once. -/
def dependencyTable (m : Module) : Array (List ConstId) :=
  (m.constIds.map fun id => (m.dependencies id).eraseDups).toArray

/-- The graph of dependencies. Those found last are visited first. -/
def dependencyGraph (m : Module) : Graph :=
  let table := m.dependencyTable
  ⟨m.constants.size, fun id => (table[id]?.getD []).reverse⟩

/-- The number of dependencies, without repetitions. -/
def dependencyCount (m : Module) : Nat := m.dependencyTable.toList.flatten.length

/-- The groups of constants, each after those that it depends on. -/
def groups (m : Module) : List ConstGroup :=
  m.dependencyGraph.components.map fun members =>
    ⟨members, 1 < members.length || members.any m.dependsOnItself⟩

end Module

end ConstNarrow
