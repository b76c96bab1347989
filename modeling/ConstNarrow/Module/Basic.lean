/-
**Modules**: expressions, constants, and the scopes that say what a name means where.

Scopes form a tree. A name is looked up from a scope outwards, and the innermost definition counts.
The parent of a scope is made before it, so a walk outwards takes no more steps than there are
scopes.
-/
import ConstNarrow.Expr

set_option autoImplicit false

namespace ConstNarrow

/-- What a name is bound to. -/
inductive Binding where
  | constant (id : ConstId)
  | variableName
  | functionName
deriving DecidableEq, Repr

/-- One scope: the scope around it, and its own definitions. -/
structure Scope where
  parent : Option ScopeId
  definitions : List (String × Binding)
deriving DecidableEq, Repr

/-- What a name stands for. -/
inductive Lookup where
  | bound (binding : Binding)
  /-- the name `_`, which never names anything -/
  | wildcard
  | notFound
deriving DecidableEq, Repr

/-- A constant: where it stands, its value and the type that it is declared with, if any. Names in
its value are looked up from its scope. -/
structure Constant where
  name : String
  scope : ScopeId
  value : ExprId
  declared : Option Ty

/-- A module. -/
structure Module where
  exprs : Array Expr
  constants : Array Constant
  scopes : Array Scope

namespace Scope

/-- Binds a name, in place of what it may have been bound to in this scope. -/
def define (scope : Scope) (name : String) (binding : Binding) : Scope :=
  { scope with definitions := scope.definitions.filter (·.1 != name) ++ [(name, binding)] }

/-- What a name is bound to in this scope. -/
def get? (scope : Scope) (name : String) : Option Binding := scope.definitions.lookup name

theorem lookup_rebind (definitions : List (String × Binding)) (name : String) (binding : Binding)
    (other : String) :
    (definitions.filter (·.1 != name) ++ [(name, binding)]).lookup other =
      if other = name then some binding else definitions.lookup other := by
  induction definitions with
  | nil =>
    by_cases h : other = name
    · simp [h]
    · have hb : (other == name) = false := by simpa using h
      simp [h, List.lookup_cons, hb]
  | cons entry rest ih =>
    obtain ⟨key, value⟩ := entry
    by_cases hk : key = name
    · subst hk
      by_cases h : other = key
      · simpa [h] using ih
      · have hb : (other == key) = false := by simpa using h
        simpa [h, List.lookup_cons, hb] using ih
    · by_cases h : other = key
      · subst h
        simp [hk]
      · have hb : (other == key) = false := by simpa using h
        simpa [hk, List.lookup_cons, hb] using ih

/-- A definition hides an earlier one of its name and leaves all other names alone. -/
theorem get?_define (scope : Scope) (name : String) (binding : Binding) (other : String) :
    (scope.define name binding).get? other =
      if other = name then some binding else scope.get? other :=
  lookup_rebind scope.definitions name binding other

end Scope

namespace Module

/-! ## Building a module -/

/-- The scope around all others. -/
def root : ScopeId := 0

/-- The module that holds nothing but its outermost scope. -/
def empty : Module := ⟨#[], #[], #[⟨none, []⟩]⟩

/-- Adds a scope inside another one. -/
def addScope (m : Module) (parent : ScopeId) : Module :=
  { m with scopes := m.scopes.push ⟨some parent, []⟩ }

/-- Adds an expression. -/
def addExpr (m : Module) (expr : Expr) : Module := { m with exprs := m.exprs.push expr }

/-- Binds a name in a scope. -/
def define (m : Module) (scope : ScopeId) (name : String) (binding : Binding) : Module :=
  { m with scopes := m.scopes.modify scope (·.define name binding) }

/-- Declares a constant. -/
def addConstant (m : Module) (constant : Constant) : Module :=
  { m with constants := m.constants.push constant }.define constant.scope constant.name
    (.constant m.constants.size)

/-! ## Parts of a module -/

/-- An expression by its number. A number without an expression is a gap. -/
def expr (m : Module) (id : ExprId) : Expr := m.exprs[id]?.getD .missing

/-- The numbers of all constants. -/
def constIds (m : Module) : List ConstId := List.range m.constants.size

/-- The first constant of a name, in whatever scope. -/
def constantNamed? (m : Module) (name : String) : Option ConstId :=
  m.constIds.find? fun id => m.constants[id]?.any (·.name == name)

/-- The scopes from the given one outwards, at most `n` of them. -/
def scopesFrom (m : Module) : Nat → ScopeId → List Scope
  | 0, _ => []
  | n + 1, id =>
    match m.scopes[id]? with
    | none => []
    | some scope => scope :: (scope.parent.map (m.scopesFrom n)).getD []

/-- The scopes from the given one outwards. -/
def ancestors (m : Module) (id : ScopeId) : List Scope := m.scopesFrom m.scopes.size id

/-- The name that stands for anything and names nothing. -/
def wildcardName : String := "_"

/-- Looks a name up from a scope outwards. -/
def lookup (m : Module) (scope : ScopeId) (name : String) : Lookup :=
  if name = wildcardName then .wildcard
  else
    match (m.ancestors scope).findSome? (·.get? name) with
    | some binding => .bound binding
    | none => .notFound

/-- Every name that can be seen from a scope, innermost first. -/
def visibleNames (m : Module) (scope : ScopeId) : List String :=
  (m.ancestors scope).flatMap fun s => s.definitions.map Prod.fst

/-- The name that a field takes from what it refers to. -/
def fieldName? (m : Module) (reference : ExprId) : Option String :=
  match m.expr reference with
  | .reference _ name => some name
  | _ => none

end Module

end ConstNarrow
