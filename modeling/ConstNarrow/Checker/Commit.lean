/-
**Committing** a type to an expression: once the type of a constant is settled, it is pushed down
into its value, and every part that still has several readings keeps the one that the type implies.

The parts of a list and of a record get the types of their places. The operands of an operator get
the type of the result, since both lie in one domain. What does not fit can only come from a type
that was not made for the expression; it is logged, and the rest goes on.
-/
import ConstNarrow.Checker.State

set_option autoImplicit false

namespace ConstNarrow.Checker

/-! ## One expression -/

/-- The primitive by which a reading is chosen. -/
def leadingBase? : Ty → Option Primitive
  | .primitive p => some p
  | .finite (s :: _) => some s.base
  | _ => none

/-- Whether a type is a single value in the domain of a primitive. -/
def inDomain (tag : Primitive) (ty : Ty) : Bool := ty.singleton?.any (·.base.domain == tag.domain)

/-- The reading that a target implies: the member in its domain, or else the first that is
assignable to it. -/
def reading? (members : List Ty) (target : Ty) : Option Ty :=
  ((leadingBase? target).bind fun tag => members.find? (inDomain tag)).or
    (members.find? fun member => member.isAssignable target)

/-- Reduces the type of an expression to the reading that a target implies. A single value is
replaced by the same value under another base. -/
def commitReading (id : ExprId) (target : Ty) : CheckM Unit := do
  match ← typeOf? id with
  | some (.finite values) =>
    match (Ty.finite values).singleton?, target.singleton? with
    | some have_, some want =>
      if have_.sameValue want && have_.base != want.base then setType id target
    | _, _ => pure ()
  | some (.union members) =>
    match reading? members target with
    | some member => setType id member
    | none => note (.violated (.noReading (.union members) target id))
  | _ => pure ()

/-- The base of a single value as a type, and any other type as it is. -/
def widened (ty : Ty) : Ty :=
  match ty.singleton? with
  | some s => .primitive s.base
  | none => ty

/-- Settles the signature of an operator, if it has one: from here on it shows the types of its
operands and its own. -/
def settleSignature (id : ExprId) (operands : List ExprId) : CheckM Unit :=
  modify fun s =>
    let base (e : ExprId) := ((s.exprTypes.get? e).map widened).getD .error
    if s.signatures.contains id then
      { s with signatures := s.signatures.insert id ⟨operands.map base, base id⟩ }
    else s

/-- How many members a spread list contributes. -/
def spreadLength (operand : ExprId) : CheckM Nat := do
  match (← typeOf? operand).map Ty.effective with
  | some (.tuple members _) => pure members.length
  | _ => pure 0

/-- The string that a type stands for, if it is one. -/
def keyOf? (ty : Ty) : Option String := ty.effective.singleton?.bind (·.value.string?)

/-- The name that a computed key has. -/
def keyName? (key : ExprId) : CheckM (Option String) := return (← typeOf? key).bind keyOf?

/-! ## Lists and records -/

/-- Commits the members of a tuple to the items of a list, from a position on. -/
def commitItems (recurse : ExprId → Ty → CheckM Unit) (id : ExprId) (target : Ty)
    (position? : Nat → Option Ty) : Nat → List ListItem → CheckM Unit
  | _, [] => pure ()
  | index, .member value :: items => do
    match position? index with
    | some ty => recurse value ty
    | none => note (.violated (.noMember id index target))
    commitItems recurse id target position? (index + 1) items
  | index, .spread operand :: items => do
    let length ← spreadLength operand
    commitItems recurse id target position? (index + length) items

/-- The names that computed keys write. -/
def keyNames : List RecordField → CheckM (List String)
  | [] => pure []
  | .computed key _ :: fields => do
    let name ← keyName? key
    let names ← keyNames fields
    pure (name.toList ++ names)
  | _ :: fields => keyNames fields

/-- Commits the type of a field's place to its value. -/
def commitPlace (recurse : ExprId → Ty → CheckM Unit) (id : ExprId) (target : Ty)
    (fields : Fields none) (name : Option String) (value : ExprId) : CheckM Unit :=
  match name.bind fields.get? with
  | some field => recurse value field.ty
  | none => note (.violated (.noField id name target))

/-- Commits to a field its place, unless a computed key has taken it: then its value keeps a
reading of its own. -/
def commitWritten (recurse : ExprId → Ty → CheckM Unit) (id : ExprId) (target : Ty)
    (fields : Fields none) (overwritten : List String) (name : Option String) (value : ExprId) :
    CheckM Unit := do
  if name.any overwritten.contains then
    match ← typeOf? value with
    | some own => do
      let ty ← narrow own
      recurse value ty
    | none => pure ()
  else commitPlace recurse id target fields name value

/-- Commits the fields of a record to the fields of a constructor. What a spread contributes is
settled already. -/
def commitFields (p : Program) (recurse : ExprId → Ty → CheckM Unit) (id : ExprId) (target : Ty)
    (fields : Fields none) (overwritten : List String) : List RecordField → CheckM Unit
  | [] => pure ()
  | field :: rest => do
    match field with
    | .named name value => commitWritten recurse id target fields overwritten (some name) value
    | .computed key value => do
      let name ← keyName? key
      commitPlace recurse id target fields name value
    | .reference value =>
      commitWritten recurse id target fields overwritten (p.source.fieldName? value) value
    | .spread _ => pure ()
    commitFields p recurse id target fields overwritten rest

/-! ## All expressions -/

/-- Commits a type, looked through, to one expression; `recurse` commits types to its parts. -/
def commitStep (p : Program) (recurse : ExprId → Ty → CheckM Unit) (id : ExprId) (target : Ty) :
    CheckM Unit := do
  if target.isError then pure ()
  else
    match p.source.expr id with
    | .missing => pure ()
    | .unsupported _ => pure ()
    | .literal _ => commitReading id target
    | .reference _ _ => commitReading id target
    | .list items =>
      match target with
      | .tuple members rest => do
        commitItems recurse id target (Ty.position? members rest) 0 items
        setType id target
      | _ => note (.violated (.listAgainst id target))
    | .record fields =>
      match target with
      | .record targetFields _ _ => do
        let overwritten ← keyNames fields
        commitFields p recurse id target targetFields overwritten fields
        setType id target
      | _ => note (.violated (.recordAgainst id target))
    | .binary _ lhs rhs => do
      recurse lhs target
      recurse rhs target
      commitReading id target
      settleSignature id [lhs, rhs]
    | .unary _ operand => do
      recurse operand target
      commitReading id target
      settleSignature id [operand]
    | .group inner => do
      recurse inner target
      commitReading id target

/-- Commits a type to an expression that nests no deeper than the first argument says. -/
def commitWithin (p : Program) : Nat → ExprId → Ty → CheckM Unit
  | 0, _, _ => exhausted
  | n + 1, id, ty => commitStep p (commitWithin p n) id ty.effective

/-- Commits a type to an expression. -/
def commit (p : Program) (id : ExprId) (ty : Ty) : CheckM Unit :=
  commitWithin p (p.source.exprs.size + 1) id ty

end ConstNarrow.Checker
