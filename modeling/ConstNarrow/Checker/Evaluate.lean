/-
**Evaluation**: the type of a constant expression from the bottom up.

A number may have several readings, and its type is then a union of single values; operators are
tried on all combinations of the readings of their operands. A problem is reported where it is met
and gives the error type, which every expression around it takes over. An expression is evaluated
once: its type is kept, and asking again gives the same.

Evaluation goes from an expression to its parts, and at a name to the value of another constant,
which has to be resolved first. Each function here takes the evaluation of other expressions, or
what names of constants are given, as an argument; `evaluateWithin` closes the circle, with a bound
on the nesting.
-/
import ConstNarrow.Checker.Commit
import ConstNarrow.Operator.Fold

set_option autoImplicit false

namespace ConstNarrow.Checker

/-- The evaluation of an expression in a frame. -/
abbrev Evaluator := ExprId → Frame → CheckM Ty

/-- What is given for a constant to the expression that names it. -/
abbrev Referrer := ExprId → ConstId → CheckM Ty

/-! ## Resolving a constant -/

/-- The final type of a constant, given the inferred type of its value: validated against the
declared type, or else narrowed, and then committed to the value. -/
def settle (p : Program) (value : ExprId) (declared : Option Ty) (inferred : Ty) : CheckM Ty := do
  if inferred.isError then pure .error
  else
    let result : Except NarrowError Ty ←
      match declared with
      | some expected => do
        let result ← anchored p value fun site => validate site expected inferred
        -- a mismatch is silent so far; anything else has been reported where it was met
        if result matches .error .mismatch then
          report value (.incompatibleTypes expected inferred)
        pure result
      | none => do
        let ty ← narrow inferred
        pure (.ok ty)
    match result with
    | .error _ => pure .error
    | .ok ty =>
      unless ty.isError do commit p value ty
      pure ty

/-- Resolves a constant, unless that has been done or is under way. -/
def resolveWith (p : Program) (eval : Evaluator) (id : ConstId) : CheckM Ty := do
  match (← get).status.get? id, p.source.constants[id]? with
  | some (.resolved ty), _ => pure ty
  | some .resolving, _ => pure .error
  | none, none => pure .error
  | none, some constant => do
    note (.resolving constant.name)
    setStatus id .resolving
    let inferred ← eval constant.value ⟨constant.declared, constant.scope⟩
    let ty ← settle p constant.value constant.declared inferred
    match Value.ofTy? ty with
    | some value => setValue id value
    | none => unless ty.isError do note (.noSingleValue constant.name ty)
    note (.resolved constant.name ty)
    setStatus id (.resolved ty)
    pure ty

/-! ## Names -/

/-- The type of another constant of the module, which is resolved first if nothing has asked for
it. Resolution may nest to a certain depth only. -/
def referConstant (p : Program) (eval : Evaluator) : Referrer := fun id target => do
  let s ← get
  let name := ((p.source.constants[target]?).map Constant.name).getD ""
  match s.status.get? target with
  | some (.resolved ty) => pure ty
  | some .resolving => fail id (.selfReference name)
  | none =>
    if p.settings.maxDepth ≤ s.depth then fail id (.resolutionTooDeep name p.settings.maxDepth)
    else do
      modify fun s => { s with depth := s.depth + 1 }
      let ty ← resolveWith p eval target
      modify fun s => { s with depth := s.depth - 1 }
      pure ty

/-- The type of a name of this module. The wildcard stands for anything. -/
def evalName (p : Program) (refer : Referrer) (id : ExprId) (name : String) (scope : ScopeId) :
    CheckM Ty :=
  match p.source.lookup scope name with
  | .bound (.constant target) => refer id target
  | .bound _ => fail id (.notAConstant name)
  | .wildcard => pure .anydata
  | .notFound =>
    fail id (.undefinedSymbol name (Suggestion.closest? name (p.source.visibleNames scope)))

/-- The type of a name of an imported module. -/
def evalImported (p : Program) (id : ExprId) (moduleName name : String) : CheckM Ty :=
  match p.imports.lookup moduleName with
  | none => fail id (.undefinedModule moduleName)
  | some exports =>
    match exports.lookup name with
    | some (.constant ty) => pure ty
    | some .other => fail id (.notAConstant name)
    | none => fail id (.undefinedSymbol name (Suggestion.closest? name (exports.map Prod.fst)))

/-- The type of a literal. -/
def evalLiteral (p : Program) (id : ExprId) (literal : Literal) (expected : Option Ty) : CheckM Ty :=
  match literal.inferType expected p.settings.pruneLiterals with
  | .ok ty => pure ty
  | .error e => fail id (.outOfRange e.text)

/-! ## Lists -/

/-- The members that a spread operand contributes: it has to be a tuple of fixed length. -/
def spreadMembers (operand : ExprId) (ty : Ty) : CheckM (Option (List Ty)) := do
  if ty.isError then pure none
  else
    match ty.effective with
    | .tuple members none => pure (some members)
    | _ => do
      report operand (.spreadMismatch .tuple ty)
      pure none

/-- The types of the items of a list with those of spreads in between, if none is erroneous. All
items are evaluated in any case. -/
def evalItems (eval : Evaluator) (frame : Frame) : List ListItem → CheckM (Option (List Ty))
  | [] => pure (some [])
  | .member value :: items => do
    let ty ← eval value frame
    -- the items after an erroneous one are evaluated too, for their reports
    let rest ← evalItems eval frame items
    pure (if ty.isError then none else rest.map (ty :: ·))
  | .spread operand :: items => do
    let ty ← eval operand (frame.expecting none)
    let members ← spreadMembers operand ty
    let rest ← evalItems eval frame items
    pure (members.bind fun members => rest.map (members ++ ·))

/-- The type of a list. -/
def evalList (eval : Evaluator) (id : ExprId) (items : List ListItem) (frame : Frame) : CheckM Ty := do
  match ← evalItems eval frame items with
  | some members => pure (.tuple members none)
  | none => do
    note (.erroneousList id)
    pure .error

/-! ## Records -/

/-- The fields placed so far, and whether something has failed. -/
structure Placement where
  fields : Fields none
  failed : Bool

/-- Puts a field in its place, which has to be free. -/
def putField (location : ExprId) (name : String) (ty : Ty) (placed : Placement) :
    CheckM Placement := do
  if ty.isError then pure { placed with failed := true }
  else if placed.fields.contains name then do
    report location (.duplicateKey name)
    pure { placed with failed := true }
  else pure { placed with fields := placed.fields.insert name ⟨ty, true⟩ }

/-- Puts several fields in their places. -/
def putFields (location : ExprId) : List (String × Field) → Placement → CheckM Placement
  | [], placed => pure placed
  | (name, field) :: fields, placed => do
    let placed ← putField location name field.ty placed
    putFields location fields placed

/-- Puts the fields of a spread operand in their places: it has to be a record. -/
def placeSpread (operand : ExprId) (ty : Ty) (placed : Placement) : CheckM Placement := do
  if ty.isError then pure { placed with failed := true }
  else
    match ty.effective with
    | .record fields _ _ => putFields operand fields.toList placed
    | _ => do
      report operand (.spreadMismatch .record ty)
      pure { placed with failed := true }

/-- Evaluates and places a field that is not computed. -/
def placeWritten (p : Program) (eval : Evaluator) (frame : Frame) (field : RecordField)
    (placed : Placement) : CheckM Placement :=
  match field with
  | .named name value => do
    let ty ← eval value frame
    putField value name ty placed
  | .reference value => do
    let ty ← eval value frame
    match p.source.fieldName? value with
    | some name => putField value name ty placed
    | none => pure { placed with failed := true }
  | .spread operand => do
    let ty ← eval operand (frame.expecting none)
    placeSpread operand ty placed
  | .computed _ _ => pure placed

/-- Evaluates and places a computed field, which may take the place of another. Its key has to be
one string. -/
def placeComputed (eval : Evaluator) (frame : Frame) (field : RecordField) (placed : Placement) :
    CheckM Placement :=
  match field with
  | .computed key value => do
    let keyTy ← eval key (frame.expecting none)
    let valueTy ← eval value frame
    if keyTy.isError || valueTy.isError then pure { placed with failed := true }
    else
      match keyOf? keyTy with
      | some name => pure { placed with fields := placed.fields.insert name ⟨valueTy, true⟩ }
      | none => do
        report key (.incompatibleTypes (.primitive .string) keyTy)
        pure { placed with failed := true }
  | _ => pure placed

/-- Goes through fields and places each. -/
def placeEach (place : RecordField → Placement → CheckM Placement) :
    List RecordField → Placement → CheckM Placement
  | [], placed => pure placed
  | field :: fields, placed => do
    let placed ← place field placed
    placeEach place fields placed

/-- The type of a record: computed fields come last. -/
def evalRecord (p : Program) (eval : Evaluator) (fields : List RecordField) (frame : Frame) :
    CheckM Ty := do
  let written ← placeEach (placeWritten p eval frame) fields ⟨.nil, false⟩
  let placed ← placeEach (placeComputed eval frame) fields written
  pure (if placed.failed then .error else .sealedRecord placed.fields)

/-! ## Operators -/

/-- The single values that an operand may be, unless one of its readings is not a single value. -/
def readingsOf? (ty : Ty) : Option (List Singleton) :=
  ty.effective.unionMembers.mapM fun member => member.effective.singleton?

/-- The union of the bases of some values. -/
def baseUnion (values : List Singleton) : Ty := .unionOf (values.map fun s => .primitive s.base)

/-- A pair of readings for which an operator is defined, and the base of the result. -/
structure Combination where
  lhs : Singleton
  rhs : Singleton
  base : Primitive

/-- The pairs of readings for which an operator is defined. -/
def combinations (op : BinaryOp) (lhs rhs : List Singleton) : List Combination :=
  lhs.flatMap fun l => rhs.filterMap fun r => (op.resultBase? l.base r.base).map (⟨l, r, ·⟩)

/-- Sets the type of an operand to the readings that are kept, if some are dropped. -/
def dropReadings (operand : ExprId) (readings kept : List Singleton) : CheckM Unit := do
  if kept.length = readings.length then pure ()
  else do
    let ty := Ty.unionOf (kept.map Ty.singleton)
    note (.prunedOperand operand readings.length ty)
    setType operand ty

/-- The value of the first combination of each result base, where there is one. -/
def foldBases (op : BinaryOp) (viable : List Combination) : List Primitive → CheckM (List Scalar)
  | [] => pure []
  | base :: bases => do
    let value ←
      match viable.find? (·.base == base) with
      | none => pure none
      | some c => do
        let value := op.fold? c.lhs.value c.rhs.value base
        if value.isNone then note (.notFolded op c.lhs c.rhs)
        pure value
    let values ← foldBases op viable bases
    pure (value.toList ++ values)

/-- The type of folded values, or a report that there is none. -/
def foldedType (id : ExprId) (symbol : String) (operands : List Ty) (folded : List Scalar) :
    CheckM Ty :=
  if folded.isEmpty then fail id (.foldFailed symbol operands)
  else pure (.unionOf (folded.map fun value => .singleton (.ofScalar value)))

/-- The type of a binary operator on operands of given types. Readings that take part in no
combination are dropped from the operands. -/
def evalBinaryOn (id : ExprId) (op : BinaryOp) (lhs rhs : ExprId) (lhsTy rhsTy : Ty) : CheckM Ty := do
  let invalid := fail id (.invalidOperands op.symbol [lhsTy, rhsTy])
  match readingsOf? lhsTy, readingsOf? rhsTy with
  | some ls, some rs =>
    let viable := combinations op ls rs
    if viable.isEmpty then invalid
    else do
      let isDefined (l r : Singleton) := (op.resultBase? l.base r.base).isSome
      let lhsKept := ls.filter fun l => rs.any (isDefined l)
      let rhsKept := rs.filter fun r => ls.any (isDefined · r)
      -- both operands are settled before any value is computed
      dropReadings lhs ls lhsKept
      dropReadings rhs rs rhsKept
      let bases := (viable.map Combination.base).eraseDups
      let folded ← foldBases op viable bases
      setSignature id ⟨[baseUnion lhsKept, baseUnion rhsKept], .unionOf (bases.map .primitive)⟩
      foldedType id op.symbol [lhsTy, rhsTy] folded
  | _, _ => invalid

/-- The type of a binary operator. -/
def evalBinary (eval : Evaluator) (id : ExprId) (op : BinaryOp) (lhs rhs : ExprId) (frame : Frame) :
    CheckM Ty := do
  let lhsTy ← eval lhs frame
  let rhsTy ← eval rhs frame
  if lhsTy.isError || rhsTy.isError then pure .error
  else evalBinaryOn id op lhs rhs lhsTy rhsTy

/-- The type of a unary operator on an operand of a given type. -/
def evalUnaryOn (id : ExprId) (op : UnaryOp) (operandTy : Ty) : CheckM Ty := do
  let readings := (readingsOf? operandTy).getD []
  let applicable := readings.filter fun s => (op.resultBase? s.base).isSome
  if applicable.isEmpty then fail id (.invalidOperands op.symbol [operandTy])
  else do
    let folded := applicable.filterMap fun s => op.fold? s.value
    let results := applicable.filterMap fun s => op.resultBase? s.base
    setSignature id ⟨[baseUnion applicable], .unionOf (results.map .primitive)⟩
    foldedType id op.symbol [operandTy] folded

/-- The type of a unary operator. -/
def evalUnary (eval : Evaluator) (id : ExprId) (op : UnaryOp) (operand : ExprId) (frame : Frame) :
    CheckM Ty := do
  let operandTy ← eval operand frame
  if operandTy.isError then pure .error else evalUnaryOn id op operandTy

/-! ## All expressions -/

/-- The type of an expression that has not been evaluated. -/
def evalFresh (p : Program) (refer : Referrer) (eval : Evaluator) (id : ExprId) (frame : Frame) :
    CheckM Ty :=
  match p.source.expr id with
  | .missing => pure .error
  | .literal literal => evalLiteral p id literal frame.expected
  | .reference none name => evalName p refer id name frame.scope
  | .reference (some moduleName) name => evalImported p id moduleName name
  | .list items => evalList eval id items frame
  | .record fields => evalRecord p eval fields frame
  | .binary op lhs rhs => evalBinary eval id op lhs rhs frame
  | .unary op operand => evalUnary eval id op operand frame
  | .group inner => eval inner frame
  | .unsupported form => fail id (.unsupported form)

/-- The type of an expression, which is kept. -/
def evalStep (p : Program) (refer : Referrer) (eval : Evaluator) (id : ExprId) (frame : Frame) :
    CheckM Ty := do
  match ← typeOf? id with
  | some ty => pure ty
  | none => do
    let ty ← evalFresh p refer eval id frame
    setType id ty
    pure ty

/-- The type of an expression, if evaluation nests no deeper than the first argument says. -/
def evaluateWithin (p : Program) : Nat → Evaluator
  | 0, _, _ => exhausted
  | n + 1, id, frame =>
    evalStep p (referConstant p (evaluateWithin p n)) (evaluateWithin p n) id frame

/-- How deep evaluation may nest. On the way down a constant is entered at most once, and between
two constants an expression that does not contain itself is passed at most once. -/
def nestingBound (p : Program) : Nat := (p.source.constants.size + 1) * (p.source.exprs.size + 1) + 1

/-- The type of an expression in a frame. -/
def evaluate (p : Program) : Evaluator := evaluateWithin p (nestingBound p)

end ConstNarrow.Checker
