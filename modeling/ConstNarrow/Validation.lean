/-
**Validation**: matching what was inferred for a constant against the type that it is declared
with.

The result is a new type, built from the values of the inferred one in the shape of the declared
one. Places that a list leaves open are filled with defaults. Where the declared type is a union,
every member is tried quietly; of several that fit, numbers are preferred in the order int, float,
decimal, and any other choice is ambiguous and falls on the first.

The recursion follows the declared type.
-/
import ConstNarrow.Ty.Assignable
import ConstNarrow.Ty.Narrowed
import ConstNarrow.Ty.Default
import ConstNarrow.Report.Journal

set_option autoImplicit false

namespace ConstNarrow

/-- Why a type does not fit. -/
inductive NarrowError where
  /-- it does not fit, and nothing was reported -/
  | mismatch
  /-- something more specific was reported -/
  | reported
deriving DecidableEq, Repr

/-- Where reports of a validation go, and how serious an ambiguity is. Without an expression to
report at, the log has to do. -/
structure Site where
  anchor : Option ExprId
  ambiguity : Severity
deriving DecidableEq, Repr

/-- A validation writes to a journal and may fail. What it has written stays when it fails. -/
abbrev Validation := ExceptT NarrowError (StateM Journal)

namespace Validation

/-- Adds an event to the log. -/
def note (e : Event) : Validation Unit := modify (·.note e)

/-- Reports a diagnostic. -/
def report (d : Diagnostic) : Validation Unit := modify (·.report d)

/-- The result of a validation whose diagnostics are dropped, if it succeeds. -/
def attempt (v : Validation Ty) : StateM Journal (Option Ty) := do
  modify Journal.mute
  let result ← v.run
  modify Journal.unmute
  pure result.toOption

/-- The narrowed type; the log names what has no narrowing. -/
def narrow (ty : Ty) : Validation Ty := do
  modify (·.noteAll (ty.withoutNarrowing.map .noNarrowing))
  pure ty.narrowed

/-- The default of a type. A part without one is reported. -/
def fill (site : Site) (ty : Ty) : Validation Ty :=
  match ty.default with
  | .ok value => pure value
  | .error part =>
    match site.anchor with
    | some location => do
      report (.error location (.noDefault part))
      throw .reported
    | none => do
      note (.noDefault part)
      throw .mismatch

/-! ## Values -/

/-- The values that an inferred type may stand for: those of a finite type, or of the finite
members of a union. -/
def readings? : Ty → Option (List Singleton)
  | .finite values => some values
  | .union members => some (members.flatMap fun ty =>
      match ty.effective with
      | .finite values => values
      | _ => [])
  | _ => none

/-- The rank of a value among several that fit; the lowest wins. -/
def rank (s : Singleton) : Nat := s.base.numericPriority?.getD 255

/-- The first value of lowest rank. -/
def lowest? : List Singleton → Option Singleton
  | [] => none
  | s :: rest =>
    match lowest? rest with
    | none => some s
    | some other => if rank s ≤ rank other then some s else some other

/-- The values of a finite type that are among some readings, each once. -/
def matching (values readings : List Singleton) : List Singleton :=
  (values.filter fun v => readings.any (·.sameValue v)).foldl
    (fun found v => if found.contains v then found else found ++ [v]) []

/-- Validation against a finite type: its value that is a reading of what was inferred. -/
def finite (values : List Singleton) (inferred : Ty) : Validation Ty :=
  match (readings? inferred).bind fun readings => lowest? (matching values readings) with
  | some s => pure (.singleton s)
  | none => throw .mismatch

/-- A single value takes the base `byte` where a byte is wanted. -/
def rebase (p : Primitive) (ty : Ty) : Ty :=
  match ty.singleton? with
  | some s => if p = .byte then .singleton (s.withBase .byte) else ty
  | none => ty

/-- Validation against a primitive: the first member of a union that is assignable, or the type
itself. -/
def primitive (p : Primitive) (inferred : Ty) : Validation Ty :=
  let found? := inferred.unionMembers.find? fun ty => ty.isAssignable (.primitive p)
  match p, inferred with
  | .nil, _ => if inferred.isAssignable (.primitive .nil) then pure (.singleton .nil) else throw .mismatch
  | _, _ =>
    match found? with
    | some ty => pure (rebase p ty)
    | none => throw .mismatch

/-! ## Choosing among alternatives -/

/-- The numeric kind of a single value. -/
def kind? (ty : Ty) : Option NumericKind := ty.singleton?.bind (·.base.numericKind?)

/-- A choice in progress: what is selected, and whether the choice is ambiguous. -/
structure Choice where
  selected : Option (Ty × NumericKind)
  isAmbiguous : Bool

/-- Goes through several types that fit and selects one, if it can. An integer is taken at once, a
float before any decimal, and a decimal if it is the only one. -/
def select : Choice → List Ty → Option Ty
  | choice, [] => if choice.isAmbiguous then none else choice.selected.map Prod.fst
  | choice, ty :: tys =>
    match kind? ty with
    | some .int => some ty
    | some .float => select { choice with selected := some (ty, .float) } tys
    | some .decimal =>
      match choice.selected with
      | none => select { choice with selected := some (ty, .decimal) } tys
      | some (_, .decimal) => select { choice with isAmbiguous := true } tys
      | some _ => select choice tys
    | none => select { choice with isAmbiguous := true } tys

/-- Reports that several types fit. -/
def reportChoice (site : Site) (candidates : Ty) : Validation Unit :=
  match site.anchor with
  | some location => report ⟨location, site.ambiguity, .ambiguousType candidates⟩
  | none => note (.ambiguous candidates)

/-- The choice among the types that fit. -/
def choose (site : Site) (fitting : List Ty) : Validation Ty :=
  match fitting with
  | [] => throw .mismatch
  | [only] => pure only
  | first :: _ =>
    match select ⟨none, false⟩ fitting with
    | some ty => pure ty
    | none => do
      reportChoice site (Ty.unionOf fitting)
      pure first

/-! ## Structures -/

/-- Goes on with an inferred type, looked through, unless it is the error type. -/
def unlessError (inferred : Ty) (f : Ty → Validation Ty) : Validation Ty :=
  if inferred.effective.isError then pure .error else f inferred.effective

/-- Whether an array of some size has room for so many members. -/
def hasRoom (size : ArraySize) (count : Nat) : Bool :=
  match size with
  | .closed n => count ≤ n
  | _ => true

/-- Appends what an array lacks to its size, filled from its element type. -/
def padArray (site : Site) (elem : Ty) (size : ArraySize) (members : List Ty) :
    Validation (List Ty) :=
  match size with
  | .closed n =>
    if members.length < n then do
      let filler ← fill site elem
      pure (members ++ List.replicate (n - members.length) filler)
    else pure members
  | _ => pure members

end Validation

open Validation

mutual

/-- Validates an inferred type against an expected one. -/
def validate (site : Site) : (expected inferred : Ty) → Validation Ty
  | .error, _ => pure .error
  | .reference _ referred, inferred => validate site referred inferred
  | .intersection inner, inferred => validate site inner inferred
  | .array elem size, inferred => unlessError inferred fun
    | .tuple members _ =>
      if hasRoom size members.length then do
        let members ← members.mapM fun member => validate site elem member
        let members ← padArray site elem size members
        pure (.tuple members none)
      else throw .mismatch
    | _ => throw .mismatch
  | .tuple expected rest, inferred => unlessError inferred fun
    | .tuple members _ => do
      let members ← validateMembers site expected (fun ty => validateOption site rest ty) members
      pure (.tuple members none)
    | _ => throw .mismatch
  | .map constraint, inferred => unlessError inferred fun
    | .record fields _ _ => do
      let fields ← fields.toList.mapM fun (name, field) => do
        pure (name, ← validate site constraint field.ty)
      pure (Ty.sealedOf fields)
    | _ => throw .mismatch
  | .record expected rest isSealed, inferred => unlessError inferred fun
    | .record fields _ _ => do
      let declared ← validateFields site expected fields
      let further ← (fields.toList.filter fun (name, _) => !expected.contains name).mapM
        fun (name, field) => do
          match rest, isSealed with
          -- an open record without a rest type takes a field as it was inferred
          | none, false => pure (name, ← narrow field.ty)
          | _, _ => pure (name, ← validateOption site rest field.ty)
      pure (Ty.sealedOf (declared ++ further))
    | _ => throw .mismatch
  | .union members, inferred => unlessError inferred fun inferred => do
    let fitting ← validateEach site members inferred []
    choose site fitting
  | .finite values, inferred => unlessError inferred (finite values)
  | .primitive p, inferred => unlessError inferred (primitive p)
  | .anydata, inferred => unlessError inferred narrow
  | .json, inferred => unlessError inferred fun inferred =>
    if inferred.isAssignable .json then narrow inferred else throw .mismatch
  | .table, inferred => unlessError inferred fun _ => throw .mismatch
termination_by structural expected => expected

/-- Validates members position by position. Further ones are left to `extra`, and missing ones are
filled. -/
def validateMembers (site : Site) :
    List Ty → (extra : Ty → Validation Ty) → List Ty → Validation (List Ty)
  | [], extra, inferred => inferred.mapM extra
  | ty :: tys, extra, [] => do
    let value ← fill site ty
    let values ← validateMembers site tys extra []
    pure (value :: values)
  | ty :: tys, extra, inferred :: rest => do
    let value ← validate site ty inferred
    let values ← validateMembers site tys extra rest
    pure (value :: values)
termination_by structural tys => tys

/-- Validates against a rest type; without one nothing fits. -/
def validateOption (site : Site) : Option Ty → Ty → Validation Ty
  | none, _ => throw .mismatch
  | some ty, inferred => validate site ty inferred
termination_by structural ty => ty

/-- Validates the fields that are expected. Each has to be there, optional ones too. -/
def validateFields (site : Site) :
    {bound : Option String} → Fields bound → Fields none → Validation (List (String × Ty))
  | _, .nil, _ => pure []
  | _, .cons name _ ty _ tail, inferred =>
    match inferred.get? name with
    | none => throw .mismatch
    | some field => do
      let value ← validate site ty field.ty
      let values ← validateFields site tail inferred
      pure ((name, value) :: values)
termination_by structural _ fields => fields

/-- Tries each type quietly, and collects the different results. -/
def validateEach (site : Site) : List Ty → Ty → (found : List Ty) → Validation (List Ty)
  | [], _, found => pure found
  | ty :: tys, inferred, found => do
    let result ← attempt (validate site ty inferred)
    validateEach site tys inferred (result.elim found (Ty.addNew found))
termination_by structural tys => tys

end

end ConstNarrow
