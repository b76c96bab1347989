/-
**Default values**: what fills a place that a list or a record leaves open.

A default is given as the type of one value. A type has no default if its values offer no natural
choice; the walk then stops at the first part that has none and names that part.
-/
import ConstNarrow.Ty.Basic

set_option autoImplicit false

namespace ConstNarrow

/-- The default of a primitive. -/
def Primitive.default : Primitive → Singleton
  | .boolean => .ofScalar (.boolean false)
  | .int => .ofScalar (.int 0)
  | .byte => ⟨.int 0, .byte⟩
  | .float => .ofScalar (.float 0.0)
  | .decimal => .ofScalar (.decimal .zero)
  | .string => .ofScalar (.string "")
  | .nil => .nil

namespace Ty

/-- A sealed record with required fields of the given types. -/
def sealedOf (entries : List (String × Ty)) : Ty :=
  sealedRecord (Fields.ofList (entries.map fun (name, ty) => (name, ⟨ty, true⟩)))

/-- The tuple of no members. -/
def emptyTuple : Ty := .tuple [] none

mutual

/-- The default of a type, or the first part of it that has none. Where nil is a value, it is the
default of an ambiguous type. A record is filled in its required fields only. -/
def default : Ty → Except Ty Ty
  | .primitive p => .ok (.singleton p.default)
  | .array elem size =>
    match size with
    | .unbounded => .ok emptyTuple
    | .inferred => .error (.array elem .inferred)
    | .closed 0 => .ok emptyTuple
    | .closed n => elem.default.map fun member => .tuple (List.replicate n member) none
  | .tuple members _ => (defaultList members).map fun members => .tuple members none
  | .record fields _ _ => (defaultFields fields).map sealedOf
  | .map _ => .ok (sealedOf [])
  | .table => .ok .table
  | .anydata => .ok (.singleton .nil)
  | .json => .ok (.singleton .nil)
  | .finite values =>
    match values with
    | [only] => .ok (.singleton only)
    | values =>
      if (Ty.finite values).containsNil then .ok (.singleton .nil) else .error (.finite values)
  | .union members =>
    match members with
    | [only] => only.default
    | members =>
      if (Ty.union members).containsNil then .ok (.singleton .nil) else .error (.union members)
  | .reference _ referred => referred.default
  | .intersection inner => inner.default
  | .error => .ok .error
termination_by structural ty => ty

/-- The defaults of the types of a list. -/
def defaultList : List Ty → Except Ty (List Ty)
  | [] => .ok []
  | ty :: tys => ty.default.bind fun d => (defaultList tys).map (d :: ·)
termination_by structural tys => tys

/-- The defaults of the required fields. -/
def defaultFields : {bound : Option String} → Fields bound → Except Ty (List (String × Ty))
  | _, .nil => .ok []
  | _, .cons name _ ty required tail =>
    if required then ty.default.bind fun d => (defaultFields tail).map ((name, d) :: ·)
    else defaultFields tail
termination_by structural _ fields => fields

end

end Ty

end ConstNarrow
