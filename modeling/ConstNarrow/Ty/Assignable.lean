/-
**Assignability**: whether every value of one type is a value of another.

The definition follows the target. A source is taken apart first, by the one walk
`everyAlternative`: names are looked through, a union is good if all its members are, and a finite
type if all its values are. What is left, a source with a shape of its own, is compared with the
shape of the target. The error type is assignable both ways, so that one failure does not cause
another report.
-/
import ConstNarrow.Ty.Basic

set_option autoImplicit false

namespace ConstNarrow.Ty

/-! ## Values and types -/

mutual

/-- Whether a value belongs to a type. No structure holds a single value. -/
def admits : Ty → Singleton → Bool
  | .error, _ => true
  | .anydata, _ => true
  | .json, _ => true
  | .primitive p, v => v.fits p
  | .finite values, v => values.any (·.sameValue v)
  | .union members, v => admitsAny members v
  | .reference _ referred, v => referred.admits v
  | .intersection inner, v => inner.admits v
  | _, _ => false
termination_by structural ty => ty

/-- Whether a value belongs to one of the types. -/
def admitsAny : List Ty → Singleton → Bool
  | [], _ => false
  | ty :: tys, v => ty.admits v || admitsAny tys v
termination_by structural tys => tys

end

mutual

/-- Whether all values of a type can be written as JSON. -/
def isJson : Ty → Bool
  | .primitive _ => true
  | .finite _ => true
  | .json => true
  | .error => true
  | .table => false
  | .anydata => false
  | .array elem _ => elem.isJson
  | .map constraint => constraint.isJson
  | .tuple members rest => isJsonList members && isJsonOption rest
  | .record fields rest _ => isJsonFields fields && isJsonOption rest
  | .union members => isJsonList members
  | .reference _ referred => referred.isJson
  | .intersection inner => inner.isJson
termination_by structural ty => ty

/-- Whether this holds of all types of a list. -/
def isJsonList : List Ty → Bool
  | [] => true
  | ty :: tys => ty.isJson && isJsonList tys
termination_by structural tys => tys

/-- Whether this holds of a type, if there is one. -/
def isJsonOption : Option Ty → Bool
  | none => true
  | some ty => ty.isJson
termination_by structural ty => ty

/-- Whether this holds of the types of all fields. -/
def isJsonFields : {bound : Option String} → Fields bound → Bool
  | _, .nil => true
  | _, .cons _ _ ty _ tail => ty.isJson && isJsonFields tail
termination_by structural _ fields => fields

end

/-! ## The walk over a source -/

mutual

/-- Whether all alternatives of a source are good: those that are the target itself, the values
that satisfy `value`, and the types with a shape that satisfy `shape`. -/
def everyAlternative : Ty → (target : Ty) → (value : Singleton → Bool) → (shape : Ty → Bool) → Bool
  | .error, _, _, _ => true
  | .reference _ referred, target, value, shape => referred.everyAlternative target value shape
  | .intersection inner, target, value, shape => inner.everyAlternative target value shape
  | .union members, target, value, shape =>
    Ty.union members == target || everyMember members target value shape
  | .finite values, target, value, _ => Ty.finite values == target || values.all value
  | ty, target, _, shape => ty == target || shape ty
termination_by structural ty => ty

/-- Whether this holds of all types of a list. -/
def everyMember :
    List Ty → (target : Ty) → (value : Singleton → Bool) → (shape : Ty → Bool) → Bool
  | [], _, _, _ => true
  | ty :: tys, target, value, shape =>
    ty.everyAlternative target value shape && everyMember tys target value shape
termination_by structural tys => tys

end

/-! ## The target -/

/-- Whether an array of one size is also one of another. -/
def sizeAccepts : ArraySize → ArraySize → Bool
  | .unbounded, _ => true
  | .closed n, size => size == .closed n
  | .inferred, size => size != .unbounded

/-- Whether a tuple has a size that an array may have. -/
def sizeAcceptsTuple (size : ArraySize) (members : List Ty) (rest : Option Ty) : Bool :=
  match size with
  | .unbounded => true
  | .closed n => rest.isNone && members.length == n
  | .inferred => rest.isNone

mutual

/-- Whether a source is assignable to this type. -/
def accepts : Ty → Ty → Bool
  | .error, _ => true
  | .reference _ referred, source => referred.accepts source
  | .intersection inner, source => inner.accepts source
  | .union members, source =>
    source.everyAlternative (.union members) (admitsAny members) (acceptsAny members)
  | .anydata, source => source.everyAlternative .anydata (fun _ => true) fun _ => true
  | .json, source => source.everyAlternative .json (fun _ => true) isJson
  | .primitive p, source => source.everyAlternative (.primitive p) (·.fits p) fun
    | .primitive q => q == p || (q == .byte && p == .int)
    | _ => false
  | .finite values, source =>
    source.everyAlternative (.finite values) (fun v => values.any (·.sameValue v)) fun
      | .primitive q => q == .nil && values.any (·.base == .nil)
      | _ => false
  | .array elem size, source =>
    source.everyAlternative (.array elem size) (fun _ => false) fun
      | .tuple members rest =>
        sizeAcceptsTuple size members rest && members.all elem.accepts && rest.all elem.accepts
      | .array sourceElem sourceSize => sizeAccepts size sourceSize && elem.accepts sourceElem
      | _ => false
  | .tuple members rest, source =>
    source.everyAlternative (.tuple members rest) (fun _ => false) fun
      | .tuple sourceMembers sourceRest =>
        acceptsEach members (acceptsOption false rest) sourceMembers
          && sourceRest.all (acceptsOption false rest)
      | .array sourceElem _ => members.isEmpty && acceptsOption false rest sourceElem
      | _ => false
  | .record fields rest isSealed, source =>
    source.everyAlternative (.record fields rest isSealed) (fun _ => false) fun
      | .record sourceFields sourceRest _ =>
        acceptsFields fields sourceFields
          && (sourceFields.toList.all fun (name, field) =>
            fields.contains name || acceptsOption (!isSealed) rest field.ty)
          && sourceRest.all (acceptsOption (!isSealed) rest)
      | _ => false
  | .map constraint, source =>
    source.everyAlternative (.map constraint) (fun _ => false) fun
      | .record fields rest isSealed =>
        fields.toList.all (fun (_, field) => constraint.accepts field.ty)
          && rest.all constraint.accepts && (isSealed || rest.isSome)
      | .map sourceConstraint => constraint.accepts sourceConstraint
      | _ => false
  | .table, source => source.everyAlternative .table (fun _ => false) fun _ => false
termination_by structural ty => ty

/-- Whether a source is assignable to one of the types. -/
def acceptsAny : List Ty → Ty → Bool
  | [], _ => false
  | ty :: tys, source => ty.accepts source || acceptsAny tys source
termination_by structural tys => tys

/-- Whether a source is assignable to a rest type; without one, `default` says. -/
def acceptsOption (default : Bool) : Option Ty → Ty → Bool
  | none, _ => default
  | some ty, source => ty.accepts source
termination_by structural ty => ty

/-- Whether sources are assignable to members position by position, and the further ones satisfy
`extra`. No position may be left without a source. -/
def acceptsEach : List Ty → (Ty → Bool) → List Ty → Bool
  | [], extra, sources => sources.all extra
  | _ :: _, _, [] => false
  | ty :: tys, extra, source :: sources => ty.accepts source && acceptsEach tys extra sources
termination_by structural tys => tys

/-- Whether the fields of a source fill the fields of a record: a required field is filled by a
required one of its name, and an optional field by any of its name or by none. -/
def acceptsFields : {bound : Option String} → Fields bound → Fields none → Bool
  | _, .nil, _ => true
  | _, .cons name _ ty required tail, source =>
    (match source.get? name with
      | some field => (!required || field.required) && ty.accepts field.ty
      | none => !required)
    && acceptsFields tail source
termination_by structural _ fields => fields

end

/-- Whether every value of `source` is a value of `target`. -/
def isAssignable (source target : Ty) : Bool := target.accepts source

end ConstNarrow.Ty
