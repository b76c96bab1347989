/-
**Narrowing**: one concrete reading of an inferred type, where no type is declared.

A union is narrowed to its first member, and structures are rebuilt with their parts narrowed.
Broad types have no narrowing. They become the error type, and `withoutNarrowing` lists them in
the order in which the walk meets them.
-/
import ConstNarrow.Ty.Basic

set_option autoImplicit false

namespace ConstNarrow.Ty

mutual

/-- The type narrowed to one reading. -/
def narrowed : Ty → Ty
  | .finite values => .finite values
  | .union members => narrowedFirst members
  | .record fields rest isSealed => .record (narrowedFields fields) (narrowedOption rest) isSealed
  | .tuple members rest => .tuple (narrowedList members) (narrowedOption rest)
  | .array elem size => .array elem.narrowed size
  | .reference _ referred => referred.narrowed
  | .intersection inner => inner.narrowed
  | .primitive p => if p = .nil then .singleton .nil else .error
  | .map _ => .error
  | .table => .error
  | .anydata => .error
  | .json => .error
  | .error => .error
termination_by structural ty => ty

/-- The first type of a list, narrowed. -/
def narrowedFirst : List Ty → Ty
  | [] => .error
  | ty :: _ => ty.narrowed
termination_by structural tys => tys

/-- The types of a list, narrowed. -/
def narrowedList : List Ty → List Ty
  | [] => []
  | ty :: tys => ty.narrowed :: narrowedList tys
termination_by structural tys => tys

/-- A type that may be missing, narrowed. -/
def narrowedOption : Option Ty → Option Ty
  | none => none
  | some ty => some ty.narrowed
termination_by structural ty => ty

/-- Fields with their types narrowed. -/
def narrowedFields : {bound : Option String} → Fields bound → Fields bound
  | _, .nil => .nil
  | _, .cons name above ty required tail => .cons name above ty.narrowed required (narrowedFields tail)
termination_by structural _ fields => fields

end

mutual

/-- The broad types that narrowing meets and cannot narrow. -/
def withoutNarrowing : Ty → List Ty
  | .union members => withoutNarrowingFirst members
  | .record fields rest _ => withoutNarrowingFields fields ++ withoutNarrowingOption rest
  | .tuple members rest => withoutNarrowingList members ++ withoutNarrowingOption rest
  | .array elem _ => elem.withoutNarrowing
  | .reference _ referred => referred.withoutNarrowing
  | .intersection inner => inner.withoutNarrowing
  | .primitive p => if p = .nil then [] else [.primitive p]
  | .map constraint => [.map constraint]
  | .table => [.table]
  | .anydata => [.anydata]
  | .json => [.json]
  | .finite _ => []
  | .error => []
termination_by structural ty => ty

/-- Those of the first type of a list. -/
def withoutNarrowingFirst : List Ty → List Ty
  | [] => []
  | ty :: _ => ty.withoutNarrowing
termination_by structural tys => tys

/-- Those of all types of a list. -/
def withoutNarrowingList : List Ty → List Ty
  | [] => []
  | ty :: tys => ty.withoutNarrowing ++ withoutNarrowingList tys
termination_by structural tys => tys

/-- Those of a type that may be missing. -/
def withoutNarrowingOption : Option Ty → List Ty
  | none => []
  | some ty => ty.withoutNarrowing
termination_by structural ty => ty

/-- Those of the types of fields. -/
def withoutNarrowingFields : {bound : Option String} → Fields bound → List Ty
  | _, .nil => []
  | _, .cons _ _ ty _ tail => ty.withoutNarrowing ++ withoutNarrowingFields tail
termination_by structural _ fields => fields

end

end ConstNarrow.Ty
