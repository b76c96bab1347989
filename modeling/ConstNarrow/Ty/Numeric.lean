/-
**Numeric kinds within a type**: which kinds of numbers a value of the type, or a part of one,
could be. They are listed in the order of their first appearance.
-/
import ConstNarrow.Ty.Basic

set_option autoImplicit false

namespace ConstNarrow.Ty

mutual

/-- The numeric kinds found on a walk through a type, with repetitions. -/
def kindsWithin : Ty → List NumericKind
  | .primitive p => p.numericKind?.toList
  | .finite values => values.filterMap (·.base.numericKind?)
  | .anydata => [.int, .float, .decimal]
  | .json => [.int, .float, .decimal]
  | .union members => kindsWithinList members
  | .array elem _ => elem.kindsWithin
  | .map constraint => constraint.kindsWithin
  | .tuple members rest => kindsWithinList members ++ kindsWithinOption rest
  | .record fields rest _ => kindsWithinFields fields ++ kindsWithinOption rest
  | .reference _ referred => referred.kindsWithin
  | .intersection inner => inner.kindsWithin
  | .table => []
  | .error => []
termination_by structural ty => ty

/-- The kinds within the types of a list. -/
def kindsWithinList : List Ty → List NumericKind
  | [] => []
  | ty :: tys => ty.kindsWithin ++ kindsWithinList tys
termination_by structural tys => tys

/-- The kinds within a type, if there is one. -/
def kindsWithinOption : Option Ty → List NumericKind
  | none => []
  | some ty => ty.kindsWithin
termination_by structural ty => ty

/-- The kinds within the types of fields. -/
def kindsWithinFields : {bound : Option String} → Fields bound → List NumericKind
  | _, .nil => []
  | _, .cons _ _ ty _ tail => ty.kindsWithin ++ kindsWithinFields tail
termination_by structural _ fields => fields

end

/-- The numeric kinds within a type, each once. -/
def numericKinds (ty : Ty) : List NumericKind := ty.kindsWithin.eraseDups

end ConstNarrow.Ty
