/-
**Types as text**, in the notation in which they are declared. The brackets of an array bind
closer than the bars of a union, so an element type with bars stands in parentheses.
-/
import ConstNarrow.Ty.Basic

set_option autoImplicit false

namespace ConstNarrow.Ty

/-- The size of an array in its brackets. -/
def renderSize : ArraySize → String
  | .closed n => "[" ++ Text.renderInt n ++ "]"
  | .unbounded => "[]"
  | .inferred => "[*]"

/-- Whether the text of the type is a row of alternatives. -/
def hasBars : Ty → Bool
  | .union _ => true
  | .finite values => 1 < values.length
  | _ => false

mutual

/-- The text of a type. A named type shows its name only. -/
def render : Ty → String
  | .primitive p => p.render
  | .array elem size =>
    (if elem.hasBars then "(" ++ elem.render ++ ")" else elem.render) ++ renderSize size
  | .tuple members rest =>
    "[" ++ ", ".intercalate (renderList members ++ renderRest rest "...") ++ "]"
  | .record fields rest isSealed =>
    let (opening, closing) := if isSealed then ("\x7b| ", "|\x7d") else ("\x7b ", "\x7d")
    opening ++ String.join (renderFields fields ++ renderRest rest "...; ") ++ closing
  | .map constraint => "map<" ++ constraint.render ++ ">"
  | .table => "table"
  | .anydata => "anydata"
  | .json => "json"
  | .union members => "|".intercalate (renderList members)
  | .finite values => "|".intercalate (values.map Singleton.render)
  | .reference name _ => name
  | .intersection inner => "readonly & " ++ inner.render
  | .error => "<error>"
termination_by structural ty => ty

/-- The texts of types. -/
def renderList : List Ty → List String
  | [] => []
  | ty :: tys => ty.render :: renderList tys
termination_by structural tys => tys

/-- The text of a rest type, if there is one. -/
def renderRest : Option Ty → String → List String
  | none, _ => []
  | some ty, mark => [ty.render ++ mark]
termination_by structural ty => ty

/-- The texts of fields. An optional field has a question mark after its name. -/
def renderFields : {bound : Option String} → Fields bound → List String
  | _, .nil => []
  | _, .cons name _ ty required tail =>
    (name ++ (if required then ": " else "?: ") ++ ty.render ++ "; ") :: renderFields tail
termination_by structural _ fields => fields

end

end ConstNarrow.Ty
