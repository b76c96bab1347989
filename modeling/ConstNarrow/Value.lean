/-
**Constant values**: what a constant stands for once its type leaves one value only.

The value is handed on without its type, so a byte is kept apart from an integer, and a decimal is
its text, exact to the digit.
-/
import ConstNarrow.Ty.Basic

set_option autoImplicit false

namespace ConstNarrow

/-- A value without its type. The entries of a map are in ascending order of their keys. -/
inductive Value where
  | int (i : Int64)
  | byte (i : Int64)
  | float (x : Float)
  | decimal (text : String)
  | string (s : String)
  | boolean (b : Bool)
  | nil
  | list (items : List Value)
  | map (entries : List (String × Value))

namespace Value

/-- The value of a singleton. An integer under `byte` has one only if it is a byte. -/
def ofSingleton? (s : Singleton) : Option Value :=
  match s.value with
  | .int i => if s.base = .byte then (if isByte i then some (.byte i) else none) else some (.int i)
  | .float x => some (.float x)
  | .decimal d => some (.decimal d.render)
  | .string s => some (.string s)
  | .boolean b => some (.boolean b)
  | .nil => some .nil

mutual

/-- The one value of a type, if there is just one. A table is filled with no rows. -/
def ofTy? : Ty → Option Value
  | .finite [s] => ofSingleton? s
  | .record fields _ _ => (ofFields? fields).map .map
  | .tuple members _ => (ofTys? members).map .list
  | .primitive .nil => some .nil
  | .table => some (.list [])
  | .reference _ referred => ofTy? referred
  | .intersection inner => ofTy? inner
  | _ => none
termination_by structural ty => ty

/-- The values of types, if each has just one. -/
def ofTys? : List Ty → Option (List Value)
  | [] => some []
  | ty :: tys => (ofTy? ty).bind fun value => (ofTys? tys).map (value :: ·)
termination_by structural tys => tys

/-- The values of fields, if each has just one. -/
def ofFields? : {bound : Option String} → Fields bound → Option (List (String × Value))
  | _, .nil => some []
  | _, .cons name _ ty _ tail =>
    (ofTy? ty).bind fun value => (ofFields? tail).map ((name, value) :: ·)
termination_by structural _ fields => fields

end

mutual

/-- The value as it is shown. -/
def render : Value → String
  | .int i => Text.renderInt i.toInt
  | .byte i => Text.renderInt i.toInt
  | .float x => Binary64.render x
  | .decimal text => text
  | .string s => Text.quoted s
  | .boolean true => "true"
  | .boolean false => "false"
  | .nil => "()"
  | .list items => "[" ++ ", ".intercalate (renderList items) ++ "]"
  | .map entries => "\x7b" ++ ",".intercalate (renderEntries entries) ++ " \x7d"
termination_by structural value => value

/-- The values of a list as they are shown. -/
def renderList : List Value → List String
  | [] => []
  | value :: values => value.render :: renderList values
termination_by structural values => values

/-- The entries of a map as they are shown. -/
def renderEntries : List (String × Value) → List String
  | [] => []
  | (key, value) :: entries => (" " ++ key ++ ": " ++ value.render) :: renderEntries entries
termination_by structural entries => entries

end

end Value

end ConstNarrow
