/-
**Suggestions** for a name that is not defined: the closest of the names that are.

The distance of two names is the least number of characters to insert, delete or replace that turns
one into the other. It is computed row by row: a row holds the distances of one beginning of the
first name to every beginning of the second.
-/

set_option autoImplicit false

namespace ConstNarrow.Suggestion

/-- Continues a row of distances by one character `a` of the first name. `left` is the distance
just computed, and the list holds what is left of the row before. -/
def extendRow (a : Char) (left : Nat) : List Char → List Nat → List Nat
  | b :: bs, diagonal :: above :: row =>
    -- turn `a` into `b`, delete `a`, or insert `b`
    let here := min (min (diagonal + if a = b then 0 else 1) (above + 1)) (left + 1)
    here :: extendRow a here bs (above :: row)
  | _, _ => []

/-- The row after one more character of the first name. -/
def nextRow (bs : List Char) (row : List Nat) (a : Char) : List Nat :=
  let first := row.headD 0 + 1
  first :: extendRow a first bs row

/-- The distance between two names. -/
def distance (a b : String) : Nat :=
  (a.toList.foldl (nextRow b.toList) (List.range (b.length + 1))).getLastD 0

/-- How far a name may be from a suggestion for it: half its length, at least 1 and at most 3. -/
def reach (name : String) : Nat := min (max ((name.length + 1) / 2) 1) 3

/-- The nearer of the best so far and one more name; the earlier of two at one distance. -/
def better (needle : String) (best : Option (String × Nat)) (candidate : String) :
    Option (String × Nat) :=
  let d := distance needle candidate
  if d = 0 ∨ reach needle < d then best
  else
    match best with
    | none => some (candidate, d)
    | some (name, least) => if least ≤ d then some (name, least) else some (candidate, d)

/-- The closest name other than the given one, if it is close enough to be meant. -/
def closest? (needle : String) (candidates : List String) : Option String :=
  (candidates.foldl (better needle) none).map Prod.fst

/-- The suggestion as it is shown. -/
def render (name : String) : String := "did you mean `" ++ name ++ "`?"

end ConstNarrow.Suggestion
