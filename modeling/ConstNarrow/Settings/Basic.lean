/-
**Settings** of a check, and how they are read from a document. Every setting has a default, and
keys that are not settings are ignored.
-/
import ConstNarrow.Settings.Document
import ConstNarrow.Report.Diagnostic

set_option autoImplicit false

namespace ConstNarrow

/-- What can be set. -/
structure Settings where
  /-- whether literals lose the readings that the expected type cannot hold -/
  pruneLiterals : Bool
  /-- how serious an ambiguous type is -/
  ambiguity : Severity
  /-- how deep the resolution of one constant from another may nest -/
  maxDepth : Nat
deriving DecidableEq, Repr

namespace Settings

/-- What holds if nothing is set. -/
def default : Settings := ⟨true, .error, 256⟩

/-- A setting that is given and has the right form, or its default if it is not given. -/
def entry? {α : Type} (d : Document) (key : String) (default : α)
    (read : Document.Value → Option α) : Option α :=
  match d.find key with
  | .absent => some default
  | .value value => read value
  | .heading => none

/-- A truth value. -/
def boolean? : Document.Value → Option Bool
  | .boolean b => some b
  | _ => none

/-- A severity by its name. -/
def severity? : Document.Value → Option Severity
  | .string "error" => some .error
  | .string "warning" => some .warning
  | _ => none

/-- A number that is not negative. -/
def natural? : Document.Value → Option Nat
  | .integer (.ofNat n) => some n
  | _ => none

/-- The settings of a document, unless one of them has the wrong form. -/
def ofDocument? (d : Document) : Option Settings := do
  let pruneLiterals ← entry? d "prune-literal-candidates" default.pruneLiterals boolean?
  let ambiguity ← entry? d "ambiguous-type-severity" default.ambiguity severity?
  let maxDepth ← entry? d "max-resolution-depth" default.maxDepth natural?
  pure ⟨pruneLiterals, ambiguity, maxDepth⟩

/-- Reads settings. -/
def read? (text : String) : Option Settings := (Document.read? text).bind ofDocument?

end Settings

end ConstNarrow
