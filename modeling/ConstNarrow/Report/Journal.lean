/-
**The journal** of a check: the diagnostics so far, and the log.

What is tried only for the sake of trying is done while the journal is muted: diagnostics are then
dropped, and the log says so. Muting nests.
-/
import ConstNarrow.Report.Log

set_option autoImplicit false

namespace ConstNarrow

/-- Diagnostics and events in the order of their appearance, and how often the journal is muted. -/
structure Journal where
  diagnostics : Array Diagnostic
  muteDepth : Nat
  log : Array Event

namespace Journal

/-- The journal before anything happened. -/
def empty : Journal := ⟨#[], 0, #[]⟩

/-- Whether diagnostics are dropped. -/
def isMuted (j : Journal) : Bool := 0 < j.muteDepth

/-- Adds an event to the log. -/
def note (j : Journal) (e : Event) : Journal := { j with log := j.log.push e }

/-- Adds events to the log. -/
def noteAll (j : Journal) (es : List Event) : Journal := es.foldl note j

/-- Reports a diagnostic, unless the journal is muted. -/
def report (j : Journal) (d : Diagnostic) : Journal :=
  if j.isMuted then j.note (.droppedDiagnostic d) else { j with diagnostics := j.diagnostics.push d }

/-- Drops diagnostics from here on. -/
def mute (j : Journal) : Journal := { j with muteDepth := j.muteDepth + 1 }

/-- Takes back one `mute`. -/
def unmute (j : Journal) : Journal := { j with muteDepth := j.muteDepth - 1 }

/-! ## What the operations leave alone -/

@[simp] theorem diagnostics_note (j : Journal) (e : Event) :
    (j.note e).diagnostics = j.diagnostics := rfl

@[simp] theorem muteDepth_note (j : Journal) (e : Event) : (j.note e).muteDepth = j.muteDepth := rfl

@[simp] theorem diagnostics_noteAll (j : Journal) (es : List Event) :
    (j.noteAll es).diagnostics = j.diagnostics := by
  induction es generalizing j with
  | nil => rfl
  | cons e es ih => simpa [noteAll] using ih (j.note e)

@[simp] theorem muteDepth_noteAll (j : Journal) (es : List Event) :
    (j.noteAll es).muteDepth = j.muteDepth := by
  induction es generalizing j with
  | nil => rfl
  | cons e es ih => simpa [noteAll] using ih (j.note e)

@[simp] theorem unmute_mute (j : Journal) : j.mute.unmute = j := rfl

@[simp] theorem muteDepth_report (j : Journal) (d : Diagnostic) :
    (j.report d).muteDepth = j.muteDepth := by
  unfold report
  split <;> rfl

/-- A muted journal drops what is reported. -/
theorem diagnostics_report (j : Journal) (d : Diagnostic) :
    (j.report d).diagnostics = if j.isMuted then j.diagnostics else j.diagnostics.push d := by
  unfold report
  split <;> rfl

end Journal

end ConstNarrow
