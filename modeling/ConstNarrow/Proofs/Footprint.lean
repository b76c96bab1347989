/-
**Footprints**: what a computation of the checker leaves behind.

A single run is followed here from state to state. Most steps only write to the journal; they tell it
something, and their result does not depend on the state. The others change the tables of types and
signatures at some expressions, and leave all others alone.
-/
import ConstNarrow.Proofs.Inference

set_option autoImplicit false

namespace ConstNarrow.Checker

variable {α β : Type} {s t u : Checker}

/-! ## Runs that end -/

/-- A computation has a result in a state, and the two are as asked. -/
def Ends (m : CheckM α) (s : Checker) (Q : α → Checker → Prop) : Prop :=
  ∃ a t, m.run s = some (a, t) ∧ Q a t

namespace Ends

variable {m : CheckM α} {Q R : α → Checker → Prop}

/-- What is asked has to hold of the state as it is. -/
protected theorem pure {a : α} (h : Q a s) : Ends (pure a) s Q := ⟨a, s, rfl, h⟩

/-- **Runs compose.** What the first leaves behind is all that is known where the second starts. -/
protected theorem bind {f : α → CheckM β} {S : β → Checker → Prop} (h : Ends m s R)
    (hf : ∀ a t, R a t → Ends (f a) t S) : Ends (m >>= f) s S := by
  obtain ⟨a, t, hm, ha⟩ := h
  obtain ⟨b, u, hrun, hb⟩ := hf a t ha
  refine ⟨b, u, ?_, hb⟩
  rw [StateT.run_bind, hm]
  exact hrun

/-- The same, where the result and the state of the first run are known outright. -/
theorem bind_run {f : α → CheckM β} {S : β → Checker → Prop} {a : α} (h : m.run s = some (a, t))
    (hf : Ends (f a) t S) : Ends (m >>= f) s S :=
  Ends.bind ⟨a, t, h, rfl, rfl⟩ (R := fun b u => b = a ∧ u = t) fun _ _ hr => hr.1 ▸ hr.2 ▸ hf

/-- Less may be asked of a run. -/
theorem mono (h : Ends m s R) (hQ : ∀ a t, R a t → Q a t) : Ends m s Q := by
  obtain ⟨a, t, hm, ha⟩ := h
  exact ⟨a, t, hm, hQ a t ha⟩

/-- A change of the state ends in the changed state. -/
theorem modify {f : Checker → Checker} {Q : Unit → Checker → Prop} (h : Q () (f s)) :
    Ends (modify f : CheckM Unit) s Q :=
  ⟨(), f s, rfl, h⟩

/-- To look up the type of an expression leaves the state as it is. -/
theorem typeOf? {id : ExprId} {Q : Option Ty → Checker → Prop} (h : Q (s.exprTypes.get? id) s) :
    Ends (Checker.typeOf? id) s Q :=
  ⟨_, s, rfl, h⟩

end Ends

/-- The type of a constant that is resolved; there is none for any other. -/
def given (s : Checker) (target : ConstId) : Ty :=
  match s.status.get? target with
  | some (.resolved ty) => ty
  | _ => .error

/-- For a resolved constant, its own type is given. -/
theorem given_eq {target : ConstId} {ty : Ty} (h : s.status.get? target = some (.resolved ty)) :
    s.given target = ty := by
  rw [given, h]

/-! ## What is touched -/

/-- Two states have the same constants, and the same types and signatures outside of some
expressions. -/
structure Touches (inside : ExprId → Prop) (s t : Checker) : Prop where
  status : t.status = s.status
  types : ∀ e, ¬ inside e → t.exprTypes.get? e = s.exprTypes.get? e
  signatures : ∀ e, ¬ inside e → t.signatures.get? e = s.signatures.get? e

/-- No violation has been logged between two states. -/
def Quiet (s t : Checker) : Prop :=
  ∀ v, .violated v ∈ t.journal.log.toList → .violated v ∈ s.journal.log.toList

variable {inside other : ExprId → Prop}

/-- To do nothing touches nothing. -/
theorem Touches.refl (inside : ExprId → Prop) (s : Checker) : Touches inside s s :=
  ⟨rfl, fun _ _ => rfl, fun _ _ => rfl⟩

/-- Two steps that touch no more than some expressions touch no more together. -/
theorem Touches.trans (h : Touches inside s t) (h' : Touches inside t u) : Touches inside s u :=
  ⟨h'.status.trans h.status, fun e he => (h'.types e he).trans (h.types e he),
    fun e he => (h'.signatures e he).trans (h.signatures e he)⟩

/-- More may be counted as touched. -/
theorem Touches.mono (h : Touches inside s t) (hsub : ∀ e, inside e → other e) :
    Touches other s t :=
  ⟨h.status, fun e he => h.types e fun hi => he (hsub e hi),
    fun e he => h.signatures e fun hi => he (hsub e hi)⟩

/-- The journal is no part of the tables: to write to it touches no expression. -/
theorem touches_journal (inside : ExprId → Prop) (s : Checker) (j : Journal) :
    Touches inside s { s with journal := j } :=
  ⟨rfl, fun _ _ => rfl, fun _ _ => rfl⟩

/-- To give a type to an expression touches it and no other. -/
theorem touches_setType {id : ExprId} (hid : inside id) (s : Checker) (ty : Ty) :
    Touches inside s { s with exprTypes := s.exprTypes.insert id ty } := by
  refine ⟨rfl, fun e he => ?_, fun _ _ => rfl⟩
  have hne : e ≠ id := fun heq => he (heq ▸ hid)
  exact (Table.get?_insert _ _ _ _).trans (if_neg hne)

/-- So does giving a signature to it. -/
theorem touches_setSignature {id : ExprId} (hid : inside id) (s : Checker) (signature : Signature) :
    Touches inside s { s with signatures := s.signatures.insert id signature } := by
  refine ⟨rfl, fun _ _ => rfl, fun e he => ?_⟩
  have hne : e ≠ id := fun heq => he (heq ▸ hid)
  exact (Table.get?_insert _ _ _ _).trans (if_neg hne)

/-- The smallest footprint of a new type is the one expression that gets it. -/
theorem touches_type_at (id : ExprId) (s : Checker) (ty : Ty) :
    Touches (· = id) s { s with exprTypes := s.exprTypes.insert id ty } :=
  touches_setType (by rfl) s ty

/-- The smallest footprint of a new signature is the one operator that gets it. -/
theorem touches_signature_at (id : ExprId) (s : Checker) (signature : Signature) :
    Touches (· = id) s { s with signatures := s.signatures.insert id signature } :=
  touches_setSignature (by rfl) s signature

/-- To do nothing logs nothing. -/
theorem Quiet.refl (s : Checker) : Quiet s s := fun _ h => h

/-- Quiet steps make up a quiet run. -/
theorem Quiet.trans (h : Quiet s t) (h' : Quiet t u) : Quiet s u := fun v hv => h v (h' v hv)

/-! ## What is told -/

/-- A computation writes to the journal, logs no violation, and gives a certain result. -/
def Tells (m : CheckM α) (a : α) : Prop :=
  ∀ s, ∃ j, s.journal.Calm j ∧ m.run s = some (a, { s with journal := j })

namespace Tells

variable {m : CheckM α} {a : α}

/-- A mere result tells the journal nothing. -/
protected theorem pure (a : α) : Tells (pure a) a := fun s => ⟨s.journal, .refl _, rfl⟩

/-- **What is told adds up**: the second part may depend on the result of the first, as that is
known. -/
protected theorem bind {f : α → CheckM β} {b : β} (h : Tells m a) (hf : Tells (f a) b) :
    Tells (m >>= f) b := by
  intro s
  obtain ⟨j, hj, hm⟩ := h s
  obtain ⟨k, hk, hrun⟩ := hf { s with journal := j }
  refine ⟨k, hj.trans hk, ?_⟩
  rw [StateT.run_bind, hm]
  exact hrun

/-- An event is told, as long as it is no violation. -/
theorem note {e : Event} (h : ∀ v, e ≠ .violated v) : Tells (Checker.note e) () :=
  fun s => ⟨_, s.journal.calm_note h, rfl⟩

/-- A problem is reported, as long as it lies in one expression. -/
theorem report (location : ExprId) {problem : Problem} (h : problem.isLocal = true) :
    Tells (Checker.report location problem) () :=
  fun s => ⟨_, s.journal.calm_report h, rfl⟩

/-- To fail is to report a problem and to have the error type as the result. -/
theorem fail (location : ExprId) {problem : Problem} (h : problem.isLocal = true) :
    Tells (Checker.fail location problem) .error :=
  (Tells.report location h).bind (.pure _)

/-- To narrow a type may add to the log what could not be narrowed. -/
theorem narrow (ty : Ty) : Tells (Checker.narrow ty) ty.narrowed :=
  fun s => ⟨_, s.journal.calm_noNarrowing _, rfl⟩

/-- What tells the journal something ends in the same state with a journal that has grown. -/
theorem ends (h : Tells m a) {Q : α → Checker → Prop}
    (hQ : ∀ j, s.journal.Calm j → Q a { s with journal := j }) : Ends m s Q := by
  obtain ⟨j, hj, hm⟩ := h s
  exact ⟨a, _, hm, hQ j hj⟩

/-- What comes next starts from the same state with such a journal. -/
theorem ends_bind (h : Tells m a) {f : α → CheckM β} {Q : β → Checker → Prop}
    (hf : ∀ j, s.journal.Calm j → Ends (f a) { s with journal := j } Q) : Ends (m >>= f) s Q := by
  obtain ⟨j, hj, hm⟩ := h s
  exact .bind_run hm (hf j hj)

end Tells

/-! ### Names and literals -/

/-- An imported name has the type that its module exports, and anything else is reported. -/
theorem tells_evalImported (p : Program) (id : ExprId) (moduleName name : String) :
    Tells (evalImported p id moduleName name) (importedTy p moduleName name) := by
  unfold evalImported importedTy
  cases p.imports.lookup moduleName with
  | none => exact .fail id rfl
  | some exports =>
    dsimp only
    cases exports.lookup name with
    | none => exact .fail id rfl
    | some found =>
      cases found with
      | constant ty => exact .pure ty
      | other => exact .fail id rfl

/-- A literal has the type that it is read as, or it is reported as out of range. -/
theorem tells_evalLiteral (p : Program) (id : ExprId) (literal : Literal) (expected : Option Ty) :
    Tells (evalLiteral p id literal expected) (literalTy p literal expected) := by
  unfold evalLiteral literalTy
  cases literal.inferType expected p.settings.pruneLiterals with
  | ok ty => exact .pure ty
  | error e => exact .fail id rfl

/-! ### Lists and records -/

/-- What is spread into a list has to be a tuple without a rest. -/
theorem tells_spreadMembers (operand : ExprId) (ty : Ty) :
    Tells (spreadMembers operand ty) (spreadTys? ty) := by
  by_cases herror : ty.isError = true
  · rw [Ty.isError_iff.mp herror]
    exact .pure _
  · unfold spreadMembers spreadTys?
    rw [if_neg herror]
    cases ty.effective with
    | tuple members rest =>
      cases rest with
      | none => exact .pure _
      | some rest => exact (Tells.report operand rfl).bind (.pure _)
    | _ => exact (Tells.report operand rfl).bind (.pure _)

/-- A field is put into its place, unless it is erroneous or its name is taken; the latter is
reported. -/
theorem tells_putField (location : ExprId) (name : String) (ty : Ty) (placed : Placement) :
    Tells (putField location name ty placed) (placed.put name ty) := by
  unfold putField Placement.put
  by_cases herror : ty.isError = true
  · rw [if_pos herror, if_pos herror]
    exact .pure _
  · rw [if_neg herror, if_neg herror]
    by_cases hfree : placed.fields.contains name = true
    · rw [if_pos hfree, if_pos hfree]
      exact (Tells.report location rfl).bind (.pure _)
    · rw [if_neg hfree, if_neg hfree]
      exact .pure _

/-- Fields are put into their places one by one. -/
theorem tells_putFields (location : ExprId) (fields : List (String × Field)) (placed : Placement) :
    Tells (putFields location fields placed)
      (fields.foldl (fun placed entry => placed.put entry.1 entry.2.ty) placed) := by
  induction fields generalizing placed with
  | nil => exact .pure _
  | cons entry fields ih => exact (tells_putField location entry.1 entry.2.ty placed).bind (ih _)

/-- What is spread into a record puts all of its fields, if it is a record itself. -/
theorem tells_placeSpread (operand : ExprId) (ty : Ty) (placed : Placement) :
    Tells (placeSpread operand ty placed) (placed.spread ty) := by
  unfold placeSpread
  split
  · rename_i herror
    rw [Ty.isError_iff.mp herror]
    exact .pure _
  · unfold Placement.spread
    cases ty.effective with
    | record fields rest isSealed => exact tells_putFields operand _ placed
    | _ => exact (Tells.report operand rfl).bind (.pure _)

/-! ### Operators -/

/-- For each base, the first combination that has it is folded. One without a value is noted in the
log and left out. -/
theorem tells_foldBases (op : BinaryOp) (viable : List Combination) (bases : List Primitive) :
    Tells (foldBases op viable bases) (bases.filterMap fun base =>
      (viable.find? (·.base == base)).bind fun c => op.fold? c.lhs.value c.rhs.value base) := by
  induction bases with
  | nil => exact .pure _
  | cons base bases ih =>
    -- what is left to be done does not depend on how this base came out
    have hnext : ∀ value : Option Scalar,
        Tells (foldBases op viable bases >>= fun values => pure (value.toList ++ values))
          (value.toList ++ bases.filterMap fun base =>
            (viable.find? (·.base == base)).bind fun c => op.fold? c.lhs.value c.rhs.value base) :=
      fun _ => ih.bind (.pure _)
    rw [List.filterMap_cons]
    unfold foldBases
    cases viable.find? (·.base == base) with
    | none => exact hnext none
    | some c =>
      dsimp only [Option.bind_some]
      cases op.fold? c.lhs.value c.rhs.value base with
      | none => exact (Tells.note fun _ h => (by cases h)).bind (hnext none)
      | some v => exact hnext (some v)

/-- The type of what was folded; if there is nothing, the operator is reported. -/
theorem tells_foldedType (id : ExprId) (symbol : String) (operands : List Ty) (folded : List Scalar) :
    Tells (foldedType id symbol operands folded) (foldedTy folded) := by
  unfold foldedType foldedTy
  by_cases hempty : folded.isEmpty = true
  · rw [if_pos hempty, if_pos hempty]
    exact .fail id rfl
  · rw [if_neg hempty, if_neg hempty]
    exact .pure _

end ConstNarrow.Checker
