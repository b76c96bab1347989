/-
**What a constant reports, if its type comes out well, was reported by the validation of its type.**

Committing a type reports nothing in any case, and neither does the evaluation of a value whose type
is not erroneous. So between the evaluation and the end of a constant there is only the validation by
which its type is settled.
-/
import ConstNarrow.Proofs.ForestCheck
import ConstNarrow.Proofs.Outcomes

set_option autoImplicit false

namespace ConstNarrow.Checker

open Journal (SameReports)

/-! ## Committing -/

section Committing

variable {p : Program} {recurse : ExprId → Ty → CheckM Unit}

/-- A reading is picked and set as the type, or what stands against it is logged. -/
theorem silent_commitReading (id : ExprId) (target : Ty) : Silent (commitReading id target) := by
  refine (Silent.typeOf? id).bind fun found => ?_
  split
  · split
    · split
      · exact .setType id target
      · exact .pure _
    · exact .pure _
  · split
    · exact .setType id _
    · exact .note _
  · exact .pure _

/-- A signature is settled by the types of the operands as they are. -/
theorem silent_settleSignature (id : ExprId) (operands : List ExprId) :
    Silent (settleSignature id operands) := by
  refine Clean.write fun s => ?_
  dsimp only
  split <;> exact .refl _

theorem silent_spreadLength (operand : ExprId) : Silent (spreadLength operand) := by
  refine (Silent.typeOf? operand).bind fun found => ?_
  split <;> exact .pure _

theorem silent_keyName? (key : ExprId) : Silent (keyName? key) :=
  (Silent.typeOf? key).bind fun _ => .pure _

theorem silent_keyNames (fields : List RecordField) : Silent (keyNames fields) := by
  induction fields with
  | nil => exact .pure _
  | cons field fields ih =>
    cases field with
    | computed key value => exact (silent_keyName? key).bind fun _ => ih.bind fun _ => .pure _
    | named | reference | spread => exact ih

theorem silent_commitItems (hrecurse : ∀ e ty, Silent (recurse e ty)) (id : ExprId) (target : Ty)
    (position? : Nat → Option Ty) (items : List ListItem) (index : Nat) :
    Silent (commitItems recurse id target position? index items) := by
  induction items generalizing index with
  | nil => exact .pure _
  | cons item items ih =>
    cases item with
    | member value =>
      unfold commitItems
      dsimp only
      split
      · exact (hrecurse value _).bind fun _ => ih _
      · exact Silent.bind (.note _) fun _ => ih _
    | spread operand => exact (silent_spreadLength operand).bind fun _ => ih _

theorem silent_commitPlace (hrecurse : ∀ e ty, Silent (recurse e ty)) (id : ExprId) (target : Ty)
    (fields : Fields none) (name : Option String) (value : ExprId) :
    Silent (commitPlace recurse id target fields name value) := by
  unfold commitPlace
  split
  · exact hrecurse value _
  · exact .note _

theorem silent_commitWritten (hrecurse : ∀ e ty, Silent (recurse e ty)) (id : ExprId) (target : Ty)
    (fields : Fields none) (overwritten : List String) (name : Option String) (value : ExprId) :
    Silent (commitWritten recurse id target fields overwritten name value) := by
  unfold commitWritten
  split
  · refine (Silent.typeOf? value).bind fun found => ?_
    split
    · exact (Silent.narrow _).bind fun ty => hrecurse value ty
    · exact .pure _
  · exact silent_commitPlace hrecurse id target fields name value

theorem silent_commitFields (hrecurse : ∀ e ty, Silent (recurse e ty)) (id : ExprId) (target : Ty)
    (targetFields : Fields none) (overwritten : List String) (fields : List RecordField) :
    Silent (commitFields p recurse id target targetFields overwritten fields) := by
  induction fields with
  | nil => exact .pure _
  | cons field fields ih =>
    unfold commitFields
    cases field with
    | named name value =>
      exact (silent_commitWritten hrecurse id target targetFields overwritten _ value).bind fun _ => ih
    | reference value =>
      exact (silent_commitWritten hrecurse id target targetFields overwritten _ value).bind fun _ => ih
    | computed key value =>
      refine (silent_keyName? key).bind fun name => ?_
      exact (silent_commitPlace hrecurse id target targetFields name value).bind fun _ => ih
    | spread operand => exact (Silent.pure ()).bind fun _ => ih

/-- One step down: parts are committed silently if this is so one level below. -/
theorem silent_commitStep (hrecurse : ∀ e ty, Silent (recurse e ty)) (id : ExprId) (target : Ty) :
    Silent (commitStep p recurse id target) := by
  unfold commitStep
  split
  · exact .pure _
  · cases p.source.expr id with
    | missing | unsupported => exact .pure _
    | literal | reference => exact silent_commitReading id target
    | list items =>
      dsimp only
      split
      · exact (silent_commitItems hrecurse id _ _ items 0).bind fun _ => .setType id _
      · exact .note _
    | record fields =>
      dsimp only
      split
      · refine (silent_keyNames fields).bind fun overwritten => ?_
        exact (silent_commitFields hrecurse id _ _ overwritten fields).bind fun _ => .setType id _
      · exact .note _
    | binary op lhs rhs =>
      refine (hrecurse lhs target).bind fun _ => (hrecurse rhs target).bind fun _ => ?_
      exact (silent_commitReading id target).bind fun _ => silent_settleSignature id _
    | unary op operand =>
      refine (hrecurse operand target).bind fun _ => ?_
      exact (silent_commitReading id target).bind fun _ => silent_settleSignature id _
    | group inner => exact (hrecurse inner target).bind fun _ => silent_commitReading id target

/-- **Committing a type reports nothing.** -/
theorem silent_commitWithin (n : Nat) (id : ExprId) (ty : Ty) : Silent (commitWithin p n id ty) := by
  induction n generalizing id ty with
  | zero => exact fun s a t hrun => (by cases hrun)
  | succ n ih => exact silent_commitStep ih id ty.effective

end Committing

/-! ## Settling -/

section Settling

variable {p : Program} {value : ExprId} {declared : Option Ty} {inferred ty : Ty} {s t : Checker}
variable {k : Journal}

/-- The validation by which the type of a value is settled: without a declared type it is narrowed. -/
def settling (p : Program) (value : ExprId) (declared : Option Ty) (inferred : Ty) : Validation Ty :=
  match declared with
  | some expected => validate ⟨some value, p.settings.ambiguity⟩ expected inferred
  | none => Validation.narrow inferred

theorem run_anchored_settling {expected : Ty} {result : Except NarrowError Ty}
    (h : (settling p value (some expected) inferred).run s.journal = (result, k)) :
    (anchored p value fun site => validate site expected inferred).run s
      = some (result, { s with journal := k }) :=
  Simulation.run_anchored (v := fun site => validate site expected inferred) h

/-- What is done with a type once it is settled. -/
def conclude (p : Program) (value : ExprId) (final : Ty) : CheckM Ty := do
  unless final.isError do commit p value final
  pure final

/-- Nothing is reported once a type is settled. -/
theorem silent_conclude (final : Ty) : Silent (conclude p value final) := by
  unfold conclude
  cases final.isError with
  | true => exact .pure _
  | false => exact (silent_commitWithin _ value final).bind fun _ => .pure _

/-- The type that is settled is the one that comes out. -/
theorem eq_of_conclude {final : Ty} (h : (conclude p value final).run s = some (ty, t)) :
    ty = final := by
  unfold conclude at h
  cases herror : final.isError with
  | true =>
    rw [herror] at h
    cases h
    rfl
  | false =>
    rw [herror] at h
    obtain ⟨_, -, hpure⟩ := Option.bind_eq_some_iff.mp h
    cases hpure
    rfl

/-- A type that is settled is committed, after what the validation has written to the journal. -/
theorem run_conclude_of_settling (hok : inferred.isError = false) {final : Ty}
    (hsettling : (settling p value declared inferred).run s.journal = (.ok final, k))
    (h : (settle p value declared inferred).run s = some (ty, t)) :
    (conclude p value final).run { s with journal := k } = some (ty, t) := by
  rw [← h]
  unfold settle
  rw [hok, if_neg Bool.false_ne_true]
  cases declared with
  | none =>
    cases hsettling
    rfl
  | some expected =>
    rw [run_bind_some (run_anchored_settling hsettling)]
    rfl

/-- Nothing more is reported when a type is committed. -/
theorem eq_of_settle_ok (hok : inferred.isError = false) {final : Ty}
    (hsettling : (settling p value declared inferred).run s.journal = (.ok final, k))
    (h : (settle p value declared inferred).run s = some (ty, t)) :
    ty = final ∧ k.SameReports t.journal := by
  have hconclude := run_conclude_of_settling hok hsettling h
  exact ⟨eq_of_conclude hconclude, (silent_conclude final _ _ _ hconclude trivial).2⟩

/-- What comes out well was inferred, and settled by the validation. -/
theorem exists_settling (h : (settle p value declared inferred).run s = some (ty, t))
    (hty : ty.isError = false) : inferred.isError = false ∧ ∃ k,
      (settling p value declared inferred).run s.journal = (.ok ty, k) ∧ k.SameReports t.journal := by
  cases hok : inferred.isError with
  | true =>
    unfold settle at h
    rw [hok, if_pos rfl] at h
    cases h
    cases hty
  | false =>
    refine ⟨rfl, ?_⟩
    rcases hsettling : (settling p value declared inferred).run s.journal with ⟨result, k⟩
    cases result with
    | ok final =>
      obtain ⟨rfl, hreports⟩ := eq_of_settle_ok hok hsettling h
      exact ⟨k, rfl, hreports⟩
    | error e =>
      -- a validation that fails gives the error type
      exfalso
      cases declared with
      | none => cases hsettling
      | some expected =>
        unfold settle at h
        rw [hok, if_neg Bool.false_ne_true] at h
        cases e with
        | mismatch =>
          rw [run_bind_some (run_anchored_settling hsettling)] at h
          cases h
          cases hty
        | reported =>
          rw [run_bind_some (run_anchored_settling hsettling)] at h
          cases h
          cases hty

/-- What comes out well was committed in the end. -/
theorem exists_commit (h : (settle p value declared inferred).run s = some (ty, t))
    (hty : ty.isError = false) :
    ∃ k, (commit p value ty).run { s with journal := k } = some ((), t) := by
  obtain ⟨hok, k, hsettling, -⟩ := exists_settling h hty
  have hconclude := run_conclude_of_settling hok hsettling h
  unfold conclude at hconclude
  rw [hty] at hconclude
  obtain ⟨⟨_, u⟩, hcommit, hpure⟩ := Option.bind_eq_some_iff.mp hconclude
  cases hpure
  exact ⟨k, hcommit⟩

end Settling

end ConstNarrow.Checker
