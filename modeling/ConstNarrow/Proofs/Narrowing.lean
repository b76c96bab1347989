/-
**Narrowing stays inside the type**: what it leaves is assignable to the type it started from, has
nothing open in it, and is not narrowed any further.

A broad type has no narrowing. The error type that takes its place is assignable both ways, so the
result stays assignable however deep such a place lies; `withoutNarrowing` lists those that are met.
-/
import ConstNarrow.Proofs.Aliases
import ConstNarrow.Proofs.Revalidation

set_option autoImplicit false

namespace ConstNarrow.Ty

/-- Whether narrowing keeps the form of a type: values and structures, and what has been reported. -/
def isSettled : Ty → Bool
  | .finite _ | .array _ _ | .tuple _ _ | .record _ _ _ | .error => true
  | .primitive _ | .map _ | .table | .anydata | .json | .union _ | .reference _ _
  | .intersection _ => false

/-- Nothing in a narrowed type is left open. -/
theorem everywhere_isSettled_narrowed (ty : Ty) : ty.narrowed.everywhere isSettled = true := by
  induction ty using induction_parts with
  | array elem size ih => exact everywhere_array.mpr ⟨rfl, ih⟩
  | tuple members rest ih ihrest =>
    rw [narrowed, everywhere_tuple, narrowedList_eq_map]
    exact ⟨rfl, List.forall_mem_map.mpr ih, forall_mem_narrowedOption.mpr ihrest⟩
  | record fields rest isSealed ih ihrest =>
    rw [narrowed, everywhere_record, toList_narrowedFields]
    exact ⟨rfl, List.forall_mem_map.mpr ih, forall_mem_narrowedOption.mpr ihrest⟩
  | union members ih =>
    cases members with
    | nil => rfl
    | cons first members => exact ih first List.mem_cons_self
  | reference name referred ih => exact ih
  | intersection inner ih => exact ih
  | primitive p =>
    rw [narrowed]
    split <;> rfl
  | map | table | anydata | json | finite | error => rfl

/-! ## The way back -/

section Accepts

variable {members : List Ty} {rest : Option Ty}

theorem acceptsEach_narrowed (ih : ∀ ty ∈ members, ty.accepts ty.narrowed = true) (extra : Ty → Bool) :
    acceptsEach members extra (narrowedList members) = true := by
  rw [narrowedList_eq_map, ← List.append_nil (members.map narrowed)]
  refine acceptsEach_append ?_ fun _ h => absurd h List.not_mem_nil
  rw [List.forall₂_map_right_iff, List.forall₂_same]
  exact ih

theorem exists_accepts_of_mem_narrowedOption (ih : ∀ ty ∈ rest, ty.accepts ty.narrowed = true) :
    ∀ ty ∈ narrowedOption rest, ∃ other ∈ rest, other.accepts ty = true :=
  forall_mem_narrowedOption.mpr fun other hother => ⟨other, hother, ih other hother⟩

/-- The narrowed fields fill the record: they have the same names, and are required alike. -/
theorem fills_narrowed {fields : Fields none} {isSealed : Bool}
    (ih : ∀ entry ∈ fields.toList, entry.2.ty.accepts entry.2.ty.narrowed = true)
    (ihrest : ∀ ty ∈ rest, ty.accepts ty.narrowed = true) :
    Fills (narrowedFields fields) (narrowedOption rest) fields rest isSealed where
  missing name field hfield hnone := by
    rw [Fields.get?_narrowedFields, hfield] at hnone
    cases hnone
  present name field source hfield hsource := by
    rw [Fields.get?_narrowedFields, hfield] at hsource
    cases hsource
    exact ⟨id, ih _ (Fields.mem_toList_of_get? fields hfield)⟩
  placed name source hsource hnone := by
    rw [Fields.get?_narrowedFields, hnone] at hsource
    cases hsource
  further ty hty :=
    acceptsOption_iff.mpr (Or.inr (exists_accepts_of_mem_narrowedOption ihrest ty hty))

end Accepts

/-- What narrowing leaves is assignable to the type itself. -/
theorem accepts_narrowed (ty : Ty) : ty.accepts ty.narrowed = true := by
  induction ty using induction_parts with
  | array elem size ih =>
    exact array_accepts_array_iff.mpr ⟨by cases size <;> simp [sizeAccepts], ih⟩
  | tuple members rest ih ihrest =>
    exact tuple_accepts_iff.mpr
      ⟨acceptsEach_narrowed ih _, exists_accepts_of_mem_narrowedOption ihrest⟩
  | record fields rest isSealed ih ihrest => exact record_accepts_iff.mpr (fills_narrowed ih ihrest)
  | union members ih =>
    cases members with
    | nil => exact accepts_error _
    | cons first members =>
      exact joins first.narrowed _ first List.mem_cons_self (ih first List.mem_cons_self)
  | reference name referred ih => exact ih
  | intersection inner ih => exact ih
  | finite values => exact accepts_of_same _ (same_refl _)
  | primitive p =>
    rw [narrowed]
    split
    · rename_i hnil
      subst hnil
      exact accepts_singleton _ rfl
    · exact accepts_error _
  | map | table | anydata | json | error => exact accepts_error _

/-- **Narrowing is stable and stays inside the type**: a second narrowing changes nothing, nothing in
the result is open, and the result is assignable to the type. -/
theorem narrowed_isStable (ty : Ty) :
    ty.narrowed.narrowed = ty.narrowed ∧ ty.narrowed.everywhere isSettled = true
      ∧ ty.narrowed.isAssignable ty = true :=
  ⟨narrowed_narrowed ty, everywhere_isSettled_narrowed ty, accepts_narrowed ty⟩

end ConstNarrow.Ty
