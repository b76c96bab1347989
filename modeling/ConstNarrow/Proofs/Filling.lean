/-
**Filling a place**: what a default is, and what is to blame if there is none.

To fill a type, parts of it have to be filled: the element of an array of fixed length, the members of
a tuple, the required fields of a record, the member of a union that has one only. `demanded` lists
them in the order in which they are come upon, without saying what a default is. There is no default
exactly if the list has a type that offers no choice of its own, and the first such type is the one
that is reported.

A default is assignable to its type, and has one value. It consists of single values, tuples and
sealed records; only a table stays what it is.
-/
import ConstNarrow.Proofs.Validated

set_option autoImplicit false

namespace ConstNarrow

/-! ## What has to be filled -/

/-- Whether an array of this size has a member to be filled. -/
def ArraySize.hasMember : ArraySize → Bool
  | .closed length => length != 0
  | .unbounded => false
  | .inferred => false

namespace Ty

mutual

/-- The types that have to be filled in order to fill a type, each before those inside it. Names and
immutability are looked through. -/
def demanded : Ty → List Ty
  | .array elem size => .array elem size :: if size.hasMember then elem.demanded else []
  | .tuple members rest => .tuple members rest :: demandedList members
  | .record fields rest isSealed => .record fields rest isSealed :: demandedFields fields
  | .union members => .union members :: if members.length = 1 then demandedList members else []
  | .reference _ referred => referred.demanded
  | .intersection inner => inner.demanded
  | ty => [ty]
termination_by structural ty => ty

/-- The types that have to be filled in order to fill all types of a list. -/
def demandedList : List Ty → List Ty
  | [] => []
  | ty :: tys => ty.demanded ++ demandedList tys
termination_by structural tys => tys

/-- The types that have to be filled in order to fill the required fields. -/
def demandedFields : {bound : Option String} → Fields bound → List Ty
  | _, .nil => []
  | _, .cons _ _ ty required tail =>
    if required then ty.demanded ++ demandedFields tail else demandedFields tail
termination_by structural _ fields => fields

end

/-- Whether a type offers no choice, apart from its parts: an array whose length is still to be found,
or several values or members, or none, without nil among them. -/
def lacksDefault : Ty → Bool
  | .array _ size => size == .inferred
  | .finite values => values.length != 1 && !(Ty.finite values).containsNil
  | .union members => members.length != 1 && !(Ty.union members).containsNil
  | _ => false

/-! ## What is to blame -/

section Blame

variable {α β : Type}

/-- The type to which a failure is put down. -/
def blamed? : Except Ty α → Option Ty
  | .ok _ => none
  | .error part => some part

theorem blamed?_eq_some_iff {e : Except Ty α} {part : Ty} : blamed? e = some part ↔ e = .error part := by
  cases e <;> simp [blamed?]

theorem blamed?_map (e : Except Ty α) (f : α → β) : blamed? (e.map f) = blamed? e := by
  cases e <;> rfl

/-- Of two failures the first one counts. -/
theorem blamed?_bind_map {γ : Type} (e : Except Ty α) (e' : Except Ty β) (f : α → β → γ) :
    blamed? (e.bind fun a => e'.map (f a)) = (blamed? e).or (blamed? e') := by
  cases e with
  | error part => rfl
  | ok a => exact blamed?_map e' (f a)

end Blame

/-- Of the types of a list, the first one without a default is to blame. -/
theorem blamed?_defaultList {tys : List Ty}
    (h : ∀ ty ∈ tys, blamed? ty.default = ty.demanded.find? lacksDefault) :
    blamed? (defaultList tys) = (demandedList tys).find? lacksDefault := by
  induction tys with
  | nil => rfl
  | cons ty tys ih =>
    rw [List.forall_mem_cons] at h
    rw [defaultList, demandedList, blamed?_bind_map, List.find?_append, h.1, ih h.2]

/-- Of the fields, the first one that is required and has no default is to blame. -/
theorem blamed?_defaultFields {bound : Option String} : (fields : Fields bound) →
    (∀ entry ∈ fields.toList, blamed? entry.2.ty.default = entry.2.ty.demanded.find? lacksDefault) →
    blamed? (defaultFields fields) = (demandedFields fields).find? lacksDefault
  | .nil, _ => rfl
  | .cons name above ty required tail, h => by
    rw [Fields.toList, List.forall_mem_cons] at h
    have htail := blamed?_defaultFields tail h.2
    rw [defaultFields, demandedFields]
    by_cases hrequired : required = true
    · rw [if_pos hrequired, if_pos hrequired, blamed?_bind_map, List.find?_append, h.1, htail]
    · rw [if_neg hrequired, if_neg hrequired, htail]

/-- With none or several values the choice is nil, or there is none. -/
theorem default_finite {values : List Singleton} (h : values.length ≠ 1) :
    (Ty.finite values).default
      = if (Ty.finite values).containsNil then .ok (singleton .nil) else .error (.finite values) := by
  rw [default.eq_def]
  dsimp only
  split
  · exact absurd rfl h
  · rfl

/-- The same for the members of a union. -/
theorem default_union {members : List Ty} (h : members.length ≠ 1) :
    (Ty.union members).default
      = if (Ty.union members).containsNil then .ok (singleton .nil) else .error (.union members) := by
  rw [default.eq_def]
  dsimp only
  split
  · exact absurd rfl h
  · rfl

theorem blamed?_ambiguous {ty value : Ty} (h : ty.lacksDefault = !ty.containsNil) :
    blamed? (if ty.containsNil then .ok value else .error ty) = [ty].find? lacksDefault := by
  rw [List.find?_singleton, h]
  cases ty.containsNil <;> rfl

/-- **The walk stops at the first place that lacks a default**, and only there. -/
theorem blamed?_default (ty : Ty) : blamed? ty.default = ty.demanded.find? lacksDefault := by
  induction ty using induction_parts with
  | array elem size ih =>
    cases size with
    | unbounded => rfl
    | inferred => rfl
    | closed n =>
      cases n with
      | zero => rfl
      | succ n =>
        show blamed? (elem.default.map _) = elem.demanded.find? lacksDefault
        rw [blamed?_map, ih]
  | tuple members rest ih _ =>
    show blamed? ((defaultList members).map _) = (demandedList members).find? lacksDefault
    rw [blamed?_map, blamed?_defaultList ih]
  | record fields rest isSealed ih _ =>
    show blamed? ((defaultFields fields).map _) = (demandedFields fields).find? lacksDefault
    rw [blamed?_map, blamed?_defaultFields fields ih]
  | finite values =>
    by_cases hone : values.length = 1
    · obtain ⟨only, rfl⟩ := List.length_eq_one_iff.mp hone
      rfl
    · rw [default_finite hone]
      exact blamed?_ambiguous (by simp [lacksDefault, hone])
  -- a union of one member passes the question on to it, and is not to blame itself
  | union members ih =>
    by_cases hone : members.length = 1
    · obtain ⟨only, rfl⟩ := List.length_eq_one_iff.mp hone
      show blamed? only.default = (only.demanded ++ []).find? lacksDefault
      rw [List.append_nil]
      exact ih only List.mem_cons_self
    · rw [default_union hone, demanded, if_neg hone]
      exact blamed?_ambiguous (by simp [lacksDefault, hone])
  | reference name referred ih => exact ih
  | intersection inner ih => exact ih
  | primitive | map | table | anydata | json | error => rfl

/-- A failure names the first place that lacks a default. -/
theorem default_eq_error_iff {ty part : Ty} :
    ty.default = .error part ↔ ty.demanded.find? lacksDefault = some part := by
  rw [← blamed?_default, blamed?_eq_some_iff]

/-! ## What a default looks like -/

/-- Whether a type, apart from its parts, is a single value, a tuple of fixed length, a sealed record
all of whose fields are required, or a table. -/
def isFilled : Ty → Bool
  | .finite values => values.length == 1
  | .tuple _ rest => rest.isNone
  | .record fields rest isSealed => isSealed && rest.isNone && fields.toList.all (·.2.required)
  | .table => true
  | _ => false

/-- What is required of a default: its parts are filled, and it has a value. -/
structure IsFilling (d : Ty) : Prop where
  everywhere : d.everywhere isFilled = true
  value : ∃ value, Value.ofTy? d = some value

namespace IsFilling

protected theorem singleton {s : Singleton} (h : s.isProper = true) : IsFilling (singleton s) :=
  ⟨rfl, exists_ofSingleton h⟩

protected theorem tuple {members : List Ty} (h : ∀ member ∈ members, IsFilling member) :
    IsFilling (.tuple members none) := by
  obtain ⟨values, hvalues⟩ := exists_ofTys fun member hmem => (h member hmem).value
  constructor
  · exact everywhere_tuple.mpr ⟨rfl, fun member hmem => (h member hmem).everywhere, by simp⟩
  · refine ⟨.list values, ?_⟩
    rw [Value.ofTy?, hvalues]
    rfl

/-- A sealed record of fillings is one. -/
protected theorem sealedOf {entries : List (String × Ty)} (h : ∀ entry ∈ entries, IsFilling entry.2) :
    IsFilling (sealedOf entries) := by
  have hfields : ∀ field ∈ (Fields.ofList (entries.map fun entry => (entry.1, ⟨entry.2, true⟩))).toList,
      field.2.required = true ∧ IsFilling field.2.ty := by
    intro field hfield
    obtain ⟨entry, hentry, rfl⟩ := List.mem_map.mp (Fields.mem_of_mem_toList_ofList hfield)
    exact ⟨rfl, h entry hentry⟩
  obtain ⟨values, hvalues⟩ := exists_ofFields _ fun field hfield => (hfields field hfield).2.value
  constructor
  · refine everywhere_record.mpr ⟨?_, fun field hfield => (hfields field hfield).2.everywhere, by simp⟩
    exact List.all_eq_true.mpr fun field hfield => (hfields field hfield).1
  · refine ⟨.map values, ?_⟩
    show (Value.ofFields? _).map Value.map = _
    rw [hvalues]
    rfl

end IsFilling

/-- **A default has one value**, if the type holds no error. -/
theorem isFilling_default {ty d : Ty} (hproper : ty.everywhere holdsProper = true)
    (herror : ty.everywhere isNoError = true) (h : ty.default = .ok d) : IsFilling d := by
  -- one property at a time would need two inductions over the ways to have a default
  have hsound : ty.everywhere (fun ty => holdsProper ty && isNoError ty) = true :=
    everywhere_of_imp (fun ty hty hty' => Bool.and_eq_true_iff.mpr ⟨hty, hty'⟩) hproper herror
  refine default_induction
    (motive := fun ty d => ty.everywhere (fun ty => holdsProper ty && isNoError ty) = true → IsFilling d)
    ?primitive ?array ?tuple ?record ?map ?table ?nil ?value ?union ?reference ?intersection ?error
    h hsound
  case primitive => exact fun p _ => .singleton (Singleton.isProper_default p)
  case array =>
    intro elem size members ih _ hty
    exact .tuple fun member hmem => ih member hmem (everywhere_array.mp hty).2
  case tuple =>
    intro members rest values ih hty
    refine .tuple fun value hvalue => ?_
    obtain ⟨member, hmem, hfilling⟩ := exists_of_mem_right ih hvalue
    exact hfilling ((everywhere_tuple.mp hty).2.1 member hmem)
  case record =>
    intro fields rest isSealed entries ih hty
    refine .sealedOf fun entry hentry => ?_
    obtain ⟨field, hfield, -, hfilling⟩ := exists_of_mem_right ih hentry
    exact hfilling ((everywhere_record.mp hty).2.1 field (List.mem_of_mem_filter hfield))
  case map => exact fun _ _ => .sealedOf fun _ hentry => (by cases hentry)
  case table => exact fun _ => ⟨rfl, .list [], rfl⟩
  case nil => exact fun _ _ _ => .singleton (Singleton.isProper_ofScalar _)
  case value =>
    intro s hty
    obtain ⟨hall, -⟩ := Bool.and_eq_true_iff.mp (everywhere_self hty)
    exact .singleton (List.all_eq_true.mp hall s List.mem_cons_self)
  case union => exact fun ty _ ih hty => ih ((everywhere_union.mp hty).2 ty List.mem_cons_self)
  case reference => exact fun _ _ _ ih hty => ih (everywhere_reference.mp hty).2
  case intersection => exact fun _ _ ih hty => ih (everywhere_intersection.mp hty).2
  case error => exact fun hty => (by cases hty)

end Ty

/-! ## Filling in a check -/

open Checker

/-- Filling fails where there is no default. With an anchor, the place that is to blame is reported. -/
theorem exists_run_fillValue_of_error (p : Program) {ty part : Ty} (h : ty.default = .error part)
    (s : Checker) :
    ∃ e t, (fillValue p ty).run s = some (.error e, t) ∧ ∀ location, s.anchor = some location →
      e = .reported ∧ t = { s with journal := s.journal.report (.error location (.noDefault part)) } := by
  have hrun : (fillValue p ty).run s
      = some (((Validation.fill ⟨s.anchor, p.settings.ambiguity⟩ ty).run s.journal).1,
        { s with journal := ((Validation.fill ⟨s.anchor, p.settings.ambiguity⟩ ty).run s.journal).2 }) := rfl
  rw [hrun, Validation.fill, h]
  cases s.anchor with
  | none => exact ⟨_, _, rfl, fun location hanchor => (by cases hanchor)⟩
  | some place =>
    refine ⟨_, _, rfl, fun location hanchor => ?_⟩
    cases hanchor
    exact ⟨rfl, rfl⟩

/-- **Filling gives a value of the type, or names what is to blame.** It comes to an end in every state.
What it gives is assignable to the type, and has one value if the type holds no error. It fails exactly
if a type that has to be filled lacks a default, and then the first of these is the only thing that is
reported. -/
theorem fill_values_inhabit (p : Program) (s : Checker) (ty : Ty) :
    ∃ outcome t, (fillValue p ty).run s = some (outcome, t)
      ∧ (∀ d, outcome = .ok d → t = s ∧ (ty.everywhere Ty.holdsProper = true →
          d.isAssignable ty = true ∧ (ty.everywhere Ty.isNoError = true →
            (∃ value, Value.ofTy? d = some value) ∧ d.everywhere Ty.isFilled = true)))
      ∧ ((∃ e, outcome = .error e) ↔ ∃ part ∈ ty.demanded, part.lacksDefault = true)
      ∧ ∀ location, s.anchor = some location → s.journal.muteDepth = 0 → (∃ e, outcome = .error e) →
          ∃ part, ty.demanded.find? Ty.lacksDefault = some part ∧ outcome = .error .reported
            ∧ t = { s with journal := { s.journal with
                diagnostics := s.journal.diagnostics.push (.error location (.noDefault part)) } } := by
  have hfails : (∃ part, ty.default = .error part) ↔ ∃ part ∈ ty.demanded, part.lacksDefault = true := by
    rw [← List.find?_isSome, Option.isSome_iff_exists]
    simp only [Ty.default_eq_error_iff]
  cases hdefault : ty.default with
  | ok d =>
    refine ⟨.ok d, s, run_fillValue hdefault s, ?_, ?_, ?_⟩
    · intro d' hd'
      cases hd'
      refine ⟨rfl, fun hproper => ⟨Ty.accepts_default hproper hdefault, fun herror => ?_⟩⟩
      obtain ⟨hfilled, hvalue⟩ := Ty.isFilling_default hproper herror hdefault
      exact ⟨hvalue, hfilled⟩
    · rw [← hfails, hdefault]
      simp
    · rintro _ - - ⟨e, he⟩
      cases he
  | error part =>
    obtain ⟨e, t, hrun, hreported⟩ := exists_run_fillValue_of_error p hdefault s
    refine ⟨.error e, t, hrun, ?_, ?_, ?_⟩
    · intro d hd
      cases hd
    · rw [← hfails, hdefault]
      simp
    · intro location hanchor hmute _
      obtain ⟨rfl, rfl⟩ := hreported location hanchor
      refine ⟨part, Ty.default_eq_error_iff.mp hdefault, rfl, ?_⟩
      have hheard : ¬s.journal.isMuted = true := by simp [Journal.isMuted, hmute]
      rw [Journal.report, if_neg hheard]

/-- Two bytes, a label that may be nil, and a list that may be missing and has no default. -/
def parcel : Ty :=
  .record (.ofList [("contents", ⟨.array (.primitive .byte) (.closed 2), true⟩),
    ("label", ⟨.reference "Label" (.union [.primitive .string, .primitive .nil]), true⟩),
    ("remarks", ⟨.array (.primitive .string) .inferred, false⟩)]) none false

/-- A count, and two things that are numbers or words. -/
def mixedCrate : Ty :=
  .tuple [.primitive .int, .array (.union [.primitive .int, .primitive .string]) (.closed 2)] none

theorem parcel_is_filled_and_crate_is_not :
    (∃ d, (fillValue ⟨.empty, [], .default⟩ parcel).run .start = some (.ok d, .start)
        ∧ d.isAssignable parcel = true ∧ (∃ value, Value.ofTy? d = some value)
        ∧ d.everywhere Ty.isFilled = true)
      ∧ ∃ t, (fillValue ⟨.empty, [], .default⟩ mixedCrate).run { Checker.start with anchor := some 7 }
          = some (.error .reported, t)
        ∧ t.journal.diagnostics
          = #[.error 7 (.noDefault (.union [.primitive .int, .primitive .string]))] := by
  constructor
  · obtain ⟨outcome, t, hrun, hok, hfails, -⟩ :=
      fill_values_inhabit ⟨.empty, [], .default⟩ .start parcel
    cases outcome with
    | error e => exact absurd (hfails.mp ⟨e, rfl⟩) (by decide)
    | ok d =>
      obtain ⟨rfl, hinhabits⟩ := hok d rfl
      obtain ⟨hassignable, hfilled⟩ := hinhabits rfl
      exact ⟨d, hrun, hassignable, hfilled rfl⟩
  · obtain ⟨outcome, t, hrun, -, hfails, hreport⟩ :=
      fill_values_inhabit ⟨.empty, [], .default⟩ { Checker.start with anchor := some 7 } mixedCrate
    obtain ⟨part, hpart, rfl, rfl⟩ := hreport 7 rfl rfl (hfails.mpr (by decide))
    cases hpart
    exact ⟨_, hrun, rfl⟩

end ConstNarrow
