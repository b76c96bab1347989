/-
**What validation keeps**, walked once for every review that a result may be put to.

A `Review` says what is asked of an inferred type, of a declared type, and of a result against both,
and has one law for each way in which validation makes a result. The walk over the declared type is
then done once, in `Review.yields_validate`. A `Standard` is a review that has no eye on the
inferred type. Two standards are used: results are concrete and inhabit the declared type, and
results hold no error type.
-/
import ConstNarrow.Proofs.Inhabits
import ConstNarrow.Proofs.Journal

set_option autoImplicit false

namespace ConstNarrow

open Validation

/-- How the members of a tuple are made: against the expected ones position by position, by default
where the inferred ones end, and against the rest type where the expected ones end. -/
inductive MembersMade (meets : (result expected inferred : Ty) → Prop)
    (fills : (value expected : Ty) → Prop) (rest : Option Ty) :
    (expected inferred results : List Ty) → Prop where
  | further {inferred results : List Ty}
      (h : List.Forall₂ (fun ty result => ∃ expected ∈ rest, meets result expected ty) inferred
        results) : MembersMade meets fills rest [] inferred results
  | filled {ty value : Ty} {tys values : List Ty} (h : fills value ty)
      (hrest : MembersMade meets fills rest tys [] values) :
      MembersMade meets fills rest (ty :: tys) [] (value :: values)
  | matched {ty first value : Ty} {tys inferred values : List Ty} (h : meets value ty first)
      (hrest : MembersMade meets fills rest tys inferred values) :
      MembersMade meets fills rest (ty :: tys) (first :: inferred) (value :: values)

/-- What is said of the results of validation, under an excuse `E`. -/
structure Review (E : Journal → Prop) where
  /-- what is asked of an inferred type -/
  given : Ty → Prop
  /-- what is asked of a declared type and of all types inside it -/
  declarable : Ty → Bool
  /-- what a result comes to -/
  meets : (result expected inferred : Ty) → Prop
  /-- what a default comes to -/
  fills : (value expected : Ty) → Prop
  lasts : Journal.Lasts E
  given_effective : ∀ ty, given ty → given ty.effective
  given_tuple : ∀ members rest, given (.tuple members rest) → ∀ ty ∈ members, given ty
  given_record : ∀ fields rest isSealed, given (.record fields rest isSealed) →
    ∀ entry ∈ fields.toList, given entry.2.ty
  looked : ∀ result expected inferred, given inferred → meets result expected inferred.effective →
    meets result expected inferred
  given_error : given .error → ∀ expected, meets .error expected .error
  declarable_error : declarable .error = true → ∀ inferred, given inferred →
    meets .error .error inferred
  default : ∀ ty value, ty.everywhere declarable = true → ty.default = .ok value → fills value ty
  reference : ∀ name ty result inferred, meets result ty inferred →
    meets result (.reference name ty) inferred
  intersection : ∀ ty result inferred, meets result ty inferred →
    meets result (.intersection ty) inferred
  array : ∀ elem size inferred rest results fillers,
    List.Forall₂ (fun ty result => meets result elem ty) inferred results →
    (∀ filler ∈ fillers, fills filler elem) →
    Ty.sizeAcceptsTuple size (results ++ fillers) none = true →
    meets (.tuple (results ++ fillers) none) (.array elem size) (.tuple inferred rest)
  tuple : ∀ expected rest inferred inferredRest results,
    MembersMade meets fills rest expected inferred results →
    meets (.tuple results none) (.tuple expected rest) (.tuple inferred inferredRest)
  map : ∀ constraint (source : Fields none) sourceRest sourceSealed entries,
    List.Forall₂ (fun field entry => entry.1 = field.1 ∧ meets entry.2 constraint field.2.ty)
      source.toList entries →
    meets (Ty.sealedOf entries) (.map constraint) (.record source sourceRest sourceSealed)
  record : ∀ (fields : Fields none) rest isSealed (source : Fields none) sourceRest sourceSealed
    declared further,
    List.Forall₂ (fun field entry => entry.1 = field.1
      ∧ ∃ own, source.get? field.1 = some own ∧ meets entry.2 field.2.ty own.ty) fields.toList
      declared →
    List.Forall₂ (fun field entry => entry.1 = field.1
      ∧ ((rest = none ∧ isSealed = false ∧ meets entry.2 .anydata field.2.ty)
        ∨ ∃ ty ∈ rest, meets entry.2 ty field.2.ty))
      (source.toList.filter fun field => !fields.contains field.1) further →
    meets (Ty.sealedOf (declared ++ further)) (.record fields rest isSealed)
      (.record source sourceRest sourceSealed)
  union : ∀ members result inferred, (∃ ty ∈ members, meets result ty inferred) →
    meets result (.union members) inferred
  finite : ∀ values inferred readings, (Ty.finite values).everywhere declarable = true →
    given inferred → readings? inferred = some readings → ∀ s ∈ values,
    (∃ reading ∈ readings, reading.sameValue s = true) →
    meets (.singleton s) (.finite values) inferred
  nil : ∀ inferred, given inferred → inferred.isError = false →
    inferred.isAssignable (.primitive .nil) = true →
    meets (.singleton .nil) (.primitive .nil) inferred
  primitive : ∀ p inferred, given inferred → inferred.isError = false →
    ∀ ty ∈ inferred.unionMembers, ty.isAssignable (.primitive p) = true →
    meets (rebase p ty) (.primitive p) inferred
  anydata : ∀ inferred, given inferred → meets inferred.narrowed .anydata inferred
    ∨ ∀ j : Journal, E (j.noteAll (inferred.withoutNarrowing.map .noNarrowing))
  json : ∀ inferred, given inferred → meets inferred.narrowed .json inferred
    ∨ ∀ j : Journal, E (j.noteAll (inferred.withoutNarrowing.map .noNarrowing))

/-! ## Choices and readings -/

namespace Validation

theorem mem_of_lowest? {values : List Singleton} {s : Singleton} (h : lowest? values = some s) :
    s ∈ values := by
  induction values generalizing s with
  | nil => cases h
  | cons first rest ih =>
    rw [lowest?] at h
    cases hrest : lowest? rest with
    | none =>
      rw [hrest] at h
      cases h
      exact List.mem_cons_self
    | some other =>
      rw [hrest] at h
      dsimp only at h
      split at h
      · cases h
        exact List.mem_cons_self
      · cases h
        exact List.mem_cons_of_mem _ (ih hrest)

theorem mem_of_mem_foldl_found {values found : List Singleton} {s : Singleton}
    (h : s ∈ values.foldl (fun found v => if found.contains v then found else found ++ [v]) found) :
    s ∈ values ∨ s ∈ found := by
  induction values generalizing found with
  | nil => exact Or.inr h
  | cons v values ih =>
    rcases ih h with hmem | hmem
    · exact Or.inl (List.mem_cons_of_mem _ hmem)
    · dsimp only at hmem
      split at hmem
      · exact Or.inr hmem
      · rcases List.mem_append.mp hmem with hmem | hmem
        · exact Or.inr hmem
        · exact Or.inl (List.mem_singleton.mp hmem ▸ List.mem_cons_self)

/-- What matches is a value of the finite type, and the same as one of the readings. -/
theorem mem_of_mem_matching {values readings : List Singleton} {s : Singleton}
    (h : s ∈ matching values readings) :
    s ∈ values ∧ ∃ reading ∈ readings, reading.sameValue s = true := by
  rcases mem_of_mem_foldl_found h with h | h
  · obtain ⟨hmem, hany⟩ := List.mem_filter.mp h
    exact ⟨hmem, List.any_eq_true.mp hany⟩
  · cases h

theorem mem_of_mem_addNew {tys : List Ty} {ty result : Ty} (h : result ∈ Ty.addNew tys ty) :
    result ∈ tys ∨ result = ty := by
  unfold Ty.addNew at h
  split at h
  · exact Or.inl h
  · exact (List.mem_append.mp h).imp_right List.mem_singleton.mp

end Validation

/-! ## The walk -/

namespace Review

variable {E : Journal → Prop} (S : Review E) (site : Site)

/-- What is asked before an inferred type is validated against an expected one. -/
def Ready (expected inferred : Ty) : Prop :=
  S.given inferred ∧ expected.everywhere S.declarable = true

/-- That validation against a type passes the review. -/
def Validates (expected : Ty) : Prop :=
  ∀ inferred, Yields E (S.Ready expected inferred) (validate site expected inferred)
    fun result => S.meets result expected inferred

/-- An inferred type is looked through, and the error type is passed on. -/
theorem yields_looked {W : Prop} {f : Ty → Validation Ty} {expected : Ty}
    (h : ∀ inferred, inferred.isError = false → Yields E (S.given inferred ∧ W) (f inferred)
      fun result => S.meets result expected inferred) (inferred : Ty) :
    Yields E (S.given inferred ∧ W) (unlessError inferred f)
      fun result => S.meets result expected inferred := by
  refine yields_unlessError inferred (fun he hP => ?_) ?_
  · refine S.looked _ _ _ hP.1 ?_
    rw [he]
    exact S.given_error (he ▸ S.given_effective inferred hP.1) expected
  · exact fun hno => (h inferred.effective hno).mono S.lasts
      (fun hP => ⟨S.given_effective inferred hP.1, hP.2⟩) fun _ hP hQ => S.looked _ _ _ hP.1 hQ

theorem yields_fill (ty : Ty) :
    Yields E (ty.everywhere S.declarable = true) (fill site ty) fun value => S.fills value ty :=
  Validation.yields_fill site ty fun hty value hvalue => S.default ty value hty hvalue

/-- An array that is padded has its size; what it lacked is filled from the element type. -/
theorem yields_padArray (elem : Ty) (size : ArraySize) (members : List Ty) :
    Yields E (elem.everywhere S.declarable = true ∧ hasRoom size members.length = true)
      (padArray site elem size members)
      fun result => ∃ fillers, result = members ++ fillers
        ∧ (∀ filler ∈ fillers, S.fills filler elem)
        ∧ Ty.sizeAcceptsTuple size result none = true := by
  have hnone : ∀ filler ∈ ([] : List Ty), S.fills filler elem := fun _ h => (by cases h)
  unfold padArray
  cases size with
  | unbounded => exact .pure fun _ => ⟨[], by simp, hnone, rfl⟩
  | inferred => exact .pure fun _ => ⟨[], by simp, hnone, rfl⟩
  | closed n =>
    dsimp only
    split
    · rename_i hlt
      refine ((S.yields_fill site elem).weaken S.lasts (fun hP => hP.1)).bind S.lasts
        fun filler => .pure fun hP => ⟨_, rfl, fun ty hty => ?_, ?_⟩
      · rw [List.eq_of_mem_replicate hty]
        exact hP.2
      · have hlen : (members ++ List.replicate (n - members.length) filler).length = n := by
          rw [List.length_append, List.length_replicate]
          omega
        simp [Ty.sizeAcceptsTuple, hlen]
    · rename_i hge
      refine .pure fun hP => ⟨[], by simp, hnone, ?_⟩
      -- what has room and lacks nothing is full
      have hle : members.length ≤ n := of_decide_eq_true hP.2
      have hlen : members.length = n := by omega
      simp [Ty.sizeAcceptsTuple, hlen]

theorem validates_array {elem : Ty} (size : ArraySize) (ih : S.Validates site elem) :
    S.Validates site (.array elem size) := by
  intro inferred
  rw [validate]
  refine S.yields_looked (fun inferred _ => ?_) inferred
  cases inferred with
  | tuple members rest =>
    dsimp only
    split
    · rename_i hroom
      refine (Yields.mapM (R := fun ty result => S.meets result elem ty) S.lasts members
        fun member hmember => (ih member).weaken S.lasts (fun hP => ?_)).bind S.lasts
        fun results => ?_
      · exact ⟨S.given_tuple members rest hP.1 member hmember, (Ty.everywhere_array.mp hP.2).2⟩
      refine ((S.yields_padArray site elem size results).weaken S.lasts
        (fun hP => ⟨?_, ?_⟩)).bind S.lasts fun padded => .pure fun hP => ?_
      · exact (Ty.everywhere_array.mp hP.1.2).2
      -- there are as many results as members, so they have room too
      · exact hP.2.length_eq ▸ hroom
      · obtain ⟨fillers, rfl, hfillers, hsize⟩ := hP.2
        exact S.array elem size members rest results fillers hP.1.2 hfillers hsize
    · exact .mismatch
  | _ => exact .mismatch

/-- Validation against a rest type; without one there is no result. -/
theorem yields_validateOption {rest : Option Ty} (ih : ∀ ty ∈ rest, S.Validates site ty)
    (inferred : Ty) :
    Yields E (S.given inferred ∧ ∀ ty ∈ rest, ty.everywhere S.declarable = true)
      (validateOption site rest inferred)
      fun result => ∃ ty ∈ rest, S.meets result ty inferred := by
  cases rest with
  | none => exact .mismatch
  | some ty =>
    refine (ih ty rfl inferred).mono S.lasts (fun hP => ⟨hP.1, hP.2 ty rfl⟩) fun _ _ h => ?_
    exact ⟨ty, rfl, h⟩

/-- Members are validated position by position and filled where they end; further ones meet the
rest type. -/
theorem yields_validateMembers {rest : Option Ty} (ihrest : ∀ ty ∈ rest, S.Validates site ty)
    {members : List Ty} (ih : ∀ ty ∈ members, S.Validates site ty) (inferred : List Ty) :
    Yields E ((∀ ty ∈ inferred, S.given ty) ∧ (∀ ty ∈ members, ty.everywhere S.declarable = true)
        ∧ ∀ ty ∈ rest, ty.everywhere S.declarable = true)
      (validateMembers site members (validateOption site rest) inferred)
      (MembersMade S.meets S.fills rest members inferred) := by
  induction members generalizing inferred with
  | nil =>
    rw [validateMembers]
    refine (Yields.mapM (R := fun ty result => ∃ expected ∈ rest, S.meets result expected ty)
      S.lasts inferred fun ty hty => ?_).mono S.lasts id fun results _ hall => .further hall
    exact (S.yields_validateOption site ihrest ty).weaken S.lasts
      (fun hP => ⟨hP.1 ty hty, hP.2.2⟩)
  | cons ty members ihm =>
    have hfirst := ih ty List.mem_cons_self
    have hrest := ihm fun other hother => ih other (List.mem_cons_of_mem _ hother)
    cases inferred with
    | nil =>
      rw [validateMembers]
      refine ((S.yields_fill site ty).weaken S.lasts
        (fun hP => hP.2.1 ty List.mem_cons_self)).bind S.lasts fun value => ?_
      refine ((hrest []).weaken S.lasts
        (fun hP => ⟨fun _ h => (by cases h), ?_, hP.1.2.2⟩)).bind S.lasts
        fun values => .pure fun hP => .filled hP.1.2 hP.2
      exact fun other hother => hP.1.2.1 other (List.mem_cons_of_mem _ hother)
    | cons first inferred =>
      rw [validateMembers]
      refine ((hfirst first).weaken S.lasts (fun hP => ?_)).bind S.lasts fun value => ?_
      · exact ⟨hP.1 first List.mem_cons_self, hP.2.1 ty List.mem_cons_self⟩
      refine ((hrest inferred).weaken S.lasts (fun hP => ⟨?_, ?_, hP.1.2.2⟩)).bind S.lasts
        fun values => .pure fun hP => .matched hP.1.2 hP.2
      · exact fun other hother => hP.1.1 other (List.mem_cons_of_mem _ hother)
      · exact fun other hother => hP.1.2.1 other (List.mem_cons_of_mem _ hother)

theorem validates_tuple {members : List Ty} {rest : Option Ty}
    (ih : ∀ ty ∈ members, S.Validates site ty) (ihrest : ∀ ty ∈ rest, S.Validates site ty) :
    S.Validates site (.tuple members rest) := by
  intro inferred
  rw [validate]
  refine S.yields_looked (fun inferred _ => ?_) inferred
  cases inferred with
  | tuple given givenRest =>
    refine ((S.yields_validateMembers site ihrest ih given).weaken S.lasts (fun hP => ?_)).bind
      S.lasts fun results => .pure fun hP => S.tuple members rest given givenRest results hP.2
    exact ⟨S.given_tuple given givenRest hP.1, (Ty.everywhere_tuple.mp hP.2).2⟩
  | _ => exact .mismatch

/-! ### Records and maps -/

theorem validates_map {constraint : Ty} (ih : S.Validates site constraint) :
    S.Validates site (.map constraint) := by
  intro inferred
  rw [validate]
  refine S.yields_looked (fun inferred _ => ?_) inferred
  cases inferred with
  | record fields rest isSealed =>
    refine (Yields.mapM (R := fun field entry => entry.1 = field.1
      ∧ S.meets entry.2 constraint field.2.ty) S.lasts fields.toList ?_).bind S.lasts
      fun entries => .pure fun hP => S.map constraint fields rest isSealed entries hP.2
    rintro ⟨name, field⟩ hfield
    refine ((ih field.ty).weaken S.lasts (fun hP => ?_)).bind S.lasts
      fun value => .pure fun hP => ⟨rfl, hP.2⟩
    exact ⟨S.given_record fields rest isSealed hP.1 _ hfield, (Ty.everywhere_map.mp hP.2).2⟩
  | _ => exact .mismatch

/-- The fields that are expected are validated one by one, each under its name. -/
theorem yields_validateFields {source : Fields none} {bound : Option String} :
    (fields : Fields bound) → (∀ entry ∈ fields.toList, S.Validates site entry.2.ty) →
    Yields E ((∀ entry ∈ source.toList, S.given entry.2.ty)
        ∧ ∀ entry ∈ fields.toList, entry.2.ty.everywhere S.declarable = true)
      (validateFields site fields source) fun entries =>
        List.Forall₂ (fun field entry => entry.1 = field.1
          ∧ ∃ own, source.get? field.1 = some own ∧ S.meets entry.2 field.2.ty own.ty)
          fields.toList entries
  | .nil, _ => by
    rw [validateFields]
    exact .pure fun _ => .nil
  | .cons name above ty required tail, ih => by
    rw [validateFields]
    cases hget : source.get? name with
    | none => exact .mismatch
    | some field =>
      rw [Fields.toList, List.forall_mem_cons] at ih
      have hmem := Fields.mem_toList_of_get? source hget
      refine ((ih.1 field.ty).weaken S.lasts (fun hP => ⟨hP.1 _ hmem, ?_⟩)).bind
        S.lasts fun value => ?_
      · exact hP.2 _ List.mem_cons_self
      refine ((yields_validateFields tail ih.2).weaken S.lasts (fun hP => ⟨hP.1.1, ?_⟩)).bind
        S.lasts fun values => .pure fun hP => .cons ⟨rfl, field, hget, hP.1.2⟩ hP.2
      exact fun entry hentry => hP.1.2 entry (List.mem_cons_of_mem _ hentry)

/-- A record validates if its fields and its rest type do. -/
theorem validates_record {fields : Fields none} {rest : Option Ty} (isSealed : Bool)
    (ih : ∀ entry ∈ fields.toList, S.Validates site entry.2.ty)
    (ihrest : ∀ ty ∈ rest, S.Validates site ty) :
    S.Validates site (.record fields rest isSealed) := by
  intro inferred
  rw [validate]
  refine S.yields_looked (fun inferred _ => ?_) inferred
  cases inferred with
  | record source sourceRest sourceSealed =>
    refine ((S.yields_validateFields site fields ih).weaken S.lasts (fun hP => ?_)).bind S.lasts
      fun declared => ?_
    · exact ⟨S.given_record source sourceRest sourceSealed hP.1, (Ty.everywhere_record.mp hP.2).2.1⟩
    refine (Yields.mapM (R := fun field entry => entry.1 = field.1
      ∧ ((rest = none ∧ isSealed = false ∧ S.meets entry.2 .anydata field.2.ty)
        ∨ ∃ ty ∈ rest, S.meets entry.2 ty field.2.ty)) S.lasts _ ?_).bind S.lasts
      fun further => .pure fun hP => S.record fields rest isSealed source sourceRest sourceSealed
        declared further hP.1.2 hP.2
    rintro ⟨name, field⟩ hfield
    have hgiven := fun h => S.given_record source sourceRest sourceSealed h _
      (List.mem_of_mem_filter hfield)
    have hoption := S.yields_validateOption site ihrest field.ty
    -- an open record without a rest type narrows what it does not declare
    dsimp only
    split
    · refine (yields_narrow (Q := fun result => S.meets result .anydata field.ty) S.lasts field.ty
        fun hP => S.anydata field.ty (hgiven hP.1.1)).bind S.lasts fun value => .pure fun hP => ?_
      exact ⟨rfl, Or.inl ⟨rfl, rfl, hP.2⟩⟩
    · refine (hoption.weaken S.lasts (fun hP => ⟨hgiven hP.1.1, ?_⟩)).bind S.lasts
        fun value => .pure fun hP => ⟨rfl, Or.inr hP.2⟩
      exact (Ty.everywhere_record.mp hP.1.2).2.2
  | _ => exact .mismatch

/-! ### Alternatives -/

/-- What is found among alternatives meets one of them. -/
theorem yields_validateEach {Q : Ty → Prop} {members : List Ty} (inferred : Ty)
    (ih : ∀ ty ∈ members, Yields E (S.Ready ty inferred) (validate site ty inferred) Q)
    (found : List Ty) :
    Yields E (S.given inferred ∧ (∀ ty ∈ members, ty.everywhere S.declarable = true)
        ∧ ∀ ty ∈ found, Q ty) (validateEach site members inferred found)
      fun results => ∀ ty ∈ results, Q ty := by
  induction members generalizing found with
  | nil =>
    rw [validateEach]
    exact .pure fun hP => hP.2.2
  | cons ty members ihm =>
    rw [validateEach]
    have hfirst := (ih ty List.mem_cons_self).attempt S.lasts
    have hrest := ihm fun other hother => ih other (List.mem_cons_of_mem _ hother)
    refine (hfirst.weaken S.lasts (fun hP => ⟨hP.1, hP.2.1 ty List.mem_cons_self⟩)).bind S.lasts
      fun result => ?_
    -- what was found before is kept, and the new result meets what it was tried against
    refine (hrest _).weaken S.lasts
      (fun hP => ⟨hP.1.1, fun other hother => ?_, fun other hother => ?_⟩)
    · exact hP.1.2.1 other (List.mem_cons_of_mem _ hother)
    · cases result with
      | none => exact hP.1.2.2 other hother
      | some value =>
        rcases mem_of_mem_addNew hother with hmem | rfl
        · exact hP.1.2.2 other hmem
        · exact hP.2 other rfl

/-- A union validates if its members do, since the choice falls on what one of them gives. -/
theorem validates_union {members : List Ty} (ih : ∀ ty ∈ members, S.Validates site ty) :
    S.Validates site (.union members) := by
  intro inferred
  rw [validate]
  refine S.yields_looked (fun inferred _ => ?_) inferred
  have hmember : ∀ ty ∈ members, Yields E (S.Ready ty inferred) (validate site ty inferred)
      fun result => S.meets result (.union members) inferred := fun ty hty =>
    (ih ty hty inferred).mono S.lasts id fun result _ h =>
      S.union members result inferred ⟨ty, hty, h⟩
  refine ((S.yields_validateEach site inferred hmember []).weaken S.lasts (fun hP => ?_)).bind
    S.lasts fun fitting => ?_
  · exact ⟨hP.1, (Ty.everywhere_union.mp hP.2).2, fun _ h => (by cases h)⟩
  · exact (yields_choose S.lasts site fitting).weaken S.lasts And.right

theorem validates_finite (values : List Singleton) : S.Validates site (.finite values) := by
  intro inferred
  rw [validate]
  refine S.yields_looked (fun inferred _ => ?_) inferred
  unfold Validation.finite
  split
  · rename_i s hs
    obtain ⟨readings, hreadings, hlowest⟩ := Option.bind_eq_some_iff.mp hs
    obtain ⟨hmem, hsame⟩ := mem_of_mem_matching (mem_of_lowest? hlowest)
    exact .pure fun hP => S.finite values inferred readings hP.2 hP.1 hreadings s hmem hsame
  · exact .mismatch

theorem validates_primitive (p : Primitive) : S.Validates site (.primitive p) := by
  intro inferred
  rw [validate]
  refine S.yields_looked (fun inferred hno => ?_) inferred
  unfold Validation.primitive
  dsimp only
  split
  · split
    · rename_i hfits
      exact .pure fun hP => S.nil inferred hP.1 hno hfits
    · exact .mismatch
  · split
    · rename_i ty hfind
      have hfits : ty.isAssignable (.primitive p) = true := by simpa using List.find?_some hfind
      exact .pure fun hP =>
        S.primitive p inferred hP.1 hno ty (List.mem_of_find?_eq_some hfind) hfits
    · exact .mismatch

/-- **Validation passes every review.** -/
theorem yields_validate (expected inferred : Ty) :
    Yields E (S.Ready expected inferred) (validate site expected inferred)
      fun result => S.meets result expected inferred := by
  suffices h : S.Validates site expected from h inferred
  induction expected using Ty.induction_parts with
  | array elem size ih => exact S.validates_array site size ih
  | tuple members rest ih ihrest => exact S.validates_tuple site ih ihrest
  | record fields rest isSealed ih ihrest => exact S.validates_record site isSealed ih ihrest
  | map constraint ih => exact S.validates_map site ih
  | union members ih => exact S.validates_union site ih
  | finite values => exact S.validates_finite site values
  | primitive p => exact S.validates_primitive site p
  | reference name referred ih =>
    refine fun inferred => (ih inferred).mono S.lasts (fun hP => ⟨hP.1, ?_⟩) fun result _ h => ?_
    · exact (Ty.everywhere_reference.mp hP.2).2
    · exact S.reference name referred result inferred h
  | intersection inner ih =>
    refine fun inferred => (ih inferred).mono S.lasts (fun hP => ⟨hP.1, ?_⟩) fun result _ h => ?_
    · exact (Ty.everywhere_intersection.mp hP.2).2
    · exact S.intersection inner result inferred h
  | anydata =>
    intro inferred
    refine S.yields_looked (fun inferred _ => ?_) inferred
    exact yields_narrow S.lasts inferred fun hP => S.anydata inferred hP.1
  | json =>
    intro inferred
    refine S.yields_looked (fun inferred _ => ?_) inferred
    split
    · exact yields_narrow S.lasts inferred fun hP => S.json inferred hP.1
    · exact .mismatch
  | table =>
    intro inferred
    exact S.yields_looked (fun _ _ => .mismatch) inferred
  | error =>
    intro inferred
    exact .pure fun hP => S.declarable_error (Ty.everywhere_self hP.2) inferred hP.1

end Review

/-! ## Standards -/

/-- A standard for the results of validation, under an excuse `E`. -/
structure Standard (E : Journal → Prop) where
  /-- what is asked of an inferred type -/
  given : Ty → Prop
  /-- what is asked of a declared type and of all types inside it -/
  declarable : Ty → Bool
  /-- what a result comes to -/
  meets : (result expected : Ty) → Prop
  lasts : Journal.Lasts E
  given_effective : ∀ ty, given ty → given ty.effective
  given_error : given .error → ∀ expected, meets .error expected
  given_tuple : ∀ members rest, given (.tuple members rest) → ∀ ty ∈ members, given ty
  given_record : ∀ fields rest isSealed, given (.record fields rest isSealed) →
    ∀ entry ∈ fields.toList, given entry.2.ty
  declarable_error : declarable .error = true → meets .error .error
  default : ∀ ty value, ty.everywhere declarable = true → ty.default = .ok value → meets value ty
  reference : ∀ name ty result, meets result ty → meets result (.reference name ty)
  intersection : ∀ ty result, meets result ty → meets result (.intersection ty)
  array : ∀ elem size members, (∀ ty ∈ members, meets ty elem) →
    Ty.sizeAcceptsTuple size members none = true → meets (.tuple members none) (.array elem size)
  tuple : ∀ members rest firsts others, List.Forall₂ (fun ty first => meets first ty) members firsts →
    (∀ other ∈ others, ∃ ty ∈ rest, meets other ty) →
    meets (.tuple (firsts ++ others) none) (.tuple members rest)
  map : ∀ constraint entries, (∀ entry ∈ entries, meets entry.2 constraint) →
    meets (Ty.sealedOf entries) (.map constraint)
  record : ∀ (fields : Fields none) rest isSealed declared further,
    List.Forall₂ (fun field entry => entry.1 = field.1 ∧ meets entry.2 field.2.ty) fields.toList
      declared →
    (further.map Prod.fst).Nodup →
    (∀ entry ∈ further, fields.contains entry.1 = false
      ∧ ((rest = none ∧ isSealed = false ∧ meets entry.2 .anydata)
        ∨ ∃ ty ∈ rest, meets entry.2 ty)) →
    meets (Ty.sealedOf (declared ++ further)) (.record fields rest isSealed)
  union : ∀ members result, (∃ ty ∈ members, meets result ty) → meets result (.union members)
  finite : ∀ values, (Ty.finite values).everywhere declarable = true → ∀ s ∈ values,
    meets (.singleton s) (.finite values)
  nil : meets (.singleton .nil) (.primitive .nil)
  primitive : ∀ p inferred, given inferred → ∀ ty ∈ inferred.unionMembers,
    ty.isAssignable (.primitive p) = true → meets (rebase p ty) (.primitive p)
  anydata : ∀ inferred, given inferred → meets inferred.narrowed .anydata
    ∨ ∀ j : Journal, E (j.noteAll (inferred.withoutNarrowing.map .noNarrowing))
  json : ∀ inferred, given inferred → meets inferred.narrowed .json
    ∨ ∀ j : Journal, E (j.noteAll (inferred.withoutNarrowing.map .noNarrowing))

/-- Of members made for a tuple, the first ones meet the expected members, and all others the rest
type. -/
theorem MembersMade.split {meets : (result expected : Ty) → Prop} {rest : Option Ty}
    {expected inferred results : List Ty}
    (h : MembersMade (fun result expected _ => meets result expected) meets rest expected inferred
      results) :
    ∃ firsts others, results = firsts ++ others
      ∧ List.Forall₂ (fun ty first => meets first ty) expected firsts
      ∧ ∀ other ∈ others, ∃ ty ∈ rest, meets other ty := by
  induction h with
  | further hall =>
    exact ⟨[], _, rfl, .nil, fun other hother => (exists_of_mem_right hall hother).choose_spec.2⟩
  | filled hvalue _ ih | matched hvalue _ ih =>
    obtain ⟨firsts, others, rfl, hall, hothers⟩ := ih
    exact ⟨_ :: firsts, others, rfl, .cons hvalue hall, hothers⟩

namespace Standard

variable {E : Journal → Prop} (S : Standard E)

/-- A standard as a review. -/
def toReview : Review E where
  given := S.given
  declarable := S.declarable
  meets := fun result expected _ => S.meets result expected
  fills := S.meets
  lasts := S.lasts
  given_effective := S.given_effective
  given_tuple := S.given_tuple
  given_record := S.given_record
  looked := fun _ _ _ _ h => h
  given_error := S.given_error
  declarable_error := fun h _ _ => S.declarable_error h
  default := S.default
  reference := fun name ty result _ h => S.reference name ty result h
  intersection := fun ty result _ h => S.intersection ty result h
  array := fun elem size _ _ results fillers hresults hfillers hsize => by
    refine S.array elem size _ (fun ty hty => ?_) hsize
    rcases List.mem_append.mp hty with hty | hty
    · exact (exists_of_mem_right hresults hty).choose_spec.2
    · exact hfillers ty hty
  tuple := fun expected rest _ _ results h => by
    obtain ⟨firsts, others, rfl, hfirsts, hothers⟩ := h.split
    exact S.tuple expected rest firsts others hfirsts hothers
  map := fun constraint _ _ _ entries h => S.map constraint entries fun _ hentry =>
    (exists_of_mem_right h hentry).choose_spec.2.2
  record := fun fields rest isSealed source _ _ declared further hdeclared hfurther => by
    refine S.record fields rest isSealed declared further ?_ ?_ fun entry hentry => ?_
    · refine hdeclared.imp ?_
      rintro field entry ⟨hname, own, -, hmeets⟩
      exact ⟨hname, hmeets⟩
    · rw [map_fst_of_forall₂ hfurther]
      exact (Fields.nodup_names source).sublist (List.filter_sublist.map _)
    · obtain ⟨field, hfield, hname, hmeets⟩ := exists_of_mem_right hfurther hentry
      refine ⟨?_, hmeets⟩
      rw [hname]
      simpa using (List.mem_filter.mp hfield).2
  union := fun members result _ h => S.union members result h
  finite := fun values _ _ hvalues _ _ s hs _ => S.finite values hvalues s hs
  nil := fun _ _ _ _ => S.nil
  primitive := fun p inferred hgiven _ => S.primitive p inferred hgiven
  anydata := S.anydata
  json := S.json

/-- What is asked before an inferred type is validated against an expected one. -/
def Ready (expected inferred : Ty) : Prop :=
  S.given inferred ∧ expected.everywhere S.declarable = true

/-- **Validation comes up to every standard.** -/
theorem yields_validate (site : Site) (expected inferred : Ty) :
    Yields E (S.Ready expected inferred) (validate site expected inferred)
      fun result => S.meets result expected :=
  S.toReview.yields_validate site expected inferred

end Standard

/-! ## Results that are concrete -/

namespace Ty

theorem Candidate.effective_eq {ty : Ty} (h : Candidate ty) : ty.effective = ty := by
  cases h <;> rfl

theorem candidate_effective (ty : Ty) (h : Candidate ty) : Candidate ty.effective := by
  rw [h.effective_eq]
  exact h

theorem candidate_of_tuple (members : List Ty) (rest : Option Ty)
    (h : Candidate (.tuple members rest)) : ∀ ty ∈ members, Candidate ty := by
  cases h with
  | tuple h => exact h

theorem candidate_of_record (fields : Fields none) (rest : Option Ty) (isSealed : Bool)
    (h : Candidate (.record fields rest isSealed)) :
    ∀ entry ∈ fields.toList, Candidate entry.2.ty := by
  cases h with
  | record _ h => exact h

theorem fits_of_accepts {p : Primitive} {s : Singleton}
    (h : (singleton s).isAssignable (.primitive p) = true) : s.fits p = true := by
  have hne : (Ty.finite [s] == Ty.primitive p) = false := rfl
  simpa [isAssignable, accepts, singleton, everyAlternative, hne] using h

/-- A value that fits a primitive inhabits it, as a byte if that is what is wanted. -/
theorem inhabits_rebase {p : Primitive} {s : Singleton} (hs : s.isProper = true)
    (h : s.fits p = true) : Inhabits (rebase p (singleton s)) (.primitive p) := by
  show Inhabits (if p = .byte then singleton (s.withBase .byte) else singleton s) _
  split
  · rename_i hp
    subst hp
    exact .singleton (Singleton.isProper_withBase_byte hs h)
      (by simp [admits, Singleton.fits, Singleton.withBase])
  · exact .singleton hs h

/-- A member of a candidate that is assignable to a primitive is a value that fits it. -/
theorem Candidate.exists_value {p : Primitive} {inferred ty : Ty} (h : Candidate inferred)
    (hty : ty ∈ inferred.unionMembers) (hfits : ty.isAssignable (.primitive p) = true) :
    ∃ s : Singleton, ty = singleton s ∧ s.isProper = true ∧ s.fits p = true := by
  cases h with
  | @value s hs =>
    rw [List.mem_singleton.mp hty] at hfits ⊢
    exact ⟨s, rfl, hs, fits_of_accepts hfits⟩
  | readings hne hall =>
    obtain ⟨s, hs, rfl⟩ := hall ty hty
    exact ⟨s, rfl, hs, fits_of_accepts hfits⟩
  | tuple hmembers =>
    rw [List.mem_singleton.mp hty] at hfits
    cases hfits
  | record hreq hfields =>
    rw [List.mem_singleton.mp hty] at hfits
    cases hfits

/-- A reading of a candidate that is assignable to a primitive inhabits it. -/
theorem Candidate.inhabits_primitive {p : Primitive} {inferred ty : Ty} (h : Candidate inferred)
    (hty : ty ∈ inferred.unionMembers) (hfits : ty.isAssignable (.primitive p) = true) :
    Inhabits (rebase p ty) (.primitive p) := by
  obtain ⟨s, rfl, hs, hp⟩ := h.exists_value hty hfits
  exact inhabits_rebase hs hp

end Ty

/-- **The result of a validation inhabits the declared type**, if the inferred type is a
candidate. -/
def Standard.concrete : Standard fun _ => False where
  given := Ty.Candidate
  declarable := Ty.isDeclarable
  meets := Ty.Inhabits
  lasts := fun _ _ _ h => h
  given_effective := Ty.candidate_effective
  given_error := fun h => by cases h
  given_tuple := Ty.candidate_of_tuple
  given_record := Ty.candidate_of_record
  declarable_error := fun h => by cases h
  default := fun _ _ hty h => Ty.inhabits_default hty h
  reference := fun _ _ _ h => h.reference
  intersection := fun _ _ h => h.intersection
  array := fun _ _ _ h hsize => .array h hsize
  tuple := fun _ _ _ _ h hothers => .tuple h hothers
  map := fun _ _ h => .map h
  record := fun _ _ _ _ _ hdeclared hnodup hfurther => .record hdeclared hnodup hfurther
  union := fun _ _ ⟨_, hmem, h⟩ => h.union hmem
  finite := fun values hty s hs => by
    have hproper : values.all Singleton.isProper = true := Ty.everywhere_self hty
    refine .singleton (List.all_eq_true.mp hproper s hs) ?_
    exact List.any_eq_true.mpr ⟨s, hs, Singleton.sameValue_self s⟩
  nil := .singleton (Singleton.isProper_ofScalar _) rfl
  primitive := fun _ _ h _ hty hfits => h.inhabits_primitive hty hfits
  anydata := fun _ h => Or.inl (.anydata h.isConcrete_narrowed)
  json := fun _ h => Or.inl (.json h.isConcrete_narrowed)

/-! ## Results without errors -/

namespace Ty

/-- Whether a type is not the error type, apart from its parts. -/
def isNoError : Ty → Bool
  | .error => false
  | _ => true

/-- Whether a type is not a table, apart from its parts. -/
def isNoTable : Ty → Bool
  | .table => false
  | _ => true

/-- Whether a type is neither the error type nor a union of nothing, which would narrow to it.
`broad` says whether it may be a type that has no narrowing. -/
def isInhabitable (broad : Bool) : Ty → Bool
  | .error => false
  | .union [] => false
  | .primitive _ => broad
  | .map _ => broad
  | .table => broad
  | .anydata => broad
  | .json => broad
  | _ => true

/-- Whether a type may stand in a declaration, apart from its parts, if final types are to hold no
error. A table is its own default, and has no narrowing. -/
def isOffered (broad : Bool) : Ty → Bool
  | .error => false
  | .table => broad
  | _ => true

variable {broad : Bool}

theorem everywhere_sealedOf {entries : List (String × Ty)}
    (h : ∀ entry ∈ entries, entry.2.everywhere (isInhabitable broad) = true) :
    (sealedOf entries).everywhere (isInhabitable broad) = true := by
  refine everywhere_record.mpr ⟨rfl, fun entry hentry => ?_, fun _ h => by cases h⟩
  obtain ⟨source, hmem, rfl⟩ := List.mem_map.mp (Fields.mem_of_mem_toList_ofList hentry)
  exact h source hmem

theorem everywhere_tupleOf {members : List Ty}
    (h : ∀ ty ∈ members, ty.everywhere (isInhabitable broad) = true) :
    (Ty.tuple members none).everywhere (isInhabitable broad) = true :=
  everywhere_tuple.mpr ⟨rfl, h, fun _ h => by cases h⟩

theorem everywhere_unionMembers {ty member : Ty} (h : ty.everywhere (isInhabitable broad) = true)
    (hmem : member ∈ ty.unionMembers) : member.everywhere (isInhabitable broad) = true := by
  cases ty with
  | union members => exact (everywhere_union.mp h).2 member hmem
  | _ => exact List.mem_singleton.mp hmem ▸ h

/-- A default holds no error type, if its type does not. -/
theorem everywhere_default {ty d : Ty} (hty : ty.everywhere (isOffered broad) = true)
    (h : ty.default = .ok d) : d.everywhere (isInhabitable broad) = true := by
  refine default_induction
    (motive := fun ty d => ty.everywhere (isOffered broad) = true →
      d.everywhere (isInhabitable broad) = true)
    ?primitive ?array ?tuple ?record ?map ?table ?nil ?value ?union ?reference ?intersection ?error
    h hty
  case primitive => exact fun _ _ => rfl
  case array =>
    intro elem size members ih _ hty
    exact everywhere_tupleOf fun member hmem => ih member hmem (everywhere_array.mp hty).2
  case tuple =>
    intro members rest values ih hty
    refine everywhere_tupleOf fun value hvalue => ?_
    obtain ⟨member, hmem, hvalue⟩ := exists_of_mem_right ih hvalue
    exact hvalue ((everywhere_tuple.mp hty).2.1 member hmem)
  case record =>
    intro fields rest isSealed entries ih hty
    refine everywhere_sealedOf fun entry hentry => ?_
    obtain ⟨field, hfield, -, hvalue⟩ := exists_of_mem_right ih hentry
    exact hvalue ((everywhere_record.mp hty).2.1 field (List.mem_of_mem_filter hfield))
  case map => exact fun _ _ => rfl
  case nil => exact fun _ _ _ => rfl
  case value => exact fun _ _ => rfl
  case union => exact fun ty _ ih hty => ih ((everywhere_union.mp hty).2 ty List.mem_cons_self)
  case reference => exact fun _ _ _ ih hty => ih (everywhere_reference.mp hty).2
  case intersection => exact fun _ _ ih hty => ih (everywhere_intersection.mp hty).2
  case table => exact fun hty => hty
  case error => exact fun hty => (by cases hty)

theorem withoutNarrowingList_eq_flatMap (tys : List Ty) :
    withoutNarrowingList tys = tys.flatMap withoutNarrowing := by
  induction tys with
  | nil => rfl
  | cons ty tys ih => rw [withoutNarrowingList, ih, List.flatMap_cons]

theorem withoutNarrowingFields_eq_flatMap {bound : Option String} : (fields : Fields bound) →
    withoutNarrowingFields fields = fields.toList.flatMap fun entry => entry.2.ty.withoutNarrowing
  | .nil => rfl
  | .cons name above ty required tail => by
    rw [withoutNarrowingFields, withoutNarrowingFields_eq_flatMap tail]
    rfl

theorem withoutNarrowingOption_eq_nil_iff {rest : Option Ty} :
    withoutNarrowingOption rest = [] ↔ ∀ ty ∈ rest, ty.withoutNarrowing = [] := by
  cases rest <;> simp [withoutNarrowingOption]

/-- Of a structure nothing is left without a narrowing if nothing is of its parts. -/
theorem withoutNarrowing_tuple_iff {members : List Ty} {rest : Option Ty} :
    (Ty.tuple members rest).withoutNarrowing = []
      ↔ (∀ ty ∈ members, ty.withoutNarrowing = []) ∧ ∀ ty ∈ rest, ty.withoutNarrowing = [] := by
  rw [withoutNarrowing, List.append_eq_nil_iff, withoutNarrowingList_eq_flatMap,
    List.flatMap_eq_nil_iff, withoutNarrowingOption_eq_nil_iff]

theorem withoutNarrowing_record_iff {fields : Fields none} {rest : Option Ty} {isSealed : Bool} :
    (Ty.record fields rest isSealed).withoutNarrowing = []
      ↔ (∀ entry ∈ fields.toList, entry.2.ty.withoutNarrowing = [])
        ∧ ∀ ty ∈ rest, ty.withoutNarrowing = [] := by
  rw [withoutNarrowing, List.append_eq_nil_iff, withoutNarrowingFields_eq_flatMap,
    List.flatMap_eq_nil_iff, withoutNarrowingOption_eq_nil_iff]

/-- Narrowing brings no error type in, unless it meets a type that has no narrowing. -/
theorem everywhere_narrowed {ty : Ty} (hty : ty.everywhere (isInhabitable broad) = true)
    (h : ty.withoutNarrowing = []) : ty.narrowed.everywhere (isInhabitable broad) = true := by
  induction ty using induction_parts with
  | finite values => rfl
  | union members ih =>
    cases members with
    | nil => cases everywhere_self hty
    | cons first members =>
      exact ih first List.mem_cons_self ((everywhere_union.mp hty).2 first List.mem_cons_self) h
  | record fields rest isSealed ih ihrest =>
    obtain ⟨-, hfields, hrest⟩ := everywhere_record.mp hty
    obtain ⟨hnone, hnoneRest⟩ := withoutNarrowing_record_iff.mp h
    rw [narrowed, everywhere_record, toList_narrowedFields]
    exact ⟨rfl, List.forall_mem_map.mpr fun field hfield =>
        ih field hfield (hfields field hfield) (hnone field hfield),
      forall_mem_narrowedOption.mpr fun ty hty => ihrest ty hty (hrest ty hty) (hnoneRest ty hty)⟩
  | tuple members rest ih ihrest =>
    obtain ⟨-, hmembers, hrest⟩ := everywhere_tuple.mp hty
    obtain ⟨hnone, hnoneRest⟩ := withoutNarrowing_tuple_iff.mp h
    rw [narrowed, everywhere_tuple, narrowedList_eq_map]
    exact ⟨rfl, List.forall_mem_map.mpr fun ty hty => ih ty hty (hmembers ty hty) (hnone ty hty),
      forall_mem_narrowedOption.mpr fun ty hty => ihrest ty hty (hrest ty hty) (hnoneRest ty hty)⟩
  | array elem size ih =>
    exact everywhere_array.mpr ⟨rfl, ih (everywhere_array.mp hty).2 h⟩
  | reference name referred ih => exact ih (everywhere_reference.mp hty).2 h
  | intersection inner ih => exact ih (everywhere_intersection.mp hty).2 h
  | primitive p =>
    rw [withoutNarrowing] at h
    split at h
    · rename_i hp
      subst hp
      rfl
    · cases h
  | map | table | anydata | json => cases h
  | error => cases hty

/-- Without broad types there is nothing that has no narrowing. -/
theorem withoutNarrowing_eq_nil {ty : Ty} (hty : ty.everywhere (isInhabitable false) = true) :
    ty.withoutNarrowing = [] := by
  induction ty using induction_parts with
  | finite values => rfl
  | union members ih =>
    cases members with
    | nil => rfl
    | cons first members =>
      exact ih first List.mem_cons_self ((everywhere_union.mp hty).2 first List.mem_cons_self)
  | record fields rest isSealed ih ihrest =>
    obtain ⟨-, hfields, hrest⟩ := everywhere_record.mp hty
    exact withoutNarrowing_record_iff.mpr
      ⟨fun entry hentry => ih entry hentry (hfields entry hentry), fun ty hty => ihrest ty hty (hrest ty hty)⟩
  | tuple members rest ih ihrest =>
    obtain ⟨-, hmembers, hrest⟩ := everywhere_tuple.mp hty
    exact withoutNarrowing_tuple_iff.mpr
      ⟨fun ty hty => ih ty hty (hmembers ty hty), fun ty hty => ihrest ty hty (hrest ty hty)⟩
  | array elem size ih => exact ih (everywhere_array.mp hty).2
  | reference name referred ih => exact ih (everywhere_reference.mp hty).2
  | intersection inner ih => exact ih (everywhere_intersection.mp hty).2
  | primitive | map | table | anydata | json | error => cases everywhere_self hty

end Ty

/-- **The result of a validation holds no error type**, if neither type does, unless the log says
that something has no narrowing. Where no broad types are let in, the log never says so. -/
def Standard.errorFree {E : Journal → Prop} (broad : Bool) (lasts : Journal.Lasts E)
    (excuse : broad = true → ∀ (j : Journal) (ty : Ty), .noNarrowing ty ∈ j.log.toList → E j) :
    Standard E :=
  have narrowed : ∀ inferred : Ty, inferred.everywhere (Ty.isInhabitable broad) = true →
      inferred.narrowed.everywhere (Ty.isInhabitable broad) = true
      ∨ ∀ j : Journal, E (j.noteAll (inferred.withoutNarrowing.map .noNarrowing)) := by
    intro inferred h
    by_cases hnone : inferred.withoutNarrowing = []
    · exact Or.inl (Ty.everywhere_narrowed h hnone)
    · obtain ⟨ty, hty⟩ := List.exists_mem_of_ne_nil _ hnone
      -- something without a narrowing was met, which only broad types are
      have hbroad : broad = true := by
        cases broad with
        | true => rfl
        | false => exact absurd (Ty.withoutNarrowing_eq_nil h) hnone
      refine Or.inr fun j => excuse hbroad _ ty (Journal.mem_log_noteAll j _ ?_)
      exact List.mem_map_of_mem hty
  { given := fun ty => ty.everywhere (Ty.isInhabitable broad) = true
    declarable := Ty.isOffered broad
    meets := fun result _ => result.everywhere (Ty.isInhabitable broad) = true
    lasts := lasts
    given_effective := Ty.everywhere_effective
    given_error := fun h => by cases h
    given_tuple := fun _ _ h => (Ty.everywhere_tuple.mp h).2.1
    given_record := fun _ _ _ h => (Ty.everywhere_record.mp h).2.1
    declarable_error := fun h => by cases h
    default := fun _ _ hty h => Ty.everywhere_default hty h
    reference := fun _ _ _ h => h
    intersection := fun _ _ h => h
    array := fun _ _ _ h _ => Ty.everywhere_tupleOf h
    tuple := fun _ _ firsts others hfirsts hothers => Ty.everywhere_tupleOf fun ty hmem => by
      rcases List.mem_append.mp hmem with hmem | hmem
      · exact (exists_of_mem_right hfirsts hmem).choose_spec.2
      · exact (hothers ty hmem).choose_spec.2
    map := fun _ _ h => Ty.everywhere_sealedOf h
    record := fun _ _ _ declared further hdeclared _ hfurther =>
      Ty.everywhere_sealedOf fun entry hmem => by
        rcases List.mem_append.mp hmem with hmem | hmem
        · exact (exists_of_mem_right hdeclared hmem).choose_spec.2.2
        · rcases (hfurther entry hmem).2 with ⟨-, -, h⟩ | ⟨ty, -, h⟩
          · exact h
          · exact h
    union := fun _ _ ⟨_, _, h⟩ => h
    finite := fun _ _ _ _ => rfl
    nil := rfl
    primitive := fun p inferred h ty hmem _ => by
      have hty := Ty.everywhere_unionMembers h hmem
      unfold rebase
      split
      · split
        · rfl
        · exact hty
      · exact hty
    anydata := narrowed
    json := narrowed }

end ConstNarrow
