/-
**A validated type is validated again.**

What comes out of a validation may be copied to a place of the same declared type. For values this is
so because picking twice is picking once. For lists and records two things may go wrong, and both come
from the places that a list leaves open. The default of a type need not be taken back by it: a table is
never taken, and a record is filled in its required fields only but has to have the others too. And a
member of a union that has no default for an open place may take the result after all, in which the
place is filled from another member.

So the open places have to be filled from types that take their defaults back. Under a union this is
asked of the first member that has defaults for them; and if a member before it fits and only lacks a
default, then nothing may be filled in.
-/
import ConstNarrow.Proofs.Giving
import ConstNarrow.Proofs.Picking

set_option autoImplicit false

namespace ConstNarrow

open Validation ConstNarrow.Singleton Ty

namespace Ty

/-! ## Defaults that are taken back -/

mutual

/-- Whether a type has a default and takes it back. In the default no table stands, and no record
whose type has optional fields. -/
def refills : Ty → Bool
  | .primitive _ => true
  | .array elem size =>
    match size with
    | .unbounded => true
    | .inferred => false
    | .closed n => n == 0 || elem.refills
  | .tuple members _ => refillsList members
  | .record fields _ _ => refillsFields fields
  | .map _ => true
  | .table => false
  | .anydata => true
  | .json => true
  | .finite values =>
    match values with
    | [_] => true
    | values => (Ty.finite values).containsNil
  | .union members =>
    match members with
    | [only] => only.refills
    | members => (Ty.union members).containsNil
  | .reference _ referred => referred.refills
  | .intersection inner => inner.refills
  | .error => false
termination_by structural ty => ty

/-- Whether this holds of all types of a list. -/
def refillsList : List Ty → Bool
  | [] => true
  | ty :: tys => ty.refills && refillsList tys
termination_by structural tys => tys

/-- Whether all fields are required and this holds of their types. -/
def refillsFields : {bound : Option String} → Fields bound → Bool
  | _, .nil => true
  | _, .cons _ _ ty required tail => required && ty.refills && refillsFields tail
termination_by structural _ fields => fields

end

theorem refillsList_iff {tys : List Ty} :
    refillsList tys = true ↔ ∀ ty ∈ tys, ty.refills = true := by
  induction tys with
  | nil => simp [refillsList]
  | cons ty tys ih => simp [refillsList, ih]

theorem refillsFields_iff {bound : Option String} : (fields : Fields bound) →
    (refillsFields fields = true
      ↔ ∀ entry ∈ fields.toList, entry.2.required = true ∧ entry.2.ty.refills = true)
  | .nil => by simp [refillsFields, Fields.toList]
  | .cons name above ty required tail => by
    simp [refillsFields, Fields.toList, refillsFields_iff tail]

/-- A default that is taken back. -/
structure Restores (site : Site) (value ty : Ty) : Prop where
  default : ty.default = .ok value
  looked : Looked value
  made : Made site value ty value

section Defaults

variable {site : Site}

theorem exists_defaultList {tys : List Ty} (h : ∀ ty ∈ tys, ∃ value, Restores site value ty) :
    ∃ values, defaultList tys = .ok values ∧ List.Forall₂ (fun ty value => Restores site value ty) tys
      values := by
  induction tys with
  | nil => exact ⟨[], rfl, .nil⟩
  | cons ty tys ih =>
    obtain ⟨⟨value, hvalue⟩, hrest⟩ := List.forall_mem_cons.mp h
    obtain ⟨values, hdefault, hvalues⟩ := ih hrest
    refine ⟨value :: values, ?_, .cons hvalue hvalues⟩
    rw [defaultList, hvalue.default, hdefault]
    rfl

theorem exists_defaultFields {bound : Option String} : (fields : Fields bound) →
    (∀ entry ∈ fields.toList, entry.2.required = true ∧ ∃ value, Restores site value entry.2.ty) →
    ∃ entries, defaultFields fields = .ok entries
      ∧ List.Forall₂ (fun field entry => entry.1 = field.1 ∧ Restores site entry.2 field.2.ty)
        fields.toList entries
  | .nil, _ => ⟨[], rfl, .nil⟩
  | .cons name above ty required tail, h => by
    rw [Fields.toList, List.forall_mem_cons] at h
    obtain ⟨⟨hrequired, value, hvalue⟩, hrest⟩ := h
    obtain ⟨entries, hdefault, hentries⟩ := exists_defaultFields tail hrest
    refine ⟨(name, value) :: entries, ?_, .cons ⟨rfl, hvalue⟩ hentries⟩
    rw [defaultFields, if_pos hrequired, hvalue.default, hdefault]
    rfl

/-- A value that a type picks as it is. -/
theorem made_singleton {ty : Ty} (hty : ty.everywhere isWellFormed = true) {w : Singleton}
    (hw : w.isProper = true) (h : ty.pick [w] = some w) :
    Made site (singleton w) ty (singleton w) := by
  have htells : Tells (validate site ty (singleton w)) (given (ty.pick [w])) [] :=
    tells_pick (.value w) (by simpa using hw) (List.pairwise_singleton _ _)
      (isNoError_of_alternative hty)
  rw [h] at htells
  exact ⟨_, htells⟩

theorem made_nil {ty : Ty} (hty : ty.everywhere isWellFormed = true) (h : ty.containsNil = true) :
    Made site (singleton .nil) ty (singleton .nil) := by
  have hnil : Singleton.nil.isProper = true := isProper_ofScalar _
  have hproper : ∀ r ∈ [Singleton.nil], r.isProper = true := by simpa using hnil
  obtain ⟨w, hw⟩ := exists_pick (isNoError_of_alternative hty) (List.mem_singleton_self .nil)
    (admits_nil (holdsProper_of_isWellFormed hty) h)
  -- nothing but nil is the same value as nil
  obtain ⟨r, hr, hsame, -⟩ := exists_of_pick hw
  rw [List.mem_singleton.mp hr] at hsame
  have hw' := isProper_of_pick hty hproper hw
  rw [eq_nil_of_fits hw' (fits_of_sameValue hnil hw' hsame rfl)] at hw
  exact made_singleton hty hnil hw

theorem membersMade_self {members values : List Ty} {rest : Option Ty}
    {fills : (value expected : Ty) → Prop}
    (h : List.Forall₂ (fun ty value => Made site value ty value) members values) :
    MembersMade (Made site) fills rest members values values := by
  induction h with
  | nil => exact .further .nil
  | cons hfirst _ ih => exact .matched hfirst ih

theorem membersMade_filled {meets : (result expected inferred : Ty) → Prop}
    {fills : (value expected : Ty) → Prop} {rest : Option Ty} {members values : List Ty}
    (h : List.Forall₂ (fun ty value => fills value ty) members values) :
    MembersMade meets fills rest members [] values := by
  induction h with
  | nil => exact .further .nil
  | cons hfirst _ ih => exact .filled hfirst ih

/-- A record of defaults is taken back, if there is one for each field. -/
theorem made_sealedOf {fields : Fields none} {rest : Option Ty} {isSealed : Bool}
    {entries : List (String × Ty)}
    (h : List.Forall₂ (fun field entry => entry.1 = field.1 ∧ Made site entry.2 field.2.ty entry.2)
      fields.toList entries) :
    Made site (sealedOf entries) (.record fields rest isSealed) (sealedOf entries) := by
  have hnames := map_fst_of_forall₂ h
  have hnodup : (entries.map Prod.fst).Nodup := hnames ▸ fields.nodup_names
  refine gives_record_entries.mpr ⟨entries, [], ?_, ?_, by rw [List.append_nil]⟩
  · refine List.forall₂_iff_zip.mpr ⟨h.length_eq, fun {field entry} hzip => ?_⟩
    obtain ⟨hname, hmade⟩ := (List.forall₂_iff_zip.mp h).2 hzip
    refine ⟨hname, ⟨entry.2, true⟩, ?_, hmade⟩
    rw [← hname]
    exact Fields.get?_ofList_required hnodup (List.of_mem_zip hzip).2
  · rw [List.filter_eq_nil_iff.mpr fun field hfield => ?_]
    · exact .nil
    · obtain ⟨entry, hentry, rfl⟩ := List.mem_map.mp (Fields.mem_of_mem_toList_ofList hfield)
      have hname : entry.1 ∈ fields.names := by
        rw [Fields.names, ← hnames]
        exact List.mem_map_of_mem hentry
      simp [(Fields.contains_iff_mem_names fields entry.1).mpr hname]

/-- An array refills if it has no place to be filled, or its elements do. -/
theorem exists_restores_array {elem : Ty} {size : ArraySize} (h : (Ty.array elem size).refills = true)
    (ih : elem.refills = true → ∃ value, Restores site value elem) :
    ∃ value, Restores site value (.array elem size) := by
  -- where no member is needed the empty list is the default
  have hempty : ∀ size, missing size 0 = 0 → hasRoom size 0 = true →
      Made site emptyTuple (.array elem size) emptyTuple := fun size hmissing hroom =>
    gives_array.mpr ⟨hroom, [], [], .nil, hmissing.symm, by simp, rfl⟩
  cases size with
  | unbounded => exact ⟨_, rfl, ⟨rfl, rfl⟩, hempty _ rfl rfl⟩
  | inferred => cases h
  | closed n =>
    cases n with
    | zero => exact ⟨_, rfl, ⟨rfl, rfl⟩, hempty _ rfl rfl⟩
    | succ n =>
      obtain ⟨value, hvalue⟩ := ih h
      refine ⟨.tuple (List.replicate (n + 1) value) none, ?_, ⟨rfl, rfl⟩, ?_⟩
      · show elem.default.map (fun member => Ty.tuple (List.replicate (n + 1) member) none) = _
        rw [hvalue.default]
        rfl
      · refine gives_array.mpr ⟨by simp [hasRoom], List.replicate (n + 1) value, [], ?_,
          by simp [missing], by simp, by simp⟩
        refine List.forall₂_same.mpr fun ty hty => ?_
        rw [List.eq_of_mem_replicate hty]
        exact hvalue.made

/-- **A type that refills has a default, and takes it back.** -/
theorem exists_restores {ty : Ty} (hty : ty.everywhere isWellFormed = true) (h : ty.refills = true) :
    ∃ value, Restores site value ty := by
  induction ty using induction_parts with
  | primitive p =>
    refine ⟨_, rfl, ⟨rfl, rfl⟩, made_singleton hty (isProper_default p) ?_⟩
    cases p <;> rfl
  | array elem size ih => exact exists_restores_array h (ih (everywhere_array.mp hty).2)
  | tuple members rest ih _ =>
    obtain ⟨values, hdefault, hvalues⟩ := exists_defaultList fun ty hmem =>
      ih ty hmem ((everywhere_tuple.mp hty).2.1 ty hmem) (refillsList_iff.mp h ty hmem)
    refine ⟨.tuple values none, ?_, ⟨rfl, rfl⟩, ?_⟩
    · rw [default, hdefault]
      rfl
    · exact gives_tuple.mpr ⟨values, membersMade_self (hvalues.imp fun _ _ h => h.made), rfl⟩
  | record fields rest isSealed ih _ =>
    obtain ⟨entries, hdefault, hentries⟩ := exists_defaultFields fields fun entry hmem =>
      ⟨((refillsFields_iff fields).mp h entry hmem).1, ih entry hmem
        ((everywhere_record.mp hty).2.1 entry hmem) ((refillsFields_iff fields).mp h entry hmem).2⟩
    refine ⟨sealedOf entries, ?_, ⟨rfl, rfl⟩, ?_⟩
    · rw [default, hdefault]
      rfl
    · exact made_sealedOf (hentries.imp fun _ _ h => ⟨h.1, h.2.made⟩)
  | map constraint _ => exact ⟨_, rfl, ⟨rfl, rfl⟩, gives_map.mpr ⟨[], .nil, rfl⟩⟩
  | anydata | json => exact ⟨_, rfl, ⟨rfl, rfl⟩, made_nil hty rfl⟩
  | finite values =>
    -- one value is the default itself, and of several it has to be nil
    rcases values with - | ⟨only, - | ⟨second, rest⟩⟩
    · cases h
    · have hproper : [only].all isProper = true := everywhere_self (holdsProper_of_isWellFormed hty)
      refine ⟨_, rfl, ⟨rfl, rfl⟩, made_singleton hty (by simpa using hproper) ?_⟩
      rw [pick_finite]
      simp [sameValue_self, lowest?]
    · exact ⟨_, if_pos h, ⟨rfl, rfl⟩, made_nil hty h⟩
  | union members ih =>
    rcases members with - | ⟨only, - | ⟨second, rest⟩⟩
    · cases h
    · obtain ⟨value, hvalue⟩ :=
        ih only List.mem_cons_self ((everywhere_union.mp hty).2 only List.mem_cons_self) h
      refine ⟨value, hvalue.default, hvalue.looked, (gives_union_iff hvalue.looked).mpr ?_⟩
      rw [fitting_cons, (gives_iff_outcome (told_validate site only value)).mp hvalue.made]
      exact ⟨_, .pure value⟩
    · exact ⟨_, if_pos h, ⟨rfl, rfl⟩, made_nil hty h⟩
  | reference name referred ih =>
    obtain ⟨value, hvalue⟩ := ih (everywhere_reference.mp hty).2 h
    exact ⟨value, hvalue.default, hvalue.looked, hvalue.made⟩
  | intersection inner ih =>
    obtain ⟨value, hvalue⟩ := ih (everywhere_intersection.mp hty).2 h
    exact ⟨value, hvalue.default, hvalue.looked, hvalue.made⟩
  | table | error => cases h

end Defaults

/-! ## Fitting apart from open places -/

/-- Whether a type has a default. -/
def hasDefault (ty : Ty) : Bool := ty.default.toOption.isSome

mutual

/-- Whether an inferred type fits an expected one, where the types of the places that a list leaves
open have to satisfy `fills`. A union takes what one of its members takes. But if this is `strict`, it
goes by the first member that has defaults for its open places; and after a member that fits and only
lacks a default, nothing may be left open. -/
def takes : (expected : Ty) → (strict : Bool) → (fills : Ty → Bool) → (inferred : Ty) → Bool
  | .primitive p, _, _, inferred => inferred.unionMembers.any (·.isAssignable (.primitive p))
  | .finite values, _, _, inferred => inferred.unionMembers.any (·.isAssignable (.finite values))
  | .array elem size, strict, fills, inferred =>
    match inferred with
    | .tuple members _ =>
      hasRoom size members.length && members.all (elem.takes strict fills)
        && (missing size members.length == 0 || fills elem)
    | _ => false
  | .tuple expected rest, strict, fills, inferred =>
    match inferred with
    | .tuple members _ => takesEach expected strict fills (takesOption rest strict fills) members
    | _ => false
  | .map constraint, strict, fills, inferred =>
    match inferred with
    | .record fields _ _ => fields.toList.all fun (_, field) => constraint.takes strict fills field.ty
    | _ => false
  | .record expected rest isSealed, strict, fills, inferred =>
    match inferred with
    | .record fields _ _ =>
      takesFields expected strict fills fields && fields.toList.all fun (name, field) =>
        expected.contains name || (rest.isNone && !isSealed) || takesOption rest strict fills field.ty
    | _ => false
  | .union members, strict, fills, inferred => takesUnion members strict fills inferred
  | .anydata, _, _, _ => true
  | .json, _, _, _ => true
  | .table, _, _, _ => false
  | .reference _ referred, strict, fills, inferred => referred.takes strict fills inferred
  | .intersection inner, strict, fills, inferred => inner.takes strict fills inferred
  | .error, _, _, _ => true
termination_by structural ty => ty

/-- The same for members position by position; further ones have to satisfy `extra`. -/
def takesEach : List Ty → (strict : Bool) → (fills : Ty → Bool) → (extra : Ty → Bool) → List Ty → Bool
  | [], _, _, extra, inferred => inferred.all extra
  | ty :: tys, _, fills, _, [] => fills ty && tys.all fills
  | ty :: tys, strict, fills, extra, first :: inferred =>
    ty.takes strict fills first && takesEach tys strict fills extra inferred
termination_by structural tys => tys

/-- The same for a rest type; without one nothing fits. -/
def takesOption : Option Ty → (strict : Bool) → (fills : Ty → Bool) → Ty → Bool
  | none, _, _, _ => false
  | some ty, strict, fills, inferred => ty.takes strict fills inferred
termination_by structural ty => ty

/-- The same for the fields that are expected. -/
def takesFields : {bound : Option String} → Fields bound → (strict : Bool) → (fills : Ty → Bool) →
    Fields none → Bool
  | _, .nil, _, _, _ => true
  | _, .cons name _ ty _ tail, strict, fills, inferred =>
    (inferred.get? name).any (fun field => ty.takes strict fills field.ty)
      && takesFields tail strict fills inferred
termination_by structural _ fields => fields

/-- The same for the members of a union. -/
def takesUnion : List Ty → (strict : Bool) → (fills : Ty → Bool) → Ty → Bool
  | [], _, _, _ => false
  | ty :: tys, false, fills, inferred =>
    ty.takes false fills inferred || takesUnion tys false fills inferred
  | ty :: tys, true, fills, inferred =>
    if ty.takes false hasDefault inferred then ty.takes true fills inferred
    else if ty.takes false (fun _ => true) inferred then takesUnion tys true (fun _ => false) inferred
    else takesUnion tys true fills inferred
termination_by structural tys => tys

end

section Takes

variable {strict : Bool} {fills : Ty → Bool} {inferred : Ty}

theorem takesOption_iff {rest : Option Ty} : takesOption rest strict fills inferred = true
    ↔ ∃ ty ∈ rest, ty.takes strict fills inferred = true := by
  cases rest <;> simp [takesOption]

theorem takesFields_iff {source : Fields none} {bound : Option String} : (fields : Fields bound) →
    (takesFields fields strict fills source = true ↔ ∀ field ∈ fields.toList, ∃ own,
      source.get? field.1 = some own ∧ field.2.ty.takes strict fills own.ty = true)
  | .nil => by simp [takesFields, Fields.toList]
  | .cons name above ty required tail => by
    rw [takesFields, Bool.and_eq_true, takesFields_iff tail, Fields.toList, List.forall_mem_cons,
      Option.any_eq_true]

/-- What a record takes as the fields that it does not name. -/
theorem takes_further_iff {rest : Option Ty} {isSealed : Bool} :
    (rest.isNone && !isSealed || takesOption rest strict fills inferred) = true
      ↔ ∃ ty ∈ furtherTy rest isSealed, ty.takes strict fills inferred = true := by
  cases rest with
  | some ty => simp [furtherTy, takesOption]
  | none => cases isSealed <;> simp [furtherTy, takesOption, takes]

/-- A record takes its own fields by their types, and all others by what it expects of them. -/
theorem takes_record_iff {expected source : Fields none} {rest sourceRest : Option Ty}
    {isSealed sourceSealed : Bool} :
    (Ty.record expected rest isSealed).takes strict fills (.record source sourceRest sourceSealed) = true
      ↔ (∀ field ∈ expected.toList, ∃ own, source.get? field.1 = some own
          ∧ field.2.ty.takes strict fills own.ty = true)
        ∧ ∀ field ∈ source.toList, expected.contains field.1 = false →
          ∃ ty ∈ furtherTy rest isSealed, ty.takes strict fills field.2.ty = true := by
  simp only [takes, Bool.and_eq_true, takesFields_iff, List.all_eq_true, Bool.or_assoc]
  refine and_congr_right fun _ => forall_congr' fun field => forall_congr' fun _ => ?_
  rw [Bool.or_eq_true, takes_further_iff]
  cases expected.contains field.1 <;> simp

/-- An array takes a list that has room, member by member, and fills what is open. -/
theorem takes_array_iff {elem : Ty} {size : ArraySize} {members : List Ty} {rest : Option Ty} :
    (Ty.array elem size).takes strict fills (.tuple members rest) = true
      ↔ hasRoom size members.length = true ∧ (∀ ty ∈ members, elem.takes strict fills ty = true)
        ∧ (missing size members.length = 0 ∨ fills elem = true) := by
  simp only [takes, Bool.and_eq_true, List.all_eq_true, Bool.or_eq_true, beq_iff_eq, and_assoc]

theorem takesUnion_iff {members : List Ty} : takesUnion members false fills inferred = true
    ↔ ∃ member ∈ members, member.takes false fills inferred = true := by
  induction members with
  | nil => simp [takesUnion]
  | cons ty members ih => simp [takesUnion, ih]

/-- If this is strict, a union goes by the first member that has defaults for its open places. Either no
member before it fits, or nothing is left open. -/
theorem exists_of_takesUnion {members : List Ty} (h : takesUnion members true fills inferred = true) :
    ∃ before member after, members = before ++ member :: after
      ∧ (∀ other ∈ before, other.takes false hasDefault inferred = false)
      ∧ ((∀ other ∈ before, other.takes false (fun _ => true) inferred = false)
          ∧ member.takes true fills inferred = true
        ∨ member.takes true (fun _ => false) inferred = true) := by
  induction members generalizing fills with
  | nil => cases h
  | cons ty members ih =>
    rw [takesUnion] at h
    split at h
    · exact ⟨[], ty, members, rfl, by simp, Or.inl ⟨by simp, h⟩⟩
    rename_i hdefault
    split at h
    · -- it fits and lacks a default, so the rest was asked to leave nothing open
      obtain ⟨before, member, after, rfl, hbefore, hmember⟩ := ih h
      exact ⟨ty :: before, member, after, rfl,
        List.forall_mem_cons.mpr ⟨Bool.eq_false_iff.mpr hdefault, hbefore⟩,
        Or.inr (hmember.elim And.right id)⟩
    · rename_i hfits
      obtain ⟨before, member, after, rfl, hbefore, hmember⟩ := ih h
      refine ⟨ty :: before, member, after, rfl,
        List.forall_mem_cons.mpr ⟨Bool.eq_false_iff.mpr hdefault, hbefore⟩, hmember.imp_left ?_⟩
      rintro ⟨hnone, hmember⟩
      exact ⟨List.forall_mem_cons.mpr ⟨Bool.eq_false_iff.mpr hfits, hnone⟩, hmember⟩

/-! ### Values -/

theorem any_isAssignable_iff {readings : List Singleton} (h : StandsFor inferred readings)
    (expected : Ty) : inferred.unionMembers.any (·.isAssignable expected) = true
      ↔ ∃ r ∈ readings, expected.admits r = true := by
  rw [h.unionMembers, List.any_map, List.any_eq_true]
  exact exists_congr fun r => and_congr_right fun _ => isAssignable_singleton

/-- A value that fits has a reading that belongs to the expected type. -/
theorem exists_of_takes_readings {expected : Ty}
    (hexpected : expected.everywhere isWellFormed = true) {readings : List Singleton}
    (h : StandsFor inferred readings) (htakes : expected.takes strict fills inferred = true) :
    ∃ r ∈ readings, expected.admits r = true := by
  obtain ⟨first, hfirst⟩ := List.exists_mem_of_ne_nil _ h.ne_nil
  induction expected using induction_parts generalizing fills with
  | primitive p => exact (any_isAssignable_iff h (.primitive p)).mp htakes
  | finite values => exact (any_isAssignable_iff h (.finite values)).mp htakes
  | reference name referred ih => exact ih (everywhere_reference.mp hexpected).2 htakes
  | intersection inner ih => exact ih (everywhere_intersection.mp hexpected).2 htakes
  | union members ih =>
    -- under either rule one member takes it, though perhaps with other open places
    have hmember : ∃ member ∈ members, ∃ fills, member.takes strict fills inferred = true := by
      cases strict with
      | false =>
        obtain ⟨member, hmember, htakes⟩ := takesUnion_iff.mp htakes
        exact ⟨member, hmember, fills, htakes⟩
      | true =>
        obtain ⟨before, member, after, rfl, -, htakes⟩ := exists_of_takesUnion htakes
        exact ⟨member, by simp, htakes.elim (fun h => ⟨_, h.2⟩) fun h => ⟨_, h⟩⟩
    obtain ⟨member, hmember, fills, htakes⟩ := hmember
    obtain ⟨r, hr, hadmits⟩ :=
      ih member hmember ((everywhere_union.mp hexpected).2 member hmember) htakes
    exact ⟨r, hr, admitsAny_iff.mpr ⟨member, hmember, hadmits⟩⟩
  | anydata | json => exact ⟨first, hfirst, rfl⟩
  | error => cases everywhere_isNoError hexpected
  | array | tuple | map | record | table => cases h <;> cases htakes

/-- A value fits if one of its readings belongs to the expected type. -/
theorem takes_readings {expected : Ty} {readings : List Singleton} (h : StandsFor inferred readings)
    {r : Singleton} (hr : r ∈ readings) (hadmits : expected.admits r = true) :
    expected.takes false fills inferred = true := by
  induction expected using induction_parts with
  | primitive p => exact (any_isAssignable_iff h (.primitive p)).mpr ⟨r, hr, hadmits⟩
  | finite values => exact (any_isAssignable_iff h (.finite values)).mpr ⟨r, hr, hadmits⟩
  | reference name referred ih => exact ih hadmits
  | intersection inner ih => exact ih hadmits
  | union members ih =>
    obtain ⟨member, hmember, hadmits⟩ := admitsAny_iff.mp hadmits
    exact takesUnion_iff.mpr ⟨member, hmember, ih member hmember hadmits⟩
  | anydata | json | error => rfl
  | array | tuple | map | record | table => cases hadmits

end Takes

/-! ## What is validated, and what it comes to -/

/-- What is validated: a value with readings of different kinds, or a list or a sealed record of such
types. -/
inductive Draft : Ty → Prop where
  | readings {ty : Ty} {readings : List Singleton} (h : StandsFor ty readings)
      (hproper : ∀ r ∈ readings, r.isProper = true) (hapart : readings.Pairwise Apart) : Draft ty
  | tuple {members : List Ty} (h : ∀ ty ∈ members, Draft ty) : Draft (.tuple members none)
  | record {fields : Fields none} (h : ∀ field ∈ fields.toList, Draft field.2.ty) :
      Draft (.record fields none true)

/-- What a draft comes to: some of the readings remain, lists may be longer unless this is `tight`, and
records have the same names. -/
inductive Completes (tight : Prop) : (result inferred : Ty) → Prop where
  | readings {result inferred : Ty} {kept readings : List Singleton} (hresult : StandsFor result kept)
      (hinferred : StandsFor inferred readings) (hkept : ∀ w ∈ kept, w.isProper = true)
      (hapart : kept.Pairwise Apart) (hproper : ∀ r ∈ readings, r.isProper = true)
      (h : ∀ w ∈ kept, ∃ r ∈ readings, r.sameValue w = true) : Completes tight result inferred
  | tuple {results fillers members : List Ty} (h : List.Forall₂ (Completes tight) results members)
      (hfillers : tight → fillers = []) :
      Completes tight (.tuple (results ++ fillers) none) (.tuple members none)
  | record {results fields : Fields none}
      (hnames : ∀ name, results.contains name = fields.contains name)
      (h : ∀ name result field, results.get? name = some result → fields.get? name = some field →
        Completes tight result.ty field.ty) :
      Completes tight (.record results none true) (.record fields none true)

theorem StandsFor.looked {ty : Ty} {readings : List Singleton} (h : StandsFor ty readings) :
    Looked ty := by
  cases h <;> exact ⟨rfl, rfl⟩

theorem Draft.looked {ty : Ty} (h : Draft ty) : Looked ty := by
  cases h with
  | readings h => exact h.looked
  | tuple | record => exact ⟨rfl, rfl⟩

theorem Completes.looked {tight : Prop} {result inferred : Ty} (h : Completes tight result inferred) :
    Looked result := by
  cases h with
  | readings h => exact h.looked
  | tuple | record => exact ⟨rfl, rfl⟩

/-- A draft comes to itself if nothing is settled. -/
theorem Draft.completes_self {tight : Prop} {ty : Ty} (h : Draft ty) : Completes tight ty ty := by
  induction h with
  | readings h hproper hapart =>
    exact .readings h h hproper hapart hproper fun w hw => ⟨w, hw, sameValue_self w⟩
  | @tuple members _ ih =>
    have hself : Completes tight (.tuple (members ++ []) none) (.tuple members none) :=
      .tuple (List.forall₂_same.mpr ih) fun _ => rfl
    rwa [List.append_nil] at hself
  | @record fields _ ih =>
    refine .record (fun _ => rfl) fun name result field hresult hfield => ?_
    cases hresult.symm.trans hfield
    exact ih _ (Fields.mem_toList_of_get? fields hresult)

theorem Draft.completes_narrowed {tight : Prop} {ty : Ty} (h : Draft ty) :
    Completes tight ty.narrowed ty := by
  induction h with
  | @readings ty readings h hproper hapart =>
    have hmem := List.head_mem h.ne_nil
    rw [h.narrowed]
    refine .readings (.value _) h ?_ (List.pairwise_singleton _ _) hproper fun w hw => ⟨w, ?_, ?_⟩
    · simpa using hproper _ hmem
    · rwa [List.mem_singleton.mp hw]
    · exact sameValue_self w
  | @tuple members _ ih =>
    rw [narrowed, narrowedOption, narrowedList_eq_map, ← List.append_nil (members.map narrowed)]
    exact .tuple (List.forall₂_map_left_iff.mpr (List.forall₂_same.mpr ih)) fun _ => rfl
  | @record fields _ ih =>
    refine .record (fun name => ?_) fun name result field hresult hfield => ?_
    · rw [Fields.contains, Fields.contains, Fields.get?_narrowedFields, Option.isSome_map]
    · rw [Fields.get?_narrowedFields, hfield] at hresult
      cases hresult
      exact ih _ (Fields.mem_toList_of_get? fields hfield)

theorem narrowed_narrowed (ty : Ty) : ty.narrowed.narrowed = ty.narrowed := by
  have hoption : ∀ rest : Option Ty, (∀ ty ∈ rest, ty.narrowed.narrowed = ty.narrowed) →
      narrowedOption (narrowedOption rest) = narrowedOption rest := by
    intro rest h
    cases rest with
    | none => rfl
    | some ty => exact congrArg some (h ty rfl)
  induction ty using induction_parts with
  | reference name referred ih => exact ih
  | intersection inner ih => exact ih
  | array elem size ih => rw [narrowed, narrowed, ih]
  | tuple members rest ih ihrest =>
    rw [narrowed, narrowed, hoption rest ihrest, narrowedList_eq_map, narrowedList_eq_map,
      List.map_map]
    exact congrArg (Ty.tuple · _) (List.map_congr_left ih)
  | record fields rest isSealed ih ihrest =>
    rw [narrowed, narrowed, hoption rest ihrest]
    refine congrArg (Ty.record · _ isSealed) (Fields.ext_get? _ _ fun name => ?_)
    rw [Fields.get?_narrowedFields, Fields.get?_narrowedFields]
    cases hfield : fields.get? name with
    | none => rfl
    | some field =>
      exact congrArg (fun ty => some (Field.mk ty field.required))
        (ih _ (Fields.mem_toList_of_get? fields hfield))
  | union members ih =>
    cases members with
    | nil => rfl
    | cons first members => exact ih first List.mem_cons_self
  | primitive p => cases p <;> rfl
  | finite | map | table | anydata | json | error => rfl

/-! ## What fits a result fits what it was made from -/

section Fitting

variable {site : Site} {result inferred : Ty}

/-- What is made of a value is the reading that the expected type picks. -/
theorem made_readings_iff {expected : Ty} (hexpected : expected.everywhere isWellFormed = true)
    {readings : List Singleton} (h : StandsFor inferred readings)
    (hproper : ∀ r ∈ readings, r.isProper = true) (hapart : readings.Pairwise Apart) :
    Made site result expected inferred
      ↔ ∃ w, expected.pick readings = some w ∧ result = singleton w := by
  have htells : Tells (validate site expected inferred) (Validation.given (expected.pick readings)) [] :=
    tells_pick h hproper hapart (isNoError_of_alternative hexpected)
  cases hpick : expected.pick readings with
  | none =>
    rw [hpick] at htells
    refine iff_of_false ?_ (by simp)
    rintro ⟨ds, hmade⟩
    cases (hmade.unique htells).1
  | some w =>
    rw [hpick] at htells
    constructor
    · exact fun hmade => ⟨w, rfl, Gives.unique ⟨_, htells⟩ hmade⟩
    · rintro ⟨v, hv, rfl⟩
      cases hv
      exact ⟨_, htells⟩

theorem hasRoom_of_le {size : ArraySize} {m n : Nat} (hle : m ≤ n) (h : hasRoom size n = true) :
    hasRoom size m = true := by
  cases size with
  | closed k => simp_all [hasRoom]; omega
  | unbounded | inferred => rfl

/-- What is asked of the open places of a draft, given what it comes to: nothing, or that they have a
default if nothing was filled in. -/
structure Grants (tight : Prop) (fills : Ty → Bool) : Prop where
  hasDefault : ∀ ty : Ty, ty.hasDefault = true → fills ty = true
  all : ¬ tight → ∀ ty : Ty, fills ty = true

variable (site) in
/-- What a type takes after completion fits it before, apart from open places. -/
def FitsBack (expected : Ty) : Prop :=
  ∀ ⦃tight : Prop⦄ ⦃fills : Ty → Bool⦄ ⦃result inferred value : Ty⦄, Grants tight fills →
    Completes tight result inferred → Made site value expected result →
    expected.takes false fills inferred = true

/-- For values this is so, since the readings that remain were there before. -/
theorem fitsBack_of_structures {expected : Ty} (hexpected : expected.everywhere isWellFormed = true)
    (tuple : ∀ {tight : Prop} {fills : Ty → Bool} {results fillers members : List Ty} {value : Ty},
      Grants tight fills → List.Forall₂ (Completes tight) results members → (tight → fillers = []) →
      Made site value expected (.tuple (results ++ fillers) none) →
      expected.takes false fills (.tuple members none) = true)
    (record : ∀ {tight : Prop} {fills : Ty → Bool} {results fields : Fields none} {value : Ty},
      Grants tight fills →
      (∀ field ∈ fields.toList, ∃ own, results.get? field.1 = some own
        ∧ Completes tight own.ty field.2.ty) →
      (∀ own ∈ results.toList, ∃ field, fields.get? own.1 = some field
        ∧ Completes tight own.2.ty field.ty) →
      Made site value expected (.record results none true) →
      expected.takes false fills (.record fields none true) = true) :
    FitsBack site expected := by
  intro tight fills result inferred value hgrants h hmade
  cases h with
  | readings hresult hinferred hkept hapart hproper h =>
    obtain ⟨u, hpick, -⟩ := (made_readings_iff hexpected hresult hkept hapart).mp hmade
    obtain ⟨w, hw, -, hadmits⟩ := exists_of_pick hpick
    obtain ⟨r, hr, hsame⟩ := h w hw
    rw [sameValue_comm] at hsame
    exact takes_readings hinferred hr (admits_of_sameValue (holdsProper_of_isWellFormed hexpected)
      (hkept w hw) (hproper r hr) hsame hadmits)
  | tuple h hfillers => exact tuple hgrants h hfillers hmade
  | @record results fields hnames h =>
    -- the same names are there on both sides, so each field has its counterpart
    refine record hgrants (fun field hfield => ?_) (fun own hown => ?_) hmade
    · have hget := Fields.get?_of_mem_toList fields hfield
      have hcontains : results.contains field.1 = true := by
        rw [hnames, Fields.contains, hget]
        rfl
      obtain ⟨own, hown⟩ := Option.isSome_iff_exists.mp hcontains
      exact ⟨own, hown, h _ _ _ hown hget⟩
    · have hget := Fields.get?_of_mem_toList results hown
      have hcontains : fields.contains own.1 = true := by
        rw [← hnames, Fields.contains, hget]
        rfl
      obtain ⟨field, hfield⟩ := Option.isSome_iff_exists.mp hcontains
      exact ⟨field, hfield, h _ _ _ hget hfield⟩

theorem mem_furtherTy {rest : Option Ty} {isSealed : Bool} {ty : Ty} (h : ty ∈ furtherTy rest isSealed) :
    ty ∈ rest ∨ ty = .anydata := by
  cases rest with
  | some other => exact Or.inl h
  | none =>
    cases isSealed with
    | true => cases h
    | false => exact Or.inr (Option.some.inj h).symm

theorem Grants.ofDefaults : Grants True Ty.hasDefault :=
  ⟨fun _ => id, fun htight => absurd trivial htight⟩

theorem Grants.of_default {tight : Prop} {fills : Ty → Bool} (h : Grants tight fills) {ty value : Ty}
    (hdefault : ty.default = .ok value) : fills ty = true :=
  h.hasDefault ty (by rw [Ty.hasDefault, hdefault]; rfl)

theorem exists_default_of_made {expected values : List Ty} {rest : Option Ty}
    (h : MembersMade (Made site) (fun value ty => ty.default = .ok value) rest expected [] values) :
    ∀ ty ∈ expected, ∃ value, ty.default = .ok value := by
  induction expected generalizing values with
  | nil => simp
  | cons ty expected ih =>
    cases h with
    | filled hvalue h => exact List.forall_mem_cons.mpr ⟨⟨_, hvalue⟩, ih h⟩

theorem takesEach_of_made {tight : Prop} {fills : Ty → Bool} (hgrants : Grants tight fills)
    {expected : List Ty} {rest : Option Ty} {members results fillers values : List Ty}
    (ih : ∀ ty ∈ expected, FitsBack site ty) (ihrest : ∀ ty ∈ rest, FitsBack site ty)
    (h : List.Forall₂ (Completes tight) results members) (hfillers : tight → fillers = [])
    (hmade : MembersMade (Made site) (fun value ty => ty.default = .ok value) rest expected
      (results ++ fillers) values) :
    takesEach expected false fills (takesOption rest false fills) members = true := by
  induction expected generalizing members results values with
  | nil =>
    cases hmade with
    | further hfurther =>
      refine List.all_eq_true.mpr fun member hmember => takesOption_iff.mpr ?_
      obtain ⟨result, hresult, hcompletes⟩ := exists_of_mem_right h hmember
      obtain ⟨value, -, ty, hty, hvalue⟩ := exists_of_mem_right hfurther.flip
        (List.mem_append_left fillers hresult)
      exact ⟨ty, hty, ihrest ty hty hgrants hcompletes hvalue⟩
  | cons ty expected ihexpected =>
    obtain ⟨ihty, ih⟩ := List.forall_mem_cons.mp ih
    cases h with
    | nil =>
      have hall : ∀ other ∈ ty :: expected, fills other = true := by
        by_cases htight : tight
        · -- nothing was filled in, so the places are open in the result too
          rw [hfillers htight] at hmade
          intro other hother
          obtain ⟨value, hvalue⟩ := exists_default_of_made hmade other hother
          exact hgrants.of_default hvalue
        · exact fun other _ => hgrants.all htight other
      obtain ⟨hfirst, hrest⟩ := List.forall_mem_cons.mp hall
      rw [takesEach, Bool.and_eq_true, List.all_eq_true]
      exact ⟨hfirst, hrest⟩
    | cons hfirst h =>
      cases hmade with
      | matched hvalue hmade =>
        rw [takesEach, Bool.and_eq_true]
        exact ⟨ihty hgrants hfirst hvalue, ihexpected ih h hmade⟩

/-- A type that takes no structures has only values to look at. -/
theorem fitsBack_of_values {expected : Ty} (hexpected : expected.everywhere isWellFormed = true)
    (h : (∃ p, expected = .primitive p) ∨ (∃ values, expected = .finite values) ∨ expected = .table) :
    FitsBack site expected :=
  fitsBack_of_structures hexpected
    (fun _ _ _ hmade => absurd hmade (not_made_of_isStructure rfl h))
    fun _ _ _ hmade => absurd hmade (not_made_of_isStructure rfl h)

theorem fitsBack_array {elem : Ty} {size : ArraySize}
    (hexpected : (Ty.array elem size).everywhere isWellFormed = true) (ih : FitsBack site elem) :
    FitsBack site (.array elem size) := by
  refine fitsBack_of_structures hexpected
    (fun {tight fills results _ members _} hgrants h hfillers hmade => ?_)
    fun _ _ _ hmade => absurd hmade not_gives_throw
  obtain ⟨hroom, values, defaults, hvalues, hlength, hdefaults, -⟩ := gives_array.mp hmade
  refine takes_array_iff.mpr ⟨hasRoom_of_le ?_ hroom, fun member hmember => ?_, ?_⟩
  · rw [List.length_append, h.length_eq]
    exact Nat.le_add_right _ _
  · obtain ⟨result, hresult, hcompletes⟩ := exists_of_mem_right h hmember
    obtain ⟨value, -, hvalue⟩ := exists_of_mem_right hvalues.flip (List.mem_append_left _ hresult)
    exact ih hgrants hcompletes hvalue
  · by_cases htight : tight
    · -- nothing was filled in, so the places are open in the result too
      rw [hfillers htight, List.append_nil, h.length_eq] at hlength
      rcases Nat.eq_zero_or_pos (missing size members.length) with hnone | hopen
      · exact Or.inl hnone
      · obtain ⟨value, hvalue⟩ := List.exists_mem_of_length_pos (hlength ▸ hopen)
        exact Or.inr (hgrants.of_default (hdefaults value hvalue))
    · exact Or.inr (hgrants.all htight elem)

theorem fitsBack_map {constraint : Ty} (hexpected : (Ty.map constraint).everywhere isWellFormed = true)
    (ih : FitsBack site constraint) : FitsBack site (.map constraint) := by
  refine fitsBack_of_structures hexpected (fun _ _ _ hmade => absurd hmade not_gives_throw)
    fun hgrants hfields _ hmade => ?_
  obtain ⟨entries, hentries, -⟩ := gives_map.mp hmade
  refine List.all_eq_true.mpr fun field hfield => ?_
  obtain ⟨own, hown, hcompletes⟩ := hfields field hfield
  obtain ⟨entry, -, -, hentry⟩ := exists_of_mem_right hentries.flip (Fields.mem_toList_of_get? _ hown)
  exact ih hgrants hcompletes hentry

/-- The fields have the same names before and after. -/
theorem fitsBack_record {expected : Fields none} {rest : Option Ty} {isSealed : Bool}
    (hexpected : (Ty.record expected rest isSealed).everywhere isWellFormed = true)
    (ih : ∀ field ∈ expected.toList, FitsBack site field.2.ty) (ihrest : ∀ ty ∈ rest, FitsBack site ty) :
    FitsBack site (.record expected rest isSealed) := by
  refine fitsBack_of_structures hexpected (fun _ _ _ hmade => absurd hmade not_gives_throw)
    fun {tight fills results fields _} hgrants hfields hresults hmade => ?_
  have hlooked : ∀ own ∈ results.toList, Looked own.2.ty := by
    intro own hown
    obtain ⟨field, -, hcompletes⟩ := hresults own hown
    exact hcompletes.looked
  obtain ⟨declared, further, hdeclared, hfurther, -⟩ := (gives_record hlooked).mp hmade
  refine takes_record_iff.mpr ⟨fun field hfield => ?_, fun field hfield hnot => ?_⟩
  -- a field that is declared was there before, since completion keeps the names
  · obtain ⟨entry, -, -, own, hown, hentry⟩ := exists_of_mem_right hdeclared.flip hfield
    obtain ⟨inferred, hinferred, hcompletes⟩ := hresults _ (Fields.mem_toList_of_get? results hown)
    exact ⟨inferred, hinferred, ih field hfield hgrants hcompletes hentry⟩
  -- any other went to the rest type, or to a record that takes all further fields
  · obtain ⟨own, hown, hcompletes⟩ := hfields field hfield
    have hmem : (field.1, own) ∈ results.toList.filter fun field => !expected.contains field.1 :=
      List.mem_filter.mpr ⟨Fields.mem_toList_of_get? results hown, by simp [hnot]⟩
    obtain ⟨entry, -, -, ty, hty, hentry⟩ := exists_of_mem_right hfurther.flip hmem
    refine ⟨ty, hty, ?_⟩
    rcases mem_furtherTy hty with hrest | rfl
    · exact ihrest ty hrest hgrants hcompletes hentry
    · rfl

/-- **If a result fits, then what it was made from fits too**, apart from open places. -/
theorem fitsBack {expected : Ty} (hexpected : expected.everywhere isWellFormed = true) :
    FitsBack site expected := by
  induction expected using induction_parts with
  | anydata | json | error => exact fun _ _ _ _ _ _ _ _ => rfl
  | reference name referred ih => exact ih (everywhere_reference.mp hexpected).2
  | intersection inner ih => exact ih (everywhere_intersection.mp hexpected).2
  | primitive p => exact fitsBack_of_values hexpected (Or.inl ⟨p, rfl⟩)
  | finite values => exact fitsBack_of_values hexpected (Or.inr (Or.inl ⟨values, rfl⟩))
  | table => exact fitsBack_of_values hexpected (Or.inr (Or.inr rfl))
  | array elem size ih => exact fitsBack_array hexpected (ih (everywhere_array.mp hexpected).2)
  | map constraint ih => exact fitsBack_map hexpected (ih (everywhere_map.mp hexpected).2)
  | tuple expected rest ih ihrest =>
    refine fitsBack_of_structures hexpected (fun hgrants h hfillers hmade => ?_) fun _ _ _ hmade =>
      absurd hmade not_gives_throw
    obtain ⟨values, hvalues, -⟩ := gives_tuple.mp hmade
    exact takesEach_of_made hgrants
      (fun ty hty => ih ty hty ((everywhere_tuple.mp hexpected).2.1 ty hty))
      (fun ty hty => ihrest ty hty ((everywhere_tuple.mp hexpected).2.2 ty hty)) h hfillers hvalues
  | record expected rest isSealed ih ihrest =>
    exact fitsBack_record hexpected
      (fun field hfield => ih field hfield ((everywhere_record.mp hexpected).2.1 field hfield))
      fun ty hty => ihrest ty hty ((everywhere_record.mp hexpected).2.2 ty hty)
  | union members ih =>
    intro tight fills result inferred value hgrants h hmade
    obtain ⟨member, hmember, hmade⟩ := exists_of_gives_union h.looked hmade
    exact takesUnion_iff.mpr ⟨member, hmember,
      ih member hmember ((everywhere_union.mp hexpected).2 member hmember) hgrants h hmade⟩

/-- What a type takes fits it, with defaults for the open places. -/
theorem takes_of_made {expected inferred value : Ty}
    (hexpected : expected.everywhere isWellFormed = true) (h : Draft inferred)
    (hmade : Made site value expected inferred) : expected.takes false hasDefault inferred = true :=
  fitsBack hexpected .ofDefaults h.completes_self hmade

end Fitting

/-! ## The result is taken again -/

section Again

variable {site : Site} {tight : Prop} {fills : Ty → Bool}

/-- A result that its type takes again as it is. -/
structure Stable (site : Site) (tight : Prop) (expected result inferred : Ty) : Prop where
  made : Made site result expected inferred
  again : Made site result expected result
  completes : Completes tight result inferred

/-- What is asked of the open places of a draft, so that its type takes again what it comes to: that
they are refilled, and that there are none if nothing is to be filled in. -/
structure Refillable (tight : Prop) (fills : Ty → Bool) : Prop where
  refills : ∀ ty : Ty, fills ty = true → ty.refills = true
  none : tight → ∀ ty : Ty, fills ty = false

variable (site) in
/-- A type takes drafts, if open places are refilled, and takes what they come to again. -/
def TakesAgain (expected : Ty) : Prop :=
  ∀ ⦃tight : Prop⦄ ⦃fills : Ty → Bool⦄ (inferred : Ty), Refillable tight fills → Draft inferred →
    expected.takes true fills inferred = true → ∃ result, Stable site tight expected result inferred

/-- A value that is picked is picked again, as it is the only reading then. -/
theorem stable_readings {expected : Ty} (hexpected : expected.everywhere isWellFormed = true)
    {inferred : Ty} {readings : List Singleton} (h : StandsFor inferred readings)
    (hproper : ∀ r ∈ readings, r.isProper = true) (hapart : readings.Pairwise Apart)
    (htakes : expected.takes true fills inferred = true) :
    ∃ result, Stable site tight expected result inferred := by
  obtain ⟨r, hr, hadmits⟩ := exists_of_takes_readings hexpected h htakes
  obtain ⟨w, hw⟩ := exists_pick (isNoError_of_alternative hexpected) hr hadmits
  obtain ⟨s, hs, hsame, -⟩ := exists_of_pick hw
  have hproper' := isProper_of_pick hexpected hproper hw
  refine ⟨singleton w, (made_readings_iff hexpected h hproper hapart).mpr ⟨w, hw, rfl⟩,
    made_singleton hexpected hproper' (pick_pick hexpected hproper hw), ?_⟩
  exact .readings (.value w) h (by simpa using hproper') (List.pairwise_singleton _ _) hproper
    fun v hv => ⟨s, hs, by rwa [List.mem_singleton.mp hv]⟩

/-- Values are taken again in any case, so it is enough to look at lists and records. -/
theorem takesAgain_of_structures {expected : Ty} (hexpected : expected.everywhere isWellFormed = true)
    (tuple : ∀ {tight : Prop} {fills : Ty → Bool} {members : List Ty}, Refillable tight fills →
      (∀ ty ∈ members, Draft ty) → expected.takes true fills (.tuple members none) = true →
      ∃ result, Stable site tight expected result (.tuple members none))
    (record : ∀ {tight : Prop} {fills : Ty → Bool} {fields : Fields none}, Refillable tight fills →
      (∀ field ∈ fields.toList, Draft field.2.ty) →
      expected.takes true fills (.record fields none true) = true →
      ∃ result, Stable site tight expected result (.record fields none true)) :
    TakesAgain site expected := by
  intro tight fills inferred hfills h htakes
  cases h with
  | readings h hproper hapart => exact stable_readings hexpected h hproper hapart htakes
  | tuple h => exact tuple hfills h htakes
  | record h => exact record hfills h htakes

theorem takesAgain_array {elem : Ty} {size : ArraySize}
    (hexpected : (Ty.array elem size).everywhere isWellFormed = true) (ih : TakesAgain site elem) :
    TakesAgain site (.array elem size) := by
  refine takesAgain_of_structures hexpected (fun {tight fills members} hfills hmembers htakes => ?_)
    fun _ _ htakes => by cases htakes
  obtain ⟨hroom, hall, hmissing⟩ := takes_array_iff.mp htakes
  obtain ⟨results, hresults⟩ := exists_forall₂ fun ty hty =>
    ih ty hfills (hmembers ty hty) (hall ty hty)
  -- what is missing is filled with one default as often as needed
  have hfillers : ∃ fillers : List Ty, fillers.length = missing size members.length
      ∧ (∀ ty ∈ fillers, Restores site ty elem) ∧ (tight → fillers = []) := by
    rcases hmissing with hnone | hopen
    · exact ⟨[], hnone.symm, by simp, fun _ => rfl⟩
    · obtain ⟨value, hvalue⟩ :=
        exists_restores (everywhere_array.mp hexpected).2 (hfills.refills elem hopen)
      refine ⟨List.replicate (missing size members.length) value, List.length_replicate,
        fun ty hty => List.eq_of_mem_replicate hty ▸ hvalue, fun htight => ?_⟩
      cases hopen.symm.trans (hfills.none htight elem)
  obtain ⟨fillers, hlength, hfillers, hnone⟩ := hfillers
  have hfull : (results ++ fillers).length = members.length + missing size members.length := by
    rw [List.length_append, hlength, hresults.length_eq]
  refine ⟨.tuple (results ++ fillers) none, gives_array.mpr ⟨hroom, results, fillers,
    hresults.imp fun _ _ h => h.made, hlength, fun ty hty => (hfillers ty hty).default, rfl⟩,
    gives_array.mpr ⟨?_, results ++ fillers, [], ?_, ?_, by simp, by rw [List.append_nil]⟩,
    .tuple (hresults.flip.imp fun _ _ h => h.completes) hnone⟩
  -- the second time every member is there: it has room, each is taken, and none is missing
  · rw [hfull]
    cases size with
    | closed n =>
      have hle : members.length ≤ n := of_decide_eq_true hroom
      show decide (members.length + (n - members.length) ≤ n) = true
      exact decide_eq_true (by omega)
    | unbounded | inferred => rfl
  · refine List.forall₂_same.mpr fun ty hty => ?_
    rcases List.mem_append.mp hty with hty | hty
    · obtain ⟨member, -, hstable⟩ := exists_of_mem_right hresults hty
      exact hstable.again
    · exact (hfillers ty hty).made
  · rw [hfull, List.length_nil]
    cases size with
    | closed n =>
      show 0 = n - (members.length + (n - members.length))
      omega
    | unbounded | inferred => rfl

theorem exists_members (hfills : Refillable tight fills) {expected members : List Ty} {rest : Option Ty}
    (hexpected : ∀ ty ∈ expected, ty.everywhere isWellFormed = true)
    (ih : ∀ ty ∈ expected, TakesAgain site ty) (ihrest : ∀ ty ∈ rest, TakesAgain site ty)
    (hmembers : ∀ ty ∈ members, Draft ty)
    (h : takesEach expected true fills (takesOption rest true fills) members = true) :
    ∃ results fillers,
      MembersMade (Made site) (fun value ty => ty.default = .ok value) rest expected members
        (results ++ fillers)
      ∧ MembersMade (Made site) (fun value ty => ty.default = .ok value) rest expected
        (results ++ fillers) (results ++ fillers)
      ∧ List.Forall₂ (Completes tight) results members ∧ (tight → fillers = []) := by
  induction expected generalizing members with
  | nil =>
    -- whatever is inferred beyond the expected members goes to the rest type
    have hall := List.all_eq_true.mp h
    obtain ⟨results, hresults⟩ := exists_forall₂ (R := fun member result => ∃ ty ∈ rest,
        Stable site tight ty result member) fun member hmember => by
      obtain ⟨ty, hty, htakes⟩ := takesOption_iff.mp (hall member hmember)
      obtain ⟨result, hresult⟩ := ihrest ty hty member hfills (hmembers member hmember) htakes
      exact ⟨result, ty, hty, hresult⟩
    refine ⟨results, [], ?_, ?_, hresults.flip.imp fun _ _ ⟨_, _, h⟩ => h.completes, fun _ => rfl⟩
    · rw [List.append_nil]
      exact .further (hresults.imp fun _ _ ⟨ty, hty, h⟩ => ⟨ty, hty, h.made⟩)
    · rw [List.append_nil]
      refine .further (List.forall₂_same.mpr fun result hresult => ?_)
      obtain ⟨member, -, ty, hty, hstable⟩ := exists_of_mem_right hresults hresult
      exact ⟨ty, hty, hstable.again⟩
  | cons ty expected ihexpected =>
    obtain ⟨hty, hexpected⟩ := List.forall_mem_cons.mp hexpected
    obtain ⟨ihty, ih⟩ := List.forall_mem_cons.mp ih
    cases members with
    | nil =>
      -- the inferred members have run out, and all places from here on are filled
      rw [takesEach, Bool.and_eq_true, List.all_eq_true] at h
      obtain ⟨fillers, hfillers⟩ := exists_forall₂ (l := ty :: expected)
        (R := fun ty value => Restores site value ty) (List.forall_mem_cons.mpr
          ⟨exists_restores hty (hfills.refills ty h.1),
            fun ty hty => exists_restores (hexpected ty hty) (hfills.refills ty (h.2 ty hty))⟩)
      refine ⟨[], fillers, membersMade_filled (hfillers.imp fun _ _ h => h.default),
        membersMade_self (hfillers.imp fun _ _ h => h.made), .nil, fun htight => ?_⟩
      cases h.1.symm.trans (hfills.none htight ty)
    | cons member members =>
      obtain ⟨hmember, hmembers⟩ := List.forall_mem_cons.mp hmembers
      rw [takesEach, Bool.and_eq_true] at h
      obtain ⟨result, hresult⟩ := ihty member hfills hmember h.1
      obtain ⟨results, fillers, hmade, hagain, hcompletes, hnone⟩ := ihexpected hexpected ih hmembers h.2
      exact ⟨result :: results, fillers, .matched hresult.made hmade, .matched hresult.again hagain,
        .cons hresult.completes hcompletes, hnone⟩

theorem takesAgain_tuple {expected : List Ty} {rest : Option Ty}
    (hexpected : (Ty.tuple expected rest).everywhere isWellFormed = true)
    (ih : ∀ ty ∈ expected, TakesAgain site ty) (ihrest : ∀ ty ∈ rest, TakesAgain site ty) :
    TakesAgain site (.tuple expected rest) := by
  refine takesAgain_of_structures hexpected (fun hfills hmembers htakes => ?_) fun _ _ htakes => by
    cases htakes
  obtain ⟨results, fillers, hmade, hagain, hcompletes, hnone⟩ :=
    exists_members hfills (everywhere_tuple.mp hexpected).2.1 ih ihrest hmembers htakes
  exact ⟨_, gives_tuple.mpr ⟨_, hmade, rfl⟩, gives_tuple.mpr ⟨_, hagain, rfl⟩,
    .tuple hcompletes hnone⟩

/-- Fields that are taken again, each from what its place expects. -/
theorem exists_fields (place : String → Option Ty) (source : Fields none)
    (h : ∀ field ∈ source.toList, ∃ ty, place field.1 = some ty
      ∧ ∃ result, Stable site tight ty result field.2.ty) :
    ∃ fields, FieldsMade site place source fields ∧ FieldsMade site place fields fields
      ∧ Completes tight (.record fields none true) (.record source none true)
      ∧ ∀ field ∈ fields.toList, Looked field.2.ty := by
  obtain ⟨entries, hentries⟩ := exists_forall₂ (l := source.toList)
    (R := fun field (entry : String × Ty) => entry.1 = field.1 ∧ ∃ ty, place field.1 = some ty
      ∧ Stable site tight ty entry.2 field.2.ty)
    fun field hfield => by
      obtain ⟨ty, hty, result, hresult⟩ := h field hfield
      exact ⟨(field.1, result), rfl, ty, hty, hresult⟩
  have hnames := map_fst_of_forall₂ hentries
  have hnodup : (entries.map Prod.fst).Nodup := hnames ▸ source.nodup_names
  -- each field is an entry that was made from the field of its name
  have hstable : ∀ name field,
      (Fields.ofList (entries.map fun entry => (entry.1, ⟨entry.2, true⟩))).get? name = some field →
      ∃ own ty, source.get? name = some own ∧ place name = some ty ∧ field.required = true
        ∧ Stable site tight ty field.ty own.ty := by
    intro name field hfield
    obtain ⟨entry, hentry, heq⟩ :=
      List.mem_map.mp (Fields.mem_of_mem_toList_ofList (Fields.mem_toList_of_get? _ hfield))
    cases heq
    obtain ⟨own, hown, hname, ty, hty, hresult⟩ := exists_of_mem_right hentries hentry
    exact ⟨own.2, ty, hname ▸ Fields.get?_of_mem_toList source hown, hname ▸ hty, rfl, hresult⟩
  have hmade : FieldsMade site place source
      (Fields.ofList (entries.map fun entry => (entry.1, ⟨entry.2, true⟩))) := by
    refine fieldsMade_of_entries hnodup (fun entry hentry => ?_)
      (fun field hfield => hnames ▸ List.mem_map_of_mem hfield)
    obtain ⟨own, hown, hname, ty, hty, hresult⟩ := exists_of_mem_right hentries hentry
    exact ⟨own.2, ty, hname ▸ Fields.get?_of_mem_toList source hown, hname ▸ hty, hresult.made⟩
  refine ⟨_, hmade, ⟨fun _ => rfl, fun name field other hfield hother => ?_⟩,
    .record hmade.names fun name result field hresult hfield => ?_, fun field hfield => ?_⟩
  · cases hfield.symm.trans hother
    obtain ⟨own, ty, -, hty, hrequired, hresult⟩ := hstable name field hfield
    exact ⟨hrequired, ty, hty, hresult.again⟩
  · obtain ⟨own, ty, hown, -, -, hstable⟩ := hstable name result hresult
    cases hown.symm.trans hfield
    exact hstable.completes
  · obtain ⟨own, ty, -, -, -, hresult⟩ := hstable _ _ (Fields.get?_of_mem_toList _ hfield)
    exact hresult.completes.looked

theorem takesAgain_map {constraint : Ty}
    (hexpected : (Ty.map constraint).everywhere isWellFormed = true)
    (ih : TakesAgain site constraint) : TakesAgain site (.map constraint) := by
  refine takesAgain_of_structures hexpected (fun _ _ htakes => by cases htakes)
    fun {tight fills fields} hfills hfields htakes => ?_
  obtain ⟨results, hmade, hagain, hcompletes, -⟩ :=
    exists_fields (fun _ => some constraint) fields fun field hfield =>
      ⟨constraint, rfl, ih _ hfills (hfields field hfield) (List.all_eq_true.mp htakes field hfield)⟩
  exact ⟨_, made_map_iff.mpr ⟨results, hmade, rfl⟩, made_map_iff.mpr ⟨results, hagain, rfl⟩, hcompletes⟩

theorem takesAgain_anydata : TakesAgain site .anydata := by
  intro tight fills inferred _ h _
  have hcompletes : Completes tight inferred.narrowed inferred := h.completes_narrowed
  refine ⟨inferred.narrowed, (gives_anydata h.looked).mpr rfl, ?_, hcompletes⟩
  exact (gives_anydata hcompletes.looked).mpr (narrowed_narrowed inferred).symm

theorem Draft.isJson {ty : Ty} (h : Draft ty) : ty.isJson = true := by
  induction h with
  | readings h =>
    cases h with
    | value s => rfl
    | union _ =>
      refine isJsonList_iff.mpr fun ty hty => ?_
      obtain ⟨s, -, rfl⟩ := List.mem_map.mp hty
      rfl
  | tuple _ ih => exact Bool.and_eq_true_iff.mpr ⟨isJsonList_iff.mpr ih, rfl⟩
  | record _ ih => exact Bool.and_eq_true_iff.mpr ⟨(isJsonFields_iff _).mpr ih, rfl⟩

theorem takesAgain_json : TakesAgain site .json := by
  intro tight fills inferred _ h _
  have hcompletes : Completes tight inferred.narrowed inferred := h.completes_narrowed
  refine ⟨inferred.narrowed, (gives_json h.looked).mpr ⟨json_accepts h.isJson, rfl⟩, ?_, hcompletes⟩
  exact (gives_json hcompletes.looked).mpr
    ⟨json_accepts (isJson_narrowed inferred), (narrowed_narrowed inferred).symm⟩

/-- A union goes by the same member before and after: one before it that does not take a draft does
not take what it comes to either. -/
theorem exists_stable_member {before : List Ty} {member : Ty}
    (hbefore : ∀ ty ∈ before, ty.everywhere isWellFormed = true) (ih : TakesAgain site member)
    {inferred : Ty} (hfills : Refillable tight fills) (h : Draft inferred)
    (hdefaults : ∀ other ∈ before, other.takes false hasDefault inferred = false)
    (htakes : (∀ other ∈ before, other.takes false (fun _ => true) inferred = false)
        ∧ member.takes true fills inferred = true
      ∨ member.takes true (fun _ => false) inferred = true) :
    ∃ result, Stable site tight member result inferred
      ∧ ∀ other ∈ before, ¬ ∃ ty, Made site ty other result := by
  rcases htakes with ⟨hnone, htakes⟩ | htakes
  · obtain ⟨result, hstable⟩ := ih inferred hfills h htakes
    refine ⟨result, hstable, ?_⟩
    rintro other hother ⟨ty, hmade⟩
    have hfits : other.takes false (fun _ => true) inferred = true :=
      fitsBack (hbefore other hother) ⟨fun _ _ => rfl, fun _ _ => rfl⟩ hstable.completes hmade
    cases hfits.symm.trans (hnone other hother)
  · -- nothing is filled in, so the members before it lack the same defaults as they did
    have hnone : ∀ closed : Prop, Refillable closed fun _ => false := fun _ => ⟨by simp, fun _ _ => rfl⟩
    obtain ⟨result, hstable⟩ := ih inferred (hnone tight) h htakes
    obtain ⟨result', hstable'⟩ := ih inferred (hnone True) h htakes
    cases hstable.made.unique hstable'.made
    refine ⟨result, hstable, ?_⟩
    rintro other hother ⟨ty, hmade⟩
    have hfits := fitsBack (hbefore other hother) .ofDefaults hstable'.completes hmade
    cases hfits.symm.trans (hdefaults other hother)

/-- A union goes by the first member that fits, before and after. -/
theorem stable_union {members : List Ty}
    (hexpected : (Ty.union members).everywhere isWellFormed = true)
    (ih : ∀ ty ∈ members, TakesAgain site ty) {inferred : Ty} (hstructure : inferred.isStructure = true)
    (hfills : Refillable tight fills) (h : Draft inferred)
    (htakes : (Ty.union members).takes true fills inferred = true) :
    ∃ result, Stable site tight (.union members) result inferred := by
  obtain ⟨before, member, after, rfl, hdefaults, htakes⟩ := exists_of_takesUnion htakes
  have hmembers := (everywhere_union.mp hexpected).2
  have hmember : member ∈ before ++ member :: after := by simp
  have hbefore : ∀ ty ∈ before, ty.everywhere isWellFormed = true := fun ty hty =>
    hmembers ty (List.mem_append_left _ hty)
  obtain ⟨result, hstable, hnot⟩ :=
    exists_stable_member hbefore (ih member hmember) hfills h hdefaults htakes
  -- the same members come before the chosen one and take nothing, the first time and again
  have hself : ∀ other ∈ before, ¬ ∃ ty, Made site ty other inferred := by
    rintro other hother ⟨ty, hmade⟩
    cases (takes_of_made (hbefore other hother) h hmade).symm.trans (hdefaults other hother)
  -- structures are no numbers, so the first result is chosen
  have hkind : ∀ {given : Ty}, given.isStructure = true → ∀ other ∈ before ++ member :: after, ∀ ty,
      Made site ty other given → kind? ty = none := fun hgiven other hother ty hmade =>
    kind?_of_isStructure
      (isStructure_of_made (everywhere_isNoError (hmembers other hother)) hgiven hmade)
  have hresult := isStructure_of_made (everywhere_isNoError (hmembers member hmember)) hstructure
    hstable.made
  exact ⟨result,
    (gives_union h.looked (hkind hstructure)).mpr ⟨before, member, after, rfl, hself, hstable.made⟩,
    (gives_union hstable.completes.looked (hkind hresult)).mpr
      ⟨before, member, after, rfl, hnot, hstable.again⟩,
    hstable.completes⟩

theorem takesAgain_record {expected : Fields none} {rest : Option Ty} {isSealed : Bool}
    (hexpected : (Ty.record expected rest isSealed).everywhere isWellFormed = true)
    (ih : ∀ field ∈ expected.toList, TakesAgain site field.2.ty)
    (ihrest : ∀ ty ∈ rest, TakesAgain site ty) :
    TakesAgain site (.record expected rest isSealed) := by
  refine takesAgain_of_structures hexpected (fun _ _ htakes => by cases htakes)
    fun {tight fills fields} hfills hfields htakes => ?_
  obtain ⟨hdeclared, hfurther⟩ := takes_record_iff.mp htakes
  obtain ⟨results, hmade, hagain, hcompletes, hlooked⟩ :=
    exists_fields (Ty.record expected rest isSealed).field? fields fun field hfield => by
      cases hcontains : expected.contains field.1 with
      | true =>
        obtain ⟨own, hown⟩ := Option.isSome_iff_exists.mp hcontains
        have hmem := Fields.mem_toList_of_get? expected hown
        obtain ⟨other, hother, htakes⟩ := hdeclared _ hmem
        cases (Fields.get?_of_mem_toList fields hfield).symm.trans hother
        exact ⟨own.ty, field?_of_mem hmem, ih _ hmem _ hfills (hfields field hfield) htakes⟩
      | false =>
        obtain ⟨ty, hty, htakes⟩ := hfurther field hfield hcontains
        refine ⟨ty, (field?_of_not_contains hcontains).trans hty, ?_⟩
        rcases mem_furtherTy hty with hrest | rfl
        · exact ihrest ty hrest _ hfills (hfields field hfield) htakes
        · exact takesAgain_anydata _ hfills (hfields field hfield) htakes
  have hall : ∀ field ∈ expected.toList, fields.contains field.1 = true := by
    intro field hfield
    obtain ⟨own, hown, -⟩ := hdeclared field hfield
    rw [Fields.contains, hown]
    rfl
  refine ⟨_, (made_record_iff fun field hfield => (hfields field hfield).looked).mpr
    ⟨hall, results, hmade, rfl⟩, (made_record_iff hlooked).mpr ⟨fun field hfield => ?_, results, hagain,
      rfl⟩, hcompletes⟩
  rw [hmade.names]
  exact hall field hfield

/-- **A type takes what it has made again**, if open places are refilled. -/
theorem takesAgain (site : Site) {expected : Ty} (hexpected : expected.everywhere isWellFormed = true) :
    TakesAgain site expected := by
  induction expected using induction_parts with
  | error => cases everywhere_isNoError hexpected
  | anydata => exact takesAgain_anydata
  | json => exact takesAgain_json
  | reference name referred ih =>
    intro tight fills inferred hfills h htakes
    obtain ⟨result, hmade, hagain, hcompletes⟩ :=
      ih (everywhere_reference.mp hexpected).2 inferred hfills h htakes
    exact ⟨result, hmade, hagain, hcompletes⟩
  | intersection inner ih =>
    intro tight fills inferred hfills h htakes
    obtain ⟨result, hmade, hagain, hcompletes⟩ :=
      ih (everywhere_intersection.mp hexpected).2 inferred hfills h htakes
    exact ⟨result, hmade, hagain, hcompletes⟩
  | primitive | finite | table =>
    exact takesAgain_of_structures hexpected (fun _ _ htakes => by cases htakes)
      fun _ _ htakes => by cases htakes
  | array elem size ih => exact takesAgain_array hexpected (ih (everywhere_array.mp hexpected).2)
  | tuple expected rest ih ihrest =>
    exact takesAgain_tuple hexpected (fun ty hty => ih ty hty ((everywhere_tuple.mp hexpected).2.1 ty hty))
      fun ty hty => ihrest ty hty ((everywhere_tuple.mp hexpected).2.2 ty hty)
  | map constraint ih => exact takesAgain_map hexpected (ih (everywhere_map.mp hexpected).2)
  | record expected rest isSealed ih ihrest =>
    exact takesAgain_record hexpected
      (fun field hfield => ih field hfield ((everywhere_record.mp hexpected).2.1 field hfield))
      fun ty hty => ihrest ty hty ((everywhere_record.mp hexpected).2.2 ty hty)
  | union members ih =>
    have ih : ∀ ty ∈ members, TakesAgain site ty := fun ty hty =>
      ih ty hty ((everywhere_union.mp hexpected).2 ty hty)
    refine takesAgain_of_structures hexpected (fun hfills h htakes => ?_) fun hfills h htakes => ?_
    · exact stable_union hexpected ih rfl hfills (.tuple h) htakes
    · exact stable_union hexpected ih rfl hfills (.record h) htakes

end Again

end Ty

/-- **A validated type is validated again, as it is.** The expected type holds no error and only proper
values. Whatever it takes fits, with defaults for the places that lists leave open. Conversely let these
be filled from types that take their defaults back, where a union goes by the first member that has
defaults, and let nothing be filled in if a member before it fits but for the defaults. Then there is a
result, and validation against the same type takes it unchanged. -/
theorem validated_again (p : Program) (s : Checker) (expected inferred : Ty)
    (hexpected : expected.everywhere isWellFormed = true) (hinferred : inferred.Draft) :
    (∀ result t, (Checker.validType p expected inferred).run s = some (.ok result, t) →
      expected.takes false hasDefault inferred = true)
    ∧ (expected.takes true refills inferred = true → ∃ result journal,
      (Checker.validType p expected inferred).run s = some (.ok result, { s with journal })
      ∧ ∀ s' : Checker, s'.anchor = s.anchor → ∃ journal',
        (Checker.validType p expected result).run s'
          = some (.ok result, { s' with journal := journal' })) := by
  refine ⟨fun result t hrun => ?_, fun htakes => ?_⟩
  · obtain ⟨r, ds, htells⟩ := told_validate ⟨s.anchor, p.settings.ambiguity⟩ expected inferred
    obtain ⟨journal, hrun', -⟩ := htells.run_validType
    cases hrun.symm.trans hrun'
    exact takes_of_made hexpected hinferred ⟨ds, htells⟩
  · have hfills : Refillable False refills := ⟨fun _ => id, False.elim⟩
    obtain ⟨result, ⟨ds, hmade⟩, ⟨es, hagain⟩, -⟩ :=
      takesAgain ⟨s.anchor, p.settings.ambiguity⟩ hexpected inferred hfills hinferred htakes
    obtain ⟨journal, hrun, -⟩ := hmade.run_validType
    refine ⟨result, journal, hrun, fun s' hanchor => ?_⟩
    rw [← hanchor] at hagain
    obtain ⟨journal', hrun', -⟩ := hagain.run_validType
    exact ⟨journal', hrun'⟩

section Examples

/-- A list of one record, with an optional note. -/
def noted : Ty :=
  .array (.record (.ofList [("note", ⟨.primitive .string, false⟩)]) none true) (.closed 1)

/-- A list of one table. -/
def tabled : Ty := .tuple [.table] none

/-- An integer with a byte or a text, or two integers. -/
def paired : Ty :=
  .union [.tuple [.primitive .int, .union [.primitive .byte, .primitive .string]] none,
    .array (.primitive .int) (.closed 2)]

/-- **Results that are not taken again.** A record is filled without its optional fields, and then
lacks them. A table that is filled in is not taken. And a place for which the first member of a union
has no default is filled from the second; then the first takes it, in its own way. -/
theorem fillings_not_taken_again :
    ([noted, tabled, paired].all (·.everywhere isWellFormed) = true ∧ Draft emptyTuple
      ∧ Draft (.tuple [.singleton (.ofScalar (.int 1))] none))
    ∧ (∃ t t', (Checker.validType ⟨.empty, [], .default⟩ noted emptyTuple).run .start
        = some (.ok (.tuple [sealedOf []] none), t)
      ∧ (Checker.validType ⟨.empty, [], .default⟩ noted (.tuple [sealedOf []] none)).run .start
        = some (.error .mismatch, t'))
    ∧ (∃ t t', (Checker.validType ⟨.empty, [], .default⟩ tabled emptyTuple).run .start
        = some (.ok (.tuple [.table] none), t)
      ∧ (Checker.validType ⟨.empty, [], .default⟩ tabled (.tuple [.table] none)).run .start
        = some (.error .mismatch, t'))
    ∧ ∃ t t', (Checker.validType ⟨.empty, [], .default⟩ paired
          (.tuple [.singleton (.ofScalar (.int 1))] none)).run .start
        = some (.ok (.tuple [.singleton (.ofScalar (.int 1)), .singleton (.ofScalar (.int 0))] none), t)
      ∧ (Checker.validType ⟨.empty, [], .default⟩ paired
          (.tuple [.singleton (.ofScalar (.int 1)), .singleton (.ofScalar (.int 0))] none)).run .start
        = some (.ok (.tuple [.singleton (.ofScalar (.int 1)), .singleton ⟨.int 0, .byte⟩] none), t') := by
  have hone : Draft (.singleton (.ofScalar (.int 1))) :=
    .readings (.value _) (by decide) (List.pairwise_singleton _ _)
  refine ⟨⟨rfl, .tuple (by simp), .tuple fun ty hty => List.mem_singleton.mp hty ▸ hone⟩,
    ⟨_, _, rfl, rfl⟩, ⟨_, _, rfl, rfl⟩, _, _, rfl, rfl⟩

/-- Three bytes, or a number with a remark. -/
def bytesOrRemark : Ty :=
  .union [.array (.primitive .byte) (.closed 3),
    .reference "Remark" (.tuple [.primitive .float, .union [.primitive .string, .primitive .nil]] none)]

/-- What the number seven may be read as where it is no integer. -/
def sevens : List Singleton :=
  [.ofScalar (.decimal ⟨7, 0⟩), .ofScalar (.float 7.0)]

/-- A number with two readings is taken as one without a remark. -/
theorem remark_taken_again :
    ∃ journal journal', (Checker.validType ⟨.empty, [], .default⟩ bytesOrRemark
        (.tuple [.union (sevens.map .singleton)] none)).run .start
        = some (.ok (.tuple [.singleton (.ofScalar (.float 7.0)), .singleton .nil] none),
          { Checker.start with journal })
      ∧ (Checker.validType ⟨.empty, [], .default⟩ bytesOrRemark
        (.tuple [.singleton (.ofScalar (.float 7.0)), .singleton .nil] none)).run .start
        = some (.ok (.tuple [.singleton (.ofScalar (.float 7.0)), .singleton .nil] none),
          { Checker.start with journal := journal' }) := by
  have hsevens : Draft (.union (sevens.map .singleton)) := by
    refine .readings (.union (List.cons_ne_nil _ _)) (by decide) ?_
    simp [sevens, Apart, Singleton.kind?, ofScalar, Scalar.naturalBase, Primitive.numericKind?]
  have hinferred : Draft (.tuple [.union (sevens.map .singleton)] none) :=
    .tuple fun ty hty => List.mem_singleton.mp hty ▸ hsevens
  obtain ⟨result, journal, hrun, hagain⟩ := (validated_again ⟨.empty, [], .default⟩ .start bytesOrRemark
    (.tuple [.union (sevens.map .singleton)] none) rfl hinferred).2 rfl
  cases hrun
  obtain ⟨journal', hrun'⟩ := hagain .start rfl
  exact ⟨_, journal', rfl, hrun'⟩

-- a member that lacks a default for its open place may stand before one that leaves nothing open
example : (Ty.union [.tuple [.primitive .int, .union [.primitive .byte, .primitive .string]] none,
    .array (.primitive .int) .unbounded]).takes true refills
      (.tuple [.singleton (.ofScalar (.int 1))] none) = true := rfl

end Examples

end ConstNarrow
