/-
**Types that are the same are assignable to the same targets.**

Sameness is weaker than equality, since numbers may be written differently. A type is assignable to
whatever is the same, by a shortcut. That it can also stand in for the other as a source does not follow
from this, because assignability is not transitive. It is an induction on the target, and for each target
the parts of one source are replaced by those of the other.
-/
import ConstNarrow.Proofs.Aliases

set_option autoImplicit false

namespace ConstNarrow

/-! ## Values that are the same -/

namespace Singleton

variable {s t : Singleton}

theorem fits_of_same (h : s.same t = true) {p : Primitive} (hfits : s.fits p = true) :
    t.fits p = true := by
  obtain ⟨hvalue, hbase⟩ := Bool.and_eq_true_iff.mp h
  rcases s with ⟨value, base⟩
  rcases t with ⟨other, base'⟩
  cases beq_iff_eq.mp hbase
  have hint : value.int? = other.int? := by
    have hsame : value.same other = true := hvalue
    cases value <;> cases other <;> simp_all [Scalar.same, Scalar.int?]
  unfold fits at hfits ⊢
  rwa [← hint]

end Singleton

namespace Ty

theorem admits_of_same {s t : Singleton} (h : s.same t = true) {ty : Ty} (hadmits : ty.admits s = true) :
    ty.admits t = true := by
  induction ty using induction_parts with
  | primitive p => exact Singleton.fits_of_same h hadmits
  | finite values =>
    obtain ⟨v, hv, hfound⟩ := List.any_eq_true.mp hadmits
    have hback : s.sameValue t = true :=
      Singleton.sameValue_of_same (Singleton.same_of_same h (Singleton.same_refl s))
    exact List.any_eq_true.mpr ⟨v, hv, Singleton.sameValue_trans hfound hback⟩
  | union members ih =>
    obtain ⟨ty, hty, hadmits⟩ := admitsAny_iff.mp hadmits
    exact admitsAny_iff.mpr ⟨ty, hty, ih ty hty hadmits⟩
  | reference name referred ih => exact ih hadmits
  | intersection inner ih => exact ih hadmits
  | anydata | json | error => rfl
  | array | tuple | record | map | table => cases hadmits

/-! ## Data of the wire format -/

/-- What is the same as data of the wire format is such data. -/
theorem isJson_of_same {ty : Ty} (other : Ty) (h : ty.same other = true) (hjson : ty.isJson = true) :
    other.isJson = true := by
  induction ty using induction_parts generalizing other with
  | array elem size ih =>
    cases same_iff.mp h with
    | @array _ elem' _ helem => exact ih elem' helem hjson
  | tuple members rest ih ihrest =>
    cases same_iff.mp h with
    | tuple hmembers hrest =>
      rw [isJson, Bool.and_eq_true, isJsonList_iff, isJsonOption_iff] at hjson ⊢
      exact ⟨forall_of_forall₂ hmembers fun ty hty ty' hsame => ih ty hty ty' hsame (hjson.1 ty hty),
        forall_of_rel hrest fun ty hty ty' hsame => ihrest ty hty ty' hsame (hjson.2 ty hty)⟩
  | record fields rest isSealed ih ihrest =>
    cases same_iff.mp h with
    | record _ hfields hrest =>
      rw [isJson, Bool.and_eq_true, isJsonFields_iff, isJsonOption_iff] at hjson ⊢
      exact ⟨forall_of_forall₂ hfields fun field hfield field' hsame =>
          ih field hfield field'.2.ty hsame.2.2 (hjson.1 field hfield),
        forall_of_rel hrest fun ty hty ty' hsame => ihrest ty hty ty' hsame (hjson.2 ty hty)⟩
  | map constraint ih =>
    cases same_iff.mp h with
    | @map _ constraint' hconstraint => exact ih constraint' hconstraint hjson
  | union members ih =>
    cases same_iff.mp h with
    | union hmembers =>
      rw [isJson, isJsonList_iff] at hjson ⊢
      exact forall_of_forall₂ hmembers fun ty hty ty' hsame => ih ty hty ty' hsame (hjson ty hty)
  | reference name referred ih =>
    cases same_iff.mp h with
    | @reference _ _ referred' hreferred => exact ih referred' hreferred hjson
  | intersection inner ih =>
    cases same_iff.mp h with
    | @intersection _ inner' hinner => exact ih inner' hinner hjson
  | primitive | json | finite | error =>
    cases same_iff.mp h
    rfl
  | table | anydata => cases hjson

/-! ## Sources that are the same -/

/-- That a target takes whatever is the same as something that it takes. -/
def Respects (target : Ty) : Prop :=
  ∀ source other : Ty, source.same other = true → target.accepts source = true →
    target.accepts other = true

/-- It is enough to look at sources that are compared as a whole. All others are taken apart, and so is
what is the same. -/
theorem respects_of_shaped {target : Ty} (h : ∀ source other : Ty, source.isShaped = true →
    source.same other = true → target.accepts source = true → target.accepts other = true) :
    target.Respects := by
  intro source
  induction source using induction_parts with
  | error =>
    intro other hsame _
    cases same_iff.mp hsame
    exact accepts_error target
  | reference name referred ih =>
    intro other hsame haccepts
    cases same_iff.mp hsame with
    | reference _ hreferred =>
      rw [accepts_reference] at haccepts ⊢
      exact ih _ hreferred haccepts
  | intersection inner ih =>
    intro other hsame haccepts
    cases same_iff.mp hsame with
    | intersection hinner =>
      rw [accepts_intersection] at haccepts ⊢
      exact ih _ hinner haccepts
  | union sources ih =>
    intro other hsame haccepts
    cases same_iff.mp hsame with
    | union hsources =>
      rw [accepts_union_iff] at haccepts ⊢
      exact forall_of_forall₂ hsources fun ty hty ty' hty' => ih ty hty ty' hty' (haccepts ty hty)
  | finite values =>
    intro other hsame haccepts
    cases same_iff.mp hsame with
    | finite hvalues =>
      rw [accepts_finite_iff] at haccepts ⊢
      exact forall_of_forall₂ hvalues fun s hs t hst => admits_of_same hst (haccepts s hs)
  | primitive | array | tuple | record | map | table | anydata | json =>
    exact fun other hsame haccepts => h _ other rfl hsame haccepts

section Structures

variable {members : List Ty} {rest : Option Ty}

theorem acceptsOption_of_same (ih : ∀ ty ∈ rest, ty.Respects) {default : Bool} {source other : Ty}
    (hsame : source.same other = true) (h : acceptsOption default rest source = true) :
    acceptsOption default rest other = true := by
  cases rest with
  | none => exact h
  | some ty => exact ih ty rfl source other hsame h

/-- Rows that are the same are taken alike, place by place, by members and what follows them. -/
theorem acceptsEach_of_same_sources (ih : ∀ ty ∈ members, ty.Respects)
    (ihrest : ∀ ty ∈ rest, ty.Respects) {sources others : List Ty}
    (hsame : List.Forall₂ AreSame sources others)
    (h : acceptsEach members (acceptsOption false rest) sources = true) :
    acceptsEach members (acceptsOption false rest) others = true := by
  induction members generalizing sources others with
  | nil =>
    -- past the members every source goes to the rest type
    rw [acceptsEach, List.all_eq_true] at h ⊢
    exact forall_of_forall₂ hsame fun ty hty _ hty' => acceptsOption_of_same ihrest hty' (h ty hty)
  | cons member members ihmembers =>
    cases hsame with
    | nil => cases h
    | cons hfirst htail =>
      rw [List.forall_mem_cons] at ih
      rw [acceptsEach, Bool.and_eq_true] at h ⊢
      exact ⟨ih.1 _ _ hfirst h.1, ihmembers ih.2 htail h.2⟩

/-- An array counts and takes the members of a list, and both are the same for what is the same. -/
theorem respects_array {elem : Ty} (size : ArraySize) (ih : elem.Respects) :
    (Ty.array elem size).Respects := by
  refine respects_of_shaped fun source other hsource hsame h => ?_
  cases same_iff.mp hsame with
  | array _ helem =>
    rw [array_accepts_array_iff] at h ⊢
    exact ⟨h.1, ih _ _ helem h.2⟩
  | @tuple sources others sourceRest otherRest hmembers hrest =>
    rw [array_accepts_tuple_iff] at h ⊢
    obtain ⟨hsize, hsources, hfurther⟩ := h
    have hsizes : sizeAcceptsTuple size others otherRest = sizeAcceptsTuple size sources sourceRest := by
      have hnone : otherRest.isNone = sourceRest.isNone := by cases hrest <;> rfl
      cases size <;> simp [sizeAcceptsTuple, hnone, hmembers.length_eq]
    exact ⟨hsizes.trans hsize,
      forall_of_forall₂ hmembers fun ty hty ty' hty' => ih ty ty' hty' (hsources ty hty),
      forall_of_rel hrest fun ty hty ty' hty' => ih ty ty' hty' (hfurther ty hty)⟩
  | primitive | record | map | table | anydata | json => cases h
  | _ => cases hsource

theorem respects_tuple (ih : ∀ ty ∈ members, ty.Respects) (ihrest : ∀ ty ∈ rest, ty.Respects) :
    (Ty.tuple members rest).Respects := by
  refine respects_of_shaped fun source other hsource hsame h => ?_
  cases same_iff.mp hsame with
  | tuple hmembers hrest =>
    rw [tuple_accepts_iff] at h ⊢
    refine ⟨acceptsEach_of_same_sources ih ihrest hmembers h.1,
      forall_of_rel hrest fun ty hty ty' hty' => ?_⟩
    obtain ⟨target, htarget, haccepts⟩ := h.2 ty hty
    exact ⟨target, htarget, ihrest target htarget ty ty' hty' haccepts⟩
  | array _ helem =>
    rw [tuple_accepts_array_iff] at h ⊢
    obtain ⟨hempty, target, htarget, haccepts⟩ := h
    exact ⟨hempty, target, htarget, ihrest target htarget _ _ helem haccepts⟩
  | primitive | record | map | table | anydata | json => cases h
  | _ => cases hsource

/-- Fields that are the same fill a record alike: they have the same names, and are required alike.
-/
theorem fills_of_same_sources {fields sources others : Fields none}
    {sourceRest otherRest : Option Ty} {isSealed : Bool}
    (ih : ∀ entry ∈ fields.toList, entry.2.ty.Respects) (ihrest : ∀ ty ∈ rest, ty.Respects)
    (hfields : List.Forall₂ SameField sources.toList others.toList)
    (hrest : Option.Rel AreSame sourceRest otherRest)
    (h : Fills sources sourceRest fields rest isSealed) : Fills others otherRest fields rest isSealed := by
  have hget := rel_get? sources others hfields
  -- under each name both sources have a field, or none has
  refine ⟨fun name field hown hnone => ?_, fun name field other hown hother => ?_,
    fun name other hother hnone => ?_, ?_⟩
  · cases hsource : sources.get? name with
    | none => exact h.missing name field hown hsource
    | some source =>
      have hfound := hget name
      rw [hsource, hnone] at hfound
      cases hfound
  · have hfound := hget name
    cases hsource : sources.get? name with
    | none =>
      rw [hsource, hother] at hfound
      cases hfound
    | some source =>
      rw [hsource, hother] at hfound
      cases hfound with
      | some hsame =>
        obtain ⟨hpresent, haccepts⟩ := h.present name field source hown hsource
        exact ⟨fun hfield => hsame.1 ▸ hpresent hfield,
          ih _ (Fields.mem_toList_of_get? fields hown) _ _ hsame.2 haccepts⟩
  · have hfound := hget name
    cases hsource : sources.get? name with
    | none =>
      rw [hsource, hother] at hfound
      cases hfound
    | some source =>
      rw [hsource, hother] at hfound
      cases hfound with
      | some hsame => exact acceptsOption_of_same ihrest hsame.2 (h.placed name source hsource hnone)
  · exact forall_of_rel hrest fun ty hty _ hsame =>
      acceptsOption_of_same ihrest hsame (h.further ty hty)

theorem respects_record {fields : Fields none} {isSealed : Bool}
    (ih : ∀ entry ∈ fields.toList, entry.2.ty.Respects) (ihrest : ∀ ty ∈ rest, ty.Respects) :
    (Ty.record fields rest isSealed).Respects := by
  refine respects_of_shaped fun source other hsource hsame h => ?_
  cases same_iff.mp hsame with
  | record _ hfields hrest =>
    rw [record_accepts_iff] at h ⊢
    exact fills_of_same_sources ih ihrest hfields hrest h
  | primitive | array | tuple | map | table | anydata | json => cases h
  | _ => cases hsource

theorem respects_map {constraint : Ty} (ih : constraint.Respects) : (Ty.map constraint).Respects := by
  refine respects_of_shaped fun source other hsource hsame h => ?_
  cases same_iff.mp hsame with
  | map hconstraint =>
    rw [map_accepts_map_iff] at h ⊢
    exact ih _ _ hconstraint h
  | @record sources others sourceRest otherRest _ hfields hrest =>
    rw [map_accepts_record_iff] at h ⊢
    have hsome : otherRest.isSome = sourceRest.isSome := by cases hrest <;> rfl
    rw [hsome]
    refine ⟨forall_of_forall₂ hfields fun field hfield field' hfield' => ?_,
      forall_of_rel hrest fun ty hty ty' hty' => ih ty ty' hty' (h.2.1 ty hty), h.2.2⟩
    exact ih _ _ hfield'.2.2 (h.1 field hfield)
  | primitive | array | tuple | table | anydata | json => cases h
  | _ => cases hsource

/-- Some member of a union takes the one source, and by induction this member takes the other. -/
theorem respects_union (ih : ∀ ty ∈ members, ty.Respects) : (Ty.union members).Respects := by
  refine respects_of_shaped fun source other hsource hsame h => ?_
  obtain ⟨ty, hty, haccepts⟩ := (union_accepts_iff hsource).mp h
  exact joins other members ty hty (ih ty hty source other hsame haccepts)

end Structures

/-- **Types that are the same are assignable to the same targets.** -/
theorem respects (target : Ty) : target.Respects := by
  induction target using induction_parts with
  | array elem size ih => exact respects_array size ih
  | tuple members rest ih ihrest => exact respects_tuple ih ihrest
  | record fields rest isSealed ih ihrest => exact respects_record ih ihrest
  | map constraint ih => exact respects_map ih
  | union members ih => exact respects_union ih
  | reference name referred ih => exact ih
  | intersection inner ih => exact ih
  | anydata => exact fun _ other _ _ => anydata_accepts other
  | error => exact fun _ _ _ _ => rfl
  | json =>
    exact respects_of_shaped fun _ _ hsource hsame h =>
      json_accepts (isJson_of_same _ hsame ((json_accepts_iff hsource).mp h))
  | primitive | finite | table =>
    -- of the sources with a shape only these two are taken, and nothing else is the same
    refine respects_of_shaped fun source other hsource hsame h => ?_
    cases same_iff.mp hsame with
    | primitive | table => exact h
    | array | tuple | record | map | anydata | json => cases h
    | _ => cases hsource

end Ty

end ConstNarrow
