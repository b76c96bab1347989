/-
**Refinement**: how the type of a constant comes out of what was inferred for its value.

A value is one of the readings, perhaps under another base of the same domain; a list keeps its
members in their places, and a record keeps its names. Narrowing refines, and so does validation.
With declared types that hold no error, they give an error only where there was nothing to choose
from.
-/
import ConstNarrow.Proofs.Readings

set_option autoImplicit false

namespace ConstNarrow

open Validation

/-! ## Values -/

namespace Singleton

/-- One value stands for another: it lies in the same domain and is the same value, unless the other
is under a primitive that does not hold it. -/
structure Rereads (w s : Singleton) : Prop where
  domain : w.base.domain = s.base.domain
  value : s.IsCoherent → (s.value == w.value) = true

/-- One value lies in the domain of another. -/
def SharesDomain (w s : Singleton) : Prop := w.base.domain = s.base.domain

theorem Rereads.isCoherent {w s : Singleton} (h : w.Rereads s) (hs : s.IsCoherent) :
    w.IsCoherent := by
  rw [IsCoherent, h.domain, hs, Scalar.naturalBase_of_same (h.value hs)]

theorem rereads_self (s : Singleton) : s.Rereads s := ⟨rfl, fun _ => same_self s.value⟩

/-- The same value is another reading of it. -/
theorem rereads_of_sameValue {w s : Singleton} (h : s.sameValue w = true) : w.Rereads s := by
  obtain ⟨hvalue, hdomain⟩ := Bool.and_eq_true_iff.mp h
  exact ⟨(beq_iff_eq.mp hdomain).symm, fun _ => hvalue⟩

/-- What fits a byte stands for itself as a byte. -/
theorem rereads_withBase_byte {s : Singleton} (h : s.fits .byte = true) :
    (s.withBase .byte).Rereads s := by
  refine ⟨?_, fun _ => same_self s.value⟩
  rcases s with ⟨value, base⟩
  cases base <;> simp_all [fits, withBase, Primitive.domain, Primitive.numericKind?]

theorem rereads_nil {s : Singleton} (h : s.fits .nil = true) : nil.Rereads s := by
  rcases s with ⟨value, base⟩
  have hbase : base = .nil := by
    cases base <;> simp_all [fits]
  subst hbase
  refine ⟨rfl, fun hs => ?_⟩
  cases value <;> first | rfl | cases hs

end Singleton

namespace Fields

theorem get?_of_mem_toList {bound : Option String} (fields : Fields bound) {name : String}
    {field : Field} (h : (name, field) ∈ fields.toList) : fields.get? name = some field := by
  have hcontains := (contains_iff_mem_names fields name).mpr (List.mem_map_of_mem h)
  obtain ⟨other, hother⟩ := Option.isSome_iff_exists.mp hcontains
  have hmem := mem_toList_of_get? fields hother
  -- no name occurs twice
  have heq := List.inj_on_of_nodup_map (nodup_names fields) h hmem rfl
  cases heq
  exact hother

theorem get?_narrowedFields {bound : Option String} : (fields : Fields bound) → (name : String) →
    (Ty.narrowedFields fields).get? name
      = (fields.get? name).map fun field => ⟨field.ty.narrowed, field.required⟩
  | .nil, _ => rfl
  | .cons key above ty required tail, name => by
    rw [Ty.narrowedFields, get?, get?, get?_narrowedFields tail name]
    split <;> rfl

end Fields

namespace Ty

/-! ## Types -/

/-- There is nothing to choose from. -/
def IsVoid (ty : Ty) : Prop := ty = .table ∨ ty = .anydata ∨ ty = .error

/-- How a definite type comes out of a tentative one, with `R` between a value and the reading that
it stands for. An error comes out of anything if that is allowed, and else out of a type with
nothing to choose from. -/
inductive Refines (R : Singleton → Singleton → Prop) (lax : Bool) : (result inferred : Ty) → Prop where
  | value {values : List Singleton} {w s : Singleton} (hs : s ∈ values) (h : R w s) :
      Refines R lax (singleton w) (ofValues values)
  | tuple {results members : List Ty} {rest : Option Ty} (hlength : members.length ≤ results.length)
      (h : ∀ (i : Nat) (result member : Ty), results[i]? = some result →
        members[i]? = some member → Refines R lax result member) :
      Refines R lax (.tuple results none) (.tuple members rest)
  | record {results fields : Fields none} {rest : Option Ty} {isSealed : Bool}
      (hnames : ∀ name, fields.contains name = true → results.contains name = true)
      (h : ∀ (name : String) (result field : Field), results.get? name = some result →
        fields.get? name = some field → Refines R lax result.ty field.ty) :
      Refines R lax (sealedRecord results) (.record fields rest isSealed)
  | error {inferred : Ty} (h : lax = true ∨ inferred.IsVoid) : Refines R lax .error inferred

variable {R R' : Singleton → Singleton → Prop} {lax lax' : Bool}

/-- More readings may be allowed. -/
theorem Refines.mono {result inferred : Ty} (h : Refines R lax result inferred)
    (hR : ∀ w s, R w s → R' w s) (hlax : lax = true → lax' = true) :
    Refines R' lax' result inferred := by
  induction h with
  | value hs hw => exact .value hs (hR _ _ hw)
  | tuple hlength _ ih => exact .tuple hlength ih
  | record hnames _ ih => exact .record hnames ih
  | error hwhy => exact .error (hwhy.imp_left hlax)

/-- A record refines another one name by name. -/
theorem refines_sealedOf {source : Fields none} {rest : Option Ty} {isSealed : Bool}
    {entries : List (String × Ty)} (hnodup : (entries.map Prod.fst).Nodup)
    (h : ∀ field ∈ source.toList, ∃ ty, (field.1, ty) ∈ entries ∧ Refines R lax ty field.2.ty) :
    Refines R lax (sealedOf entries) (.record source rest isSealed) := by
  have hget : ∀ name field, source.get? name = some field → ∃ ty,
      (Fields.ofList (entries.map fun entry => (entry.1, ⟨entry.2, true⟩))).get? name
        = some ⟨ty, true⟩ ∧ Refines R lax ty field.ty := by
    intro name field hfield
    obtain ⟨ty, hmem, hrefines⟩ := h _ (Fields.mem_toList_of_get? source hfield)
    exact ⟨ty, Fields.get?_ofList_required hnodup hmem, hrefines⟩
  refine .record (fun name hname => ?_) fun name result field hresult hfield => ?_
  · obtain ⟨field, hfield⟩ := Option.isSome_iff_exists.mp hname
    obtain ⟨ty, hty, -⟩ := hget name field hfield
    exact Option.isSome_iff_exists.mpr ⟨_, hty⟩
  · obtain ⟨ty, hty, hrefines⟩ := hget name field hfield
    cases hresult.symm.trans hty
    exact hrefines

/-- **Narrowing refines a tentative type to a definite one.** -/
theorem Tentative.narrowed {ty : Ty} (h : Tentative ty) :
    Definite ty.narrowed ∧ Refines Singleton.Rereads false ty.narrowed ty := by
  induction h with
  | @choice values hvalues =>
    match values, hvalues with
    | [s], _ => exact ⟨.value s, .value List.mem_cons_self (Singleton.rereads_self s)⟩
    | s :: t :: values, _ => exact ⟨.value s, .value List.mem_cons_self (Singleton.rereads_self s)⟩
    | [], hvalues => exact absurd rfl hvalues.ne_nil
  | @tuple members _ ih =>
    rw [Ty.narrowed, narrowedOption, narrowedList_eq_map]
    refine ⟨.tuple fun ty hty => ?_, .tuple (by simp) fun i result member hresult hmember => ?_⟩
    · obtain ⟨member, hmem, rfl⟩ := List.mem_map.mp hty
      exact (ih member hmem).1
    · rw [List.getElem?_map, hmember] at hresult
      cases hresult
      exact (ih member (List.mem_of_getElem? hmember)).2
  | @record fields hreq _ ih =>
    rw [sealedRecord, Ty.narrowed, narrowedOption]
    refine ⟨.record (fun entry hentry => ?_) fun entry hentry => ?_,
      .record (fun name hname => ?_) fun name result field hresult hfield => ?_⟩
    · rw [toList_narrowedFields] at hentry
      obtain ⟨field, hmem, rfl⟩ := List.mem_map.mp hentry
      exact hreq field hmem
    · rw [toList_narrowedFields] at hentry
      obtain ⟨field, hmem, rfl⟩ := List.mem_map.mp hentry
      exact (ih field hmem).1
    · rw [Fields.contains, Fields.get?_narrowedFields, Option.isSome_map]
      exact hname
    · rw [Fields.get?_narrowedFields, hfield] at hresult
      cases hresult
      exact (ih _ (Fields.mem_toList_of_get? fields hfield)).2
  | table => exact ⟨.error, .error (Or.inr (Or.inl rfl))⟩
  | anydata => exact ⟨.error, .error (Or.inr (Or.inr (Or.inl rfl)))⟩
  | error => exact ⟨.error, .error (Or.inr (Or.inr (Or.inr rfl)))⟩

/-! ## Validation -/

/-- What is assignable to a primitive is a choice of values, each of which fits it. -/
theorem Tentative.values_of_isAssignable {p : Primitive} {ty : Ty} (h : Tentative ty)
    (herror : ty.isError = false) (hfits : ty.isAssignable (.primitive p) = true) :
    ∃ values, IsChoice values ∧ ty = ofValues values := by
  cases h with
  | @choice values hvalues => exact ⟨values, hvalues, rfl⟩
  | tuple _ | record _ _ | table | anydata => cases hfits
  | error => cases herror

/-- A reading that is assignable to a primitive is refined, as a byte if that is what is wanted. -/
theorem Tentative.refines_rebase {p : Primitive} {inferred ty : Ty} (h : Tentative inferred)
    (herror : inferred.isError = false) (hty : ty ∈ inferred.unionMembers)
    (hfits : ty.isAssignable (.primitive p) = true) :
    ∃ w, rebase p ty = singleton w ∧ Refines Singleton.Rereads lax (singleton w) inferred := by
  cases h with
  | choice _ =>
    rw [unionMembers_ofValues] at hty
    obtain ⟨s, hs, rfl⟩ := List.mem_map.mp hty
    by_cases hp : p = .byte
    · subst hp
      refine ⟨s.withBase .byte, rfl, .value hs ?_⟩
      exact Singleton.rereads_withBase_byte (fits_of_accepts hfits)
    · exact ⟨s, by simp [rebase, singleton?, singleton, hp],
        .value hs (Singleton.rereads_self s)⟩
  | error => cases herror
  | _ =>
    rw [List.mem_singleton.mp hty] at hfits
    cases hfits

theorem fits_of_isAssignable_ofValues {p : Primitive} {values : List Singleton}
    (h : (ofValues values).isAssignable (.primitive p) = true) :
    ∀ s ∈ values, s.fits p = true := by
  intro s hs
  have hmem : singleton s ∈ (ofValues values).unionMembers := by
    rw [unionMembers_ofValues]
    exact List.mem_map_of_mem hs
  exact fits_of_accepts (accepts_of_mem_unionMembers h hmem)

/-- A choice of values stands for these. -/
theorem readings?_ofValues (values : List Singleton) : readings? (ofValues values) = some values := by
  rcases values with - | ⟨s, - | ⟨t, values⟩⟩
  · rfl
  · rfl
  · refine congrArg some ?_
    rw [List.flatMap_map]
    exact List.flatMap_singleton' _

end Ty

section Entries

variable {fields source : Fields none} {declared further : List (String × Ty)}

/-- The entries for the fields of a record and those for further fields have different names. -/
theorem nodup_names_append {P Q : String × Field → String × Ty → Prop}
    (hdeclared : List.Forall₂ (fun field entry => entry.1 = field.1 ∧ P field entry) fields.toList
      declared)
    (hfurther : List.Forall₂ (fun field entry => entry.1 = field.1 ∧ Q field entry)
      (source.toList.filter fun field => !fields.contains field.1) further) :
    ((declared ++ further).map Prod.fst).Nodup := by
  rw [List.map_append, map_fst_of_forall₂ hdeclared, map_fst_of_forall₂ hfurther]
  refine List.Nodup.append (Fields.nodup_names fields)
    ((Fields.nodup_names source).sublist (List.filter_sublist.map _)) fun name hname hmem => ?_
  obtain ⟨field, hfield, rfl⟩ := List.mem_map.mp hmem
  have hcontains := (Fields.contains_iff_mem_names fields field.1).mpr hname
  simp [hcontains] at hfield

/-- Every field that was inferred has an entry. -/
theorem exists_entry (meets : (name : String) → (result inferred : Ty) → Prop)
    (hdeclared : List.Forall₂ (fun field entry => entry.1 = field.1
      ∧ ∃ own, source.get? field.1 = some own ∧ meets field.1 entry.2 own.ty) fields.toList declared)
    (hfurther : List.Forall₂ (fun field entry => entry.1 = field.1 ∧ meets field.1 entry.2 field.2.ty)
      (source.toList.filter fun field => !fields.contains field.1) further)
    {field : String × Field} (hfield : field ∈ source.toList) :
    ∃ ty, (field.1, ty) ∈ declared ++ further ∧ meets field.1 ty field.2.ty := by
  -- a name that the record declares has its entry there, any other one among the further fields
  cases hcontains : fields.contains field.1 with
  | true =>
    obtain ⟨expected, hexpected, hname⟩ :=
      List.mem_map.mp ((Fields.contains_iff_mem_names fields field.1).mp hcontains)
    obtain ⟨⟨name, ty⟩, hentry, heq, own, hown, hmeets⟩ :=
      exists_of_mem_right hdeclared.flip hexpected
    dsimp only at heq
    rw [hname] at heq hown hmeets
    rw [Fields.get?_of_mem_toList source hfield] at hown
    cases hown
    cases heq
    exact ⟨ty, List.mem_append_left _ hentry, hmeets⟩
  | false =>
    have hmem : field ∈ source.toList.filter fun field => !fields.contains field.1 :=
      List.mem_filter.mpr ⟨hfield, by simp [hcontains]⟩
    obtain ⟨⟨name, ty⟩, hentry, heq, hmeets⟩ := exists_of_mem_right hfurther.flip hmem
    cases heq
    exact ⟨ty, List.mem_append_right _ hentry, hmeets⟩

end Entries

/-- What was inferred leads to the members that are made for a tuple: they are definite, there is
one for each inferred one, and it refines that one. -/
theorem MembersMade.refines {R : Singleton → Singleton → Prop} {lax : Bool} {rest : Option Ty}
    {expected inferred results : List Ty}
    (h : MembersMade (fun result _ inferred => result.Definite ∧ result.Refines R lax inferred)
      (fun value _ => value.Definite) rest expected inferred results) :
    (∀ result ∈ results, result.Definite) ∧ inferred.length ≤ results.length
      ∧ ∀ (i : Nat) (result member : Ty), results[i]? = some result → inferred[i]? = some member →
        result.Refines R lax member := by
  induction h with
  | @further inferred results hall =>
    refine ⟨fun result hresult => ?_, Nat.le_of_eq hall.length_eq, fun i result member hresult hmember => ?_⟩
    · obtain ⟨_, _, _, _, hdefinite, _⟩ := exists_of_mem_right hall hresult
      exact hdefinite
    · obtain ⟨hi, rfl⟩ := List.getElem?_eq_some_iff.mp hmember
      obtain ⟨hj, rfl⟩ := List.getElem?_eq_some_iff.mp hresult
      exact (hall.get hi hj).choose_spec.2.2
  | filled hvalue _ ih =>
    refine ⟨List.forall_mem_cons.mpr ⟨hvalue, ih.1⟩, Nat.zero_le _, fun i result member _ h => ?_⟩
    cases h
  | matched hvalue _ ih =>
    refine ⟨List.forall_mem_cons.mpr ⟨hvalue.1, ih.1⟩, Nat.succ_le_succ ih.2.1, ?_⟩
    intro i result member hresult hmember
    cases i with
    | zero =>
      cases hresult
      cases hmember
      exact hvalue.2
    | succ i => exact ih.2.2 i result member hresult hmember

/-- **Validation refines what was inferred.** -/
def Review.refining (lax : Bool) : Review fun _ => False where
  given := Ty.Tentative
  declarable := fun ty => lax || ty.isNoError
  meets := fun result _ inferred =>
    result.Definite ∧ result.Refines Singleton.Rereads lax inferred
  fills := fun value _ => value.Definite
  lasts := fun _ _ _ h => h
  given_effective := fun _ h => h.effective_eq.symm ▸ h
  given_tuple := Ty.hereditary_tentative.tuple
  given_record := Ty.hereditary_tentative.record
  looked := fun _ _ _ hgiven h => hgiven.effective_eq ▸ h
  given_error := fun _ _ => ⟨.error, .error (Or.inr (Or.inr (Or.inr rfl)))⟩
  declarable_error := fun h _ _ => ⟨.error, .error (Or.inl (by simpa [Ty.isNoError] using h))⟩
  default := fun _ _ _ h => Ty.definite_default h
  reference := fun _ _ _ _ h => h
  intersection := fun _ _ _ h => h
  array := fun _ _ inferred _ results fillers hresults hfillers _ => by
    refine ⟨.tuple fun ty hty => ?_, .tuple ?_ fun i result member hresult hmember => ?_⟩
    · rcases List.mem_append.mp hty with hty | hty
      · exact (exists_of_mem_right hresults hty).choose_spec.2.1
      · exact hfillers ty hty
    · rw [List.length_append, hresults.length_eq]
      exact Nat.le_add_right _ _
    · obtain ⟨hi, rfl⟩ := List.getElem?_eq_some_iff.mp hmember
      have hj : i < results.length := hresults.length_eq ▸ hi
      rw [List.getElem?_append_left hj, List.getElem?_eq_getElem hj] at hresult
      cases hresult
      exact (hresults.get hi hj).2
  tuple := fun _ _ _ _ _ h => ⟨.tuple h.refines.1, .tuple h.refines.2.1 h.refines.2.2⟩
  map := fun _ source _ _ entries h => by
    have hnames : entries.map Prod.fst = source.names := map_fst_of_forall₂ h
    refine ⟨Ty.definite_sealedOf fun entry hentry => ?_,
      Ty.refines_sealedOf (hnames ▸ Fields.nodup_names source) fun field hfield => ?_⟩
    · exact (exists_of_mem_right h hentry).choose_spec.2.2.1
    · obtain ⟨⟨name, ty⟩, hentry, hname, -, hrefines⟩ := exists_of_mem_right h.flip hfield
      cases hname
      exact ⟨ty, hentry, hrefines⟩
  record := fun fields _ _ source _ _ declared further hdeclared hfurther => by
    refine ⟨Ty.definite_sealedOf fun entry hentry => ?_,
      Ty.refines_sealedOf (nodup_names_append hdeclared hfurther) fun field hfield => ?_⟩
    · rcases List.mem_append.mp hentry with hentry | hentry
      · obtain ⟨_, _, _, _, _, hdefinite, _⟩ := exists_of_mem_right hdeclared hentry
        exact hdefinite
      · obtain ⟨_, _, _, ⟨_, _, hdefinite, _⟩ | ⟨_, _, hdefinite, _⟩⟩ :=
          exists_of_mem_right hfurther hentry
        · exact hdefinite
        · exact hdefinite
    · obtain ⟨ty, hmem, hmeets⟩ := exists_entry
        (fun _ result inferred => result.Definite ∧ result.Refines Singleton.Rereads lax inferred)
        hdeclared (hfurther.imp fun _ _ h => ⟨h.1, h.2.elim (fun h => h.2.2) fun h => h.choose_spec.2⟩)
        hfield
      exact ⟨ty, hmem, hmeets.2⟩
  union := fun _ _ _ ⟨_, _, h⟩ => h
  finite := fun values inferred readings _ hgiven hreadings s _ hsame => by
    obtain ⟨reading, hreading, hvalue⟩ := hsame
    refine ⟨.value s, ?_⟩
    cases hgiven with
    | @choice values _ =>
      rw [Ty.readings?_ofValues] at hreadings
      cases hreadings
      exact .value hreading (Singleton.rereads_of_sameValue hvalue)
    | _ => cases hreadings
  nil := fun inferred hgiven herror hfits => by
    obtain ⟨values, hvalues, rfl⟩ := hgiven.values_of_isAssignable herror hfits
    obtain ⟨s, hs⟩ := List.exists_mem_of_ne_nil _ hvalues.ne_nil
    have hall := Ty.fits_of_isAssignable_ofValues hfits s hs
    exact ⟨.value _, .value hs (Singleton.rereads_nil hall)⟩
  primitive := fun p inferred hgiven herror ty hty hfits => by
    obtain ⟨w, hw, hrefines⟩ := hgiven.refines_rebase herror hty hfits
    rw [hw]
    exact ⟨.value w, hrefines⟩
  anydata := fun inferred hgiven => Or.inl
    ⟨hgiven.narrowed.1, hgiven.narrowed.2.mono (fun _ _ h => h) (fun h => (by cases h))⟩
  json := fun inferred hgiven => Or.inl
    ⟨hgiven.narrowed.1, hgiven.narrowed.2.mono (fun _ _ h => h) (fun h => (by cases h))⟩

end ConstNarrow
