/-
**Types that leave one value**, and the types on the way there.

A type is concrete if it leaves nothing open: one value, a list of fixed length or a sealed record
of concrete types. A candidate is what an expression may have before its constant is settled: a
number may still have several readings. Narrowing takes a candidate to a concrete type, and the
default of a type is concrete.
-/
import Mathlib.Data.List.Forall2
import ConstNarrow.Ty.Assignable
import ConstNarrow.Ty.Default
import ConstNarrow.Ty.Narrowed
import ConstNarrow.Value

set_option autoImplicit false

namespace ConstNarrow

/-! ## Fields -/

namespace Fields

theorem mem_toList_insertAbove {bound : Option String} :
    (fields : Fields bound) → (key : String) → (h : Above bound key) → (field : Field) →
    {entry : String × Field} → entry ∈ (fields.insertAbove key h field).toList →
    entry = (key, field) ∨ entry ∈ fields.toList
  | .nil, key, h, field, entry, hmem => by
    simp only [insertAbove, toList, List.mem_singleton] at hmem
    exact Or.inl hmem
  | .cons name above ty required tail, key, h, field, entry, hmem => by
    rw [insertAbove] at hmem
    split at hmem
    · rw [toList, List.mem_cons] at hmem
      exact hmem
    · split at hmem
      -- the name is there: its field is replaced
      · rename_i heq
        rw [toList, List.mem_cons] at hmem
        rcases hmem with rfl | hmem
        · exact Or.inl (by rw [heq])
        · exact Or.inr (List.mem_cons_of_mem _ hmem)
      · rw [toList, List.mem_cons] at hmem
        rcases hmem with rfl | hmem
        · exact Or.inr List.mem_cons_self
        · exact (mem_toList_insertAbove tail key _ field hmem).imp_right (List.mem_cons_of_mem _)

/-- After an insertion there is the new field, and for the rest only old ones. -/
theorem mem_toList_insert {fields : Fields none} {key : String} {field : Field}
    {entry : String × Field} (h : entry ∈ (fields.insert key field).toList) :
    entry = (key, field) ∨ entry ∈ fields.toList :=
  mem_toList_insertAbove fields key trivial field h

theorem mem_toList_foldl_insert (entries : List (String × Field)) (fields : Fields none)
    {entry : String × Field}
    (h : entry ∈ (entries.foldl (fun fields (key, field) => fields.insert key field) fields).toList) :
    entry ∈ entries ∨ entry ∈ fields.toList := by
  induction entries generalizing fields with
  | nil => exact Or.inr h
  | cons first rest ih =>
    rcases ih (fields.insert first.1 first.2) h with hmem | hmem
    · exact Or.inl (List.mem_cons_of_mem _ hmem)
    · rcases mem_toList_insert hmem with rfl | hmem
      · exact Or.inl List.mem_cons_self
      · exact Or.inr hmem

theorem mem_of_mem_toList_ofList {entries : List (String × Field)} {entry : String × Field}
    (h : entry ∈ (ofList entries).toList) : entry ∈ entries := by
  rcases mem_toList_foldl_insert entries .nil h with h | h
  · exact h
  · cases h

theorem mem_toList_of_get? {bound : Option String} :
    (fields : Fields bound) → {key : String} → {field : Field} → fields.get? key = some field →
    (key, field) ∈ fields.toList
  | .nil, _, _, h => by cases h
  | .cons name above ty required tail, key, field, h => by
    rw [get?] at h
    split at h
    · rename_i heq
      cases h
      rw [heq, toList]
      exact List.mem_cons_self
    · exact List.mem_cons_of_mem _ (mem_toList_of_get? tail h)

/-- A list that does not have a name leaves the field of that name alone. -/
theorem get?_foldl_insert_of_not_mem (entries : List (String × Field)) (fields : Fields none)
    {key : String} (h : key ∉ entries.map Prod.fst) :
    (entries.foldl (fun fields (key, field) => fields.insert key field) fields).get? key
      = fields.get? key := by
  induction entries generalizing fields with
  | nil => rfl
  | cons first rest ih =>
    rw [List.map_cons, List.mem_cons, not_or] at h
    rw [List.foldl_cons, ih _ h.2, get?_insert, if_neg h.1]

theorem get?_foldl_insert (entries : List (String × Field)) (fields : Fields none)
    (hnodup : (entries.map Prod.fst).Nodup) {key : String} {field : Field}
    (h : (key, field) ∈ entries) :
    (entries.foldl (fun fields (key, field) => fields.insert key field) fields).get? key
      = some field := by
  induction entries generalizing fields with
  | nil => cases h
  | cons first rest ih =>
    rw [List.map_cons, List.nodup_cons] at hnodup
    rcases List.mem_cons.mp h with rfl | h
    · rw [List.foldl_cons, get?_foldl_insert_of_not_mem rest _ hnodup.1, get?_insert, if_pos rfl]
    · exact ih _ hnodup.2 h

/-- In a list in which no name occurs twice, every entry counts. -/
theorem get?_ofList {entries : List (String × Field)} (hnodup : (entries.map Prod.fst).Nodup)
    {key : String} {field : Field} (h : (key, field) ∈ entries) :
    (ofList entries).get? key = some field :=
  get?_foldl_insert entries .nil hnodup h

theorem get?_ofList_of_not_mem {entries : List (String × Field)} {key : String}
    (h : key ∉ entries.map Prod.fst) : (ofList entries).get? key = none :=
  get?_foldl_insert_of_not_mem entries .nil h

section Required

variable {entries : List (String × Ty)} {key : String}

/-- The same for required fields that are listed by their types. -/
theorem get?_ofList_required (hnodup : (entries.map Prod.fst).Nodup) {ty : Ty}
    (h : (key, ty) ∈ entries) :
    (ofList (entries.map fun entry => (entry.1, ⟨entry.2, true⟩))).get? key = some ⟨ty, true⟩ := by
  refine get?_ofList ?_ (List.mem_map.mpr ⟨_, h, rfl⟩)
  rw [List.map_map]
  exact hnodup

theorem get?_ofList_required_of_not_mem (h : key ∉ entries.map Prod.fst) :
    (ofList (entries.map fun entry => (entry.1, ⟨entry.2, true⟩))).get? key = none := by
  refine get?_ofList_of_not_mem ?_
  rw [List.map_map]
  exact h

end Required

/-- No name occurs twice, as names ascend. -/
theorem nodup_names {bound : Option String} (fields : Fields bound) : fields.names.Nodup := by
  refine (pairwise_names fields).imp ?_
  intro a b hlt heq
  subst heq
  exact String.lt_irrefl a hlt

theorem contains_iff_mem_names {bound : Option String} :
    (fields : Fields bound) → (key : String) → (fields.contains key = true ↔ key ∈ fields.names)
  | .nil, key => by simp [contains, get?, names, toList]
  | .cons name above ty required tail, key => by
    have ih := contains_iff_mem_names tail key
    rw [contains, names] at ih
    rw [contains, get?, names, toList, List.map_cons, List.mem_cons]
    by_cases h : key = name
    · simp [h]
    · rw [if_neg h, ih]
      simp [h]

end Fields

/-! ## Values -/

/-- Whether a value stands under its own primitive, or is an integer small enough for a byte. -/
def Singleton.isProper (s : Singleton) : Bool :=
  s.base == s.value.naturalBase || (s.base == .byte && s.value.int?.any isByte)

namespace Singleton

theorem isProper_iff {s : Singleton} :
    s.isProper = true ↔
      s.base = s.value.naturalBase ∨ (s.base = .byte ∧ ∃ i, s.value = .int i ∧ isByte i = true) := by
  rcases s with ⟨value, base⟩
  cases value <;> simp [isProper, Scalar.int?]

theorem isProper_ofScalar (v : Scalar) : (ofScalar v).isProper = true :=
  isProper_iff.mpr (Or.inl rfl)

theorem isProper_default (p : Primitive) : p.default.isProper = true := by
  cases p with
  | byte => decide
  | nil | boolean | int | float | decimal | string => exact isProper_ofScalar _

theorem fits_default (p : Primitive) : p.default.fits p = true := by
  cases p <;> rfl

/-- What fits a byte is one when it is put under that primitive. -/
theorem isProper_withBase_byte {s : Singleton} (hs : s.isProper = true) (h : s.fits .byte = true) :
    (s.withBase .byte).isProper = true := by
  rcases s with ⟨value, base⟩
  rw [isProper_iff] at hs ⊢
  cases value <;> cases base <;> simp_all [withBase, fits, Scalar.naturalBase, Scalar.int?]

theorem same_self (v : Scalar) : (v == v) = true := by
  show v.same v = true
  cases v with
  | decimal d => simp [Scalar.same, Decimal.same, Decimal.order]
  | _ => simp [Scalar.same]

theorem sameValue_self (s : Singleton) : s.sameValue s = true := by
  simp [sameValue, same_self]

/-- A proper value under nil is `()`. -/
theorem sameValue_nil {s : Singleton} (hs : s.isProper = true) (h : s.base = .nil) :
    s.sameValue .nil = true := by
  rcases s with ⟨value, base⟩
  rw [isProper_iff] at hs
  cases value <;> simp_all [Scalar.naturalBase, sameValue, nil, ofScalar, same_self]

end Singleton

namespace Ty

/-! ## Induction over types -/

section Induction

set_option linter.unusedSectionVars false

variable {motive : Ty → Prop} (primitive : ∀ p, motive (.primitive p))
  (array : ∀ elem size, motive elem → motive (.array elem size))
  (tuple : ∀ members rest, (∀ ty ∈ members, motive ty) → (∀ ty ∈ rest, motive ty) →
    motive (.tuple members rest))
  (record : ∀ fields rest isSealed, (∀ entry ∈ fields.toList, motive entry.2.ty) →
    (∀ ty ∈ rest, motive ty) → motive (.record fields rest isSealed))
  (map : ∀ constraint, motive constraint → motive (.map constraint)) (table : motive .table)
  (anydata : motive .anydata) (json : motive .json)
  (union : ∀ members, (∀ ty ∈ members, motive ty) → motive (.union members))
  (finite : ∀ values, motive (.finite values))
  (reference : ∀ name referred, motive referred → motive (.reference name referred))
  (intersection : ∀ inner, motive inner → motive (.intersection inner)) (error : motive .error)

include primitive array tuple record map table anydata json union finite reference intersection error

mutual

/-- Induction over types, with the parts of a structure as the elements of its lists. -/
theorem induction_parts : (ty : Ty) → motive ty
  | .primitive p => primitive p
  | .array elem size => array elem size (induction_parts elem)
  | .tuple members rest => tuple members rest (induction_list members) (induction_option rest)
  | .record fields rest isSealed =>
    record fields rest isSealed (induction_fields fields) (induction_option rest)
  | .map constraint => map constraint (induction_parts constraint)
  | .table => table
  | .anydata => anydata
  | .json => json
  | .union members => union members (induction_list members)
  | .finite values => finite values
  | .reference name referred => reference name referred (induction_parts referred)
  | .intersection inner => intersection inner (induction_parts inner)
  | .error => error
termination_by structural ty => ty

theorem induction_list : (tys : List Ty) → ∀ ty ∈ tys, motive ty
  | [] => fun _ h => nomatch h
  | first :: tys => List.forall_mem_cons.mpr ⟨induction_parts first, induction_list tys⟩
termination_by structural tys => tys

theorem induction_option : (rest : Option Ty) → ∀ ty ∈ rest, motive ty
  | none => fun _ h => nomatch h
  | some ty => fun _ h => Option.mem_some.mp h ▸ induction_parts ty
termination_by structural rest => rest

theorem induction_fields :
    {bound : Option String} → (fields : Fields bound) → ∀ entry ∈ fields.toList, motive entry.2.ty
  | _, .nil => fun _ h => nomatch h
  | _, .cons _ _ ty _ tail => List.forall_mem_cons.mpr ⟨induction_parts ty, induction_fields tail⟩
termination_by structural _ fields => fields

end

end Induction

/-! ## Everywhere in a type -/

mutual

/-- Whether something holds of a type and of all types inside it. -/
def everywhere (f : Ty → Bool) : Ty → Bool
  | .array elem size => f (.array elem size) && elem.everywhere f
  | .tuple members rest => f (.tuple members rest) && everywhereList f members && everywhereOption f rest
  | .record fields rest isSealed =>
    f (.record fields rest isSealed) && everywhereFields f fields && everywhereOption f rest
  | .map constraint => f (.map constraint) && constraint.everywhere f
  | .union members => f (.union members) && everywhereList f members
  | .reference name referred => f (.reference name referred) && referred.everywhere f
  | .intersection inner => f (.intersection inner) && inner.everywhere f
  | .primitive p => f (.primitive p)
  | .table => f .table
  | .anydata => f .anydata
  | .json => f .json
  | .finite values => f (.finite values)
  | .error => f .error
termination_by structural ty => ty

/-- Whether it holds everywhere in the types of a list. -/
def everywhereList (f : Ty → Bool) : List Ty → Bool
  | [] => true
  | ty :: tys => ty.everywhere f && everywhereList f tys
termination_by structural tys => tys

/-- Whether it holds everywhere in a type, if there is one. -/
def everywhereOption (f : Ty → Bool) : Option Ty → Bool
  | none => true
  | some ty => ty.everywhere f
termination_by structural ty => ty

/-- Whether it holds everywhere in the types of fields. -/
def everywhereFields (f : Ty → Bool) : {bound : Option String} → Fields bound → Bool
  | _, .nil => true
  | _, .cons _ _ ty _ tail => ty.everywhere f && everywhereFields f tail
termination_by structural _ fields => fields

end

variable {f : Ty → Bool} {ok : Singleton → Bool}

theorem everywhereList_iff {tys : List Ty} :
    everywhereList f tys = true ↔ ∀ ty ∈ tys, ty.everywhere f = true := by
  induction tys with
  | nil => simp [everywhereList]
  | cons ty tys ih => simp [everywhereList, ih]

theorem everywhereFields_iff {bound : Option String} :
    (fields : Fields bound) → (everywhereFields f fields = true ↔
      ∀ entry ∈ fields.toList, entry.2.ty.everywhere f = true)
  | .nil => by simp [everywhereFields, Fields.toList]
  | .cons name above ty required tail => by
    simp [everywhereFields, Fields.toList, everywhereFields_iff tail]

theorem everywhereOption_iff {rest : Option Ty} :
    everywhereOption f rest = true ↔ ∀ ty ∈ rest, ty.everywhere f = true := by
  cases rest <;> simp [everywhereOption]

theorem everywhere_tuple {members : List Ty} {rest : Option Ty} :
    (Ty.tuple members rest).everywhere f = true ↔ f (.tuple members rest) = true
      ∧ (∀ ty ∈ members, ty.everywhere f = true) ∧ ∀ ty ∈ rest, ty.everywhere f = true := by
  rw [everywhere, Bool.and_eq_true, Bool.and_eq_true, everywhereList_iff, everywhereOption_iff,
    and_assoc]

theorem everywhere_record {fields : Fields none} {rest : Option Ty} {isSealed : Bool} :
    (Ty.record fields rest isSealed).everywhere f = true ↔ f (.record fields rest isSealed) = true
      ∧ (∀ entry ∈ fields.toList, entry.2.ty.everywhere f = true)
      ∧ ∀ ty ∈ rest, ty.everywhere f = true := by
  rw [everywhere, Bool.and_eq_true, Bool.and_eq_true, everywhereFields_iff, everywhereOption_iff,
    and_assoc]

theorem everywhere_union {members : List Ty} :
    (Ty.union members).everywhere f = true ↔
      f (.union members) = true ∧ ∀ ty ∈ members, ty.everywhere f = true :=
  Bool.and_eq_true_iff.trans (and_congr_right fun _ => everywhereList_iff)

theorem everywhere_array {elem : Ty} {size : ArraySize} :
    (Ty.array elem size).everywhere f = true ↔
      f (.array elem size) = true ∧ elem.everywhere f = true :=
  Bool.and_eq_true_iff

theorem everywhere_map {constraint : Ty} :
    (Ty.map constraint).everywhere f = true ↔
      f (.map constraint) = true ∧ constraint.everywhere f = true :=
  Bool.and_eq_true_iff

theorem everywhere_reference {name : String} {referred : Ty} :
    (Ty.reference name referred).everywhere f = true ↔
      f (.reference name referred) = true ∧ referred.everywhere f = true :=
  Bool.and_eq_true_iff

theorem everywhere_intersection {inner : Ty} :
    (Ty.intersection inner).everywhere f = true ↔
      f (.intersection inner) = true ∧ inner.everywhere f = true :=
  Bool.and_eq_true_iff

/-- What follows from two properties holds everywhere if both do. -/
theorem everywhere_of_imp {f g h : Ty → Bool} (himp : ∀ ty, f ty = true → g ty = true → h ty = true)
    {ty : Ty} (hf : ty.everywhere f = true) (hg : ty.everywhere g = true) :
    ty.everywhere h = true := by
  induction ty using induction_parts with
  | array elem size ih =>
    rw [everywhere_array] at hf hg ⊢
    exact ⟨himp _ hf.1 hg.1, ih hf.2 hg.2⟩
  | tuple members rest ih ihrest =>
    rw [everywhere_tuple] at hf hg ⊢
    exact ⟨himp _ hf.1 hg.1, fun ty hty => ih ty hty (hf.2.1 ty hty) (hg.2.1 ty hty),
      fun ty hty => ihrest ty hty (hf.2.2 ty hty) (hg.2.2 ty hty)⟩
  | record fields rest isSealed ih ihrest =>
    rw [everywhere_record] at hf hg ⊢
    exact ⟨himp _ hf.1 hg.1, fun entry he => ih entry he (hf.2.1 entry he) (hg.2.1 entry he),
      fun ty hty => ihrest ty hty (hf.2.2 ty hty) (hg.2.2 ty hty)⟩
  | map constraint ih =>
    rw [everywhere_map] at hf hg ⊢
    exact ⟨himp _ hf.1 hg.1, ih hf.2 hg.2⟩
  | union members ih =>
    rw [everywhere_union] at hf hg ⊢
    exact ⟨himp _ hf.1 hg.1, fun ty hty => ih ty hty (hf.2 ty hty) (hg.2 ty hty)⟩
  | reference name referred ih =>
    rw [everywhere_reference] at hf hg ⊢
    exact ⟨himp _ hf.1 hg.1, ih hf.2 hg.2⟩
  | intersection inner ih =>
    rw [everywhere_intersection] at hf hg ⊢
    exact ⟨himp _ hf.1 hg.1, ih hf.2 hg.2⟩
  | primitive | table | anydata | json | finite | error => exact himp _ hf hg

theorem everywhere_self {ty : Ty} (h : ty.everywhere f = true) : f ty = true := by
  cases ty <;> simp_all [everywhere]

/-- What holds everywhere in a type holds everywhere in what it is when looked through. -/
theorem everywhere_effective : (ty : Ty) → ty.everywhere f = true → ty.effective.everywhere f = true
  | .reference _ referred, h => everywhere_effective referred (everywhere_reference.mp h).2
  | .intersection inner, h => everywhere_effective inner (everywhere_intersection.mp h).2
  | .primitive _, h | .array _ _, h | .tuple _ _, h | .record _ _ _, h | .map _, h | .table, h
  | .anydata, h | .json, h | .union _, h | .finite _, h | .error, h => h

/-- Whether a type is no union. -/
def isNoUnion : Ty → Bool
  | .union _ => false
  | _ => true

/-! ## Concrete types -/

mutual

/-- Whether a type leaves just one value, all of whose parts satisfy `ok`. -/
def isConcrete (ok : Singleton → Bool) : Ty → Bool
  | .finite [s] => ok s
  | .tuple members rest => rest.isNone && isConcreteList ok members
  | .record fields rest isSealed => isSealed && rest.isNone && isConcreteFields ok fields
  | _ => false
termination_by structural ty => ty

/-- Whether this holds of all types of a list. -/
def isConcreteList (ok : Singleton → Bool) : List Ty → Bool
  | [] => true
  | ty :: tys => ty.isConcrete ok && isConcreteList ok tys
termination_by structural tys => tys

/-- Whether all fields are required and have such types. -/
def isConcreteFields (ok : Singleton → Bool) : {bound : Option String} → Fields bound → Bool
  | _, .nil => true
  | _, .cons _ _ ty required tail => required && ty.isConcrete ok && isConcreteFields ok tail
termination_by structural _ fields => fields

end

theorem isConcreteList_iff {tys : List Ty} :
    isConcreteList ok tys = true ↔ ∀ ty ∈ tys, ty.isConcrete ok = true := by
  induction tys with
  | nil => simp [isConcreteList]
  | cons ty tys ih => simp [isConcreteList, ih]

theorem isConcreteFields_iff {bound : Option String} :
    (fields : Fields bound) → (isConcreteFields ok fields = true ↔
      ∀ entry ∈ fields.toList, entry.2.required = true ∧ entry.2.ty.isConcrete ok = true)
  | .nil => by simp [isConcreteFields, Fields.toList]
  | .cons name above ty required tail => by
    simp [isConcreteFields, Fields.toList, isConcreteFields_iff tail, and_assoc]

theorem isConcrete_tuple {members : List Ty} :
    (Ty.tuple members none).isConcrete ok = true ↔ ∀ ty ∈ members, ty.isConcrete ok = true := by
  simp [isConcrete, isConcreteList_iff]

/-- A sealed record is concrete just if its fields are required and their types are concrete. -/
theorem isConcrete_sealedRecord {fields : Fields none} :
    (sealedRecord fields).isConcrete ok = true ↔
      ∀ entry ∈ fields.toList, entry.2.required = true ∧ entry.2.ty.isConcrete ok = true := by
  simp [sealedRecord, isConcrete, isConcreteFields_iff]

/-- The forms of concrete types. -/
theorem isConcrete_cases {ty : Ty} (h : ty.isConcrete ok = true) :
    (∃ s, ty = .finite [s] ∧ ok s = true)
      ∨ (∃ members, ty = .tuple members none ∧ ∀ t ∈ members, t.isConcrete ok = true)
      ∨ ∃ fields, ty = sealedRecord fields
        ∧ ∀ entry ∈ fields.toList, entry.2.required = true ∧ entry.2.ty.isConcrete ok = true := by
  match ty with
  | .finite [s] => exact Or.inl ⟨s, rfl, h⟩
  | .tuple members none => exact Or.inr (Or.inl ⟨members, rfl, isConcrete_tuple.mp h⟩)
  | .record fields none true =>
    exact Or.inr (Or.inr ⟨fields, rfl, isConcrete_sealedRecord.mp h⟩)

/-- A sealed record of required fields is concrete if their types are. -/
theorem isConcrete_sealedOf {entries : List (String × Ty)}
    (h : ∀ entry ∈ entries, entry.2.isConcrete ok = true) :
    (sealedOf entries).isConcrete ok = true := by
  refine isConcrete_sealedRecord.mpr fun entry hentry => ?_
  obtain ⟨⟨name, ty⟩, hmem, rfl⟩ := List.mem_map.mp (Fields.mem_of_mem_toList_ofList hentry)
  exact ⟨rfl, h _ hmem⟩

/-- Induction over concrete types. -/
theorem concrete_induction {motive : Ty → Prop} (value : ∀ s, ok s = true → motive (.finite [s]))
    (tuple : ∀ members, (∀ ty ∈ members, motive ty) → motive (.tuple members none))
    (record : ∀ fields, (∀ entry ∈ fields.toList, entry.2.required = true ∧ motive entry.2.ty) →
      motive (sealedRecord fields)) {ty : Ty} (h : ty.isConcrete ok = true) : motive ty := by
  induction ty using induction_parts with
  | finite values =>
    -- of finite types only those with one value are concrete
    obtain ⟨s, rfl⟩ : ∃ s, values = [s] := by
      rcases isConcrete_cases h with ⟨s, hs, -⟩ | ⟨members, hs, -⟩ | ⟨fields, hs, -⟩ <;> cases hs
      exact ⟨s, rfl⟩
    exact value s h
  | tuple members rest ih _ =>
    obtain ⟨hrest, hall⟩ : rest = none ∧ _ := by
      simpa only [isConcrete, Bool.and_eq_true, Option.isNone_iff_eq_none] using h
    subst hrest
    exact tuple members fun ty hty => ih ty hty (isConcreteList_iff.mp hall ty hty)
  | record fields rest isSealed ih _ =>
    obtain ⟨⟨rfl, hrest⟩, hall⟩ : (isSealed = true ∧ rest = none) ∧ _ := by
      simpa only [isConcrete, Bool.and_eq_true, Option.isNone_iff_eq_none] using h
    subst hrest
    refine record fields fun entry hentry => ?_
    obtain ⟨hreq, hty⟩ := (isConcreteFields_iff fields).mp hall entry hentry
    exact ⟨hreq, ih entry hentry hty⟩
  | _ => cases h

/-- What holds of the parts of a concrete type may be weakened. -/
theorem isConcrete_of_imp {weak : Singleton → Bool} (himp : ∀ s, ok s = true → weak s = true) {ty : Ty}
    (h : ty.isConcrete ok = true) : ty.isConcrete weak = true :=
  concrete_induction (motive := fun ty => ty.isConcrete weak = true) himp
    (fun _ ih => isConcrete_tuple.mpr ih) (fun _ ih => isConcrete_sealedRecord.mpr ih) h

theorem isJsonList_iff {tys : List Ty} : isJsonList tys = true ↔ ∀ ty ∈ tys, ty.isJson = true := by
  induction tys with
  | nil => simp [isJsonList]
  | cons ty tys ih => simp [isJsonList, ih]

theorem isJsonFields_iff {bound : Option String} :
    (fields : Fields bound) →
    (isJsonFields fields = true ↔ ∀ entry ∈ fields.toList, entry.2.ty.isJson = true)
  | .nil => by simp [isJsonFields, Fields.toList]
  | .cons name above ty required tail => by
    simp [isJsonFields, Fields.toList, isJsonFields_iff tail]

theorem isJsonOption_iff {rest : Option Ty} :
    isJsonOption rest = true ↔ ∀ ty ∈ rest, ty.isJson = true := by
  cases rest <;> simp [isJsonOption]

/-- Whatever is concrete can be written as JSON. -/
theorem isJson_of_isConcrete {ty : Ty} (h : ty.isConcrete ok = true) : ty.isJson = true := by
  refine concrete_induction (motive := fun ty => ty.isJson = true) ?_ ?_ ?_ h
  · intro s _
    rfl
  · intro members ih
    simpa [isJson, isJsonOption] using isJsonList_iff.mpr ih
  · intro fields ih
    have hall := (isJsonFields_iff fields).mpr fun entry hentry => (ih entry hentry).2
    simpa [sealedRecord, isJson, isJsonOption] using hall

/-! ## The value of a concrete type -/

theorem exists_ofSingleton {s : Singleton} (h : s.isProper = true) :
    ∃ value, Value.ofSingleton? s = some value := by
  rcases s with ⟨value, base⟩
  rw [Singleton.isProper_iff] at h
  cases value with
  | int i =>
    rcases h with h | ⟨h, j, hj, hbyte⟩
    · cases h
      exact ⟨_, rfl⟩
    · cases h
      cases hj
      exact ⟨.byte i, by simp [Value.ofSingleton?, hbyte]⟩
  | _ => exact ⟨_, rfl⟩

theorem exists_ofTys {tys : List Ty} (h : ∀ ty ∈ tys, ∃ value, Value.ofTy? ty = some value) :
    ∃ values, Value.ofTys? tys = some values := by
  induction tys with
  | nil => exact ⟨[], rfl⟩
  | cons ty tys ih =>
    obtain ⟨hfirst, hrest⟩ := List.forall_mem_cons.mp h
    obtain ⟨value, hvalue⟩ := hfirst
    obtain ⟨values, hvalues⟩ := ih hrest
    exact ⟨value :: values, by rw [Value.ofTys?, hvalue, hvalues]; rfl⟩

theorem exists_ofFields {bound : Option String} : (fields : Fields bound) →
    (∀ entry ∈ fields.toList, ∃ value, Value.ofTy? entry.2.ty = some value) →
    ∃ values, Value.ofFields? fields = some values
  | .nil, _ => ⟨[], rfl⟩
  | .cons name above ty required tail, h => by
    obtain ⟨hfirst, hrest⟩ := List.forall_mem_cons.mp h
    obtain ⟨value, hvalue⟩ := hfirst
    obtain ⟨values, hvalues⟩ := exists_ofFields tail hrest
    exact ⟨(name, value) :: values, by rw [Value.ofFields?, hvalue, hvalues]; rfl⟩

/-- **A concrete type has a value.** -/
theorem exists_ofTy {ty : Ty} (h : ty.isConcrete Singleton.isProper = true) :
    ∃ value, Value.ofTy? ty = some value := by
  refine concrete_induction (motive := fun ty => ∃ value, Value.ofTy? ty = some value)
    (fun s hs => exists_ofSingleton hs) (fun members ih => ?_) (fun fields ih => ?_) h
  · obtain ⟨values, hvalues⟩ := exists_ofTys ih
    exact ⟨.list values, by rw [Value.ofTy?, hvalues]; rfl⟩
  · obtain ⟨values, hvalues⟩ := exists_ofFields fields fun entry hentry => (ih entry hentry).2
    exact ⟨.map values, by rw [sealedRecord, Value.ofTy?, hvalues]; rfl⟩

/-! ## Candidates -/

/-- A type that an expression may have before its constant is settled: like a concrete one, but a
value may have several readings. -/
inductive Candidate : Ty → Prop where
  | value {s : Singleton} (h : s.isProper = true) : Candidate (.finite [s])
  | readings {members : List Ty} (hne : members ≠ [])
      (h : ∀ ty ∈ members, ∃ s : Singleton, s.isProper = true ∧ ty = singleton s) :
      Candidate (.union members)
  | tuple {members : List Ty} (h : ∀ ty ∈ members, Candidate ty) : Candidate (.tuple members none)
  | record {fields : Fields none} (hreq : ∀ entry ∈ fields.toList, entry.2.required = true)
      (h : ∀ entry ∈ fields.toList, Candidate entry.2.ty) : Candidate (sealedRecord fields)

theorem candidate_of_isConcrete {ty : Ty} (h : ty.isConcrete Singleton.isProper = true) :
    Candidate ty := by
  refine concrete_induction (fun s hs => .value hs) (fun members ih => .tuple ih) ?_ h
  intro fields ih
  exact .record (fun entry hentry => (ih entry hentry).1) fun entry hentry => (ih entry hentry).2

theorem narrowedList_eq_map (tys : List Ty) : narrowedList tys = tys.map narrowed := by
  induction tys with
  | nil => rfl
  | cons ty tys ih => rw [narrowedList, ih, List.map_cons]

theorem forall_mem_narrowedOption {rest : Option Ty} {good : Ty → Prop} :
    (∀ ty ∈ narrowedOption rest, good ty) ↔ ∀ ty ∈ rest, good ty.narrowed := by
  cases rest <;> simp [narrowedOption]

theorem toList_narrowedFields {bound : Option String} : (fields : Fields bound) →
    (narrowedFields fields).toList
      = fields.toList.map fun entry => (entry.1, ⟨entry.2.ty.narrowed, entry.2.required⟩)
  | .nil => rfl
  | .cons name above ty required tail => by
    rw [narrowedFields, Fields.toList, toList_narrowedFields tail]
    rfl

/-- **Narrowing takes a candidate to a concrete type.** -/
theorem Candidate.isConcrete_narrowed {ty : Ty} (h : Candidate ty) :
    ty.narrowed.isConcrete Singleton.isProper = true := by
  induction h with
  | value hs => exact hs
  | @readings members hne hall =>
    cases members with
    | nil => exact absurd rfl hne
    | cons ty members =>
      -- narrowing takes the first reading
      obtain ⟨s, hs, rfl⟩ := hall ty List.mem_cons_self
      exact hs
  | @tuple members _ ih =>
    rw [narrowed, narrowedOption, narrowedList_eq_map, isConcrete_tuple]
    intro ty hty
    obtain ⟨member, hmem, rfl⟩ := List.mem_map.mp hty
    exact ih member hmem
  | @record fields hreq _ ih =>
    refine isConcrete_sealedRecord.mpr fun entry hentry => ?_
    rw [toList_narrowedFields] at hentry
    obtain ⟨field, hmem, rfl⟩ := List.mem_map.mp hentry
    exact ⟨hreq field hmem, ih field hmem⟩

end Ty

end ConstNarrow
