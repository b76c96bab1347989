/-
**Laws of assignability.**

Assignability walks over the source inside of a walk over the target. Its laws take the two walks
apart. On the side of the source, names are looked through, a union stands for all its members, and a
finite type for all its values; this holds for every target. On the side of the target there is one
rule for each way to build a type, with sources as validation and defaults make them.

What makes the laws less than obvious is the shortcut by which a type is assignable to itself. It is
taken before a source is taken apart, so a union that is the target has to be shown to have members
that are assignable.
-/
import Mathlib.Data.List.Nodup
import ConstNarrow.Proofs.Sameness

set_option autoImplicit false

namespace ConstNarrow

theorem Fields.contains_of_mem_toList {bound : Option String} {fields : Fields bound}
    {field : String × Field} (h : field ∈ fields.toList) : fields.contains field.1 = true :=
  (contains_iff_mem_names fields field.1).mpr (List.mem_map_of_mem h)

/-! ## Sameness of values -/

theorem Decimal.same_comm (a b : Decimal) : a.same b = b.same a := by
  have hcompare : ∀ i j : Int, (compare i j == .eq) = (compare j i == .eq) := by
    intro i j
    rw [Bool.eq_iff_iff, beq_iff_eq, beq_iff_eq, Std.compare_eq_iff_eq, Std.compare_eq_iff_eq]
    exact eq_comm
  unfold same order
  by_cases hsign : a.coefficient.sign = b.coefficient.sign
  · have hzero : a.isZero = b.isZero := by
      rw [Bool.eq_iff_iff, isZero, isZero, beq_iff_eq, beq_iff_eq, ← Int.sign_eq_zero_iff_zero, hsign,
        Int.sign_eq_zero_iff_zero]
    simp only [hsign, hzero, Int.max_comm a.scale, ne_eq, not_true_eq_false, false_or]
    split
    · rfl
    · exact hcompare _ _
  · rw [if_pos (Or.inl hsign), if_pos (Or.inl (Ne.symm hsign))]
    exact hcompare _ _

theorem Scalar.same_comm (a b : Scalar) : a.same b = b.same a := by
  cases a <;> cases b <;> simp [same, Bool.beq_comm, Binary64.same_comm, Decimal.same_comm]

theorem Singleton.sameValue_of_same {s t : Singleton} (h : s.same t = true) :
    t.sameValue s = true := by
  obtain ⟨hvalue, hbase⟩ := Bool.and_eq_true_iff.mp h
  rw [beq_iff_eq] at hbase
  rw [sameValue, hbase, beq_self_eq_true, Bool.and_true]
  exact (Scalar.same_comm t.value s.value).trans hvalue

namespace Ty

/-! ## Values as sources -/

/-- A value that belongs to a type is assignable to it. -/
theorem accepts_singleton : (ty : Ty) → {s : Singleton} → ty.admits s = true →
    ty.accepts (singleton s) = true
  | .reference _ referred, _, h => accepts_singleton referred h
  | .intersection inner, _, h => accepts_singleton inner h
  | .error, _, _ => rfl
  | .anydata, _, _ => by simp [accepts, singleton, everyAlternative]
  | .json, _, _ => by simp [accepts, singleton, everyAlternative]
  | .primitive _, _, h | .finite _, _, h | .union _, _, h => by
    simp only [admits] at h
    simp [accepts, singleton, everyAlternative, h]

theorem admitsAny_iff {members : List Ty} {s : Singleton} :
    admitsAny members s = true ↔ ∃ ty ∈ members, ty.admits s = true := by
  induction members with
  | nil => simp [admitsAny]
  | cons ty tys ih => simp [admitsAny, ih]

theorem acceptsAny_iff {members : List Ty} {source : Ty} :
    acceptsAny members source = true ↔ ∃ ty ∈ members, ty.accepts source = true := by
  induction members with
  | nil => simp [acceptsAny]
  | cons ty tys ih => simp [acceptsAny, ih]

/-- **A finite type is assignable if all its values belong to the target.** -/
theorem accepts_finite_iff {values : List Singleton} : (ty : Ty) →
    (ty.accepts (.finite values) = true ↔ ∀ s ∈ values, ty.admits s = true)
  | .reference _ referred => accepts_finite_iff referred
  | .intersection inner => accepts_finite_iff inner
  | .error => by simp [accepts, admits]
  | .anydata | .json => by simp [accepts, everyAlternative, admits]
  | .finite others => by
    simp only [accepts, everyAlternative, admits, Bool.or_eq_true, List.all_eq_true]
    refine ⟨fun h s hs => ?_, Or.inr⟩
    rcases h with h | h
    · obtain ⟨t, ht, hsame⟩ := exists_of_mem_right (beq_values_iff.mp h).flip hs
      exact List.any_eq_true.mpr ⟨t, ht, Singleton.sameValue_of_same hsame⟩
    · exact h s hs
  | .primitive _ | .union _ | .array _ _ | .tuple _ _ | .record _ _ _ | .map _ | .table => by
    simp only [accepts, everyAlternative, admits, Bool.or_eq_true, List.all_eq_true]
    exact or_iff_right Bool.false_ne_true

/-! ## Names and unions as sources -/

@[simp] theorem accepts_error : (ty : Ty) → ty.accepts .error = true
  | .reference _ referred => accepts_error referred
  | .intersection inner => accepts_error inner
  | .primitive _ | .array _ _ | .tuple _ _ | .record _ _ _ | .map _ | .table | .anydata | .json
  | .union _ | .finite _ | .error => rfl

@[simp] theorem accepts_reference {name : String} {source : Ty} :
    (ty : Ty) → ty.accepts (.reference name source) = ty.accepts source
  | .reference _ referred => accepts_reference referred
  | .intersection inner => accepts_reference inner
  | .primitive _ | .array _ _ | .tuple _ _ | .record _ _ _ | .map _ | .table | .anydata | .json
  | .union _ | .finite _ | .error => rfl

@[simp] theorem accepts_intersection {source : Ty} :
    (ty : Ty) → ty.accepts (.intersection source) = ty.accepts source
  | .reference _ referred => accepts_intersection referred
  | .intersection inner => accepts_intersection inner
  | .primitive _ | .array _ _ | .tuple _ _ | .record _ _ _ | .map _ | .table | .anydata | .json
  | .union _ | .finite _ | .error => rfl

/-- A type is assignable to whatever is the same. -/
theorem accepts_of_same : (ty : Ty) → {source : Ty} → source.same ty = true →
    ty.accepts source = true
  | .reference _ referred, .reference _ _, h => by
    rw [accepts_reference]
    exact accepts_of_same referred (Bool.and_eq_true_iff.mp h).2
  | .intersection inner, .intersection _, h => by
    rw [accepts_intersection]
    exact accepts_of_same inner h
  | .error, _, _ | .table, .table, _ | .anydata, .anydata, _ | .json, .json, _ => rfl
  | .primitive _, .primitive _, h | .array _ _, .array _ _, h | .tuple _ _, .tuple _ _, h
  | .record _ _ _, .record _ _ _, h | .map _, .map _, h | .union _, .union _, h
  | .finite _, .finite _, h => Bool.or_eq_true_iff.mpr (Or.inl h)

theorem everyMember_iff {members : List Ty} {target : Ty} {value : Singleton → Bool}
    {shape : Ty → Bool} : everyMember members target value shape = true ↔
      ∀ ty ∈ members, ty.everyAlternative target value shape = true := by
  induction members with
  | nil => simp [everyMember]
  | cons ty tys ih => simp [everyMember, ih]

/-- That a source may go to a union by way of one member. -/
def Joins (source : Ty) : Prop :=
  ∀ members : List Ty, ∀ ty ∈ members, ty.accepts source = true →
    (Ty.union members).accepts source = true

/-- If a union is assignable then its members are, as far as they may go to a union by way of one
member: this is for a target that is a union itself and the same one. -/
theorem accepts_of_mem_union {members : List Ty} (hjoins : ∀ member ∈ members, member.Joins) :
    (ty : Ty) → ty.accepts (.union members) = true → ∀ member ∈ members, ty.accepts member = true
  | .reference _ referred, h => accepts_of_mem_union hjoins referred h
  | .intersection inner, h => accepts_of_mem_union hjoins inner h
  | .error, _ => fun _ _ => rfl
  | .union others, h => by
    intro member hmember
    rcases Bool.or_eq_true_iff.mp h with hsame | hall
    · obtain ⟨other, hother, heq⟩ := exists_of_mem_right (sameList_iff.mp hsame).flip hmember
      exact hjoins member hmember others other hother (accepts_of_same other heq)
    · exact everyMember_iff.mp hall member hmember
  | .primitive _, h | .array _ _, h | .tuple _ _, h | .record _ _ _, h | .map _, h | .table, h
  | .anydata, h | .json, h | .finite _, h => everyMember_iff.mp h

/-- **What is assignable to a member of a union is assignable to the union.** A source that is a
union may go to several members. -/
theorem joins (source : Ty) : source.Joins := by
  induction source using induction_parts with
  | error => exact fun _ _ _ _ => rfl
  | reference name referred ih =>
    intro members ty hmem h
    rw [accepts_reference] at h ⊢
    exact ih members ty hmem h
  | intersection inner ih =>
    intro members ty hmem h
    rw [accepts_intersection] at h ⊢
    exact ih members ty hmem h
  | union sources ih =>
    intro members ty hmem h
    refine Bool.or_eq_true_iff.mpr (Or.inr (everyMember_iff.mpr fun source hsource => ?_))
    exact ih source hsource members ty hmem (accepts_of_mem_union ih ty h source hsource)
  | finite values =>
    intro members ty hmem h
    rw [accepts_finite_iff] at h ⊢
    exact fun s hs => admitsAny_iff.mpr ⟨ty, hmem, h s hs⟩
  | primitive | array | tuple | record | map | table | anydata | json =>
    intro members ty hmem h
    have hany : acceptsAny members _ = true := acceptsAny_iff.mpr ⟨ty, hmem, h⟩
    simp [accepts, everyAlternative, hany]

/-- What is assignable is so in each of its members, if it is a union. -/
theorem accepts_of_mem_unionMembers {ty source member : Ty} (h : ty.accepts source = true)
    (hmem : member ∈ source.unionMembers) : ty.accepts member = true := by
  cases source with
  | union members => exact accepts_of_mem_union (fun member _ => joins member) ty h member hmem
  | _ => exact List.mem_singleton.mp hmem ▸ h

/-! ## Broad targets -/

@[simp] theorem anydata_accepts (source : Ty) : Ty.anydata.accepts source = true := by
  induction source using induction_parts with
  | union members ih => exact everyMember_iff.mpr ih
  | reference name referred ih => exact ih
  | intersection inner ih => exact ih
  | primitive | array | tuple | record | map | table | anydata | json | finite | error =>
    simp [accepts, everyAlternative]

/-- What can be written as JSON is assignable to it. -/
theorem json_accepts {source : Ty} (h : source.isJson = true) : Ty.json.accepts source = true := by
  induction source using induction_parts with
  | union members ih =>
    exact everyMember_iff.mpr fun ty hty => ih ty hty (isJsonList_iff.mp h ty hty)
  | reference name referred ih => exact ih h
  | intersection inner ih => exact ih h
  | primitive | array | tuple | record | map | table | anydata | json | finite | error =>
    simp [accepts, everyAlternative, h]

/-- Narrowing leaves only types that can be written as JSON. -/
theorem isJson_narrowed (ty : Ty) : ty.narrowed.isJson = true := by
  induction ty using induction_parts with
  | union members ih =>
    cases members with
    | nil => rfl
    | cons first members => exact ih first List.mem_cons_self
  | record fields rest isSealed ih ihrest =>
    rw [narrowed, isJson, Bool.and_eq_true, isJsonFields_iff, toList_narrowedFields,
      isJsonOption_iff]
    exact ⟨List.forall_mem_map.mpr ih, forall_mem_narrowedOption.mpr ihrest⟩
  | tuple members rest ih ihrest =>
    rw [narrowed, isJson, Bool.and_eq_true, isJsonList_iff, narrowedList_eq_map, isJsonOption_iff]
    exact ⟨List.forall_mem_map.mpr ih, forall_mem_narrowedOption.mpr ihrest⟩
  | array elem size ih => exact ih
  | reference name referred ih => exact ih
  | intersection inner ih => exact ih
  | primitive p =>
    rw [narrowed]
    split <;> rfl
  | map | table | anydata | json | finite | error => rfl

/-! ## Structures as targets -/

/-- A tuple of the right length is assignable to an array if its members are to the element type. -/
theorem array_accepts_tuple {elem : Ty} {size : ArraySize} {members : List Ty}
    (h : ∀ member ∈ members, elem.accepts member = true)
    (hsize : sizeAcceptsTuple size members none = true) :
    (Ty.array elem size).accepts (.tuple members none) = true := by
  have hall : members.all elem.accepts = true := List.all_eq_true.mpr h
  simp [accepts, everyAlternative, hsize, hall]

theorem acceptsEach_append {members firsts others : List Ty} {extra : Ty → Bool}
    (h : List.Forall₂ (fun member first => member.accepts first = true) members firsts)
    (hothers : ∀ other ∈ others, extra other = true) :
    acceptsEach members extra (firsts ++ others) = true := by
  induction h with
  | nil => exact List.all_eq_true.mpr hothers
  | cons hfirst _ ih =>
    rw [List.cons_append, acceptsEach, hfirst, ih]
    rfl

/-- A tuple is assignable to another one if its members are to those of the other, and all further
ones to the rest type. -/
theorem tuple_accepts_tuple {members firsts others : List Ty} {rest : Option Ty}
    (h : List.Forall₂ (fun member first => member.accepts first = true) members firsts)
    (hothers : ∀ other ∈ others, ∃ ty ∈ rest, ty.accepts other = true) :
    (Ty.tuple members rest).accepts (.tuple (firsts ++ others) none) = true := by
  have heach : acceptsEach members (acceptsOption false rest) (firsts ++ others) = true := by
    refine acceptsEach_append h fun other hother => ?_
    obtain ⟨ty, hty, haccepts⟩ := hothers other hother
    rw [Option.mem_def.mp hty]
    exact haccepts
  simp [accepts, everyAlternative, heach]

/-- A sealed record is assignable to a map if the types of its fields are to the constraint. -/
theorem map_accepts_sealedOf {constraint : Ty} {entries : List (String × Ty)}
    (h : ∀ entry ∈ entries, constraint.accepts entry.2 = true) :
    (Ty.map constraint).accepts (sealedOf entries) = true := by
  have hall : (Fields.ofList (entries.map fun entry => (entry.1, ⟨entry.2, true⟩))).toList.all
      (fun entry => constraint.accepts entry.2.ty) = true := by
    refine List.all_eq_true.mpr fun entry hentry => ?_
    obtain ⟨source, hmem, rfl⟩ := List.mem_map.mp (Fields.mem_of_mem_toList_ofList hentry)
    exact h source hmem
  simp [sealedOf, sealedRecord, accepts, everyAlternative, hall]

theorem acceptsFields_iff {bound : Option String} {source : Fields none} :
    (fields : Fields bound) → (acceptsFields fields source = true ↔
      ∀ entry ∈ fields.toList, match source.get? entry.1 with
        | some field => (entry.2.required = true → field.required = true)
            ∧ entry.2.ty.accepts field.ty = true
        | none => entry.2.required = false)
  | .nil => by simp [acceptsFields, Fields.toList]
  | .cons name above ty required tail => by
    rw [acceptsFields, Bool.and_eq_true, acceptsFields_iff tail, Fields.toList, List.forall_mem_cons]
    refine and_congr_left fun _ => ?_
    cases source.get? name with
    | none => simp
    | some field => cases required <;> simp

section Record

variable {fields : Fields none} {rest : Option Ty} {isSealed : Bool}

/-- A sealed record is assignable to another record if its fields fill those that are required, and
every field of it has a place. -/
theorem record_accepts_sealedOf {entries : List (String × Ty)} (hnodup : (entries.map Prod.fst).Nodup)
    (hfilled : ∀ field ∈ fields.toList,
      (∃ ty, (field.1, ty) ∈ entries ∧ field.2.ty.accepts ty = true)
      ∨ (field.1 ∉ entries.map Prod.fst ∧ field.2.required = false))
    (hplaced : ∀ entry ∈ entries,
      fields.contains entry.1 = true ∨ acceptsOption (!isSealed) rest entry.2 = true) :
    (Ty.record fields rest isSealed).accepts (sealedOf entries) = true := by
  have hfields : acceptsFields fields
      (Fields.ofList (entries.map fun entry => (entry.1, ⟨entry.2, true⟩))) = true := by
    refine (acceptsFields_iff fields).mpr fun field hfield => ?_
    rcases hfilled field hfield with ⟨ty, hmem, haccepts⟩ | ⟨hnot, hopt⟩
    · rw [Fields.get?_ofList_required hnodup hmem]
      exact ⟨fun _ => rfl, haccepts⟩
    · rw [Fields.get?_ofList_required_of_not_mem hnot]
      exact hopt
  have hall : (Fields.ofList (entries.map fun entry => (entry.1, ⟨entry.2, true⟩))).toList.all
      (fun entry => fields.contains entry.1 || acceptsOption (!isSealed) rest entry.2.ty) = true := by
    refine List.all_eq_true.mpr fun entry hentry => ?_
    obtain ⟨source, hmem, rfl⟩ := List.mem_map.mp (Fields.mem_of_mem_toList_ofList hentry)
    exact Bool.or_eq_true_iff.mpr (hplaced source hmem)
  simp [sealedOf, sealedRecord, accepts, everyAlternative, hfields, hall]

/-- It is enough that the required fields are filled. -/
theorem record_accepts_required {entries : List (String × Ty)}
    (h : List.Forall₂ (fun field entry => entry.1 = field.1 ∧ field.2.ty.accepts entry.2 = true)
      (fields.toList.filter (·.2.required)) entries) :
    (Ty.record fields rest isSealed).accepts (sealedOf entries) = true := by
  have hnames := map_fst_of_forall₂ h
  have hnodup : (fields.toList.map Prod.fst).Nodup := Fields.nodup_names fields
  refine record_accepts_sealedOf ?_ (fun field hfield => ?_) fun entry hentry => Or.inl ?_
  · rw [hnames]
    exact hnodup.sublist (List.filter_sublist.map _)
  · by_cases hreq : field.2.required = true
    · have hmem : field ∈ fields.toList.filter (·.2.required) := List.mem_filter.mpr ⟨hfield, hreq⟩
      obtain ⟨⟨name, value⟩, hentry, hname, haccepts⟩ := exists_of_mem_right h.flip hmem
      cases hname
      exact Or.inl ⟨value, hentry, haccepts⟩
    · refine Or.inr ⟨fun hmem => ?_, by simpa using hreq⟩
      -- the names of fields are different, so no required field has the name of an optional one
      rw [hnames] at hmem
      obtain ⟨other, hother, heq⟩ := List.mem_map.mp hmem
      obtain ⟨hin, hreq'⟩ := List.mem_filter.mp hother
      have : other = field := List.inj_on_of_nodup_map hnodup hin hfield heq
      exact hreq (this ▸ hreq')
  · obtain ⟨field, hfield, hname, -⟩ := exists_of_mem_right h hentry
    rw [hname]
    exact Fields.contains_of_mem_toList (List.mem_of_mem_filter hfield)

/-- Fields under the names of a record, followed by others that it has a place for. -/
theorem record_accepts_append {declared further : List (String × Ty)}
    (hdeclared : List.Forall₂
      (fun field entry => entry.1 = field.1 ∧ field.2.ty.accepts entry.2 = true) fields.toList
      declared)
    (hnodup : (further.map Prod.fst).Nodup)
    (hfurther : ∀ entry ∈ further, fields.contains entry.1 = false
      ∧ ((rest = none ∧ isSealed = false) ∨ ∃ ty ∈ rest, ty.accepts entry.2 = true)) :
    (Ty.record fields rest isSealed).accepts (sealedOf (declared ++ further)) = true := by
  have hnames : declared.map Prod.fst = fields.names := map_fst_of_forall₂ hdeclared
  refine record_accepts_sealedOf ?_ (fun field hfield => Or.inl ?_) fun entry hentry => ?_
  · rw [List.map_append, hnames]
    refine List.Nodup.append (Fields.nodup_names fields) hnodup fun name hname hmem => ?_
    obtain ⟨entry, hentry, rfl⟩ := List.mem_map.mp hmem
    have hcontains := (Fields.contains_iff_mem_names fields entry.1).mpr hname
    rw [(hfurther entry hentry).1] at hcontains
    cases hcontains
  · obtain ⟨⟨name, ty⟩, hentry, hname, haccepts⟩ := exists_of_mem_right hdeclared.flip hfield
    cases hname
    exact ⟨ty, List.mem_append_left _ hentry, haccepts⟩
  · rcases List.mem_append.mp hentry with hentry | hentry
    · obtain ⟨field, hfield, hname, -⟩ := exists_of_mem_right hdeclared hentry
      rw [hname]
      exact Or.inl (Fields.contains_of_mem_toList hfield)
    · rcases (hfurther entry hentry).2 with ⟨rfl, rfl⟩ | ⟨ty, hty, haccepts⟩
      · exact Or.inr rfl
      · rw [Option.mem_def.mp hty]
        exact Or.inr haccepts

end Record

/-! ## Defaults -/

theorem containsNilAny_iff {members : List Ty} :
    containsNilAny members = true ↔ ∃ ty ∈ members, ty.containsNil = true := by
  induction members with
  | nil => simp [containsNilAny]
  | cons ty tys ih => simp [containsNilAny, ih]

section Results

variable {ε α β : Type} {x : Except ε α} {b : β}

theorem exists_of_map_ok {f : α → β} (h : x.map f = .ok b) : ∃ a, x = .ok a ∧ f a = b := by
  cases x with
  | error e => cases h
  | ok a =>
    cases h
    exact ⟨a, rfl, rfl⟩

theorem exists_of_bind_ok {f : α → Except ε β} (h : x.bind f = .ok b) :
    ∃ a, x = .ok a ∧ f a = .ok b := by
  cases x with
  | error e => cases h
  | ok a => exact ⟨a, rfl, h⟩

end Results

theorem forall₂_of_defaultList : {tys ds : List Ty} → defaultList tys = .ok ds →
    List.Forall₂ (fun ty d => ty.default = .ok d) tys ds
  | [], ds, h => by
    cases h
    exact .nil
  | ty :: tys, ds, h => by
    obtain ⟨d, hd, htail⟩ := exists_of_bind_ok h
    obtain ⟨rest, hds, rfl⟩ := exists_of_map_ok htail
    exact .cons hd (forall₂_of_defaultList hds)

/-- The defaults of fields are those of the required ones, under their names. -/
theorem forall₂_of_defaultFields {bound : Option String} : (fields : Fields bound) →
    {entries : List (String × Ty)} → defaultFields fields = .ok entries →
    List.Forall₂ (fun field entry => entry.1 = field.1 ∧ field.2.ty.default = .ok entry.2)
      (fields.toList.filter (·.2.required)) entries
  | .nil, entries, h => by
    cases h
    exact .nil
  | .cons name above ty required tail, entries, h => by
    rw [defaultFields] at h
    cases required with
    | false => exact forall₂_of_defaultFields tail h
    | true =>
      rw [if_pos rfl] at h
      obtain ⟨d, hd, htail⟩ := exists_of_bind_ok h
      obtain ⟨rest, hds, rfl⟩ := exists_of_map_ok htail
      exact .cons ⟨rfl, hd⟩ (forall₂_of_defaultFields tail hds)

/-- **Induction over the ways in which a type has a default.** Where a type is ambiguous, the default
is nil. -/
theorem default_induction {motive : (ty value : Ty) → Prop}
    (primitive : ∀ p : Primitive, motive (.primitive p) (singleton p.default))
    (array : ∀ elem size members, (∀ member ∈ members, motive elem member) →
      sizeAcceptsTuple size members none = true → motive (.array elem size) (.tuple members none))
    (tuple : ∀ members rest values, List.Forall₂ motive members values →
      motive (.tuple members rest) (.tuple values none))
    (record : ∀ (fields : Fields none) rest isSealed entries,
      List.Forall₂ (fun field entry => entry.1 = field.1 ∧ motive field.2.ty entry.2)
        (fields.toList.filter (·.2.required)) entries →
      motive (.record fields rest isSealed) (sealedOf entries))
    (map : ∀ constraint, motive (.map constraint) (sealedOf [])) (table : motive .table .table)
    (nil : ∀ ty, ty.containsNil = true → motive ty (singleton .nil))
    (value : ∀ s, motive (.finite [s]) (singleton s))
    (union : ∀ ty value, motive ty value → motive (.union [ty]) value)
    (reference : ∀ name ty value, motive ty value → motive (.reference name ty) value)
    (intersection : ∀ ty value, motive ty value → motive (.intersection ty) value)
    (error : motive .error .error) {ty d : Ty} (h : ty.default = .ok d) : motive ty d := by
  induction ty using induction_parts generalizing d with
  | array elem size ih =>
    -- an unbounded array and one of size zero have the empty default
    have hempty : ∀ size, sizeAcceptsTuple size [] none = true →
        motive (.array elem size) emptyTuple := fun size hsize =>
      array elem size [] (fun _ hmem => (by cases hmem)) hsize
    rw [default.eq_def] at h
    dsimp only at h
    split at h
    · cases h
      exact hempty _ rfl
    · cases h
    · cases h
      exact hempty _ rfl
    · obtain ⟨member, hd, rfl⟩ := exists_of_map_ok h
      -- a fixed size is filled with the default of the element
      refine array elem _ _ (fun ty hty => ?_) (by simp [sizeAcceptsTuple])
      rw [List.eq_of_mem_replicate hty]
      exact ih hd
  | tuple members rest ih _ =>
    obtain ⟨ds, hds, rfl⟩ := exists_of_map_ok h
    refine tuple members rest ds ?_
    exact forall₂_of_mem (forall₂_of_defaultList hds) fun member hmem d hd => ih member hmem hd
  | record fields rest isSealed ih _ =>
    obtain ⟨entries, hds, rfl⟩ := exists_of_map_ok h
    refine record fields rest isSealed entries ?_
    refine forall₂_of_mem (forall₂_of_defaultFields fields hds) fun field hfield entry hentry => ?_
    exact ⟨hentry.1, ih field (List.mem_of_mem_filter hfield) hentry.2⟩
  | union members ih =>
    rw [default.eq_def] at h
    dsimp only at h
    split at h
    · exact union _ _ (ih _ List.mem_cons_self h)
    · split at h
      · rename_i hnil
        cases h
        exact nil _ hnil
      · cases h
  | finite values =>
    rw [default.eq_def] at h
    dsimp only at h
    split at h
    · cases h
      exact value _
    · split at h
      · rename_i hnil
        cases h
        exact nil _ hnil
      · cases h
  | reference name referred ih => exact reference _ _ _ (ih h)
  | intersection inner ih => exact intersection _ _ (ih h)
  | anydata | json =>
    cases h
    exact nil _ rfl
  | primitive p =>
    cases h
    exact primitive p
  | map constraint _ =>
    cases h
    exact map constraint
  | table =>
    cases h
    exact table
  | error =>
    cases h
    exact error

/-- Whether the values of a type, apart from its parts, stand under their own primitives. -/
def holdsProper : Ty → Bool
  | .finite values => values.all Singleton.isProper
  | _ => true

/-- Where nil is found it belongs. -/
theorem admits_nil {ty : Ty} (hty : ty.everywhere holdsProper = true)
    (h : ty.containsNil = true) : ty.admits .nil = true := by
  induction ty using induction_parts with
  | primitive p =>
    cases p with
    | nil => rfl
    | boolean | int | byte | float | decimal | string => cases h
  | finite values =>
    have hproper : values.all Singleton.isProper = true := everywhere_self hty
    obtain ⟨s, hs, hbase⟩ := List.any_eq_true.mp h
    refine List.any_eq_true.mpr ⟨s, hs, ?_⟩
    exact Singleton.sameValue_nil (List.all_eq_true.mp hproper s hs) (eq_of_beq hbase)
  | union members ih =>
    obtain ⟨ty, hmem, hnil⟩ := containsNilAny_iff.mp h
    exact admitsAny_iff.mpr ⟨ty, hmem, ih ty hmem ((everywhere_union.mp hty).2 ty hmem) hnil⟩
  | reference name referred ih => exact ih (everywhere_reference.mp hty).2 h
  | intersection inner ih => exact ih (everywhere_intersection.mp hty).2 h
  | anydata | json => rfl
  | array | tuple | record | map | table | error => cases h

/-- **The default of a type is assignable to it.** -/
theorem accepts_default {ty d : Ty} (hty : ty.everywhere holdsProper = true)
    (h : ty.default = .ok d) : ty.accepts d = true := by
  refine default_induction
    (motive := fun ty d => ty.everywhere holdsProper = true → ty.accepts d = true)
    ?primitive ?array ?tuple ?record ?map ?table ?nil ?value ?union ?reference ?intersection ?error
    h hty
  case primitive => exact fun p _ => accepts_singleton _ (Singleton.fits_default p)
  case array =>
    intro elem size members ih hsize hty
    exact array_accepts_tuple (fun member hmem => ih member hmem (everywhere_array.mp hty).2) hsize
  case tuple =>
    intro members rest values ih hty
    have hall := forall₂_of_mem ih fun member hmem value haccepts =>
      haccepts ((everywhere_tuple.mp hty).2.1 member hmem)
    have hnone : ∀ other ∈ ([] : List Ty), ∃ ty ∈ rest, ty.accepts other = true := by simp
    simpa using tuple_accepts_tuple hall hnone
  case record =>
    intro fields rest isSealed entries ih hty
    refine record_accepts_required (forall₂_of_mem ih fun field hfield entry hentry => ?_)
    refine ⟨hentry.1, hentry.2 ?_⟩
    exact (everywhere_record.mp hty).2.1 field (List.mem_of_mem_filter hfield)
  case map => exact fun _ _ => map_accepts_sealedOf fun _ hentry => (by cases hentry)
  case nil => exact fun ty hnil hty => accepts_singleton ty (admits_nil hty hnil)
  case value =>
    refine fun s _ => accepts_singleton _ ?_
    exact List.any_eq_true.mpr ⟨s, List.mem_cons_self, Singleton.sameValue_self s⟩
  case union =>
    intro ty value ih hty
    refine joins value [ty] ty List.mem_cons_self (ih ?_)
    exact (everywhere_union.mp hty).2 ty List.mem_cons_self
  case reference => exact fun _ _ _ ih hty => ih (everywhere_reference.mp hty).2
  case intersection => exact fun _ _ ih hty => ih (everywhere_intersection.mp hty).2
  case table => exact fun _ => rfl
  case error => exact fun _ => rfl

end Ty

end ConstNarrow
