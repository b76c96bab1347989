/-
**Aliases are transparent**: a name for a type may be written out, at any depth and on either side,
and the same types are assignable to each other.

Assignability looks through a name where it meets one, but it also compares two types as they are
built, and there a name counts: `same` tells a type from its name. What makes names transparent all
the same is that this comparison never decides. Wherever two types are built alike the rules below
hold too, so each form of source and target has one rule in which nothing but the parts is compared.
-/
import ConstNarrow.Proofs.Ambiguity

set_option autoImplicit false

namespace ConstNarrow.Ty

/-! ## Rules without the comparison of whole types -/

section Rules

variable {source target elem other : Ty} {members sources : List Ty} {rest sourceRest : Option Ty}

/-- A union is assignable if all its members are. -/
theorem accepts_union_iff :
    target.accepts (.union sources) = true ↔ ∀ ty ∈ sources, target.accepts ty = true := by
  refine ⟨accepts_of_mem_union (fun ty _ => joins ty) target, fun h => ?_⟩
  induction target using induction_parts with
  | reference name referred ih => exact ih h
  | intersection inner ih => exact ih h
  | error => rfl
  | primitive | array | tuple | record | map | table | anydata | json | union | finite =>
    rw [accepts, everyAlternative, Bool.or_eq_true, everyMember_iff]
    exact Or.inr h

/-- A source with a shape is assignable to a union by way of one member. -/
theorem union_accepts_iff (hsource : source.isShaped = true) :
    (Ty.union members).accepts source = true ↔ ∃ ty ∈ members, ty.accepts source = true := by
  refine ⟨fun h => ?_, fun ⟨ty, hty, h⟩ => joins source members ty hty h⟩
  rw [accepts, everyAlternative_of_isShaped hsource, Bool.or_eq_true] at h
  rcases h with hsame | hany
  · cases source <;> first | cases hsame | cases hsource
  · exact acceptsAny_iff.mp hany

theorem json_accepts_iff (hsource : source.isShaped = true) :
    Ty.json.accepts source = true ↔ source.isJson = true := by
  refine ⟨fun h => ?_, json_accepts⟩
  rw [accepts, everyAlternative_of_isShaped hsource, Bool.or_eq_true] at h
  rcases h with hsame | hjson
  · cases source <;> first | rfl | cases hsame
  · exact hjson

theorem array_accepts_array_iff {size sourceSize : ArraySize} :
    (Ty.array elem size).accepts (.array other sourceSize) = true ↔
      sizeAccepts size sourceSize = true ∧ elem.accepts other = true := by
  rw [accepts, everyAlternative_of_isShaped rfl, Bool.or_eq_true, Bool.and_eq_true]
  -- types that are the same have sizes and elements that fit, so the first way is the second
  refine or_iff_right_of_imp fun hsame => ?_
  obtain ⟨helem, hsize⟩ := Bool.and_eq_true_iff.mp hsame
  cases eq_of_beq hsize
  exact ⟨by cases size <;> simp [sizeAccepts], accepts_of_same elem helem⟩

/-- A tuple is assignable to an array if its number of members fits, and each of them. -/
theorem array_accepts_tuple_iff {size : ArraySize} :
    (Ty.array elem size).accepts (.tuple sources sourceRest) = true ↔
      sizeAcceptsTuple size sources sourceRest = true ∧ (∀ ty ∈ sources, elem.accepts ty = true)
        ∧ ∀ ty ∈ sourceRest, elem.accepts ty = true := by
  rw [accepts, everyAlternative_of_isShaped rfl, Bool.or_eq_true,
    or_iff_right (by exact Bool.false_ne_true)]
  simp only [Bool.and_eq_true, List.all_eq_true, Option.all_eq_true, Option.mem_def, and_assoc]

/-- Only a tuple without members of its own takes any number of members. -/
theorem tuple_accepts_array_iff {size : ArraySize} :
    (Ty.tuple members rest).accepts (.array other size) = true ↔
      members.isEmpty = true ∧ ∃ ty ∈ rest, ty.accepts other = true := by
  rw [accepts, everyAlternative_of_isShaped rfl, Bool.or_eq_true,
    or_iff_right (by exact Bool.false_ne_true), Bool.and_eq_true, acceptsOption_iff]
  simp

theorem map_accepts_map_iff :
    (Ty.map elem).accepts (.map other) = true ↔ elem.accepts other = true := by
  rw [accepts, everyAlternative_of_isShaped rfl, Bool.or_eq_true]
  exact or_iff_right_of_imp fun hsame => accepts_of_same elem hsame

/-- A record is assignable to a map if each of its fields is, and if it is known what else it may
hold. -/
theorem map_accepts_record_iff {fields : Fields none} {isSealed : Bool} :
    (Ty.map elem).accepts (.record fields rest isSealed) = true ↔
      (∀ entry ∈ fields.toList, elem.accepts entry.2.ty = true)
        ∧ (∀ ty ∈ rest, elem.accepts ty = true) ∧ (isSealed || rest.isSome) = true := by
  rw [accepts, everyAlternative_of_isShaped rfl, Bool.or_eq_true,
    or_iff_right (by exact Bool.false_ne_true)]
  simp only [Bool.and_eq_true, List.all_eq_true, Option.all_eq_true, Option.mem_def, and_assoc]

end Rules

/-! ## Names written out -/

mutual

/-- The type with every name in it replaced by what the name stands for. -/
def erased : Ty → Ty
  | .array elem size => .array elem.erased size
  | .tuple members rest => .tuple (erasedList members) (erasedOption rest)
  | .record fields rest isSealed => .record (erasedFields fields) (erasedOption rest) isSealed
  | .map constraint => .map constraint.erased
  | .union members => .union (erasedList members)
  | .reference _ referred => referred.erased
  | .intersection inner => inner.erased
  | .primitive p => .primitive p
  | .finite values => .finite values
  | .table => .table
  | .anydata => .anydata
  | .json => .json
  | .error => .error
termination_by structural ty => ty

/-- The types of a list with the names in them replaced. -/
def erasedList : List Ty → List Ty
  | [] => []
  | ty :: tys => ty.erased :: erasedList tys
termination_by structural tys => tys

/-- A type that may be missing, with the names in it replaced. -/
def erasedOption : Option Ty → Option Ty
  | none => none
  | some ty => some ty.erased
termination_by structural ty => ty

/-- Fields with the names in their types replaced. -/
def erasedFields : {bound : Option String} → Fields bound → Fields bound
  | _, .nil => .nil
  | _, .cons name above ty required tail => .cons name above ty.erased required (erasedFields tail)
termination_by structural _ fields => fields

end

attribute [simp] erased erasedList erasedOption erasedFields

theorem erasedList_eq_map (tys : List Ty) : erasedList tys = tys.map erased := by
  induction tys with
  | nil => rfl
  | cons ty tys ih => rw [erasedList, ih, List.map_cons]

theorem forall_mem_erasedOption {rest : Option Ty} {good : Ty → Prop} :
    (∀ ty ∈ erasedOption rest, good ty) ↔ ∀ ty ∈ rest, good ty.erased := by
  cases rest <;> simp

theorem exists_mem_erasedOption {rest : Option Ty} {good : Ty → Prop} :
    (∃ ty ∈ erasedOption rest, good ty) ↔ ∃ ty ∈ rest, good ty.erased := by
  cases rest <;> simp

theorem toList_erasedFields {bound : Option String} : (fields : Fields bound) →
    (erasedFields fields).toList
      = fields.toList.map fun entry => (entry.1, ⟨entry.2.ty.erased, entry.2.required⟩)
  | .nil => rfl
  | .cons _ _ _ _ tail => by
    rw [erasedFields, Fields.toList, toList_erasedFields tail, Fields.toList, List.map_cons]

theorem get?_erasedFields {bound : Option String} : (fields : Fields bound) → (name : String) →
    (erasedFields fields).get? name
      = (fields.get? name).map fun field => ⟨field.ty.erased, field.required⟩
  | .nil, _ => rfl
  | .cons key above ty required tail, name => by
    rw [erasedFields, Fields.get?, Fields.get?, get?_erasedFields tail name]
    split <;> rfl

theorem get?_erasedFields_eq_some {fields : Fields none} {name : String} {field : Field} :
    (erasedFields fields).get? name = some field ↔
      ∃ own, fields.get? name = some own ∧ ⟨own.ty.erased, own.required⟩ = field := by
  rw [get?_erasedFields, Option.map_eq_some_iff]

theorem get?_erasedFields_eq_none {fields : Fields none} {name : String} :
    (erasedFields fields).get? name = none ↔ fields.get? name = none := by
  rw [get?_erasedFields, Option.map_eq_none_iff]

theorem isShaped_erased {ty : Ty} (h : ty.isShaped = true) : ty.erased.isShaped = true := by
  cases ty <;> first | rfl | cases h

/-- The same values belong to a type. -/
theorem admits_erased (ty : Ty) (s : Singleton) : ty.erased.admits s = ty.admits s := by
  induction ty using induction_parts with
  | union members ih =>
    rw [Bool.eq_iff_iff, erased, admits, admits, admitsAny_iff, admitsAny_iff, erasedList_eq_map]
    simp only [List.mem_map, exists_exists_and_eq_and]
    exact exists_congr fun ty => and_congr_right fun hty => by rw [ih ty hty]
  | reference name referred ih => exact ih
  | intersection inner ih => exact ih
  | primitive | array | tuple | record | map | table | anydata | json | finite | error => rfl

theorem isJson_erased (ty : Ty) : ty.erased.isJson = ty.isJson := by
  have hlist : ∀ tys : List Ty, (∀ ty ∈ tys, ty.erased.isJson = ty.isJson) →
      isJsonList (erasedList tys) = isJsonList tys := by
    intro tys h
    rw [Bool.eq_iff_iff, isJsonList_iff, isJsonList_iff, erasedList_eq_map, List.forall_mem_map]
    exact forall₂_congr fun ty hty => by rw [h ty hty]
  have hoption : ∀ rest : Option Ty, (∀ ty ∈ rest, ty.erased.isJson = ty.isJson) →
      isJsonOption (erasedOption rest) = isJsonOption rest := by
    intro rest h
    cases rest with
    | none => rfl
    | some ty => exact h ty rfl
  induction ty using induction_parts with
  | array elem size ih => exact ih
  | tuple members rest ih ihrest => rw [erased, isJson, isJson, hlist members ih, hoption rest ihrest]
  | record fields rest isSealed ih ihrest =>
    have hfields : isJsonFields (erasedFields fields) = isJsonFields fields := by
      rw [Bool.eq_iff_iff, isJsonFields_iff, isJsonFields_iff, toList_erasedFields, List.forall_mem_map]
      exact forall₂_congr fun entry hentry => by rw [ih entry hentry]
    rw [erased, isJson, isJson, hfields, hoption rest ihrest]
  | map constraint ih => exact ih
  | union members ih => exact hlist members ih
  | reference name referred ih => exact ih
  | intersection inner ih => exact ih
  | primitive | table | anydata | json | finite | error => rfl

/-! ## Transparency -/

/-- That a target takes the same sources whether or not the names on both sides are written out. -/
def Transparent (target : Ty) : Prop :=
  ∀ source : Ty, target.erased.accepts source.erased = true ↔ target.accepts source = true

/-- It is enough to look at sources that are compared as a whole: the walk over a source is the same
for every target. -/
theorem transparent_of_shaped {target : Ty} (h : ∀ source : Ty, source.isShaped = true →
    (target.erased.accepts source.erased = true ↔ target.accepts source = true)) :
    target.Transparent := by
  intro source
  induction source using induction_parts with
  | error => simp
  | reference name referred ih =>
    rw [accepts_reference]
    exact ih
  | intersection inner ih =>
    rw [accepts_intersection]
    exact ih
  | union sources ih =>
    rw [erased, accepts_union_iff, accepts_union_iff, erasedList_eq_map, List.forall_mem_map]
    exact forall₂_congr ih
  | finite values =>
    rw [erased, accepts_finite_iff, accepts_finite_iff]
    exact forall₂_congr fun s _ => by rw [admits_erased]
  | primitive | array | tuple | record | map | table | anydata | json => exact h _ rfl

section Structures

variable {members : List Ty} {rest : Option Ty}

theorem acceptsOption_erased (ih : ∀ ty ∈ rest, ty.Transparent) (default : Bool) (source : Ty) :
    acceptsOption default (erasedOption rest) source.erased = acceptsOption default rest source := by
  cases rest with
  | none => rfl
  | some ty => exact Bool.eq_iff_iff.mpr (ih ty rfl source)

theorem acceptsEach_erased (ih : ∀ ty ∈ members, ty.Transparent) (ihrest : ∀ ty ∈ rest, ty.Transparent)
    (sources : List Ty) :
    acceptsEach (erasedList members) (acceptsOption false (erasedOption rest)) (erasedList sources)
      = acceptsEach members (acceptsOption false rest) sources := by
  induction members generalizing sources with
  | nil =>
    rw [erasedList, acceptsEach, acceptsEach, erasedList_eq_map, List.all_map]
    exact congrArg sources.all (funext (acceptsOption_erased ihrest false))
  | cons member members ihmembers =>
    cases sources with
    | nil => rfl
    | cons source sources =>
      have hfirst := Bool.eq_iff_iff.mpr (ih member List.mem_cons_self source)
      rw [erasedList, erasedList, acceptsEach, acceptsEach, hfirst,
        ihmembers (fun ty hty => ih ty (List.mem_cons_of_mem _ hty))]

/-- An array is transparent if its element type is: sizes have no names in them. -/
theorem transparent_array {elem : Ty} (size : ArraySize) (ih : elem.Transparent) :
    (Ty.array elem size).Transparent := by
  refine transparent_of_shaped fun source hsource => ?_
  cases source with
  | array other sourceSize =>
    rw [erased, erased, array_accepts_array_iff, array_accepts_array_iff, ih other]
  | tuple sources sourceRest =>
    have hsize : sizeAcceptsTuple size (erasedList sources) (erasedOption sourceRest)
        = sizeAcceptsTuple size sources sourceRest := by
      cases size <;> cases sourceRest <;> simp [sizeAcceptsTuple, erasedList_eq_map]
    rw [erased, erased, array_accepts_tuple_iff, array_accepts_tuple_iff, hsize,
      forall_mem_erasedOption, erasedList_eq_map, List.forall_mem_map]
    simp only [ih _]
  | primitive | record | map | table | anydata | json => rfl
  | _ => cases hsource

theorem transparent_tuple (ih : ∀ ty ∈ members, ty.Transparent) (ihrest : ∀ ty ∈ rest, ty.Transparent) :
    (Ty.tuple members rest).Transparent := by
  have hrest : ∀ source : Ty, (∃ ty ∈ erasedOption rest, ty.accepts source.erased = true) ↔
      ∃ ty ∈ rest, ty.accepts source = true := by
    intro source
    rw [exists_mem_erasedOption]
    exact exists_congr fun ty => and_congr_right fun hty => ihrest ty hty source
  refine transparent_of_shaped fun source hsource => ?_
  cases source with
  | tuple sources sourceRest =>
    rw [erased, erased, tuple_accepts_iff, tuple_accepts_iff, acceptsEach_erased ih ihrest,
      forall_mem_erasedOption]
    simp only [hrest]
  | array other size =>
    have hempty : (erasedList members).isEmpty = members.isEmpty := by cases members <;> rfl
    rw [erased, erased, tuple_accepts_array_iff, tuple_accepts_array_iff, hempty, hrest]
  | primitive | record | map | table | anydata | json => rfl
  | _ => cases hsource

/-- The same fields fill a record: writing names out changes no field's name, nor whether it is
required. -/
theorem fills_erased_iff {sources fields : Fields none} {sourceRest : Option Ty} {isSealed : Bool}
    (ih : ∀ entry ∈ fields.toList, entry.2.ty.Transparent) (ihrest : ∀ ty ∈ rest, ty.Transparent) :
    Fills (erasedFields sources) (erasedOption sourceRest) (erasedFields fields) (erasedOption rest)
      isSealed ↔ Fills sources sourceRest fields rest isSealed := by
  -- erasing keeps which names there are, so that each clause carries over by itself
  have hfield : ∀ {name : String} {field : Field}, fields.get? name = some field →
      field.ty.Transparent := fun h => ih _ (Fields.mem_toList_of_get? fields h)
  have hrest := acceptsOption_erased ihrest (!isSealed)
  constructor
  · intro h
    refine ⟨fun name field hown hnone => ?_, fun name field source hown hsource => ?_,
      fun name source hsource hnone => ?_, fun ty hty => ?_⟩
    · have hmissing := h.missing name _ (get?_erasedFields_eq_some.mpr ⟨field, hown, rfl⟩)
        (get?_erasedFields_eq_none.mpr hnone)
      exact hmissing
    · obtain ⟨hrequired, haccepts⟩ := h.present name _ _
        (get?_erasedFields_eq_some.mpr ⟨field, hown, rfl⟩)
        (get?_erasedFields_eq_some.mpr ⟨source, hsource, rfl⟩)
      exact ⟨hrequired, (hfield hown source.ty).mp haccepts⟩
    · rw [← hrest]
      exact h.placed name _ (get?_erasedFields_eq_some.mpr ⟨source, hsource, rfl⟩)
        (get?_erasedFields_eq_none.mpr hnone)
    · rw [← hrest]
      exact forall_mem_erasedOption.mp h.further ty hty
  · intro h
    refine ⟨fun name _ herased hnone => ?_, fun name _ _ herased herased' => ?_,
      fun name _ herased hnone => ?_, forall_mem_erasedOption.mpr fun ty hty => ?_⟩
    · obtain ⟨field, hown, rfl⟩ := get?_erasedFields_eq_some.mp herased
      exact h.missing name field hown (get?_erasedFields_eq_none.mp hnone)
    · obtain ⟨field, hown, rfl⟩ := get?_erasedFields_eq_some.mp herased
      obtain ⟨source, hsource, rfl⟩ := get?_erasedFields_eq_some.mp herased'
      obtain ⟨hrequired, haccepts⟩ := h.present name field source hown hsource
      exact ⟨hrequired, (hfield hown source.ty).mpr haccepts⟩
    · obtain ⟨source, hsource, rfl⟩ := get?_erasedFields_eq_some.mp herased
      exact (hrest source.ty).trans (h.placed name source hsource (get?_erasedFields_eq_none.mp hnone))
    · exact (hrest ty).trans (h.further ty hty)

theorem transparent_record {fields : Fields none} {isSealed : Bool}
    (ih : ∀ entry ∈ fields.toList, entry.2.ty.Transparent) (ihrest : ∀ ty ∈ rest, ty.Transparent) :
    (Ty.record fields rest isSealed).Transparent := by
  refine transparent_of_shaped fun source hsource => ?_
  cases source with
  | record sources sourceRest sourceSealed =>
    rw [erased, erased, record_accepts_iff, record_accepts_iff, fills_erased_iff ih ihrest]
  | primitive | array | tuple | map | table | anydata | json => rfl
  | _ => cases hsource

theorem transparent_map {constraint : Ty} (ih : constraint.Transparent) :
    (Ty.map constraint).Transparent := by
  refine transparent_of_shaped fun source hsource => ?_
  cases source with
  | map other => rw [erased, erased, map_accepts_map_iff, map_accepts_map_iff, ih other]
  | record fields sourceRest sourceSealed =>
    have hsome : (erasedOption sourceRest).isSome = sourceRest.isSome := by cases sourceRest <;> rfl
    rw [erased, erased, map_accepts_record_iff, map_accepts_record_iff, hsome,
      forall_mem_erasedOption, toList_erasedFields, List.forall_mem_map]
    simp only [ih _]
  | primitive | array | tuple | table | anydata | json => rfl
  | _ => cases hsource

theorem transparent_union (ih : ∀ ty ∈ members, ty.Transparent) : (Ty.union members).Transparent := by
  refine transparent_of_shaped fun source hsource => ?_
  rw [erased, union_accepts_iff (isShaped_erased hsource), union_accepts_iff hsource, erasedList_eq_map]
  simp only [List.mem_map, exists_exists_and_eq_and]
  exact exists_congr fun ty => and_congr_right fun hty => ih ty hty source

end Structures

/-- **Every target is transparent.** What a name stands for is reached by recursion on the target. -/
theorem transparent (target : Ty) : target.Transparent := by
  induction target using induction_parts with
  | array elem size ih => exact transparent_array size ih
  | tuple members rest ih ihrest => exact transparent_tuple ih ihrest
  | record fields rest isSealed ih ihrest => exact transparent_record ih ihrest
  | map constraint ih => exact transparent_map ih
  | union members ih => exact transparent_union ih
  | reference name referred ih => exact ih
  | intersection inner ih => exact ih
  | json =>
    refine transparent_of_shaped fun source hsource => ?_
    rw [erased, json_accepts_iff (isShaped_erased hsource), json_accepts_iff hsource, isJson_erased]
  | anydata => exact fun source => by simp
  | error => exact fun _ => Iff.rfl
  | primitive | finite | table =>
    -- no structure is compared with these part by part
    refine transparent_of_shaped fun source hsource => ?_
    cases source <;> first | rfl | cases hsource

/-- **Aliases are transparent to assignability at every depth**: names may be written out on both
sides. Types that are the same once this is done are assignable to each other. -/
theorem isAssignable_iff_erased (source target : Ty) :
    source.isAssignable target = source.erased.isAssignable target.erased
      ∧ ((source.erased == target.erased) = true →
        source.isAssignable target = true ∧ target.isAssignable source = true) := by
  refine ⟨(Bool.eq_iff_iff.mpr (transparent target source)).symm, fun hsame => ⟨?_, ?_⟩⟩
  · exact (transparent target source).mp (accepts_of_same _ hsame)
  · exact (transparent source target).mp (accepts_of_same _ (BEq.symm hsame))

section Examples

/-- A list of numbers, by way of two names, and a label that need not be there. -/
def namedScores : Ty :=
  .reference "Scores" (.record (.ofList
    [("all", ⟨.array (.reference "Score" (.union [.primitive .int, .reference "Real" (.primitive .float)]))
      .unbounded, true⟩), ("label", ⟨.primitive .string, false⟩)]) none true)

/-- The same with the names written out, and immutable. -/
def plainScores : Ty :=
  .intersection (.record (.ofList
    [("all", ⟨.intersection (.array (.union [.primitive .int, .primitive .float]) .unbounded), true⟩),
      ("label", ⟨.primitive .string, false⟩)]) none true)

/-- The two spellings are not built alike, and each is assignable to the other. -/
theorem scores_isAssignable : (namedScores == plainScores) = false
    ∧ namedScores.isAssignable plainScores = true ∧ plainScores.isAssignable namedScores = true :=
  ⟨rfl, (isAssignable_iff_erased namedScores plainScores).2 (by decide +kernel)⟩

end Examples

end ConstNarrow.Ty
