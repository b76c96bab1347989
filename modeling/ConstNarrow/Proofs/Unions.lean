/-
**A union is the least upper bound of its parts**, and has one form however its parts are grouped.

Building a union takes nested unions apart and keeps the first of the types that are the same. That to do
so within groups first changes nothing rests on sameness being an equivalence, and that the groups' unions
can be taken apart again rests on flat types: a union of one type is that type, which must not be a union.
A type that is dropped is the same as one that is kept, so both are assignable to the same targets.
-/
import ConstNarrow.Proofs.SameSources

set_option autoImplicit false

namespace ConstNarrow.Ty

/-! ## First occurrences -/

/-- **What is kept of some types**: all of them, each once, as it is first written and in the order of
the places at which it is. -/
structure FirstOccurrences (all kept : List Ty) : Prop where
  covers : ∀ ty ∈ all, ∃ other ∈ kept, (ty == other) = true
  first : ∀ ty ∈ kept, all.find? (· == ty) = some ty
  apart : kept.Pairwise fun a b => (b == a) = false
  ordered : kept.Pairwise fun a b => all.findIdx (· == a) < all.findIdx (· == b)

section Occurrences

variable {tys : List Ty} {ty : Ty}

theorem distinct_concat (tys : List Ty) (ty : Ty) : distinct (tys ++ [ty]) = addNew (distinct tys) ty :=
  List.foldl_append

theorem contains_distinct : (distinct tys).contains ty = tys.contains ty := by
  rw [distinct, contains_foldl_addNew, List.contains_nil, Bool.false_or]

theorem distinct_ne_nil (h : tys ≠ []) : distinct tys ≠ [] := by
  obtain ⟨ty, hty⟩ := List.exists_mem_of_ne_nil tys h
  obtain ⟨other, hother, -⟩ := exists_mem_distinct hty
  exact List.ne_nil_of_mem hother

theorem findIdx_lt_of_mem_distinct (h : ty ∈ distinct tys) : tys.findIdx (· == ty) < tys.length :=
  List.findIdx_lt_length_of_exists ⟨ty, mem_of_mem_distinct h, BEq.rfl⟩

/-- What is kept is the first of the types that are the same. -/
theorem find?_of_mem_distinct (h : ty ∈ distinct tys) : tys.find? (· == ty) = some ty := by
  induction tys using List.reverseRecOn with
  | nil => cases h
  | append_singleton tys last ih =>
    rw [distinct_concat, addNew] at h
    rw [List.find?_append]
    split at h
    · rw [ih h, Option.some_or]
    · rename_i hnew
      rcases List.mem_append.mp h with h | h
      · rw [ih h, Option.some_or]
      · rw [List.mem_singleton.mp h]
        have hnone : tys.find? (· == last) = none := by
          refine List.find?_eq_none.mpr fun other hother hsame => hnew ?_
          rw [contains_distinct]
          exact List.contains_iff_exists_mem_beq.mpr ⟨other, hother, BEq.symm hsame⟩
        simp [hnone]

/-- What is kept stays in the order of first occurrence. -/
theorem pairwise_findIdx_distinct (tys : List Ty) :
    (distinct tys).Pairwise fun a b => tys.findIdx (· == a) < tys.findIdx (· == b) := by
  induction tys using List.reverseRecOn with
  | nil => exact .nil
  | append_singleton tys last ih =>
    -- what was kept before is found where it was
    have hold : ∀ ty ∈ distinct tys, (tys ++ [last]).findIdx (· == ty) = tys.findIdx (· == ty) := by
      intro ty hty
      rw [List.findIdx_append, if_pos (findIdx_lt_of_mem_distinct hty)]
    have hkept : (distinct tys).Pairwise fun a b =>
        (tys ++ [last]).findIdx (· == a) < (tys ++ [last]).findIdx (· == b) := by
      refine ih.imp_of_mem fun {a b} ha hb hlt => ?_
      rwa [hold a ha, hold b hb]
    rw [distinct_concat, addNew]
    split
    · exact hkept
    · rename_i hnew
      refine List.pairwise_append.mpr ⟨hkept, List.pairwise_singleton _ _, fun a ha b hb => ?_⟩
      rw [List.mem_singleton.mp hb, hold a ha, List.findIdx_append, if_neg]
      · have := findIdx_lt_of_mem_distinct ha
        omega
      · intro hlt
        obtain ⟨other, hother, hsame⟩ := List.findIdx_lt_length.mp hlt
        rw [contains_distinct] at hnew
        exact hnew (List.contains_iff_exists_mem_beq.mpr ⟨other, hother, BEq.symm hsame⟩)

/-- **Leaving out repetitions keeps the first occurrences.** -/
theorem firstOccurrences_distinct (tys : List Ty) : FirstOccurrences tys (distinct tys) :=
  ⟨fun _ => exists_mem_distinct, fun _ => find?_of_mem_distinct, pairwise_distinct tys,
    pairwise_findIdx_distinct tys⟩

end Occurrences

/-! ## Unions -/

/-- Whether a type, if it is a union, has members, and none of them is a union in turn. -/
def isFlat : Ty → Bool
  | .union members => !members.isEmpty && members.all isNoUnion
  | _ => true

section Unions

variable {tys : List Ty} {ty member : Ty}

/-- A flat type has members, itself if it is no union. -/
theorem unionMembers_ne_nil (h : ty.everywhere isFlat = true) : ty.unionMembers ≠ [] := by
  have hself := everywhere_self h
  cases ty with
  | union members =>
    simp only [isFlat, Bool.and_eq_true, Bool.not_eq_true', List.isEmpty_eq_false_iff] at hself
    exact hself.1
  | _ => exact List.cons_ne_nil _ _

/-- The members of a flat type are flat, and no unions. -/
theorem isFlat_of_mem_unionMembers (h : ty.everywhere isFlat = true) (hmem : member ∈ ty.unionMembers) :
    member.isNoUnion = true ∧ member.everywhere isFlat = true := by
  cases ty with
  | union members =>
    obtain ⟨hself, hmembers⟩ := everywhere_union.mp h
    simp only [isFlat, Bool.and_eq_true, List.all_eq_true] at hself
    exact ⟨hself.2 member hmem, hmembers member hmem⟩
  | _ =>
    rw [List.mem_singleton.mp hmem]
    exact ⟨rfl, h⟩

/-- What a union that is built can be. -/
theorem unionOf_cases (tys : List Ty) :
    (flatten tys = [] ∧ unionOf tys = .error) ∨ (∃ ty, flatten tys = [ty] ∧ unionOf tys = ty)
      ∨ (1 < (flatten tys).length ∧ unionOf tys = .union (flatten tys)) := by
  rw [unionOf]
  rcases flatten tys with - | ⟨ty, - | ⟨other, rest⟩⟩
  · exact Or.inl ⟨rfl, rfl⟩
  · exact Or.inr (Or.inl ⟨ty, rfl, rfl⟩)
  · exact Or.inr (Or.inr ⟨by simp, rfl⟩)

theorem isFlat_of_mem_flatten (h : ∀ ty ∈ tys, ty.everywhere isFlat = true) (hmem : member ∈ flatten tys) :
    member.isNoUnion = true ∧ member.everywhere isFlat = true := by
  obtain ⟨ty, hty, hmem⟩ := List.mem_flatMap.mp (mem_of_mem_distinct hmem)
  exact isFlat_of_mem_unionMembers (h ty hty) hmem

theorem flatten_ne_nil (hne : tys ≠ []) (h : ∀ ty ∈ tys, ty.everywhere isFlat = true) :
    flatten tys ≠ [] := by
  obtain ⟨ty, hty⟩ := List.exists_mem_of_ne_nil tys hne
  obtain ⟨member, hmember⟩ := List.exists_mem_of_ne_nil _ (unionMembers_ne_nil (h ty hty))
  exact distinct_ne_nil (List.ne_nil_of_mem (List.mem_flatMap.mpr ⟨ty, hty, hmember⟩))

/-- A union of flat types has the members that it was built from. -/
theorem unionMembers_unionOf (hne : tys ≠ []) (h : ∀ ty ∈ tys, ty.everywhere isFlat = true) :
    (unionOf tys).unionMembers = flatten tys := by
  rcases unionOf_cases tys with ⟨hnil, -⟩ | ⟨ty, hflatten, hunion⟩ | ⟨-, hunion⟩
  · exact absurd hnil (flatten_ne_nil hne h)
  · -- a union of one type is this type, so it must not be a union
    have hno : ty.isNoUnion = true := (isFlat_of_mem_flatten h (hflatten ▸ List.mem_cons_self)).1
    rw [hunion, hflatten]
    cases ty with
    | union members => cases hno
    | _ => rfl
  · rw [hunion]
    rfl

/-- A union of flat types is flat. -/
theorem everywhere_isFlat_unionOf (h : ∀ ty ∈ tys, ty.everywhere isFlat = true) :
    (unionOf tys).everywhere isFlat = true := by
  rcases unionOf_cases tys with ⟨-, hunion⟩ | ⟨ty, hflatten, hunion⟩ | ⟨hlength, hunion⟩
  · rw [hunion]
    rfl
  · rw [hunion]
    exact (isFlat_of_mem_flatten h (hflatten ▸ List.mem_cons_self)).2
  · rw [hunion]
    refine everywhere_union.mpr ⟨?_, fun member hmember => (isFlat_of_mem_flatten h hmember).2⟩
    simp only [isFlat, Bool.and_eq_true, Bool.not_eq_true', List.isEmpty_eq_false_iff, List.all_eq_true]
    exact ⟨List.ne_nil_of_length_pos (by omega), fun member hmember => (isFlat_of_mem_flatten h hmember).1⟩

/-- **Grouping makes no difference**: a union of unions is the union of all their parts. -/
theorem unionOf_map_unionOf {groups : List (List Ty)} (hne : ∀ group ∈ groups, group ≠ [])
    (h : ∀ group ∈ groups, ∀ ty ∈ group, ty.everywhere isFlat = true) :
    unionOf (groups.map unionOf) = unionOf groups.flatten := by
  have hgroups : (groups.map unionOf).flatMap unionMembers
      = groups.flatMap fun group => distinct (group.flatMap unionMembers) := by
    rw [List.flatMap_map]
    exact List.flatMap_congr fun group hgroup =>
      unionMembers_unionOf (hne group hgroup) (h group hgroup)
  have hparts : groups.flatten.flatMap unionMembers
      = groups.flatMap fun group => group.flatMap unionMembers := by
    rw [List.flatten_eq_flatMap, List.flatMap_assoc]
    rfl
  -- to keep the first occurrences of a group before those of all groups changes nothing
  have hflatten : flatten (groups.map unionOf) = flatten groups.flatten := by
    rw [flatten, flatten, hgroups, hparts, List.foldl_flatMap, List.foldl_flatMap]
    simp only [foldl_distinct]
  rw [unionOf, unionOf, hflatten]

variable {target : Ty}

theorem accepts_iff_unionMembers :
    target.accepts ty = true ↔ ∀ member ∈ ty.unionMembers, target.accepts member = true := by
  cases ty with
  | union members => exact accepts_union_iff
  | _ => simp [unionMembers]

theorem accepts_distinct_iff :
    (∀ ty ∈ distinct tys, target.accepts ty = true) ↔ ∀ ty ∈ tys, target.accepts ty = true := by
  refine ⟨fun h ty hty => ?_, fun h ty hty => h ty (mem_of_mem_distinct hty)⟩
  obtain ⟨other, hother, hsame⟩ := exists_mem_distinct hty
  exact respects target other ty (BEq.symm hsame) (h other hother)

/-- **A union is assignable to whatever all its parts are assignable to.** This needs no flat types: a
union without members is assignable to everything, and so is the error type that is built of none. -/
theorem accepts_unionOf_iff :
    target.accepts (unionOf tys) = true ↔ ∀ ty ∈ tys, target.accepts ty = true := by
  have hmembers : target.accepts (unionOf tys) = true ↔
      ∀ ty ∈ flatten tys, target.accepts ty = true := by
    rcases unionOf_cases tys with ⟨hflatten, hunion⟩ | ⟨ty, hflatten, hunion⟩ | ⟨-, hunion⟩
    · simp [hflatten, hunion]
    · simp [hflatten, hunion]
    · rw [hunion, accepts_union_iff]
  rw [hmembers, flatten, ← distinct, accepts_distinct_iff]
  simp only [List.mem_flatMap]
  constructor
  · intro h ty hty
    exact accepts_iff_unionMembers.mpr fun member hmember => h member ⟨ty, hty, hmember⟩
  · rintro h member ⟨ty, hty, hmember⟩
    exact accepts_iff_unionMembers.mp (h ty hty) member hmember

end Unions

/-- **Building unions is canonical and gives least upper bounds.** However flat types are grouped, the
union of the groups' unions is the union of all the types, as they are written and not only up to
sameness. It is flat, and its members are the first occurrences of what is united. A union is
assignable to exactly the types that all its parts are assignable to. -/
theorem unions_are_least_upper_bounds (groups : List (List Ty)) (hgroups : groups ≠ [])
    (hne : ∀ group ∈ groups, group ≠ [])
    (hflat : ∀ group ∈ groups, ∀ ty ∈ group, ty.everywhere isFlat = true) :
    unionOf (groups.map unionOf) = unionOf groups.flatten
      ∧ (unionOf groups.flatten).everywhere isFlat = true
      ∧ FirstOccurrences (groups.flatten.flatMap unionMembers) (unionOf groups.flatten).unionMembers
      ∧ ∀ (tys : List Ty) (target : Ty),
        (unionOf tys).isAssignable target = true ↔ ∀ ty ∈ tys, ty.isAssignable target = true := by
  have hall : ∀ ty ∈ groups.flatten, ty.everywhere isFlat = true := by
    intro ty hty
    obtain ⟨group, hgroup, hmem⟩ := List.mem_flatten.mp hty
    exact hflat group hgroup ty hmem
  have hparts : groups.flatten ≠ [] := by
    obtain ⟨group, hgroup⟩ := List.exists_mem_of_ne_nil groups hgroups
    obtain ⟨ty, hty⟩ := List.exists_mem_of_ne_nil group (hne group hgroup)
    exact List.ne_nil_of_mem (List.mem_flatten.mpr ⟨group, hgroup, hty⟩)
  refine ⟨unionOf_map_unionOf hne hflat, everywhere_isFlat_unionOf hall, ?_,
    fun tys target => accepts_unionOf_iff⟩
  rw [unionMembers_unionOf hparts hall]
  exact firstOccurrences_distinct _

/-- Two groups that share a type and a number, which is written in two ways. -/
def overlappingGroups : List (List Ty) :=
  [[.union [.singleton (.ofScalar (.decimal ⟨30, 2⟩)), .primitive .int]],
    [.singleton (.ofScalar (.decimal ⟨3, 1⟩)), .union [.primitive .int, .primitive .string]]]

/-- Of the two spellings the first is kept, whether or not the groups are united one by one. -/
theorem overlappingGroups_union :
    (∀ group ∈ overlappingGroups, group ≠ [])
      ∧ (∀ group ∈ overlappingGroups, ∀ ty ∈ group, ty.everywhere isFlat = true)
      ∧ unionOf overlappingGroups.flatten = .union
        [.singleton (.ofScalar (.decimal ⟨30, 2⟩)), .primitive .int, .primitive .string]
      ∧ unionOf (overlappingGroups.map unionOf) = unionOf overlappingGroups.flatten
      ∧ (unionOf overlappingGroups.flatten).everywhere isFlat = true
      ∧ FirstOccurrences (overlappingGroups.flatten.flatMap unionMembers)
        (unionOf overlappingGroups.flatten).unionMembers
      ∧ ∀ target : Ty, (unionOf overlappingGroups.flatten).isAssignable target = true ↔
        ∀ ty ∈ overlappingGroups.flatten, ty.isAssignable target = true := by
  have hne : ∀ group ∈ overlappingGroups, group ≠ [] := by decide
  have hflat : ∀ group ∈ overlappingGroups, ∀ ty ∈ group, ty.everywhere isFlat = true := by decide
  obtain ⟨hregroup, hresult, hfirst, hbound⟩ :=
    unions_are_least_upper_bounds overlappingGroups (List.cons_ne_nil _ _) hne hflat
  exact ⟨hne, hflat, rfl, hregroup, hresult, hfirst, fun target => hbound _ target⟩

end ConstNarrow.Ty
