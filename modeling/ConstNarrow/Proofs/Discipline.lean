/-
**Disciplines**: what the types of expressions keep to while constants are evaluated.

A discipline extends a standard for validation by laws for the types that evaluation makes: unions
of readings, lists and records. It also says whether an expression may fail silently. There are
three of them: the free one, under which every type passes; the concrete one, under which types are
candidates; and the error-free one, under which no type holds an error.
-/
import ConstNarrow.Checker.Evaluate
import ConstNarrow.Proofs.Validate

set_option autoImplicit false

namespace ConstNarrow

open Validation

/-! ## Unions of readings -/

namespace Ty

/-- To add types one by one brings in nothing else. -/
theorem mem_of_mem_foldl_addNew {tys found : List Ty} {ty : Ty}
    (h : ty ∈ tys.foldl addNew found) : ty ∈ tys ∨ ty ∈ found := by
  induction tys generalizing found with
  | nil => exact Or.inr h
  | cons first tys ih =>
    rcases ih h with hmem | hmem
    · exact Or.inl (List.mem_cons_of_mem _ hmem)
    · rcases mem_of_mem_addNew hmem with hmem | rfl
      · exact Or.inr hmem
      · exact Or.inl List.mem_cons_self

theorem foldl_addNew_ne_nil {tys found : List Ty} (h : found ≠ []) : tys.foldl addNew found ≠ [] := by
  induction tys generalizing found with
  | nil => exact h
  | cons first tys ih =>
    refine ih ?_
    unfold addNew
    split
    · exact h
    · simp

/-- The union of single values is one of them, or a union of some of them. -/
theorem unionOf_singletons {values : List Singleton} (hne : values ≠ []) :
    (∃ s ∈ values, unionOf (values.map singleton) = singleton s)
      ∨ ∃ members, members ≠ [] ∧ (∀ ty ∈ members, ∃ s ∈ values, ty = singleton s)
        ∧ unionOf (values.map singleton) = .union members := by
  -- single values are no unions, so that flattening only drops repetitions
  have hflat : flatten (values.map singleton) = (values.map singleton).foldl addNew [] := by
    rw [flatten, List.flatMap_map, List.map_eq_flatMap]
    rfl
  have hmem : ∀ ty ∈ flatten (values.map singleton), ∃ s ∈ values, ty = singleton s := by
    intro ty hty
    rw [hflat] at hty
    rcases mem_of_mem_foldl_addNew hty with hty | hty
    · obtain ⟨s, hs, rfl⟩ := List.mem_map.mp hty
      exact ⟨s, hs, rfl⟩
    · cases hty
  have hne' : flatten (values.map singleton) ≠ [] := by
    rw [hflat]
    cases values with
    | nil => exact absurd rfl hne
    | cons s values =>
      rw [List.map_cons, List.foldl_cons]
      exact foldl_addNew_ne_nil (by simp [addNew])
  unfold unionOf
  match hlist : flatten (values.map singleton), hmem, hne' with
  | [ty], hmem, _ =>
    obtain ⟨s, hs, rfl⟩ := hmem ty List.mem_cons_self
    exact Or.inl ⟨s, hs, rfl⟩
  | first :: second :: rest, hmem, hne' => exact Or.inr ⟨_, hne', hmem, rfl⟩

end Ty

/-! ## Literals -/

namespace Literal

/-- Values under their own primitives, of which no two lie in one domain. -/
structure Offers (readings : List Singleton) : Prop where
  natural : ∀ s ∈ readings, ∃ v, s = .ofScalar v
  apart : readings.Pairwise fun a b => a.base.domain ≠ b.base.domain

/-- Some of the readings on offer are an offer as well. -/
theorem Offers.sublist {readings kept : List Singleton} (h : Offers readings)
    (hkept : kept.Sublist readings) : Offers kept :=
  ⟨fun s hs => h.natural s (hkept.subset hs), h.apart.sublist hkept⟩

/-- A single reading is an offer, and so is none. -/
theorem offers_option {α : Type} (value? : Option α) (f : α → Scalar) :
    Offers (value?.map fun x => Singleton.ofScalar (f x)).toList := by
  cases value? with
  | none => exact ⟨fun _ hs => (by cases hs), .nil⟩
  | some x => exact ⟨fun _ hs => ⟨f x, List.mem_singleton.mp hs⟩, List.pairwise_singleton _ _⟩

/-- A whole number is read as an integer, a float and a decimal, each at most once. -/
theorem offers_intReadings (text : String) (i : Int64) : Offers (intReadings text i) := by
  unfold intReadings
  refine ⟨fun s hs => ?_, ?_⟩
  · rcases List.mem_append.mp hs with hs | hs
    · rcases List.mem_cons.mp hs with rfl | hs
      · exact ⟨_, rfl⟩
      · exact ⟨_, List.mem_singleton.mp hs⟩
    · split at hs
      · cases hs
      · exact ⟨_, List.mem_singleton.mp hs⟩
  · split <;> simp [Singleton.ofScalar, Scalar.naturalBase, Primitive.domain,
      Primitive.numericKind?, NumericKind.toPrimitive]

/-- A number with a point is read as a float and a decimal, each at most once. -/
theorem offers_pointReadings (text : String) : Offers (pointReadings text) := by
  have hdecimal := offers_option (Decimal.read? text) Scalar.decimal
  have hfloat := offers_option (readFloat? text) Scalar.float
  refine ⟨fun s hs => ?_, List.pairwise_append.mpr ⟨hdecimal.apart, hfloat.apart, ?_⟩⟩
  · rcases List.mem_append.mp hs with hs | hs
    · exact hdecimal.natural s hs
    · exact hfloat.natural s hs
  -- a decimal and a float lie in different domains
  · intro a ha b hb
    rw [Option.mem_toList] at ha hb
    obtain ⟨d, -, rfl⟩ := Option.map_eq_some_iff.mp ha
    obtain ⟨x, -, rfl⟩ := Option.map_eq_some_iff.mp hb
    exact fun h => (by cases h)

/-- An expected type restricts the readings, and adds none. -/
theorem restrict_sublist (readings : List Singleton) (expected : Ty) :
    (restrict readings expected).Sublist readings := by
  unfold restrict
  dsimp only
  split
  · exact .refl _
  · exact List.filter_sublist

/-- A type is the union of one or more readings. -/
def Reads (ty : Ty) : Prop :=
  ∃ values : List Singleton, values ≠ [] ∧ Offers values ∧ ty = Ty.unionOf (values.map Ty.singleton)

theorem reads_singleton (v : Scalar) : Reads (.singleton (.ofScalar v)) :=
  ⟨[.ofScalar v], by simp, offers_option (some v) id, rfl⟩

/-- The type made of some readings on offer is their union. -/
theorem reads_of_typeOf {text : String} {readings : List Singleton} {ty : Ty}
    (hoffers : Offers readings) (h : typeOf text readings = .ok ty) : Reads ty := by
  unfold typeOf at h
  split at h
  · cases h
  · rename_i hne
    cases h
    exact ⟨readings, by simpa using hne, hoffers, rfl⟩

/-- So it is where a type is expected, with or without pruning. -/
theorem reads_of_inContext {text : String} {readings : List Singleton} {expected ty : Ty}
    {pruning : Bool} (hoffers : Offers readings)
    (h : inContext text readings expected pruning = .ok ty) : Reads ty := by
  refine reads_of_typeOf ?_ h
  split
  · exact hoffers.sublist (restrict_sublist readings expected)
  · exact hoffers

/-- **Whatever is expected of a literal, its type is a union of readings.** -/
theorem reads_of_inferType {literal : Literal} {expected : Option Ty} {pruning : Bool} {ty : Ty}
    (h : literal.inferType expected pruning = .ok ty) : Reads ty := by
  unfold inferType at h
  dsimp only at h
  split at h
  · split at h
    · cases h
    · cases h
      exact reads_singleton _
    · exact reads_of_inContext (offers_intReadings _ _) h
  · split at h
    · exact reads_of_typeOf (offers_option _ _) h
    · exact reads_of_typeOf (offers_option _ _) h
    · exact reads_of_typeOf (offers_option _ _) h
    · exact reads_of_inContext (offers_pointReadings _) h
  · exact reads_of_typeOf (offers_option _ _) h
  · cases h
    exact reads_singleton _
  · cases h
    exact reads_singleton _
  · cases h
    exact reads_singleton _

end Literal

/-! ## Disciplines -/

/-- A discipline for the types of expressions, under an excuse `E`. -/
structure Discipline (E : Journal → Prop) extends Standard E where
  /-- whether an expression may be erroneous without a report -/
  silent : Prop
  /-- what is asked of a single value -/
  single : Singleton → Prop
  reported : silent ∨ ∀ j : Journal, j.diagnostics ≠ #[] → E j
  silent_of_given : given .error → silent
  given_of_meets : ∀ result expected, meets result expected → given result
  single_ofScalar : ∀ v, single (.ofScalar v)
  given_unionOf : ∀ values : List Singleton, values ≠ [] → (∀ s ∈ values, single s) →
    given (Ty.unionOf (values.map Ty.singleton))
  single_of_readings : ∀ ty values, given ty → Checker.readingsOf? ty = some values →
    ∀ s ∈ values, single s
  given_tupleOf : ∀ members, (∀ ty ∈ members, given ty) → given (.tuple members none)
  given_rest : ∀ members rest, given (.tuple members rest) → ∀ ty ∈ rest, given ty
  given_sealed : ∀ fields : Fields none,
    (∀ entry ∈ fields.toList, entry.2.required = true ∧ given entry.2.ty) →
    given (Ty.sealedRecord fields)
  given_member : ∀ members, given (.union members) → ∀ ty ∈ members, given ty

namespace Discipline

/-- Every type passes, and nothing has to be reported. -/
def free : Discipline fun _ => False where
  given := fun _ => True
  declarable := fun _ => true
  meets := fun _ _ => True
  lasts := fun _ _ _ h => h
  given_effective := fun _ _ => trivial
  given_error := fun _ _ => trivial
  given_tuple := fun _ _ _ _ _ => trivial
  given_record := fun _ _ _ _ _ _ => trivial
  declarable_error := fun _ => trivial
  default := fun _ _ _ _ => trivial
  reference := fun _ _ _ _ => trivial
  intersection := fun _ _ _ => trivial
  array := fun _ _ _ _ _ => trivial
  tuple := fun _ _ _ _ _ _ => trivial
  map := fun _ _ _ => trivial
  record := fun _ _ _ _ _ _ _ _ => trivial
  union := fun _ _ _ => trivial
  finite := fun _ _ _ _ => trivial
  nil := trivial
  primitive := fun _ _ _ _ _ _ => trivial
  anydata := fun _ _ => Or.inl trivial
  json := fun _ _ => Or.inl trivial
  silent := True
  single := fun _ => True
  reported := Or.inl trivial
  silent_of_given := fun _ => trivial
  given_of_meets := fun _ _ _ => trivial
  single_ofScalar := fun _ => trivial
  given_unionOf := fun _ _ _ => trivial
  single_of_readings := fun _ _ _ _ _ _ => trivial
  given_tupleOf := fun _ _ => trivial
  given_rest := fun _ _ _ _ _ => trivial
  given_sealed := fun _ _ => trivial
  given_member := fun _ _ _ _ => trivial

theorem everywhere_true : (ty : Ty) → ty.everywhere (fun _ => true) = true := by
  intro ty
  induction ty using Ty.induction_parts with
  | array elem size ih => exact Ty.everywhere_array.mpr ⟨rfl, ih⟩
  | tuple members rest ih ihrest => exact Ty.everywhere_tuple.mpr ⟨rfl, ih, ihrest⟩
  | record fields rest isSealed ih ihrest => exact Ty.everywhere_record.mpr ⟨rfl, ih, ihrest⟩
  | map constraint ih => exact Ty.everywhere_map.mpr ⟨rfl, ih⟩
  | union members ih => exact Ty.everywhere_union.mpr ⟨rfl, ih⟩
  | reference name referred ih => exact Ty.everywhere_reference.mpr ⟨rfl, ih⟩
  | intersection inner ih => exact Ty.everywhere_intersection.mpr ⟨rfl, ih⟩
  | primitive | table | anydata | json | finite | error => rfl

theorem forall₂_of_mapM {α β : Type} {f : α → Option β} {l : List α} {m : List β}
    (h : l.mapM f = some m) : List.Forall₂ (fun a b => f a = some b) l m := by
  induction l generalizing m with
  | nil =>
    cases h
    exact .nil
  | cons a l ih =>
    rw [List.mapM_cons] at h
    obtain ⟨b, hb, h⟩ := Option.bind_eq_some_iff.mp h
    obtain ⟨rest, hrest, h⟩ := Option.bind_eq_some_iff.mp h
    cases h
    exact .cons hb (ih hrest)

/-- The single values that a candidate may be are proper. -/
theorem isProper_of_readings {ty : Ty} {values : List Singleton} (h : ty.Candidate)
    (hvalues : Checker.readingsOf? ty = some values) : ∀ s ∈ values, s.isProper = true := by
  intro s hs
  rw [Checker.readingsOf?, h.effective_eq] at hvalues
  obtain ⟨member, hmember, hsingle⟩ := exists_of_mem_right (forall₂_of_mapM hvalues) hs
  cases h with
  | value hproper =>
    rw [List.mem_singleton.mp hmember] at hsingle
    cases hsingle
    exact hproper
  | readings _ hall =>
    obtain ⟨t, hproper, rfl⟩ := hall member hmember
    cases hsingle
    exact hproper
  | tuple _ =>
    rw [List.mem_singleton.mp hmember] at hsingle
    cases hsingle
  | record _ _ =>
    rw [List.mem_singleton.mp hmember] at hsingle
    cases hsingle

/-- Types of expressions are candidates, and those of constants are concrete. -/
def concrete : Discipline fun _ => False where
  toStandard := Standard.concrete
  silent := True
  single := fun s => s.isProper = true
  reported := Or.inl trivial
  silent_of_given := fun _ => trivial
  given_of_meets := fun _ _ h => Ty.candidate_of_isConcrete h.concrete
  single_ofScalar := Singleton.isProper_ofScalar
  given_unionOf := fun values hne hall => by
    rcases Ty.unionOf_singletons hne with ⟨s, hs, heq⟩ | ⟨members, hmembers, hmem, heq⟩
    · rw [heq]
      exact .value (hall s hs)
    · rw [heq]
      refine .readings hmembers fun ty hty => ?_
      obtain ⟨s, hs, rfl⟩ := hmem ty hty
      exact ⟨s, hall s hs, rfl⟩
  single_of_readings := fun _ _ h hvalues => isProper_of_readings h hvalues
  given_tupleOf := fun _ h => .tuple h
  given_rest := fun members rest h => by
    cases h with
    | tuple _ => exact fun _ h => nomatch h
  given_sealed := fun _ h => .record (fun entry hentry => (h entry hentry).1)
    fun entry hentry => (h entry hentry).2
  given_member := fun members h => by
    cases h with
    | readings _ hall =>
      intro ty hty
      obtain ⟨s, hs, rfl⟩ := hall ty hty
      exact .value hs

/-- No type holds an error, unless something is reported or has no narrowing. -/
def errorFree {E : Journal → Prop} (broad : Bool) (lasts : Journal.Lasts E)
    (narrowing : broad = true → ∀ (j : Journal) (ty : Ty), .noNarrowing ty ∈ j.log.toList → E j)
    (reported : ∀ j : Journal, j.diagnostics ≠ #[] → E j) : Discipline E where
  toStandard := Standard.errorFree broad lasts narrowing
  silent := False
  single := fun _ => True
  reported := Or.inr reported
  silent_of_given := fun h => by cases h
  given_of_meets := fun _ _ h => h
  single_ofScalar := fun _ => trivial
  given_unionOf := fun values hne _ => by
    rcases Ty.unionOf_singletons hne with ⟨s, -, heq⟩ | ⟨members, hmembers, hmem, heq⟩
    · rw [heq]
      rfl
    · rw [heq]
      refine Ty.everywhere_union.mpr ⟨?_, fun ty hty => ?_⟩
      · cases members with
        | nil => exact absurd rfl hmembers
        | cons _ _ => rfl
      · obtain ⟨s, -, rfl⟩ := hmem ty hty
        rfl
  single_of_readings := fun _ _ _ _ _ _ => trivial
  given_tupleOf := fun _ h => Ty.everywhere_tupleOf h
  given_rest := fun _ _ h => (Ty.everywhere_tuple.mp h).2.2
  given_sealed := fun _ h => Ty.everywhere_record.mpr
    ⟨rfl, fun entry hentry => (h entry hentry).2, fun _ h => nomatch h⟩
  given_member := fun _ h => (Ty.everywhere_union.mp h).2

end Discipline

end ConstNarrow
