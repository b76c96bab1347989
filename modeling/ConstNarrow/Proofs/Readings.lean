/-
**Readings.**

The type of an expression is tentative as long as its constant is not settled: a number may still
have several readings, one in each domain. What settling leaves is definite. Types may hold values
under a primitive of another domain; such types come from declarations, and never become the type
of an operand.
-/
import Mathlib.Data.List.Pairwise
import ConstNarrow.Proofs.Validate

set_option autoImplicit false

namespace ConstNarrow

open Validation

/-! ## Values and domains -/

/-- A natural base is the domain itself: no value is a byte by nature. -/
@[simp] theorem Scalar.domain_naturalBase (v : Scalar) : v.naturalBase.domain = v.naturalBase := by
  cases v <;> rfl

/-- Values that are the same have one natural base. -/
theorem Scalar.naturalBase_of_same {a b : Scalar} (h : (a == b) = true) :
    a.naturalBase = b.naturalBase := by
  have hsame : a.same b = true := h
  cases a <;> cases b <;> simp_all [Scalar.same, Scalar.naturalBase]

/-- A primitive and its domain are the same kind of number. -/
@[simp] theorem Primitive.numericKind?_domain (p : Primitive) :
    p.domain.numericKind? = p.numericKind? := by
  cases p <;> rfl

namespace Singleton

/-- A value fits a primitive of its own domain only. -/
theorem domain_of_fits {s : Singleton} {p : Primitive} (h : s.fits p = true) :
    s.base.domain = p.domain := by
  rcases s with ⟨value, base⟩
  cases base <;> cases p <;> simp_all [fits, Primitive.domain, Primitive.numericKind?,
    NumericKind.toPrimitive]

/-- The same value lies in the same domain. -/
theorem domain_of_sameValue {s t : Singleton} (h : s.sameValue t = true) :
    s.base.domain = t.base.domain :=
  beq_iff_eq.mp (Bool.and_eq_true_iff.mp h).2

/-- A value stands under a primitive of its own domain. -/
def IsCoherent (s : Singleton) : Prop := s.base.domain = s.value.naturalBase

/-- A value under its natural base is coherent. -/
theorem isCoherent_ofScalar (v : Scalar) : (ofScalar v).IsCoherent := v.domain_naturalBase

/-- A proper value is coherent: its base is the natural one, or byte for a small integer. -/
theorem isCoherent_of_isProper {s : Singleton} (h : s.isProper = true) : s.IsCoherent := by
  rcases isProper_iff.mp h with h | ⟨h, i, hi, -⟩
  · rw [IsCoherent, h, Scalar.domain_naturalBase]
  · rw [IsCoherent, h, hi]
    rfl

end Singleton

namespace Ty

/-! ## Types made of readings -/

/-- The type of what may be any of some values. -/
def ofValues : List Singleton → Ty
  | [s] => singleton s
  | values => .union (values.map singleton)

/-- Several values, or none, make a union. -/
theorem ofValues_eq_union {values : List Singleton} (h : values.length ≠ 1) :
    ofValues values = .union (values.map singleton) := by
  rcases values with - | ⟨s, - | ⟨t, values⟩⟩
  · rfl
  · exact absurd rfl h
  · rfl

/-- The members of a choice are its values, also if there is only one. -/
@[simp] theorem unionMembers_ofValues (values : List Singleton) :
    (ofValues values).unionMembers = values.map singleton := by
  rcases values with - | ⟨s, - | ⟨t, values⟩⟩ <;> rfl

/-- A choice has nothing to be looked through. -/
@[simp] theorem effective_ofValues (values : List Singleton) :
    (ofValues values).effective = ofValues values := by
  rcases values with - | ⟨s, - | ⟨t, values⟩⟩ <;> rfl

/-- A choice is never erroneous. -/
@[simp] theorem isError_ofValues (values : List Singleton) : (ofValues values).isError = false := by
  rcases values with - | ⟨s, - | ⟨t, values⟩⟩ <;> rfl

/-- A choice is no list. -/
theorem ofValues_ne_tuple (values : List Singleton) (members : List Ty) (rest : Option Ty) :
    ofValues values ≠ .tuple members rest := by
  rcases values with - | ⟨s, - | ⟨t, values⟩⟩ <;> exact fun h => by cases h

/-- A choice is no record. -/
theorem ofValues_ne_record (values : List Singleton) (fields : Fields none) (rest : Option Ty)
    (isSealed : Bool) : ofValues values ≠ .record fields rest isSealed := by
  rcases values with - | ⟨s, - | ⟨t, values⟩⟩ <;> exact fun h => by cases h

/-- A type of one value determines the value. -/
theorem singleton_injective {s t : Singleton} (h : singleton s = singleton t) : s = t := by
  cases h
  rfl

/-- A choice determines its values, and their order. -/
theorem ofValues_injective {values others : List Singleton} (h : ofValues values = ofValues others) :
    values = others := by
  have hmap : values.map singleton = others.map singleton := by
    rw [← unionMembers_ofValues, ← unionMembers_ofValues, h]
  exact List.map_injective_iff.mpr (fun _ _ => singleton_injective) hmap

/-- Some values, of which no two lie in one domain. Where there are several, each stands under its
own primitive. -/
structure IsChoice (values : List Singleton) : Prop where
  ne_nil : values ≠ []
  apart : values.Pairwise fun a b => a.base.domain ≠ b.base.domain
  natural : values.length ≠ 1 → ∀ s ∈ values, s = .ofScalar s.value

/-- One value is a choice, whatever its base is. -/
theorem isChoice_singleton (s : Singleton) : IsChoice [s] :=
  ⟨by simp, List.pairwise_singleton _ _, fun h => absurd rfl h⟩

/-- Values under their natural bases are a choice if they lie in different domains. -/
theorem isChoice_of_natural {values : List Singleton} (hne : values ≠ [])
    (hapart : values.Pairwise fun a b => a.base.domain ≠ b.base.domain)
    (hnatural : ∀ s ∈ values, s = .ofScalar s.value) : IsChoice values :=
  ⟨hne, hapart, fun _ => hnatural⟩

/-- In one domain there is one reading. -/
theorem IsChoice.eq_of_domain {values : List Singleton} (h : IsChoice values) {s t : Singleton}
    (hs : s ∈ values) (ht : t ∈ values) (hdomain : s.base.domain = t.base.domain) : s = t := by
  have hsymm : Std.Symm fun a b : Singleton => a.base.domain ≠ b.base.domain :=
    ⟨fun _ _ hab => hab.symm⟩
  by_contra hne
  exact h.apart.forall hs ht hne hdomain

/-- What is left of a choice is a choice, as long as anything is left. -/
theorem IsChoice.sublist {values kept : List Singleton} (h : IsChoice values)
    (hkept : kept.Sublist values) (hne : kept ≠ []) : IsChoice kept := by
  refine ⟨hne, h.apart.sublist hkept, fun hlength s hs => ?_⟩
  refine h.natural (fun hone => ?_) s (hkept.subset hs)
  have hle := hkept.length_le
  have hpos := List.length_pos_iff.mpr hne
  omega

/-- Without two values of one domain nothing is dropped from a union. -/
theorem unionOf_singletons_eq {values : List Singleton} (hne : values ≠ [])
    (hapart : values.Pairwise fun a b => a.base.domain ≠ b.base.domain) :
    unionOf (values.map singleton) = ofValues values := by
  have hfold : ∀ (rest found : List Singleton),
      (found ++ rest).Pairwise (fun a b => a.base.domain ≠ b.base.domain) →
      (rest.map singleton).foldl addNew (found.map singleton) = (found ++ rest).map singleton := by
    intro rest
    induction rest with
    | nil =>
      intro found _
      rw [List.append_nil]
      rfl
    | cons s rest ih =>
      intro found hpair
      have hnew : (found.map singleton).contains (singleton s) = false := by
        rw [List.contains_eq_any_beq, List.any_eq_false]
        intro ty hty hsame
        obtain ⟨t, ht, rfl⟩ := List.mem_map.mp hty
        have hdomain : t.base.domain ≠ s.base.domain :=
          (List.pairwise_append.mp hpair).2.2 t ht s List.mem_cons_self
        -- the same single values have the same base
        have hlists : ([s] == [t]) = true := hsame
        have hboth : (s == t) = true := by simpa using hlists
        have hbase := beq_iff_eq.mp (Bool.and_eq_true_iff.mp hboth).2
        exact hdomain (by rw [hbase])
      have hnext : found ++ s :: rest = (found ++ [s]) ++ rest := by simp
      rw [List.map_cons, List.foldl_cons, addNew, hnew, if_neg (by simp), hnext]
      have hstep := ih (found ++ [s]) (hnext ▸ hpair)
      rwa [List.map_append] at hstep
  have hflat : flatten (values.map singleton) = values.map singleton := by
    have hmembers : (values.map singleton).flatMap unionMembers = values.map singleton := by
      rw [List.flatMap_map, List.map_eq_flatMap]
      rfl
    rw [flatten, hmembers]
    exact hfold values [] hapart
  rw [unionOf, hflat]
  rcases values with - | ⟨s, - | ⟨t, values⟩⟩
  · exact absurd rfl hne
  · rfl
  · rfl

/-- The readings of a union of values are these values. -/
theorem mapM_singleton? (values : List Singleton) :
    (values.map singleton).mapM (fun ty : Ty => ty.effective.singleton?) = some values := by
  induction values with
  | nil => rfl
  | cons s values ih =>
    rw [List.map_cons, List.mapM_cons, ih]
    rfl

/-! ## Tentative and definite types -/

/-- A type that an expression may have before its constant is settled. -/
inductive Tentative : Ty → Prop where
  | choice {values : List Singleton} (h : IsChoice values) : Tentative (ofValues values)
  | tuple {members : List Ty} (h : ∀ ty ∈ members, Tentative ty) : Tentative (.tuple members none)
  | record {fields : Fields none} (hreq : ∀ entry ∈ fields.toList, entry.2.required = true)
      (h : ∀ entry ∈ fields.toList, Tentative entry.2.ty) : Tentative (sealedRecord fields)
  | table : Tentative .table
  | anydata : Tentative .anydata
  | error : Tentative .error

/-- A type that a constant may have once it is settled: no choice is left. -/
inductive Definite : Ty → Prop where
  | value (s : Singleton) : Definite (singleton s)
  | tuple {members : List Ty} (h : ∀ ty ∈ members, Definite ty) : Definite (.tuple members none)
  | record {fields : Fields none} (hreq : ∀ entry ∈ fields.toList, entry.2.required = true)
      (h : ∀ entry ∈ fields.toList, Definite entry.2.ty) : Definite (sealedRecord fields)
  | table : Definite .table
  | error : Definite .error

/-- What is settled might as well be tentative. -/
theorem Definite.tentative {ty : Ty} (h : Definite ty) : Tentative ty := by
  induction h with
  | value s => exact .choice (isChoice_singleton s)
  | tuple _ ih => exact .tuple ih
  | record hreq _ ih => exact .record hreq ih
  | table => exact .table
  | error => exact .error

/-- A concrete type leaves no choice. -/
theorem definite_of_isConcrete {ok : Singleton → Bool} {ty : Ty} (h : ty.isConcrete ok = true) :
    Definite ty :=
  concrete_induction (fun s _ => .value s) (fun _ ih => .tuple ih)
    (fun _ ih => .record (fun entry he => (ih entry he).1) fun entry he => (ih entry he).2) h

/-- A tentative type has nothing to be looked through. -/
theorem Tentative.effective_eq {ty : Ty} (h : Tentative ty) : ty.effective = ty := by
  cases h with
  | choice _ => exact effective_ofValues _
  | tuple _ | record _ _ | table | anydata | error => rfl

/-- A class of types that holds the parts of the lists and records in it, and no type that has to be
looked through. -/
structure Hereditary (P : Ty → Prop) : Prop where
  effective : ∀ ty, P ty → ty.effective = ty
  tuple : ∀ members rest, P (.tuple members rest) → ∀ ty ∈ members, P ty
  record : ∀ (fields : Fields none) rest isSealed, P (.record fields rest isSealed) →
    ∀ entry ∈ fields.toList, P entry.2.ty

/-- Parts of tentative types are tentative. -/
theorem hereditary_tentative : Hereditary Tentative where
  effective := fun _ h => h.effective_eq
  tuple := fun members rest h => by
    generalize hty : Ty.tuple members rest = ty at h
    cases h with
    | tuple hall =>
      cases hty
      exact hall
    | choice => exact absurd hty.symm (ofValues_ne_tuple _ _ _)
    | _ => cases hty
  record := fun fields rest isSealed h => by
    generalize hty : Ty.record fields rest isSealed = ty at h
    cases h with
    | record _ hall =>
      cases hty
      exact hall
    | choice => exact absurd hty.symm (ofValues_ne_record _ _ _ _)
    | _ => cases hty

/-- Parts of definite types are definite. -/
theorem hereditary_definite : Hereditary Definite where
  effective := fun _ h => h.tentative.effective_eq
  tuple := fun members rest h => by
    cases h with
    | tuple hall => exact hall
  record := fun fields rest isSealed h => by
    cases h with
    | record _ hall => exact hall

/-- A definite choice is none. -/
theorem Definite.eq_singleton {values : List Singleton} (h : Definite (ofValues values)) :
    ∃ s, values = [s] := by
  generalize hty : ofValues values = ty at h
  cases h with
  | value s => exact ⟨s, ofValues_injective hty⟩
  | _ => rcases values with - | ⟨s, - | ⟨t, values⟩⟩ <;> cases hty

/-- A sealed record of definite types is definite. -/
theorem definite_sealedOf {entries : List (String × Ty)} (h : ∀ entry ∈ entries, Definite entry.2) :
    Definite (sealedOf entries) := by
  have hall : ∀ entry ∈ (Fields.ofList (entries.map fun entry => (entry.1, ⟨entry.2, true⟩))).toList,
      entry.2.required = true ∧ Definite entry.2.ty := by
    intro entry hentry
    obtain ⟨⟨name, ty⟩, hmem, rfl⟩ := List.mem_map.mp (Fields.mem_of_mem_toList_ofList hentry)
    exact ⟨rfl, h _ hmem⟩
  exact .record (fun entry he => (hall entry he).1) fun entry he => (hall entry he).2

/-- A default leaves no choice. -/
theorem definite_default {ty d : Ty} (h : ty.default = .ok d) : Definite d := by
  refine default_induction (motive := fun _ d => Definite d)
    ?primitive ?array ?tuple ?record ?map ?table ?nil ?value ?union ?reference ?intersection ?error h
  case primitive => exact fun p => .value _
  case array => exact fun _ _ _ ih _ => .tuple ih
  case tuple =>
    intro members rest values ih
    exact .tuple fun value hvalue => (exists_of_mem_right ih hvalue).choose_spec.2
  case record =>
    intro fields rest isSealed entries ih
    exact definite_sealedOf fun entry hentry => (exists_of_mem_right ih hentry).choose_spec.2.2
  case map => exact fun _ => definite_sealedOf fun _ hmem => (by cases hmem)
  case table => exact .table
  case nil => exact fun _ _ => .value _
  case value => exact fun _ => .value _
  case union => exact fun _ _ ih => ih
  case reference => exact fun _ _ _ ih => ih
  case intersection => exact fun _ _ ih => ih
  case error => exact .error

end Ty

end ConstNarrow
