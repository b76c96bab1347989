/-
**The value of a constant loses nothing.**

A constant is handed on as a value, and its type is not. For a concrete type this is enough: the form
of the type is that of the value, a byte is kept apart from an integer, and the text of a decimal is a
numeral of one meaning. So two concrete types with the same value are the same type.

The converse does not hold. A type does not tell `0.3` from `0.30`, but the texts differ.
-/
import ConstNarrow.Proofs.DecimalText

set_option autoImplicit false

namespace ConstNarrow

/-! ## Values that are the same -/

namespace Value

mutual

/-- Whether two values are the same. Binary numbers are compared by value and decimals by their texts,
and a byte is no integer. -/
def same : Value → Value → Bool
  | .int i, .int j => i == j
  | .byte i, .byte j => i == j
  | .float x, .float y => Binary64.same x y
  | .decimal s, .decimal t => s == t
  | .string s, .string t => s == t
  | .boolean b, .boolean c => b == c
  | .nil, .nil => true
  | .list items, .list others => sameItems items others
  | .map entries, .map others => sameEntries entries others
  | _, _ => false
termination_by structural value => value

/-- Whether two lists hold the same values. -/
def sameItems : List Value → List Value → Bool
  | [], [] => true
  | value :: values, other :: others => value.same other && sameItems values others
  | _, _ => false
termination_by structural values => values

/-- Whether two maps hold the same values under the same keys. -/
def sameEntries : List (String × Value) → List (String × Value) → Bool
  | [], [] => true
  | (key, value) :: entries, (name, other) :: others =>
    key == name && value.same other && sameEntries entries others
  | _, _ => false
termination_by structural entries => entries

end

/-- Lists are the same place by place. -/
theorem sameItems_iff {values others : List Value} :
    sameItems values others = true ↔ List.Forall₂ (fun v w => v.same w = true) values others := by
  induction values generalizing others with
  | nil => cases others <;> simp [sameItems]
  | cons v values ih => cases others <;> simp [sameItems, ih]

/-- Maps are the same entry by entry. -/
theorem sameEntries_iff {entries others : List (String × Value)} :
    sameEntries entries others = true
      ↔ List.Forall₂ (fun v w => v.1 = w.1 ∧ v.2.same w.2 = true) entries others := by
  induction entries generalizing others with
  | nil => cases others <;> simp [sameEntries]
  | cons entry entries ih => cases others <;> simp [sameEntries, ih]

/-- The value of a scalar under its natural primitive. -/
def ofScalar : Scalar → Value
  | .int i => .int i
  | .float x => .float x
  | .decimal d => .decimal d.render
  | .string s => .string s
  | .boolean b => .boolean b
  | .nil => .nil

/-- Whether a value has no parts. -/
def isScalar : Value → Bool
  | .list _ | .map _ => false
  | _ => true

theorem isScalar_of_same {v w : Value} (h : v.same w = true) : v.isScalar = w.isScalar := by
  cases v <;> cases w <;> first | rfl | cases h

end Value

/-! ## Decimals -/

namespace Decimal

/-- A text is a numeral of one value. -/
theorem Numeral.value_eq_of_text_eq {n m : Numeral} (hn : n.IsHeld) (hm : m.IsHeld)
    (h : n.text = m.text) : n.value = m.value := by
  have hchars : n.chars = m.chars := String.ofList_injective h
  have hparts := parts?_chars hn
  rw [hchars, parts?_chars hm] at hparts
  rw [← value_parts, ← value_parts, Option.some.inj hparts]

/-- Decimals with one text are the same. -/
theorem same_of_render_eq {a b : Decimal} (ha : WellFormed a) (hb : WellFormed b)
    (h : a.render = b.render) : a.same b = true := by
  obtain ⟨n, hntext, hnvalue, hnheld⟩ := exists_numeral_render ha
  obtain ⟨m, hmtext, hmvalue, hmheld⟩ := exists_numeral_render hb
  rw [same_iff_value, ← hnvalue, ← hmvalue]
  exact Numeral.value_eq_of_text_eq hnheld hmheld (by rw [hntext, hmtext, h])

end Decimal

/-! ## Single values -/

namespace Singleton

variable {s t : Singleton} {v w : Value}

/-- A value shows the base: there is the byte, and there are scalars under their natural bases. -/
theorem cases_of_ofSingleton? (hs : s.isProper = true) (hv : Value.ofSingleton? s = some v) :
    (∃ i, s = ⟨.int i, .byte⟩ ∧ v = .byte i) ∨ (s = .ofScalar s.value ∧ v = .ofScalar s.value) := by
  rcases isProper_iff.mp hs with hbase | ⟨hbase, i, hi, hbyte⟩
  · refine Or.inr ⟨by rw [ofScalar, ← hbase], ?_⟩
    rw [Value.ofSingleton?, hbase] at hv
    cases hvalue : s.value <;> rw [hvalue] at hv <;> exact (Option.some.inj hv).symm
  · refine Or.inl ⟨i, by rw [← hi, ← hbase], ?_⟩
    rw [Value.ofSingleton?, hi, hbase] at hv
    simp only [if_pos, hbyte] at hv
    exact (Option.some.inj hv).symm

/-- Scalars with one value are the same, if they are made by evaluation. -/
theorem same_of_ofScalar {a b : Scalar} (ha : a.isMade = true) (hb : b.isMade = true)
    (h : (Value.ofScalar a).same (.ofScalar b) = true) : a.same b = true := by
  cases a <;> cases b <;> try cases h
  case decimal a b =>
    exact Decimal.same_of_render_eq (of_decide_eq_true ha) (of_decide_eq_true hb) (beq_iff_eq.mp h)
  all_goals first | exact h | rfl

theorem isScalar_of_ofSingleton? (hv : Value.ofSingleton? s = some v) : v.isScalar = true := by
  unfold Value.ofSingleton? at hv
  split at hv
  case h_1 =>
    split at hv
    · obtain ⟨-, ⟨⟩⟩ := Option.ite_none_right_eq_some.mp hv
      rfl
    · cases hv
      rfl
  all_goals
    cases hv
    rfl

/-- Single values with one value are the same. -/
theorem same_of_ofSingleton? (hs : s.isMade = true) (ht : t.isMade = true)
    (hv : Value.ofSingleton? s = some v) (hw : Value.ofSingleton? t = some w)
    (h : v.same w = true) : s.same t = true := by
  obtain ⟨hsproper, hsmade⟩ := isMade_iff.mp hs
  obtain ⟨htproper, htmade⟩ := isMade_iff.mp ht
  rcases cases_of_ofSingleton? hsproper hv with ⟨i, rfl, rfl⟩ | ⟨hsnatural, rfl⟩
  · rcases cases_of_ofSingleton? htproper hw with ⟨j, rfl, rfl⟩ | ⟨-, rfl⟩
    · exact Bool.and_eq_true_iff.mpr ⟨h, rfl⟩
    -- a byte and an integer show different values
    · cases hvalue : t.value <;> rw [hvalue] at h <;> cases h
  · rcases cases_of_ofSingleton? htproper hw with ⟨j, rfl, rfl⟩ | ⟨htnatural, rfl⟩
    · cases hvalue : s.value <;> rw [hvalue] at h <;> cases h
    · have hsame : s.value.same t.value = true := same_of_ofScalar hsmade htmade h
      have hbase : s.base = t.base := by
        rw [hsnatural, htnatural]
        exact Scalar.naturalBase_of_same hsame
      exact Bool.and_eq_true_iff.mpr ⟨hsame, beq_iff_eq.mpr hbase⟩

end Singleton

/-! ## All types -/

namespace Ty

/-- That a type is told by its value from the other concrete types. -/
def IsTold (ty : Ty) : Prop :=
  ∀ ⦃other : Ty⦄, other.isConcrete Singleton.isMade = true → ∀ ⦃v w : Value⦄,
    Value.ofTy? ty = some v → Value.ofTy? other = some w → v.same w = true → ty.same other = true

theorem isTold_finite {s : Singleton} (hs : s.isMade = true) : IsTold (.finite [s]) := by
  intro other hother v w hv hw h
  -- a value without parts is not that of a list or a record
  have hscalar : w.isScalar = true :=
    (Value.isScalar_of_same h).symm.trans (Singleton.isScalar_of_ofSingleton? hv)
  rcases isConcrete_cases hother with ⟨t, rfl, ht⟩ | ⟨members, rfl, -⟩ | ⟨fields, rfl, -⟩
  · exact same_iff.mpr (.finite (.cons (Singleton.same_of_ofSingleton? hs ht hv hw h) .nil))
  · obtain ⟨ws, -, rfl⟩ := Option.map_eq_some_iff.mp hw
    cases hscalar
  · obtain ⟨ws, -, rfl⟩ := Option.map_eq_some_iff.mp hw
    cases hscalar

theorem forall₂_ofTys? {tys : List Ty} {vs : List Value} (h : Value.ofTys? tys = some vs) :
    List.Forall₂ (fun ty v => Value.ofTy? ty = some v) tys vs := by
  induction tys generalizing vs with
  | nil =>
    cases h
    exact .nil
  | cons ty tys ih =>
    obtain ⟨v, hv, htail⟩ := Option.bind_eq_some_iff.mp h
    obtain ⟨ws, hws, rfl⟩ := Option.map_eq_some_iff.mp htail
    exact .cons hv (ih hws)

theorem forall₂_ofFields? {bound : Option String} : (fields : Fields bound) →
    {vs : List (String × Value)} → Value.ofFields? fields = some vs →
    List.Forall₂ (fun entry v => v.1 = entry.1 ∧ Value.ofTy? entry.2.ty = some v.2) fields.toList vs
  | .nil, _, h => by
    cases h
    exact .nil
  | .cons _ _ _ _ tail, _, h => by
    obtain ⟨v, hv, htail⟩ := Option.bind_eq_some_iff.mp h
    obtain ⟨ws, hws, rfl⟩ := Option.map_eq_some_iff.mp htail
    exact .cons ⟨rfl, hv⟩ (forall₂_ofFields? tail hws)

/-- A list is told by its members. -/
theorem isTold_tuple {members : List Ty} (h : ∀ ty ∈ members, IsTold ty) :
    IsTold (.tuple members none) := by
  intro other hother v w hv hw hsame
  obtain ⟨vs, hvs, rfl⟩ := Option.map_eq_some_iff.mp hv
  rcases isConcrete_cases hother with ⟨t, rfl, ht⟩ | ⟨others, rfl, hothers⟩ | ⟨fields, rfl, -⟩
  · cases (Value.isScalar_of_same hsame).trans (Singleton.isScalar_of_ofSingleton? hw)
  · obtain ⟨ws, hws, rfl⟩ := Option.map_eq_some_iff.mp hw
    refine same_iff.mpr (.tuple ?_ .none)
    refine forall₂_of_square (fun ty hty other hother v w hv hw hvw => ?_) (forall₂_ofTys? hvs)
      (forall₂_ofTys? hws) (Value.sameItems_iff.mp hsame)
    exact h ty hty (hothers other hother) hv hw hvw
  · obtain ⟨ws, -, rfl⟩ := Option.map_eq_some_iff.mp hw
    cases hsame

/-- A record is told by its fields and their names. -/
theorem isTold_record {fields : Fields none}
    (h : ∀ entry ∈ fields.toList, entry.2.required = true ∧ IsTold entry.2.ty) :
    IsTold (sealedRecord fields) := by
  intro other hother v w hv hw hsame
  obtain ⟨vs, hvs, rfl⟩ := Option.map_eq_some_iff.mp hv
  rcases isConcrete_cases hother with ⟨t, rfl, ht⟩ | ⟨others, rfl, -⟩ | ⟨others, rfl, hothers⟩
  · cases (Value.isScalar_of_same hsame).trans (Singleton.isScalar_of_ofSingleton? hw)
  · obtain ⟨ws, -, rfl⟩ := Option.map_eq_some_iff.mp hw
    cases hsame
  · obtain ⟨ws, hws, rfl⟩ := Option.map_eq_some_iff.mp hw
    refine same_iff.mpr (.record true ?_ .none)
    refine forall₂_of_square (fun entry hentry other hother v w hv hw hvw => ?_)
      (forall₂_ofFields? fields hvs) (forall₂_ofFields? others hws) (Value.sameEntries_iff.mp hsame)
    obtain ⟨hrequired, htold⟩ := h entry hentry
    obtain ⟨hrequired', hconcrete⟩ := hothers other hother
    exact ⟨hv.1.symm.trans (hvw.1.trans hw.1), hrequired.trans hrequired'.symm,
      htold hconcrete hv.2 hw.2 hvw.2⟩

/-- **Every concrete type is told by its value.** -/
theorem isTold {ty : Ty} (h : ty.isConcrete Singleton.isMade = true) : IsTold ty :=
  concrete_induction (fun _ => isTold_finite) (fun _ => isTold_tuple) (fun _ => isTold_record) h

end Ty

/-- **The value of a constant loses nothing.** Every concrete type has a value, and concrete types whose
values are the same are the same type: of one form, with the same bases and numerically equal values. -/
theorem value_determines_type {t u : Ty} (ht : t.isConcrete Singleton.isMade = true)
    (hu : u.isConcrete Singleton.isMade = true) :
    ∃ v w, Value.ofTy? t = some v ∧ Value.ofTy? u = some w ∧ (v.same w = true → t.same u = true) := by
  have hproper : ∀ s : Singleton, s.isMade = true → s.isProper = true := fun s hs =>
    (Singleton.isMade_iff.mp hs).1
  obtain ⟨v, hv⟩ := Ty.exists_ofTy (Ty.isConcrete_of_imp hproper ht)
  obtain ⟨w, hw⟩ := Ty.exists_ofTy (Ty.isConcrete_of_imp hproper hu)
  exact ⟨v, w, hv, hw, Ty.isTold ht hu hv hw⟩

/-- A pair of a number under some base and the decimal `0.30`. -/
def Ty.priced (base : Primitive) : Ty :=
  .tuple [.finite [⟨.int 7, base⟩], .finite [⟨.decimal ⟨30, 2⟩, .decimal⟩]] none

theorem priced_in_bytes_differs :
    ((Ty.priced .byte).isConcrete Singleton.isMade = true
        ∧ (Ty.priced .int).isConcrete Singleton.isMade = true)
      ∧ ∃ v w, Value.ofTy? (Ty.priced .byte) = some v ∧ Value.ofTy? (Ty.priced .int) = some w
        ∧ v.same w = false := by
  have hbytes : (Ty.priced .byte).isConcrete Singleton.isMade = true := by decide
  have hints : (Ty.priced .int).isConcrete Singleton.isMade = true := by decide
  obtain ⟨v, w, hv, hw, hsame⟩ := value_determines_type hbytes hints
  refine ⟨⟨hbytes, hints⟩, v, w, hv, hw, Bool.eq_false_iff.mpr fun h => ?_⟩
  exact absurd (hsame h) (by decide)

end ConstNarrow
