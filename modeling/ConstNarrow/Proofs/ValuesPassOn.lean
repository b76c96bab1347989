/-
**Values pass on**: what belongs to a type belongs to every type that this one is assignable to.

Assignability follows the forms of two types. That it is right is a statement about three: a value, a
source that it belongs to, and a target that the source is assignable to. The induction is on the
source. A value has one of three forms, and the target is brought down to one alternative first, so
what is left for each form of the source are the few forms of target that it may go to.

There is one thing that assignability does not look at. A record that is open, or has a rest type,
may hold fields that it does not name. An open record without a rest type is assignable to a sealed
one, and a record with a rest type to one that gives a name to such a field and another type. So the
target has to leave room for further fields; `open_records_lose_values` shows both ways to fail.
-/
import ConstNarrow.Proofs.Refinement

set_option autoImplicit false

namespace ConstNarrow

/-! ## Sameness of values -/

namespace Decimal

theorem pow_ten_pos (n : Nat) : 0 < Int.pow 10 n := Int.pow_pos (by decide)

/-- From one scale to a larger one, the coefficient is multiplied by a power of ten. -/
theorem coefficientAt_of_le (d : Decimal) {low high : Int} (hlow : d.scale ≤ low) (h : low ≤ high) :
    d.coefficientAt high = d.coefficientAt low * Int.pow 10 (high - low).toNat := by
  have hsum : (high - d.scale).toNat = (low - d.scale).toNat + (high - low).toNat := by omega
  have hpow : Int.pow 10 (high - d.scale).toNat
      = Int.pow 10 (low - d.scale).toNat * Int.pow 10 (high - low).toNat := by
    rw [hsum]
    exact Int.pow_add 10 _ _
  rw [coefficientAt, coefficientAt, hpow, Int.mul_assoc]

theorem sign_coefficientAt (d : Decimal) (scale : Int) :
    (d.coefficientAt scale).sign = d.coefficient.sign := by
  rw [coefficientAt, Int.sign_mul, Int.sign_eq_one_of_pos (pow_ten_pos _), Int.mul_one]

/-- **Two decimals are the same if they have the same coefficient at some scale**, and then at every
scale. -/
theorem same_iff {a b : Decimal} {scale : Int} (ha : a.scale ≤ scale) (hb : b.scale ≤ scale) :
    a.same b = true ↔ a.coefficientAt scale = b.coefficientAt scale := by
  unfold same order
  rw [beq_iff_eq]
  split
  · rename_i h
    rw [Std.compare_eq_iff_eq]
    constructor
    · intro hsign
      -- of one sign, and one of them zero: both are
      have hzero : a.coefficient = 0 := by
        rcases h with h | h
        · exact absurd hsign h
        · exact eq_of_beq h
      have hzero' : b.coefficient = 0 := by
        rw [← Int.sign_eq_zero_iff_zero, ← hsign, hzero]
        rfl
      rw [coefficientAt, coefficientAt, hzero, hzero', Int.zero_mul, Int.zero_mul]
    · intro heq
      rw [← sign_coefficientAt a scale, heq, sign_coefficientAt]
  · rw [Std.compare_eq_iff_eq, coefficientAt_of_le a (Int.le_max_left _ _) (Int.max_le.mpr ⟨ha, hb⟩),
      coefficientAt_of_le b (Int.le_max_right _ _) (Int.max_le.mpr ⟨ha, hb⟩)]
    exact (Int.mul_eq_mul_right_iff (Int.ne_of_gt (pow_ten_pos _))).symm

/-- Sameness of decimals is transitive: all of them may be brought to one scale. -/
theorem same_trans {a b c : Decimal} (hab : a.same b = true) (hbc : b.same c = true) :
    a.same c = true := by
  let scale := max a.scale (max b.scale c.scale)
  have ha : a.scale ≤ scale := Int.le_max_left _ _
  have hb : b.scale ≤ scale := Int.le_trans (Int.le_max_left _ _) (Int.le_max_right _ _)
  have hc : c.scale ≤ scale := Int.le_trans (Int.le_max_right _ _) (Int.le_max_right _ _)
  rw [same_iff ha hb] at hab
  rw [same_iff hb hc] at hbc
  exact (same_iff ha hc).mpr (hab.trans hbc)

end Decimal

theorem Scalar.same_trans {a b c : Scalar} (hab : a.same b = true) (hbc : b.same c = true) :
    a.same c = true := by
  cases a <;> cases b <;> cases hab' : c <;> simp_all [same]
  · exact Binary64.same_trans hab hbc
  · exact Decimal.same_trans hab hbc

namespace Singleton

theorem sameValue_trans {r s t : Singleton} (hrs : r.sameValue s = true)
    (hst : s.sameValue t = true) : r.sameValue t = true := by
  obtain ⟨hvalue, hbase⟩ := Bool.and_eq_true_iff.mp hrs
  obtain ⟨hvalue', hbase'⟩ := Bool.and_eq_true_iff.mp hst
  rw [beq_iff_eq] at hbase hbase'
  rw [sameValue, hbase, hbase', beq_self_eq_true, Bool.and_true]
  exact Scalar.same_trans hvalue hvalue'

/-- What a value fits depends on the value alone: its own primitive, and a byte if it is one. -/
theorem fits_iff {s : Singleton} (hs : s.isProper = true) {p : Primitive} :
    s.fits p = true ↔ p = s.value.naturalBase ∨ p = .byte ∧ s.value.int?.any isByte = true := by
  rcases s with ⟨value, base⟩
  rw [isProper_iff] at hs
  cases value <;> cases base <;> cases p <;> simp_all [fits, Scalar.naturalBase, Scalar.int?]

/-- The same value fits the same primitives, whatever it stands under. -/
theorem fits_of_sameValue {s t : Singleton} (hs : s.isProper = true) (ht : t.isProper = true)
    (hsame : s.sameValue t = true) {p : Primitive} (h : s.fits p = true) : t.fits p = true := by
  have hvalue : s.value.same t.value = true := (Bool.and_eq_true_iff.mp hsame).1
  have hint : s.value.int? = t.value.int? := by
    cases hs : s.value <;> cases ht : t.value <;> simp_all [Scalar.same, Scalar.int?]
  rw [fits_iff hs, hint] at h
  rw [fits_iff ht, ← Scalar.naturalBase_of_same hvalue]
  exact h

end Singleton
namespace Ty

/-- A value belongs to the same types as any other that is the same value. -/
theorem admits_of_sameValue {ty : Ty} (hty : ty.everywhere holdsProper = true) {s t : Singleton}
    (hs : s.isProper = true) (ht : t.isProper = true) (hsame : s.sameValue t = true)
    (h : ty.admits s = true) : ty.admits t = true := by
  induction ty using induction_parts with
  | primitive p => exact Singleton.fits_of_sameValue hs ht hsame h
  | finite values =>
    obtain ⟨value, hvalue, hfound⟩ := List.any_eq_true.mp h
    exact List.any_eq_true.mpr ⟨value, hvalue, Singleton.sameValue_trans hfound hsame⟩
  | union members ih =>
    obtain ⟨member, hmem, hadmits⟩ := admitsAny_iff.mp h
    exact admitsAny_iff.mpr ⟨member, hmem, ih member hmem ((everywhere_union.mp hty).2 member hmem) hadmits⟩
  | reference name referred ih => exact ih (everywhere_reference.mp hty).2 h
  | intersection inner ih => exact ih (everywhere_intersection.mp hty).2 h
  | anydata | json | error => rfl
  | array | tuple | record | map | table => cases h

/-! ## Sources with a shape of their own -/

/-- Whether a source is compared as a whole, and is neither taken apart nor looked through. -/
def isShaped : Ty → Bool
  | .error | .reference _ _ | .intersection _ | .union _ | .finite _ => false
  | _ => true

/-- Whether a target takes whatever is a value. -/
def isBroad : Ty → Bool
  | .anydata | .json => true
  | _ => false

/-- Whether a target is compared as a whole. -/
def isDirect : Ty → Bool
  | .error | .reference _ _ | .intersection _ | .union _ => false
  | ty => !ty.isBroad

/-- That a type occurs in another one, as far as can be said by what holds everywhere. -/
def OccursIn (part whole : Ty) : Prop :=
  ∀ f : Ty → Bool, whole.everywhere f = true → part.everywhere f = true

theorem everyAlternative_of_isShaped {source : Ty} (h : source.isShaped = true) {target : Ty}
    {value : Singleton → Bool} {shape : Ty → Bool} :
    source.everyAlternative target value shape = (source == target || shape source) := by
  cases source <;> first | rfl | cases h

/-- **A source with a shape goes to one alternative of a target**, where names are looked through and
one member of a union is taken. -/
theorem exists_alternative {source target : Ty} (hsource : source.isShaped = true)
    (herror : target.everywhere isNoError = true) (h : target.accepts source = true) :
    ∃ core : Ty, (core.isBroad = true ∨ core.isDirect = true) ∧ core.accepts source = true
      ∧ (∀ ty, core.accepts ty = true → target.accepts ty = true) ∧ core.OccursIn target := by
  induction target using induction_parts with
  | reference name referred ih =>
    obtain ⟨core, hcore, haccepts, hback, hevery⟩ := ih (everywhere_reference.mp herror).2 h
    exact ⟨core, hcore, haccepts, hback, fun f hf => hevery f (everywhere_reference.mp hf).2⟩
  | intersection inner ih =>
    obtain ⟨core, hcore, haccepts, hback, hevery⟩ := ih (everywhere_intersection.mp herror).2 h
    exact ⟨core, hcore, haccepts, hback, fun f hf => hevery f (everywhere_intersection.mp hf).2⟩
  | union members ih =>
    rw [accepts, everyAlternative_of_isShaped hsource, Bool.or_eq_true] at h
    have hany : acceptsAny members source = true := by
      rcases h with hsame | hany
      · cases source <;> first | cases hsame | cases hsource
      · exact hany
    obtain ⟨member, hmem, hmember⟩ := acceptsAny_iff.mp hany
    obtain ⟨core, hcore, haccepts, hback, hevery⟩ :=
      ih member hmem ((everywhere_union.mp herror).2 member hmem) hmember
    exact ⟨core, hcore, haccepts, fun ty hty => joins ty members member hmem (hback ty hty),
      fun f hf => hevery f ((everywhere_union.mp hf).2 member hmem)⟩
  | error => cases herror
  | anydata | json => exact ⟨_, Or.inl rfl, h, fun _ hty => hty, fun _ hf => hf⟩
  | primitive | array | tuple | record | map | table | finite =>
    exact ⟨_, Or.inr rfl, h, fun _ hty => hty, fun _ hf => hf⟩

/-! ## Structures -/

theorem acceptsOption_iff {default : Bool} {rest : Option Ty} {source : Ty} :
    acceptsOption default rest source = true ↔
      (rest = none ∧ default = true) ∨ ∃ ty ∈ rest, ty.accepts source = true := by
  cases rest <;> simp [acceptsOption]

theorem acceptsEach_of_same {members sources : List Ty} {extra : Ty → Bool}
    (h : List.Forall₂ AreSame sources members) : acceptsEach members extra sources = true := by
  induction h with
  | nil => rfl
  | @cons source member sources members hfirst _ ih =>
    rw [acceptsEach, accepts_of_same member hfirst, ih]
    rfl

theorem exists_accepts_of_same {rest other : Option Ty} (h : Option.Rel AreSame rest other) {ty : Ty}
    (hty : ty ∈ rest) : ∃ target ∈ other, target.accepts ty = true := by
  cases h with
  | none => cases hty
  | @some first target hsame =>
    cases hty
    exact ⟨target, rfl, accepts_of_same target hsame⟩

/-- Position by position: there is a source for each member, and each source is assignable to the
type of its position. -/
theorem acceptsEach_iff {members sources : List Ty} {rest : Option Ty} :
    acceptsEach members (acceptsOption false rest) sources = true ↔
      members.length ≤ sources.length ∧ ∀ (i : Nat) (source : Ty), sources[i]? = some source →
        ∃ ty, position? members rest i = some ty ∧ ty.accepts source = true := by
  induction members generalizing sources with
  | nil =>
    simp only [acceptsEach, List.all_eq_true, acceptsOption_iff, position?, List.getElem?_nil,
      Option.none_or, List.length_nil, Nat.zero_le, true_and, Bool.false_eq_true, and_false, false_or]
    constructor
    · exact fun h i source hi => h source (List.mem_of_getElem? hi)
    · intro h source hmem
      obtain ⟨i, hi⟩ := List.mem_iff_getElem?.mp hmem
      exact h i source hi
  | cons member members ih =>
    cases sources with
    | nil => simp [acceptsEach]
    | cons source sources =>
      rw [acceptsEach, Bool.and_eq_true, ih]
      constructor
      · rintro ⟨hfirst, hlen, hrest⟩
        refine ⟨Nat.succ_le_succ hlen, fun i other hi => ?_⟩
        cases i with
        | zero =>
          cases hi
          exact ⟨member, rfl, hfirst⟩
        | succ i => exact hrest i other hi
      · rintro ⟨hlen, hall⟩
        obtain ⟨ty, hty, haccepts⟩ := hall 0 source rfl
        cases hty
        exact ⟨haccepts, Nat.le_of_succ_le_succ hlen, fun i other hi => hall (i + 1) other hi⟩

/-- **Tuples**: what is the same is assignable position by position too. -/
theorem tuple_accepts_iff {members sources : List Ty} {rest sourceRest : Option Ty} :
    (Ty.tuple members rest).accepts (.tuple sources sourceRest) = true ↔
      acceptsEach members (acceptsOption false rest) sources = true
        ∧ ∀ ty ∈ sourceRest, ∃ other ∈ rest, other.accepts ty = true := by
  rw [accepts, everyAlternative_of_isShaped rfl, Bool.or_eq_true, Bool.and_eq_true]
  have hrest : sourceRest.all (acceptsOption false rest) = true ↔
      ∀ ty ∈ sourceRest, ∃ other ∈ rest, other.accepts ty = true := by
    cases sourceRest <;> simp [acceptsOption_iff]
  rw [hrest]
  refine or_iff_right_of_imp fun hsame => ?_
  cases same_iff.mp hsame with
  | tuple hmembers hoption =>
    exact ⟨acceptsEach_of_same hmembers, fun ty hty => exists_accepts_of_same hoption hty⟩

/-- **What it takes for a record to be assignable to another one.** -/
structure Fills (sources : Fields none) (sourceRest : Option Ty) (fields : Fields none)
    (rest : Option Ty) (isSealed : Bool) : Prop where
  missing : ∀ name field, fields.get? name = some field → sources.get? name = none →
    field.required = false
  present : ∀ name field source, fields.get? name = some field → sources.get? name = some source →
    (field.required = true → source.required = true) ∧ field.ty.accepts source.ty = true
  placed : ∀ name source, sources.get? name = some source → fields.get? name = none →
    acceptsOption (!isSealed) rest source.ty = true
  further : ∀ ty ∈ sourceRest, acceptsOption (!isSealed) rest ty = true

theorem fills_of_same {sources fields : Fields none} {sourceRest rest : Option Ty} {isSealed : Bool}
    (hfields : List.Forall₂ SameField sources.toList fields.toList)
    (hrest : Option.Rel AreSame sourceRest rest) : Fills sources sourceRest fields rest isSealed := by
  have hget := rel_get? sources fields hfields
  refine ⟨fun name field hfield hnone => ?_, fun name field source hfield hsource => ?_,
    fun name source hsource hnone => ?_, fun ty hty => ?_⟩
  -- a name that only one of the two has is impossible
  · have hfound := hget name
    rw [hnone, hfield] at hfound
    cases hfound
  · have hfound := hget name
    rw [hsource, hfield] at hfound
    cases hfound with
    | some hsame => exact ⟨fun h => hsame.1.trans h, accepts_of_same _ hsame.2⟩
  · have hfound := hget name
    rw [hsource, hnone] at hfound
    cases hfound
  · exact acceptsOption_iff.mpr (Or.inr (exists_accepts_of_same hrest hty))

/-- **Records**: what is the same fills the fields too. -/
theorem record_accepts_iff {sources fields : Fields none} {sourceRest rest : Option Ty}
    {isSealed sourceSealed : Bool} :
    (Ty.record fields rest isSealed).accepts (.record sources sourceRest sourceSealed) = true ↔
      Fills sources sourceRest fields rest isSealed := by
  rw [accepts, everyAlternative_of_isShaped rfl, Bool.or_eq_true]
  constructor
  -- records that are the same fit field by field as well, so one description covers both
  · rintro (hsame | hshape)
    · cases same_iff.mp hsame with
      | record isSealed hfields hrest => exact fills_of_same hfields hrest
    · simp only [Bool.and_eq_true, List.all_eq_true, Bool.or_eq_true, acceptsFields_iff] at hshape
      obtain ⟨⟨hfields, hplaced⟩, hfurther⟩ := hshape
      refine ⟨fun name field hfield hnone => ?_, fun name field source hfield hsource => ?_,
        fun name source hsource hnone => ?_, fun ty hty => ?_⟩
      · have h := hfields _ (Fields.mem_toList_of_get? fields hfield)
        rw [hnone] at h
        exact h
      · have h := hfields _ (Fields.mem_toList_of_get? fields hfield)
        rw [hsource] at h
        exact h
      · rcases hplaced _ (Fields.mem_toList_of_get? sources hsource) with h | h
        · rw [Fields.contains, hnone] at h
          cases h
        · exact h
      · cases hty
        exact hfurther
  · intro h
    refine Or.inr ?_
    simp only [Bool.and_eq_true, List.all_eq_true, Bool.or_eq_true, acceptsFields_iff]
    refine ⟨⟨fun entry hentry => ?_, fun entry hentry => ?_⟩, ?_⟩
    · have hfield := Fields.get?_of_mem_toList fields hentry
      split
      · rename_i source hsource
        exact h.present entry.1 entry.2 source hfield hsource
      · rename_i hnone
        exact h.missing entry.1 entry.2 hfield hnone
    · have hsource := Fields.get?_of_mem_toList sources hentry
      cases hfield : fields.get? entry.1 with
      | some field => exact Or.inl (by rw [Fields.contains, hfield]; rfl)
      | none => exact Or.inr (h.placed entry.1 entry.2 hsource hfield)
    · cases sourceRest with
      | none => rfl
      | some ty => exact h.further ty rfl

/-! ## What values belong to -/

section Values

variable {value : Ty}

theorem isShaped_or_singleton (h : value.isConcrete Singleton.isProper = true) :
    value.isShaped = true ∨ ∃ s : Singleton, value = .finite [s] ∧ s.isProper = true := by
  rcases isConcrete_cases h with ⟨s, rfl, hs⟩ | ⟨members, rfl, -⟩ | ⟨fields, rfl, -⟩
  · exact Or.inr ⟨s, rfl, hs⟩
  · exact Or.inl rfl
  · exact Or.inl rfl

/-- A broad type takes every value, since every value can be written as JSON. -/
theorem accepts_of_isBroad {ty : Ty} (hty : ty.isBroad = true)
    (h : value.isConcrete Singleton.isProper = true) : ty.accepts value = true := by
  cases ty with
  | anydata => exact anydata_accepts value
  | json => exact json_accepts (isJson_of_isConcrete h)
  | _ => cases hty

/-- A value belongs to a union by way of one member. -/
theorem exists_member_of_union {members : List Ty} (hv : value.isConcrete Singleton.isProper = true)
    (h : (Ty.union members).accepts value = true) :
    ∃ member ∈ members, member.accepts value = true := by
  rcases isShaped_or_singleton hv with hshaped | ⟨s, rfl, -⟩
  · rw [accepts, everyAlternative_of_isShaped hshaped, Bool.or_eq_true] at h
    rcases h with hsame | hany
    · cases value <;> first | cases hsame | cases hshaped
    · exact acceptsAny_iff.mp hany
  · obtain ⟨member, hmem, hadmits⟩ :=
      admitsAny_iff.mp ((accepts_finite_iff _).mp h s List.mem_cons_self)
    exact ⟨member, hmem, accepts_singleton member hadmits⟩

theorem exists_value_of_finite {values : List Singleton}
    (hv : value.isConcrete Singleton.isProper = true)
    (h : (Ty.finite values).accepts value = true) :
    ∃ s : Singleton, value = .finite [s] ∧ s.isProper = true ∧ ∃ t ∈ values, t.sameValue s = true := by
  rcases isConcrete_cases hv with ⟨s, rfl, hs⟩ | ⟨members, rfl, -⟩ | ⟨fields, rfl, -⟩
  · exact ⟨s, rfl, hs, List.any_eq_true.mp ((accepts_finite_iff _).mp h s List.mem_cons_self)⟩
  · cases h
  · cases h

theorem exists_value_of_primitive {p : Primitive} (hv : value.isConcrete Singleton.isProper = true)
    (h : (Ty.primitive p).accepts value = true) :
    ∃ s : Singleton, value = .finite [s] ∧ s.isProper = true ∧ s.fits p = true := by
  rcases isConcrete_cases hv with ⟨s, rfl, hs⟩ | ⟨members, rfl, -⟩ | ⟨fields, rfl, -⟩
  · exact ⟨s, rfl, hs, (accepts_finite_iff _).mp h s List.mem_cons_self⟩
  · cases h
  · cases h

theorem exists_tuple_of_array {elem : Ty} {size : ArraySize}
    (hv : value.isConcrete Singleton.isProper = true)
    (h : (Ty.array elem size).accepts value = true) :
    ∃ values, value = .tuple values none ∧ sizeAcceptsTuple size values none = true
      ∧ ∀ ty ∈ values, elem.accepts ty = true := by
  rcases isConcrete_cases hv with ⟨s, rfl, -⟩ | ⟨values, rfl, -⟩ | ⟨fields, rfl, -⟩
  · cases (accepts_finite_iff _).mp h s List.mem_cons_self
  · rw [accepts, everyAlternative_of_isShaped rfl, Bool.or_eq_true] at h
    rcases h with hsame | hshape
    · cases hsame
    · simp only [Bool.and_eq_true, List.all_eq_true] at hshape
      exact ⟨values, rfl, hshape.1.1, hshape.1.2⟩
  · cases h

theorem exists_tuple_of_tuple {members : List Ty} {rest : Option Ty}
    (hv : value.isConcrete Singleton.isProper = true)
    (h : (Ty.tuple members rest).accepts value = true) :
    ∃ values, value = .tuple values none
      ∧ acceptsEach members (acceptsOption false rest) values = true := by
  rcases isConcrete_cases hv with ⟨s, rfl, -⟩ | ⟨values, rfl, -⟩ | ⟨fields, rfl, -⟩
  · cases (accepts_finite_iff _).mp h s List.mem_cons_self
  · exact ⟨values, rfl, (tuple_accepts_iff.mp h).1⟩
  · cases h

theorem exists_record_of_record {fields : Fields none} {rest : Option Ty} {isSealed : Bool}
    (hv : value.isConcrete Singleton.isProper = true)
    (h : (Ty.record fields rest isSealed).accepts value = true) :
    ∃ values, value = sealedRecord values ∧ Fills values none fields rest isSealed
      ∧ ∀ name field, values.get? name = some field →
        field.required = true ∧ field.ty.isConcrete Singleton.isProper = true := by
  rcases isConcrete_cases hv with ⟨s, rfl, -⟩ | ⟨values, rfl, -⟩ | ⟨values, rfl, hvalues⟩
  · cases (accepts_finite_iff _).mp h s List.mem_cons_self
  · cases h
  · exact ⟨values, rfl, record_accepts_iff.mp h, fun name field hfield =>
      hvalues _ (Fields.mem_toList_of_get? values hfield)⟩

theorem map_accepts_sealedRecord_iff {constraint : Ty} {fields : Fields none} :
    (Ty.map constraint).accepts (sealedRecord fields) = true ↔
      ∀ entry ∈ fields.toList, constraint.accepts entry.2.ty = true := by
  rw [sealedRecord, accepts, everyAlternative_of_isShaped rfl]
  simp only [Bool.and_eq_true, Bool.or_eq_true, List.all_eq_true, Option.all_none, and_true, true_or]
  exact or_iff_right fun hsame => by cases hsame

theorem exists_record_of_map {constraint : Ty} (hv : value.isConcrete Singleton.isProper = true)
    (h : (Ty.map constraint).accepts value = true) :
    ∃ values, value = sealedRecord values
      ∧ ∀ entry ∈ values.toList, constraint.accepts entry.2.ty = true := by
  rcases isConcrete_cases hv with ⟨s, rfl, -⟩ | ⟨values, rfl, -⟩ | ⟨values, rfl, -⟩
  · cases (accepts_finite_iff _).mp h s List.mem_cons_self
  · cases h
  · exact ⟨values, rfl, map_accepts_sealedRecord_iff.mp h⟩

end Values

/-! ## Room for further fields -/

/-- Whether a type is not the error type, and its values stand under their own primitives, apart from
its parts. -/
def isWellFormed : Ty → Bool
  | .error => false
  | .finite values => values.all Singleton.isProper
  | _ => true

/-- What a record may hold under names that are not its own, if anything: what `rest` says, or else
whatever is a value. -/
def further? (rest : Option Ty) (isSealed : Bool) : Option Ty :=
  rest.or (if isSealed then none else some .json)

/-- Whether a record has room for the further fields of another one, wherever they may turn up: among
its own further fields, or under a name that only the first one has. Assignability asks only about
the type `rest`, and not about the fields of the first one. -/
def hasRoomFor : (target source : Ty) → Bool
  | .record fields rest isSealed, .record sources sourceRest sourceSealed =>
    (further? sourceRest sourceSealed).all fun further =>
      acceptsOption (!isSealed) rest further
        && fields.toList.all fun (name, field) =>
          sources.contains name || field.ty.accepts further
  | _, _ => true

/-- Whether all records of a target have room for those records of a source that are assignable to
them. -/
def leavesRoom (source target : Ty) : Bool :=
  source.everywhere fun part => target.everywhere fun place =>
    !part.isAssignable place || place.hasRoomFor part

/-- What is asked of a source and a target for values to pass from one to the other. -/
structure Fair (source target : Ty) : Prop where
  wellFormed : source.everywhere isWellFormed = true
  targetWellFormed : target.everywhere isWellFormed = true
  room : source.leavesRoom target = true

section Fair

variable {source target part place : Ty}

theorem Fair.of_part (h : Fair source target) (hpart : part.OccursIn source) : Fair part target :=
  ⟨hpart _ h.wellFormed, h.targetWellFormed, hpart _ h.room⟩

theorem Fair.of_place (h : Fair source target) (hplace : place.OccursIn target) : Fair source place :=
  ⟨h.wellFormed, hplace _ h.targetWellFormed,
    everywhere_of_imp (fun _ hroom _ => hplace _ hroom) h.room h.room⟩

theorem everywhere_isNoError {ty : Ty} (h : ty.everywhere isWellFormed = true) :
    ty.everywhere isNoError = true := by
  refine everywhere_of_imp (fun ty hty _ => ?_) h h
  cases ty with
  | error => cases hty
  | _ => rfl

theorem holdsProper_of_isWellFormed {ty : Ty} (h : ty.everywhere isWellFormed = true) :
    ty.everywhere holdsProper = true := by
  refine everywhere_of_imp (fun ty hty _ => ?_) h h
  cases ty with
  | finite values => exact hty
  | _ => rfl

/-- Two records that meet have room. -/
theorem Fair.hasRoomFor (h : Fair source target) (haccepts : target.accepts source = true) :
    target.hasRoomFor source = true := by
  have hroom : (!source.isAssignable target || target.hasRoomFor source) = true :=
    everywhere_self (everywhere_self (f := fun part => target.everywhere fun place =>
      !part.isAssignable place || place.hasRoomFor part) h.room)
  rwa [isAssignable, haccepts, Bool.not_true, Bool.false_or] at hroom

end Fair

section Parts

variable {members : List Ty} {rest : Option Ty} {fields : Fields none} {isSealed : Bool} {ty : Ty}

theorem occursIn_array {size : ArraySize} : ty.OccursIn (.array ty size) :=
  fun _ h => (everywhere_array.mp h).2

theorem occursIn_map : ty.OccursIn (.map ty) := fun _ h => (everywhere_map.mp h).2

theorem occursIn_union (h : ty ∈ members) : ty.OccursIn (.union members) :=
  fun _ hf => (everywhere_union.mp hf).2 ty h

theorem occursIn_members (h : ty ∈ members) : ty.OccursIn (.tuple members rest) :=
  fun _ hf => (everywhere_tuple.mp hf).2.1 ty h

theorem occursIn_tuple_rest (h : ty ∈ rest) : ty.OccursIn (.tuple members rest) :=
  fun _ hf => (everywhere_tuple.mp hf).2.2 ty h

theorem occursIn_field {name : String} {field : Field} (h : fields.get? name = some field) :
    field.ty.OccursIn (.record fields rest isSealed) :=
  fun _ hf => (everywhere_record.mp hf).2.1 _ (Fields.mem_toList_of_get? fields h)

theorem occursIn_record_rest (h : ty ∈ rest) : ty.OccursIn (.record fields rest isSealed) :=
  fun _ hf => (everywhere_record.mp hf).2.2 ty h

theorem occursIn_position {i : Nat} (h : position? members rest i = some ty) :
    ty.OccursIn (.tuple members rest) := by
  rcases Option.or_eq_some_iff.mp h with hmember | ⟨-, hrest⟩
  · exact occursIn_members (List.mem_of_getElem? hmember)
  · exact occursIn_tuple_rest hrest

end Parts

/-! ## Values pass on -/

/-- That values pass on: what belongs to a source belongs to every target that the source is
assignable to. -/
def Passes (source : Ty) : Prop :=
  ∀ target value : Ty, Fair source target → value.isConcrete Singleton.isProper = true →
    source.accepts value = true → target.accepts source = true → target.accepts value = true

/-- It is enough to look at targets that are compared as a whole. -/
theorem passes_of_direct {source : Ty} (hshaped : source.isShaped = true)
    (h : ∀ target value : Ty, target.isDirect = true → Fair source target →
      value.isConcrete Singleton.isProper = true → source.accepts value = true →
      target.accepts source = true → target.accepts value = true) : source.Passes := by
  intro target value hfair hvalue hbelongs haccepts
  obtain ⟨core, hcore, hcoreAccepts, hback, hoccurs⟩ :=
    exists_alternative hshaped (everywhere_isNoError hfair.targetWellFormed) haccepts
  refine hback value ?_
  rcases hcore with hbroad | hdirect
  · exact accepts_of_isBroad hbroad hvalue
  · exact h core value hdirect (hfair.of_place hoccurs) hvalue hbelongs hcoreAccepts

theorem passes_primitive (p : Primitive) : (Ty.primitive p).Passes := by
  refine passes_of_direct rfl fun target value hdirect hfair hvalue hbelongs haccepts => ?_
  obtain ⟨s, rfl, hs, hfits⟩ := exists_value_of_primitive hvalue hbelongs
  refine accepts_singleton target ?_
  cases target with
  | primitive q =>
    rw [accepts, everyAlternative_of_isShaped rfl] at haccepts
    have hle : p = q ∨ p = .byte ∧ q = .int := by
      simpa [show (Ty.primitive p == Ty.primitive q) = (p == q) from rfl] using haccepts
    show s.fits q = true
    rcases hle with rfl | ⟨rfl, rfl⟩
    · exact hfits
    · -- a byte is an integer
      rcases (Singleton.fits_iff hs).mp hfits with hbase | ⟨-, hbyte⟩
      · cases hs' : s.value <;> rw [hs'] at hbase <;> cases hbase
      · refine (Singleton.fits_iff hs).mpr (Or.inl ?_)
        cases hs' : s.value <;> rw [hs'] at hbyte <;> first | rfl | cases hbyte
  | finite values =>
    -- only nil, of which there is one value
    have hnil : p = .nil ∧ ∃ t ∈ values, t.base = .nil := by
      rw [accepts, everyAlternative_of_isShaped rfl] at haccepts
      simpa [show (Ty.primitive p == Ty.finite values) = false from rfl] using haccepts
    obtain ⟨rfl, t, ht, hbase⟩ := hnil
    have hproper : values.all Singleton.isProper = true := everywhere_self hfair.targetWellFormed
    have hsnil : s = .nil := by
      rcases s with ⟨scalar, base⟩
      rw [Singleton.isProper_iff] at hs
      cases scalar <;> cases base <;> simp_all [Singleton.fits, Scalar.naturalBase]
      rfl
    subst hsnil
    exact List.any_eq_true.mpr
      ⟨t, ht, Singleton.sameValue_nil (List.all_eq_true.mp hproper t ht) hbase⟩
  | array | tuple | record | map | table => cases haccepts
  | _ => cases hdirect

/-- Nothing that is compared as a whole takes all values. -/
theorem passes_of_isBroad {source : Ty} (h : source.isBroad = true) : source.Passes := by
  cases source with
  | anydata =>
    refine passes_of_direct rfl fun target value hdirect _ _ _ haccepts => ?_
    cases target with
    | primitive | array | tuple | record | map | table | finite => cases haccepts
    | _ => cases hdirect
  | json =>
    refine passes_of_direct rfl fun target value hdirect _ _ _ haccepts => ?_
    cases target with
    | primitive | array | tuple | record | map | table | finite => cases haccepts
    | _ => cases hdirect
  | _ => cases h

theorem fair_json {target : Ty} (h : target.everywhere isWellFormed = true) : Fair .json target := by
  refine ⟨rfl, h, ?_⟩
  show target.everywhere _ = true
  refine everywhere_of_imp (fun place _ _ => ?_) h h
  rw [Bool.or_eq_true]
  refine Or.inr ?_
  cases place <;> rfl

theorem passes_array {elem : Ty} (size : ArraySize) (ih : elem.Passes) :
    (Ty.array elem size).Passes := by
  refine passes_of_direct rfl fun target value hdirect hfair hvalue hbelongs haccepts => ?_
  obtain ⟨values, rfl, hsize, hvalues⟩ := exists_tuple_of_array hvalue hbelongs
  have hconcrete := isConcrete_tuple.mp hvalue
  have hpart := hfair.of_part occursIn_array
  cases target with
  | array other otherSize =>
    rw [accepts, everyAlternative_of_isShaped rfl, Bool.or_eq_true] at haccepts
    obtain ⟨hsizes, helem⟩ : sizeAccepts otherSize size = true ∧ other.accepts elem = true := by
      rcases haccepts with hsame | hshape
      · obtain ⟨helem, hsizes⟩ := Bool.and_eq_true_iff.mp hsame
        cases eq_of_beq hsizes
        exact ⟨by cases size <;> simp [sizeAccepts], accepts_of_same other helem⟩
      · exact Bool.and_eq_true_iff.mp hshape
    refine array_accepts_tuple (fun ty hty => ?_) ?_
    · exact ih other ty (hpart.of_place occursIn_array) (hconcrete ty hty) (hvalues ty hty) helem
    · cases otherSize <;> cases size <;> simp_all [sizeAccepts, sizeAcceptsTuple]
  | tuple members rest =>
    -- only a tuple without members of its own takes any number of values
    obtain ⟨hempty, other, hrest, helem⟩ : members = [] ∧ ∃ other ∈ rest, other.accepts elem = true := by
      rw [accepts, everyAlternative_of_isShaped rfl, Bool.or_eq_true] at haccepts
      rcases haccepts with hsame | hshape
      · cases hsame
      · obtain ⟨hempty, helem⟩ := Bool.and_eq_true_iff.mp hshape
        refine ⟨List.isEmpty_iff.mp hempty, ?_⟩
        simpa [acceptsOption_iff] using helem
    subst hempty
    refine tuple_accepts_tuple .nil fun ty hty => ⟨other, hrest, ?_⟩
    exact ih other ty (hpart.of_place (occursIn_tuple_rest hrest)) (hconcrete ty hty) (hvalues ty hty)
      helem
  | finite | primitive | record | map | table => cases haccepts
  | _ => cases hdirect

theorem acceptsOption_of_imp {default : Bool} {rest : Option Ty} {source other : Ty}
    (h : acceptsOption default rest source = true)
    (himp : ∀ place ∈ rest, place.accepts source = true → place.accepts other = true) :
    acceptsOption default rest other = true := by
  cases rest with
  | none => exact h
  | some place => exact himp place rfl h

theorem passes_tuple {members : List Ty} {rest : Option Ty} (ih : ∀ ty ∈ members, ty.Passes)
    (ihrest : ∀ ty ∈ rest, ty.Passes) : (Ty.tuple members rest).Passes := by
  refine passes_of_direct rfl fun target value hdirect hfair hvalue hbelongs haccepts => ?_
  obtain ⟨values, rfl, hvalues⟩ := exists_tuple_of_tuple hvalue hbelongs
  obtain ⟨hlen, hvalues⟩ := acceptsEach_iff.mp hvalues
  have hconcrete := isConcrete_tuple.mp hvalue
  -- what stands at a position passes on to any place that takes the type of the position
  have hpasses : ∀ (i : Nat) (ty value place : Ty), position? members rest i = some ty →
      values[i]? = some value → place.OccursIn target → place.accepts ty = true →
      ty.accepts value = true → place.accepts value = true := by
    intro i ty value place hty hvalue hplace haccepts hbelongs
    have hself : ty.Passes := by
      rcases Option.or_eq_some_iff.mp hty with hmember | ⟨-, hrest⟩
      · exact ih ty (List.mem_of_getElem? hmember)
      · exact ihrest ty hrest
    exact hself place value ((hfair.of_part (occursIn_position hty)).of_place hplace)
      (hconcrete value (List.mem_of_getElem? hvalue)) hbelongs haccepts
  cases target with
  | array elem size =>
    obtain ⟨hsize, helem⟩ : sizeAcceptsTuple size members rest = true
        ∧ ∀ i ty, position? members rest i = some ty → elem.accepts ty = true := by
      rw [accepts, everyAlternative_of_isShaped rfl, Bool.or_eq_true] at haccepts
      rcases haccepts with hsame | hshape
      · cases hsame
      · simp only [Bool.and_eq_true, List.all_eq_true] at hshape
        obtain ⟨⟨hsize, hmembers⟩, hrest⟩ := hshape
        refine ⟨hsize, fun i ty hty => ?_⟩
        rcases Option.or_eq_some_iff.mp hty with hmember | ⟨-, hsome⟩
        · exact hmembers ty (List.mem_of_getElem? hmember)
        · rw [hsome] at hrest
          exact hrest
    refine array_accepts_tuple (fun value hmem => ?_) ?_
    · obtain ⟨i, hi⟩ := List.mem_iff_getElem?.mp hmem
      obtain ⟨ty, hty, hbelongs⟩ := hvalues i value hi
      exact hpasses i ty value elem hty hi occursIn_array (helem i ty hty) hbelongs
    · cases size with
      | unbounded => rfl
      | inferred => rfl
      | closed n =>
        -- without a rest type there is no position past the members
        obtain ⟨hrest, hn⟩ := Bool.and_eq_true_iff.mp hsize
        cases Option.isNone_iff_eq_none.mp hrest
        have hle : values.length ≤ members.length := by
          by_contra hlt
          have hlt := Nat.lt_of_not_le hlt
          obtain ⟨ty, hty, -⟩ := hvalues members.length _ (List.getElem?_eq_getElem hlt)
          simp [position?] at hty
        have heq : values.length = n := (Nat.le_antisymm hle hlen).trans (eq_of_beq hn)
        simp [sizeAcceptsTuple, heq]
  | tuple others otherRest =>
    obtain ⟨heach, hrests⟩ := tuple_accepts_iff.mp haccepts
    obtain ⟨hothers, heach⟩ := acceptsEach_iff.mp heach
    refine tuple_accepts_iff.mpr ⟨acceptsEach_iff.mpr ⟨Nat.le_trans hothers hlen, fun i value hi => ?_⟩,
      fun ty hty => by cases hty⟩
    obtain ⟨ty, hty, hbelongs⟩ := hvalues i value hi
    obtain ⟨other, hother, haccepts⟩ :
        ∃ other, position? others otherRest i = some other ∧ other.accepts ty = true := by
      rcases Option.or_eq_some_iff.mp hty with hmember | ⟨hnone, hrest⟩
      · exact heach i ty hmember
      · obtain ⟨other, hother, haccepts⟩ := hrests ty hrest
        have hpast : others[i]? = none :=
          List.getElem?_eq_none (Nat.le_trans hothers (List.getElem?_eq_none_iff.mp hnone))
        exact ⟨other, by rw [position?, hpast, Option.none_or]; exact hother, haccepts⟩
    exact ⟨other, hother, hpasses i ty value other hty hi (occursIn_position hother) haccepts hbelongs⟩
  | finite | primitive | record | map | table => cases haccepts
  | _ => cases hdirect

/-- **How the fields of a value pass on.** A field of a value is one of the source or a further one.
Either way there is a type of the source that it belongs to, and a place in the target that takes
this type takes the field. -/
structure Delivers (fields : Fields none) (rest : Option Ty) (isSealed : Bool) (target : Ty)
    (values : Fields none) : Prop where
  fills : Fills values none fields rest isSealed
  required : ∀ name value, values.get? name = some value → value.required = true
  field : ∀ name field value (place : Ty), fields.get? name = some field →
    values.get? name = some value → place.OccursIn target → place.accepts field.ty = true →
    place.accepts value.ty = true
  further : ∀ name value, fields.get? name = none → values.get? name = some value →
    ∃ ty ∈ further? rest isSealed, ∀ place : Ty, place.OccursIn target →
      place.accepts ty = true → place.accepts value.ty = true

section Record

variable {fields : Fields none} {rest : Option Ty} {isSealed : Bool} {target : Ty}
  {values : Fields none}

/-- **Fields pass on** if values do from the types of the fields and from the rest type. -/
theorem delivers (ih : ∀ entry ∈ fields.toList, entry.2.ty.Passes) (ihrest : ∀ ty ∈ rest, ty.Passes)
    (hfair : Fair (.record fields rest isSealed) target)
    (hfills : Fills values none fields rest isSealed)
    (hvalues : ∀ name value, values.get? name = some value →
      value.required = true ∧ value.ty.isConcrete Singleton.isProper = true) :
    Delivers fields rest isSealed target values where
  fills := hfills
  required := fun name value hvalue => (hvalues name value hvalue).1
  field := by
    intro name field value place hfield hvalue hplace htakes
    exact ih _ (Fields.mem_toList_of_get? fields hfield) place value.ty
      ((hfair.of_part (occursIn_field hfield)).of_place hplace) (hvalues name value hvalue).2
      (hfills.present name field value hfield hvalue).2 htakes
  further := by
    intro name value hnone hvalue
    have hconcrete := (hvalues name value hvalue).2
    rcases acceptsOption_iff.mp (hfills.placed name value hvalue hnone)
      with ⟨rfl, hopen⟩ | ⟨ty, hty, hbelongs⟩
    · -- without a rest type it may be anything
      obtain rfl : isSealed = false := by simpa using hopen
      refine ⟨.json, rfl, fun place hplace htakes => ?_⟩
      exact passes_of_isBroad rfl place value.ty (fair_json (hplace _ hfair.targetWellFormed))
        hconcrete (accepts_of_isBroad rfl hconcrete) htakes
    · refine ⟨ty, by rw [further?, Option.mem_def.mp hty]; rfl, fun place hplace htakes => ?_⟩
      exact ihrest ty hty place value.ty ((hfair.of_part (occursIn_record_rest hty)).of_place hplace)
        hconcrete hbelongs htakes

/-- Whether a field is one of the source or a further one there, and whether it stands under a name
of the target or is a further one there: in each of the four cases it has a place. -/
theorem Delivers.record {others : Fields none} {otherRest : Option Ty} {otherSealed : Bool}
    (h : Delivers fields rest isSealed (.record others otherRest otherSealed) values)
    (hsource : Fills fields rest others otherRest otherSealed)
    (hroom : hasRoomFor (.record others otherRest otherSealed) (.record fields rest isSealed) = true) :
    (Ty.record others otherRest otherSealed).accepts (sealedRecord values) = true := by
  simp only [hasRoomFor, Option.all_eq_true, Bool.and_eq_true, List.all_eq_true, Bool.or_eq_true]
    at hroom
  refine record_accepts_iff.mpr ⟨fun name other hother hnone => ?missing,
    fun name other value hother hvalue => ⟨fun _ => h.required name value hvalue, ?present⟩,
    fun name value hvalue hnone => ?placed, fun ty hty => by cases hty⟩
  case missing =>
    cases hfield : fields.get? name with
    | none => exact hsource.missing name other hother hfield
    | some field =>
      -- a required field of the target is required in the source, so the value has it
      by_contra hrequired
      rw [Bool.not_eq_false] at hrequired
      have hreq := (hsource.present name other field hother hfield).1 hrequired
      rw [h.fills.missing name field hfield hnone] at hreq
      cases hreq
  case present =>
    cases hfield : fields.get? name with
    | some field =>
      exact h.field name field value other.ty hfield hvalue (occursIn_field hother)
        (hsource.present name other field hother hfield).2
    | none =>
      obtain ⟨ty, hty, hpasses⟩ := h.further name value hfield hvalue
      refine hpasses other.ty (occursIn_field hother) ?_
      rcases (hroom ty hty).2 _ (Fields.mem_toList_of_get? others hother) with hcontains | htakes
      · rw [Fields.contains, hfield] at hcontains
        cases hcontains
      · exact htakes
  case placed =>
    cases hfield : fields.get? name with
    | some field =>
      exact acceptsOption_of_imp (hsource.placed name field hfield hnone) fun place hplace =>
        h.field name field value place hfield hvalue (occursIn_record_rest hplace)
    | none =>
      obtain ⟨ty, hty, hpasses⟩ := h.further name value hfield hvalue
      exact acceptsOption_of_imp (hroom ty hty).1 fun place hplace =>
        hpasses place (occursIn_record_rest hplace)

theorem Delivers.map {constraint : Ty} (h : Delivers fields rest isSealed (.map constraint) values)
    (haccepts : (Ty.map constraint).accepts (.record fields rest isSealed) = true) :
    (Ty.map constraint).accepts (sealedRecord values) = true := by
  rw [accepts, everyAlternative_of_isShaped rfl, Bool.or_eq_true] at haccepts
  rcases haccepts with hsame | hshape
  · cases hsame
  simp only [Bool.and_eq_true, List.all_eq_true] at hshape
  obtain ⟨⟨hfields, hrest⟩, hclosed⟩ := hshape
  refine map_accepts_sealedRecord_iff.mpr fun entry hentry => ?_
  have hvalue := Fields.get?_of_mem_toList values hentry
  cases hfield : fields.get? entry.1 with
  | some field =>
    exact h.field entry.1 field entry.2 constraint hfield hvalue occursIn_map
      (hfields _ (Fields.mem_toList_of_get? fields hfield))
  | none =>
    obtain ⟨ty, hty, hpasses⟩ := h.further entry.1 entry.2 hfield hvalue
    refine hpasses constraint occursIn_map ?_
    -- a map takes no record that is open without a rest type
    cases rest with
    | some other =>
      cases hty
      exact hrest
    | none =>
      cases isSealed with
      | true => cases hty
      | false => cases hclosed

theorem passes_record (ih : ∀ entry ∈ fields.toList, entry.2.ty.Passes)
    (ihrest : ∀ ty ∈ rest, ty.Passes) : (Ty.record fields rest isSealed).Passes := by
  refine passes_of_direct rfl fun target value hdirect hfair hvalue hbelongs haccepts => ?_
  obtain ⟨values, rfl, hfills, hvalues⟩ := exists_record_of_record hvalue hbelongs
  have hdelivers := delivers ih ihrest hfair hfills hvalues
  cases target with
  | record others otherRest otherSealed =>
    exact hdelivers.record (record_accepts_iff.mp haccepts) (hfair.hasRoomFor haccepts)
  | map constraint => exact hdelivers.map haccepts
  | finite | primitive | array | tuple | table => cases haccepts
  | _ => cases hdirect

end Record

theorem passes_map {constraint : Ty} (ih : constraint.Passes) : (Ty.map constraint).Passes := by
  refine passes_of_direct rfl fun target value hdirect hfair hvalue hbelongs haccepts => ?_
  obtain ⟨values, rfl, hvalues⟩ := exists_record_of_map hvalue hbelongs
  have hconcrete := isConcrete_sealedRecord.mp hvalue
  cases target with
  | map other =>
    have htakes : other.accepts constraint = true := by
      rw [accepts, everyAlternative_of_isShaped rfl, Bool.or_eq_true] at haccepts
      exact haccepts.elim (accepts_of_same other) id
    refine map_accepts_sealedRecord_iff.mpr fun entry hentry => ?_
    exact ih other entry.2.ty ((hfair.of_part occursIn_map).of_place occursIn_map)
      (hconcrete entry hentry).2 (hvalues entry hentry) htakes
  | finite | primitive | array | tuple | record | table => cases haccepts
  | _ => cases hdirect

/-- **Values pass on through every type.** -/
theorem passes (source : Ty) : source.Passes := by
  induction source using induction_parts with
  | primitive p => exact passes_primitive p
  | array elem size ih => exact passes_array size ih
  | tuple members rest ih ihrest => exact passes_tuple ih ihrest
  | record fields rest isSealed ih ihrest => exact passes_record ih ihrest
  | map constraint ih => exact passes_map ih
  | anydata | json => exact passes_of_isBroad rfl
  | table =>
    intro target value _ hvalue hbelongs _
    rcases isConcrete_cases hvalue with ⟨s, rfl, -⟩ | ⟨members, rfl, -⟩ | ⟨fields, rfl, -⟩ <;>
      cases hbelongs
  | union members ih =>
    intro target value hfair hvalue hbelongs haccepts
    obtain ⟨member, hmem, hbelongs⟩ := exists_member_of_union hvalue hbelongs
    exact ih member hmem target value (hfair.of_part (occursIn_union hmem)) hvalue hbelongs
      (accepts_of_mem_unionMembers haccepts hmem)
  | finite values =>
    intro target value hfair hvalue hbelongs haccepts
    obtain ⟨s, rfl, hs, t, ht, hsame⟩ := exists_value_of_finite hvalue hbelongs
    have hproper : values.all Singleton.isProper = true := everywhere_self hfair.wellFormed
    have hadmits := (accepts_finite_iff target).mp haccepts t ht
    exact accepts_singleton target (admits_of_sameValue
      (holdsProper_of_isWellFormed hfair.targetWellFormed) (List.all_eq_true.mp hproper t ht) hs hsame
      hadmits)
  | reference name referred ih =>
    intro target value hfair hvalue hbelongs haccepts
    rw [accepts_reference] at haccepts
    exact ih target value (hfair.of_part fun _ h => (everywhere_reference.mp h).2) hvalue hbelongs
      haccepts
  | intersection inner ih =>
    intro target value hfair hvalue hbelongs haccepts
    rw [accepts_intersection] at haccepts
    exact ih target value (hfair.of_part fun _ h => (everywhere_intersection.mp h).2) hvalue hbelongs
      haccepts
  | error =>
    intro target value hfair
    cases hfair.wellFormed

/-- **Every value of a type is a value of what the type is assignable to**, if the records of the
target leave room for the further fields of those of the source. -/
theorem values_pass_on (value source target : Ty)
    (hvalue : value.isConcrete Singleton.isProper = true)
    (hsource : source.everywhere isWellFormed = true)
    (htarget : target.everywhere isWellFormed = true) (hroom : source.leavesRoom target = true)
    (hbelongs : value.isAssignable source = true) (hassignable : source.isAssignable target = true) :
    value.isAssignable target = true :=
  passes source target value ⟨hsource, htarget, hroom⟩ hvalue hbelongs hassignable

section Examples

/-- A record that names a field `id`, and may hold others. -/
def openEntry : Ty := .record (.ofList [("id", ⟨.primitive .int, true⟩)]) none false

/-- A record with a field `id`, and with a field `note` that need not be there. -/
def notableEntry : Ty :=
  .record (.ofList [("id", ⟨.union [.primitive .int, .primitive .float], true⟩), ("note", ⟨.json, false⟩)])
    none false

/-- A record with a field `id` and no other one. -/
def sealedEntry : Ty := .record (.ofList [("id", ⟨.primitive .int, true⟩)]) none true

/-- The record of two values. -/
def notedEntry : Ty :=
  sealedOf [("id", singleton (.ofScalar (.int 1))), ("note", singleton (.ofScalar (.string "x")))]

/-- Any number of strings under any names. -/
def labels : Ty := .record .nil (some (.primitive .string)) false

/-- Any number of strings, and under the name `note` an integer. -/
def numberedLabels : Ty :=
  .record (.ofList [("note", ⟨.primitive .int, false⟩)]) (some (.primitive .string)) false

/-- The record of one string. -/
def label : Ty := sealedOf [("note", singleton (.ofScalar (.string "x")))]

theorem notedEntry_passes_on : notedEntry.isConcrete Singleton.isProper = true
    ∧ openEntry.leavesRoom notableEntry = true ∧ notedEntry.isAssignable notableEntry = true :=
  ⟨by decide, by decide, values_pass_on notedEntry openEntry notableEntry (by decide) (by decide)
    (by decide) (by decide) (by decide) (by decide)⟩

/-- **Values are lost where further fields are not looked at.** An open record without a rest type is
assignable to a sealed one, which does not take what the first may hold besides. And a record with a
rest type is assignable to one that has an optional field of another type. -/
theorem open_records_lose_values :
    (notedEntry.isConcrete Singleton.isProper = true ∧ openEntry.everywhere isWellFormed = true
        ∧ sealedEntry.everywhere isWellFormed = true ∧ notedEntry.isAssignable openEntry = true
        ∧ openEntry.isAssignable sealedEntry = true ∧ notedEntry.isAssignable sealedEntry = false)
      ∧ label.isConcrete Singleton.isProper = true ∧ labels.everywhere isWellFormed = true
        ∧ numberedLabels.everywhere isWellFormed = true ∧ label.isAssignable labels = true
        ∧ labels.isAssignable numberedLabels = true ∧ label.isAssignable numberedLabels = false := by
  decide

end Examples

end Ty

end ConstNarrow
