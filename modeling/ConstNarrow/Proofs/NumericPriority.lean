/-
**The priority of numeric kinds.**

Where a type has no broad alternative, what it picks is the reading of the first kind among those that
are assignable to it. So it does not depend on how the alternatives are ordered or nested. Only the
primitive may differ: a finite type may list an integer as a byte. A broad alternative takes the first
reading, whatever its kind, and has no part in this.
-/
import ConstNarrow.Proofs.Picking

set_option autoImplicit false

namespace ConstNarrow

open Validation ConstNarrow.Singleton Ty

/-! ## The preferred reading -/

/-- A number of a kind that is preferred to that of another. -/
def Singleton.Precedes (a b : Singleton) : Prop :=
  ∃ k l, a.kind? = some k ∧ b.kind? = some l ∧ k.priority < l.priority

theorem Singleton.Apart.precedes {a b : Singleton} (h : a.Apart b) (hle : rank a ≤ rank b) :
    a.Precedes b := by
  have hne := h.rank_ne
  obtain ⟨k, l, ha, hb, -⟩ := h
  refine ⟨k, l, ha, hb, ?_⟩
  rw [rank_of_kind? ha, rank_of_kind? hb] at hle hne
  omega

namespace Ty

/-- The reading of the first kind among those that are assignable to a type. -/
structure IsPreferred (expected : Ty) (readings : List Singleton) (r : Singleton) : Prop where
  mem : r ∈ readings
  isAssignable : (singleton r).isAssignable expected = true
  first : ∀ other ∈ readings, (singleton other).isAssignable expected = true →
    other = r ∨ r.Precedes other

theorem IsPreferred.unique {expected : Ty} {readings : List Singleton} {r s : Singleton}
    (hr : expected.IsPreferred readings r) (hs : expected.IsPreferred readings s) : s = r := by
  rcases hr.first s hs.mem hs.isAssignable with heq | ⟨k, l, hk, hl, hlt⟩
  · exact heq
  rcases hs.first r hr.mem hr.isAssignable with heq | ⟨k', l', hk', hl', hlt'⟩
  · exact heq.symm
  · cases hk.symm.trans hl'
    cases hl.symm.trans hk'
    omega

/-- **Without a broad alternative, no reading that belongs to a type ranks before what is picked.** -/
theorem rank_le_of_pick {ty : Ty} (hty : ∀ alternative, ty.Alternative alternative →
      alternative.isNoError = true ∧ alternative.isBroad = false) {readings : List Singleton}
    {w r : Singleton} (h : ty.pick readings = some w) (hr : r ∈ readings) (hadmits : ty.admits r = true) :
    rank w ≤ rank r := by
  induction ty using induction_parts generalizing w with
  | primitive p => exact rank_le_of_pick_primitive h hadmits
  | finite values => exact rank_le_of_pick_finite h hr hadmits
  | union members ih =>
    obtain ⟨member, hmember, hadmits⟩ := admitsAny_iff.mp hadmits
    have halt := fun alternative halt => hty alternative (.union hmember halt)
    obtain ⟨u, hu⟩ := exists_pick (fun _ h => (halt _ h).1) hr hadmits
    exact Nat.le_trans (rank_le_of_lowest? h (mem_pickEach.mpr ⟨member, hmember, hu⟩))
      (ih member hmember halt hu hadmits)
  | reference name referred ih => exact ih (fun _ halt => hty _ (.reference halt)) h hadmits
  | intersection inner ih => exact ih (fun _ halt => hty _ (.intersection halt)) h hadmits
  | anydata | json => cases (hty _ .self).2
  | error => cases (hty _ .self).1
  | array | tuple | record | map | table => cases hadmits

/-- A type picks something if and only if a reading is assignable to it. -/
theorem exists_pick_iff {expected : Ty} (hexpected : ∀ alternative,
      expected.Alternative alternative → alternative.isNoError = true) {readings : List Singleton} :
    (∃ w, expected.pick readings = some w)
      ↔ ∃ r ∈ readings, (singleton r).isAssignable expected = true := by
  constructor
  · rintro ⟨w, hw⟩
    obtain ⟨r, hr, -, hadmits⟩ := exists_of_pick hw
    exact ⟨r, hr, isAssignable_singleton.mpr hadmits⟩
  · rintro ⟨r, hr, hassignable⟩
    exact exists_pick hexpected hr (isAssignable_singleton.mp hassignable)

/-- What is picked without a broad alternative is the preferred reading, as far as values go. -/
theorem isPreferred_of_pick {expected : Ty} (hexpected : ∀ alternative,
      expected.Alternative alternative → alternative.isNoError = true ∧ alternative.isBroad = false)
    {readings : List Singleton} (hapart : readings.Pairwise Apart) {w : Singleton}
    (h : expected.pick readings = some w) :
    ∃ r, expected.IsPreferred readings r ∧ r.sameValue w = true := by
  obtain ⟨r, hr, hsame, hadmits⟩ := exists_of_pick h
  refine ⟨r, ⟨hr, isAssignable_singleton.mpr hadmits, fun other hother hassignable => ?_⟩, hsame⟩
  rcases apart_or_eq hapart hr hother with heq | happart
  · exact Or.inl heq.symm
  · refine Or.inr (happart.precedes ?_)
    rw [rank_of_sameValue hsame]
    exact rank_le_of_pick hexpected h hother (isAssignable_singleton.mp hassignable)

/-! ## Alternatives in another order -/

/-- Whether a type is its only alternative. -/
def isLeaf : Ty → Bool
  | .union _ | .reference _ _ | .intersection _ => false
  | _ => true

theorem exists_leaf {ty : Ty} {s : Singleton} (h : ty.admits s = true) :
    ∃ leaf, ty.Alternative leaf ∧ leaf.isLeaf = true ∧ leaf.admits s = true := by
  induction ty using induction_parts with
  | union members ih =>
    obtain ⟨member, hmember, hadmits⟩ := admitsAny_iff.mp h
    obtain ⟨leaf, halt, hleaf⟩ := ih member hmember hadmits
    exact ⟨leaf, .union hmember halt, hleaf⟩
  | reference name referred ih =>
    obtain ⟨leaf, halt, hleaf⟩ := ih h
    exact ⟨leaf, .reference halt, hleaf⟩
  | intersection inner ih =>
    obtain ⟨leaf, halt, hleaf⟩ := ih h
    exact ⟨leaf, .intersection halt, hleaf⟩
  | _ => exact ⟨_, .self, rfl, h⟩

theorem Alternative.admits {ty alternative : Ty} (h : ty.Alternative alternative) {s : Singleton}
    (hadmits : alternative.admits s = true) : ty.admits s = true := by
  induction h with
  | self => exact hadmits
  | union hmem _ ih => exact admitsAny_iff.mpr ⟨_, hmem, ih hadmits⟩
  | reference _ ih => exact ih hadmits
  | intersection _ ih => exact ih hadmits

/-- Two types with the same alternatives, in whatever order they stand and however they are nested. -/
def Rearranged (a b : Ty) : Prop :=
  ∀ leaf, leaf.isLeaf = true → (a.Alternative leaf ↔ b.Alternative leaf)

namespace Rearranged

variable {a b : Ty}

theorem symm (h : a.Rearranged b) : b.Rearranged a := fun leaf hleaf => (h leaf hleaf).symm

theorem admits (h : a.Rearranged b) {s : Singleton} (hadmits : a.admits s = true) :
    b.admits s = true := by
  obtain ⟨leaf, halt, hleaf, hadmits⟩ := exists_leaf hadmits
  exact ((h leaf hleaf).mp halt).admits hadmits

theorem isAssignable (h : a.Rearranged b) {s : Singleton}
    (hassignable : (singleton s).isAssignable a = true) : (singleton s).isAssignable b = true :=
  isAssignable_singleton.mpr (h.admits (isAssignable_singleton.mp hassignable))

theorem isPreferred (h : a.Rearranged b) {readings : List Singleton} {r : Singleton}
    (hr : a.IsPreferred readings r) : b.IsPreferred readings r :=
  ⟨hr.mem, h.isAssignable hr.isAssignable,
    fun other hother hassignable => hr.first other hother (h.symm.isAssignable hassignable)⟩

/-- What all alternatives have in common does not depend on their arrangement, if it holds of every
type that is looked through. -/
theorem alternative (h : a.Rearranged b) {f : Ty → Prop} (hf : ∀ ty : Ty, ty.isLeaf = false → f ty)
    (ha : ∀ alternative, a.Alternative alternative → f alternative) :
    ∀ alternative, b.Alternative alternative → f alternative := by
  intro ty hty
  cases hleaf : ty.isLeaf with
  | false => exact hf ty hleaf
  | true => exact ha ty ((h ty hleaf).mpr hty)

/-- Of two arrangements both pick something or none does, and what they pick is the same value. -/
theorem pick (h : a.Rearranged b)
    (ha : ∀ alternative, a.Alternative alternative →
      alternative.isNoError = true ∧ alternative.isBroad = false)
    (hb : ∀ alternative, b.Alternative alternative →
      alternative.isNoError = true ∧ alternative.isBroad = false)
    {readings : List Singleton} (hapart : readings.Pairwise Apart) :
    (a.pick readings = none ∧ b.pick readings = none)
      ∨ ∃ w w', a.pick readings = some w ∧ b.pick readings = some w' ∧ w.sameValue w' = true := by
  cases hpick : a.pick readings with
  | none =>
    cases hpick' : b.pick readings with
    | none => exact Or.inl ⟨rfl, rfl⟩
    | some w' =>
      obtain ⟨r, hr, -, hadmits⟩ := exists_of_pick hpick'
      obtain ⟨w, hw⟩ := exists_pick (fun ty h => (ha ty h).1) hr (h.symm.admits hadmits)
      cases hpick.symm.trans hw
  | some w =>
    obtain ⟨r, hpreferred, hsame⟩ := isPreferred_of_pick ha hapart hpick
    obtain ⟨w', hw'⟩ := (exists_pick_iff fun ty h => (hb ty h).1).mpr
      ⟨r, hpreferred.mem, h.isAssignable hpreferred.isAssignable⟩
    obtain ⟨r', hpreferred', hsame'⟩ := isPreferred_of_pick hb hapart hw'
    cases (h.isPreferred hpreferred).unique hpreferred'
    rw [sameValue_comm] at hsame
    exact Or.inr ⟨w, w', rfl, hw', sameValue_trans hsame hsame'⟩

end Rearranged

end Ty

/-- The checker gets what is picked, and reports nothing. -/
theorem run_validType_pick (p : Program) (s : Checker) {expected inferred : Ty}
    {readings : List Singleton} (hinferred : inferred.StandsFor readings)
    (hproper : ∀ r ∈ readings, r.isProper = true) (hapart : readings.Pairwise Apart)
    (hexpected : ∀ alternative, expected.Alternative alternative → alternative.isNoError = true) :
    ∃ t, (Checker.validType p expected inferred).run s = some (given (expected.pick readings), t)
      ∧ t.journal.diagnostics = s.journal.diagnostics := by
  obtain ⟨journal, hrun, hadds⟩ := (tells_pick hinferred hproper hapart hexpected).run_validType
  refine ⟨_, hrun, Array.toList_inj.mp ?_⟩
  rw [hadds.diagnostics, ite_self, List.append_nil]

/-- **Validation takes the reading of the first kind.** Of a value that may be read in several kinds,
an expected type without broad alternatives takes something if and only if a reading is assignable to
it. What it takes is then the reading of the first kind, in the order `int`, `float`, `decimal`, among
those that are assignable; a byte counts as an integer. Nothing is reported. The alternatives of the
expected type may be put into another order and nested in another way: this makes no difference but
for bytes and integers. -/
theorem readings_follow_priority (p : Program) (s : Checker) (expected inferred : Ty)
    (readings : List Singleton) (hinferred : inferred.StandsFor readings)
    (hproper : ∀ r ∈ readings, r.isProper = true) (hapart : readings.Pairwise Apart)
    (hexpected : ∀ alternative, expected.Alternative alternative →
      alternative.isNoError = true ∧ alternative.isBroad = false) :
    ∃ outcome t, (Checker.validType p expected inferred).run s = some (outcome, t)
      ∧ t.journal.diagnostics = s.journal.diagnostics
      ∧ ((∃ ty, outcome = .ok ty) ↔ ∃ r ∈ readings, (Ty.singleton r).isAssignable expected = true)
      ∧ (∀ ty, outcome = .ok ty → ∃ w r, ty = .singleton w ∧ expected.IsPreferred readings r
        ∧ r.sameValue w = true)
      ∧ ∀ rearranged, expected.Rearranged rearranged →
        ∃ outcome' t', (Checker.validType p rearranged inferred).run s = some (outcome', t')
          ∧ t'.journal.diagnostics = s.journal.diagnostics
          ∧ ((∃ e e', outcome = .error e ∧ outcome' = .error e')
            ∨ ∃ w w', outcome = .ok (.singleton w) ∧ outcome' = .ok (.singleton w')
              ∧ w.sameValue w' = true) := by
  have hnoError := fun alternative h => (hexpected alternative h).1
  obtain ⟨t, hrun, hquiet⟩ := run_validType_pick p s hinferred hproper hapart hnoError
  refine ⟨_, t, hrun, hquiet, ?_, fun ty hty => ?_, fun rearranged hrearranged => ?_⟩
  · rw [← exists_pick_iff hnoError]
    cases expected.pick readings <;> simp [given]
  · cases hpick : expected.pick readings with
    | none =>
      rw [hpick] at hty
      cases hty
    | some w =>
      rw [hpick] at hty
      cases hty
      obtain ⟨r, hpreferred, hsame⟩ := isPreferred_of_pick hexpected hapart hpick
      exact ⟨w, r, rfl, hpreferred, hsame⟩
  · have hexpected' := hrearranged.alternative
      (fun ty hleaf => by cases ty <;> first | exact ⟨rfl, rfl⟩ | cases hleaf) hexpected
    obtain ⟨t', hrun', hquiet'⟩ := run_validType_pick p s hinferred hproper hapart
      fun ty h => (hexpected' ty h).1
    refine ⟨_, t', hrun', hquiet', ?_⟩
    rcases hrearranged.pick hexpected hexpected' hapart with ⟨hnone, hnone'⟩ | ⟨w, w', hw, hw', hsame⟩
    · exact Or.inl ⟨_, _, congrArg given hnone, congrArg given hnone'⟩
    · exact Or.inr ⟨w, w', congrArg given hw, congrArg given hw', hsame⟩

section Examples

/-- A price: a decimal, or a small number, which is a float or one of two bytes. -/
def price : Ty :=
  .union [.primitive .decimal,
    .reference "Small" (.union [.primitive .float, .finite [⟨.int 3, .byte⟩, ⟨.int 4, .byte⟩]])]

/-- What the number three may be read as. -/
def threes : List Singleton :=
  [.ofScalar (.decimal ⟨3, 0⟩), .ofScalar (.float 3.0), .ofScalar (.int 3)]

/-- Three is taken as a price by its last reading, as a byte. -/
theorem price_takes_byte :
    ∃ t, (Checker.validType ⟨.empty, [], .default⟩ price (.union (threes.map .singleton))).run .start
        = some (.ok (.singleton ⟨.int 3, .byte⟩), t)
      ∧ t.journal.diagnostics = #[] ∧ price.IsPreferred threes (.ofScalar (.int 3)) := by
  have hprice : ∀ alternative, price.Alternative alternative →
      alternative.isNoError = true ∧ alternative.isBroad = false := by
    intro alternative h
    rcases h with - | ⟨hmem, h⟩
    · exact ⟨rfl, rfl⟩
    rcases List.mem_pair.mp hmem with rfl | rfl
    · cases h
      exact ⟨rfl, rfl⟩
    rcases h with - | - | h
    · exact ⟨rfl, rfl⟩
    rcases h with - | ⟨hmem, h⟩
    · exact ⟨rfl, rfl⟩
    rcases List.mem_pair.mp hmem with rfl | rfl
    · cases h
      exact ⟨rfl, rfl⟩
    · cases h
      exact ⟨rfl, rfl⟩
  have hapart : threes.Pairwise Apart := by
    simp [threes, Apart, Singleton.kind?, ofScalar, Scalar.naturalBase, Primitive.numericKind?]
  obtain ⟨outcome, t, hrun, hquiet, -, hresult, -⟩ := readings_follow_priority
    ⟨.empty, [], .default⟩ .start price (.union (threes.map .singleton)) threes
    (.union (List.cons_ne_nil _ _)) (by decide) hapart hprice
  cases hrun
  refine ⟨_, rfl, hquiet, ?_⟩
  obtain ⟨w, r, hw, hpreferred, hsame⟩ := hresult _ rfl
  cases singleton_injective hw
  -- no other reading has the value of that byte
  have hmem := hpreferred.mem
  simp only [threes, List.mem_cons, List.not_mem_nil, or_false] at hmem
  rcases hmem with rfl | rfl | rfl
  · cases hsame
  · cases hsame
  · exact hpreferred

end Examples

end ConstNarrow
