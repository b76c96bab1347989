/-
**When a choice is ambiguous.**

Of what the members of a union give for an inferred type the different results are kept, in the order
in which they were found, and one of them is chosen by a scan. `Ambiguous` says when this is reported,
as a property of the results and without the scan: there are two different ones, no integer is among
them, and either one is no number or two different decimals come before the first float.

That only different results are kept makes no difference to the property, because sameness of types is
an equivalence, and what kind of number a type is does not change under it.
-/
import Mathlib.Data.List.Induction
import Mathlib.Data.List.TakeWhile
import ConstNarrow.Proofs.Discipline
import ConstNarrow.Proofs.Giving
import ConstNarrow.Proofs.ValuesPassOn

set_option autoImplicit false

namespace ConstNarrow

open Validation

/-! ## Sameness is an equivalence -/

theorem Singleton.same_refl (s : Singleton) : s.same s = true :=
  Bool.and_eq_true_iff.mpr ⟨same_self s.value, beq_self_eq_true s.base⟩

theorem Singleton.same_of_same {s t u : Singleton} (hst : s.same t = true) (hsu : s.same u = true) :
    t.same u = true := by
  obtain ⟨hvalue, hbase⟩ := Bool.and_eq_true_iff.mp hst
  obtain ⟨hvalue', hbase'⟩ := Bool.and_eq_true_iff.mp hsu
  rw [beq_iff_eq] at hbase hbase'
  refine Bool.and_eq_true_iff.mpr ⟨Scalar.same_trans ?_ hvalue', beq_iff_eq.mpr (hbase.symm.trans hbase')⟩
  exact (Scalar.same_comm _ _).trans hvalue

namespace Ty

theorem same_refl (ty : Ty) : ty.AreSame ty := by
  induction ty using induction_parts with
  | primitive p => exact same_iff.mpr (.primitive p)
  | array elem size ih => exact same_iff.mpr (.array size ih)
  | tuple members rest ih ihrest => exact same_iff.mpr (.tuple (List.forall₂_same.mpr ih) (rel_self ihrest))
  | record fields rest isSealed ih ihrest =>
    refine same_iff.mpr (.record isSealed (List.forall₂_same.mpr fun entry hentry => ?_) (rel_self ihrest))
    exact ⟨rfl, rfl, ih entry hentry⟩
  | map constraint ih => exact same_iff.mpr (.map ih)
  | union members ih => exact same_iff.mpr (.union (List.forall₂_same.mpr ih))
  | finite values =>
    exact same_iff.mpr (.finite (List.forall₂_same.mpr fun s _ => Singleton.same_refl s))
  | reference name referred ih => exact same_iff.mpr (.reference name ih)
  | intersection inner ih => exact same_iff.mpr (.intersection ih)
  | table | anydata | json | error => rfl

/-- That the types which are the same as this one are the same as each other. With reflexivity, this one
induction gives both symmetry and transitivity. -/
def Unites (ty : Ty) : Prop :=
  ∀ other further : Ty, ty.same other = true → ty.same further = true → other.same further = true

theorem unites (ty : Ty) : Unites ty := by
  induction ty using induction_parts with
  | array elem size ih =>
    intro other further hother hfurther
    cases same_iff.mp hother with
    | array _ hone =>
      cases same_iff.mp hfurther with
      | array _ hanother => exact same_iff.mpr (.array size (ih _ _ hone hanother))
  | tuple members rest ih ihrest =>
    intro other further hother hfurther
    cases same_iff.mp hother with
    | tuple hone honeRest =>
      cases same_iff.mp hfurther with
      | tuple hanother hanotherRest =>
        exact same_iff.mpr (.tuple (forall₂_of_common ih hone hanother)
          (rel_of_common ihrest honeRest hanotherRest))
  | record fields rest isSealed ih ihrest =>
    intro other further hother hfurther
    cases same_iff.mp hother with
    | record _ hone honeRest =>
      cases same_iff.mp hfurther with
      | record _ hanother hanotherRest =>
        refine same_iff.mpr (.record isSealed (forall₂_of_common ?_ hone hanother)
          (rel_of_common ihrest honeRest hanotherRest))
        intro entry hentry one another hone hanother
        exact ⟨hone.1.symm.trans hanother.1, hone.2.1.symm.trans hanother.2.1,
          ih entry hentry _ _ hone.2.2 hanother.2.2⟩
  | map constraint ih =>
    intro other further hother hfurther
    cases same_iff.mp hother with
    | map hone =>
      cases same_iff.mp hfurther with
      | map hanother => exact same_iff.mpr (.map (ih _ _ hone hanother))
  | union members ih =>
    intro other further hother hfurther
    cases same_iff.mp hother with
    | union hone =>
      cases same_iff.mp hfurther with
      | union hanother => exact same_iff.mpr (.union (forall₂_of_common ih hone hanother))
  | finite values =>
    intro other further hother hfurther
    cases same_iff.mp hother with
    | finite hone =>
      cases same_iff.mp hfurther with
      | finite hanother =>
        refine same_iff.mpr (.finite (forall₂_of_common (fun _ _ _ _ hs ht => ?_) hone hanother))
        exact Singleton.same_of_same hs ht
  | reference name referred ih =>
    intro other further hother hfurther
    cases same_iff.mp hother with
    | reference _ hone =>
      cases same_iff.mp hfurther with
      | reference _ hanother => exact same_iff.mpr (.reference name (ih _ _ hone hanother))
  | intersection inner ih =>
    intro other further hother hfurther
    cases same_iff.mp hother with
    | intersection hone =>
      cases same_iff.mp hfurther with
      | intersection hanother => exact same_iff.mpr (.intersection (ih _ _ hone hanother))
  | primitive | table | anydata | json | error =>
    -- nothing but the type itself is the same as one of these
    intro other further hother hfurther
    cases same_iff.mp hother
    exact hfurther

/-- **Sameness of types is an equivalence.** -/
instance : EquivBEq Ty where
  rfl := same_refl _
  symm {a b} h := unites a b a h (same_refl a)
  trans {a b c} h h' := unites b a c (unites a b a h (same_refl a)) h'

/-! ## Different results -/

/-- The different types of a list, in the order in which they first appear. -/
def distinct (tys : List Ty) : List Ty := tys.foldl addNew []

section Distinct

variable {tys found : List Ty} {ty other : Ty}

theorem contains_addNew : (addNew found ty).contains other = (found.contains other || other == ty) := by
  unfold addNew
  split
  · rename_i hcontains
    cases hsame : other == ty with
    | true => rw [List.contains_congr hsame, hcontains, Bool.true_or]
    | false => rw [Bool.or_false]
  · rw [List.contains_append, List.contains_cons, List.contains_nil, Bool.or_false]

theorem contains_foldl_addNew :
    (tys.foldl addNew found).contains ty = (found.contains ty || tys.contains ty) := by
  induction tys generalizing found with
  | nil => rw [List.foldl_nil, List.contains_nil, Bool.or_false]
  | cons first tys ih => rw [List.foldl_cons, ih, contains_addNew, List.contains_cons, Bool.or_assoc]

/-- Whether only the different types of a list are added makes no difference. -/
theorem foldl_distinct (tys found : List Ty) :
    (distinct tys).foldl addNew found = tys.foldl addNew found := by
  -- from the end: the last type comes to what the others have left
  induction tys using List.reverseRecOn with
  | nil => rfl
  | append_singleton tys ty ih =>
    have hlast : distinct (tys ++ [ty]) = addNew (distinct tys) ty := List.foldl_append
    rw [hlast, List.foldl_append, List.foldl_cons, List.foldl_nil, ← ih, addNew]
    split
    · rename_i hcontains
      rw [addNew, if_pos]
      rw [contains_foldl_addNew, hcontains, Bool.or_true]
    · rw [List.foldl_append, List.foldl_cons, List.foldl_nil]

theorem distinct_append_distinct (before tys after : List Ty) :
    distinct (before ++ (distinct tys ++ after)) = distinct (before ++ (tys ++ after)) := by
  show (before ++ (distinct tys ++ after)).foldl addNew [] = (before ++ (tys ++ after)).foldl addNew []
  simp only [List.foldl_append, foldl_distinct]

theorem mem_of_mem_distinct (h : ty ∈ distinct tys) : ty ∈ tys :=
  (mem_of_mem_foldl_addNew h).resolve_right List.not_mem_nil

theorem exists_mem_distinct (h : ty ∈ tys) : ∃ other ∈ distinct tys, (ty == other) = true := by
  rw [← List.contains_iff_exists_mem_beq, distinct, contains_foldl_addNew, List.contains_nil,
    Bool.false_or, List.contains_iff_exists_mem_beq]
  exact ⟨ty, h, BEq.rfl⟩

theorem pairwise_foldl_addNew (h : found.Pairwise fun a b => (b == a) = false) :
    (tys.foldl addNew found).Pairwise fun a b => (b == a) = false := by
  induction tys generalizing found with
  | nil => exact h
  | cons ty tys ih =>
    refine ih ?_
    unfold addNew
    split
    · exact h
    · rename_i hcontains
      refine List.pairwise_append.mpr ⟨h, List.pairwise_singleton _ _, fun a ha b hb => ?_⟩
      rw [List.mem_singleton.mp hb]
      refine Bool.eq_false_iff.mpr fun hsame => hcontains ?_
      exact List.contains_iff_exists_mem_beq.mpr ⟨a, ha, hsame⟩

theorem pairwise_distinct (tys : List Ty) :
    (distinct tys).Pairwise fun a b => (b == a) = false := pairwise_foldl_addNew .nil

/-- What has been found stays in front. -/
theorem exists_foldl_addNew (tys found : List Ty) : ∃ rest, tys.foldl addNew found = found ++ rest := by
  induction tys generalizing found with
  | nil => exact ⟨[], (List.append_nil found).symm⟩
  | cons ty tys ih =>
    rw [List.foldl_cons, addNew]
    split
    · exact ih found
    · obtain ⟨rest, hrest⟩ := ih (found ++ [ty])
      exact ⟨ty :: rest, hrest.trans (List.append_assoc _ _ _)⟩

/-- The different types before the first that fails a test. -/
theorem takeWhile_distinct {p : Ty → Bool} (hp : ∀ a b, (a == b) = true → p a = p b) (tys : List Ty) :
    (distinct tys).takeWhile p = distinct (tys.takeWhile p) := by
  have hall : ∀ ty ∈ distinct (tys.takeWhile p), p ty = true := fun ty hty =>
    List.mem_takeWhile_imp (mem_of_mem_distinct hty)
  cases hdrop : tys.dropWhile p with
  | nil =>
    have htake : tys.takeWhile p = tys := by
      have happend := List.takeWhile_append_dropWhile (p := p) (l := tys)
      rwa [hdrop, List.append_nil] at happend
    rw [htake] at hall ⊢
    exact List.takeWhile_eq_self_iff.mpr hall
  | cons first rest =>
    have hfirst : p first = false := by
      have hhead := List.head?_dropWhile_not p tys
      rw [hdrop] at hhead
      simpa using hhead
    -- it differs from all before it, so it is kept, and stays behind them
    have hnew : (distinct (tys.takeWhile p)).contains first = false := by
      refine Bool.eq_false_iff.mpr fun hcontains => ?_
      obtain ⟨other, hother, hsame⟩ := List.contains_iff_exists_mem_beq.mp hcontains
      rw [hp first other hsame, hall other hother] at hfirst
      cases hfirst
    have hsplit : distinct tys
        = rest.foldl addNew (distinct (tys.takeWhile p) ++ [first]) := by
      conv_lhs => rw [← List.takeWhile_append_dropWhile (p := p) (l := tys), hdrop, distinct,
        List.foldl_append, List.foldl_cons, addNew]
      rw [if_neg (by simpa [distinct] using hnew)]
      rfl
    obtain ⟨further, hfurther⟩ := exists_foldl_addNew rest (distinct (tys.takeWhile p) ++ [first])
    rw [hsplit, hfurther, List.append_assoc, List.takeWhile_append_of_pos hall, List.singleton_append,
      List.takeWhile_cons_of_neg (by simp [hfirst]), List.append_nil]

end Distinct

/-- Whether two types with some property differ can be asked of the different types alone. -/
theorem exists_differ_distinct_iff (tys : List Ty) {P : Ty → Prop}
    (hP : ∀ a b, (a == b) = true → P a → P b) :
    (∃ a ∈ distinct tys, ∃ b ∈ distinct tys, (a == b) = false ∧ P a ∧ P b)
      ↔ ∃ a ∈ tys, ∃ b ∈ tys, (a == b) = false ∧ P a ∧ P b := by
  constructor
  · rintro ⟨a, ha, b, hb, h⟩
    exact ⟨a, mem_of_mem_distinct ha, b, mem_of_mem_distinct hb, h⟩
  · rintro ⟨a, ha, b, hb, hdiffer, hPa, hPb⟩
    obtain ⟨c, hc, hac⟩ := exists_mem_distinct ha
    obtain ⟨d, hd, hbd⟩ := exists_mem_distinct hb
    refine ⟨c, hc, d, hd, Bool.eq_false_iff.mpr fun hcd => ?_, hP a c hac hPa, hP b d hbd hPb⟩
    rw [BEq.trans (BEq.trans hac hcd) (BEq.symm hbd)] at hdiffer
    cases hdiffer

theorem exists_mem_distinct_iff (tys : List Ty) {P : Ty → Prop}
    (hP : ∀ a b, (a == b) = true → P a → P b) : (∃ ty ∈ distinct tys, P ty) ↔ ∃ ty ∈ tys, P ty := by
  constructor
  · rintro ⟨ty, hty, h⟩
    exact ⟨ty, mem_of_mem_distinct hty, h⟩
  · rintro ⟨ty, hty, h⟩
    obtain ⟨other, hother, hsame⟩ := exists_mem_distinct hty
    exact ⟨other, hother, hP ty other hsame h⟩

end Ty

namespace Validation

open Ty

/-! ## The scan -/

/-- Types that are the same are the same kind of number. -/
theorem kind?_of_same {a b : Ty} (h : (a == b) = true) : kind? a = kind? b := by
  cases same_iff.mp h with
  | finite hvalues =>
    cases hvalues with
    | nil => rfl
    | cons hsame htail =>
      cases htail with
      | nil =>
        have hbase := beq_iff_eq.mp (Bool.and_eq_true_iff.mp hsame).2
        simp only [kind?, singleton?, Option.bind_some, hbase]
      | cons _ _ => rfl
  | _ => rfl

/-- Whether a type is no float. -/
def isNoFloat (ty : Ty) : Bool := kind? ty != some .float

/-- Two decimals, of which none is preferred. -/
def Rivals (a b : Ty) : Prop := kind? a = some .decimal ∧ kind? b = some .decimal

/-- Once the choice is ambiguous, only an integer decides it. -/
theorem select_ambiguous_eq_none_iff {selected : Option (Ty × NumericKind)} {tys : List Ty} :
    select ⟨selected, true⟩ tys = none ↔ ∀ ty ∈ tys, kind? ty ≠ some .int := by
  induction tys generalizing selected with
  | nil => simp [select]
  | cons first tys ih =>
    rw [select]
    cases hkind : kind? first with
    | none => simp [hkind, ih]
    | some k =>
      cases k with
      | int => simp [hkind]
      | float => simp [hkind, ih]
      | decimal => rcases selected with - | ⟨ty, - | - | -⟩ <;> simp [hkind, ih]

/-- Once a float is selected, only what is no number stands against it. -/
theorem select_float_eq_none_iff {ty : Ty} {tys : List Ty} :
    select ⟨some (ty, .float), false⟩ tys = none
      ↔ (∀ a ∈ tys, kind? a ≠ some .int) ∧ ∃ a ∈ tys, kind? a = none := by
  induction tys generalizing ty with
  | nil => simp [select]
  | cons first tys ih =>
    rw [select]
    cases hkind : kind? first with
    | none => simp [hkind, select_ambiguous_eq_none_iff]
    | some k => cases k <;> simp [hkind, ih]

/-- Once a decimal is selected, a second one before any float stands against it too. -/
theorem select_decimal_eq_none_iff {ty : Ty} {tys : List Ty} :
    select ⟨some (ty, .decimal), false⟩ tys = none
      ↔ (∀ a ∈ tys, kind? a ≠ some .int) ∧ ((∃ a ∈ tys, kind? a = none)
        ∨ ∃ a ∈ tys.takeWhile isNoFloat, kind? a = some .decimal) := by
  cases tys with
  | nil => simp [select]
  | cons first tys =>
    rw [select]
    cases hkind : kind? first with
    | none => simp [hkind, select_ambiguous_eq_none_iff]
    | some k =>
      cases k with
      | int => simp [hkind]
      | float => simp [hkind, select_float_eq_none_iff, isNoFloat]
      | decimal => simp [hkind, select_ambiguous_eq_none_iff, isNoFloat]

/-- **When nothing is selected.** -/
theorem select_eq_none_iff {tys : List Ty} (h : tys ≠ []) :
    select ⟨none, false⟩ tys = none ↔ (∀ ty ∈ tys, kind? ty ≠ some .int)
      ∧ ((∃ ty ∈ tys, kind? ty = none)
        ∨ ¬ (tys.takeWhile isNoFloat).Pairwise fun a b => ¬ Rivals a b) := by
  cases tys with
  | nil => exact absurd rfl h
  | cons first tys =>
    rw [select]
    cases hkind : kind? first with
    | none => simp [hkind, select_ambiguous_eq_none_iff]
    | some k =>
      cases k with
      | int => simp [hkind]
      | float => simp [hkind, select_float_eq_none_iff, isNoFloat]
      | decimal =>
        have hfirst : isNoFloat first = true := by simp [isNoFloat, hkind]
        -- the first decimal has a rival if there is any other
        have hrivals : (¬ (first :: tys.takeWhile isNoFloat).Pairwise fun a b => ¬ Rivals a b)
            ↔ ∃ b ∈ tys.takeWhile isNoFloat, kind? b = some .decimal := by
          rw [List.pairwise_cons]
          constructor
          · intro h
            by_contra hnone
            refine h ⟨fun b hb hrivals => hnone ⟨b, hb, hrivals.2⟩, ?_⟩
            exact List.pairwise_of_forall_mem_list fun a ha _ _ hrivals => hnone ⟨a, ha, hrivals.1⟩
          · rintro ⟨b, hb, hdecimal⟩ ⟨hall, -⟩
            exact hall b hb ⟨hkind, hdecimal⟩
        rw [List.takeWhile_cons_of_pos hfirst, hrivals]
        simp [hkind, select_decimal_eq_none_iff]

/-- An integer is selected if there is one. -/
theorem kind?_of_select_int {choice : Choice} {tys : List Ty} {ty : Ty}
    (h : select choice tys = some ty) (hint : ∃ a ∈ tys, kind? a = some .int) :
    kind? ty = some .int := by
  induction tys generalizing choice with
  | nil => simp at hint
  | cons first tys ih =>
    rw [select] at h
    cases hkind : kind? first with
    | none => exact ih (by simpa [hkind] using h) (by simpa [hkind] using hint)
    | some k =>
      cases k with
      | int =>
        rw [hkind] at h
        cases h
        exact hkind
      | float => exact ih (by simpa [hkind] using h) (by simpa [hkind] using hint)
      | decimal =>
        have hint : ∃ a ∈ tys, kind? a = some .int := by simpa [hkind] using hint
        rw [hkind] at h
        rcases hselected : choice.selected with - | ⟨other, - | - | -⟩ <;> rw [hselected] at h <;>
          exact ih h hint

/-- Where there is no integer, a float is selected if there is one. -/
theorem kind?_of_select_float {choice : Choice} {tys : List Ty} {ty : Ty}
    (h : select choice tys = some ty) (hnoInt : ∀ a ∈ tys, kind? a ≠ some .int)
    (hfloat : (∃ a ∈ tys, kind? a = some .float)
      ∨ ∃ a, choice.selected = some (a, .float) ∧ kind? a = some .float) :
    kind? ty = some .float := by
  induction tys generalizing choice with
  | nil =>
    obtain ⟨a, hselected, hkind⟩ := hfloat.resolve_left (by simp)
    rw [select, hselected] at h
    split at h
    · cases h
    · cases h
      exact hkind
  | cons first tys ih =>
    obtain ⟨hfirst, hrest⟩ := List.forall_mem_cons.mp hnoInt
    rw [select] at h
    cases hkind : kind? first with
    | none => exact ih (by simpa [hkind] using h) hrest (by simpa [hkind] using hfloat)
    | some k =>
      cases k with
      | int => exact absurd hkind hfirst
      | float => exact ih (by simpa [hkind] using h) hrest (Or.inr ⟨first, rfl, hkind⟩)
      | decimal =>
        have hfloat : (∃ a ∈ tys, kind? a = some .float)
            ∨ ∃ a, choice.selected = some (a, .float) ∧ kind? a = some .float := by
          simpa [hkind] using hfloat
        rw [hkind] at h
        rcases hselected : choice.selected with - | ⟨other, - | - | -⟩ <;> rw [hselected] at h hfloat
        · exact ih h hrest (Or.inl (hfloat.resolve_right (by simp)))
        · exact ih h hrest (Or.inl (hfloat.resolve_right (by simp)))
        · exact ih h hrest (hselected ▸ hfloat)
        · exact ih h hrest (Or.inl (hfloat.resolve_right (by simp)))

/-! ## Ambiguous results -/

/-- Two different decimals come before the first float. -/
def Contested (results : List Ty) : Prop :=
  ∃ a ∈ results.takeWhile isNoFloat, ∃ b ∈ results.takeWhile isNoFloat,
    (a == b) = false ∧ kind? a = some .decimal ∧ kind? b = some .decimal

/-- **Results among which there is no choice**: two of them differ, none is an integer, and one is no
number or two are decimals that come before any float. -/
structure Ambiguous (results : List Ty) : Prop where
  differ : ∃ a ∈ results, ∃ b ∈ results, (a == b) = false
  noInt : ∀ ty ∈ results, kind? ty ≠ some .int
  undecided : (∃ ty ∈ results, kind? ty = none) ∨ Contested results

theorem contested_iff {results : List Ty} : Contested results
    ↔ ¬ ((distinct results).takeWhile isNoFloat).Pairwise fun a b => ¬ Rivals a b := by
  have hnoFloat : ∀ a b, (a == b) = true → isNoFloat a = isNoFloat b := fun a b hsame => by
    rw [isNoFloat, isNoFloat, kind?_of_same hsame]
  rw [takeWhile_distinct hnoFloat, Contested,
    ← exists_differ_distinct_iff _ fun a b hsame hdecimal => (kind?_of_same hsame).symm.trans hdecimal]
  have hpairwise := pairwise_distinct (results.takeWhile isNoFloat)
  generalize distinct (results.takeWhile isNoFloat) = tys at hpairwise
  constructor
  · rintro ⟨a, ha, b, hb, hdiffer, hrivals⟩ hnot
    have hne : a ≠ b := by
      rintro rfl
      rw [BEq.rfl] at hdiffer
      cases hdiffer
    have : Std.Symm fun a b => ¬ Rivals a b := ⟨fun _ _ h hrivals => h hrivals.symm⟩
    exact hnot.forall ha hb hne hrivals
  · intro hnot
    by_contra hnone
    refine hnot (hpairwise.imp_of_mem fun {a b} ha hb hdiffer hrivals => hnone ?_)
    exact ⟨a, ha, b, hb, BEq.symm_false hdiffer, hrivals⟩

theorem one_lt_length_distinct_iff (results : List Ty) : 1 < (distinct results).length
    ↔ ∃ a ∈ results, ∃ b ∈ results, (a == b) = false := by
  have hdiffer := exists_differ_distinct_iff results (P := fun _ => True) fun _ _ _ _ => trivial
  simp only [and_self, and_true] at hdiffer
  rw [← hdiffer]
  have hpairwise := pairwise_distinct results
  generalize distinct results = tys at hpairwise
  rcases tys with - | ⟨first, - | ⟨second, rest⟩⟩
  · simp
  · simp
  · have hfirst := (List.pairwise_cons.mp hpairwise).1 second List.mem_cons_self
    refine ⟨fun _ => ⟨second, by simp, first, by simp, hfirst⟩, fun _ => by simp⟩

/-- **The choice among the different results is decided unless they are ambiguous.** -/
theorem ambiguous_iff {results : List Ty} : Ambiguous results ↔ ¬ IsDecided (distinct results) := by
  have hkind : ∀ k a b, (a == b) = true → kind? a = k → kind? b = k := fun k a b hsame h =>
    (kind?_of_same hsame).symm.trans h
  have hnone := exists_mem_distinct_iff results (hkind none)
  have hint := exists_mem_distinct_iff results (hkind (some .int))
  have hlength := one_lt_length_distinct_iff results
  have hselect : distinct results ≠ [] → (select ⟨none, false⟩ (distinct results) = none
      ↔ (∀ ty ∈ results, kind? ty ≠ some .int)
        ∧ ((∃ ty ∈ results, kind? ty = none) ∨ Contested results)) := by
    intro hne
    have hnoInt : (∀ ty ∈ distinct results, kind? ty ≠ some .int)
        ↔ ∀ ty ∈ results, kind? ty ≠ some .int := by
      simpa using not_congr hint
    rw [select_eq_none_iff hne, hnone, contested_iff, hnoInt]
  rw [IsDecided, not_or, Nat.not_le, not_ne_iff, hlength]
  constructor
  · rintro ⟨hdiffer, hnoInt, hundecided⟩
    have hne : distinct results ≠ [] := List.ne_nil_of_length_pos (Nat.lt_of_succ_lt (hlength.mpr hdiffer))
    exact ⟨hdiffer, (hselect hne).mpr ⟨hnoInt, hundecided⟩⟩
  · rintro ⟨hdiffer, hselected⟩
    have hne : distinct results ≠ [] := List.ne_nil_of_length_pos (Nat.lt_of_succ_lt (hlength.mpr hdiffer))
    obtain ⟨hnoInt, hundecided⟩ := (hselect hne).mp hselected
    exact ⟨hdiffer, hnoInt, hundecided⟩

/-- A result that stands for several: it is one of them, an integer if there is one among them, and a
decimal only if they are undecided. -/
structure StandsIn (ty : Ty) (results : List Ty) : Prop where
  mem : ty ∈ results
  int : (∃ a ∈ results, kind? a = some .int) → kind? ty = some .int
  decimal : kind? ty = some .decimal → (∃ a ∈ results, kind? a = none) ∨ Contested results

/-- **What is chosen stands for the results**, if it is not the only one. -/
theorem standsIn_of_gives_choose {site : Site} {results : List Ty} {ty : Ty}
    (h : Gives (choose site (distinct results)) ty) :
    distinct results = [ty] ∨ StandsIn ty results := by
  have hmem := mem_of_mem_distinct (mem_of_gives_choose h)
  by_cases hambiguous : Ambiguous results
  · exact Or.inr ⟨hmem, fun ⟨a, ha, hint⟩ => absurd hint (hambiguous.noInt a ha),
      fun _ => hambiguous.undecided⟩
  have hdecided := not_not.mp (ambiguous_iff.not.mp hambiguous)
  have hkind : ∀ k a b, (a == b) = true → kind? a = k → kind? b = k := fun k a b hsame h =>
    (kind?_of_same hsame).symm.trans h
  by_cases hlength : 1 < (distinct results).length
  · obtain ⟨chosen, hselect⟩ :=
      Option.ne_none_iff_exists'.mp (hdecided.resolve_left (Nat.not_le.mpr hlength))
    have hchosen : ty = chosen := by
      refine Gives.unique ⟨[], ?_⟩ h
      rcases hdistinct : distinct results with - | ⟨first, - | ⟨second, rest⟩⟩
      · rw [hdistinct] at hlength
        simp at hlength
      · rw [hdistinct] at hlength
        simp at hlength
      · unfold choose
        dsimp only
        rw [← hdistinct, hselect]
        exact .pure chosen
    subst hchosen
    have hint : (∃ a ∈ results, kind? a = some .int) → kind? ty = some .int := fun hint =>
      kind?_of_select_int hselect ((exists_mem_distinct_iff results (hkind _)).mpr hint)
    refine Or.inr ⟨hmem, hint, fun hdecimal => ?_⟩
    by_cases hnone : ∃ a ∈ results, kind? a = none
    · exact Or.inl hnone
    -- there are only decimals
    have hnoInt : ∀ a ∈ results, kind? a ≠ some .int := fun a ha hkind => by
      cases hdecimal.symm.trans (hint ⟨a, ha, hkind⟩)
    have hnoFloat : ∀ a ∈ results, kind? a ≠ some .float := fun a ha hfloat => by
      have hselected := kind?_of_select_float hselect
        (fun b hb => hnoInt b (mem_of_mem_distinct hb))
        (Or.inl ((exists_mem_distinct_iff results (hkind _)).mpr ⟨a, ha, hfloat⟩))
      cases hdecimal.symm.trans hselected
    have hall : ∀ a ∈ results, kind? a = some .decimal := by
      intro a ha
      rcases hkind : kind? a with - | - | - | -
      · exact absurd ⟨a, ha, hkind⟩ hnone
      · exact absurd hkind (hnoInt a ha)
      · exact absurd hkind (hnoFloat a ha)
      · rfl
    have htake : results.takeWhile isNoFloat = results :=
      List.takeWhile_eq_self_iff.mpr fun a ha => by simp [isNoFloat, hall a ha]
    obtain ⟨a, ha, b, hb, hdiffer⟩ := (one_lt_length_distinct_iff results).mp hlength
    rw [Contested, htake]
    exact Or.inr ⟨a, ha, b, hb, hdiffer, hall a ha, hall b hb⟩
  · left
    rcases hdistinct : distinct results with - | ⟨first, - | ⟨second, rest⟩⟩
    · rw [hdistinct] at h
      exact absurd h not_gives_throw
    · rw [hdistinct] at h
      rw [gives_pure.mp h]
    · rw [hdistinct] at hlength
      simp at hlength

theorem contested_append {results : List Ty} (after : List Ty) (h : Contested results) :
    Contested (results ++ after) := by
  have hsub : ∀ a ∈ results.takeWhile isNoFloat, a ∈ (results ++ after).takeWhile isNoFloat := by
    intro a ha
    rw [List.takeWhile_append]
    split
    · exact List.mem_append_left _ ((List.takeWhile_sublist _).subset ha)
    · exact ha
  obtain ⟨a, ha, b, hb, hrivals⟩ := h
  exact ⟨a, hsub a ha, b, hsub b hb, hrivals⟩

/-- **Results are ambiguous if one that stands for several makes them so.** -/
theorem Ambiguous.of_standsIn {before results after : List Ty} {ty : Ty} (h : StandsIn ty results)
    (hambiguous : Ambiguous (before ++ ty :: after)) : Ambiguous (before ++ (results ++ after)) := by
  have hsub : ∀ a ∈ before ++ ty :: after, a ∈ before ++ (results ++ after) := by
    intro a ha
    rcases List.mem_append.mp ha with ha | ha
    · exact List.mem_append_left _ ha
    · rcases List.mem_cons.mp ha with rfl | ha
      · exact List.mem_append_right _ (List.mem_append_left _ h.mem)
      · exact List.mem_append_right _ (List.mem_append_right _ ha)
  have hty : ty ∈ before ++ ty :: after := by simp
  refine ⟨?_, fun a ha hint => ?_, ?_⟩
  · obtain ⟨a, ha, b, hb, hdiffer⟩ := hambiguous.differ
    exact ⟨a, hsub a ha, b, hsub b hb, hdiffer⟩
  · rcases List.mem_append.mp ha with hmem | hmem
    · exact hambiguous.noInt a (List.mem_append_left _ hmem) hint
    · rcases List.mem_append.mp hmem with hmem | hmem
      · exact hambiguous.noInt ty hty (h.int ⟨a, hmem, hint⟩)
      · exact hambiguous.noInt a (by simp [hmem]) hint
  · rcases hambiguous.undecided with ⟨a, ha, hnone⟩ | hcontested
    · exact Or.inl ⟨a, hsub a ha, hnone⟩
    -- what comes before the first float can only differ if there is none in `before`
    unfold Contested at hcontested ⊢
    rw [List.takeWhile_append] at hcontested ⊢
    split at hcontested
    · rename_i hbefore
      rw [if_pos hbefore]
      rcases hkind : kind? ty with - | - | - | -
      · exact Or.inl ⟨ty, hsub ty hty, hkind⟩
      · exact absurd hkind (hambiguous.noInt ty hty)
      · -- the rivals stand before the float
        rw [List.takeWhile_cons_of_neg (by simp [isNoFloat, hkind]), List.append_nil] at hcontested
        obtain ⟨a, ha, b, hb, hrivals⟩ := hcontested
        exact Or.inr ⟨a, List.mem_append_left _ ha, b, List.mem_append_left _ hb, hrivals⟩
      · -- there are rivals among those that the decimal stands for
        rcases h.decimal hkind with ⟨a, ha, hnone⟩ | hrivals
        · exact Or.inl ⟨a, by simp [ha], hnone⟩
        · obtain ⟨a, ha, b, hb, hrivals⟩ := contested_append after hrivals
          exact Or.inr ⟨a, List.mem_append_right _ ha, b, List.mem_append_right _ hb, hrivals⟩
    · rename_i hbefore
      rw [if_neg hbefore]
      exact Or.inr hcontested

end Validation

end ConstNarrow
