/-
**What a type picks from several readings.**

A number may have several readings, in different domains, and a type takes one of them. There are
three procedures for this: a finite type looks for its value of lowest rank, a primitive takes the
first reading that fits, and a union scans the results of its members and keeps what it prefers.
`pick` is what they come to, a function of the type and the readings alone. Nothing is reported on the
way: results for readings of different kinds are ranked, and a choice among ranked numbers is never
ambiguous. What has been picked is picked again as it is.
-/
import ConstNarrow.Proofs.Validated
import ConstNarrow.Proofs.ValidationReports
import ConstNarrow.Proofs.ValuesPassOn

set_option autoImplicit false

namespace ConstNarrow

open Validation

/-! ## Kinds and ranks -/

namespace Singleton

/-- The numeric kind of a value. -/
def kind? (s : Singleton) : Option NumericKind := s.base.numericKind?

/-- Two numbers of different kinds. -/
def Apart (a b : Singleton) : Prop := ∃ k l, a.kind? = some k ∧ b.kind? = some l ∧ k ≠ l

/-- Two numbers of which one is preferred: of different kinds, or both integers. -/
def Ranked (a b : Singleton) : Prop :=
  ∃ k l, a.kind? = some k ∧ b.kind? = some l ∧ (k = l → k = .int)

theorem kind?_of_domain {a b : Singleton} (h : a.base.domain = b.base.domain) : a.kind? = b.kind? := by
  rw [kind?, kind?, ← Primitive.numericKind?_domain, h, Primitive.numericKind?_domain]

theorem sameValue_comm (a b : Singleton) : a.sameValue b = b.sameValue a := by
  have hvalue : (a.value == b.value) = (b.value == a.value) := Scalar.same_comm a.value b.value
  rw [sameValue, sameValue, hvalue, Bool.beq_comm (a := a.base.domain)]

theorem rank_of_kind? {s : Singleton} {k : NumericKind} (h : s.kind? = some k) :
    rank s = k.priority := by
  rw [rank, Primitive.numericPriority?, ← kind?, h]
  rfl

theorem rank_of_domain {a b : Singleton} (h : a.base.domain = b.base.domain) : rank a = rank b := by
  rw [rank, rank, Primitive.numericPriority?, Primitive.numericPriority?, ← kind?, ← kind?,
    kind?_of_domain h]

theorem rank_of_sameValue {a b : Singleton} (h : a.sameValue b = true) : rank a = rank b :=
  rank_of_domain (domain_of_sameValue h)

theorem Ranked.eq_int {a b : Singleton} (h : a.Ranked b) {k : NumericKind} (ha : a.kind? = some k)
    (hb : b.kind? = some k) : k = .int := by
  obtain ⟨l, l', ha', hb', himp⟩ := h
  cases ha.symm.trans ha'
  cases hb.symm.trans hb'
  exact himp rfl

theorem Apart.symm {a b : Singleton} (h : a.Apart b) : b.Apart a := by
  obtain ⟨k, l, ha, hb, hne⟩ := h
  exact ⟨l, k, hb, ha, hne.symm⟩

/-- Numbers of different kinds have different ranks. -/
theorem Apart.rank_ne {a b : Singleton} (h : a.Apart b) : rank a ≠ rank b := by
  obtain ⟨k, l, ha, hb, hne⟩ := h
  rw [rank_of_kind? ha, rank_of_kind? hb]
  exact fun heq => hne (NumericKind.priority_injective heq)

/-- The same value under the same primitive, unless one is an integer and the other a byte. -/
theorem same_of_sameValue {a b : Singleton} (h : a.sameValue b = true) (hint : a.kind? ≠ some .int) :
    a.same b = true := by
  obtain ⟨hvalue, hdomain⟩ := Bool.and_eq_true_iff.mp h
  have hbase : a.base = b.base := by
    rcases a with ⟨value, p⟩
    rcases b with ⟨other, q⟩
    cases p <;> cases q <;> simp_all [kind?, Primitive.numericKind?, Primitive.domain,
      NumericKind.toPrimitive]
  rw [same, hvalue, hbase, beq_self_eq_true]
  rfl

theorem eq_nil_of_fits {s : Singleton} (hs : s.isProper = true) (h : s.fits .nil = true) : s = nil := by
  rcases s with ⟨value, base⟩
  rw [isProper_iff] at hs
  cases value <;> cases base <;> simp_all [fits, Scalar.naturalBase, nil, ofScalar]

/-- Among readings of different kinds, two different ones are apart. -/
theorem apart_or_eq {readings : List Singleton} (h : readings.Pairwise Apart) {r s : Singleton}
    (hr : r ∈ readings) (hs : s ∈ readings) : r = s ∨ r.Apart s := by
  have hsymm : Std.Symm Apart := ⟨fun _ _ => Apart.symm⟩
  by_cases heq : r = s
  · exact Or.inl heq
  · exact Or.inr (h.forall hr hs heq)

/-- **Two different results for readings of different kinds are ranked.** They are for one reading
only if it is an integer. -/
theorem ranked_of_readings {readings : List Singleton} (h : readings.Pairwise Apart)
    {r s a b : Singleton} (hr : r ∈ readings) (hs : s ∈ readings) (ha : r.sameValue a = true)
    (hb : s.sameValue b = true) (hne : b.same a = false) : a.Ranked b := by
  have hkind : r.kind? = a.kind? := kind?_of_domain (domain_of_sameValue ha)
  have hkind' : s.kind? = b.kind? := kind?_of_domain (domain_of_sameValue hb)
  rcases apart_or_eq h hr hs with rfl | ⟨k, l, hk, hl, hkl⟩
  · -- both are for one reading, so they differ as an integer and a byte
    have hint : b.kind? = some .int := by
      by_contra hint
      rw [sameValue_comm] at hb
      rw [same_of_sameValue (sameValue_trans hb ha) hint] at hne
      cases hne
    exact ⟨.int, .int, by rw [← hkind, hkind', hint], hint, fun _ => rfl⟩
  · exact ⟨k, l, hkind ▸ hk, hkind' ▸ hl, fun heq => absurd heq hkl⟩

end Singleton

open ConstNarrow.Singleton

namespace Validation

/-! ## The value of lowest rank -/

theorem lowest?_eq_none_iff {values : List Singleton} : lowest? values = none ↔ values = [] := by
  cases values with
  | nil => simp [lowest?]
  | cons s rest =>
    rw [lowest?]
    cases lowest? rest with
    | none => simp
    | some other =>
      dsimp only
      split <;> simp

/-- **The first value of lowest rank**: no rank after it is lower, and every rank before it is
higher. -/
theorem lowest?_eq_some_iff {values : List Singleton} {s : Singleton} :
    lowest? values = some s ↔ ∃ before after, values = before ++ s :: after
      ∧ (∀ t ∈ before, rank s < rank t) ∧ ∀ t ∈ after, rank s ≤ rank t := by
  constructor
  · intro h
    induction values generalizing s with
    | nil => cases h
    | cons first rest ih =>
      rw [lowest?] at h
      cases hrest : lowest? rest with
      | none =>
        rw [hrest] at h
        cases h
        rw [lowest?_eq_none_iff.mp hrest]
        exact ⟨[], [], rfl, by simp, by simp⟩
      | some other =>
        rw [hrest] at h
        obtain ⟨before, after, rfl, hbefore, hafter⟩ := ih hrest
        dsimp only at h
        split at h
        · -- the first one comes before the lowest of the others, and is no higher
          rename_i hle
          cases h
          refine ⟨[], _, rfl, by simp, fun t ht => ?_⟩
          rcases List.mem_append.mp ht with ht | ht
          · exact Nat.le_trans hle (Nat.le_of_lt (hbefore t ht))
          · rcases List.mem_cons.mp ht with rfl | ht
            · exact hle
            · exact Nat.le_trans hle (hafter t ht)
        · rename_i hlt
          cases h
          exact ⟨first :: before, after, rfl,
            List.forall_mem_cons.mpr ⟨Nat.lt_of_not_le hlt, hbefore⟩, hafter⟩
  · rintro ⟨before, after, rfl, hbefore, hafter⟩
    induction before with
    | nil =>
      rw [List.nil_append, lowest?]
      cases hrest : lowest? after with
      | none => rfl
      | some other => exact if_pos (hafter other (mem_of_lowest? hrest))
    | cons first before ih =>
      obtain ⟨hfirst, hbefore⟩ := List.forall_mem_cons.mp hbefore
      rw [List.cons_append, lowest?, ih hbefore]
      exact if_neg (Nat.not_le_of_lt hfirst)

theorem rank_le_of_lowest? {values : List Singleton} {s : Singleton} (h : lowest? values = some s)
    {t : Singleton} (ht : t ∈ values) : rank s ≤ rank t := by
  obtain ⟨before, after, rfl, hbefore, hafter⟩ := lowest?_eq_some_iff.mp h
  rcases List.mem_append.mp ht with ht | ht
  · exact Nat.le_of_lt (hbefore t ht)
  · rcases List.mem_cons.mp ht with rfl | ht
    · exact Nat.le_refl _
    · exact hafter t ht

theorem exists_lowest? {values : List Singleton} {t : Singleton} (ht : t ∈ values) :
    ∃ s, lowest? values = some s ∧ rank s ≤ rank t := by
  obtain ⟨s, hs⟩ := Option.ne_none_iff_exists'.mp fun hnone =>
    List.ne_nil_of_mem ht (lowest?_eq_none_iff.mp hnone)
  exact ⟨s, hs, rank_le_of_lowest? hs ht⟩

/-- A first value counts for nothing if a later one has a lower rank. -/
theorem lowest?_cons_of_lt {values : List Singleton} {s t : Singleton} (ht : t ∈ values)
    (h : rank t < rank s) : lowest? (s :: values) = lowest? values := by
  obtain ⟨w, hw, hle⟩ := exists_lowest? ht
  rw [lowest?, hw]
  exact if_neg (by omega)

/-- A value counts for nothing if one before it has no higher rank. -/
theorem lowest?_drop {found values : List Singleton} {s t : Singleton} (hs : s ∈ found)
    (h : rank s ≤ rank t) : lowest? (found ++ t :: values) = lowest? (found ++ values) := by
  obtain ⟨w, hw, hle⟩ := exists_lowest? (List.mem_append_left values hs)
  rw [hw]
  obtain ⟨before, after, heq, hbefore, hafter⟩ := lowest?_eq_some_iff.mp hw
  rw [lowest?_eq_some_iff]
  -- the value stands before the lowest one or after it
  rcases List.append_eq_append_iff.mp heq with ⟨between, rfl, rfl⟩ | ⟨between, rfl, hrest⟩
  · refine ⟨found ++ t :: between, after, by simp, fun u hu => ?_, hafter⟩
    rcases List.mem_append.mp hu with hu | hu
    · exact hbefore u (List.mem_append_left _ hu)
    · rcases List.mem_cons.mp hu with rfl | hu
      · exact Nat.lt_of_lt_of_le (hbefore s (List.mem_append_left _ hs)) h
      · exact hbefore u (List.mem_append_right _ hu)
  · cases between with
    | nil =>
      rw [List.append_nil] at hs ⊢
      rw [List.nil_append] at hrest
      refine ⟨before ++ [t], after, by simp [hrest], fun u hu => ?_, hafter⟩
      rcases List.mem_append.mp hu with hu | hu
      · exact hbefore u hu
      · rw [List.mem_singleton.mp hu]
        exact Nat.lt_of_lt_of_le (hbefore s hs) h
    | cons first between =>
      obtain ⟨rfl, rfl⟩ := List.cons.inj hrest
      refine ⟨before, between ++ t :: values, by simp, hbefore, fun u hu => ?_⟩
      rcases List.mem_append.mp hu with hu | hu
      · exact hafter u (List.mem_append_left _ hu)
      · rcases List.mem_cons.mp hu with rfl | hu
        · exact Nat.le_trans hle h
        · exact hafter u (List.mem_append_right _ hu)

/-! ## Different values -/

/-- Adds a value to a list, unless the same one is there. -/
def addValue (found : List Singleton) (s : Singleton) : List Singleton :=
  if found.contains s then found else found ++ [s]

theorem matching_eq (values readings : List Singleton) : matching values readings
    = (values.filter fun v => readings.any (·.sameValue v)).foldl addValue [] := rfl

theorem exists_same_of_contains {found : List Singleton} {s : Singleton}
    (h : found.contains s = true) : ∃ t ∈ found, s.same t = true :=
  List.contains_iff_exists_mem_beq.mp h

/-- What is the same as something before it does not count. -/
theorem lowest?_foldl_addValue (values found : List Singleton) :
    lowest? (values.foldl addValue found) = lowest? (found ++ values) := by
  induction values generalizing found with
  | nil => rw [List.foldl_nil, List.append_nil]
  | cons s values ih =>
    rw [List.foldl_cons, ih, addValue]
    split
    · rename_i hcontains
      obtain ⟨t, ht, hsame⟩ := exists_same_of_contains hcontains
      exact (lowest?_drop ht (Nat.le_of_eq (rank_of_sameValue (sameValue_of_same hsame)))).symm
    · rw [List.append_assoc, List.singleton_append]

/-- No two values are the same. -/
theorem pairwise_foldl_addValue (values : List Singleton) {found : List Singleton}
    (h : found.Pairwise fun a b => b.same a = false) :
    (values.foldl addValue found).Pairwise fun a b => b.same a = false := by
  induction values generalizing found with
  | nil => exact h
  | cons s values ih =>
    refine ih ?_
    unfold addValue
    split
    · exact h
    · rename_i hnot
      refine List.pairwise_append.mpr ⟨h, List.pairwise_singleton _ _, fun t ht u hu => ?_⟩
      rw [List.mem_singleton.mp hu, Bool.eq_false_iff]
      exact fun hsame => hnot (List.contains_iff_exists_mem_beq.mpr ⟨t, ht, hsame⟩)

theorem singleton_beq (s t : Singleton) : (Ty.singleton s == Ty.singleton t) = (s == t) := by
  show ([s] == [t]) = (s == t)
  simp

/-- Leaving out repetitions among values is leaving them out among their types. -/
theorem map_foldl_addValue (values found : List Singleton) :
    (values.foldl addValue found).map Ty.singleton
      = (values.map Ty.singleton).foldl Ty.addNew (found.map Ty.singleton) := by
  induction values generalizing found with
  | nil => rfl
  | cons s values ih =>
    have hcontains : (found.map Ty.singleton).contains (Ty.singleton s) = found.contains s := by
      simp only [List.contains_eq_any_beq, List.any_map, Function.comp_def, singleton_beq]
    have hstep : (addValue found s).map Ty.singleton
        = Ty.addNew (found.map Ty.singleton) (Ty.singleton s) := by
      rw [addValue, Ty.addNew, hcontains]
      split
      · rfl
      · exact List.map_append
    rw [List.foldl_cons, ih, hstep, List.map_cons, List.foldl_cons]

/-! ## The scan -/

/-- **A scan of numbers settles on the first of lowest rank**, if there are no two of one kind other
than integers. What is already selected is no integer. -/
theorem select_eq_lowest? {values : List Singleton} (hnumeric : ∀ s ∈ values, s.kind? ≠ none)
    (selected : Option (Singleton × NumericKind))
    (hselected : ∀ entry ∈ selected, entry.1.kind? = some entry.2 ∧ entry.2 ≠ .int)
    (hranked : (selected.toList.map Prod.fst ++ values).Pairwise Ranked) :
    select ⟨selected.map fun entry => (.singleton entry.1, entry.2), false⟩ (values.map .singleton)
      = (lowest? (selected.toList.map Prod.fst ++ values)).map .singleton := by
  induction values generalizing selected with
  | nil => cases selected <;> rfl
  | cons s values ih =>
    obtain ⟨hfirst, hrest⟩ := List.forall_mem_cons.mp hnumeric
    obtain ⟨kind, hkind⟩ := Option.ne_none_iff_exists'.mp hfirst
    have hty : Validation.kind? (.singleton s) = some kind := hkind
    rw [List.map_cons, select, hty]
    cases kind with
    | int =>
      -- nothing ranks before an integer, and what is selected ranks after it
      have hzero : rank s = 0 := rank_of_kind? hkind
      refine (Option.map_eq_some_iff.mpr ⟨s, lowest?_eq_some_iff.mpr ⟨_, values, rfl, ?_, ?_⟩, rfl⟩).symm
      · intro t ht
        obtain ⟨entry, hentry, rfl⟩ := List.mem_map.mp ht
        obtain ⟨hentryKind, hne⟩ := hselected entry (Option.mem_toList.mp hentry)
        rw [hzero, rank_of_kind? hentryKind]
        exact Nat.pos_of_ne_zero fun heq => hne (NumericKind.priority_injective (b := .int) heq)
      · intro t _
        rw [hzero]
        exact Nat.zero_le _
    | float =>
      have hnext := ih hrest (some (s, .float)) (by simpa using hkind)
        (hranked.sublist (List.sublist_append_right _ _))
      refine hnext.trans (congrArg _ ?_)
      cases selected with
      | none => rfl
      | some entry =>
        obtain ⟨t, kind⟩ := entry
        have ht : t.kind? = some kind := (hselected _ rfl).1
        have hfirst := (List.pairwise_cons.mp hranked).1 s List.mem_cons_self
        cases kind with
        | int => exact absurd rfl (hselected _ rfl).2
        | float => cases hfirst.eq_int ht hkind
        | decimal =>
          -- the float takes the place of the decimal
          refine (lowest?_cons_of_lt (t := s) List.mem_cons_self ?_).symm
          rw [rank_of_kind? hkind, rank_of_kind? ht]
          decide
    | decimal =>
      cases selected with
      | none => exact ih hrest (some (s, .decimal)) (by simpa using hkind) hranked
      | some entry =>
        obtain ⟨t, kind⟩ := entry
        have ht : t.kind? = some kind := (hselected _ rfl).1
        have hfirst := (List.pairwise_cons.mp hranked).1 s List.mem_cons_self
        cases kind with
        | int => exact absurd rfl (hselected _ rfl).2
        | float =>
          -- after a float a decimal is passed over
          have hnext := ih hrest (some (t, .float)) hselected (hranked.sublist (by simp))
          have hdrop : lowest? ([t] ++ s :: values) = lowest? ([t] ++ values) := by
            refine lowest?_drop (List.mem_singleton_self t) ?_
            rw [rank_of_kind? hkind, rank_of_kind? ht]
            decide
          exact hnext.trans (congrArg _ hdrop.symm)
        | decimal => cases hfirst.eq_int ht hkind

/-- What a validation comes to that finds a value or none. -/
def given : Option Singleton → Except NarrowError Ty
  | some s => .ok (.singleton s)
  | none => .error .mismatch

/-- Among ranked numbers the first of lowest rank is chosen, and nothing is reported. -/
theorem tells_choose_values (site : Site) {values : List Singleton} (h : values.Pairwise Ranked) :
    Tells (choose site (values.map .singleton)) (given (lowest? values)) [] := by
  rcases values with - | ⟨first, - | ⟨second, rest⟩⟩
  · exact .throw _
  · exact .pure _
  · have hnumeric : ∀ s ∈ first :: second :: rest, s.kind? ≠ none := by
      have hfirst := (List.pairwise_cons.mp h).1
      refine List.forall_mem_cons.mpr ⟨?_, fun s hs => ?_⟩
      · obtain ⟨k, -, hk, -⟩ := hfirst second List.mem_cons_self
        simp [hk]
      · obtain ⟨-, l, -, hl, -⟩ := hfirst s hs
        simp [hl]
    have hselect := select_eq_lowest? hnumeric none (by simp) h
    obtain ⟨w, hw⟩ := Option.ne_none_iff_exists'.mp fun hnone =>
      List.cons_ne_nil first (second :: rest) (lowest?_eq_none_iff.mp hnone)
    rw [hw]
    replace hselect := hselect.trans (congrArg _ hw)
    rw [List.map_cons, List.map_cons] at hselect ⊢
    unfold choose
    dsimp only
    rw [show select ⟨none, false⟩ _ = _ from hselect]
    exact .pure _

end Validation

/-! ## Picking a reading -/

namespace Ty

mutual

/-- The value that a type takes from some readings. -/
def pick : Ty → List Singleton → Option Singleton
  | .primitive p, readings =>
    (readings.find? (·.fits p)).map fun s => if p = .byte then s.withBase .byte else s
  | .finite values, readings => lowest? (matching values readings)
  | .union members, readings => lowest? (pickEach members readings)
  | .reference _ referred, readings => referred.pick readings
  | .intersection inner, readings => inner.pick readings
  | .anydata, readings => readings.head?
  | .json, readings => readings.head?
  | _, _ => none
termination_by structural ty => ty

/-- The values that the types of a list take. -/
def pickEach : List Ty → List Singleton → List Singleton
  | [], _ => []
  | ty :: tys, readings => (ty.pick readings).toList ++ pickEach tys readings
termination_by structural tys => tys

end

theorem pickEach_eq_filterMap (members : List Ty) (readings : List Singleton) :
    pickEach members readings = members.filterMap (·.pick readings) := by
  induction members with
  | nil => rfl
  | cons ty members ih =>
    rw [pickEach, ih, List.filterMap_cons]
    cases ty.pick readings <;> rfl

theorem mem_pickEach {members : List Ty} {readings : List Singleton} {w : Singleton} :
    w ∈ pickEach members readings ↔ ∃ ty ∈ members, ty.pick readings = some w := by
  rw [pickEach_eq_filterMap, List.mem_filterMap]

/-- A finite type picks the value of lowest rank that is one of the readings. -/
theorem pick_finite (values readings : List Singleton) : (Ty.finite values).pick readings
    = lowest? (values.filter fun v => readings.any (·.sameValue v)) := by
  rw [pick, matching_eq, lowest?_foldl_addValue, List.nil_append]

theorem mem_filter_of_sameValue {values readings : List Singleton} {v r : Singleton} (hv : v ∈ values)
    (hr : r ∈ readings) (hsame : v.sameValue r = true) :
    v ∈ values.filter fun v => readings.any (·.sameValue v) :=
  List.mem_filter.mpr ⟨hv, List.any_eq_true.mpr ⟨r, hr, by rwa [sameValue_comm]⟩⟩

/-- What a type picks is one of the readings, as far as values go, and one that belongs to the
type. -/
theorem exists_of_pick {ty : Ty} {readings : List Singleton} {w : Singleton}
    (h : ty.pick readings = some w) : ∃ r ∈ readings, r.sameValue w = true ∧ ty.admits r = true := by
  induction ty using induction_parts generalizing w with
  | primitive p =>
    obtain ⟨s, hs, rfl⟩ := Option.map_eq_some_iff.mp h
    have hfits := List.find?_some hs
    refine ⟨s, List.mem_of_find?_eq_some hs, ?_, hfits⟩
    split
    · rename_i hbyte
      rw [hbyte] at hfits
      have hdomain : s.base.domain = Primitive.int := domain_of_fits hfits
      simp [sameValue, withBase, hdomain, same_self]
    · exact sameValue_self s
  | finite values =>
    obtain ⟨hvalue, r, hr, hsame⟩ := mem_of_mem_matching (mem_of_lowest? h)
    exact ⟨r, hr, hsame, List.any_eq_true.mpr ⟨w, hvalue, by rwa [sameValue_comm]⟩⟩
  | union members ih =>
    obtain ⟨ty, hty, hpick⟩ := mem_pickEach.mp (mem_of_lowest? h)
    obtain ⟨r, hr, hsame, hadmits⟩ := ih ty hty hpick
    exact ⟨r, hr, hsame, admitsAny_iff.mpr ⟨ty, hty, hadmits⟩⟩
  | reference name referred ih => exact ih h
  | intersection inner ih => exact ih h
  | anydata | json => exact ⟨w, List.mem_of_head? h, sameValue_self w, rfl⟩
  | array | tuple | record | map | table | error => cases h

/-- A type picks something if a reading belongs to it. -/
theorem exists_pick {ty : Ty} (hty : ∀ alternative, ty.Alternative alternative →
      alternative.isNoError = true) {readings : List Singleton} {r : Singleton} (hr : r ∈ readings)
    (h : ty.admits r = true) : ∃ w, ty.pick readings = some w := by
  induction ty using induction_parts with
  | primitive p =>
    obtain ⟨s, hs⟩ := Option.isSome_iff_exists.mp (List.find?_isSome.mpr ⟨r, hr, h⟩)
    exact ⟨_, Option.map_eq_some_iff.mpr ⟨s, hs, rfl⟩⟩
  | finite values =>
    obtain ⟨v, hv, hsame⟩ := List.any_eq_true.mp h
    obtain ⟨w, hw, -⟩ := exists_lowest? (mem_filter_of_sameValue hv hr hsame)
    exact ⟨w, by rw [pick_finite, hw]⟩
  | union members ih =>
    obtain ⟨member, hmember, hadmits⟩ := admitsAny_iff.mp h
    obtain ⟨w, hw⟩ := ih member hmember (fun _ halt => hty _ (.union hmember halt)) hadmits
    obtain ⟨v, hv, -⟩ := exists_lowest? (mem_pickEach.mpr ⟨member, hmember, hw⟩)
    exact ⟨v, hv⟩
  | reference name referred ih => exact ih (fun _ halt => hty _ (.reference halt)) h
  | intersection inner ih => exact ih (fun _ halt => hty _ (.intersection halt)) h
  | anydata | json => exact ⟨readings.head (List.ne_nil_of_mem hr), List.head?_eq_some_head _⟩
  | error => cases hty _ .self
  | array | tuple | record | map | table => cases h

theorem isAssignable_singleton {expected : Ty} {r : Singleton} :
    (singleton r).isAssignable expected = true ↔ expected.admits r = true := by
  refine ⟨fun h => ?_, accepts_singleton expected⟩
  exact (accepts_finite_iff expected).mp h r List.mem_cons_self

/-- What a primitive picks is of the rank of every reading that fits. -/
theorem rank_le_of_pick_primitive {p : Primitive} {readings : List Singleton} {w r : Singleton}
    (h : (Ty.primitive p).pick readings = some w) (hadmits : r.fits p = true) : rank w ≤ rank r := by
  obtain ⟨s, -, hsame, hs⟩ := exists_of_pick h
  have hdomain : s.base.domain = r.base.domain := (domain_of_fits hs).trans (domain_of_fits hadmits).symm
  exact Nat.le_of_eq ((rank_of_sameValue hsame).symm.trans (rank_of_domain hdomain))

/-- What a finite type picks ranks no higher than any reading that belongs to it. -/
theorem rank_le_of_pick_finite {values readings : List Singleton} {w r : Singleton}
    (h : (Ty.finite values).pick readings = some w) (hr : r ∈ readings)
    (hadmits : (Ty.finite values).admits r = true) : rank w ≤ rank r := by
  obtain ⟨v, hv, hsame⟩ := List.any_eq_true.mp hadmits
  rw [pick_finite] at h
  rw [← rank_of_sameValue hsame]
  exact rank_le_of_lowest? h (mem_filter_of_sameValue hv hr hsame)

/-! ## Types that stand for readings -/

/-- A type that stands for the readings of one value: the value itself, or the union of several. -/
inductive StandsFor : (ty : Ty) → (readings : List Singleton) → Prop where
  | value (s : Singleton) : StandsFor (singleton s) [s]
  | union {readings : List Singleton} (h : readings ≠ []) :
      StandsFor (.union (readings.map singleton)) readings

namespace StandsFor

variable {inferred : Ty} {readings : List Singleton}

theorem ne_nil (h : StandsFor inferred readings) : readings ≠ [] := by
  cases h with
  | value s => exact List.cons_ne_nil s []
  | union h => exact h

theorem unlessError (h : StandsFor inferred readings) (f : Ty → Validation Ty) :
    Validation.unlessError inferred f = f inferred := by
  cases h <;> rfl

theorem unionMembers (h : StandsFor inferred readings) :
    inferred.unionMembers = readings.map singleton := by
  cases h <;> rfl

theorem readings? (h : StandsFor inferred readings) :
    Validation.readings? inferred = some readings := by
  cases h with
  | value s => rfl
  | union _ =>
    refine congrArg some ?_
    rw [List.flatMap_map]
    exact List.flatMap_singleton' _

/-- Narrowing keeps the first reading. -/
theorem narrowed (h : StandsFor inferred readings) :
    inferred.narrowed = singleton (readings.head h.ne_nil) := by
  cases h with
  | value s => rfl
  | @union readings hne =>
    cases readings with
    | nil => exact absurd rfl hne
    | cons s readings => rfl

/-- A type of readings is assignable to a primitive if all of them fit. -/
theorem isAssignable_primitive (h : StandsFor inferred readings) {p : Primitive} :
    inferred.isAssignable (.primitive p) = true ↔ ∀ s ∈ readings, s.fits p = true := by
  constructor
  · intro hassignable s hs
    have hmem : singleton s ∈ inferred.unionMembers := by
      rw [h.unionMembers]
      exact List.mem_map_of_mem hs
    exact fits_of_accepts (accepts_of_mem_unionMembers hassignable hmem)
  · intro hfits
    cases h with
    | value s => exact accepts_singleton (.primitive p) (hfits s List.mem_cons_self)
    | union _ =>
      rw [isAssignable, accepts, everyAlternative, Bool.or_eq_true]
      refine Or.inr (everyMember_iff.mpr fun ty hty => ?_)
      obtain ⟨s, hs, rfl⟩ := List.mem_map.mp hty
      exact accepts_singleton (.primitive p) (hfits s hs)

theorem isAssignable_json (h : StandsFor inferred readings) : inferred.isAssignable .json = true := by
  refine json_accepts ?_
  cases h with
  | value s => rfl
  | union _ =>
    refine isJsonList_iff.mpr fun ty hty => ?_
    obtain ⟨s, -, rfl⟩ := List.mem_map.mp hty
    rfl

end StandsFor

end Ty

open Ty

namespace Validation

variable {site : Site} {inferred : Ty} {readings : List Singleton}

/-- What fits among the members of a union are the different values that they pick. -/
theorem fitting_eq_pickEach {members : List Ty}
    (h : ∀ ty ∈ members, outcome (validate site ty inferred) = given (ty.pick readings)) :
    fitting site inferred members []
      = ((pickEach members readings).foldl addValue []).map Ty.singleton := by
  have hresults : results site inferred members = (pickEach members readings).map Ty.singleton := by
    induction members with
    | nil => rfl
    | cons ty members ih =>
      obtain ⟨hfirst, hrest⟩ := List.forall_mem_cons.mp h
      rw [results_cons, hfirst, ih hrest, pickEach, List.map_append]
      cases ty.pick readings <;> rfl
  rw [fitting_eq_foldl, hresults, map_foldl_addValue]
  rfl

theorem tells_narrow_readings (hinferred : StandsFor inferred readings) :
    Tells (narrow inferred) (given readings.head?) [] := by
  rw [List.head?_eq_some_head hinferred.ne_nil]
  have htells := Tells.narrow inferred
  rwa [hinferred.narrowed] at htells

/-- Readings are nil all together or not at all: two of them would be numbers. -/
theorem tells_nil_readings (hinferred : StandsFor inferred readings)
    (hproper : ∀ r ∈ readings, r.isProper = true) (hapart : readings.Pairwise Apart) :
    Tells (Validation.primitive .nil inferred) (given ((Ty.primitive .nil).pick readings)) [] := by
  show Tells (if inferred.isAssignable (.primitive .nil) then _ else _)
    (given ((readings.find? (·.fits .nil)).map fun s => s)) []
  by_cases hall : inferred.isAssignable (.primitive .nil) = true
  · rw [if_pos hall]
    -- the first reading is nil
    have hfits := hinferred.isAssignable_primitive.mp hall
    obtain ⟨r, rest, rfl⟩ := List.exists_cons_of_ne_nil hinferred.ne_nil
    have hr := hfits r List.mem_cons_self
    rw [List.find?_cons_of_pos (p := fun s : Singleton => s.fits .nil) hr,
      eq_nil_of_fits (hproper r List.mem_cons_self) hr]
    exact .pure _
  · rw [if_neg hall]
    -- one reading is not nil, so none is
    have hnone : readings.find? (·.fits .nil) = none := by
      refine List.find?_eq_none.mpr fun r hr hfits => hall ?_
      refine hinferred.isAssignable_primitive.mpr fun s hs => ?_
      rcases apart_or_eq hapart hr hs with rfl | ⟨k, -, hk, -⟩
      · exact hfits
      · rw [kind?_of_domain (b := nil) (domain_of_fits hfits)] at hk
        cases hk
    rw [hnone]
    exact .throw _

/-- A primitive takes the reading that it picks. -/
theorem tells_primitive_readings (hinferred : StandsFor inferred readings)
    (hproper : ∀ r ∈ readings, r.isProper = true) (hapart : readings.Pairwise Apart) (p : Primitive) :
    Tells (Validation.primitive p inferred) (given ((Ty.primitive p).pick readings)) [] := by
  by_cases hp : p = .nil
  · subst hp
    exact tells_nil_readings hinferred hproper hapart
  · have hfind : inferred.unionMembers.find? (fun ty => ty.isAssignable (.primitive p))
        = (readings.find? (·.fits p)).map Ty.singleton := by
      rw [hinferred.unionMembers, List.find?_map]
      refine congrArg _ (congrArg (readings.find? ·) (funext fun s => ?_))
      exact Bool.eq_iff_iff.mpr ⟨fits_of_accepts, accepts_singleton (.primitive p)⟩
    unfold Validation.primitive
    dsimp only
    rw [hfind, pick]
    split
    · exact absurd rfl hp
    · cases readings.find? (·.fits p) with
      | none => exact .throw _
      | some s =>
        have hrebase : rebase p (.singleton s)
            = .singleton (if p = .byte then s.withBase .byte else s) :=
          (apply_ite Ty.singleton (p = .byte) (s.withBase .byte) s).symm
        show Tells (pure (rebase p (.singleton s))) _ []
        rw [hrebase]
        exact .pure _

/-- The different values that the members of a union pick are ranked, since each is a reading. -/
theorem ranked_pickEach (hapart : readings.Pairwise Apart) (members : List Ty) :
    ((pickEach members readings).foldl addValue []).Pairwise Ranked := by
  have hread : ∀ w, w ∈ (pickEach members readings).foldl addValue [] →
      ∃ r ∈ readings, r.sameValue w = true := by
    intro w hw
    obtain ⟨ty, -, hpick⟩ := mem_pickEach.mp ((mem_of_mem_foldl_found hw).resolve_right (by simp))
    obtain ⟨r, hr, hsame, -⟩ := exists_of_pick hpick
    exact ⟨r, hr, hsame⟩
  refine (pairwise_foldl_addValue _ .nil).imp_of_mem fun ha hb hne => ?_
  obtain ⟨r, hr, hsame⟩ := hread _ ha
  obtain ⟨s, hs, hsame'⟩ := hread _ hb
  exact ranked_of_readings hapart hr hs hsame hsame' hne

/-- **What a type takes is what it picks.** -/
theorem tells_pick (hinferred : StandsFor inferred readings)
    (hproper : ∀ r ∈ readings, r.isProper = true) (hapart : readings.Pairwise Apart) {expected : Ty}
    (hexpected : ∀ alternative, expected.Alternative alternative → alternative.isNoError = true) :
    Tells (validate site expected inferred) (given (expected.pick readings)) [] := by
  induction expected using induction_parts with
  | error => cases hexpected _ .self
  | reference name referred ih => exact ih fun _ halt => hexpected _ (.reference halt)
  | intersection inner ih => exact ih fun _ halt => hexpected _ (.intersection halt)
  | array | tuple | record | map | table =>
    rw [validate, hinferred.unlessError]
    cases hinferred <;> exact .throw _
  | union members ih =>
    rw [validate, hinferred.unlessError]
    have htells := fun ty hty => ih ty hty fun _ halt => hexpected _ (.union hty halt)
    have hfound := tells_validateEach (fun ty hty => ⟨_, _, htells ty hty⟩) []
    rw [fitting_eq_pickEach fun ty hty => (htells ty hty).outcome_eq] at hfound
    have hchosen := hfound.bind (tells_choose_values site (ranked_pickEach hapart members))
    rwa [lowest?_foldl_addValue] at hchosen
  | finite values =>
    rw [validate, hinferred.unlessError, Validation.finite, hinferred.readings?]
    show Tells (match lowest? (matching values readings) with
      | some s => pure (Ty.singleton s)
      | none => throw .mismatch) (given (lowest? (matching values readings))) []
    cases lowest? (matching values readings) with
    | none => exact .throw _
    | some w => exact .pure _
  | primitive p =>
    rw [validate, hinferred.unlessError]
    exact tells_primitive_readings hinferred hproper hapart p
  | anydata =>
    rw [validate, hinferred.unlessError]
    exact tells_narrow_readings hinferred
  | json =>
    rw [validate, hinferred.unlessError, hinferred.isAssignable_json]
    exact tells_narrow_readings hinferred

end Validation

/-! ## Picking again -/

namespace Ty

theorem Alternative.everywhere {ty alternative : Ty} (h : ty.Alternative alternative) {f : Ty → Bool}
    (hf : ty.everywhere f = true) : alternative.everywhere f = true := by
  induction h with
  | self => exact hf
  | union hmem _ ih => exact ih ((everywhere_union.mp hf).2 _ hmem)
  | reference _ ih => exact ih (everywhere_reference.mp hf).2
  | intersection _ ih => exact ih (everywhere_intersection.mp hf).2

section Values

variable {ty : Ty} {readings : List Singleton} {w : Singleton}

theorem isNoError_of_alternative (hty : ty.everywhere isWellFormed = true) (alternative : Ty)
    (h : ty.Alternative alternative) : alternative.isNoError = true :=
  everywhere_self (everywhere_isNoError (h.everywhere hty))

theorem isProper_of_pick (hty : ty.everywhere isWellFormed = true)
    (hproper : ∀ r ∈ readings, r.isProper = true) (h : ty.pick readings = some w) :
    w.isProper = true := by
  induction ty using induction_parts with
  | primitive p =>
    obtain ⟨s, hs, rfl⟩ := Option.map_eq_some_iff.mp h
    have hproper := hproper s (List.mem_of_find?_eq_some hs)
    split
    · rename_i hbyte
      subst hbyte
      exact isProper_withBase_byte hproper (List.find?_some (p := fun s : Singleton => s.fits .byte) hs)
    · exact hproper
  | finite values =>
    have hholds : holdsProper (.finite values) = true := holdsProper_of_isWellFormed hty
    exact List.all_eq_true.mp hholds w (mem_of_mem_matching (mem_of_lowest? h)).1
  | union members ih =>
    obtain ⟨member, hmember, hpick⟩ := mem_pickEach.mp (mem_of_lowest? h)
    exact ih member hmember ((everywhere_union.mp hty).2 member hmember) hpick
  | reference name referred ih => exact ih (everywhere_reference.mp hty).2 h
  | intersection inner ih => exact ih (everywhere_intersection.mp hty).2 h
  | anydata | json => exact hproper w (List.mem_of_head? h)
  | array | tuple | record | map | table | error => cases h

/-- What picks from one value admits every reading that is the same value. -/
theorem admits_of_pick_value (hty : ty.everywhere isWellFormed = true) {r u : Singleton}
    (hproper : r.isProper = true) (hw : w.isProper = true) (hsame : r.sameValue w = true)
    (hu : ty.pick [w] = some u) : ty.admits r = true := by
  obtain ⟨v, hv, -, hadmits⟩ := exists_of_pick hu
  rw [List.mem_singleton.mp hv] at hadmits
  rw [sameValue_comm] at hsame
  exact admits_of_sameValue (holdsProper_of_isWellFormed hty) hw hproper hsame hadmits

/-- A type that picks something of a higher rank, although a reading of a lower one belongs to it,
takes the latter as it is: it looks at the first reading only. -/
theorem eq_of_pick_higher (hty : ty.everywhere isWellFormed = true) {r a u : Singleton}
    (hr : r ∈ readings) (hproper : r.isProper = true) (hw : w.isProper = true)
    (hsame : r.sameValue w = true) (ha : ty.pick readings = some a) (hlt : rank w < rank a)
    (hu : ty.pick [w] = some u) : u = w := by
  rw [← rank_of_sameValue hsame] at hlt
  induction ty using induction_parts generalizing a u with
  | primitive p =>
    have hadmits := admits_of_pick_value hty hproper hw hsame hu
    exact absurd (rank_le_of_pick_primitive ha hadmits) (Nat.not_le_of_lt hlt)
  | finite values =>
    have hadmits := admits_of_pick_value hty hproper hw hsame hu
    exact absurd (rank_le_of_pick_finite ha hr hadmits) (Nat.not_le_of_lt hlt)
  | union members ih =>
    obtain ⟨member, hmember, hpick⟩ := mem_pickEach.mp (mem_of_lowest? hu)
    have hmemberTy := (everywhere_union.mp hty).2 member hmember
    -- the member that takes the value picks from the readings too, and nothing lower than the union
    obtain ⟨b, hb⟩ := exists_pick (isNoError_of_alternative hmemberTy) hr
      (admits_of_pick_value hmemberTy hproper hw hsame hpick)
    have hle : rank a ≤ rank b := rank_le_of_lowest? ha (mem_pickEach.mpr ⟨member, hmember, hb⟩)
    exact ih member hmember hmemberTy hb (Nat.lt_of_lt_of_le hlt hle) hpick
  | reference name referred ih => exact ih (everywhere_reference.mp hty).2 ha hlt hu
  | intersection inner ih => exact ih (everywhere_intersection.mp hty).2 ha hlt hu
  | anydata | json => exact (Option.some.inj hu).symm
  | array | tuple | record | map | table | error => cases hu

theorem pick_pick_primitive {p : Primitive} (h : (Ty.primitive p).pick readings = some w) :
    (Ty.primitive p).pick [w] = some w := by
  obtain ⟨s, hs, rfl⟩ := Option.map_eq_some_iff.mp h
  have hfits : s.fits p = true := List.find?_some (p := fun s : Singleton => s.fits p) hs
  by_cases hbyte : p = .byte
  · subst hbyte
    rfl
  · rw [if_neg hbyte, pick, List.find?_cons_of_pos (p := fun s : Singleton => s.fits p) hfits,
      Option.map_some, if_neg hbyte]

theorem pick_pick_finite {values : List Singleton} (h : (Ty.finite values).pick readings = some w) :
    (Ty.finite values).pick [w] = some w := by
  obtain ⟨r, hr, hsame, -⟩ := exists_of_pick h
  rw [pick_finite, lowest?_eq_some_iff] at h ⊢
  obtain ⟨before, after, hfilter, hbefore, hafter⟩ := h
  -- the values that are the same as the one that was picked are among those that were found
  have hagain : (values.filter fun v => [w].any (·.sameValue v))
      = (values.filter fun v => readings.any (·.sameValue v)).filter (w.sameValue ·) := by
    rw [List.filter_filter]
    refine List.filter_congr fun v _ => ?_
    cases hv : w.sameValue v with
    | false => simp [hv]
    | true =>
      have hfound : readings.any (·.sameValue v) = true :=
        List.any_eq_true.mpr ⟨r, hr, sameValue_trans hsame hv⟩
      simp [hv, hfound]
  refine ⟨before.filter (w.sameValue ·), after.filter (w.sameValue ·), ?_,
    fun t ht => hbefore t (List.mem_of_mem_filter ht),
    fun t ht => hafter t (List.mem_of_mem_filter ht)⟩
  rw [hagain, hfilter, List.filter_append, List.filter_cons_of_pos (sameValue_self w)]

/-- The first member that picks something from what was picked picks just that. -/
theorem head?_pickEach {members : List Ty} {r : Singleton} (hr : r ∈ readings)
    (hproper : r.isProper = true) (hw : w.isProper = true) (hsame : r.sameValue w = true)
    (hmembers : ∀ ty ∈ members, ty.everywhere isWellFormed = true)
    (ih : ∀ ty ∈ members, ty.pick readings = some w → ty.pick [w] = some w)
    (h : lowest? (pickEach members readings) = some w) : (pickEach members [w]).head? = some w := by
  induction members with
  | nil => cases h
  | cons ty members ihmembers =>
    obtain ⟨hty, hmembers⟩ := List.forall_mem_cons.mp hmembers
    obtain ⟨ihty, ih⟩ := List.forall_mem_cons.mp ih
    have hrest := ihmembers hmembers ih
    rw [pickEach] at h ⊢
    cases ha : ty.pick readings with
    | none =>
      -- what does not pick from the readings does not pick from one of them
      cases hu : ty.pick [w] with
      | none =>
        rw [ha] at h
        exact hrest h
      | some u =>
        obtain ⟨a, ha'⟩ := exists_pick (isNoError_of_alternative hty) hr
          (admits_of_pick_value hty hproper hw hsame hu)
        cases ha.symm.trans ha'
    | some a =>
      rw [ha] at h
      obtain ⟨before, after, heq, hbefore, hafter⟩ := lowest?_eq_some_iff.mp h
      -- either this member picked it, or it picked something of a higher rank
      cases before with
      | nil =>
        obtain ⟨rfl, -⟩ := List.cons.inj heq
        rw [ihty ha]
        rfl
      | cons first before =>
        obtain ⟨rfl, htail⟩ := List.cons.inj heq
        obtain ⟨hlt, hbefore⟩ := List.forall_mem_cons.mp hbefore
        cases hu : ty.pick [w] with
        | none => exact hrest (lowest?_eq_some_iff.mpr ⟨before, after, htail, hbefore, hafter⟩)
        | some u =>
          rw [eq_of_pick_higher hty hr hproper hw hsame ha hlt hu]
          rfl

/-- **Picking twice is picking once.** -/
theorem pick_pick (hty : ty.everywhere isWellFormed = true)
    (hproper : ∀ r ∈ readings, r.isProper = true) (h : ty.pick readings = some w) :
    ty.pick [w] = some w := by
  induction ty using induction_parts with
  | primitive p => exact pick_pick_primitive h
  | finite values => exact pick_pick_finite h
  | union members ih =>
    obtain ⟨r, hr, hsame, -⟩ := exists_of_pick h
    have hmembers := (everywhere_union.mp hty).2
    have hhead := head?_pickEach hr (hproper r hr) (isProper_of_pick hty hproper h) hsame hmembers
      (fun member hmember => ih member hmember (hmembers member hmember)) h
    obtain ⟨rest, hrest⟩ := List.head?_eq_some_iff.mp hhead
    rw [pick, lowest?_eq_some_iff]
    refine ⟨[], rest, hrest, by simp, fun u hu => ?_⟩
    -- whatever is picked from one value is that value
    obtain ⟨member, -, hu⟩ := mem_pickEach.mp (hrest ▸ List.mem_cons_of_mem w hu)
    obtain ⟨v, hv, hvu, -⟩ := exists_of_pick hu
    rw [List.mem_singleton.mp hv] at hvu
    exact Nat.le_of_eq (rank_of_sameValue hvu)
  | reference name referred ih => exact ih (everywhere_reference.mp hty).2 h
  | intersection inner ih => exact ih (everywhere_intersection.mp hty).2 h
  | anydata | json => rfl
  | array | tuple | record | map | table | error => cases h

end Values

end Ty

end ConstNarrow
