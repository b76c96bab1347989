/-
**The table of operators and folding agree.**

Which operands an operator is defined for is said twice: by the bases of the operands, in the table
that types are computed with, and by the forms of the values, where they are folded. The two agree. What
folds is in the table, with the base that the value has, and what is in the table folds, unless the
exact result is not a number of the domain.
-/
import ConstNarrow.Proofs.Folding
import ConstNarrow.Proofs.DecimalRange
import ConstNarrow.Proofs.WordArithmetic

set_option autoImplicit false

namespace ConstNarrow

open Decimal (IsWord IsOutOfRange IsRemainder precision)

/-! ## Results that do not exist -/

/-- Integer arithmetic without a result: the exact one does not fit into a word, or there is no
quotient. -/
def ArithOp.HasNoWord (x y : ℤ) : ArithOp → Prop
  | .add => ¬IsWord (x + y)
  | .sub => ¬IsWord (x - y)
  | .mul => ¬IsWord (x * y)
  | .div | .mod => Word.HasNoQuotient x y

/-- Decimal arithmetic without a result: the rounded one is out of range, or the divisor is zero. -/
def ArithOp.HasNoDecimal (x y : ℚ) : ArithOp → Prop
  | .add => IsOutOfRange (roundTo precision (x + y))
  | .sub => IsOutOfRange (roundTo precision (x - y))
  | .mul => IsOutOfRange (roundTo precision (x * y))
  | .div => y = 0 ∨ IsOutOfRange (roundTo precision (x / y))
  | .mod => y = 0 ∨ ∃ r, IsRemainder x y r ∧ IsOutOfRange (roundTo precision r)

/-- **The operands that an operator is defined for but has no value on.** There are none but integers
and decimals, and these for arithmetic only. -/
inductive BinaryOp.Fails : BinaryOp → Scalar → Scalar → Prop where
  | int {op : ArithOp} {a b : Int64} (h : op.HasNoWord a.toInt b.toInt) :
    Fails (.arith op) (.int a) (.int b)
  | decimal {op : ArithOp} {a b : Decimal} (h : op.HasNoDecimal a.value b.value) :
    Fails (.arith op) (.decimal a) (.decimal b)

/-- The same for an operator with one operand. -/
inductive UnaryOp.Fails : UnaryOp → Scalar → Prop where
  | minus {a : Int64} (h : a.toInt = -2 ^ 63) : Fails .minus (.int a)

/-! ## Integers -/

namespace Word

theorem Holds.eq_none_iff {result : Option Scalar} {x : ℤ} (h : Holds result x) :
    result = none ↔ ¬IsWord x := by
  refine ⟨fun hnone hword => ?_, h.2⟩
  obtain ⟨w, hw, -⟩ := h.1 hword
  cases hnone.symm.trans hw

/-- **When arithmetic on integers has no result.** -/
theorem fold_eq_none_iff (op : ArithOp) (a b : Int64) :
    (BinaryOp.arith op).fold? (.int a) (.int b) .int = none ↔ op.HasNoWord a.toInt b.toInt := by
  have hexact := op.isExact_fold a b
  cases op with
  | add | sub | mul => exact Holds.eq_none_iff hexact
  | div =>
    refine ⟨fun hnone => by_contra fun hquotient => ?_, hexact.1⟩
    obtain ⟨q, -, hq, -⟩ := hexact.2 hquotient
    cases hnone.symm.trans hq
  | mod =>
    refine ⟨fun hnone => by_contra fun hquotient => ?_, hexact.1⟩
    obtain ⟨-, r, hr, -⟩ := hexact.2 hquotient
    cases hnone.symm.trans hr

end Word

/-! ## Decimals -/

namespace Decimal

/-- A multiple of a number that is smaller than the number is zero. -/
theorem eq_zero_of_abs_lt {m : ℤ} {r y : ℚ} (hr : r = m * y) (h : |r| < |y|) : r = 0 := by
  rw [hr, abs_mul] at h
  have hpos : 0 < |y| := (mul_nonneg (abs_nonneg _) (abs_nonneg y)).trans_lt h
  have hm : |(m : ℚ)| < 1 := (mul_lt_iff_lt_one_left hpos).mp h
  have hzero : m = 0 := Int.abs_lt_one_iff.mp (by exact_mod_cast hm)
  rw [hr, hzero, Int.cast_zero, zero_mul]

/-- There is one remainder. -/
theorem IsRemainder.unique {x y r t : ℚ} (hr : IsRemainder x y r) (ht : IsRemainder x y t) : r = t := by
  obtain ⟨q, hq⟩ := hr.quotient
  obtain ⟨k, hk⟩ := ht.quotient
  by_cases hzero : x = 0
  · have hrzero : r = 0 := eq_zero_of_abs_lt (m := -q) (by push_cast; linarith) hr.abs_lt
    have htzero : t = 0 := eq_zero_of_abs_lt (m := -k) (by push_cast; linarith) ht.abs_lt
    rw [hrzero, htzero]
  · -- two remainders of one sign differ by less than the divisor, and by a multiple of it
    have hsign : 0 ≤ r * t := by
      have hsquare : 0 < x * x := mul_self_pos.mpr hzero
      have hproduct : 0 ≤ r * t * (x * x) := by
        rw [mul_mul_mul_comm]
        exact mul_nonneg hr.sign ht.sign
      exact nonneg_of_mul_nonneg_left hproduct hsquare
    have hlt : |r - t| < |y| := by
      rcases mul_nonneg_iff.mp hsign with ⟨hrside, htside⟩ | ⟨hrside, htside⟩
      · exact abs_sub_lt_iff.mpr ⟨by linarith [le_abs_self r, hr.abs_lt],
          by linarith [le_abs_self t, ht.abs_lt]⟩
      · exact abs_sub_lt_iff.mpr ⟨by linarith [neg_le_abs t, ht.abs_lt],
          by linarith [neg_le_abs r, hr.abs_lt]⟩
    exact sub_eq_zero.mp (eq_zero_of_abs_lt (m := k - q) (by push_cast; linarith) hlt)

variable {a b : Decimal}

/-- **When arithmetic on decimals has no result.** -/
theorem arith_eq_none_iff (ha : WellFormed a) (hb : WellFormed b) (op : ArithOp) :
    arith op a b = none ↔ op.HasNoDecimal a.value b.value := by
  cases op with
  | add => exact (rounds_add ha hb).returns.none_iff
  | sub => exact (rounds_sub ha hb).returns.none_iff
  | mul => exact (rounds_mul ha hb).returns.none_iff
  | div =>
    by_cases hzero : b.coefficient = 0
    · exact iff_of_true (if_pos (isZero_iff.mpr hzero)) (Or.inl (value_eq_zero_iff.mpr hzero))
    · rw [ArithOp.HasNoDecimal, or_iff_right (value_eq_zero_iff.not.mpr hzero)]
      exact (rounds_div ha hb hzero).returns.none_iff
  | mod =>
    by_cases hzero : b.coefficient = 0
    · exact iff_of_true (if_pos (isZero_iff.mpr hzero)) (Or.inl (value_eq_zero_iff.mpr hzero))
    · rw [ArithOp.HasNoDecimal, or_iff_right (value_eq_zero_iff.not.mpr hzero)]
      obtain ⟨r, hr, -, hrounds⟩ := rounds_rem ha hb hzero
      refine hrounds.returns.none_iff.trans ⟨fun hout => ⟨r, hr, hout⟩, ?_⟩
      rintro ⟨t, ht, hout⟩
      rwa [hr.unique ht]

end Decimal

/-! ## Two operands -/

namespace BinaryOp

/-- What folds is in the table. -/
theorem resultBase?_of_fold? {op : BinaryOp} {a b v : Scalar} {p : Primitive}
    (h : op.fold? a b p = some v) : op.resultBase? a.naturalBase b.naturalBase = some p := by
  unfold fold? at h
  split at h
  case h_1 op _ _ | h_2 op _ _ | h_3 op _ _ => cases op <;> rfl
  case h_4 | h_5 | h_6 => rfl
  case h_7 => cases h

theorem fails_int_iff {op : ArithOp} {a b : Int64} :
    Fails (.arith op) (.int a) (.int b) ↔ op.HasNoWord a.toInt b.toInt := by
  refine ⟨fun h => ?_, .int⟩
  cases h with
  | int h => exact h

theorem fails_decimal_iff {op : ArithOp} {a b : Decimal} :
    Fails (.arith op) (.decimal a) (.decimal b) ↔ op.HasNoDecimal a.value b.value := by
  refine ⟨fun h => ?_, .decimal⟩
  cases h with
  | decimal h => exact h

/-- What is in the table folds, or has no result. -/
theorem fold?_eq_none_iff {op : BinaryOp} {a b : Scalar} (ha : a.isMade = true) (hb : b.isMade = true)
    {p : Primitive} (h : op.resultBase? a.naturalBase b.naturalBase = some p) :
    op.fold? a b p = none ↔ op.Fails a b := by
  -- the table has operands of one form only
  obtain ⟨hleft, hright⟩ := domain_of_resultBase? h
  rw [Scalar.domain_naturalBase] at hleft hright
  subst hleft
  cases a <;> cases b <;> try cases hright
  case int a b =>
    cases op with
    | arith op => exact (Word.fold_eq_none_iff op a b).trans fails_int_iff.symm
    | bit op => exact iff_of_false (Option.some_ne_none _) fun hfails => by cases hfails
    | logic op => cases h
  case decimal a b =>
    cases op with
    | arith op =>
      refine Option.map_eq_none_iff.trans ?_
      exact (Decimal.arith_eq_none_iff (of_decide_eq_true ha) (of_decide_eq_true hb) op).trans
        fails_decimal_iff.symm
    | bit op | logic op => cases h
  case float a b =>
    cases op with
    | arith op => exact iff_of_false (Option.some_ne_none _) fun hfails => by cases hfails
    | bit op | logic op => cases h
  case string a b =>
    cases op with
    | arith op =>
      cases op with
      | add => exact iff_of_false (Option.some_ne_none _) fun hfails => by cases hfails
      | sub | mul | div | mod => cases h
    | bit op | logic op => cases h
  case boolean a b =>
    cases op with
    | arith op => cases op <;> cases h
    | bit op => cases h
    | logic op => exact iff_of_false (Option.some_ne_none _) fun hfails => by cases hfails
  case nil =>
    cases op with
    | arith op => cases op <;> cases h
    | bit op | logic op => cases h

end BinaryOp

/-! ## One operand -/

namespace UnaryOp

/-- An operator that folds a value is defined for its primitive. -/
theorem resultBase?_of_fold? {op : UnaryOp} {a v : Scalar} (h : op.fold? a = some v) :
    op.resultBase? a.naturalBase = some a.naturalBase := by
  unfold fold? at h
  split at h
  case h_9 => cases h
  all_goals rfl

/-- **When a unary operator has no result**, though it is defined for the primitive. -/
theorem fold?_eq_none_iff {op : UnaryOp} {a : Scalar} {p : Primitive}
    (h : op.resultBase? a.naturalBase = some p) : op.fold? a = none ↔ op.Fails a := by
  have hsome : ∀ v, op.fold? a = some v → (¬op.Fails a) → (op.fold? a = none ↔ op.Fails a) := by
    intro v hv hfails
    rw [hv]
    exact iff_of_false (Option.some_ne_none v) hfails
  cases op <;> cases a <;> try cases h
  case minus.int a =>
    refine (Word.neg_eq_none_iff a).trans ⟨.minus, fun hfails => ?_⟩
    cases hfails with
    | minus hlowest => exact hlowest
  all_goals exact hsome _ rfl fun hfails => by cases hfails

end UnaryOp

/-! ## Singletons -/

/-- **The table of operators and folding agree** on all singletons that can be made. A value that is
folded lies in the base that the table has for the operands. Where the table has a base, the value is
missing exactly if the exact integer does not fit or the rounded decimal is out of range, a divisor is
zero, or the lowest integer is divided by minus one or negated. -/
theorem table_agrees_with_folding {l r : Singleton} (hl : l.isMade = true) (hr : r.isMade = true) :
    (∀ (op : BinaryOp) (p : Primitive),
        (∀ v, op.fold? l.value r.value p = some v →
          op.resultBase? l.base r.base = some p ∧ v.naturalBase = p)
        ∧ (op.resultBase? l.base r.base = some p →
          (op.fold? l.value r.value p = none ↔ op.Fails l.value r.value)))
      ∧ ∀ op : UnaryOp,
        (∀ v, op.fold? l.value = some v → op.resultBase? l.base = some v.naturalBase)
        ∧ ∀ p, op.resultBase? l.base = some p → (op.fold? l.value = none ↔ op.Fails l.value) := by
  obtain ⟨hlproper, hlmade⟩ := Singleton.isMade_iff.mp hl
  obtain ⟨hrproper, hrmade⟩ := Singleton.isMade_iff.mp hr
  have hlbase : l.base.domain = l.value.naturalBase := Singleton.isCoherent_of_isProper hlproper
  have hrbase : r.base.domain = r.value.naturalBase := Singleton.isCoherent_of_isProper hrproper
  refine ⟨fun op p => ?_, fun op => ?_⟩
  · rw [← op.resultBase?_domain, hlbase, hrbase]
    exact ⟨fun v hv => ⟨BinaryOp.resultBase?_of_fold? hv, BinaryOp.naturalBase_of_fold? hv⟩,
      BinaryOp.fold?_eq_none_iff hlmade hrmade⟩
  · rw [← op.resultBase?_domain, hlbase]
    refine ⟨fun v hv => ?_, fun p => UnaryOp.fold?_eq_none_iff⟩
    rw [UnaryOp.resultBase?_of_fold? hv, UnaryOp.naturalBase_of_fold? hv]

/-- The lowest integer. -/
def Singleton.lowest : Singleton := .ofScalar (.int (-9223372036854775808))

/-- A byte. -/
def Singleton.zeroByte : Singleton := ⟨.int 0, .byte⟩

theorem lowest_has_no_quotient_by_zero :
    (Singleton.lowest.isMade = true ∧ Singleton.zeroByte.isMade = true)
      ∧ (BinaryOp.arith .div).resultBase? Singleton.lowest.base Singleton.zeroByte.base = some .int
      ∧ (BinaryOp.arith .div).fold? Singleton.lowest.value Singleton.zeroByte.value .int = none
      ∧ UnaryOp.minus.resultBase? Singleton.lowest.base = some .int
      ∧ UnaryOp.minus.fold? Singleton.lowest.value = none := by
  have hlowest : Singleton.lowest.isMade = true := by decide
  have hzero : Singleton.zeroByte.isMade = true := by decide
  obtain ⟨hbinary, hunary⟩ := table_agrees_with_folding hlowest hzero
  refine ⟨⟨hlowest, hzero⟩, rfl, ?_, rfl, ?_⟩
  · exact ((hbinary (.arith .div) .int).2 rfl).mpr (.int (Or.inl rfl))
  · exact ((hunary .minus).2 .int rfl).mpr (.minus rfl)

end ConstNarrow
