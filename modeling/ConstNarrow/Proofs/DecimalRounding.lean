/-
**Rounding to significant digits.**

`roundTo` rounds a rational number to so many significant digits, a half to the even neighbour. It is
defined on the numbers themselves and does not know how a decimal is held. The decimals are brought
to it by their `value`: keeping the leading digits of the coefficient, with the remainder of one
division to decide about the last of them, is `roundTo`, also where a carry makes a new digit. What
`round?` returns is then said in terms of numbers only.
-/
import Mathlib.Data.Int.Log
import Mathlib.Data.Rat.Floor
import Mathlib.Algebra.Order.Field.Power
import Mathlib.Algebra.Ring.Int.Parity
import Mathlib.Tactic.FieldSimp
import Mathlib.Tactic.Linarith
import Mathlib.Tactic.Positivity
import Mathlib.Tactic.Ring
import ConstNarrow.Decimal.Basic

set_option autoImplicit false

namespace ConstNarrow

/-! ## Whole numbers -/

/-- A whole number nearest to `x`; where two are, the even one. -/
def IsNearest (x : ℚ) (n : ℤ) : Prop := |x - n| < 1 / 2 ∨ |x - n| = 1 / 2 ∧ Even n

/-- The whole number nearest to `x`, and of two the even one. -/
def roundEven (x : ℚ) : ℤ :=
  if Int.fract x < 1 / 2 then ⌊x⌋
  else if 1 / 2 < Int.fract x then ⌊x⌋ + 1
  else if Even ⌊x⌋ then ⌊x⌋ else ⌊x⌋ + 1

theorem isNearest_roundEven (x : ℚ) : IsNearest x (roundEven x) := by
  have hfract : x - ⌊x⌋ = Int.fract x := rfl
  have hnonneg := Int.fract_nonneg x
  have hlt := Int.fract_lt_one x
  have hlower : |x - (⌊x⌋ : ℤ)| = Int.fract x := by rw [hfract, abs_of_nonneg hnonneg]
  have hupper : |x - ((⌊x⌋ + 1 : ℤ) : ℚ)| = 1 - Int.fract x := by
    rw [Int.cast_add, Int.cast_one, ← sub_sub, hfract, abs_of_neg (by linarith)]
    ring
  unfold roundEven IsNearest
  split_ifs with hsmall hlarge heven
  · exact Or.inl (by rwa [hlower])
  · exact Or.inl (by rw [hupper]; linarith)
  · exact Or.inr ⟨by rw [hlower]; linarith, heven⟩
  · exact Or.inr ⟨by rw [hupper]; linarith, Int.even_add_one.mpr heven⟩

/-- There is only one. -/
theorem IsNearest.unique {x : ℚ} {m n : ℤ} (hm : IsNearest x m) (hn : IsNearest x n) : m = n := by
  have htriangle : |((m - n : ℤ) : ℚ)| ≤ |x - m| + |x - n| := by
    have heq : ((m - n : ℤ) : ℚ) = (x - n) - (x - m) := by
      push_cast
      ring
    rw [heq, add_comm]
    exact abs_sub _ _
  rw [← Int.cast_abs] at htriangle
  -- two whole numbers are apart by at least one, so both are at a distance of one half
  have hclose : |m - n| < 1 → m = n := fun h => sub_eq_zero.mp (Int.abs_lt_one_iff.mp h)
  rcases hm with hm | ⟨hm, hmeven⟩
  · refine hclose ?_
    have : |x - n| ≤ 1 / 2 := hn.elim le_of_lt fun h => h.1.le
    exact_mod_cast (by linarith : ((|m - n| : ℤ) : ℚ) < 1)
  · rcases hn with hn | ⟨hn, hneven⟩
    · refine hclose ?_
      exact_mod_cast (by linarith : ((|m - n| : ℤ) : ℚ) < 1)
    · have hle : |m - n| ≤ 1 := by exact_mod_cast (by linarith : ((|m - n| : ℤ) : ℚ) ≤ 1)
      obtain ⟨k, hk⟩ := hmeven.sub hneven
      rw [abs_le] at hle
      omega

theorem roundEven_eq_iff {x : ℚ} {n : ℤ} : roundEven x = n ↔ IsNearest x n :=
  ⟨fun h => h ▸ isNearest_roundEven x, fun h => (isNearest_roundEven x).unique h⟩

@[simp] theorem roundEven_intCast (n : ℤ) : roundEven (n : ℚ) = n :=
  roundEven_eq_iff.mpr (Or.inl (by simp))

theorem roundEven_neg (x : ℚ) : roundEven (-x) = -roundEven x := by
  have hdistance : |-x - ((-roundEven x : ℤ) : ℚ)| = |x - roundEven x| := by
    rw [Int.cast_neg, ← abs_neg]
    congr 1
    ring
  rw [roundEven_eq_iff, IsNearest, hdistance, even_neg]
  exact isNearest_roundEven x

/-- Rounding to a multiple of `2 * h` may start from a whole number nearby, if that is not itself half
way between two multiples. -/
theorem roundEven_div_of_near {x : ℚ} {c : ℤ} {h : ℕ} (hpos : 0 < h) (hnear : |x - c| ≤ 1 / 2)
    (hdvd : ¬(h : ℤ) ∣ c) : roundEven (x / (2 * h)) = roundEven (c / (2 * h)) := by
  have hunit : (0 : ℚ) < 2 * h := by positivity
  have hscale : ∀ (y : ℚ) (m : ℤ), |y / (2 * h) - m| = |y - 2 * h * m| / (2 * h) := by
    intro y m
    rw [div_sub' hunit.ne', abs_div, abs_of_pos hunit]
  set m := roundEven (c / (2 * h)) with hm
  have hround : |(c : ℚ) / (2 * h) - m| ≤ 1 / 2 :=
    (isNearest_roundEven (c / (2 * h))).elim le_of_lt fun h => h.1.le
  rw [hscale, div_le_iff₀ hunit] at hround
  have hle : |c - 2 * h * m| ≤ h := by
    exact_mod_cast (by linarith : |(c : ℚ) - 2 * h * m| ≤ h)
  -- at a distance of `h` the number would be a multiple of `h`
  have hne : |c - 2 * h * m| ≠ h := by
    intro heq
    refine hdvd ?_
    have hself : (h : ℤ) ∣ c - 2 * h * m := (dvd_abs _ _).mp (dvd_of_eq heq.symm)
    exact (dvd_sub_left ⟨2 * m, by ring⟩).mp hself
  have hlt : |c - 2 * h * m| + 1 ≤ h := lt_of_le_of_ne hle hne
  have hltq : |(c : ℚ) - 2 * h * m| + 1 ≤ h := by exact_mod_cast hlt
  refine roundEven_eq_iff.mpr (Or.inl ?_)
  rw [hscale, div_lt_iff₀ hunit]
  have htriangle : |x - 2 * h * m| ≤ |x - c| + |(c : ℚ) - 2 * h * m| := abs_sub_le _ _ _
  linarith

/-! ## Digits -/

/-- The whole multiples of a power of ten. -/
def OnGrid (e : ℤ) (x : ℚ) : Prop := ∃ m : ℤ, x = m * 10 ^ e

theorem OnGrid.mono {e e' : ℤ} {x : ℚ} (h : OnGrid e x) (hle : e' ≤ e) : OnGrid e' x := by
  obtain ⟨m, rfl⟩ := h
  obtain ⟨k, hk⟩ := Int.eq_ofNat_of_zero_le (sub_nonneg.mpr hle)
  refine ⟨m * 10 ^ k, ?_⟩
  rw [Int.cast_mul, Int.cast_pow, Int.cast_ofNat, mul_assoc, ← zpow_natCast,
    ← zpow_add₀ (by norm_num), ← hk, sub_add_cancel]

theorem onGrid_of_abs_eq {e : ℤ} {x : ℚ} (h : |x| = 10 ^ e) : OnGrid e x := by
  rcases eq_or_eq_neg_of_abs_eq h with rfl | rfl
  · exact ⟨1, by simp⟩
  · exact ⟨-1, by simp⟩

/-- The number rounded to a multiple of a power of ten. -/
def roundAt (e : ℤ) (x : ℚ) : ℚ := roundEven (x / 10 ^ e) * 10 ^ e

/-- The number rounded to so many significant digits, a half to the even neighbour. -/
def roundTo (digits : ℕ) (x : ℚ) : ℚ := roundAt (Int.log 10 |x| + 1 - digits) x

theorem roundAt_eq_self {e : ℤ} {x : ℚ} (h : OnGrid e x) : roundAt e x = x := by
  obtain ⟨m, rfl⟩ := h
  rw [roundAt, mul_div_cancel_right₀ _ (by positivity), roundEven_intCast]

theorem roundTo_neg (digits : ℕ) (x : ℚ) : roundTo digits (-x) = -roundTo digits x := by
  rw [roundTo, roundTo, roundAt, roundAt, abs_neg, neg_div, roundEven_neg, Int.cast_neg, neg_mul]

/-- The exponent of the leading digit, by the powers of ten on either side. -/
theorem log_eq {e : ℤ} {x : ℚ} (hle : 10 ^ e ≤ x) (hlt : x < 10 ^ (e + 1)) : Int.log 10 x = e := by
  have hpos : 0 < x := lt_of_lt_of_le (by positivity) hle
  have hlower := (Int.zpow_le_iff_le_log (b := 10) (by norm_num) hpos).mp (by exact_mod_cast hle)
  have hupper := (Int.lt_zpow_iff_log_lt (b := 10) (by norm_num) hpos).mp (by exact_mod_cast hlt)
  omega

section Digits

variable {digits : ℕ} {e : ℤ} {x : ℚ} (hdigits : 0 < digits)

include hdigits

theorem roundTo_of_abs_eq (h : |x| = 10 ^ e) : roundTo digits x = x := by
  rw [roundTo, h, log_eq le_rfl (zpow_lt_zpow_right₀ (by norm_num) (lt_add_one e))]
  exact roundAt_eq_self ((onGrid_of_abs_eq h).mono (by omega))

/-- Where the leading digit stands decides at which digit to round. A power of ten may be taken to
have one digit more. -/
theorem roundTo_eq_roundAt (hlower : 10 ^ (e + digits - 1) ≤ |x|) (hupper : |x| ≤ 10 ^ (e + digits)) :
    roundTo digits x = roundAt e x := by
  rcases hupper.lt_or_eq with hlt | heq
  · rw [roundTo, log_eq hlower (by rwa [sub_add_cancel]), sub_add_cancel, add_sub_cancel_right]
  · rw [roundTo_of_abs_eq hdigits heq, roundAt_eq_self ((onGrid_of_abs_eq heq).mono (by omega))]

/-- A number that has no more digits is not changed. -/
theorem roundTo_eq_self (hgrid : OnGrid e x) (hx : |x| ≤ 10 ^ (e + digits)) :
    roundTo digits x = x := by
  rcases eq_or_ne x 0 with rfl | hne
  · exact roundAt_eq_self ⟨0, by simp⟩
  have hlog : (10 : ℚ) ^ Int.log 10 |x| ≤ |x| := by
    exact_mod_cast Int.zpow_log_le_self (b := 10) (by norm_num) (abs_pos.mpr hne)
  have hle : Int.log 10 |x| ≤ e + digits :=
    (zpow_le_zpow_iff_right₀ (by norm_num : (1 : ℚ) < 10)).mp (hlog.trans hx)
  rcases hle.lt_or_eq with hlt | heq
  · exact roundAt_eq_self (hgrid.mono (by omega))
  · exact roundTo_of_abs_eq hdigits (le_antisymm hx (heq ▸ hlog))

/-- Only zero is rounded to zero. -/
theorem roundTo_eq_zero_iff : roundTo digits x = 0 ↔ x = 0 := by
  constructor
  · intro h
    by_contra hne
    have hlog : (10 : ℚ) ^ Int.log 10 |x| ≤ |x| := by
      exact_mod_cast Int.zpow_log_le_self (b := 10) (by norm_num) (abs_pos.mpr hne)
    rw [roundTo, roundAt, mul_eq_zero, or_iff_left (by positivity), Int.cast_eq_zero,
      roundEven_eq_iff, IsNearest, Int.cast_zero, sub_zero, abs_div,
      abs_of_pos (by positivity : (0 : ℚ) < 10 ^ (Int.log 10 |x| + 1 - digits))] at h
    have hsmall := h.elim le_of_lt fun h => h.1.le
    rw [div_le_iff₀ (by positivity)] at hsmall
    have hlarge : (10 : ℚ) ^ (Int.log 10 |x| + 1 - digits) ≤ |x| :=
      (zpow_le_zpow_right₀ (by norm_num) (by omega)).trans hlog
    linarith [abs_pos.mpr hne]
  · rintro rfl
    exact roundAt_eq_self ⟨0, by simp⟩

end Digits

/-! ## Values -/

theorem Text.digitCount_le_iff {n k : ℕ} (hk : 0 < k) : Text.digitCount n ≤ k ↔ n < 10 ^ k :=
  Nat.length_toDigits_le_iff (by norm_num) hk

theorem Text.digitCount_pos (n : ℕ) : 0 < Text.digitCount n := Nat.length_toDigits_pos

theorem Text.lt_pow_digitCount (n : ℕ) : n < 10 ^ Text.digitCount n :=
  (digitCount_le_iff (digitCount_pos n)).mp le_rfl

theorem Text.pow_le_of_ne_zero {n : ℕ} (hn : n ≠ 0) : 10 ^ (Text.digitCount n - 1) ≤ n := by
  by_contra h
  rcases Nat.eq_zero_or_pos (digitCount n - 1) with hzero | hpos
  · rw [hzero] at h
    omega
  · have := (digitCount_le_iff hpos).mpr (not_le.mp h)
    omega

namespace Decimal

/-- The number that a decimal stands for. -/
def value (d : Decimal) : ℚ := d.coefficient * 10 ^ (-d.scale)

variable {d : Decimal}

theorem value_eq_zero_iff : d.value = 0 ↔ d.coefficient = 0 := by
  rw [value, mul_eq_zero, Int.cast_eq_zero, or_iff_left (by positivity)]

theorem abs_value (d : Decimal) : |d.value| = d.coefficient.natAbs * 10 ^ (-d.scale) := by
  rw [value, abs_mul, abs_of_pos (by positivity : (0 : ℚ) < 10 ^ (-d.scale)), Nat.cast_natAbs,
    Int.cast_abs]

theorem onGrid_value (d : Decimal) : OnGrid (-d.scale) d.value := ⟨_, rfl⟩

/-- The leading digit of a decimal that is not zero bounds it from below. -/
theorem zpow_leading_le (hd : d.coefficient ≠ 0) : 10 ^ d.leading ≤ |d.value| := by
  have hpow : ((10 ^ (d.digitCount - 1) : ℕ) : ℚ) ≤ d.coefficient.natAbs := by
    exact_mod_cast Text.pow_le_of_ne_zero (Int.natAbs_ne_zero.mpr hd)
  have hpos : 0 < d.digitCount := Text.digitCount_pos _
  have hleading : d.leading = ((d.digitCount - 1 : ℕ) : ℤ) + -d.scale := by
    rw [leading]
    omega
  rw [abs_value, hleading, zpow_add₀ (by norm_num), zpow_natCast]
  push_cast at hpow
  gcongr

/-- The place above the leading digit bounds it from above. -/
theorem lt_zpow_leading (d : Decimal) : |d.value| < 10 ^ (d.leading + 1) := by
  have hpow : (d.coefficient.natAbs : ℚ) < ((10 ^ d.digitCount : ℕ) : ℚ) := by
    exact_mod_cast Text.lt_pow_digitCount d.coefficient.natAbs
  have hleading : d.leading + 1 = (d.digitCount : ℤ) + -d.scale := by
    rw [leading]
    omega
  rw [abs_value, hleading, zpow_add₀ (by norm_num), zpow_natCast]
  push_cast at hpow
  gcongr

/-- So the leading digit stands where the logarithm says. -/
theorem log_value (hd : d.coefficient ≠ 0) : Int.log 10 |d.value| = d.leading :=
  log_eq (zpow_leading_le hd) (lt_zpow_leading d)

/-! ## Keeping the leading digits -/

/-- The remainder of a division tells to which side the quotient is rounded. -/
theorem roundEven_natCast_div (n : ℕ) {m : ℕ} (hm : 0 < m) :
    roundEven ((n : ℚ) / m) = divHalfEven n m := by
  have hmq : (0 : ℚ) < m := by exact_mod_cast hm
  have hfloor : ⌊(n : ℚ) / m⌋ = (n / m : ℕ) := by norm_cast
  have hfract : Int.fract ((n : ℚ) / m) = (n % m : ℕ) / m := Int.fract_div_natCast_eq_div_natCast_mod
  have hbelow : ((n % m : ℕ) : ℚ) / m < 1 / 2 ↔ 2 * (n % m) < m := by
    rw [div_lt_div_iff₀ hmq (by norm_num), one_mul, mul_comm]
    exact_mod_cast Iff.rfl
  have habove : 1 / 2 < ((n % m : ℕ) : ℚ) / m ↔ m < 2 * (n % m) := by
    rw [div_lt_div_iff₀ (by norm_num) hmq, one_mul, mul_comm]
    exact_mod_cast Iff.rfl
  unfold roundEven divHalfEven
  simp only [hfloor, hfract, hbelow, habove]
  rcases lt_trichotomy (2 * (n % m)) m with hlt | heq | hgt
  · rw [if_pos hlt, Nat.compare_eq_lt.mpr hlt]
  · rw [if_neg heq.not_lt, if_neg heq.not_gt, Nat.compare_eq_eq.mpr heq]
    simp only [Int.even_coe_nat, Nat.even_iff]
    split <;> rfl
  · rw [if_neg hgt.not_gt, if_pos hgt, Nat.compare_eq_gt.mpr hgt]
    rfl

theorem divHalfEven_le (n m : ℕ) : divHalfEven n m ≤ n / m + 1 := by
  unfold divHalfEven
  dsimp only
  split
  · omega
  · omega
  · split <;> omega

/-- A quotient is rounded by its absolute value, and has its sign. -/
theorem roundEven_div (c : ℤ) {m : ℕ} (hm : 0 < m) :
    roundEven ((c : ℚ) / m) = c.sign * divHalfEven c.natAbs m := by
  have hround := roundEven_natCast_div c.natAbs hm
  rcases lt_trichotomy c 0 with hneg | rfl | hpos
  · have hc : (c : ℚ) = -c.natAbs := by
      rw [Nat.cast_natAbs, abs_of_neg hneg]
      simp
    rw [hc, neg_div, roundEven_neg, hround, Int.sign_eq_neg_one_of_neg hneg, neg_one_mul]
  · simpa using roundEven_intCast 0
  · have hc : (c : ℚ) = c.natAbs := by
      rw [Nat.cast_natAbs, abs_of_pos hpos]
    rw [hc, hround, Int.sign_eq_one_of_pos hpos, one_mul]

/-- **Keeping the leading digits rounds the value.** -/
theorem value_keepDigits (d : Decimal) : d.keepDigits.value = roundTo precision d.value := by
  by_cases hmany : precision < d.digitCount
  · obtain ⟨dropped, hcount⟩ := Nat.exists_eq_add_of_lt hmany
    have hne : d.coefficient ≠ 0 := by
      intro hzero
      rw [digitCount, hzero] at hmany
      exact absurd hmany (by decide)
    have hdropped : d.digitCount - precision = dropped + 1 := by omega
    have hposition : (dropped + 1 : ℕ) - d.scale + precision - 1 = d.leading := by
      rw [leading]
      omega
    rw [roundTo_eq_roundAt (e := (dropped + 1 : ℕ) - d.scale) (by decide)
        (by rw [hposition]; exact zpow_leading_le hne)
        (by rw [← sub_add_cancel (_ + (precision : ℤ)) 1, hposition]; exact (lt_zpow_leading d).le),
      roundAt]
    have hquotient : d.value / 10 ^ ((dropped + 1 : ℕ) - d.scale)
        = (d.coefficient : ℚ) / ((10 ^ (dropped + 1) : ℕ) : ℚ) := by
      rw [value, sub_eq_add_neg, zpow_add₀ (by norm_num), zpow_natCast,
        mul_div_mul_right _ _ (by positivity)]
      push_cast
      rfl
    rw [hquotient, roundEven_div _ (by positivity), keepDigits, if_pos hmany, hdropped, value,
      neg_sub]
    rfl
  · rw [keepDigits, if_neg hmany]
    refine (roundTo_eq_self (e := -d.scale) (by decide) (onGrid_value d) ?_).symm
    refine (lt_zpow_leading d).le.trans (zpow_le_zpow_right₀ (by norm_num) ?_)
    rw [leading]
    omega

/-- What is kept has 34 digits, or is the power of ten above. -/
theorem natAbs_keepDigits_le (d : Decimal) : d.keepDigits.coefficient.natAbs ≤ 10 ^ precision := by
  have hlt : d.coefficient.natAbs < 10 ^ d.digitCount := Text.lt_pow_digitCount _
  by_cases hmany : precision < d.digitCount
  · have hquotient : d.coefficient.natAbs / 10 ^ (d.digitCount - precision) < 10 ^ precision := by
      rw [Nat.div_lt_iff_lt_mul (by positivity), ← pow_add, Nat.add_sub_cancel' hmany.le]
      exact hlt
    have hkept := divHalfEven_le d.coefficient.natAbs (10 ^ (d.digitCount - precision))
    rw [keepDigits, if_pos hmany]
    calc (d.coefficient.sign * (divHalfEven d.coefficient.natAbs
            (Nat.pow 10 (d.digitCount - precision)) : ℤ)).natAbs
        ≤ 1 * divHalfEven d.coefficient.natAbs (10 ^ (d.digitCount - precision)) := by
          rw [Int.natAbs_mul, Int.natAbs_natCast]
          refine Nat.mul_le_mul_right _ ?_
          rw [Int.natAbs_sign]
          split <;> omega
      _ ≤ 10 ^ precision := by omega
  · rw [keepDigits, if_neg hmany]
    exact hlt.le.trans (Nat.pow_le_pow_right (by norm_num) (not_lt.mp hmany))

theorem keepDigits_of_zero (hd : d.coefficient = 0) : d.keepDigits = d := by
  rw [keepDigits, if_neg]
  rw [digitCount, hd]
  decide

/-! ## The range of exponents -/

/-- Whether the leading digit of a number stands outside of the range of exponents. -/
def IsOutOfRange (x : ℚ) : Prop :=
  x ≠ 0 ∧ (Int.log 10 |x| < minExponent ∨ maxExponent < Int.log 10 |x|)

/-- Being in range depends on the number alone, and not on the scale. -/
theorem not_inRange_iff : ¬d.InRange ↔ IsOutOfRange d.value := by
  rw [InRange, IsOutOfRange, ne_eq, value_eq_zero_iff, not_or, not_and_or, not_le, not_le]
  refine and_congr_right fun hne => ?_
  rw [log_value hne]

/-- **What an operation returns** if `x` is the number that it comes to: a decimal of this value, and
nothing if the number is out of range. -/
structure Returns (result : Option Decimal) (x : ℚ) : Prop where
  value : ∀ d, result = some d → d.value = x
  none_iff : result = none ↔ IsOutOfRange x

/-- **Rounding a decimal returns its value, rounded to the precision.** -/
theorem returns_round? (d : Decimal) : Returns d.round? (roundTo precision d.value) := by
  rw [← value_keepDigits, round?]
  by_cases hrange : d.keepDigits.InRange
  · rw [if_pos hrange]
    refine ⟨fun _ h => ?_, by simp [← not_inRange_iff, hrange]⟩
    cases h
    rfl
  · rw [if_neg hrange]
    exact ⟨fun _ h => (by cases h), by simp [← not_inRange_iff, hrange]⟩

end Decimal

end ConstNarrow
