/-
**Decimal arithmetic is correctly rounded.**

Each operation computes some number and rounds it with `round?`. `Rounds` says of an operation that
what it rounds stands for the exact result. For sums, differences, products and remainders it is the
exact result, at some scale. A quotient has been rounded before, after a hundred digits, and it has to
be shown that nothing is lost by that.

A remainder has no more digits than the operands have, so it is never rounded.
-/
import ConstNarrow.Proofs.DecimalRounding
import ConstNarrow.Decimal.Arithmetic

set_option autoImplicit false

namespace ConstNarrow.Decimal

/-! ## Exact steps -/

section Steps

variable {a b d : Decimal}

theorem isZero_iff : d.isZero = true ↔ d.coefficient = 0 := beq_iff_eq

theorem value_of_isZero (h : d.isZero = true) : d.value = 0 := value_eq_zero_iff.mpr (isZero_iff.mp h)

@[simp] theorem value_neg (d : Decimal) : d.neg.value = -d.value := by
  rw [neg, value, value, Int.cast_neg, neg_mul]

/-- A larger scale with zeros appended says the same. -/
@[simp] theorem value_extend (d : Decimal) (places : ℕ) : (d.extend places).value = d.value := by
  rw [extend, value, value, Int.pow_eq, Int.cast_mul, Int.cast_pow, Int.cast_ofNat, mul_assoc,
    ← zpow_natCast, ← zpow_add₀ (by norm_num)]
  congr 2
  ring

@[simp] theorem value_extendToward (d : Decimal) (scale : ℤ) :
    (d.extendToward scale).value = d.value :=
  value_extend d _

@[simp] theorem value_raiseTo (d : Decimal) (scale : ℤ) : (d.raiseTo scale).value = d.value := by
  unfold raiseTo
  dsimp only
  split
  · rename_i hzero
    rw [value_of_isZero hzero]
    exact value_of_isZero rfl
  · exact value_extend d _

theorem coefficientAt_mul {scale : ℤ} (h : d.scale ≤ scale) :
    (d.coefficientAt scale : ℚ) * 10 ^ (-scale) = d.value := by
  rw [coefficientAt, value, Int.pow_eq, Int.cast_mul, Int.cast_pow, Int.cast_ofNat, mul_assoc,
    ← zpow_natCast, ← zpow_add₀ (by norm_num)]
  congr 2
  omega

theorem value_aligned_add (a b : Decimal) : (aligned (· + ·) a b).value = a.value + b.value := by
  rw [← coefficientAt_mul (le_max_left a.scale b.scale), ← coefficientAt_mul (le_max_right a.scale b.scale),
    aligned, value, Int.cast_add, add_mul]

theorem value_aligned_sub (a b : Decimal) : (aligned (· - ·) a b).value = a.value - b.value := by
  rw [← coefficientAt_mul (le_max_left a.scale b.scale), ← coefficientAt_mul (le_max_right a.scale b.scale),
    aligned, value, Int.cast_sub, sub_mul]

theorem value_of_isOne (h : d.isOne = true) : d.value = 1 := by
  simp only [isOne, Bool.and_eq_true, decide_eq_true_eq, beq_iff_eq] at h
  obtain ⟨⟨hscale, -⟩, hcoefficient⟩ := h
  rw [value, hcoefficient, Int.pow_eq, Int.cast_pow, Int.cast_ofNat, ← zpow_natCast,
    Int.toNat_of_nonneg hscale, ← zpow_add₀ (by norm_num), add_neg_cancel, zpow_zero]

theorem value_stripZeros (d : Decimal) (n : ℕ) : (d.stripZeros n).value = d.value := by
  induction n generalizing d with
  | zero => rfl
  | succ n ih =>
    rw [stripZeros]
    split
    · rename_i hmod
      rw [ih, value, value]
      have hdiv : (d.coefficient : ℚ) = (d.coefficient / 10 : ℤ) * 10 := by
        exact_mod_cast (Int.ediv_mul_cancel (Int.dvd_of_emod_eq_zero hmod)).symm
      rw [hdiv, neg_sub, sub_eq_add_neg 1, zpow_add₀ (by norm_num), zpow_one, mul_assoc]
    · rfl

@[simp] theorem value_normalize (d : Decimal) : d.normalize.value = d.value := by
  unfold normalize
  split
  · rename_i hzero
    rw [value_of_isZero hzero]
    exact value_of_isZero rfl
  · exact value_stripZeros d _

end Steps

/-! ## Decimals that fit -/

/-- The numbers that a word of 64 bits holds. -/
def IsWord (i : ℤ) : Prop := -2 ^ 63 ≤ i ∧ i < 2 ^ 63

/-- **What every decimal is like**: it has at most 34 digits or is a power of ten with one more, its
leading digit stands within the range of exponents, and its scale fits into a word. -/
structure WellFormed (d : Decimal) : Prop where
  natAbs_le : d.coefficient.natAbs ≤ 10 ^ precision
  inRange : d.InRange
  isWord : IsWord d.scale

/-- Rounding leaves one digit more than the precision at most. -/
theorem digitCount_le_of_natAbs_le {d : Decimal} (h : d.coefficient.natAbs ≤ 10 ^ precision) :
    d.digitCount ≤ 35 :=
  (Text.digitCount_le_iff (by norm_num)).mpr (lt_of_le_of_lt h (by norm_num [precision]))

/-- A number other than zero has a moderate scale. -/
theorem scale_bounds {d : Decimal} (hle : d.coefficient.natAbs ≤ 10 ^ precision) (hrange : d.InRange)
    (hne : d.coefficient ≠ 0) : -6144 ≤ d.scale ∧ d.scale ≤ 6210 := by
  have hpos : 0 < d.digitCount := Text.digitCount_pos _
  have hcount := digitCount_le_of_natAbs_le hle
  obtain ⟨hmin, hmax⟩ := hrange.resolve_left hne
  rw [leading, minExponent] at hmin
  rw [leading, maxExponent] at hmax
  omega

/-- The exponent is the same in a word, unless it is too large for one. There it turns negative. -/
theorem leadingWord_eq_or {d : Decimal} (hcount : d.digitCount ≤ 35) (hword : IsWord d.scale) :
    d.leadingWord = d.leading ∨ (2 ^ 63 ≤ d.leading ∧ d.leadingWord < -2 ^ 62) := by
  have hpos : 0 < d.digitCount := Text.digitCount_pos _
  have hleading : d.leading = d.digitCount - 1 - d.scale := rfl
  have hsize : ((Nat.pow 2 64 : ℕ) : ℤ) = 2 ^ 64 := by norm_num
  rw [IsWord] at hword
  by_cases hlarge : d.leading < 2 ^ 63
  · refine Or.inl (Int.bmod_eq_of_le ?_ ?_)
    · rw [hsize]
      omega
    · rw [hsize]
      omega
  · refine Or.inr ⟨by omega, ?_⟩
    rw [leadingWord, Int.bmod_def, hsize]
    split <;> omega

/-- **The word decides the range as well**: what does not fit into it is out of range either way. -/
theorem inRange_iff_leadingWord {d : Decimal} (hcount : d.digitCount ≤ 35) (hword : IsWord d.scale) :
    d.InRange
      ↔ d.coefficient = 0 ∨ (minExponent ≤ d.leadingWord ∧ d.leadingWord ≤ maxExponent) := by
  rw [InRange]
  rcases leadingWord_eq_or hcount hword with heq | ⟨hlarge, hsmall⟩
  · rw [heq]
  · rw [minExponent, maxExponent]
    omega

theorem keepDigits_ne_zero {d : Decimal} (hne : d.coefficient ≠ 0) : d.keepDigits.coefficient ≠ 0 := by
  rw [ne_eq, ← value_eq_zero_iff, value_keepDigits, roundTo_eq_zero_iff (by decide), value_eq_zero_iff]
  exact hne

/-- What `round?` returns is well formed. Only a zero brings its scale along. -/
theorem wellFormed_of_round? {raw d : Decimal} (h : raw.round? = some d)
    (hzero : raw.coefficient = 0 → IsWord raw.scale) : WellFormed d := by
  unfold round? at h
  dsimp only at h
  split at h
  · rename_i hrange
    cases h
    refine ⟨natAbs_keepDigits_le raw, hrange, ?_⟩
    by_cases hne : raw.coefficient = 0
    · rw [keepDigits_of_zero hne]
      exact hzero hne
    · have := scale_bounds (natAbs_keepDigits_le raw) hrange (keepDigits_ne_zero hne)
      exact ⟨by omega, by omega⟩
  · cases h

/-- **An operation whose exact result is `x`**: it rounds a number that rounds like `x`. -/
def Rounds (result : Option Decimal) (x : ℚ) : Prop :=
  ∃ raw : Decimal, result = raw.round? ∧ roundTo precision raw.value = roundTo precision x
    ∧ (raw.coefficient = 0 → IsWord raw.scale)

namespace Rounds

variable {result : Option Decimal} {x : ℚ}

theorem returns (h : Rounds result x) : Returns result (roundTo precision x) := by
  obtain ⟨raw, rfl, hvalue, -⟩ := h
  exact hvalue ▸ returns_round? raw

theorem wellFormed (h : Rounds result x) {d : Decimal} (hd : result = some d) : WellFormed d := by
  obtain ⟨raw, rfl, -, hzero⟩ := h
  exact wellFormed_of_round? hd hzero

/-- The usual case: the number that is rounded is the exact result. -/
theorem of_value {raw : Decimal} (hvalue : raw.value = x) (hzero : raw.coefficient = 0 → IsWord raw.scale) :
    Rounds raw.round? x :=
  ⟨raw, rfl, by rw [hvalue], hzero⟩

end Rounds

/-! ## Sums, differences and products -/

section Sums

variable {a b d : Decimal}

theorem IsWord.max {i j : ℤ} (hi : IsWord i) (hj : IsWord j) : IsWord (max i j) := by
  rcases max_choice i j with h | h
  · rwa [h]
  · rwa [h]

/-- A scale that is raised toward another one stays within a word. -/
theorem IsWord.add_places {i j : ℤ} (hi : IsWord i) (hj : IsWord j) {places : ℕ}
    (hle : places ≤ (j - i).toNat) : IsWord (i + places) := by
  have hmax := (hi.max hj).2
  exact ⟨hi.1.trans (by omega), lt_of_le_of_lt (by omega) hmax⟩

theorem isWord_extendToward {scale : ℤ} (hd : IsWord d.scale) (hscale : IsWord scale) :
    IsWord (d.extendToward scale).scale :=
  hd.add_places hscale (min_le_left _ _)

theorem isWord_raiseTo {scale : ℤ} (hd : IsWord d.scale) (hscale : IsWord scale) :
    IsWord (d.raiseTo scale).scale := by
  unfold raiseTo
  dsimp only
  split
  · exact hd.add_places hscale le_rfl
  · exact hd.add_places hscale (min_le_left _ _)

theorem rounds_add (ha : WellFormed a) (hb : WellFormed b) :
    Rounds (a.add? b) (a.value + b.value) := by
  refine .of_value ?_ fun _ => ?_
  · split
    · rename_i hzero
      rw [value_extendToward, value_of_isZero hzero, add_zero]
    · split
      · rename_i hzero
        rw [value_extendToward, value_of_isZero hzero, zero_add]
      · exact value_aligned_add a b
  · split
    · exact isWord_extendToward ha.isWord hb.isWord
    · split
      · exact isWord_extendToward hb.isWord ha.isWord
      · exact ha.isWord.max hb.isWord

theorem rounds_sub (ha : WellFormed a) (hb : WellFormed b) :
    Rounds (a.sub? b) (a.value - b.value) := by
  refine .of_value ?_ fun _ => ?_
  · split
    · rename_i hzero
      rw [value_raiseTo, value_of_isZero hzero, sub_zero]
    · split
      · rename_i hzero
        rw [value_raiseTo, value_neg, value_of_isZero hzero, zero_sub]
      · exact value_aligned_sub a b
  · split
    · exact isWord_raiseTo ha.isWord hb.isWord
    · split
      · exact isWord_raiseTo (d := b.neg) hb.isWord ha.isWord
      · exact ha.isWord.max hb.isWord

theorem isWord_addScales (s t : ℤ) : IsWord (addScales s t) := by
  have hle := Int.le_bmod (x := s + t) (m := 2 ^ 64) (by norm_num)
  have hlt := Int.bmod_lt (x := s + t) (m := 2 ^ 64) (by norm_num)
  rw [addScales]
  constructor
  · exact le_trans (by norm_num) hle
  · exact lt_of_lt_of_le hlt (by norm_num)

/-- The sum of the scales does not wrap around, unless the product is zero. -/
theorem value_product (ha : WellFormed a) (hb : WellFormed b) :
    value ⟨a.coefficient * b.coefficient, addScales a.scale b.scale⟩ = a.value * b.value := by
  by_cases hzero : a.coefficient * b.coefficient = 0
  · have hvalue : a.value * b.value = 0 := by
      rw [mul_eq_zero, value_eq_zero_iff, value_eq_zero_iff]
      exact mul_eq_zero.mp hzero
    rw [hvalue, value_eq_zero_iff]
    exact hzero
  · obtain ⟨hane, hbne⟩ := mul_ne_zero_iff.mp hzero
    have hascale := scale_bounds ha.natAbs_le ha.inRange hane
    have hbscale := scale_bounds hb.natAbs_le hb.inRange hbne
    have hscale : addScales a.scale b.scale = a.scale + b.scale := by
      refine Int.bmod_eq_of_le ?_ ?_
      · norm_num
        omega
      · norm_num
        omega
    rw [hscale, value, value, value, Int.cast_mul, neg_add, zpow_add₀ (by norm_num)]
    ring

theorem isWord_normalize (h : d.normalize.coefficient = 0) : IsWord d.normalize.scale := by
  rw [← value_eq_zero_iff, value_normalize, value_eq_zero_iff, ← isZero_iff] at h
  rw [normalize, if_pos h]
  exact ⟨by norm_num [zero], by norm_num [zero]⟩

theorem rounds_mul (ha : WellFormed a) (hb : WellFormed b) :
    Rounds (a.mul? b) (a.value * b.value) := by
  refine .of_value ?_ ?_
  · split
    · rename_i hone
      rw [value_normalize, value_of_isOne hone, one_mul]
    · split
      · rename_i hone
        rw [value_normalize, value_of_isOne hone, mul_one]
      · exact value_product ha hb
  · split
    · exact isWord_normalize
    · split
      · exact isWord_normalize
      · exact fun _ => isWord_addScales _ _

end Sums

/-! ## Division -/

namespace Quotient

variable {n m : ℕ} {scale : ℤ} {q : Quotient}

/-- **A stage of the division of `n` by `m`**: the digits so far and the remainder make up the
dividend, with as many zeros appended as the scale says. -/
def IsStage (n m : ℕ) (scale : ℤ) (q : Quotient) : Prop :=
  ∃ places : ℕ, q.scale = scale + places ∧ m * q.digits + q.rest = n * 10 ^ places ∧ q.rest < m

/-- One more digit is one more stage. -/
theorem IsStage.step (h : q.IsStage n m scale) :
    IsStage n m scale ⟨q.digits * 10 + q.rest * 10 / m, q.rest * 10 % m, q.scale + 1⟩ := by
  obtain ⟨places, hscale, hsum, hlt⟩ := h
  refine ⟨places + 1, ?_, ?_, Nat.mod_lt _ (by omega)⟩
  · rw [hscale]
    push_cast
    ring
  · have hdiv := Nat.div_add_mod (q.rest * 10) m
    calc m * (q.digits * 10 + q.rest * 10 / m) + q.rest * 10 % m
        = m * q.digits * 10 + (m * (q.rest * 10 / m) + q.rest * 10 % m) := by ring
      _ = (m * q.digits + q.rest) * 10 := by rw [hdiv]; ring
      _ = n * 10 ^ (places + 1) := by rw [hsum, pow_succ, mul_assoc]

theorem IsStage.develop (h : q.IsStage n m scale) (k : ℕ) : (q.develop m k).IsStage n m scale := by
  induction k generalizing q with
  | zero => exact h
  | succ k ih =>
    rw [Quotient.develop]
    split
    · exact h
    · exact ih h.step

/-- The digits that are developed are there, unless the division comes out even before. -/
theorem rest_develop_eq_zero_or {j : ℕ} (h : 10 ^ j ≤ q.digits) (k : ℕ) :
    (q.develop m k).rest = 0 ∨ 10 ^ (j + k) ≤ (q.develop m k).digits := by
  induction k generalizing q j with
  | zero => exact Or.inr h
  | succ k ih =>
    rw [Quotient.develop]
    split
    · rename_i hrest
      exact Or.inl hrest
    · have hnext := ih (q := ⟨q.digits * 10 + q.rest * 10 / m, q.rest * 10 % m, q.scale + 1⟩)
        (j := j + 1) (by rw [pow_succ]; exact (Nat.mul_le_mul_right 10 h).trans (Nat.le_add_right _ _))
      rwa [Nat.add_right_comm, Nat.add_assoc] at hnext

end Quotient

variable {n m : ℕ}

theorem le_mul_headroom (hn : n ≠ 0) (m : ℕ) : m ≤ n * 10 ^ headroom n m := by
  have hlower := Text.pow_le_of_ne_zero hn
  have hupper := Text.lt_pow_digitCount m
  have hpos := Text.digitCount_pos n
  unfold headroom
  dsimp only
  split
  · calc m ≤ 10 ^ Text.digitCount m := hupper.le
      _ ≤ 10 ^ (Text.digitCount n - 1 + (Text.digitCount m - Text.digitCount n + 1)) :=
        Nat.pow_le_pow_right (by norm_num) (by omega)
      _ ≤ n * 10 ^ (Text.digitCount m - Text.digitCount n + 1) := by
        rw [pow_add]
        exact Nat.mul_le_mul_right _ hlower
  · rename_i hle
    exact not_lt.mp hle

/-- A quotient is developed until it comes out even or has a hundred digits. -/
theorem divDigits_eq (hn : n ≠ 0) (hm : m ≠ 0) (scale : ℤ) :
    ∃ last : Quotient, last.IsStage n m scale ∧ (last.rest = 0 ∨ 10 ^ 99 ≤ last.digits)
      ∧ divDigits n m scale
        = ⟨if m ≤ 2 * last.rest then last.digits + 1 else last.digits, last.scale⟩ := by
  set k := headroom n m with hk
  set first : Quotient := ⟨n * 10 ^ k / m, n * 10 ^ k % m, scale + k⟩ with hfirst
  have hstage : first.IsStage n m scale :=
    ⟨k, rfl, Nat.div_add_mod _ _, Nat.mod_lt _ (Nat.pos_of_ne_zero hm)⟩
  have hdigits : first.digits ≠ 0 :=
    (Nat.div_pos (le_mul_headroom hn m) (Nat.pos_of_ne_zero hm)).ne'
  refine ⟨_, hstage.develop (quotientDigits - Text.digitCount first.digits), ?_, ?_⟩
  · have hcount := Text.digitCount_pos first.digits
    refine (Quotient.rest_develop_eq_zero_or (Text.pow_le_of_ne_zero hdigits) _).imp_right fun h => ?_
    refine (Nat.pow_le_pow_right (by norm_num) ?_).trans h
    rw [quotientDigits]
    omega
  · rfl

/-- What is left of a division that does not come out even keeps the quotient off the multiples of a
large power of ten, whether its last digit is rounded up or not. -/
theorem not_dvd_of_rest {digits rest places c : ℕ} (hsum : m * digits + rest = n * 10 ^ places)
    (hrest : 0 < rest) (hlt : rest < m) (hm : m ≤ 10 ^ precision) (hplaces : 65 ≤ places)
    (hc : c = digits ∨ c = digits + 1) : ¬10 ^ 65 ∣ c := by
  intro hdvd
  have hsmall : 10 ^ precision < 10 ^ 65 := by decide
  have hdividend : 10 ^ 65 ∣ n * 10 ^ places := Dvd.dvd.mul_left (pow_dvd_pow 10 hplaces) n
  have hproduct : 10 ^ 65 ∣ m * c := hdvd.mul_left m
  rcases hc with rfl | rfl
  · have hdvdrest : 10 ^ 65 ∣ rest := (Nat.dvd_add_right hproduct).mp (hsum ▸ hdividend)
    have := Nat.le_of_dvd hrest hdvdrest
    omega
  · have hgap : n * 10 ^ places + (m - rest) = m * (digits + 1) := by
      rw [← hsum, mul_add_one]
      omega
    have hdvdgap : 10 ^ 65 ∣ m - rest := (Nat.dvd_add_right hdividend).mp (hgap ▸ hproduct)
    have := Nat.le_of_dvd (by omega) hdvdgap
    omega

/-- Numbers between two neighbouring whole numbers with more than 34 digits are rounded at the same
digit. -/
theorem roundTo_between {digits k : ℕ} {x : ℚ} (scale : ℤ) (hcount : Text.digitCount digits = k + 35)
    (hlower : digits ≤ x) (hupper : x ≤ digits + 1) :
    roundTo precision (x * 10 ^ (-scale))
      = roundEven (x / (2 * (5 * 10 ^ k : ℕ))) * 10 ^ (k + 1 - scale) := by
  have hpow : (10 : ℚ) ^ (k + 34) ≤ digits := by
    have := Text.pow_le_of_ne_zero (n := digits) (by rintro rfl; cases hcount)
    rw [hcount] at this
    exact_mod_cast this
  have hpow' : (digits : ℚ) + 1 ≤ 10 ^ (k + 35) := by
    have := Text.lt_pow_digitCount digits
    rw [hcount] at this
    exact_mod_cast this
  have hscale : (0 : ℚ) < 10 ^ (-scale) := by positivity
  have habs : |x * 10 ^ (-scale)| = x * 10 ^ (-scale) :=
    abs_of_nonneg (mul_nonneg (by linarith [(by positivity : (0 : ℚ) < 10 ^ (k + 34))]) hscale.le)
  have hzpow : ∀ j : ℕ, (10 : ℚ) ^ (j - scale) = 10 ^ j * 10 ^ (-scale) := fun j => by
    rw [sub_eq_add_neg, zpow_add₀ (by norm_num), zpow_natCast]
  have hposition : ((k : ℤ) + 1 - scale) + precision - 1 = (k + 34 : ℕ) - scale := by
    rw [precision]
    push_cast
    ring
  rw [roundTo_eq_roundAt (e := k + 1 - scale) (by decide), roundAt]
  · have hquotient : x * 10 ^ (-scale) / 10 ^ ((k : ℤ) + 1 - scale) = x / (2 * (5 * 10 ^ k : ℕ)) := by
      rw [← Int.natCast_succ, hzpow, mul_div_mul_right _ _ hscale.ne', pow_succ]
      push_cast
      ring
    rw [hquotient]
  · rw [hposition, hzpow, habs]
    gcongr
    exact hpow.trans hlower
  · rw [← sub_add_cancel (_ + (precision : ℤ)) 1, hposition, sub_add_eq_add_sub, ← Int.natCast_succ,
      hzpow, habs]
    gcongr
    exact hupper.trans hpow'

/-- A number with a hundred digits or more may be rounded to a whole number first, if this one is no
multiple of 10^65 and so not half way between two numbers of 34 digits. -/
theorem roundTo_near {digits c : ℕ} {x : ℚ} (scale : ℤ) (hlong : 10 ^ 99 ≤ digits)
    (hlower : digits ≤ x) (hupper : x ≤ digits + 1) (hc : c = digits ∨ c = digits + 1)
    (hnear : |x - c| ≤ 1 / 2) (hdvd : ¬10 ^ 65 ∣ c) :
    roundTo precision (c * 10 ^ (-scale)) = roundTo precision (x * 10 ^ (-scale)) := by
  obtain ⟨k, hcount⟩ : ∃ k, Text.digitCount digits = k + 65 + 35 := by
    have hmany : ¬Text.digitCount digits ≤ 99 := by
      rw [Text.digitCount_le_iff (by norm_num)]
      omega
    exact ⟨Text.digitCount digits - 100, by omega⟩
  have hclower : (digits : ℚ) ≤ c := by exact_mod_cast (by omega : digits ≤ c)
  have hcupper : (c : ℚ) ≤ digits + 1 := by exact_mod_cast (by omega : c ≤ digits + 1)
  rw [roundTo_between scale hcount hclower hcupper, roundTo_between scale hcount hlower hupper]
  have hhalf : ¬((5 * 10 ^ (k + 65) : ℕ) : ℤ) ∣ (c : ℤ) := by
    rw [Int.natCast_dvd_natCast]
    exact fun h => hdvd (((pow_dvd_pow 10 (Nat.le_add_left 65 k)).mul_left 5).trans h)
  rw [roundEven_div_of_near (x := x) (by positivity) (by rwa [Int.cast_natCast]) hhalf, Int.cast_natCast]

/-- A quotient with a hundred digits has many decimal places, since the dividend is short. -/
theorem places_of_long {digits rest places : ℕ} (hsum : m * digits + rest = n * 10 ^ places)
    (hm : m ≠ 0) (hn : n ≤ 10 ^ precision) (hlong : 10 ^ 99 ≤ digits) : 65 ≤ places := by
  by_contra hfew
  have hdividend : n * 10 ^ places ≤ 10 ^ precision * 10 ^ 64 :=
    Nat.mul_le_mul hn (Nat.pow_le_pow_right (by norm_num) (by omega))
  have hdigits : digits ≤ m * digits := Nat.le_mul_of_pos_left _ (Nat.pos_of_ne_zero hm)
  have hlarge : 10 ^ precision * 10 ^ 64 < 10 ^ 99 := by decide
  omega

/-- The exact quotient, by the digits so far and the remainder. -/
theorem quotient_eq {digits rest places : ℕ} (hsum : m * digits + rest = n * 10 ^ places) (hm : m ≠ 0)
    (scale : ℤ) :
    (n : ℚ) / m * 10 ^ (-scale) = (digits + rest / m) * 10 ^ (-(scale + places)) := by
  have hmq : (m : ℚ) ≠ 0 := Nat.cast_ne_zero.mpr hm
  have hsumq : (m : ℚ) * digits + rest = n * 10 ^ places := by exact_mod_cast hsum
  rw [neg_add, zpow_add₀ (by norm_num), zpow_neg _ (places : ℤ), zpow_natCast]
  field_simp
  linarith

/-- **A quotient is rounded correctly, although it is rounded twice.** After a hundred digits it is
never half way between two numbers of 34 digits unless it comes out even: the power of ten that a half
ends with would divide the remainder, or what the remainder lacks of the divisor, and both are smaller. -/
theorem roundTo_divDigits (hn : n ≠ 0) (hm : m ≠ 0) (hnle : n ≤ 10 ^ precision)
    (hmle : m ≤ 10 ^ precision) (scale : ℤ) :
    roundTo precision (divDigits n m scale).value
      = roundTo precision ((n : ℚ) / m * 10 ^ (-scale)) := by
  obtain ⟨⟨digits, rest, _⟩, ⟨places, rfl, hsum, hlt⟩, hend, heq⟩ := divDigits_eq hn hm scale
  dsimp only at hsum hlt hend heq
  have hmq : (0 : ℚ) < m := by exact_mod_cast Nat.pos_of_ne_zero hm
  rw [heq, quotient_eq hsum hm, value]
  dsimp only
  rcases Nat.eq_zero_or_pos rest with rfl | hrest
  · rw [if_neg (by omega)]
    simp
  have hlong := hend.resolve_left hrest.ne'
  have hplaces := places_of_long hsum hm hnle hlong
  have hfraction : (0 : ℚ) ≤ rest / m := by positivity
  have hfraction' : (rest : ℚ) / m ≤ 1 := (div_le_one hmq).mpr (by exact_mod_cast hlt.le)
  have hhalf : m ≤ 2 * rest ↔ 1 / 2 ≤ (rest : ℚ) / m := by
    rw [div_le_div_iff₀ (by norm_num) hmq, one_mul, mul_comm (rest : ℚ)]
    exact_mod_cast Iff.rfl
  -- the last digit is rounded up from one half on, so the result is at most one half off
  split
  · rename_i hup
    have hnear : |(digits : ℚ) + rest / m - (digits + 1 : ℕ)| ≤ 1 / 2 := by
      have := hhalf.mp hup
      rw [abs_le]
      push_cast
      constructor <;> linarith
    exact_mod_cast roundTo_near _ hlong (by linarith) (by linarith) (Or.inr rfl) hnear
      (not_dvd_of_rest hsum hrest hlt hmle hplaces (Or.inr rfl))
  · rename_i hdown
    have hnear : |(digits : ℚ) + rest / m - digits| ≤ 1 / 2 := by
      have := not_le.mp (hhalf.not.mp hdown)
      rw [add_sub_cancel_left, abs_of_nonneg hfraction]
      exact this.le
    exact_mod_cast roundTo_near _ hlong (by linarith) (by linarith) (Or.inl rfl) hnear
      (not_dvd_of_rest hsum hrest hlt hmle hplaces (Or.inl rfl))

section Quotients

variable {a b : Decimal}

theorem value_eq_sign_mul (d : Decimal) :
    d.value = d.coefficient.sign * (d.coefficient.natAbs * 10 ^ (-d.scale)) := by
  have hsign : (d.coefficient : ℚ) = d.coefficient.sign * d.coefficient.natAbs := by
    rw [← Int.cast_natCast, ← Int.cast_mul, Int.sign_mul_natAbs]
  rw [value, hsign, mul_assoc]

/-- The sign is put on last. -/
theorem roundTo_signed {c : ℤ} (hc : c ≠ 0) (digits : ℕ) (x : ℚ) :
    roundTo digits (c.sign * x) = c.sign * roundTo digits x := by
  rcases hc.lt_or_gt with hneg | hpos
  · simp [Int.sign_eq_neg_one_of_neg hneg, roundTo_neg]
  · simp [Int.sign_eq_one_of_pos hpos]

theorem roundTo_signed_divDigits (ha : WellFormed a) (hb : WellFormed b) (hane : a.coefficient ≠ 0)
    (hbne : b.coefficient ≠ 0) :
    let q := divDigits a.coefficient.natAbs b.coefficient.natAbs (a.scale - b.scale)
    roundTo precision (value ⟨a.coefficient.sign * b.coefficient.sign * q.coefficient, q.scale⟩)
      = roundTo precision (a.value / b.value) := by
  intro q
  have hround : roundTo precision q.value = _ := roundTo_divDigits (Int.natAbs_ne_zero.mpr hane)
    (Int.natAbs_ne_zero.mpr hbne) ha.natAbs_le hb.natAbs_le (a.scale - b.scale)
  have hraw : value ⟨a.coefficient.sign * b.coefficient.sign * q.coefficient, q.scale⟩
      = (a.coefficient * b.coefficient).sign * q.value := by
    rw [value, value, Int.sign_mul]
    push_cast
    ring
  have hexact : a.value / b.value = (a.coefficient * b.coefficient).sign
      * ((a.coefficient.natAbs : ℚ) / b.coefficient.natAbs * 10 ^ (-(a.scale - b.scale))) := by
    have hsign : (a.coefficient.sign : ℚ) / b.coefficient.sign
        = (a.coefficient * b.coefficient).sign := by
      rcases hbne.lt_or_gt with hneg | hpos
      · simp [Int.sign_mul, Int.sign_eq_neg_one_of_neg hneg, div_neg]
      · simp [Int.sign_mul, Int.sign_eq_one_of_pos hpos]
    have hscale : (10 : ℚ) ^ (-a.scale) / 10 ^ (-b.scale) = 10 ^ (-(a.scale - b.scale)) := by
      rw [← zpow_sub₀ (by norm_num)]
      congr 1
      ring
    rw [value_eq_sign_mul a, value_eq_sign_mul b, mul_div_mul_comm, mul_div_mul_comm, hsign, hscale]
  rw [hraw, hexact, roundTo_signed (mul_ne_zero hane hbne), roundTo_signed (mul_ne_zero hane hbne),
    hround]

theorem rounds_div (ha : WellFormed a) (hb : WellFormed b) (hne : b.coefficient ≠ 0) :
    Rounds (a.div? b) (a.value / b.value) := by
  rw [div?, if_neg (isZero_iff.not.mpr hne)]
  dsimp only
  split
  · rename_i hkept
    refine .of_value ?_ fun _ => ha.isWord
    rcases Bool.or_eq_true_iff.mp hkept with hzero | hone
    · rw [value_of_isZero hzero, zero_div]
    · rw [value_of_isOne hone, div_one]
  · rename_i hkept
    have hane : a.coefficient ≠ 0 := fun h => hkept (Bool.or_eq_true_iff.mpr (Or.inl (isZero_iff.mpr h)))
    split
    · rename_i heq
      refine .of_value ?_ fun h => (by cases h)
      rw [value, value, value, heq, mul_div_mul_left _ _ (Int.cast_ne_zero.mpr hne),
        ← zpow_sub₀ (by norm_num), Int.cast_one, one_mul]
      congr 1
      ring
    · have hround := roundTo_signed_divDigits ha hb hane hne
      refine ⟨_, rfl, hround, fun hzero => ?_⟩
      -- a quotient is zero only if the dividend is
      have hprecision : 0 < precision := by decide
      rw [← value_eq_zero_iff, ← roundTo_eq_zero_iff hprecision, hround, roundTo_eq_zero_iff hprecision,
        div_eq_zero_iff, value_eq_zero_iff, value_eq_zero_iff] at hzero
      exact absurd hzero (not_or.mpr ⟨hane, hne⟩)

/-- What is left of `x` when whole multiples of `y` are taken away, toward zero. -/
structure IsRemainder (x y r : ℚ) : Prop where
  quotient : ∃ q : ℤ, x = q * y + r
  abs_lt : |r| < |y|
  sign : 0 ≤ r * x

theorem abs_tmod_lt (x : ℤ) {y : ℤ} (hy : y ≠ 0) : |x.tmod y| < |y| := by
  rw [Int.abs_eq_natAbs, Int.abs_eq_natAbs, Int.natAbs_tmod]
  exact_mod_cast Nat.mod_lt _ (Int.natAbs_pos.mpr hy)

/-- A remainder that goes with a quotient toward zero does not change sides. -/
theorem tmod_mul_self_nonneg (x y : ℤ) : 0 ≤ x.tmod y * x := by
  rcases le_total 0 x with hnonneg | hnonpos
  · exact mul_nonneg (Int.tmod_nonneg y hnonneg) hnonneg
  · have hneg := Int.tmod_nonneg y (neg_nonneg.mpr hnonpos)
    rw [Int.neg_tmod] at hneg
    exact mul_nonneg_of_nonpos_of_nonpos (neg_nonneg.mp hneg) hnonpos

/-- At one scale the remainder is that of the coefficients. -/
theorem isRemainder_aligned (hne : b.coefficient ≠ 0) :
    IsRemainder a.value b.value (aligned Int.tmod a b).value := by
  set scale := max a.scale b.scale with hscale
  set x := a.coefficientAt scale with hx
  set y := b.coefficientAt scale with hy
  have hpos : (0 : ℚ) < 10 ^ (-scale) := by positivity
  have ha : a.value = x * 10 ^ (-scale) := (coefficientAt_mul (le_max_left _ _)).symm
  have hb : b.value = y * 10 ^ (-scale) := (coefficientAt_mul (le_max_right _ _)).symm
  have hr : (aligned Int.tmod a b).value = (x.tmod y : ℤ) * 10 ^ (-scale) := rfl
  have hyne : y ≠ 0 := by
    intro hzero
    rw [hzero, Int.cast_zero, zero_mul, value_eq_zero_iff] at hb
    exact hne hb
  rw [ha, hb, hr]
  refine ⟨⟨x.tdiv y, ?_⟩, ?_, ?_⟩
  · rw [← mul_assoc, ← add_mul, mul_left_inj' hpos.ne']
    exact_mod_cast (Int.tdiv_mul_add_tmod x y).symm
  · rw [abs_mul, abs_mul]
    refine mul_lt_mul_of_pos_right ?_ (abs_pos.mpr hpos.ne')
    exact_mod_cast abs_tmod_lt x hyne
  · rw [mul_mul_mul_comm]
    exact mul_nonneg (by exact_mod_cast tmod_mul_self_nonneg x y) (by positivity)

/-- The remainder has no more digits than one of the operands. -/
theorem natAbs_aligned_tmod_le (ha : WellFormed a) (hb : WellFormed b) (hne : b.coefficient ≠ 0) :
    (aligned Int.tmod a b).coefficient.natAbs ≤ 10 ^ precision := by
  have hown : ∀ d : Decimal, d.coefficientAt d.scale = d.coefficient := fun d => by
    simp [coefficientAt]
  show ((a.coefficientAt (max a.scale b.scale)).tmod (b.coefficientAt (max a.scale b.scale))).natAbs ≤ _
  rw [Int.natAbs_tmod]
  rcases max_choice a.scale b.scale with h | h
  · rw [h, hown]
    exact (Nat.mod_le _ _).trans ha.natAbs_le
  · rw [h, hown]
    exact (Nat.mod_lt _ (Int.natAbs_pos.mpr hne)).le.trans hb.natAbs_le

theorem roundTo_value {d : Decimal} (h : d.coefficient.natAbs ≤ 10 ^ precision) :
    roundTo precision d.value = d.value := by
  refine roundTo_eq_self (by decide) (onGrid_value d) ?_
  have hcast : (d.coefficient.natAbs : ℚ) ≤ 10 ^ precision := by exact_mod_cast h
  rw [abs_value, zpow_add₀ (by norm_num), zpow_natCast, mul_comm]
  gcongr

theorem rounds_rem (ha : WellFormed a) (hb : WellFormed b) (hne : b.coefficient ≠ 0) :
    ∃ r, IsRemainder a.value b.value r ∧ roundTo precision r = r ∧ Rounds (a.rem? b) r := by
  rw [rem?, if_neg (isZero_iff.not.mpr hne)]
  split
  · rename_i hzero
    refine ⟨0, ?_, (roundTo_eq_zero_iff (by decide)).mpr rfl, .of_value ?_ fun _ => ?_⟩
    · rw [value_of_isZero hzero]
      refine ⟨⟨0, by simp⟩, ?_, by simp⟩
      rw [abs_zero, abs_pos]
      exact value_eq_zero_iff.not.mpr hne
    · rw [value_raiseTo, value_of_isZero hzero]
    · exact isWord_raiseTo ha.isWord hb.isWord
  · exact ⟨_, isRemainder_aligned hne, roundTo_value (natAbs_aligned_tmod_le ha hb hne),
      .of_value rfl fun _ => ha.isWord.max hb.isWord⟩

end Quotients

end ConstNarrow.Decimal
