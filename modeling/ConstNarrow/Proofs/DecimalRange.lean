/-
**Which decimals there are.**

A decimal comes from a constructor, from a text or from an operation on others. All of them are well
formed, since all but negation end with `round?`.

Well formed means that the digits and the exponent of the leading digit are each within their bounds.
A format of 34 digits with a least exponent asks for more: near the lower end of the range there are
fewer digits to be had, the fewer the smaller the number. `round?` does not see this, so below 10^-6143
a decimal may have digits that the format has no room for.
-/
import ConstNarrow.Proofs.Concrete
import ConstNarrow.Proofs.DecimalArithmetic
import ConstNarrow.Decimal.Text

set_option autoImplicit false

namespace ConstNarrow

namespace Decimal

/-! ## Making decimals -/

/-- **The decimals that can be made**, by the constructors, by reading and by the operations. -/
inductive Built : Decimal → Prop where
  | zero : Built zero
  | ofParts {coefficient scale : Int64} {d : Decimal} (h : ofParts? coefficient scale = some d) : Built d
  | ofInt64 (i : Int64) : Built (ofInt64 i)
  | read {text : String} {d : Decimal} (h : read text = .ok d) : Built d
  | neg {d : Decimal} (hd : Built d) : Built d.neg
  | add {a b d : Decimal} (ha : Built a) (hb : Built b) (h : a.add? b = some d) : Built d
  | sub {a b d : Decimal} (ha : Built a) (hb : Built b) (h : a.sub? b = some d) : Built d
  | mul {a b d : Decimal} (ha : Built a) (hb : Built b) (h : a.mul? b = some d) : Built d
  | div {a b d : Decimal} (ha : Built a) (hb : Built b) (h : a.div? b = some d) : Built d
  | rem {a b d : Decimal} (ha : Built a) (hb : Built b) (h : a.rem? b = some d) : Built d

theorem isWord_toInt (i : Int64) : IsWord i.toInt := ⟨i.le_toInt, i.toInt_lt⟩

theorem wellFormed_zero : WellFormed zero := ⟨by decide, by decide, by norm_num [IsWord, zero]⟩

/-- Every integer is a well-formed decimal. -/
theorem wellFormed_ofInt64 (i : Int64) : WellFormed (ofInt64 i) := by
  obtain ⟨hlower, hupper⟩ := isWord_toInt i
  have hsmall : i.toInt.natAbs < 10 ^ 19 := by omega
  have hcount : Text.digitCount i.toInt.natAbs ≤ 19 := (Text.digitCount_le_iff (by norm_num)).mpr hsmall
  have hpos := Text.digitCount_pos i.toInt.natAbs
  refine ⟨hsmall.le.trans (by decide), Or.inr ?_, by norm_num [IsWord, ofInt64]⟩
  show minExponent ≤ (Text.digitCount i.toInt.natAbs : ℤ) - 1 - 0
    ∧ (Text.digitCount i.toInt.natAbs : ℤ) - 1 - 0 ≤ maxExponent
  rw [minExponent, maxExponent]
  omega

/-- The opposite of a well-formed decimal is one. -/
theorem WellFormed.neg {d : Decimal} (h : WellFormed d) : WellFormed d.neg := by
  have hcount : d.neg.digitCount = d.digitCount := by
    rw [digitCount, digitCount, Decimal.neg, Int.natAbs_neg]
  refine ⟨by simpa [Decimal.neg] using h.natAbs_le, ?_, h.isWord⟩
  have hleading : d.neg.leading = d.leading := by
    rw [leading, leading, hcount]
    rfl
  rw [InRange, hleading]
  exact h.inRange.imp_left fun hzero => by rw [Decimal.neg, hzero, neg_zero]

/-- The scale of what is written fits into a word. -/
theorem isWord_of_parts? {cs : List Char} {d : Decimal} (h : parts? cs = some d) : IsWord d.scale := by
  unfold parts? at h
  generalize (Text.splitFirst? Text.isExponentMark cs).getD (cs, ['0']) = halves at h
  obtain ⟨mantissa, exponent⟩ := halves
  obtain ⟨e, -, h⟩ := Option.bind_eq_some_iff.mp h
  generalize withoutPoint mantissa = pointless at h
  obtain ⟨row, places⟩ := pointless
  dsimp only at h
  split at h
  · rename_i hword
    obtain ⟨n, -, rfl⟩ := Option.map_eq_some_iff.mp h
    exact hword
  · cases h

/-- **What is read is well formed.** -/
theorem wellFormed_of_read {text : String} {d : Decimal} (h : Decimal.read text = .ok d) :
    WellFormed d := by
  unfold Decimal.read at h
  split at h
  · cases h
  · rename_i raw hparts
    split at h
    · cases h
    · rename_i hround
      cases h
      exact wellFormed_of_round? hround fun _ => isWord_of_parts? hparts

/-- **Every decimal that can be made is well formed.** -/
theorem Built.wellFormed {d : Decimal} (h : Built d) : WellFormed d := by
  induction h with
  | zero => exact wellFormed_zero
  | ofParts h => exact wellFormed_of_round? h fun _ => isWord_toInt _
  | ofInt64 i => exact wellFormed_ofInt64 i
  | read h => exact wellFormed_of_read h
  | neg _ ih => exact ih.neg
  | add _ _ h iha ihb => exact (rounds_add iha ihb).wellFormed h
  | sub _ _ h iha ihb => exact (rounds_sub iha ihb).wellFormed h
  | mul _ _ h iha ihb => exact (rounds_mul iha ihb).wellFormed h
  | @div a b d _ _ h iha ihb =>
    have hne : b.coefficient ≠ 0 := by
      intro hzero
      rw [div?, if_pos (isZero_iff.mpr hzero)] at h
      cases h
    exact (rounds_div iha ihb hne).wellFormed h
  | @rem a b d _ _ h iha ihb =>
    have hne : b.coefficient ≠ 0 := by
      intro hzero
      rw [rem?, if_pos (isZero_iff.mpr hzero)] at h
      cases h
    obtain ⟨r, -, -, hrounds⟩ := rounds_rem iha ihb hne
    exact hrounds.wellFormed h

/-! ## The numbers of the format -/

/-- The numbers of the decimal format of 128 bits: 34 digits, and an exponent of the last of them that
is bounded on both sides. -/
def Representable (x : ℚ) : Prop :=
  ∃ m q : ℤ, |m| < 10 ^ 34 ∧ -6176 ≤ q ∧ q ≤ 6111 ∧ x = m * 10 ^ q

/-- A multiple of a power of ten that is small enough has 34 digits. -/
theorem abs_lt_of_eq_mul {m q : ℤ} {x : ℚ} (hx : x = m * 10 ^ q) (hlt : |x| < 10 ^ (q + 34)) :
    |m| < 10 ^ 34 := by
  have hpos : (0 : ℚ) < 10 ^ q := by positivity
  rw [hx, abs_mul, abs_of_pos hpos, zpow_add₀ (by norm_num), mul_comm, mul_lt_mul_iff_right₀ hpos] at hlt
  exact_mod_cast hlt

/-- A number whose leading digit stands at `e` is a whole multiple of 10^(e - 33). -/
theorem WellFormed.onGrid {d : Decimal} (h : WellFormed d) : OnGrid (d.leading - 33) d.value := by
  by_cases hfew : d.digitCount ≤ 34
  · refine (onGrid_value d).mono ?_
    rw [leading]
    omega
  · -- only a power of ten has more digits
    have hlarge : 10 ^ 34 ≤ d.coefficient.natAbs :=
      not_lt.mp ((Text.digitCount_le_iff (by norm_num)).not.mp hfew)
    have hexact : d.coefficient.natAbs = 10 ^ 34 := le_antisymm h.natAbs_le hlarge
    have habs : |d.value| = 10 ^ (34 - d.scale) := by
      rw [abs_value, hexact, sub_eq_add_neg, zpow_add₀ (by norm_num)]
      norm_num
    refine (onGrid_of_abs_eq habs).mono ?_
    have hcount := digitCount_le_of_natAbs_le h.natAbs_le
    rw [leading]
    omega

theorem representable_zero : Representable 0 :=
  ⟨0, 0, by norm_num, by norm_num, by norm_num, by simp⟩

/-- The multiples that the format has room for are all it has. -/
theorem WellFormed.representable_iff {d : Decimal} (h : WellFormed d) :
    Representable d.value ↔ OnGrid (-6176) d.value := by
  constructor
  · rintro ⟨m, q, -, hq, -, hvalue⟩
    exact OnGrid.mono ⟨m, hvalue⟩ hq
  · intro hgrid
    rcases eq_or_ne d.coefficient 0 with hzero | hne
    · rw [value_eq_zero_iff.mpr hzero]
      exact representable_zero
    have hmax := (h.inRange.resolve_left hne).2
    rw [maxExponent] at hmax
    -- the coarser of the two grids that the number is on
    by_cases hnormal : -6176 ≤ d.leading - 33
    · obtain ⟨m, hm⟩ := h.onGrid
      refine ⟨m, d.leading - 33, abs_lt_of_eq_mul hm ?_, hnormal, by omega, hm⟩
      rw [show d.leading - 33 + 34 = d.leading + 1 by ring]
      exact lt_zpow_leading d
    · obtain ⟨m, hm⟩ := hgrid
      refine ⟨m, -6176, abs_lt_of_eq_mul hm ?_, le_rfl, by norm_num, hm⟩
      exact (lt_zpow_leading d).trans_le (zpow_le_zpow_right₀ (by norm_num) (by omega))

/-- **How far the decimals reach.** Each is a whole number of 34 digits times a power of ten, and zero
or not below 10^-6176 in magnitude. It is a number of the format exactly if it is a whole multiple of
10^-6176, which it is from 10^-6143 on. -/
theorem decimals_in_range {d : Decimal} (hd : Built d) :
    (∃ m q : ℤ, |m| < 10 ^ 34 ∧ -6209 ≤ q ∧ q ≤ 6111 ∧ d.value = m * 10 ^ q)
      ∧ (d.value = 0 ∨ 10 ^ (-6176 : ℤ) ≤ |d.value|)
      ∧ (Representable d.value ↔ OnGrid (-6176) d.value)
      ∧ (10 ^ (-6143 : ℤ) ≤ |d.value| → Representable d.value) := by
  have h := hd.wellFormed
  rcases eq_or_ne d.coefficient 0 with hzero | hne
  · have hvalue : d.value = 0 := value_eq_zero_iff.mpr hzero
    obtain ⟨m, q, hm, hlower, hupper, heq⟩ := hvalue ▸ representable_zero
    exact ⟨⟨m, q, hm, by omega, hupper, heq⟩, Or.inl hvalue, h.representable_iff,
      fun _ => hvalue ▸ representable_zero⟩
  obtain ⟨hmin, hmax⟩ := h.inRange.resolve_left hne
  rw [minExponent] at hmin
  rw [maxExponent] at hmax
  obtain ⟨m, hm⟩ := h.onGrid
  refine ⟨⟨m, d.leading - 33, abs_lt_of_eq_mul hm ?_, by omega, by omega, hm⟩, Or.inr ?_,
    h.representable_iff, fun hlarge => h.representable_iff.mpr (h.onGrid.mono ?_)⟩
  · rw [show d.leading - 33 + 34 = d.leading + 1 by ring]
    exact lt_zpow_leading d
  · exact (zpow_le_zpow_right₀ (by norm_num) hmin).trans (zpow_leading_le hne)
  · have hlt := (zpow_lt_zpow_iff_right₀ (by norm_num : (1 : ℚ) < 10)).mp
      (hlarge.trans_lt (lt_zpow_leading d))
    omega

/-- One and a half times the least power of ten that is in range. -/
def tiny : Decimal := ⟨15, 6177⟩

theorem ofParts?_tiny : ofParts? 15 6177 = some tiny := rfl

theorem tiny_in_range :
    Built tiny ∧ 10 ^ (-6176 : ℤ) ≤ |tiny.value| ∧ ∃ m q : ℤ, |m| < 10 ^ 34 ∧ -6209 ≤ q ∧ q ≤ 6111
      ∧ tiny.value = m * 10 ^ q := by
  have hbuilt : Built tiny := .ofParts ofParts?_tiny
  obtain ⟨hdigits, hrange, -⟩ := decimals_in_range hbuilt
  exact ⟨hbuilt, hrange.resolve_left (value_eq_zero_iff.not.mpr (by decide)), hdigits⟩

/-- **A decimal that the format does not have**: its last digit stands below 10^-6176. -/
theorem tiny_not_representable : ∃ d, ofParts? 15 6177 = some d ∧ ¬Representable d.value := by
  refine ⟨tiny, ofParts?_tiny, fun h => ?_⟩
  have hwell : WellFormed tiny := (Built.ofParts ofParts?_tiny).wellFormed
  obtain ⟨m, hm⟩ := hwell.representable_iff.mp h
  have hdigits : ((15 : ℤ) : ℚ) * 10 ^ (-6177 : ℤ) = m * (10 ^ (-6177 : ℤ) * 10) := by
    rw [← zpow_add_one₀ (by norm_num)]
    exact hm
  rw [mul_left_comm, mul_comm, mul_right_inj' (by positivity)] at hdigits
  have : (15 : ℤ) = m * 10 := by exact_mod_cast hdigits
  omega

/-! ## Values -/

instance (i : ℤ) : Decidable (IsWord i) := inferInstanceAs (Decidable (_ ∧ _))

instance (d : Decimal) : Decidable (WellFormed d) :=
  decidable_of_iff (d.coefficient.natAbs ≤ 10 ^ precision ∧ d.InRange ∧ IsWord d.scale)
    ⟨fun h => ⟨h.1, h.2.1, h.2.2⟩, fun h => ⟨h.natAbs_le, h.inRange, h.isWord⟩⟩

end Decimal

/-- Whether a decimal in this place is well formed. -/
def Scalar.isMade : Scalar → Bool
  | .decimal d => decide d.WellFormed
  | _ => true

/-- Whether a singleton can be made: it stands under a primitive that its value belongs to, and a
decimal is well formed, as all are that can be made. -/
def Singleton.isMade (s : Singleton) : Bool := s.isProper && s.value.isMade

/-- The two conditions on a value that evaluation makes. -/
theorem Singleton.isMade_iff {s : Singleton} :
    s.isMade = true ↔ s.isProper = true ∧ s.value.isMade = true :=
  Bool.and_eq_true_iff

end ConstNarrow
