/-
**Integers are folded exactly.**

An integer is a word of 64 bits, and the operators on integers are those of arithmetic as far as the
results fit. What a word stands for is said by whole numbers only: a sum, a difference or a product has
the exact value or none, a quotient is cut off toward zero, a place of a word in two's complement is a
digit of a floored quotient, and a shift is a product or a floored quotient by a power of two.
-/
import ConstNarrow.Operator.Fold
import ConstNarrow.Proofs.DecimalArithmetic

set_option autoImplicit false

namespace ConstNarrow

open Decimal (IsWord)

/-! ## Exact results -/

/-- An integer operation whose exact result is `x`: the result is that number if it fits into a word,
and else there is none. -/
def Word.Holds (result : Option Scalar) (x : ℤ) : Prop :=
  (IsWord x → ∃ w : Int64, result = some (.int w) ∧ w.toInt = x) ∧ (¬IsWord x → result = none)

/-- There is no quotient of two words: the divisor is zero, or the quotient is the one number above
all words. -/
def Word.HasNoQuotient (x y : ℤ) : Prop := y = 0 ∨ (x = -2 ^ 63 ∧ y = -1)

/-- Division toward zero: the quotient and the remainder make up the dividend, and the remainder is
smaller than the divisor and does not have the sign opposite to that of the dividend. -/
structure Word.IsTruncated (x y quotient remainder : ℤ) : Prop where
  sum : x = quotient * y + remainder
  abs_lt : |remainder| < |y|
  sign : 0 ≤ remainder * x

namespace Word

theorem holds_ofInt? (x : ℤ) : Holds ((ofInt? x).map .int) x := by
  have hword : (-Int.pow 2 63 ≤ x ∧ x < Int.pow 2 63) ↔ IsWord x := Iff.rfl
  constructor
  · intro h
    rw [ofInt?, if_pos (hword.mpr h)]
    exact ⟨Int64.ofInt x, rfl, Int64.toInt_ofInt_of_le h.1 h.2⟩
  · intro h
    rw [ofInt?, if_neg (hword.not.mpr h)]
    rfl

theorem isTruncated_tdiv (x : ℤ) {y : ℤ} (hy : y ≠ 0) : IsTruncated x y (x.tdiv y) (x.tmod y) :=
  ⟨(Int.tdiv_mul_add_tmod x y).symm, Decimal.abs_tmod_lt x hy, Decimal.tmod_mul_self_nonneg x y⟩

theorem isWord_tmod {x y : ℤ} (hx : IsWord x) : IsWord (x.tmod y) := by
  have hle : (x.tmod y).natAbs ≤ x.natAbs := by
    rw [Int.natAbs_tmod]
    exact Nat.mod_le _ _
  have hsign := Decimal.tmod_mul_self_nonneg x y
  obtain ⟨hlower, hupper⟩ := hx
  -- the remainder lies between zero and the dividend
  rcases lt_or_ge x 0 with hneg | hpos
  · have hrest : x.tmod y ≤ 0 := nonpos_of_mul_nonneg_left hsign hneg
    exact ⟨by omega, by omega⟩
  · have hrest : 0 ≤ x.tmod y := Int.tmod_nonneg y hpos
    exact ⟨by omega, by omega⟩

/-- **A quotient of words fits**, except for that of the lowest one by minus one. -/
theorem isWord_tdiv_iff {x y : ℤ} (hx : IsWord x) (hy : y ≠ 0) :
    IsWord (x.tdiv y) ↔ ¬HasNoQuotient x y := by
  obtain ⟨hlower, hupper⟩ := hx
  constructor
  · rintro ⟨-, hfits⟩ (hzero | ⟨rfl, rfl⟩)
    · exact hy hzero
    · exact absurd hfits (by decide)
  · intro hfine
    by_cases hone : y = -1
    · have hx : x ≠ -2 ^ 63 := fun h => hfine (Or.inr ⟨h, hone⟩)
      rw [hone, Int.tdiv_neg, Int.tdiv_one]
      exact ⟨by omega, by omega⟩
    · by_cases hpos : y = 1
      · rw [hpos, Int.tdiv_one]
        exact ⟨hlower, hupper⟩
      · -- any other divisor makes the magnitude smaller by half at least
        have hhalf : (x.tdiv y).natAbs ≤ x.natAbs / 2 := by
          rw [Int.natAbs_tdiv]
          exact Nat.div_le_div_left (by omega) (by norm_num)
        exact ⟨by omega, by omega⟩

/-- The quotient and the remainder of two words exist together. -/
theorem exists_quotient {a b : Int64} (h : ¬HasNoQuotient a.toInt b.toInt) :
    ∃ q r : Int64, arith .div a b = some q ∧ arith .mod a b = some r
      ∧ IsTruncated a.toInt b.toInt q.toInt r.toInt := by
  have ha : IsWord a.toInt := ⟨a.le_toInt, a.toInt_lt⟩
  have hne : b.toInt ≠ 0 := fun hzero => h (Or.inl hzero)
  have hb : b ≠ 0 := fun hzero => hne (by rw [hzero]; rfl)
  obtain ⟨q, hq, hqv⟩ := (holds_ofInt? _).1 ((isWord_tdiv_iff ha hne).mpr h)
  obtain ⟨r, hr, hrv⟩ := (holds_ofInt? _).1 (isWord_tmod (y := b.toInt) ha)
  obtain ⟨_, hq, ⟨⟩⟩ := Option.map_eq_some_iff.mp hq
  obtain ⟨_, hr, ⟨⟩⟩ := Option.map_eq_some_iff.mp hr
  refine ⟨q, r, ?_, ?_, hqv ▸ hrv ▸ isTruncated_tdiv a.toInt hne⟩
  · rw [arith, if_neg hb, hq]
  · rw [arith, if_neg hb, hq, Option.bind_some, hr]

theorem arith_eq_none {a b : Int64} (h : HasNoQuotient a.toInt b.toInt) :
    arith .div a b = none ∧ arith .mod a b = none := by
  by_cases hb : b = 0
  · exact ⟨if_pos hb, if_pos hb⟩
  · have hne : b.toInt ≠ 0 := fun hzero => hb (Int64.toInt_inj.mp hzero)
    have hfails : ofInt? (a.toInt.tdiv b.toInt) = none := by
      refine Option.map_eq_none_iff.mp ((holds_ofInt? _).2 ?_)
      rw [isWord_tdiv_iff ⟨a.le_toInt, a.toInt_lt⟩ hne]
      exact not_not.mpr h
    rw [arith, arith, if_neg hb, if_neg hb, hfails]
    exact ⟨rfl, rfl⟩

end Word

/-! ## Places -/

namespace Word

/-- The digit of a word at a place, in two's complement. -/
def bit (a : Int64) (place : ℕ) : Bool := a.toInt / 2 ^ place % 2 = 1

/-- A word and its row of bits differ by a multiple of 2^64. -/
theorem exists_toInt_eq (a : Int64) : ∃ c : ℤ, a.toInt = a.toBitVec.toNat - c * 2 ^ 64 := by
  rw [← Int64.toInt_toBitVec, BitVec.toInt_eq_toNat_cond]
  split
  · exact ⟨0, by simp⟩
  · exact ⟨1, by simp⟩

/-- The bits of a word are its digits. -/
theorem getLsbD_toBitVec (a : Int64) {i : ℕ} (hi : i < 64) : a.toBitVec.getLsbD i = bit a i := by
  obtain ⟨c, hc⟩ := exists_toInt_eq a
  -- what the two differ by is even at this place
  have hpow : c * 2 ^ 64 = 2 ^ i * (2 * (c * 2 ^ (63 - i))) := by
    have hsplit : (2 : ℤ) ^ 64 = 2 ^ i * 2 ^ (63 - i) * 2 := by
      rw [← pow_add, ← pow_succ]
      congr 1
      omega
    rw [hsplit]
    ring
  have hdiv : a.toInt / 2 ^ i = (a.toBitVec.toNat / 2 ^ i : ℕ) - 2 * (c * 2 ^ (63 - i)) := by
    rw [hc, hpow, Int.sub_mul_ediv_left _ _ (by positivity)]
    push_cast
    rfl
  rw [bit, hdiv, BitVec.getLsbD, Nat.testBit_eq_decide_div_mod_eq]
  exact decide_eq_decide.mpr (by omega)

section Places

variable (a b : Int64) {i : ℕ}

theorem bit_and (hi : i < 64) : bit (a &&& b) i = (bit a i && bit b i) := by
  simp only [← getLsbD_toBitVec _ hi, Int64.toBitVec_and, BitVec.getLsbD_and]

theorem bit_or (hi : i < 64) : bit (a ||| b) i = (bit a i || bit b i) := by
  simp only [← getLsbD_toBitVec _ hi, Int64.toBitVec_or, BitVec.getLsbD_or]

theorem bit_xor (hi : i < 64) : bit (a ^^^ b) i = (bit a i ^^ bit b i) := by
  simp only [← getLsbD_toBitVec _ hi, Int64.toBitVec_xor, BitVec.getLsbD_xor]

end Places

/-- To turn all digits round is to subtract from minus one. -/
theorem toInt_complement (a : Int64) : (~~~a).toInt = -a.toInt - 1 := by
  have hlower := a.le_toInt
  have hupper := a.toInt_lt
  rw [Int64.toInt_not, Int.bmod_eq_of_le]
  · norm_num
    omega
  · norm_num
    omega

/-! ## Shifts -/

/-- How far a word shifts another: its remainder by 64, which is not negative. -/
def shiftCount (b : Int64) : ℕ := (b.toInt % 64).toNat

/-- The count of a shift is what its lowest six digits say. -/
theorem toNat_and_63 (b : Int64) : (b &&& 63).toBitVec.toNat = shiftCount b := by
  obtain ⟨c, hc⟩ := exists_toInt_eq b
  have hmod : (b &&& 63).toBitVec.toNat = b.toBitVec.toNat % 64 := by
    rw [Int64.toBitVec_and, BitVec.toNat_and]
    exact Nat.and_two_pow_sub_one_eq_mod _ 6
  rw [hmod, shiftCount]
  omega

theorem shiftCount_lt (b : Int64) : shiftCount b < 64 := by
  rw [shiftCount]
  omega

/-- The count is taken modulo 64 once more, which does not change it. -/
theorem toNat_smod_and_63 (b : Int64) : ((b &&& 63).toBitVec.smod 64).toNat = shiftCount b := by
  have hcount := toNat_and_63 b
  have hlt := shiftCount_lt b
  have hmsb : (b &&& 63).toBitVec.msb = false := by
    rw [BitVec.msb_eq_false_iff_two_mul_lt]
    omega
  have hmod : (b &&& 63).toBitVec.smod 64 = (b &&& 63).toBitVec % 64 := by
    rw [BitVec.smod_eq, hmsb]
    rfl
  rw [hmod, BitVec.toNat_umod, hcount]
  exact Nat.mod_eq_of_lt hlt

variable (a b : Int64)

/-- A shift to the left multiplies, and leads back into the range of words. -/
theorem toInt_shiftLeft :
    (bits .shiftLeft a b).toInt = (a.toInt * 2 ^ shiftCount b).bmod (2 ^ 64) := by
  obtain ⟨c, hc⟩ := exists_toInt_eq a
  have hwrap : a.toInt * 2 ^ shiftCount b
      = a.toBitVec.toNat * 2 ^ shiftCount b - c * 2 ^ shiftCount b * (2 ^ 64 : ℕ) := by
    rw [hc]
    push_cast
    ring
  rw [hwrap, Int.sub_mul_bmod_self_right, bits, ← Int64.toInt_toBitVec, Int64.toBitVec_shiftLeft,
    BitVec.shiftLeft_eq', toNat_smod_and_63, BitVec.toInt_shiftLeft, Nat.shiftLeft_eq]
  push_cast
  rfl

/-- A shift to the right divides, and rounds down. -/
theorem toInt_shiftRight : (bits .shiftRight a b).toInt = a.toInt / 2 ^ shiftCount b := by
  rw [bits, ← Int64.toInt_toBitVec, Int64.toBitVec_shiftRight, BitVec.toInt_sshiftRight',
    toNat_smod_and_63, Int64.toInt_toBitVec, Int.shiftRight_eq_div_pow]
  push_cast
  rfl

/-- The shift that fills with zeros divides the word that is read without its sign. -/
theorem toInt_shiftRightZero :
    (bits .shiftRightZero a b).toInt = (a.toInt % 2 ^ 64 / 2 ^ shiftCount b).bmod (2 ^ 64) := by
  obtain ⟨c, hc⟩ := exists_toInt_eq a
  have hunsigned : a.toInt % 2 ^ 64 = a.toBitVec.toNat := by
    have hlt := a.toBitVec.isLt
    omega
  have hcount : ((b &&& 63).toUInt64.toBitVec % 64).toNat = shiftCount b := by
    rw [BitVec.toNat_umod, Int64.toBitVec_toUInt64, toNat_and_63]
    exact Nat.mod_eq_of_lt (shiftCount_lt b)
  rw [hunsigned, bits, ← Int64.toInt_toBitVec, UInt64.toBitVec_toInt64, UInt64.toBitVec_shiftRight,
    BitVec.toInt_eq_toNat_bmod, BitVec.ushiftRight_eq', BitVec.toNat_ushiftRight, hcount,
    Int64.toBitVec_toUInt64, Nat.shiftRight_eq_div_pow]
  push_cast
  rfl

end Word

/-! ## Folding -/

open Word

/-- What arithmetic on two integers gives, by the exact result. -/
def ArithOp.IsExact (x y : ℤ) (result : Option Scalar) : ArithOp → Prop
  | .add => Holds result (x + y)
  | .sub => Holds result (x - y)
  | .mul => Holds result (x * y)
  | .div => (HasNoQuotient x y → result = none)
      ∧ (¬HasNoQuotient x y → ∃ (q : Int64) (r : ℤ), result = some (.int q) ∧ IsTruncated x y q.toInt r)
  | .mod => (HasNoQuotient x y → result = none)
      ∧ (¬HasNoQuotient x y → ∃ (q : ℤ) (r : Int64), result = some (.int r) ∧ IsTruncated x y q r.toInt)

/-- What an operator on bits makes of two words. A shift to the left may lose leading digits, which
is a reduction modulo 2^64 into the range of words; the shift that fills with zeros reads the word
without its sign, and the result with it again. -/
def BitOp.IsExact (a b w : Int64) : BitOp → Prop
  | .and => ∀ i < 64, bit w i = (bit a i && bit b i)
  | .or => ∀ i < 64, bit w i = (bit a i || bit b i)
  | .xor => ∀ i < 64, bit w i = (bit a i ^^ bit b i)
  | .shiftLeft => w.toInt = (a.toInt * 2 ^ shiftCount b).bmod (2 ^ 64)
  | .shiftRight => w.toInt = a.toInt / 2 ^ shiftCount b
  | .shiftRightZero => w.toInt = (a.toInt % 2 ^ 64 / 2 ^ shiftCount b).bmod (2 ^ 64)

/-- Every arithmetic operator folds exactly. -/
theorem ArithOp.isExact_fold (op : ArithOp) (a b : Int64) :
    op.IsExact a.toInt b.toInt ((BinaryOp.arith op).fold? (.int a) (.int b) .int) := by
  cases op with
  | add => exact holds_ofInt? _
  | sub => exact holds_ofInt? _
  | mul => exact holds_ofInt? _
  | div =>
    refine ⟨fun h => ?_, fun h => ?_⟩
    · exact Option.map_eq_none_iff.mpr (arith_eq_none h).1
    · obtain ⟨q, r, hq, -, htruncated⟩ := exists_quotient h
      exact ⟨q, r.toInt, Option.map_eq_some_iff.mpr ⟨q, hq, rfl⟩, htruncated⟩
  | mod =>
    refine ⟨fun h => ?_, fun h => ?_⟩
    · exact Option.map_eq_none_iff.mpr (arith_eq_none h).2
    · obtain ⟨q, r, -, hr, htruncated⟩ := exists_quotient h
      exact ⟨q.toInt, r, Option.map_eq_some_iff.mpr ⟨r, hr, rfl⟩, htruncated⟩

theorem BitOp.isExact_bits (op : BitOp) (a b : Int64) : op.IsExact a b (Word.bits op a b) := by
  cases op with
  | and => exact fun _ hi => bit_and a b hi
  | or => exact fun _ hi => bit_or a b hi
  | xor => exact fun _ hi => bit_xor a b hi
  | shiftLeft => exact toInt_shiftLeft a b
  | shiftRight => exact toInt_shiftRight a b
  | shiftRightZero => exact toInt_shiftRightZero a b

/-- Only the lowest word has no opposite. -/
theorem Word.neg_eq_none_iff (a : Int64) :
    UnaryOp.minus.fold? (.int a) = none ↔ a.toInt = -2 ^ 63 := by
  have hlower := a.le_toInt
  have hupper := a.toInt_lt
  obtain ⟨hfits, hfails⟩ := holds_ofInt? (-a.toInt)
  constructor
  · intro hnone
    by_contra hne
    obtain ⟨w, hw, -⟩ := hfits ⟨by omega, by omega⟩
    cases hnone.symm.trans hw
  · intro hlowest
    refine hfails fun hword => ?_
    have := hword.2
    omega

/-- **Integers are folded exactly.** A sum, a difference and a product are the exact ones, or there is
none if these do not fit into a word of 64 bits. The quotient is cut off toward zero, and the remainder
goes with it; there is none by zero, and none of the lowest word by minus one. The operators on bits
work place by place, or multiply and divide by powers of two. Of the operators with one operand, only
the opposite of the lowest word does not exist. -/
theorem integers_fold_exactly (a b : Int64) :
    (∀ op : ArithOp, op.IsExact a.toInt b.toInt ((BinaryOp.arith op).fold? (.int a) (.int b) .int))
      ∧ (∀ op : BitOp, ∃ w, (BinaryOp.bit op).fold? (.int a) (.int b) .int = some (.int w)
        ∧ op.IsExact a b w)
      ∧ Holds (UnaryOp.minus.fold? (.int a)) (-a.toInt)
      ∧ (UnaryOp.minus.fold? (.int a) = none ↔ a.toInt = -2 ^ 63)
      ∧ ∃ w, UnaryOp.complement.fold? (.int a) = some (.int w) ∧ w.toInt = -a.toInt - 1 :=
  ⟨fun op => op.isExact_fold a b, fun op => ⟨Word.bits op a b, rfl, op.isExact_bits a b⟩,
    holds_ofInt? _, neg_eq_none_iff a, ~~~a, rfl, toInt_complement a⟩

end ConstNarrow
