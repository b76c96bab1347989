/-
**Integer literals are read exactly or rejected.**

A row of digits stands for a number by the places of its digits, said without the reader. The reader goes
through the digits from the left and carries what it has read; what it carries counts as one more digit
in front of those that are left, so that the row is read as the number it stands for. The number is kept
if it is an integer of 64 bits.

What is expected of the literal decides about the kinds of number that it may be, and about nothing
else: the readings are the same number in each of these kinds, one for each, in the order of the kinds.
-/
import Mathlib.Data.List.Forall2
import Mathlib.Data.Nat.Digits.Defs
import ConstNarrow.Proofs.DecimalRounding
import ConstNarrow.Proofs.Discipline
import ConstNarrow.Proofs.Readings

set_option autoImplicit false

namespace ConstNarrow

/-! ## Rows of digits -/

namespace Text

/-- That a character is the digit of a value; letters of both cases stand for ten and above. -/
def DigitOf (base : ℕ) (c : Char) (d : ℕ) : Prop := d < base ∧ c.toLower = Nat.digitChar d

instance (base : ℕ) (c : Char) (d : ℕ) : Decidable (DigitOf base c d) :=
  inferInstanceAs (Decidable (d < base ∧ c.toLower = Nat.digitChar d))

/-- **That a row of digits stands for a number.** The digit of the highest place comes first. -/
def Denotes (base : ℕ) (cs : List Char) (n : ℕ) : Prop :=
  ∃ ds : List ℕ, ds ≠ [] ∧ List.Forall₂ (DigitOf base) cs ds ∧ n = Nat.ofDigits base ds.reverse

section Digits

variable {base d n : ℕ} {c : Char} {cs : List Char}

theorem toNat_digitChar (hd : d < 16) :
    (Nat.digitChar d).toNat = if d < 10 then 48 + d else 87 + d := by
  have hall : ∀ d < 16, (Nat.digitChar d).toNat = if d < 10 then 48 + d else 87 + d := by decide
  exact hall d hd

theorem toNat_toLower (c : Char) :
    c.toLower.toNat = if 65 ≤ c.toNat ∧ c.toNat ≤ 90 then c.toNat + 32 else c.toNat := by
  unfold Char.toLower
  by_cases h : c.val ≥ 'A'.val ∧ c.val ≤ 'Z'.val
  · have hrange : 65 ≤ c.toNat ∧ c.toNat ≤ 90 := h
    rw [dif_pos h, if_pos hrange]
    show (c.val + 32).toNat = c.toNat + 32
    rw [UInt32.toNat_add]
    have hval : c.val.toNat = c.toNat := rfl
    have hshift : (32 : UInt32).toNat = 32 := rfl
    omega
  · have hrange : ¬(65 ≤ c.toNat ∧ c.toNat ≤ 90) := h
    rw [dif_neg h, if_neg hrange]

/-- Where the characters of digits are. -/
theorem DigitOf.toNat_eq (h : DigitOf base c d) (hbase : base ≤ 16) :
    d < 10 ∧ c.toNat = 48 + d ∨ 10 ≤ d ∧ (c.toNat = 87 + d ∨ c.toNat = 55 + d) := by
  obtain ⟨hd, hc⟩ := h
  have hnat := congrArg Char.toNat hc
  rw [toNat_toLower, toNat_digitChar (by omega)] at hnat
  split_ifs at hnat <;> omega

/-- The ranges of digits, as numbers. -/
theorem digitValue?_eq (base : ℕ) (c : Char) : digitValue? base c =
    let value :=
      if 48 ≤ c.toNat ∧ c.toNat ≤ 57 then c.toNat - 48
      else if 97 ≤ c.toNat ∧ c.toNat ≤ 102 then c.toNat - 97 + 10
      else if 65 ≤ c.toNat ∧ c.toNat ≤ 70 then c.toNat - 65 + 10
      else base
    if value < base then some value else none := rfl

theorem digitValue?_of_digitOf (h : DigitOf base c d) (hbase : base ≤ 16) :
    digitValue? base c = some d := by
  have hd := h.1
  have hvalue : (if 48 ≤ c.toNat ∧ c.toNat ≤ 57 then c.toNat - 48
      else if 97 ≤ c.toNat ∧ c.toNat ≤ 102 then c.toNat - 97 + 10
      else if 65 ≤ c.toNat ∧ c.toNat ≤ 70 then c.toNat - 65 + 10
      else base) = d := by
    have hnat := h.toNat_eq hbase
    split_ifs <;> omega
  rw [digitValue?_eq]
  dsimp only
  rw [hvalue, if_pos hd]

/-- What has been read already counts as a digit in front of the others. -/
theorem digitsFrom?_of_digitOf {ds : List ℕ} (hbase : base ≤ 16)
    (h : List.Forall₂ (DigitOf base) cs ds) (acc : ℕ) :
    digitsFrom? base acc cs = some (Nat.ofDigits base (ds.reverse ++ [acc])) := by
  induction h generalizing acc with
  | nil => simp [digitsFrom?]
  | @cons c d cs ds hc _ ih =>
    rw [digitsFrom?, digitValue?_of_digitOf hc hbase, Option.bind_some, ih]
    congr 1
    simp only [List.reverse_cons, List.append_assoc, List.singleton_append, Nat.ofDigits_append,
      Nat.ofDigits_cons, Nat.ofDigits_nil]
    ring

theorem Denotes.natural? (h : Denotes base cs n) (hbase : base ≤ 16) : natural? base cs = some n := by
  obtain ⟨ds, hne, hdigits, rfl⟩ := h
  have hcs : cs ≠ [] := by
    rintro rfl
    cases hdigits
    exact hne rfl
  rw [Text.natural?, if_neg (by simpa using hcs), digitsFrom?_of_digitOf hbase hdigits]
  simp [Nat.ofDigits_append]

theorem Denotes.exists_cons (h : Denotes base cs n) :
    ∃ c rest d, cs = c :: rest ∧ DigitOf base c d := by
  obtain ⟨ds, hne, hdigits, -⟩ := h
  cases hdigits with
  | nil => exact absurd rfl hne
  | @cons c d rest ds hc _ => exact ⟨c, rest, d, rfl, hc⟩

/-- A row of digits has no sign. -/
theorem Denotes.integer? (h : Denotes base cs n) (hbase : base ≤ 16) :
    integer? base cs = some (n : ℤ) := by
  obtain ⟨c, rest, d, rfl, hc⟩ := h.exists_cons
  have hnat := hc.toNat_eq hbase
  rw [integer?.eq_def]
  split
  · rename_i heq
    cases (List.cons.inj heq).1
    have hsign : '-'.toNat = 45 := rfl
    omega
  · rename_i heq
    cases (List.cons.inj heq).1
    have hsign : '+'.toNat = 43 := rfl
    omega
  · rw [h.natural? hbase]
    rfl

theorem Denotes.integerWithin? (h : Denotes base cs n) (hbase : base ≤ 16) :
    integerWithin? 64 base cs = if n ≤ 2 ^ 63 - 1 then some (n : ℤ) else none := by
  have hbound : Int.pow 2 (64 - 1) = 2 ^ 63 := rfl
  rw [Text.integerWithin?, h.integer? hbase, hbound, Option.filter_some]
  by_cases hn : n ≤ 2 ^ 63 - 1
  · rw [if_pos hn, if_pos (by simp; omega)]
  · rw [if_neg hn, if_neg (by simp; omega)]

end Digits

end Text

namespace Literal

open ConstNarrow.Text

/-! ## Texts of integers -/

/-- The two notations for integers. -/
inductive Radix where
  | decimal
  | hexadecimal
deriving DecidableEq

/-- **That a text is an integer in a notation**: a row of decimal digits, or a row of hexadecimal ones
behind `0x`. -/
inductive Written : Radix → List Char → ℕ → Prop
  | decimal {cs : List Char} {n : ℕ} (h : Denotes 10 cs n) : Written .decimal cs n
  | hexadecimal {cs : List Char} {n : ℕ} (mark : Char) (hmark : mark = 'x' ∨ mark = 'X')
    (h : Denotes 16 cs n) : Written .hexadecimal ('0' :: mark :: cs) n

section Written

variable {radix : Radix} {text : String} {cs : List Char} {n : ℕ}

/-- Among decimal digits there is no mark. -/
theorem hexDigits?_of_denotes (h : Denotes 10 cs n) : hexDigits? cs = none := by
  obtain ⟨ds, -, hdigits, -⟩ := h
  -- decimal digits come before all letters
  have hall : ∀ c ∈ cs, c.toNat ≤ 57 := by
    induction hdigits with
    | nil => simp
    | @cons c d cs ds hc _ ih =>
      have hnat := hc.toNat_eq (by omega)
      have hd := hc.1
      exact List.forall_mem_cons.mpr ⟨by omega, ih⟩
  rw [hexDigits?.eq_def]
  split
  · exact absurd (hall 'x' (by simp)) (by decide)
  · exact absurd (hall 'X' (by simp)) (by decide)
  · rfl

theorem hexDigits?_mark {mark : Char} (hmark : mark = 'x' ∨ mark = 'X') :
    hexDigits? ('0' :: mark :: cs) = some cs := by
  rcases hmark with rfl | rfl <;> rfl

theorem isHex_of_written (h : Written radix text.toList n) : isHex text = (radix == .hexadecimal) := by
  rw [isHex]
  generalize text.toList = cs at h
  cases h with
  | decimal h =>
    rw [hexDigits?_of_denotes h]
    rfl
  | hexadecimal mark hmark _ =>
    rw [hexDigits?_mark hmark]
    rfl

/-- The number of a text is read if it is an integer of 64 bits. -/
theorem readInt?_of_written (h : Written radix text.toList n) :
    readInt? text = if n ≤ 2 ^ 63 - 1 then some (Int64.ofInt n) else none := by
  have hmap : ∀ value? : Option ℤ, (value? = if n ≤ 2 ^ 63 - 1 then some (n : ℤ) else none) →
      value?.map Int64.ofInt = if n ≤ 2 ^ 63 - 1 then some (Int64.ofInt n) else none := by
    rintro _ rfl
    split <;> rfl
  rw [readInt?]
  generalize text.toList = cs at h
  cases h with
  | decimal h =>
    rw [hexDigits?_of_denotes h]
    exact hmap _ (h.integerWithin? (by omega))
  | hexadecimal mark hmark h =>
    rw [hexDigits?_mark hmark]
    exact hmap _ (h.integerWithin? (by omega))

end Written

/-! ## Readings -/

/-- **That a value is a whole number in a kind**: the integer, the binary number that it is converted to,
or a decimal of this value. -/
inductive IsReading (n : ℕ) : NumericKind → Singleton → Prop
  | int (i : Int64) (h : i.toInt = n) : IsReading n .int (.ofScalar (.int i))
  | float : IsReading n .float (.ofScalar (.float (Float.ofInt n)))
  | decimal (d : Decimal) (h : d.value = n) : IsReading n .decimal (.ofScalar (.decimal d))

namespace Radix

/-- The kinds of number that may be written in a notation. -/
def kinds : Radix → List NumericKind
  | .decimal => [.int, .float, .decimal]
  | .hexadecimal => [.int, .float]

/-- **The kinds in which an integer is read.** Where nothing is expected it is an integer only. Pruning
leaves the kinds that the expected type can hold, if it can hold a number at all. -/
def offered (radix : Radix) (pruning : Bool) : Option Ty → List NumericKind
  | none => [.int]
  | some ty =>
    if ty.effective.isError then [.int]
    else if pruning && !ty.numericKinds.isEmpty then radix.kinds.filter ty.numericKinds.contains
    else radix.kinds

/-- Decimal digits may be a number of any kind, so there is always one to be read. -/
theorem offered_decimal_ne_nil (pruning : Bool) (expected : Option Ty) :
    Radix.decimal.offered pruning expected ≠ [] := by
  cases expected with
  | none => exact List.cons_ne_nil _ _
  | some ty =>
    rw [offered]
    split_ifs with herror hkinds
    · exact List.cons_ne_nil _ _
    · rw [Bool.and_eq_true, Bool.not_eq_true', List.isEmpty_eq_false_iff] at hkinds
      obtain ⟨kind, hkind⟩ := List.exists_mem_of_ne_nil _ hkinds.2
      have hall : kind ∈ Radix.decimal.kinds := by cases kind <;> decide
      exact List.ne_nil_of_mem (List.mem_filter.mpr ⟨hall, List.contains_iff_mem.mpr hkind⟩)
    · exact List.cons_ne_nil _ _

end Radix

section Readings

variable {radix : Radix} {text : String} {n : ℕ} {kind : NumericKind} {s : Singleton}

theorem IsReading.numericKind? (h : IsReading n kind s) : s.base.numericKind? = some kind := by
  cases h <;> rfl

theorem forall₂_intReadings (h : Written radix text.toList n) {i : Int64} (hi : i.toInt = n) :
    List.Forall₂ (IsReading n) radix.kinds (intReadings text i) := by
  have hfloat : IsReading n .float (.ofScalar (.float (Float.ofInt i.toInt))) := hi ▸ .float
  rw [intReadings, isHex_of_written h]
  cases radix with
  | decimal =>
    have hvalue : (Decimal.ofInt64 i).value = n := by simp [Decimal.value, Decimal.ofInt64, hi]
    exact .cons (.int i hi) (.cons hfloat (.cons (.decimal _ hvalue) .nil))
  | hexadecimal => exact .cons (.int i hi) (.cons hfloat .nil)

theorem forall₂_restrict {kinds : List NumericKind} {readings : List Singleton}
    (h : List.Forall₂ (IsReading n) kinds readings) {ty : Ty} (hkinds : ty.numericKinds ≠ []) :
    List.Forall₂ (IsReading n) (kinds.filter ty.numericKinds.contains) (restrict readings ty) := by
  rw [restrict, if_neg (by simpa using hkinds)]
  refine List.rel_filter (fun kind s hreading => ?_) h
  dsimp only
  rw [hreading.numericKind?, Option.any_some]

/-- The readings of a text in the kinds that are offered. -/
theorem exists_readings (h : Written radix text.toList n) (hn : n ≤ 2 ^ 63 - 1) (expected : Option Ty)
    (pruning : Bool) : ∃ readings : List Singleton, Offers readings
      ∧ List.Forall₂ (IsReading n) (radix.offered pruning expected) readings
      ∧ inferType (.int text) expected pruning = typeOf text readings := by
  have hi : (Int64.ofInt n).toInt = n := Int64.toInt_ofInt_of_le (by omega) (by omega)
  have hread : readInt? text = some (Int64.ofInt n) := by rw [readInt?_of_written h, if_pos hn]
  -- where nothing is expected, or an error is, the integer is the only reading
  have hnothing : ∃ readings : List Singleton, Offers readings
      ∧ List.Forall₂ (IsReading n) [.int] readings
      ∧ .ok (.singleton (.ofScalar (.int (Int64.ofInt n)))) = typeOf text readings :=
    ⟨_, offers_option (some (Int64.ofInt n)) Scalar.int, .cons (.int _ hi) .nil, rfl⟩
  cases expected with
  | none =>
    rw [inferType, hread]
    exact hnothing
  | some ty =>
    by_cases herror : ty.effective.isError = true
    · have hfilter : (some ty).filter (!·.effective.isError) = none := by simp [herror]
      rw [inferType, hread, hfilter, Radix.offered, if_pos herror]
      exact hnothing
    · have hfilter : (some ty).filter (!·.effective.isError) = some ty := by simp [herror]
      have hall := forall₂_intReadings h hi
      have hoffers := offers_intReadings text (Int64.ofInt n)
      rw [inferType, hread, hfilter, Radix.offered, if_neg herror]
      -- pruning by a type that holds no number drops nothing
      by_cases hprune : pruning = true ∧ ty.numericKinds ≠ []
      · rw [if_pos (by simpa using hprune)]
        refine ⟨_, hoffers.sublist (restrict_sublist _ ty), forall₂_restrict hall hprune.2, ?_⟩
        simp only [inContext, if_pos hprune.1]
      · rw [if_neg (by simpa using hprune)]
        refine ⟨_, hoffers, hall, ?_⟩
        cases pruning with
        | false => rfl
        | true =>
          have hkinds : ty.numericKinds = [] := by simpa using hprune
          simp [inContext, restrict, hkinds]

/-- Readings of different kinds are a choice between them; no reading is an error. -/
theorem typeOf_of_offers {readings : List Singleton} (h : Offers readings) :
    typeOf text readings = if readings = [] then .error ⟨text⟩ else .ok (Ty.ofValues readings) := by
  by_cases hne : readings = []
  · rw [hne]
    rfl
  · rw [typeOf, if_neg (by simpa using hne), if_neg hne, Ty.unionOf_singletons_eq hne h.apart]

theorem pairwise_of_forall₂ {kinds : List NumericKind} {readings : List Singleton}
    (h : List.Forall₂ (IsReading n) kinds readings) (hoffers : Offers readings) :
    readings.Pairwise fun s t => s.base.numericKind? ≠ t.base.numericKind? := by
  refine hoffers.apart.imp_of_mem fun {s t} hs _ hdomain hkind => hdomain ?_
  obtain ⟨kind, -, hreading⟩ := exists_of_mem_right h hs
  rw [Primitive.domain, Primitive.domain, ← hkind, hreading.numericKind?]

end Readings

/-- **Integer literals are read exactly or rejected.** A text that stands for a number has a type if the
number is an integer of 64 bits and there is a kind to read it in, which there always is for decimal
digits. The type is a choice between the readings of just this number, one in each kind that is offered. In
all other cases the text is out of range. -/
theorem integers_are_read_exactly {radix : Radix} {text : String} {n : ℕ}
    (h : Written radix text.toList n) (expected : Option Ty) (pruning : Bool) :
    (n ≤ 2 ^ 63 - 1 → radix.offered pruning expected ≠ [] →
        ∃ readings : List Singleton, inferType (.int text) expected pruning = .ok (Ty.ofValues readings)
          ∧ List.Forall₂ (IsReading n) (radix.offered pruning expected) readings
          ∧ readings.Pairwise fun s t => s.base.numericKind? ≠ t.base.numericKind?)
      ∧ (2 ^ 63 - 1 < n ∨ radix.offered pruning expected = [] →
        inferType (.int text) expected pruning = .error ⟨text⟩)
      ∧ (radix = .decimal → radix.offered pruning expected ≠ []) := by
  refine ⟨fun hn hkinds => ?_, fun hrejected => ?_, ?_⟩
  · obtain ⟨readings, hoffers, hreadings, hinfer⟩ := exists_readings h hn expected pruning
    have hne : readings ≠ [] := by
      rintro rfl
      exact hkinds (List.forall₂_nil_right_iff.mp hreadings)
    rw [hinfer, typeOf_of_offers hoffers, if_neg hne]
    exact ⟨readings, rfl, hreadings, pairwise_of_forall₂ hreadings hoffers⟩
  · by_cases hn : n ≤ 2 ^ 63 - 1
    · obtain ⟨readings, hoffers, hreadings, hinfer⟩ := exists_readings h hn expected pruning
      have hnil : radix.offered pruning expected = [] := hrejected.resolve_left (by omega)
      rw [hnil, List.forall₂_nil_left_iff] at hreadings
      rw [hinfer, typeOf_of_offers hoffers, if_pos hreadings]
    · have hread : readInt? text = none := by rw [readInt?_of_written h, if_neg hn]
      rw [inferType, hread]
  · rintro rfl
    exact Radix.offered_decimal_ne_nil pruning expected

/-- At the limit: the greatest integer of 64 bits, with a zero in front of it, and the one after it. The
last text is in range, but where a decimal is expected it has no reading. -/
theorem integers_at_limit :
    (∃ readings : List Singleton,
        inferType (.int "09223372036854775807") (some .anydata) true = .ok (Ty.ofValues readings)
          ∧ List.Forall₂ (IsReading (2 ^ 63 - 1)) [.int, .float, .decimal] readings
          ∧ readings.Pairwise fun s t => s.base.numericKind? ≠ t.base.numericKind?)
      ∧ inferType (.int "9223372036854775808") (some .anydata) true = .error ⟨"9223372036854775808"⟩
      ∧ inferType (.int "0xfF") (some (.primitive .decimal)) true = .error ⟨"0xfF"⟩ := by
  have hgreatest : Written .decimal "09223372036854775807".toList (2 ^ 63 - 1) :=
    .decimal ⟨[0, 9, 2, 2, 3, 3, 7, 2, 0, 3, 6, 8, 5, 4, 7, 7, 5, 8, 0, 7], by decide, by decide,
      by decide⟩
  have hnext : Written .decimal "9223372036854775808".toList (2 ^ 63) :=
    .decimal ⟨[9, 2, 2, 3, 3, 7, 2, 0, 3, 6, 8, 5, 4, 7, 7, 5, 8, 0, 8], by decide, by decide,
      by decide⟩
  have hbyte : Written .hexadecimal "0xfF".toList 255 :=
    .hexadecimal 'x' (Or.inl rfl) ⟨[15, 15], by decide, by decide, by decide⟩
  exact ⟨(integers_are_read_exactly hgreatest (some .anydata) true).1 le_rfl (List.cons_ne_nil _ _),
    (integers_are_read_exactly hnext (some .anydata) true).2.1 (Or.inl (by norm_num)),
    (integers_are_read_exactly hbyte (some (.primitive .decimal)) true).2.1 (Or.inr rfl)⟩

end Literal

end ConstNarrow
