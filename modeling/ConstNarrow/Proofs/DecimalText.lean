/-
**Decimals are read and written exactly.**

A numeral is a number as it is written, taken apart: a sign, digits around a point, an exponent. What it
stands for is a rational number, said without the reader. Reading finds exactly this number and rounds
it, as the operations round theirs.

Writing has five layouts: without a point, with one among the digits or in front of them, with zeros for
missing digits, and with an exponent. All are numerals that stand for the decimal (`exists_numeral_render`), so
that reading a text back is a case of reading a numeral, and the rounding changes nothing.
-/
import ConstNarrow.Proofs.DecimalRange
import ConstNarrow.Proofs.ValuesPassOn

set_option autoImplicit false

namespace ConstNarrow

/-! ## Rows of digits -/

namespace Text

section Split

variable {p : Char → Bool} {l rest : List Char}

theorem splitFirst?_append {c : Char} (hl : ∀ c ∈ l, p c = false) (hc : p c = true) :
    splitFirst? p (l ++ c :: rest) = some (l, rest) := by
  induction l with
  | nil => simp [splitFirst?, hc]
  | cons first l ih =>
    rw [List.forall_mem_cons] at hl
    simp [splitFirst?, hl.1, ih hl.2]

theorem splitFirst?_eq_none (hl : ∀ c ∈ l, p c = false) : splitFirst? p l = none := by
  induction l with
  | nil => rfl
  | cons first l ih =>
    rw [List.forall_mem_cons] at hl
    simp [splitFirst?, hl.1, ih hl.2]

end Split

theorem digitValue?_of_isDigit {c : Char} (h : c.isDigit = true) :
    digitValue? 10 c = some (c.toNat - '0'.toNat) := by
  simp only [Char.isDigit, Bool.and_eq_true, decide_eq_true_eq] at h
  have hlower : '0' ≤ c := h.1
  have hupper : c ≤ '9' := h.2
  have hlt : c.toNat - '0'.toNat < 10 := by
    have : c.toNat ≤ '9'.toNat := hupper
    have : '9'.toNat = 57 := rfl
    have : '0'.toNat = 48 := rfl
    omega
  simp only [digitValue?, hlower, hupper, and_self, if_true, hlt]

theorem digitsFrom?_of_isDigit {cs : List Char} (h : ∀ c ∈ cs, c.isDigit = true) (acc : ℕ) :
    digitsFrom? 10 acc cs = some (Nat.ofDigitChars 10 cs acc) := by
  induction cs generalizing acc with
  | nil => rfl
  | cons c cs ih =>
    rw [List.forall_mem_cons] at h
    rw [digitsFrom?, digitValue?_of_isDigit h.1, Option.bind_some, ih h.2, Nat.ofDigitChars_cons,
      Nat.mul_comm acc]

/-- A row of digits is the number that it stands for. -/
theorem natural?_of_isDigit {cs : List Char} (hne : cs ≠ []) (h : ∀ c ∈ cs, c.isDigit = true) :
    natural? 10 cs = some (Nat.ofDigitChars 10 cs 0) := by
  rw [natural?, if_neg (by simpa using hne), digitsFrom?_of_isDigit h]

theorem isDigit_of_mem_digits {n : ℕ} {c : Char} (h : c ∈ digits n) : c.isDigit = true :=
  Nat.isDigit_of_mem_toDigits (by norm_num) le_rfl h

theorem ofDigitChars_digits (n : ℕ) : Nat.ofDigitChars 10 (digits n) 0 = n :=
  Nat.ofDigitChars_toDigits (by norm_num) le_rfl

theorem digits_ne_nil (n : ℕ) : digits n ≠ [] := Nat.toDigits_ne_nil

end Text

namespace Decimal

open ConstNarrow.Text

/-! ## Numerals -/

/-- A sign, which may be left out. -/
inductive Sign where
  | absent
  | plus
  | minus

namespace Sign

def chars : Sign → List Char
  | absent => []
  | plus => ['+']
  | minus => ['-']

/-- The number with the sign. -/
def apply : Sign → ℕ → ℤ
  | minus, n => -n
  | _, n => n

end Sign

/-- An exponent as it is written: a mark, a sign and at least one digit. -/
structure Exponent where
  mark : Char
  sign : Sign
  digits : List Char
  isMark : mark = 'e' ∨ mark = 'E'
  isDigit : ∀ c ∈ digits, c.isDigit = true
  ne_nil : digits ≠ []

namespace Exponent

def chars (e : Exponent) : List Char := e.mark :: (e.sign.chars ++ e.digits)

def value (e : Exponent) : ℤ := e.sign.apply (Nat.ofDigitChars 10 e.digits 0)

end Exponent

/-- **A number as it is written**: a sign, digits that may be grouped by underscores and have a point
in front of, between or after them, and an exponent. -/
structure Numeral where
  sign : Sign
  whole : List Char
  fraction : Option (List Char)
  exponent : Option Exponent
  isRow : ∀ c ∈ whole ++ fraction.getD [], c.isDigit = true ∨ c = '_'
  starts : ∃ c rest, whole ++ fraction.getD [] = c :: rest ∧ c.isDigit = true

namespace Numeral

/-- The characters of the numeral. -/
def chars (n : Numeral) : List Char :=
  n.sign.chars ++ n.whole ++ n.fraction.elim [] ('.' :: ·) ++ n.exponent.elim [] Exponent.chars

def text (n : Numeral) : String := String.ofList n.chars

/-- The digits on both sides of the point, as one whole number. -/
def number (n : Numeral) : ℕ :=
  Nat.ofDigitChars 10 ((n.whole ++ n.fraction.getD []).filter (· != '_')) 0

/-- How many digits stand after the point. -/
def places (n : Numeral) : ℕ := ((n.fraction.getD []).filter (· != '_')).length

/-- The power of ten that the exponent stands for. -/
def power (n : Numeral) : ℤ := n.exponent.elim 0 Exponent.value

/-- The number that is written. -/
def value (n : Numeral) : ℚ := n.sign.apply n.number / 10 ^ n.places * 10 ^ n.power

/-- The words that a reader has for the exponent and for the scale are large enough. -/
def IsHeld (n : Numeral) : Prop :=
  -2 ^ 127 ≤ n.power ∧ n.power < 2 ^ 127 ∧ IsWord (n.places - n.power)

instance (n : Numeral) : Decidable n.IsHeld :=
  inferInstanceAs (Decidable (-2 ^ 127 ≤ n.power ∧ n.power < 2 ^ 127
    ∧ -2 ^ 63 ≤ n.places - n.power ∧ n.places - n.power < 2 ^ 63))

/-- What stands in front of the exponent. -/
def mantissa (n : Numeral) : List Char :=
  n.sign.chars ++ n.whole ++ n.fraction.elim [] ('.' :: ·)

end Numeral

/-! ## Reading numerals -/

/-- Digits after a sign are read as the number with the sign. -/
theorem integer?_signed (s : Sign) {ds : List Char} (hne : ds ≠ [])
    (hdigits : ∀ c ∈ ds, c.isDigit = true) :
    integer? 10 (s.chars ++ ds) = some (s.apply (Nat.ofDigitChars 10 ds 0)) := by
  have hnatural := natural?_of_isDigit hne hdigits
  cases s with
  | minus => simp [Sign.chars, Sign.apply, integer?, hnatural]
  | plus => simp [Sign.chars, Sign.apply, integer?, hnatural]
  | absent =>
    rw [Sign.chars, List.nil_append, integer?.eq_def]
    split
    · cases hdigits '-' List.mem_cons_self
    · cases hdigits '+' List.mem_cons_self
    · rw [hnatural]
      rfl

/-- Digits that may be grouped are read without their underscores. -/
theorem groupedInteger?_signed (s : Sign) {c : Char} {cs : List Char} (hc : c.isDigit = true)
    (hrow : ∀ c ∈ cs, c.isDigit = true ∨ c = '_') :
    groupedInteger? (s.chars ++ c :: cs)
      = some (s.apply (Nat.ofDigitChars 10 ((c :: cs).filter (· != '_')) 0)) := by
  have hunderscore : c ≠ '_' := by
    rintro rfl
    cases hc
  have hgrouped : grouped? (c :: cs) = some (Nat.ofDigitChars 10 ((c :: cs).filter (· != '_')) 0) := by
    rw [grouped?.eq_def]
    split
    · rename_i heq
      cases heq
    · rename_i heq
      exact absurd (List.cons.inj heq).1 hunderscore
    · refine natural?_of_isDigit ?_ ?_
      · simp [hunderscore]
      · intro d hd
        rw [List.mem_filter] at hd
        rcases List.mem_cons.mp hd.1 with rfl | hmem
        · exact hc
        · refine (hrow d hmem).resolve_right ?_
          rintro rfl
          cases hd.2
  cases s with
  | minus => simp [Sign.chars, Sign.apply, groupedInteger?, hgrouped]
  | plus => simp [Sign.chars, Sign.apply, groupedInteger?, hgrouped]
  | absent =>
    rw [Sign.chars, List.nil_append, groupedInteger?.eq_def]
    split
    · rename_i heq
      cases (List.cons.inj heq).1
      cases hc
    · rename_i heq
      cases (List.cons.inj heq).1
      cases hc
    · rw [hgrouped]
      rfl

namespace Numeral

variable (n : Numeral)

/-- Before the point there are only a sign, digits and underscores. -/
theorem mem_signed_whole {c : Char} (h : c ∈ n.sign.chars ++ n.whole) :
    c = '+' ∨ c = '-' ∨ c = '_' ∨ c.isDigit = true := by
  rcases List.mem_append.mp h with hsign | hwhole
  · cases hcase : n.sign <;> simp_all [Sign.chars]
  · rcases n.isRow c (List.mem_append_left _ hwhole) with hdigit | rfl
    · simp [hdigit]
    · simp

theorem isExponentMark_of_mem_mantissa {c : Char} (h : c ∈ n.mantissa) : isExponentMark c = false := by
  have hdigit : c.isDigit = true → isExponentMark c = false := by
    intro hdigit
    rw [isExponentMark, Bool.or_eq_false_iff, beq_eq_false_iff_ne, beq_eq_false_iff_ne]
    constructor
    · rintro rfl
      cases hdigit
    · rintro rfl
      cases hdigit
  rcases List.mem_append.mp h with hfront | hback
  · rcases n.mem_signed_whole hfront with rfl | rfl | rfl | hc
    · rfl
    · rfl
    · rfl
    · exact hdigit hc
  · cases hfraction : n.fraction with
    | none => simp [hfraction] at hback
    | some digits =>
      rw [hfraction, Option.elim_some, List.mem_cons] at hback
      rcases hback with rfl | hmem
      · rfl
      · rcases n.isRow c (by simp [hfraction, hmem]) with hc | rfl
        · exact hdigit hc
        · rfl

/-- The text is split at the mark of the exponent, since none stands before it. -/
theorem halves_chars :
    (splitFirst? isExponentMark n.chars).getD (n.chars, ['0'])
      = (n.mantissa, n.exponent.elim ['0'] fun e => e.sign.chars ++ e.digits) := by
  have hmantissa : ∀ c ∈ n.mantissa, isExponentMark c = false := fun _ => n.isExponentMark_of_mem_mantissa
  have hchars : n.chars = n.mantissa ++ n.exponent.elim [] Exponent.chars := rfl
  rw [hchars]
  cases n.exponent with
  | none =>
    rw [Option.elim_none, List.append_nil, splitFirst?_eq_none hmantissa]
    rfl
  | some e =>
    have hmark : isExponentMark e.mark = true := by
      rcases e.isMark with h | h
      · rw [h]
        rfl
      · rw [h]
        rfl
    rw [Option.elim_some, Exponent.chars, splitFirst?_append hmantissa hmark]
    rfl

theorem withoutPoint_mantissa :
    withoutPoint n.mantissa = (n.sign.chars ++ (n.whole ++ n.fraction.getD []), n.places) := by
  have hfront : ∀ c ∈ n.sign.chars ++ n.whole, (c == '.') = false := by
    intro c hc
    rcases n.mem_signed_whole hc with rfl | rfl | rfl | hdigit
    · rfl
    · rfl
    · rfl
    · rw [beq_eq_false_iff_ne]
      rintro rfl
      cases hdigit
  rw [withoutPoint, mantissa, places]
  cases n.fraction with
  | none =>
    rw [Option.elim_none, List.append_nil, splitFirst?_eq_none hfront]
    simp
  | some digits =>
    rw [Option.elim_some, splitFirst?_append hfront rfl]
    simp

theorem integer?_exponent :
    integer? 10 (n.exponent.elim ['0'] fun e => e.sign.chars ++ e.digits) = some n.power := by
  rw [power]
  cases n.exponent with
  | none => rfl
  | some e => exact integer?_signed e.sign e.ne_nil e.isDigit

variable {n}

/-- **A numeral is read exactly**, if the words for the exponent and the scale hold it. -/
theorem parts?_chars (h : n.IsHeld) :
    parts? n.chars = some ⟨n.sign.apply n.number, n.places - n.power⟩ := by
  obtain ⟨c, rest, hrow, hc⟩ := n.starts
  have hinteger : groupedInteger? (n.sign.chars ++ (n.whole ++ n.fraction.getD []))
      = some (n.sign.apply n.number) := by
    rw [number, hrow]
    refine groupedInteger?_signed n.sign hc fun d hd => n.isRow d ?_
    rw [hrow]
    exact List.mem_cons_of_mem c hd
  rw [parts?, halves_chars]
  dsimp only
  rw [integerWithin?, n.integer?_exponent, Option.filter_some,
    if_pos (decide_eq_true ⟨h.1, h.2.1⟩), Option.bind_some, withoutPoint_mantissa]
  dsimp only
  rw [hinteger]
  exact if_pos h.2.2

theorem value_parts (n : Numeral) :
    Decimal.value ⟨n.sign.apply n.number, n.places - n.power⟩ = n.value := by
  rw [Decimal.value, value, neg_sub, zpow_sub₀ (by norm_num), zpow_natCast, div_mul_eq_mul_div,
    mul_div_assoc]

end Numeral

/-! ## Results of reading -/

namespace Numeral

variable {n : Numeral}

/-- A numeral that the words do not hold has no parts. -/
theorem parts?_eq_none (h : ¬n.IsHeld) : parts? n.chars = none := by
  rw [parts?, halves_chars]
  dsimp only
  rw [integerWithin?, n.integer?_exponent, Option.filter_some]
  split
  · rename_i hpower
    rw [decide_eq_true_eq] at hpower
    rw [Option.bind_some, withoutPoint_mantissa]
    exact if_neg fun hword => h ⟨hpower.1, hpower.2, hword⟩
  · rfl

/-- **A numeral is read as the nearest decimal**, or refused since that one is out of range. -/
theorem read_text (h : n.IsHeld) :
    (IsOutOfRange (roundTo precision n.value) → read n.text = .error (.outOfRange n.text))
      ∧ (¬IsOutOfRange (roundTo precision n.value) →
        ∃ d, read n.text = .ok d ∧ d.value = roundTo precision n.value) := by
  have hparts : parts? n.text.toList = some ⟨n.sign.apply n.number, n.places - n.power⟩ := by
    rw [text, String.toList_ofList, parts?_chars h]
  obtain ⟨hvalue, hnone⟩ := returns_round? ⟨n.sign.apply n.number, n.places - n.power⟩
  rw [value_parts] at hvalue hnone
  rw [read, hparts]
  dsimp only
  constructor
  · intro hout
    rw [hnone.mpr hout]
  · intro hin
    obtain ⟨d, hd⟩ := Option.ne_none_iff_exists'.mp (hnone.not.mpr hin)
    rw [hd]
    exact ⟨d, rfl, hvalue d hd⟩

theorem read_text_eq_malformed (h : ¬n.IsHeld) : read n.text = .error (.malformed n.text) := by
  have hparts : parts? n.text.toList = none := by
    rw [text, String.toList_ofList, parts?_eq_none h]
  rw [read, hparts]

end Numeral

/-! ## Writing -/

/-- The sign of a whole number: a minus, or what is written otherwise. -/
def Sign.of (i : ℤ) (otherwise : Sign) : Sign := if i < 0 then minus else otherwise

theorem Sign.apply_of (i : ℤ) {otherwise : Sign} (h : otherwise ≠ minus) :
    (Sign.of i otherwise).apply i.natAbs = i := by
  unfold Sign.of
  split
  · rw [apply]
    omega
  · rw [apply.eq_2 _ _ h]
    omega

/-- The exponent with its sign. -/
def Exponent.of (i : ℤ) : Exponent where
  mark := 'E'
  sign := .of i .plus
  digits := Text.digits i.natAbs
  isMark := Or.inr rfl
  isDigit _ := isDigit_of_mem_digits
  ne_nil := digits_ne_nil _

theorem Exponent.value_of (i : ℤ) : (Exponent.of i).value = i := by
  rw [Exponent.value, Exponent.of, ofDigitChars_digits]
  exact Sign.apply_of i (by simp)

theorem Exponent.chars_of (i : ℤ) :
    (Exponent.of i).chars = ['E'] ++ (if i < 0 then [] else ['+']) ++ (renderInt i).toList := by
  rw [Exponent.chars, Exponent.of, renderInt, String.toList_ofList]
  unfold Sign.of
  split_ifs <;> rfl

/-- The numeral has the characters, is held by the words, and stands for the magnitude of the
decimal. -/
structure Numeral.Writes (n : Numeral) (d : Decimal) (cs : List Char) : Prop where
  sign : n.sign = .absent
  chars : n.chars = cs
  isHeld : n.IsHeld
  value : (n.number : ℚ) / 10 ^ n.places * 10 ^ n.power = d.coefficient.natAbs * 10 ^ (-d.scale)

theorem filter_underscore {cs : List Char} (h : ∀ c ∈ cs, c.isDigit = true) :
    cs.filter (· != '_') = cs := by
  refine List.filter_eq_self.mpr fun c hc => bne_iff_ne.mpr ?_
  rintro rfl
  cases h _ hc

/-- A numeral without a sign and without underscores. -/
def Numeral.plain (whole : List Char) (fraction : Option (List Char)) (exponent : Option Exponent)
    (hne : whole ≠ []) (hdigits : ∀ c ∈ whole ++ fraction.getD [], c.isDigit = true) : Numeral where
  sign := .absent
  whole := whole
  fraction := fraction
  exponent := exponent
  isRow c hc := Or.inl (hdigits c hc)
  starts := by
    obtain ⟨c, rest, rfl⟩ := List.exists_cons_of_ne_nil hne
    exact ⟨c, rest ++ fraction.getD [], rfl, hdigits c List.mem_cons_self⟩

section Plain

variable {whole : List Char} {fraction : Option (List Char)} {exponent : Option Exponent}
  {hne : whole ≠ []} {hdigits : ∀ c ∈ whole ++ fraction.getD [], c.isDigit = true}

theorem Numeral.number_plain : (plain whole fraction exponent hne hdigits).number
    = Nat.ofDigitChars 10 (whole ++ fraction.getD []) 0 :=
  congrArg (Nat.ofDigitChars 10 · 0) (filter_underscore hdigits)

theorem Numeral.places_plain : (plain whole fraction exponent hne hdigits).places
    = (fraction.getD []).length :=
  congrArg List.length (filter_underscore fun c hc => hdigits c (List.mem_append_right _ hc))

end Plain

/-- Zeros in front of a number do not matter, and those behind it are powers of ten. -/
theorem ofDigitChars_padded (j n k : ℕ) :
    Nat.ofDigitChars 10 (List.replicate j '0' ++ digits n ++ List.replicate k '0') 0 = n * 10 ^ k := by
  rw [Nat.ofDigitChars_append, Nat.ofDigitChars_append, Nat.ofDigitChars_replicate_zero,
    Nat.ofDigitChars_replicate_zero, Nat.mul_zero, ofDigitChars_digits, Nat.mul_comm]

theorem isDigit_of_mem_padded {j n k : ℕ} {c : Char}
    (h : c ∈ List.replicate j '0' ++ digits n ++ List.replicate k '0') : c.isDigit = true := by
  rw [List.mem_append, List.mem_append] at h
  rcases h with (hzero | hdigit) | hzero
  · rw [List.eq_of_mem_replicate hzero]
    rfl
  · exact isDigit_of_mem_digits hdigit
  · rw [List.eq_of_mem_replicate hzero]
    rfl

/-- The digits of a coefficient, with zeros on either side, with a point and with an exponent are a
numeral. Zeros at the end have to be made up for by the scale. -/
theorem exists_writes {d : Decimal} {cs : List Char} (whole : List Char) (fraction : Option (List Char))
    (exponent : Option Exponent) (j k : ℕ)
    (hcs : whole ++ fraction.elim [] ('.' :: ·) ++ exponent.elim [] Exponent.chars = cs)
    (hne : whole ≠ [])
    (hrow : whole ++ fraction.getD []
      = List.replicate j '0' ++ digits d.coefficient.natAbs ++ List.replicate k '0')
    (hscale : ((fraction.getD []).length : ℤ) - exponent.elim 0 Exponent.value = d.scale + k)
    (hpower : |exponent.elim 0 Exponent.value| < 2 ^ 127) (hword : IsWord (d.scale + k)) :
    ∃ n : Numeral, n.Writes d cs := by
  have hdigits : ∀ c ∈ whole ++ fraction.getD [], c.isDigit = true := by
    rw [hrow]
    exact fun c hc => isDigit_of_mem_padded hc
  set n := Numeral.plain whole fraction exponent hne hdigits with hn
  have hnumber : n.number = d.coefficient.natAbs * 10 ^ k := by
    rw [hn, Numeral.number_plain, hrow, ofDigitChars_padded]
  have hpoint : (n.places : ℤ) - n.power = d.scale + k := by
    rw [hn, Numeral.places_plain]
    exact hscale
  rw [abs_lt] at hpower
  refine ⟨n, rfl, hcs, ⟨hpower.1.le, hpower.2, hpoint ▸ hword⟩, ?_⟩
  have hexponent : n.power - n.places = -d.scale - k := by omega
  calc (n.number : ℚ) / 10 ^ n.places * 10 ^ n.power
      = n.number * 10 ^ (n.power - n.places) := by
        rw [zpow_sub₀ (by norm_num), zpow_natCast]
        ring
    _ = d.coefficient.natAbs * 10 ^ k * (10 ^ (-d.scale) / 10 ^ k) := by
        rw [hexponent, hnumber, zpow_sub₀ (by norm_num), zpow_natCast]
        push_cast
        rfl
    _ = d.coefficient.natAbs * 10 ^ (-d.scale) := by
        field_simp

section Layouts

variable {d : Decimal}

/-- The point stands among the digits or in front of them, and is left out behind them. -/
theorem exists_writes_withPoint (hword : IsWord d.scale) (hscale : 0 ≤ d.scale) :
    ∃ n : Numeral, n.Writes d (withPoint (digits d.coefficient.natAbs) d.scale.toNat) := by
  have hne := digits_ne_nil d.coefficient.natAbs
  have hword' : IsWord (d.scale + (0 : ℕ)) := by simpa using hword
  have hpower : |(0 : ℤ)| < 2 ^ 127 := by norm_num
  set ds := digits d.coefficient.natAbs with hds
  unfold withPoint
  split_ifs with hzero hshort
  · refine exists_writes ds none none 0 0 (by simp) hne (by simp [hds]) ?_ hpower hword'
    simp only [Option.getD_none, List.length_nil, Option.elim_none]
    omega
  · refine exists_writes (ds.take (ds.length - d.scale.toNat))
      (some (ds.drop (ds.length - d.scale.toNat))) none 0 0 (by simp) ?_ (by simp [hds]) ?_ hpower hword'
    · rw [Ne, List.take_eq_nil_iff, not_or]
      exact ⟨by omega, hne⟩
    · simp only [Option.getD_some, List.length_drop, Option.elim_none]
      omega
  · refine exists_writes ['0'] (some (List.replicate (d.scale.toNat - ds.length) '0' ++ ds)) none
      (d.scale.toNat - ds.length + 1) 0 (by simp) (by simp) ?_ ?_ hpower hword'
    · simp [List.replicate_succ, hds]
    · simp only [Option.getD_some, List.length_append, List.length_replicate, Option.elim_none]
      omega

/-- Without a point, and with zeros for the digits that are missing. -/
theorem exists_writes_padded (hscale : d.scale < 0) :
    ∃ n : Numeral, n.Writes d (digits d.coefficient.natAbs ++ List.replicate (-d.scale).toNat '0') := by
  have hsum : d.scale + ((-d.scale).toNat : ℤ) = 0 := by omega
  refine exists_writes (digits d.coefficient.natAbs ++ List.replicate (-d.scale).toNat '0') none none 0
    (-d.scale).toNat (by simp) ?_ (by simp) ?_ (by norm_num) ?_
  · simp [digits_ne_nil]
  · rw [hsum]
    rfl
  · rw [hsum]
    norm_num [IsWord]

theorem withExponent_eq (ds : List Char) (i : ℤ) :
    withExponent ds i
      = ds.take 1 ++ (if ds.length ≤ 1 then [] else ['.']) ++ ds.drop 1 ++ (Exponent.of i).chars := by
  rw [withExponent, Exponent.chars_of]
  simp only [List.append_assoc]

/-- With an exponent: one digit stands before the point, if any stand after it. -/
theorem exists_writes_withExponent (h : WellFormed d) :
    ∃ n : Numeral, n.Writes d (withExponent (digits d.coefficient.natAbs) d.leading) := by
  have hcount : d.digitCount = (digits d.coefficient.natAbs).length := rfl
  have hfew := digitCount_le_of_natAbs_le h.natAbs_le
  have hpos : 0 < d.digitCount := digitCount_pos _
  have hword := h.isWord
  have hword' : IsWord (d.scale + (0 : ℕ)) := by simpa using hword
  have hleading : d.leading = d.digitCount - 1 - d.scale := rfl
  have hpower : |(some (Exponent.of d.leading)).elim 0 Exponent.value| < 2 ^ 127 := by
    rw [Option.elim_some, Exponent.value_of, abs_lt, hleading]
    rw [IsWord] at hword
    omega
  -- what stands after the point and the exponent together make up the scale
  rw [withExponent_eq]
  set ds := digits d.coefficient.natAbs with hds
  split_ifs with hsingle
  · have htake : ds.take 1 = ds := List.take_of_length_le hsingle
    have hdrop : ds.drop 1 = [] := List.drop_of_length_le hsingle
    refine exists_writes ds none (some (.of d.leading)) 0 0 (by simp [htake, hdrop]) ?_ (by simp [hds]) ?_
      hpower hword'
    · rw [hds]
      exact digits_ne_nil _
    · rw [Option.elim_some, Exponent.value_of, hleading]
      simp only [Option.getD_none, List.length_nil]
      omega
  · refine exists_writes (ds.take 1) (some (ds.drop 1)) (some (.of d.leading)) 0 0 (by simp) ?_
      ?_ ?_ hpower hword'
    · rw [Ne, List.take_eq_nil_iff, not_or]
      exact ⟨by omega, hds ▸ digits_ne_nil _⟩
    · rw [Option.getD_some, List.take_append_drop]
      simp [hds]
    · rw [Option.elim_some, Exponent.value_of, hleading, hcount]
      simp only [Option.getD_some, List.length_drop]
      omega

/-- **The magnitude is written in one of three ways.** An exponent is written only where it fits into a
word: too large a one would be negative there, and the zero that has it is written with zeros. -/
theorem exists_writes_renderMagnitude (h : WellFormed d) : ∃ n : Numeral, n.Writes d d.renderMagnitude := by
  unfold renderMagnitude
  dsimp only
  split_ifs with hpoint hpadded
  · exact exists_writes_withPoint h.isWord hpoint.1
  · exact exists_writes_padded hpadded.1
  · rcases leadingWord_eq_or (digitCount_le_of_natAbs_le h.natAbs_le) h.isWord with heq | ⟨hlarge, hsmall⟩
    · rw [heq]
      exact exists_writes_withExponent h
    · exfalso
      have hfew := digitCount_le_of_natAbs_le h.natAbs_le
      have hleading : d.leading = d.digitCount - 1 - d.scale := rfl
      exact hpadded ⟨by omega, by rw [precision]; omega⟩

/-- **The text of a decimal is a numeral** that stands for it. -/
theorem exists_numeral_render (h : WellFormed d) :
    ∃ n : Numeral, n.text = d.render ∧ n.value = d.value ∧ n.IsHeld := by
  obtain ⟨n, hsign, hchars, hheld, hvalue⟩ := exists_writes_renderMagnitude h
  refine ⟨{ n with sign := .of d.coefficient .absent }, ?_, ?_, hheld⟩
  · rw [Numeral.text, render, ← hchars]
    simp only [Numeral.chars, hsign, Sign.chars, List.nil_append]
    unfold Sign.of
    split_ifs <;> rfl
  · have hnumeral : Numeral.value { n with sign := .of d.coefficient .absent }
        = (Sign.of d.coefficient .absent).apply n.number / 10 ^ n.places * 10 ^ n.power := rfl
    rw [hnumeral, Decimal.value]
    unfold Sign.of
    split_ifs with hneg
    · have hcoefficient : (d.coefficient : ℚ) = -(d.coefficient.natAbs : ℤ) := by
        exact_mod_cast (show d.coefficient = -(d.coefficient.natAbs : ℤ) by omega)
      rw [hcoefficient, Int.cast_natCast, neg_mul, ← hvalue]
      simp [Sign.apply, neg_div]
    · have hcoefficient : (d.coefficient : ℚ) = (d.coefficient.natAbs : ℤ) := by
        exact_mod_cast (show d.coefficient = (d.coefficient.natAbs : ℤ) by omega)
      rw [hcoefficient, Int.cast_natCast, ← hvalue]
      simp [Sign.apply]

end Layouts

/-! ## Results -/

/-- **Decimals are correctly rounded.** The sum, the difference, the product and the quotient are the
exact ones rounded to 34 digits, a half to the even neighbour, and there is none exactly if the rounded
one is out of range. The remainder is exact. A numeral is read as what it stands for, rounded in the
same way; only if its exponent or its scale is too large for a word, it is refused as malformed. -/
theorem decimals_are_correctly_rounded {a b : Decimal} (ha : Built a) (hb : Built b) :
    Returns (a.add? b) (roundTo precision (a.value + b.value))
      ∧ Returns (a.sub? b) (roundTo precision (a.value - b.value))
      ∧ Returns (a.mul? b) (roundTo precision (a.value * b.value))
      ∧ (b.value = 0 → a.div? b = none ∧ a.rem? b = none)
      ∧ (b.value ≠ 0 →
        Returns (a.div? b) (roundTo precision (a.value / b.value))
          ∧ ∃ r, IsRemainder a.value b.value r ∧ Returns (a.rem? b) r)
      ∧ ∀ n : Numeral,
        (n.IsHeld → IsOutOfRange (roundTo precision n.value) →
            read n.text = .error (.outOfRange n.text))
          ∧ (n.IsHeld → ¬IsOutOfRange (roundTo precision n.value) →
            ∃ d, read n.text = .ok d ∧ d.value = roundTo precision n.value)
          ∧ (¬n.IsHeld → read n.text = .error (.malformed n.text)) := by
  refine ⟨(rounds_add ha.wellFormed hb.wellFormed).returns,
    (rounds_sub ha.wellFormed hb.wellFormed).returns,
    (rounds_mul ha.wellFormed hb.wellFormed).returns, ?_, ?_, ?_⟩
  · intro hzero
    have hisZero : b.isZero = true := isZero_iff.mpr (value_eq_zero_iff.mp hzero)
    exact ⟨if_pos hisZero, if_pos hisZero⟩
  · intro hne
    have hcoefficient : b.coefficient ≠ 0 := value_eq_zero_iff.not.mp hne
    obtain ⟨r, hr, hexact, hrounds⟩ := rounds_rem ha.wellFormed hb.wellFormed hcoefficient
    have hreturns := hrounds.returns
    rw [hexact] at hreturns
    exact ⟨(rounds_div ha.wellFormed hb.wellFormed hcoefficient).returns, r, hr, hreturns⟩
  · intro n
    exact ⟨fun h => (Numeral.read_text h).1, fun h => (Numeral.read_text h).2,
      Numeral.read_text_eq_malformed⟩

/-- The numeral `-1_0.5E+3`. -/
def Numeral.sample : Numeral where
  sign := .minus
  whole := ['1', '_', '0']
  fraction := some ['5']
  exponent := some (.of 3)
  isRow := by simp [Char.isDigit]
  starts := ⟨'1', _, rfl, rfl⟩

theorem third_is_correctly_rounded :
    Returns ((ofInt64 1).div? (ofInt64 3)) (roundTo precision (1 / 3))
      ∧ ∃ d, read Numeral.sample.text = .ok d ∧ d.value = -10500 := by
  have hone : (ofInt64 1).value = 1 := by norm_num [value, ofInt64, show Int64.toInt 1 = 1 from rfl]
  have hthree : (ofInt64 3).value = 3 := by norm_num [value, ofInt64, show Int64.toInt 3 = 3 from rfl]
  have hsample : Numeral.sample.value = Decimal.value ⟨-105, -2⟩ := by
    rw [← Numeral.value_parts]
    rfl
  have hround : roundTo precision Numeral.sample.value = Decimal.value ⟨-105, -2⟩ := by
    rw [hsample, roundTo_value (by decide)]
  have hin : ¬IsOutOfRange (Decimal.value ⟨-105, -2⟩) := fun hout => not_inRange_iff.mpr hout (by decide)
  obtain ⟨-, -, -, -, hdiv, hread⟩ := decimals_are_correctly_rounded (.ofInt64 1) (.ofInt64 3)
  obtain ⟨-, hheld, -⟩ := hread Numeral.sample
  rw [hone, hthree] at hdiv
  rw [hround] at hheld
  refine ⟨(hdiv (by norm_num)).1, ?_⟩
  obtain ⟨d, hd, hvalue⟩ := hheld (by decide) hin
  exact ⟨d, hd, hvalue.trans (by norm_num [Decimal.value])⟩

/-- Two decimals are the same exactly if they have one value. -/
theorem same_iff_value {a b : Decimal} : a.same b = true ↔ a.value = b.value := by
  have ha := le_max_left a.scale b.scale
  have hb := le_max_right a.scale b.scale
  rw [same_iff ha hb, ← coefficientAt_mul ha, ← coefficientAt_mul hb, mul_left_inj' (by positivity),
    Int.cast_inj]

/-- **The text of a decimal is exact**: it is read as a decimal of the same value. -/
theorem decimal_text_is_exact {d : Decimal} (hd : Built d) :
    ∃ d', read d.render = .ok d' ∧ d'.value = d.value ∧ d'.same d = true := by
  have h := hd.wellFormed
  obtain ⟨n, htext, hvalue, hheld⟩ := exists_numeral_render h
  -- a carry may have left 35 digits, but then a power of ten, which rounding does not change either
  have hround : roundTo precision n.value = d.value := by
    rw [hvalue, roundTo_value h.natAbs_le]
  obtain ⟨-, hread⟩ := Numeral.read_text hheld
  rw [htext, hround] at hread
  obtain ⟨d', hd', hsame⟩ := hread fun hout => not_inRange_iff.mpr hout h.inRange
  exact ⟨d', hd', hsame, same_iff_value.mpr hsame⟩

/-- The power of ten that a carry leaves, which has 35 digits. -/
def carried : Decimal := ⟨10 ^ 34, 0⟩

theorem read_carried : read "9999999999999999999999999999999999.5" = .ok carried := rfl

theorem carried_text_is_exact :
    Built carried
      ∧ ∃ d', read carried.render = .ok d' ∧ d'.value = carried.value ∧ d'.same carried = true :=
  ⟨.read read_carried, decimal_text_is_exact (.read read_carried)⟩

end Decimal

end ConstNarrow
