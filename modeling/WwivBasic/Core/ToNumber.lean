import Mathlib.Algebra.Order.Ring.Int
import Mathlib.Data.List.TakeWhile
import Mathlib.Tactic.SplitIfs
import WwivBasic.Core.Strings
import WwivBasic.Foundations.StickyFlag

/-!
# `to_number` at every integer type

`core/strings.h` has two overloads of `to_number<T>`, through `strtol` for a signed `T` and
through `strtoul` for an unsigned one. Both take `errno == ERANGE` for an overflow of their own,
and `errno` keeps what an earlier call of the library left in it.

## Main definitions

* `IntegerType`: a type by its `numeric_limits`
* `strtoul`, `toNumberUnsigned`, `toNumberAs`: the second overload, and the one a type selects
* `toNumbers`: calls one after the other
* `OutOfRange`, `numeral`: what decides whether calls interact
* `IntegerText`: an optional minus sign and decimal digits
* `leadingNumber`, `leadingDigits`: the number that a text begins with

## Main results

* `toNumbers_eq_run`: `errno` is a sticky flag
* `toNumberAs_eq_zero_iff`: when a call in a fresh program returns zero
* `toNumberAs_text`: the number read of decimal digits with a sign
-/

namespace WwivBasic

/-- An integer type, by `std::numeric_limits`. -/
structure IntegerType where
  signed : Bool
  /-- `digits`: the bits apart from the sign. -/
  digits : ℕ
  digits_pos : 0 < digits

namespace IntegerType

/-- `min()`. -/
def min (T : IntegerType) : Int := if T.signed then -2 ^ T.digits else 0

/-- `max()`. -/
def max (T : IntegerType) : Int := 2 ^ T.digits - 1

/-- `int`. -/
def int : IntegerType := ⟨true, 31, by decide⟩

theorem max_pos (T : IntegerType) : 0 < T.max := by
  have h : (1 : Int) < 2 ^ T.digits := one_lt_pow₀ one_lt_two T.digits_pos.ne'
  unfold max
  omega

theorem min_neg {T : IntegerType} (h : T.signed = true) : T.min < 0 := by
  have hpos : (0 : Int) < 2 ^ T.digits := pow_pos two_pos _
  rw [min, if_pos h]
  omega

theorem min_of_not_signed {T : IntegerType} (h : ¬ T.signed = true) : T.min = 0 := if_neg h

end IntegerType

/-- The greatest `unsigned long`, 64 bits wide. -/
def ulongMax : Int := 18446744073709551615

/-- `strtoul(s, &end, 10)`: a minus sign negates the result in `unsigned long`. -/
def strtoul (s : Str) : Strtol :=
  let (sign, rest) := readSign (s.dropWhile isSpace)
  let digits := rest.takeWhile Char.isDigit
  let n : Int := digitsValue 0 digits
  { value := if ulongMax < n then ulongMax else sign * n % (ulongMax + 1)
    converted := !digits.isEmpty
    erange := ulongMax < n }

/-- `to_number<T>(s)` for an unsigned `T`. -/
def toNumberUnsigned (lo hi : Int) (s : Str) (errno : Bool) : Int × Bool :=
  let result := strtoul s
  let errno := errno || result.erange
  (if errno then 0 else clamp lo hi result.value, errno)

/-- `to_number<T>(s)`, with the `errno` before and after it. -/
def toNumberAs (T : IntegerType) (s : Str) (errno : Bool) : Int × Bool :=
  if T.signed then toNumber T.min T.max s errno else toNumberUnsigned T.min T.max s errno

/-- The results of calls one after the other. -/
def toNumbers (errno : Bool) : List (IntegerType × Str) → List Int
  | [] => []
  | (T, s) :: calls => (toNumberAs T s errno).1 :: toNumbers (toNumberAs T s errno).2 calls

/-! ## What a text denotes -/

/-- The decimal digits that `strtol` and `strtoul` read of a text, as a number. -/
def numeral (s : Str) : ℕ :=
  digitsValue 0 ((readSign (s.dropWhile isSpace)).2.takeWhile Char.isDigit)

/-- What the library function of the type reports of the text. -/
def strtolAs (T : IntegerType) (s : Str) : Strtol := if T.signed then strtol s else strtoul s

/-- The number of the text is out of the range of `long`, or of `unsigned long` when the type is
unsigned. -/
def OutOfRange (c : IntegerType × Str) : Prop := (strtolAs c.1 c.2).erange = true

instance : DecidablePred OutOfRange := fun _ => inferInstanceAs (Decidable (_ = true))

theorem toNumberAs_eq (T : IntegerType) (s : Str) (errno : Bool) : toNumberAs T s errno =
    (if errno || (strtolAs T s).erange then 0 else clamp T.min T.max (strtolAs T s).value,
      errno || (strtolAs T s).erange) := by
  by_cases hT : T.signed = true
  · rw [toNumberAs, strtolAs, if_pos hT, if_pos hT, toNumber]
  · rw [toNumberAs, strtolAs, if_neg hT, if_neg hT, toNumberUnsigned]

theorem strtoul_value (s : Str) : (strtoul s).value =
    if ulongMax < (numeral s : Int) then ulongMax
    else (readSign (s.dropWhile isSpace)).1 * numeral s % (ulongMax + 1) := rfl

/-- `to_number`, with `errno` as the flag. -/
def toNumberFlag : StickyFlag (IntegerType × Str) Int where
  raises c := (strtolAs c.1 c.2).erange
  value c := clamp c.1.min c.1.max (strtolAs c.1 c.2).value
  masked := 0

theorem toNumberAs_eq_step (c : IntegerType × Str) (errno : Bool) :
    toNumberAs c.1 c.2 errno = toNumberFlag.step errno c := toNumberAs_eq c.1 c.2 errno

theorem toNumbers_eq_run (errno : Bool) (calls : List (IntegerType × Str)) :
    toNumbers errno calls = toNumberFlag.run errno calls := by
  induction calls generalizing errno with
  | nil => rfl
  | cons c calls ih => rw [toNumbers, ih, toNumberAs_eq_step, StickyFlag.run]

theorem readSign_fst (s : Str) : (readSign s).1 = 1 ∨ (readSign s).1 = -1 := by
  unfold readSign
  split <;> simp

/-- A number is clamped to zero only if it is zero, or negative while the range is not. -/
theorem clamp_eq_zero_iff {lo hi n : Int} (hhi : 0 < hi) (hn : lo < 0 ∨ lo = 0 ∧ 0 ≤ n) :
    clamp lo hi n = 0 ↔ n = 0 := by
  unfold clamp
  split_ifs <;> omega

theorem strtol_value_eq_zero_iff (s : Str) : (strtol s).value = 0 ↔ numeral s = 0 := by
  rw [strtol, numeral, clamp_eq_zero_iff (by decide) (.inl (by decide))]
  rcases readSign_fst (s.dropWhile isSpace) with h | h <;> rw [h] <;> omega

theorem strtoul_value_nonneg (s : Str) : 0 ≤ (strtoul s).value := by
  rw [strtoul_value]
  split_ifs
  · exact (by decide : 0 ≤ ulongMax)
  · exact Int.emod_nonneg _ (by decide : ulongMax + 1 ≠ 0)

theorem strtoul_value_eq_zero_iff {s : Str} (h : ¬ (strtoul s).erange = true) :
    (strtoul s).value = 0 ↔ numeral s = 0 := by
  have hn : ¬ ulongMax < (numeral s : Int) := by simpa [strtoul, numeral] using h
  rw [strtoul_value, if_neg hn]
  unfold ulongMax at hn ⊢
  rcases readSign_fst (s.dropWhile isSpace) with h | h <;> rw [h] <;> omega

/-- In a fresh program, `to_number` returns zero for a text that is out of range, and for one that
denotes zero or nothing. -/
theorem toNumberAs_eq_zero_iff (c : IntegerType × Str) :
    (toNumberAs c.1 c.2 false).1 = 0 ↔ OutOfRange c ∨ numeral c.2 = 0 := by
  obtain ⟨T, s⟩ := c
  rw [toNumberAs_eq]
  by_cases hout : OutOfRange (T, s)
  · simp [hout, show (strtolAs T s).erange = true from hout]
  · have herange : ¬ (strtolAs T s).erange = true := hout
    simp only [Bool.false_or, if_neg herange, hout, false_or]
    by_cases hT : T.signed = true
    · rw [clamp_eq_zero_iff T.max_pos (.inl (IntegerType.min_neg hT)), strtolAs, if_pos hT,
        strtol_value_eq_zero_iff]
    · rw [strtolAs, if_neg hT] at herange ⊢
      rw [clamp_eq_zero_iff T.max_pos (.inr ⟨IntegerType.min_of_not_signed hT,
        strtoul_value_nonneg s⟩), strtoul_value_eq_zero_iff herange]

/-- Each call after one that is out of range is out of range too, or of a text that denotes zero
or nothing. -/
def Steady (calls : List (IntegerType × Str)) : Prop :=
  calls.Pairwise fun c d => OutOfRange c → OutOfRange d ∨ numeral d.2 = 0

theorem toNumbers_eq_map_iff (calls : List (IntegerType × Str)) :
    toNumbers false calls = calls.map (fun c => (toNumberAs c.1 c.2 false).1) ↔ Steady calls := by
  have hfresh : (fun c : IntegerType × Str => (toNumberAs c.1 c.2 false).1) = toNumberFlag.fresh :=
    funext fun c => congrArg Prod.fst (toNumberAs_eq_step c false)
  rw [hfresh, toNumbers_eq_run, StickyFlag.run_eq_map_fresh_iff]
  refine List.Pairwise.iff fun c d => imp_congr_right fun _ => ?_
  rw [← toNumberAs_eq_zero_iff, toNumberAs_eq_step]
  rfl

/-! ## Numbers as texts -/

theorem digitsValue_eq (s : Str) (acc : ℕ) : digitsValue acc s = Nat.ofDigitChars 10 s acc := by
  induction s generalizing acc with
  | nil => exact Nat.ofDigitChars_nil.symm
  | cons c s ih =>
    rw [Nat.ofDigitChars_cons]
    exact ih _

theorem isSpace_of_isDigit {c : Char} (h : c.isDigit = true) : isSpace c = false := by
  simp only [Char.isDigit, Bool.and_eq_true, decide_eq_true_eq, ge_iff_le,
    UInt32.le_iff_toNat_le] at h
  simp only [isSpace, Bool.or_eq_false_iff, decide_eq_false_iff_not, Bool.and_eq_false_iff]
  constructor
  · rintro rfl
    exact absurd h.1 (by decide)
  · exact .inr fun hle => absurd (Nat.le_trans h.1 hle) (by decide)

/-- `strtol` reads all of a text of decimal digits. -/
theorem strtol_digits {s : Str} (hdigits : ∀ c ∈ s, c.isDigit = true) :
    strtol s = ⟨clamp longMin longMax (digitsValue 0 s), !s.isEmpty,
      decide (longMax < (digitsValue 0 s : Int))⟩ := by
  have hspace : s.dropWhile isSpace = s := by
    cases s with
    | nil => rfl
    | cons c s =>
      rw [List.dropWhile_cons_of_neg]
      simp [isSpace_of_isDigit (hdigits c List.mem_cons_self)]
  have hsign : readSign s = (1, s) := by
    unfold readSign
    split
    · exact absurd (hdigits '-' List.mem_cons_self) (by decide)
    · exact absurd (hdigits '+' List.mem_cons_self) (by decide)
    · rfl
  have hrun : s.takeWhile Char.isDigit = s := List.takeWhile_eq_self_iff.mpr hdigits
  simp only [strtol, hspace, hsign, hrun, one_mul, Strtol.mk.injEq, true_and]
  -- A text without a sign is not below the range.
  rw [decide_eq_false (by unfold longMin; omega), Bool.false_or]

/-- A text of digits that does not fit `long` is read as zero, and what does not fit `int` as its
greatest number. -/
theorem toNumber_digits {s : Str} (hdigits : ∀ c ∈ s, c.isDigit = true) (errno : Bool) :
    (toNumber intMin intMax s errno).1 =
      if errno = true ∨ longMax < (digitsValue 0 s : Int) then 0
      else if intMax < (digitsValue 0 s : Int) then intMax else digitsValue 0 s := by
  rw [toNumber, strtol_digits hdigits]
  simp only [Bool.or_eq_true, decide_eq_true_eq]
  split_ifs with hout hlarge
  · rfl
  · simp only [clamp, longMin, longMax, intMin, intMax] at *
    split_ifs <;> omega
  · simp only [clamp, longMin, longMax, intMin, intMax] at *
    split_ifs <;> omega

/-- Decimal digits denote their number. -/
theorem strtol_toDigits {n : ℕ} (hn : (n : Int) ≤ longMax) :
    strtol (Nat.toDigits 10 n) = ⟨n, true, false⟩ := by
  have hdigits : ∀ c ∈ Nat.toDigits 10 n, c.isDigit = true :=
    fun c hc => Nat.isDigit_of_mem_toDigits (by decide) (by decide) hc
  have hvalue : digitsValue 0 (Nat.toDigits 10 n) = n := by
    rw [digitsValue_eq, Nat.ofDigitChars_ten_toDigits]
  have hclamp : clamp longMin longMax n = n := by
    unfold clamp
    rw [if_neg (not_lt.mpr hn), if_neg (by unfold longMin; omega)]
  have hnonempty : (Nat.toDigits 10 n).isEmpty = false := by simp [Nat.toDigits_ne_nil]
  rw [strtol_digits hdigits, hvalue, hclamp, hnonempty, decide_eq_false (not_lt.mpr hn),
    Bool.not_false]

theorem toNumber_toDigits {n : ℕ} (hn : (n : Int) ≤ intMax) (errno : Bool) :
    toNumber intMin intMax (Nat.toDigits 10 n) errno = (if errno then 0 else (n : Int), errno) := by
  have hlong : (n : Int) ≤ longMax := le_trans hn (by decide)
  have hclamp : clamp intMin intMax n = n := by
    unfold clamp
    rw [if_neg (not_lt.mpr hn), if_neg]
    unfold intMin
    omega
  rw [toNumber, strtol_toDigits hlong]
  simp [hclamp]

/-! ## Numbers with a sign -/

/-- A text of an optional `-` and at least one decimal digit. -/
structure IntegerText where
  negative : Bool
  digits : Str
  ne_nil : digits ≠ []
  isDigit : ∀ c ∈ digits, c.isDigit = true

namespace IntegerText

def text (n : IntegerText) : Str := if n.negative then '-' :: n.digits else n.digits

/-- The number it denotes. -/
def value (n : IntegerText) : Int :=
  if n.negative then -(Nat.ofDigitChars 10 n.digits 0 : Int) else Nat.ofDigitChars 10 n.digits 0

end IntegerText

/-- `strtol` reads all of it, and clamps the number to `long`. -/
theorem strtol_text (n : IntegerText) :
    strtol n.text =
      ⟨clamp longMin longMax n.value, true, n.value < longMin || longMax < n.value⟩ := by
  obtain ⟨negative, digits, hne, hdigits⟩ := n
  have hconverted : (!digits.isEmpty) = true := by simp [hne]
  unfold IntegerText.text IntegerText.value
  cases negative with
  | false =>
    have hlow : ¬ (digitsValue 0 digits : Int) < longMin := by
      unfold longMin
      omega
    simp only [Bool.false_eq_true, if_false, strtol_digits hdigits, hconverted, ← digitsValue_eq,
      decide_eq_false hlow, Bool.false_or]
  | true =>
    -- The sign ends the white space, and the digits are read after it.
    have hspace : ('-' :: digits).dropWhile isSpace = '-' :: digits :=
      List.dropWhile_cons_of_neg (by decide)
    have hrun : digits.takeWhile Char.isDigit = digits := List.takeWhile_eq_self_iff.mpr hdigits
    simp only [if_true, strtol, hspace, readSign, hrun, hconverted, ← digitsValue_eq, neg_mul,
      one_mul]

theorem clamp_clamp {lo hi lo' hi' n : Int} (hlo : lo ≤ n) (hhi : n ≤ hi) :
    clamp lo' hi' (clamp lo hi n) = clamp lo' hi' n := by
  have hn : clamp lo hi n = n := by
    unfold clamp
    rw [if_neg (not_lt.mpr hhi), if_neg (not_lt.mpr hlo)]
  rw [hn]

theorem clamp_mono {lo hi m n : Int} (hrange : lo ≤ hi) (h : m ≤ n) :
    clamp lo hi m ≤ clamp lo hi n := by
  unfold clamp
  split_ifs <;> omega

/-- A number in the range of `long`. -/
def InLongRange (n : Int) : Prop := longMin ≤ n ∧ n ≤ longMax

instance : DecidablePred InLongRange := fun _ => inferInstanceAs (Decidable (_ ∧ _))

theorem erange_eq (n : Int) : (n < longMin || longMax < n) = !decide (InLongRange n) := by
  by_cases h : InLongRange n
  · rw [decide_eq_true h]
    simp [not_lt.mpr h.1, not_lt.mpr h.2]
  · rw [decide_eq_false h]
    rw [InLongRange, not_and_or, not_le, not_le] at h
    simpa using h

/-- **`to_number` clamps a number of the range of `long`** to the range of the type, so that it
is monotone there, and makes 0 of every other number. -/
theorem toNumberAs_text (T : IntegerType) (hT : T.signed = true) :
    (∀ n : IntegerText, (toNumberAs T n.text false).1 =
      if InLongRange n.value then clamp T.min T.max n.value else 0) ∧
    ∀ m n : IntegerText, InLongRange m.value → InLongRange n.value → m.value ≤ n.value →
      (toNumberAs T m.text false).1 ≤ (toNumberAs T n.text false).1 := by
  have hvalue : ∀ n : IntegerText, (toNumberAs T n.text false).1 =
      if InLongRange n.value then clamp T.min T.max n.value else 0 := by
    intro n
    rw [toNumberAs_eq, strtolAs, if_pos hT, strtol_text]
    dsimp only
    rw [erange_eq]
    by_cases hrange : InLongRange n.value
    · simp only [hrange, decide_true, Bool.not_true, Bool.or_false, Bool.false_eq_true, if_false,
        if_true]
      exact clamp_clamp hrange.1 hrange.2
    · simp [hrange]
  refine ⟨hvalue, fun m n hm hn hle => ?_⟩
  rw [hvalue, hvalue, if_pos hm, if_pos hn]
  exact clamp_mono ((IntegerType.min_neg hT).trans T.max_pos).le hle

/-- `-129` as an `int8_t`. -/
theorem toNumberAs_text_int8 : (toNumberAs ⟨true, 7, by decide⟩ "-129".toList false).1 = -128 :=
  (toNumberAs_text ⟨true, 7, by decide⟩ rfl).1 ⟨true, "129".toList, by decide, by decide⟩

/-- The greatest number of `long`, and the one after it. -/
def longEdge : IntegerText × IntegerText :=
  (⟨false, "9223372036854775807".toList, by decide, by decide⟩,
    ⟨false, "9223372036854775808".toList, by decide, by decide⟩)

/-- The first is read as the greatest `int`, and the greater one as 0. -/
theorem toNumberAs_longEdge :
    (toNumberAs .int longEdge.1.text false).1 = 2147483647 ∧
    (toNumberAs .int longEdge.2.text false).1 = 0 ∧
    clamp IntegerType.int.min IntegerType.int.max longEdge.2.value = 2147483647 ∧
    longEdge.1.value < longEdge.2.value := by
  decide

/-! ## Texts that begin with a number -/

/-- The number that a text begins with: its sign, and its decimal digits. -/
def leadingNumber (s : Str) : Int := (readSign (s.dropWhile isSpace)).1 * numeral s

/-- The number that the digits at the front of a text denote. -/
def leadingDigits (s : Str) : ℕ := digitsValue 0 (s.takeWhile Char.isDigit)

/-- Where a text begins with a digit, no white space and no sign are read. -/
theorem leadingNumber_eq {body : Str} (h : body.head?.any Char.isDigit = true) :
    leadingNumber body = leadingDigits body := by
  rcases body with - | ⟨c, body⟩
  · simp at h
  · have hc : c.isDigit = true := by simpa using h
    have hspace : (c :: body).dropWhile isSpace = c :: body := by
      rw [List.dropWhile_cons_of_neg]
      simp [isSpace_of_isDigit hc]
    have hsign : readSign (c :: body) = (1, c :: body) := by
      unfold readSign
      split
      · rename_i heq
        rw [(List.cons.inj heq).1] at hc
        exact absurd hc (by decide)
      · rename_i heq
        rw [(List.cons.inj heq).1] at hc
        exact absurd hc (by decide)
      · rfl
    rw [leadingNumber, numeral, hspace, hsign, one_mul]
    rfl

/-- What follows the digits is not looked at. -/
theorem toNumber_eq (s : Str) (errno : Bool) : toNumber intMin intMax s errno =
    (if errno = true ∨ ¬InLongRange (leadingNumber s) then 0
      else clamp intMin intMax (leadingNumber s),
      errno || !decide (InLongRange (leadingNumber s))) := by
  have hstrtol : strtol s = ⟨clamp longMin longMax (leadingNumber s),
      !((readSign (s.dropWhile isSpace)).2.takeWhile Char.isDigit).isEmpty,
      leadingNumber s < longMin || longMax < leadingNumber s⟩ := rfl
  rw [toNumber, hstrtol]
  dsimp only
  rw [erange_eq]
  by_cases hrange : InLongRange (leadingNumber s)
  · simp only [hrange, decide_true, Bool.not_true, Bool.or_false, not_true_eq_false, or_false,
      clamp_clamp hrange.1 hrange.2]
  · simp [hrange]

end WwivBasic
