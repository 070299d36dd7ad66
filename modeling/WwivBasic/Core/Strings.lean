import WwivBasic.Foundations.Occurrences
import WwivBasic.Foundations.OrderedMap

/-!
# Strings, names and numbers

A `std::string` is the list of its `char`s. `core/stl.h` orders the keys of every map of the
interpreter by `ci_less`, that is by `strcasecmp` in the C locale: the strings up to their
first NUL, with the ASCII letters folded. `core/strings.h` reads the numbers of a program with
`to_number`, through `strtol` and the global `errno`; `src/utils.cpp` splits the package off a
name.

## Main definitions

* `strcasecmp`, `CiMap`: the comparison of names, and the maps it orders
* `strtol`, `toNumber`: the number a text starts with, clamped to a range
* `removeQuotes`, `splitPackageFromId`: the texts of `STRING` and `ID` tokens
* `findText`: where a text occurs first
* `SameLetters`: two texts that differ in the case of their letters only

## Main results

* `strcasecmp_eq_iff`: names compare equal exactly when they fold to one text
* `SameLetters.strcasecmp`, `SameLetters.splitPackageFromId`: a change of case is not seen by the
  comparison, and passes through the splitting of a name
-/

namespace WwivBasic

/-- A `std::string`, as its `char`s. -/
abbrev Str := List Char

/-- The characters of a text are tried, not all that there are as in a finite type. -/
instance (p : Char → Prop) [DecidablePred p] (s : Str) : Decidable (∀ c ∈ s, p c) :=
  List.decidableBAll p s

/-! ## `strcasecmp` and `ci_less` -/

/-- `c_str()` as the C library reads it: the text up to the first NUL. -/
def cStr (s : Str) : Str := s.takeWhile (· ≠ '\x00')

/-- The text a name is compared by. -/
def fold (s : Str) : Str := (cStr s).map Char.toLower

/-- `strcasecmp`: the sign of the difference of the first two folded characters that differ. -/
def strcasecmp : Str → Str → Ordering := compareOn fold

instance : Std.TransCmp strcasecmp := inferInstanceAs (Std.TransCmp (compareOn fold))

theorem strcasecmp_eq_iff {a b : Str} : strcasecmp a b = .eq ↔ fold a = fold b :=
  Std.LawfulEqOrd.compare_eq_iff_eq (a := fold a)

@[simp] theorem strcasecmp_self (a : Str) : strcasecmp a a = .eq := strcasecmp_eq_iff.mpr rfl

/-- `std::map<std::string, V, ci_less>`. -/
abbrev CiMap (α : Type) := OrderedMap Str strcasecmp α

/-! ## `strtol` and `to_number` -/

/-- `isspace` in the C locale. -/
def isSpace (c : Char) : Bool := c = ' ' || ('\t' ≤ c && c ≤ '\r')

/-- The sign `strtol` reads, and what is left of the text. -/
def readSign : Str → Int × Str
  | '-' :: s => (-1, s)
  | '+' :: s => (1, s)
  | s => (1, s)

/-- The value of a run of decimal digits, continuing `acc`. -/
def digitsValue (acc : Nat) : Str → Nat
  | [] => acc
  | c :: s => digitsValue (10 * acc + (c.toNat - '0'.toNat)) s

/-- The range of `long`, 64 bits wide. -/
def longMin : Int := -9223372036854775808

@[inherit_doc longMin]
def longMax : Int := 9223372036854775807

/-- The range of `int`, 32 bits wide. -/
def intMin : Int := -2147483648

@[inherit_doc intMin]
def intMax : Int := 2147483647

/-- `static_cast<int>`: the number modulo 2^32, as an `int`. -/
def castInt (i : Int) : Int := i.bmod 4294967296

/-- A cast to `int`, by the cast to `unsigned int`. -/
theorem castInt_eq_ite (i : Int) : castInt i =
    if i % 4294967296 < 2147483648 then i % 4294967296 else i % 4294967296 - 4294967296 := by
  rw [castInt, Int.bmod_def]
  rfl

theorem castInt_eq_self_of_le {i : Int} (h : intMin ≤ i) (hi : i ≤ intMax) : castInt i = i := by
  rw [intMin] at h
  rw [intMax] at hi
  rw [castInt_eq_ite]
  omega

theorem castInt_eq_self {i : Int} (h : 0 ≤ i) (hi : i ≤ intMax) : castInt i = i := by
  apply castInt_eq_self_of_le ?_ hi
  rw [intMin]
  omega

theorem castInt_natCast_le (k : ℕ) : castInt k ≤ k := by
  rw [castInt_eq_ite]
  omega

/-- The least of `hi` and the greatest of `lo` and `n`. -/
def clamp (lo hi n : Int) : Int := if hi < n then hi else if n < lo then lo else n

/-- What `strtol` reports of a text. -/
structure Strtol where
  /-- The value returned: clamped to `long`, and 0 when nothing was converted. -/
  value : Int
  /-- Whether at least one digit was converted. -/
  converted : Bool
  /-- Whether the value was out of the range of `long`, so that `errno` is set to `ERANGE`. -/
  erange : Bool
  deriving DecidableEq

/-- `strtol(s, &end, 10)`: white space, an optional sign, then decimal digits. -/
def strtol (s : Str) : Strtol :=
  let (sign, rest) := readSign (s.dropWhile isSpace)
  let digits := rest.takeWhile Char.isDigit
  let n := sign * digitsValue 0 digits
  { value := clamp longMin longMax n
    converted := !digits.isEmpty
    erange := n < longMin || longMax < n }

/-- `to_number<T>(s)` for a signed `T` with range `lo..hi`. The flag is `errno == ERANGE`, which
the function reads without having cleared it, and the result is the number with the flag it
leaves behind. -/
def toNumber (lo hi : Int) (s : Str) (errno : Bool) : Int × Bool :=
  let result := strtol s
  let errno := errno || result.erange
  (if errno then 0 else clamp lo hi result.value, errno)

/-! ## The texts of tokens -/

/-- `remove_quotes`: `"s"` to `s`. -/
def removeQuotes (s : Str) : Str :=
  if s.length < 2 then s else if s.length = 2 then [] else s.dropLast.drop 1

/-- The text after the last `.` of a text that has one, and what stands before that `.`. -/
def splitLastDot : Str → Option (Str × Str)
  | [] => none
  | c :: s =>
    match splitLastDot s with
    | some (pkg, id) => some (c :: pkg, id)
    | none => if c = '.' then some ([], s) else none

/-- `split_package_from_id`: `foo.bar.baz` to `foo.bar` and `baz`. -/
def splitPackageFromId (s : Str) : Str × Str := (splitLastDot s).getD ([], s)

/-! ## Letters and digits -/

theorem not_isAlpha_of_isDigit {c : Char} (hc : c.isDigit = true) : ¬ c.isAlpha = true := by
  have hdigit : '0'.val ≤ c.val ∧ c.val ≤ '9'.val := by simpa [Char.isDigit] using hc
  intro ha
  rcases Bool.or_eq_true_iff.mp ha with h | h
  · have hupper : 'A'.val ≤ c.val ∧ c.val ≤ 'Z'.val := of_decide_eq_true h
    exact absurd (UInt32.le_trans hupper.1 hdigit.2) (by decide)
  · have hlower : 'a'.val ≤ c.val := of_decide_eq_true (Bool.and_eq_true_iff.mp h).1
    exact absurd (UInt32.le_trans hlower hdigit.2) (by decide)

/-! ## Searching -/

/-- `std::string::find`. -/
def findText (pattern : Str) : Str → Option ℕ
  | [] => if pattern = [] then some 0 else none
  | c :: s => if pattern <+: c :: s then some 0 else (findText pattern s).map (· + 1)

theorem firstAt_of_findText {pattern s : Str} {k : ℕ} (h : findText pattern s = some k) :
    Occurrences.FirstAt pattern s k := by
  induction s generalizing k with
  | nil =>
    by_cases hp : pattern = []
    · rw [findText, if_pos hp] at h
      obtain rfl := Option.some.inj h
      exact Occurrences.firstAt_zero (hp ▸ List.nil_prefix)
    · rw [findText, if_neg hp] at h
      exact absurd h.symm (Option.some_ne_none k)
  | cons c s ih =>
    by_cases hp : pattern <+: c :: s
    · rw [findText, if_pos hp] at h
      obtain rfl := Option.some.inj h
      exact Occurrences.firstAt_zero hp
    · rw [findText, if_neg hp] at h
      obtain ⟨j, hj, rfl⟩ := Option.map_eq_some_iff.mp h
      exact (ih hj).cons hp

theorem not_isInfix_of_findText {pattern s : Str} (h : findText pattern s = none) :
    ¬pattern <:+: s := by
  induction s with
  | nil =>
    rw [List.infix_nil]
    rintro rfl
    exact Option.some_ne_none 0 h
  | cons c s ih =>
    by_cases hp : pattern <+: c :: s
    · rw [findText, if_pos hp] at h
      exact absurd h (Option.some_ne_none 0)
    · rw [findText, if_neg hp, Option.map_eq_none_iff] at h
      rw [List.infix_cons_iff]
      exact not_or.mpr ⟨hp, ih h⟩

theorem findText_eq_none_iff {pattern s : Str} : findText pattern s = none ↔ ¬pattern <:+: s := by
  refine ⟨not_isInfix_of_findText, fun h => ?_⟩
  cases hfind : findText pattern s with
  | none => rfl
  | some k => exact absurd (firstAt_of_findText hfind).isInfix h

theorem findText_eq_some_iff {pattern s : Str} {k : ℕ} :
    findText pattern s = some k ↔ Occurrences.FirstAt pattern s k := by
  refine ⟨firstAt_of_findText, fun h => ?_⟩
  cases hfind : findText pattern s with
  | none => exact absurd h.isInfix (not_isInfix_of_findText hfind)
  | some j => rw [(firstAt_of_findText hfind).unique h]

theorem findText_eq_none {c : Char} {pattern s : Str} (h : c ∉ s) :
    findText (c :: pattern) s = none :=
  findText_eq_none_iff.mpr fun hin => h (hin.mem (List.mem_cons_self ..))

/-! ## Texts that differ in the case of their letters -/

/-- The same text, up to the case of its letters. -/
def SameLetters (a b : Str) : Prop := a.map Char.toLower = b.map Char.toLower

theorem SameLetters.refl (a : Str) : SameLetters a a := rfl

/-- A character below the letters folds to itself, and no other character folds to it. -/
theorem toLower_eq_iff {c d : Char} (hd : d.val < 'A'.val) : c.toLower = d ↔ c = d := by
  unfold Char.toLower
  split
  · rename_i hc
    have hlo : 65 ≤ c.val.toNat := hc.1
    have hhi : c.val.toNat ≤ 90 := hc.2
    have hd' : d.val.toNat < 65 := hd
    -- A letter folds to the character 32 above it, which is not below the letters.
    constructor
    · rintro rfl
      have hsum : (c.val + ('a'.val - 'A'.val)).toNat = c.val.toNat + 32 := by
        rw [UInt32.toNat_add, show ('a'.val - 'A'.val).toNat = 32 from rfl]
        omega
      dsimp only at hd'
      omega
    · rintro rfl
      omega
  · exact Iff.rfl

theorem fold_eq_takeWhile (s : Str) :
    fold s = (s.map Char.toLower).takeWhile (· ≠ '\x00') := by
  rw [List.takeWhile_map, fold, cStr]
  congr 2
  ext c
  simp [toLower_eq_iff (d := '\x00') (by decide)]

/-- Names that differ in case only compare equal. -/
theorem SameLetters.strcasecmp {a b : Str} (h : SameLetters a b) :
    WwivBasic.strcasecmp a b = .eq := by
  rw [strcasecmp_eq_iff, fold_eq_takeWhile, fold_eq_takeWhile, h]

theorem SameLetters.append {a a' b b' : Str} (h : SameLetters a a') (h' : SameLetters b b') :
    SameLetters (a ++ b) (a' ++ b') := by
  rw [SameLetters, List.map_append, List.map_append, h, h']

theorem splitLastDot_map_toLower (s : Str) :
    splitLastDot (s.map Char.toLower) =
      (splitLastDot s).map fun p => (p.1.map Char.toLower, p.2.map Char.toLower) := by
  induction s with
  | nil => rfl
  | cons c s ih =>
    rw [List.map_cons, splitLastDot, splitLastDot, ih]
    -- A dot of the rest comes after the first character, which counts only when there is none.
    cases splitLastDot s with
    | some p => rfl
    | none =>
      by_cases hc : c = '.' <;> simp [hc, toLower_eq_iff (c := c) (d := '.') (by decide)]

/-- A change of case passes through the splitting of a name. -/
theorem SameLetters.splitPackageFromId {a b : Str} (h : SameLetters a b) :
    SameLetters (WwivBasic.splitPackageFromId a).1 (WwivBasic.splitPackageFromId b).1 ∧
      SameLetters (WwivBasic.splitPackageFromId a).2 (WwivBasic.splitPackageFromId b).2 := by
  have hs := (splitLastDot_map_toLower a).symm.trans
    ((congrArg splitLastDot h).trans (splitLastDot_map_toLower b))
  unfold WwivBasic.splitPackageFromId
  cases ha : splitLastDot a <;> cases hb : splitLastDot b <;> rw [ha, hb] at hs <;>
    simp only [Option.map_none, Option.map_some, reduceCtorEq, Option.some.injEq,
      Prod.mk.injEq] at hs
  -- Neither name has a dot, and both packages are empty.
  · exact ⟨rfl, h⟩
  · exact hs

theorem SameLetters.removeQuotes {a b : Str} (h : SameLetters a b) :
    SameLetters (WwivBasic.removeQuotes a) (WwivBasic.removeQuotes b) := by
  have hl : a.length = b.length := by simpa using congrArg List.length h
  unfold WwivBasic.removeQuotes
  rw [hl]
  split_ifs
  · exact h
  · rfl
  · rw [SameLetters, List.map_drop, List.map_drop, List.map_dropLast, List.map_dropLast, h]

example : strcasecmp "Foo".toList "fOO".toList = .eq := by decide

example : splitPackageFromId "this.is.a.test".toList = ("this.is.a".toList, "test".toList) := by
  decide

end WwivBasic
