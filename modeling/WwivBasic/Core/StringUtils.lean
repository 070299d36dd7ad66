import Mathlib.Data.List.Basic
import WwivBasic.Core.Strings
import WwivBasic.Foundations.Consuming
import WwivBasic.Foundations.DelimitedLines

/-!
# Splitting, replacing and copying strings

`SplitString`, `JoinStrings`, `StringReplace`, `to_char_array` and `to_char_array_trim` of
`core/strings.cpp` and `core/strings.h`.

## Main definitions

* `splitString`, `joinStrings`: lines, taken apart and put together
* `stringReplace`: the loop that searches after what it inserted
* `toCharArray`, `toCharArrayTrim`: a string in an array of `char`s, and whether it is said to fit

## Main results

* `splitString_joinStrings`: the lines of joined lines
* `stringReplace_iff`: when the loop ends with every occurrence replaced
* `toCharArray_fits_iff`: when the answer tells a cut string from a whole one
-/

namespace WwivBasic

/-! ## Lines -/

/-- An iteration of `SplitString`. The last one takes what is left behind the last delimiter. -/
def splitStep (delims : Str) (skip_empty : Bool) (s : Str) : List Str × Str :=
  match s.findIdx? (· ∈ delims) with
  | some found =>
    (if 0 < found then [s.take found] else if skip_empty then [] else [[]], s.drop (found + 1))
  | none => (if s = [] then [] else [s], [])

/-- `SplitString`. -/
def splitString (original_string delims : Str) (skip_empty : Bool) : List Str :=
  Consuming.run (splitStep delims skip_empty) original_string

/-- `JoinStrings`. -/
def joinStrings (lines : List Str) (end_of_line : Str) : Str :=
  lines.foldl (fun out line => out ++ line ++ end_of_line) []

section Lines

variable {d : Char} {delims l s : Str} {lines : List Str} {skip_empty : Bool}

theorem consumes_splitStep : Consuming.Consumes (splitStep delims skip_empty) := by
  intro s hs
  have hpos := List.length_pos_of_ne_nil hs
  rw [splitStep]
  split
  · simp only [List.length_drop]
    omega
  · exact hpos

theorem joinStrings_eq_flatMap (lines : List Str) (end_of_line : Str) :
    joinStrings lines end_of_line = lines.flatMap (· ++ end_of_line) := by
  have hfold : ∀ out, lines.foldl (fun out line => out ++ line ++ end_of_line) out =
      out ++ lines.flatMap (· ++ end_of_line) := by
    induction lines with
    | nil => simp
    | cons line lines ih =>
      intro out
      rw [List.foldl_cons, ih, List.flatMap_cons]
      simp only [List.append_assoc]
  exact (hfold []).trans (List.nil_append _)

theorem joinStrings_cons (l : Str) (lines : List Str) (d : Char) :
    joinStrings (l :: lines) [d] = l ++ d :: joinStrings lines [d] := by
  rw [joinStrings_eq_flatMap, joinStrings_eq_flatMap, List.flatMap_cons, List.append_assoc]
  rfl

theorem findIdx?_of_not_mem (hl : d ∉ l) : l.findIdx? (· ∈ [d]) = none := by
  rw [List.findIdx?_eq_none_iff]
  intro c hc
  rw [decide_eq_false_iff_not, List.mem_singleton]
  rintro rfl
  exact hl hc

/-- An iteration takes the first line, with the delimiter after it. -/
theorem splitStep_append (hl : d ∉ l) (s : Str) : splitStep [d] skip_empty (l ++ d :: s) =
    (if l = [] ∧ skip_empty then [] else [l], s) := by
  have hfound : (l ++ d :: s).findIdx? (· ∈ [d]) = some l.length := by
    rw [List.findIdx?_append, findIdx?_of_not_mem hl, List.findIdx?_cons]
    simp
  rw [splitStep, hfound]
  cases l with
  | nil => cases skip_empty <;> rfl
  | cons c l => simp

theorem splitString_append (hl : d ∉ l) (s : Str) : splitString (l ++ d :: s) [d] skip_empty =
    (if l = [] ∧ skip_empty then [] else [l]) ++ splitString s [d] skip_empty := by
  have hne : l ++ d :: s ≠ [] := List.append_ne_nil_of_right_ne_nil l (List.cons_ne_nil d s)
  rw [splitString, Consuming.run_of_ne_nil consumes_splitStep hne, splitStep_append hl]
  rfl

/-- Splitting leaves the texts between the delimiters that are not empty. -/
theorem splitString_eq_filter (d : Char) (s : Str) : splitString s [d] true =
    ((DelimitedLines.lines d s).map (DelimitedLines.text d)).filter (· ≠ []) := by
  induction s using DelimitedLines.induction (d := d) with
  | nil => rfl
  | last l hl hne =>
    rw [splitString, Consuming.run_of_ne_nil consumes_splitStep hne, splitStep,
      findIdx?_of_not_mem hl, DelimitedLines.lines_last hl hne, List.map_singleton,
      DelimitedLines.text_of_not_mem hl]
    simp [hne, Consuming.run, Consuming.runUpTo]
  | line l s hl ih =>
    rw [splitString_append hl, ih, DelimitedLines.lines_line hl, List.map_cons,
      DelimitedLines.text_append hl]
    by_cases hl' : l = [] <;> simp [hl']

/-- A text without a delimiter is its only piece. -/
theorem splitString_of_not_mem (hl : d ∉ l) (hne : l ≠ []) : splitString l [d] true = [l] := by
  rw [splitString_eq_filter, DelimitedLines.lines_last hl hne, List.map_singleton,
    DelimitedLines.text_of_not_mem hl]
  simp [hne]

/-- No piece has a delimiter. -/
theorem not_mem_of_mem_splitString (hl : l ∈ splitString s [d] true) : d ∉ l := by
  rw [splitString_eq_filter] at hl
  obtain ⟨x, -, rfl⟩ := List.mem_map.mp (List.mem_of_mem_filter hl)
  exact DelimitedLines.not_mem_text d x

/-- The lines of joined lines, without the empty ones when these are to be skipped. -/
theorem splitString_joinStrings (h : ∀ l ∈ lines, d ∉ l) :
    splitString (joinStrings lines [d]) [d] false = lines ∧
      splitString (joinStrings lines [d]) [d] true = lines.filter (· ≠ []) := by
  induction lines with
  | nil => exact ⟨rfl, rfl⟩
  | cons l lines ih =>
    obtain ⟨hl, hrest⟩ := List.forall_mem_cons.mp h
    obtain ⟨hall, hskip⟩ := ih hrest
    rw [joinStrings_cons, splitString_append hl, splitString_append hl, hall, hskip]
    refine ⟨by simp, ?_⟩
    by_cases hempty : l = [] <;> simp [hempty]

theorem splitString_joinStrings_emptyLines :
    splitString (joinStrings [[], ['a'], [], ['b', 'c'], []] [',']) [','] false =
        [[], ['a'], [], ['b', 'c'], []] ∧
      splitString (joinStrings [[], ['a'], [], ['b', 'c'], []] [',']) [','] true =
        [[], ['a'], [], ['b', 'c'], []].filter (· ≠ []) :=
  splitString_joinStrings (by decide)

end Lines

/-! ## Replacing -/

/-- `std::string::find` from a position on. -/
def findFrom (pattern s : Str) (pos : ℕ) : Option ℕ :=
  if pos ≤ s.length then (findText pattern (s.drop pos)).map (· + pos) else none

/-- The loop of `StringReplace`, from `find(old_string, pos)` on, with `n` searches at most: `none`
if they do not suffice. -/
def replaceFrom (old_string new_string : Str) : ℕ → Str → ℕ → Option Str
  | 0, _, _ => none
  | n + 1, orig, pos =>
    match findFrom old_string orig pos with
    | none => some orig
    | some pos =>
      replaceFrom old_string new_string n
        (orig.take pos ++ new_string ++ orig.drop (pos + old_string.length))
        (pos + new_string.length)

/-- `StringReplace`. -/
def stringReplace (n : ℕ) (orig old_string new_string : Str) : Option Str :=
  replaceFrom old_string new_string n orig 0

/-- `fopen_compatible_mode`. -/
def fopenCompatibleMode (n : ℕ) (m : Str) : Option Str :=
  if 'd' ∈ m then stringReplace n m ['d'] ['t'] else some m

section Replacing

open Occurrences (FirstAt Replaced)

variable {old_string new_string orig s t front : Str} {n k : ℕ}

theorem findFrom_append (pattern front s : Str) :
    findFrom pattern (front ++ s) front.length =
      (findText pattern s).map (· + front.length) := by
  have hle : front.length ≤ (front ++ s).length := by simp
  rw [findFrom, if_pos hle, List.drop_left]

/-- What stands before the position stays, and the text after it is searched. -/
theorem replaceFrom_append (hold : old_string ≠ []) (hn : s.length < n) :
    ∃ t, replaceFrom old_string new_string n (front ++ s) front.length = some (front ++ t) ∧
      Replaced old_string new_string s t := by
  induction n generalizing front s with
  | zero => exact absurd hn (Nat.not_lt_zero _)
  | succ n ih =>
    rw [replaceFrom, findFrom_append]
    cases hfind : findText old_string s with
    | none => exact ⟨s, rfl, .rest (not_isInfix_of_findText hfind)⟩
    | some k =>
      have hfirst := firstAt_of_findText hfind
      have hpos := List.length_pos_of_ne_nil hold
      have hlen := hfirst.length_le hold
      have hstart : (front ++ s).take (k + front.length) = front ++ s.take k := by
        rw [Nat.add_comm, List.take_length_add_append]
      have hrest : (front ++ s).drop (k + front.length + old_string.length) =
          s.drop (k + old_string.length) := by
        rw [Nat.add_comm k, Nat.add_assoc, List.drop_length_add_append]
      have hnext : k + front.length + new_string.length =
          (front ++ s.take k ++ new_string).length := by
        simp only [List.length_append, List.length_take]
        omega
      obtain ⟨t, ht, hreplaced⟩ := @ih (s.drop (k + old_string.length))
        (front ++ s.take k ++ new_string) (by rw [List.length_drop]; omega)
      refine ⟨s.take k ++ new_string ++ t, ?_, .next hfirst hreplaced⟩
      simp only [Option.map_some]
      rw [hstart, hrest, hnext, ht]
      simp only [List.append_assoc]

/-- With an empty text to search for, each search succeeds where it starts. -/
theorem replaceFrom_nil {pos : ℕ} (hpos : pos ≤ s.length) :
    replaceFrom [] new_string n s pos = none := by
  induction n generalizing s pos with
  | zero => rfl
  | succ n ih =>
    have hfind : findFrom [] s pos = some pos := by
      have hzero : findText [] (s.drop pos) = some 0 :=
        findText_eq_some_iff.mpr (Occurrences.firstAt_zero List.nil_prefix)
      rw [findFrom, if_pos hpos, hzero, Option.map_some, Nat.zero_add]
    rw [replaceFrom, hfind]
    apply ih
    simp only [List.length_append, List.length_take, List.length_drop]
    omega

/-- The loop ends with every occurrence replaced exactly when there is something to search for. -/
theorem stringReplace_iff (orig old_string new_string : Str) :
    (∃ N, ∀ n, N ≤ n → ∃ t, stringReplace n orig old_string new_string = some t ∧
      Replaced old_string new_string orig t) ↔ old_string ≠ [] := by
  constructor
  · rintro ⟨N, hN⟩ rfl
    obtain ⟨t, ht, -⟩ := hN N (Nat.le_refl N)
    rw [stringReplace, replaceFrom_nil (Nat.zero_le _)] at ht
    exact absurd ht.symm (Option.some_ne_none t)
  · intro hold
    exact ⟨orig.length + 1, fun n hn => @replaceFrom_append _ _ _ [] _ hold hn⟩

/-- The empty text is never found for the last time. -/
theorem stringReplace_emptyText :
    ¬ ∀ orig old_string new_string : Str, ∃ N, ∀ n, N ≤ n → ∃ t,
      stringReplace n orig old_string new_string = some t ∧
        Replaced old_string new_string orig t := by
  intro h
  obtain ⟨N, hN⟩ := h ['a'] [] ['b']
  obtain ⟨t, ht, -⟩ := hN N (Nat.le_refl N)
  rw [stringReplace, replaceFrom_nil (Nat.zero_le _)] at ht
  exact absurd ht.symm (Option.some_ne_none t)

/-- Each `d` of a mode becomes a `t`. -/
theorem fopenCompatibleMode_eq {m : Str} (hn : m.length < n) :
    fopenCompatibleMode n m = some (m.map fun c => if c = 'd' then 't' else c) := by
  rw [fopenCompatibleMode]
  by_cases hd : 'd' ∈ m
  · obtain ⟨t, ht, hreplaced⟩ :=
      @replaceFrom_append ['d'] ['t'] m [] n (List.cons_ne_nil 'd' []) hn
    obtain rfl := hreplaced.unique (Occurrences.replaced_singleton 'd' 't' m)
    rw [if_pos hd]
    exact ht
  · have hsame : m.map (fun c => if c = 'd' then 't' else c) = m.map id := by
      apply List.map_congr_left
      intro c hc
      have hne : c ≠ 'd' := by
        rintro rfl
        exact hd hc
      rw [if_neg hne]
      rfl
    rw [if_neg hd, hsame, List.map_id]

end Replacing

/-! ## Arrays of `char`s -/

/-- `strncpy(out, s.c_str(), SIZE)`: the text up to its first NUL, cut or filled with NULs. -/
def strncpy (SIZE : ℕ) (s : Str) : Str := (cStr s ++ List.replicate SIZE '\x00').take SIZE

/-- `to_char_array`: the cells of `out`, and the result. -/
def toCharArray (SIZE : ℕ) (s : Str) : Str × Bool :=
  ((strncpy SIZE s).set (SIZE - 1) '\x00', s.length ≤ SIZE)

/-- `to_char_array_trim`. -/
def toCharArrayTrim (SIZE : ℕ) (s : Str) : Str × Bool :=
  ((strncpy SIZE s).set (SIZE - 1) '\x00', s.length ≤ SIZE)

/-- The cells hold the longest prefix of `s` that fits, with a NUL after it, and the result tells
whether that is the whole of `s`. -/
structure Fits (SIZE : ℕ) (s : Str) (result : Str × Bool) : Prop where
  terminated : '\x00' ∈ result.1
  isPrefix : cStr result.1 <+: s
  longest : ∀ t, t <+: s → t.length < SIZE → t.length ≤ (cStr result.1).length
  whole : result.2 = true ↔ cStr result.1 = s

section Arrays

variable {SIZE : ℕ} {s : Str}

theorem cStr_append_replicate (hs : '\x00' ∉ s) (n : ℕ) :
    cStr (s ++ List.replicate n '\x00') = s := by
  have hall : ∀ c ∈ s, decide (c ≠ '\x00') = true := by
    intro c hc
    rw [decide_eq_true_eq]
    rintro rfl
    exact hs hc
  have hnul : (List.replicate n '\x00').takeWhile (· ≠ '\x00') = [] := by
    cases n <;> rfl
  rw [cStr, List.takeWhile_append_of_pos hall, hnul, List.append_nil]

/-- The cells: the prefix that fits, and NULs. -/
theorem toCharArray_eq (hSIZE : 1 ≤ SIZE) (hs : '\x00' ∉ s) : (toCharArray SIZE s).1 =
    s.take (SIZE - 1) ++ List.replicate (SIZE - 1 - s.length + 1) '\x00' := by
  have hcStr : cStr s = s := by simpa using cStr_append_replicate hs 0
  have hlen : (strncpy SIZE s).length = SIZE := by simp [strncpy]
  have hfirst : (strncpy SIZE s).take (SIZE - 1) =
      s.take (SIZE - 1) ++ List.replicate (SIZE - 1 - s.length) '\x00' := by
    rw [strncpy, hcStr, List.take_take, Nat.min_eq_left (Nat.sub_le SIZE 1), List.take_append,
      List.take_replicate, Nat.min_eq_left (by omega)]
  have hlast : (strncpy SIZE s).drop (SIZE - 1 + 1) = [] :=
    List.drop_eq_nil_of_le (by omega)
  have hin : SIZE - 1 < (strncpy SIZE s).length := by omega
  rw [toCharArray, List.set_eq_take_append_cons_drop, if_pos hin, hfirst, hlast,
    List.replicate_succ', List.append_assoc]

theorem cStr_toCharArray (hSIZE : 1 ≤ SIZE) (hs : '\x00' ∉ s) :
    cStr (toCharArray SIZE s).1 = s.take (SIZE - 1) := by
  rw [toCharArray_eq hSIZE hs]
  exact cStr_append_replicate (fun h => hs (List.mem_of_mem_take h)) _

/-- The cells are always right, and the result exactly when the string does not fill the array
without its NUL. -/
theorem fits_toCharArray_iff (hSIZE : 1 ≤ SIZE) (hs : '\x00' ∉ s) :
    Fits SIZE s (toCharArray SIZE s) ↔ s.length ≠ SIZE := by
  have hcStr := cStr_toCharArray hSIZE hs
  have hresult : (toCharArray SIZE s).2 = true ↔ s.length ≤ SIZE := decide_eq_true_iff
  have hwhole : cStr (toCharArray SIZE s).1 = s ↔ s.length ≤ SIZE - 1 := by
    rw [hcStr, List.take_eq_self_iff]
  constructor
  · intro h
    have hiff := h.whole
    rw [hresult, hwhole] at hiff
    omega
  · intro hne
    refine ⟨?_, ?_, ?_, ?_⟩
    · rw [toCharArray_eq hSIZE hs]
      exact List.mem_append_right _ (List.mem_replicate.mpr ⟨Nat.succ_ne_zero _, rfl⟩)
    · rw [hcStr]
      exact List.take_prefix _ _
    · intro t ht hlt
      have hle := ht.length_le
      rw [hcStr, List.length_take]
      omega
    · rw [hresult, hwhole]
      omega

/-- Both functions tell a cut string from a whole one exactly when the string does not fill the
array without its NUL. -/
theorem toCharArray_fits_iff (hSIZE : 1 ≤ SIZE) (hs : '\x00' ∉ s) :
    (Fits SIZE s (toCharArray SIZE s) ↔ s.length ≠ SIZE) ∧
      (Fits SIZE s (toCharArrayTrim SIZE s) ↔ s.length ≠ SIZE) :=
  ⟨fits_toCharArray_iff hSIZE hs, fits_toCharArray_iff hSIZE hs⟩

theorem toCharArray_fits_iff_abc :
    (Fits 3 ['a', 'b', 'c'] (toCharArray 3 ['a', 'b', 'c']) ↔ ['a', 'b', 'c'].length ≠ 3) ∧
      (Fits 3 ['a', 'b', 'c'] (toCharArrayTrim 3 ['a', 'b', 'c']) ↔ ['a', 'b', 'c'].length ≠ 3) :=
  toCharArray_fits_iff (by decide) (by decide)

/-- `abc` in an array of three cells is `ab`, and said to fit. -/
theorem toCharArray_cut : ¬ ∀ (SIZE : ℕ) (s : Str), 1 ≤ SIZE → '\x00' ∉ s →
    Fits SIZE s (toCharArray SIZE s) ∧ Fits SIZE s (toCharArrayTrim SIZE s) := by
  intro h
  have hwhole := (h 3 ['a', 'b', 'c'] (by decide) (by decide)).1.whole
  revert hwhole
  decide

end Arrays

end WwivBasic
