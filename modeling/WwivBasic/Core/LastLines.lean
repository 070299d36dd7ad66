import WwivBasic.Core.StringUtils
import WwivBasic.Core.TextLines

/-!
# The last lines of a file

`TextFile::ReadLastLinesIntoVector` reads the last 1024 bytes for each line it is asked for, looks
for the line breaks from their end, and splits what comes after them into the lines that are not
empty.

## Main definitions

* `readLastLinesIntoVector`: the lines, where the call is defined
* `lastTexts`: the last lines of a text
* `window`, `SplitAfter`: the bytes that are read, and where they are split

## Main results

* `readLastLines_iff`: when the call returns the last lines
-/

namespace WwivBasic

open DelimitedLines (lines text chop Closed)

/-! ## The operation -/

/-- `std::string::substr`, which throws where there is no such position. -/
def substr (s : Str) (pos : Int) : Option Str :=
  if 0 ≤ pos ∧ pos ≤ s.length then some (s.drop pos.toNat) else none

/-- The loop over the text from its end: the number of characters it looks at. -/
def countBack (num_lines : Int) (cur_num count : ℕ) : Str → ℕ
  | [] => count
  | c :: contents =>
    let cur_num := if c = '\n' then cur_num + 1 else cur_num
    if (cur_num : Int) = num_lines then count + 1
    else countBack num_lines cur_num (count + 1) contents

/-- The end of the call: what comes after the characters that were not looked at, split. -/
def splitLast (contents : Str) (count : ℕ) : Option (List Str) :=
  if intMax < count then none
  else
    let f := castInt contents.length - count
    let f := if 0 < f then f + 1 else f
    (substr contents f).map (splitString · ['\n'] true)

/-- `ReadLastLinesIntoVector`. It is not defined where an `int` overflows, and on an empty text,
which has no `back()`. -/
def readLastLinesIntoVector (num_lines : Int) (s : Str) : Option (List Str) :=
  if num_lines * 1024 < intMin ∨ intMax < num_lines * 1024 then none
  else
    let len : Int := s.length
    let pos := max 0 (castInt (len - num_lines * 1024))
    let contents := s.drop pos.toNat
    if contents = [] then none
    else
      let contents := chop '\n' contents
      splitLast contents (countBack num_lines 0 0 contents.reverse)

/-! ## The last lines -/

/-- The last lines of a text, with their newlines. -/
def lastLines (n : ℕ) (s : Str) : List Str := (rawLines s).drop ((rawLines s).length - n)

/-- The last lines of a text. -/
def lastTexts (n : ℕ) (s : Str) : List Str := (lastLines n s).map (text '\n')

/-- The bytes that are read. -/
def window (n : ℕ) (s : Str) : Str :=
  s.drop (max 0 (castInt (s.length - n * 1024 : Int))).toNat

/-- What is read before the last lines. -/
def lead (n : ℕ) (s : Str) : Str :=
  (window n s).take ((window n s).length - (lastLines n s).flatten.length)

/-- The number of characters that are looked at: up to the newline before the last lines. -/
def lookedAt (n : ℕ) (s : Str) : ℕ :=
  if lead n s = [] then (chop '\n' (window n s)).length
  else (chop '\n' (window n s)).length - (lead n s).length + 1

/-- The call returns the last lines. -/
def ReadsLastLines (n : ℕ) (s : Str) : Prop := readLastLinesIntoVector n s = some (lastTexts n s)

/-- The place from which a text of some size is split, as an `int`, when `count` characters of it
are looked at. -/
def splitPlace (size : Int) (count : ℕ) : ℕ :=
  if size = count then 0 else (size - count).toNat + 1

/-- This number is an `int`, no greater than the size as an `int`, and there are only newlines
between that place and the last lines. It can fail only where the size is no `int`. -/
def SplitAfter (n : ℕ) (s : Str) : Prop :=
  let size := castInt (chop '\n' (window n s)).length
  lookedAt n s ≤ intMax ∧ lookedAt n s ≤ size ∧
    ∀ c ∈ (lead n s).drop (splitPlace size (lookedAt n s)), c = '\n'

variable {n cur_num count : ℕ} {s u v w x contents : Str}

/-! ## Splitting -/

theorem filter_lineTexts_eq_nil_iff :
    (lineTexts s).filter (· ≠ []) = [] ↔ ∀ c ∈ s, c = '\n' := by
  have hflatten : (lineTexts s).flatten = s.filter (· ≠ '\n') :=
    DelimitedLines.flatten_map_text '\n' s
  constructor
  · intro h c hc
    by_contra hne
    have hmem : c ∈ (lineTexts s).flatten := by
      rw [hflatten, List.mem_filter]
      exact ⟨hc, decide_eq_true hne⟩
    obtain ⟨l, hl, hcl⟩ := List.mem_flatten.mp hmem
    exact List.filter_eq_nil_iff.mp h l hl (decide_eq_true (List.ne_nil_of_mem hcl))
  · intro h
    have hnil : (lineTexts s).flatten = [] := by
      rw [hflatten, List.filter_eq_nil_iff]
      intro c hc
      simp [h c hc]
    rw [List.filter_eq_nil_iff]
    intro l hl
    simp [List.flatten_eq_nil_iff.mp hnil l hl]

/-! ## Looking back -/

theorem count_newline_cons (k : ℕ) (c : Char) (contents : Str) :
    (if c = '\n' then k + 1 else k) + contents.count '\n' = k + (c :: contents).count '\n' := by
  rw [List.count_cons]
  by_cases hc : c = '\n'
  · rw [if_pos hc, if_pos (beq_iff_eq.mpr hc)]
    omega
  · rw [if_neg hc, if_neg (mt beq_iff_eq.mp hc), Nat.add_zero]

/-- Fewer newlines than lines: the loop looks at the whole text. -/
theorem countBack_of_lt (h : cur_num + contents.count '\n' < n) :
    countBack n cur_num count contents = count + contents.length := by
  induction contents generalizing cur_num count with
  | nil => rfl
  | cons c contents ih =>
    rw [← count_newline_cons] at h
    have hne : ((if c = '\n' then cur_num + 1 else cur_num : ℕ) : Int) ≠ n := by omega
    rw [countBack]
    simp only [if_neg hne, ih h, List.length_cons]
    omega

/-- Otherwise it stops at the newline before the lines. -/
theorem countBack_append (h : cur_num + u.count '\n' + 1 = n) (v : Str) :
    countBack n cur_num count (u ++ '\n' :: v) = count + u.length + 1 := by
  induction u generalizing cur_num count with
  | nil =>
    have heq : ((cur_num + 1 : ℕ) : Int) = n := congrArg _ h
    rw [List.nil_append, countBack]
    simp only [if_true, if_pos heq, List.length_nil, Nat.add_zero]
  | cons c u ih =>
    rw [← count_newline_cons] at h
    have hne : ((if c = '\n' then cur_num + 1 else cur_num : ℕ) : Int) ≠ n := by omega
    rw [List.cons_append, countBack]
    simp only [if_neg hne, ih h, List.length_cons]
    omega

/-! ## The text and its last lines -/

section LastLines

theorem length_lastLines (n : ℕ) (s : Str) :
    (lastLines n s).length = min n (rawLines s).length := by
  rw [lastLines, List.length_drop]
  omega

theorem rawLines_lastLines (n : ℕ) (s : Str) :
    rawLines (lastLines n s).flatten = lastLines n s :=
  DelimitedLines.lines_flatten_drop '\n' s _

/-- The text up to the last lines, which begin with a line. -/
theorem exists_append_lastLines (hn : 1 ≤ n) (s : Str) :
    ∃ u, s = u ++ (lastLines n s).flatten ∧ Closed '\n' u ∧
      (u ≠ [] → n ≤ (rawLines s).length) := by
  refine ⟨((rawLines s).take ((rawLines s).length - n)).flatten, ?_, ?_, ?_⟩
  · rw [lastLines, ← List.flatten_append, List.take_append_drop]
    exact (DelimitedLines.flatten_lines '\n' s).symm
  · rcases Nat.eq_zero_or_pos (rawLines s).length with hzero | hpos
    · exact .inl (by simp [hzero])
    · exact DelimitedLines.closed_flatten_take (Nat.sub_lt hpos hn)
  · intro hne
    by_contra hlt
    have hzero : (rawLines s).length - n = 0 := by omega
    rw [hzero] at hne
    exact hne rfl

theorem window_suffix (n : ℕ) (s : Str) : window n s <:+ s := List.drop_suffix _ _

theorem flatten_lastLines_suffix (hn : 1 ≤ n) (s : Str) : (lastLines n s).flatten <:+ s := by
  obtain ⟨u, hs, -⟩ := exists_append_lastLines hn s
  exact ⟨u, hs.symm⟩

/-- What is read ends with the last lines, when it is long enough. -/
theorem window_eq (hn : 1 ≤ n)
    (h : (lastLines n s).flatten.length ≤ (window n s).length) :
    window n s = lead n s ++ (lastLines n s).flatten := by
  obtain ⟨u, hu⟩ := List.suffix_of_suffix_length_le (flatten_lastLines_suffix hn s)
    (window_suffix n s) h
  rw [lead, ← hu, List.length_append, Nat.add_sub_cancel, List.take_left]

theorem flatten_lastLines_ne_nil (hn : 1 ≤ n) (hs : s ≠ []) : (lastLines n s).flatten ≠ [] := by
  intro hnil
  have hlen := length_lastLines n s
  have hraw : (rawLines s).length ≠ 0 := by
    rw [DelimitedLines.length_lines hs]
    exact Nat.succ_ne_zero _
  rw [← rawLines_lastLines, hnil] at hlen
  have hzero : (rawLines []).length = 0 := rfl
  omega

/-- Without the newline at its end, which is one of the last lines. -/
theorem chop_window (hn : 1 ≤ n) (hs : s ≠ [])
    (h : (lastLines n s).flatten.length ≤ (window n s).length) :
    chop '\n' (window n s) = lead n s ++ chop '\n' (lastLines n s).flatten := by
  rw [window_eq hn h, DelimitedLines.chop_append (flatten_lastLines_ne_nil hn hs)]

theorem length_chop_window (hn : 1 ≤ n) (hs : s ≠ [])
    (h : (lastLines n s).flatten.length ≤ (window n s).length) :
    (chop '\n' (window n s)).length =
      (lead n s).length + (chop '\n' (lastLines n s).flatten).length := by
  rw [chop_window hn hs h, List.length_append]

/-- What is read before the last lines: nothing, or whole lines and the newline that ends them, and
then there are as many last lines as asked for. -/
theorem lead_cases (hn : 1 ≤ n) (h : (lastLines n s).flatten.length ≤ (window n s).length) :
    lead n s = [] ∨ (∃ w, lead n s = w ++ ['\n']) ∧ n ≤ (rawLines s).length := by
  obtain ⟨u, hs, hclosed, hall⟩ := exists_append_lastLines hn s
  obtain ⟨v, hv⟩ := window_suffix n s
  have hu : v ++ lead n s = u := by
    rw [window_eq hn h, ← List.append_assoc] at hv
    exact List.append_cancel_right (hv.trans hs)
  rcases List.eq_nil_or_concat (lead n s) with hnil | ⟨w, c, hw⟩
  · exact .inl hnil
  · rw [List.concat_eq_append] at hw
    rw [hw, ← List.append_assoc] at hu
    have hne : u ≠ [] := hu ▸ by simp
    rcases hclosed with hnil | hlast
    · exact absurd hnil hne
    · rw [← hu, List.getLast?_concat, Option.some.injEq] at hlast
      exact .inr ⟨⟨w, hlast ▸ hw⟩, hall hne⟩

/-- The loop looks at the last lines, and at the newline before them. -/
theorem countBack_window (hn : 1 ≤ n) (hs : s ≠ [])
    (h : (lastLines n s).flatten.length ≤ (window n s).length) :
    countBack n 0 0 (chop '\n' (window n s)).reverse = lookedAt n s := by
  have hchop := chop_window hn hs h
  have hlen := DelimitedLines.length_lines (d := '\n') (flatten_lastLines_ne_nil hn hs)
  have hlast : (lines '\n' (lastLines n s).flatten).length = min n (rawLines s).length := by
    rw [← length_lastLines]
    exact congrArg List.length (rawLines_lastLines n s)
  rcases lead_cases hn h with hlead | ⟨⟨w, hlead⟩, hle⟩
  · rw [hlead, List.nil_append] at hchop
    rw [lookedAt, if_pos hlead, countBack_of_lt, List.length_reverse, Nat.zero_add]
    rw [List.count_reverse, hchop]
    omega
  · have hne' : lead n s ≠ [] := hlead ▸ by simp
    have hrev : (chop '\n' (window n s)).reverse =
        (chop '\n' (lastLines n s).flatten).reverse ++ '\n' :: w.reverse := by
      rw [hchop, hlead]
      simp
    rw [hrev, countBack_append, lookedAt, if_neg hne', hchop, List.length_append,
      List.length_reverse]
    · omega
    · rw [List.count_reverse]
      omega

end LastLines

/-! ## The call -/

section Call

theorem readLastLines_eq (hint : (n : Int) * 1024 ≤ intMax) :
    readLastLinesIntoVector n s =
      if window n s = [] then none
      else splitLast (chop '\n' (window n s))
        (countBack n 0 0 (chop '\n' (window n s)).reverse) := by
  have hno : ¬((n : Int) * 1024 < intMin ∨ intMax < (n : Int) * 1024) := by
    rw [intMin]
    omega
  rw [readLastLinesIntoVector, if_neg hno]
  rfl

theorem readLastLines_eq_none (hint : intMax < (n : Int) * 1024) :
    readLastLinesIntoVector n s = none := if_pos (.inr hint)

theorem substr_suffix {pos : Int} (h : substr s pos = some x) : x <:+ s := by
  rw [substr] at h
  split_ifs at h
  obtain rfl := Option.some.inj h
  exact List.drop_suffix _ _

/-- What is returned are the lines of an end of the text that are not empty. -/
theorem exists_of_splitLast_eq_some {ls : List Str} (h : splitLast contents count = some ls) :
    ∃ x, x <:+ contents ∧ ls = (lineTexts x).filter (· ≠ []) := by
  rw [splitLast, ite_eq_iff] at h
  rcases h with ⟨-, h⟩ | ⟨-, h⟩
  · exact absurd h.symm (Option.some_ne_none ls)
  · obtain ⟨x, hx, rfl⟩ := Option.map_eq_some_iff.mp h
    exact ⟨x, substr_suffix hx, splitString_eq_filter '\n' x⟩

theorem splitLast_eq (hcount : (count : Int) ≤ intMax)
    (hle : (count : Int) ≤ castInt contents.length)
    (hplace : splitPlace (castInt contents.length) count ≤ contents.length) :
    splitLast contents count = some ((lineTexts (contents.drop
      (splitPlace (castInt contents.length) count))).filter (· ≠ [])) := by
  generalize hsize : castInt contents.length = size at hle hplace ⊢
  have hf : (if 0 < size - count then size - count + 1 else size - count) =
      splitPlace size count := by
    rw [splitPlace]
    split_ifs
    all_goals omega
  rw [splitLast, if_neg (Int.not_lt.mpr hcount), hsize]
  dsimp only
  rw [hf, substr, if_pos ⟨Int.natCast_nonneg _, by omega⟩, Int.toNat_natCast, Option.map_some,
    splitString_eq_filter]
  rfl

/-- Where the number is no `int`, or greater than the size, the call is not defined. -/
theorem splitLast_eq_none (h : (count : Int) ≤ intMax → castInt contents.length < count) :
    splitLast contents count = none := by
  rw [splitLast]
  split_ifs with hcount
  · rfl
  · have hlt := h (Int.not_lt.mp hcount)
    have hpos : ¬0 < castInt contents.length - count := by omega
    have hneg : ¬(0 ≤ castInt contents.length - count ∧
        castInt contents.length - count ≤ contents.length) := by omega
    dsimp only
    rw [if_neg hpos, substr, if_neg hneg, Option.map_none]

theorem splitPlace_le (hn : 1 ≤ n) (hs : s ≠ [])
    (h : (lastLines n s).flatten.length ≤ (window n s).length)
    (hle : (lookedAt n s : Int) ≤ castInt (chop '\n' (window n s)).length) :
    splitPlace (castInt (chop '\n' (window n s)).length) (lookedAt n s) ≤ (lead n s).length := by
  have hcast := castInt_natCast_le (chop '\n' (window n s)).length
  have hlen := length_chop_window hn hs h
  generalize castInt (chop '\n' (window n s)).length = size at hcast hle ⊢
  rw [splitPlace]
  by_cases hnil : lead n s = []
  · rw [lookedAt, if_pos hnil] at hle ⊢
    split_ifs
    all_goals omega
  · have hpos := List.length_pos_of_ne_nil hnil
    rw [lookedAt, if_neg hnil] at hle ⊢
    split_ifs
    all_goals omega

/-- Where the last lines are read whole, and none is empty, the call returns them when it splits
the text after the lines before them. -/
theorem readLastLines_eq_some_iff (hn : 1 ≤ n) (hint : (n : Int) * 1024 ≤ intMax) (hs : s ≠ [])
    (hlines : ∀ l ∈ lastTexts n s, l ≠ [])
    (h : (lastLines n s).flatten.length ≤ (window n s).length) :
    readLastLinesIntoVector n s = some (lastTexts n s) ↔ SplitAfter n s := by
  have hwindow : window n s ≠ [] := by
    rw [window_eq hn h]
    exact List.append_ne_nil_of_right_ne_nil _ (flatten_lastLines_ne_nil hn hs)
  have hchop := chop_window hn hs h
  have htexts : lineTexts (lastLines n s).flatten = lastTexts n s :=
    congrArg (List.map (text '\n')) (rawLines_lastLines n s)
  have hlast : (lineTexts (chop '\n' (lastLines n s).flatten)).filter (· ≠ []) =
      lastTexts n s := by
    refine (DelimitedLines.filter_text_chop '\n' (lastLines n s).flatten).trans ?_
    rw [← lineTexts, htexts, List.filter_eq_self]
    intro l hl
    exact decide_eq_true (hlines l hl)
  rw [readLastLines_eq hint, if_neg hwindow, countBack_window hn hs h, SplitAfter]
  by_cases hplace : (lookedAt n s : Int) ≤ intMax ∧
      (lookedAt n s : Int) ≤ castInt (chop '\n' (window n s)).length
  · obtain ⟨hcount, hle⟩ := hplace
    have hstart : splitPlace (castInt (chop '\n' (window n s)).length) (lookedAt n s) ≤
        (lead n s).length := splitPlace_le hn hs h hle
    have hclosed : Closed '\n' (lead n s) := by
      rcases lead_cases hn h with hnil | ⟨⟨w, hw⟩, -⟩
      · exact .inl hnil
      · exact .inr (hw ▸ List.getLast?_concat)
    have hlen := length_chop_window hn hs h
    rw [splitLast_eq hcount hle (by omega)]
    generalize splitPlace (castInt (chop '\n' (window n s)).length) (lookedAt n s) = start
      at hstart ⊢
    have happend : lineTexts ((chop '\n' (window n s)).drop start) =
        lineTexts ((lead n s).drop start) ++
          lineTexts (chop '\n' (lastLines n s).flatten) := by
      rw [hchop, List.drop_append_of_le_length hstart, lineTexts, rawLines,
        DelimitedLines.lines_append (hclosed.drop start), List.map_append]
      rfl
    rw [happend, List.filter_append, hlast, Option.some.injEq, List.append_left_eq_self,
      filter_lineTexts_eq_nil_iff]
    exact ⟨fun hlead => ⟨hcount, hle, hlead⟩, fun hafter => hafter.2.2⟩
  · rw [splitLast_eq_none fun hcount => Int.lt_of_not_ge fun hle => hplace ⟨hcount, hle⟩]
    constructor
    · intro hnone
      exact absurd hnone.symm (Option.some_ne_none _)
    · rintro ⟨hcount, hle, -⟩
      exact absurd ⟨hcount, hle⟩ hplace

/-- Where the call returns the last lines, none is empty, and what is read holds all of them. -/
theorem whole_of_readLastLines (hn : 1 ≤ n)
    (h : readLastLinesIntoVector n s = some (lastTexts n s)) :
    (n : Int) * 1024 ≤ intMax ∧ s ≠ [] ∧ (∀ l ∈ lastTexts n s, l ≠ []) ∧
      (lastLines n s).flatten.length ≤ (window n s).length := by
  have hint : (n : Int) * 1024 ≤ intMax := by
    by_contra hlt
    rw [readLastLines_eq_none (Int.lt_of_not_ge hlt)] at h
    exact absurd h.symm (Option.some_ne_none _)
  rw [readLastLines_eq hint, ite_eq_iff] at h
  rcases h with ⟨-, h⟩ | ⟨hW, h⟩
  · exact absurd h.symm (Option.some_ne_none _)
  obtain ⟨x, hx, hfilter⟩ := exists_of_splitLast_eq_some h
  have hlines : ∀ l ∈ lastTexts n s, l ≠ [] := by
    intro l hl
    rw [hfilter, List.mem_filter] at hl
    exact of_decide_eq_true hl.2
  have hs : s ≠ [] := by
    rintro rfl
    exact hW List.drop_nil
  refine ⟨hint, hs, hlines, ?_⟩
  by_contra hlt
  obtain ⟨y, hy⟩ := List.suffix_of_suffix_length_le (window_suffix n s)
    (flatten_lastLines_suffix hn s) (Nat.le_of_not_le hlt)
  -- The lines have no more characters than what is read, so there are only newlines before it.
  have hchars : (lastLines n s).flatten.filter (· ≠ '\n') = x.filter (· ≠ '\n') := by
    have hflatten := congrArg List.flatten hfilter
    rw [List.flatten_filter_ne_nil, lastTexts, ← rawLines_lastLines, lineTexts,
      DelimitedLines.flatten_map_text, DelimitedLines.flatten_map_text] at hflatten
    exact hflatten
  have hle : (x.filter (· ≠ '\n')).length ≤ ((window n s).filter (· ≠ '\n')).length :=
    ((hx.sublist.trans (DelimitedLines.chop_sublist '\n' (window n s))).filter _).length_le
  have hlen := congrArg List.length hchars
  rw [← hy, List.filter_append, List.length_append] at hlen
  have hnewlines : y.filter (· ≠ '\n') = [] := List.length_eq_zero_iff.mp (by omega)
  rcases y with - | ⟨c, y⟩
  · rw [← hy] at hlt
    exact hlt le_rfl
  · have hc : c = '\n' := by
      by_contra hne
      exact List.filter_eq_nil_iff.mp hnewlines c List.mem_cons_self (decide_eq_true hne)
    rw [hc] at hy
    have hfirst : rawLines (lastLines n s).flatten = ['\n'] :: rawLines (y ++ window n s) := by
      rw [← hy]
      exact DelimitedLines.lines_line List.not_mem_nil (y ++ window n s)
    rw [rawLines_lastLines] at hfirst
    apply hlines [] ?_ rfl
    rw [lastTexts, hfirst]
    exact List.mem_cons_self

/-- Where the position to read from is an `int`, 1024 bytes for each line are read. -/
theorem length_window (hint : (n : Int) * 1024 ≤ intMax)
    (hpos : (s.length : Int) - n * 1024 ≤ intMax) :
    (window n s).length = min s.length (n * 1024) := by
  have hcast : castInt (s.length - n * 1024 : Int) = s.length - n * 1024 := by
    apply castInt_eq_self_of_le ?_ hpos
    rw [intMax] at hint
    rw [intMin]
    omega
  rw [window, hcast, List.length_drop]
  omega

theorem splitAfter_of_length_le (hn : 1 ≤ n) (hs : s ≠ [])
    (h : (lastLines n s).flatten.length ≤ (window n s).length)
    (hsize : (window n s).length ≤ intMax) : SplitAfter n s := by
  have hle := (DelimitedLines.chop_sublist '\n' (window n s)).length_le
  have hcast : castInt (chop '\n' (window n s)).length = (chop '\n' (window n s)).length :=
    castInt_eq_self (Int.natCast_nonneg _) (by omega)
  have hlen := length_chop_window hn hs h
  rw [SplitAfter, hcast]
  rcases lead_cases hn h with hnil | ⟨⟨w, hw⟩, -⟩
  · rw [hnil, List.drop_nil]
    rw [lookedAt, if_pos hnil]
    refine ⟨by omega, Int.le_refl _, ?_⟩
    intro c hc
    exact absurd hc List.not_mem_nil
  · have hne : lead n s ≠ [] := hw ▸ by simp
    have hlead : (lead n s).length = w.length + 1 := by
      rw [hw, List.length_append, List.length_singleton]
    rw [lookedAt, if_neg hne]
    refine ⟨by omega, by omega, ?_⟩
    intro c hc
    rw [hw, List.drop_append] at hc
    rw [hw] at hlen hlead
    have hplace : w.length ≤ splitPlace (chop '\n' (window n s)).length
        ((chop '\n' (window n s)).length - (w ++ ['\n']).length + 1) := by
      rw [splitPlace]
      split_ifs
      all_goals omega
    rw [List.drop_of_length_le hplace, List.nil_append] at hc
    exact List.mem_singleton.mp (List.mem_of_mem_drop hc)

theorem readsLastLines_iff_splitAfter (hn : 1 ≤ n) (s : Str) :
    ReadsLastLines n s ↔ (n : Int) * 1024 ≤ intMax ∧ s ≠ [] ∧ (∀ l ∈ lastTexts n s, l ≠ []) ∧
      (lastLines n s).flatten.length ≤ (window n s).length ∧ SplitAfter n s := by
  constructor
  · intro h
    obtain ⟨hint, hs, hlines, hwhole⟩ := whole_of_readLastLines hn h
    exact ⟨hint, hs, hlines, hwhole, (readLastLines_eq_some_iff hn hint hs hlines hwhole).mp h⟩
  · rintro ⟨hint, hs, hlines, hwhole, hsplit⟩
    exact (readLastLines_eq_some_iff hn hint hs hlines hwhole).mpr hsplit

end Call

/-- The call returns the last lines exactly when the text is not empty, none of them is, what is
read holds all of them, and it is split after what is before them. Where the position to read from
is an `int`, they must have no more than 1024 bytes for each line asked for. -/
theorem readLastLines_iff (hn : 1 ≤ n) (s : Str) :
    (ReadsLastLines n s ↔ (n : Int) * 1024 ≤ intMax ∧ s ≠ [] ∧ (∀ l ∈ lastTexts n s, l ≠ []) ∧
        (lastLines n s).flatten.length ≤ (window n s).length ∧ SplitAfter n s) ∧
      ((s.length : Int) - n * 1024 ≤ intMax →
        (ReadsLastLines n s ↔ (n : Int) * 1024 ≤ intMax ∧ s ≠ [] ∧
          (∀ l ∈ lastTexts n s, l ≠ []) ∧ (lastLines n s).flatten.length ≤ n * 1024)) := by
  refine ⟨readsLastLines_iff_splitAfter hn s, fun hpos => ?_⟩
  rw [readsLastLines_iff_splitAfter hn s]
  have hle := (flatten_lastLines_suffix hn s).length_le
  constructor
  · rintro ⟨hint, hs, hlines, hwhole, -⟩
    rw [length_window hint hpos] at hwhole
    exact ⟨hint, hs, hlines, hwhole.trans (Nat.min_le_right _ _)⟩
  · rintro ⟨hint, hs, hlines, hbytes⟩
    have hwindow := length_window hint hpos
    have hwhole : (lastLines n s).flatten.length ≤ (window n s).length := by omega
    exact ⟨hint, hs, hlines, hwhole, splitAfter_of_length_le hn hs hwhole (by omega)⟩

theorem readLastLines_iff_twoLines :
    ReadsLastLines 1 ['a', '\n', 'b', '\n'] ↔
      ((1 : ℕ) : Int) * 1024 ≤ intMax ∧ ['a', '\n', 'b', '\n'] ≠ [] ∧
        (∀ l ∈ lastTexts 1 ['a', '\n', 'b', '\n'], l ≠ []) ∧
        (lastLines 1 ['a', '\n', 'b', '\n']).flatten.length ≤ 1 * 1024 :=
  (readLastLines_iff (by decide) ['a', '\n', 'b', '\n']).2 (by decide)

/-- The second of the last two lines is empty. -/
theorem readLastLines_emptyLine : ¬ReadsLastLines 2 ['a', '\n', '\n'] := by
  intro h
  obtain ⟨-, -, hlines, -⟩ := whole_of_readLastLines (by decide) h
  exact hlines [] (by decide) rfl

end WwivBasic
