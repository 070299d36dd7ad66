import WwivBasic.Core.TextFile
import WwivBasic.Foundations.DelimitedLines
import WwivBasic.Foundations.Overwriting

/-!
# The lines of a file

`TextFile::ReadLine` and `TextFile::ReadFileIntoVector`, against the lines that the newlines of a
text set apart. A line that does not fit in the buffer with its newline comes in pieces, and
`ReadFileIntoVector` reads a line before it looks whether it may.

## Main definitions

* `rawLines`, `lineTexts`, `strippedLines`: the lines of a text
* `readBy`: what a loop over the lines makes of a line
* `calls`: what one call of `ReadLine` after the other returns
* `readFileIntoVector`: the lines up to a limit, and what is left of the file

## Main results

* `linesOf_eq_flatMap`: the pieces that `ReadLine` returns
* `foldl_linesOf_intercalate`: a loop takes the lines one by one, each in its pieces
* `calls_iff`: when these are the lines
* `readTwice_iff`: when a limited call and an unlimited one read every line
-/

namespace WwivBasic

open DelimitedLines (lines text)
open Overwriting (resize)

/-! ## The operations -/

/-- What `n` calls of `ReadLine` return, `none` where they return `false`. -/
def calls : ℕ → Str → List (Option Str)
  | 0, _ => []
  | n + 1, s =>
    match readLine s with
    | none => none :: calls n s
    | some (line, s) => some line :: calls n s

/-- The loop of `ReadFileIntoVector`, with `n` iterations at most: the lines, and what is left of
the file. The line is read before the counter is looked at. -/
def collectLines : ℕ → Option ℕ → Str → List Str × Str
  | 0, _, s => ([], s)
  | n + 1, max_lines, s =>
    match readLine s with
    | none => ([], s)
    | some (line, s) =>
      if max_lines = some 0 then ([], s)
      else (collectLines n (max_lines.map (· - 1)) s).map (line :: ·) id

/-- `ReadFileIntoVector`. The greatest `int64_t` is no limit, and no argument stands for it. -/
def readFileIntoVector (max_lines : Option Int) (s : Str) : List Str × Str :=
  let max_lines := max_lines.bind fun n => if n ≤ 0 then none else some n.toNat
  collectLines (s.length + 1) max_lines s

/-! ## The lines of a text -/

/-- The lines that the newlines of a text set apart, each with its newline. -/
abbrev rawLines (s : Str) : List Str := lines '\n' s

/-- The lines without their newlines. -/
def lineTexts (s : Str) : List Str := (rawLines s).map (text '\n')

/-- The lines without carriage returns at their ends either. -/
def strippedLines (s : Str) : List Str := (rawLines s).map stripLineEnd

/-- The pieces of a line that `fgets` reads. -/
def pieces (l : Str) : List Str :=
  if l.length ≤ 4095 then [l] else l.take 4095 :: pieces (l.drop 4095)
termination_by l.length

/-- The calls of `ReadLine` return the lines, and `false` after them. -/
def ReadsLines (s : Str) : Prop := ∀ n, calls n s = resize none n ((lineTexts s).map some)

/-- What `ReadFileIntoVector(max_lines)` and then `ReadFileIntoVector()` return. -/
def readTwice (max_lines : ℕ) (s : Str) : List Str :=
  let (first, s) := readFileIntoVector (some max_lines) s
  first ++ (readFileIntoVector none s).1

/-- One line is cut, in two pieces of which the second is blank, and so are all the pieces from
there to the one that is left out. -/
def LeavesOutBlank (max_lines : ℕ) (s : Str) : Prop :=
  ∃ before a b after, rawLines s = before ++ (a ++ b) :: after ∧ a.length = 4095 ∧ b ≠ [] ∧
    b.length ≤ 4095 ∧ (∀ l ∈ before ++ after, l.length ≤ 4095) ∧
    ∀ i, min max_lines (before.length + 1) ≤ i → i ≤ max max_lines (before.length + 1) →
      (linesOf s)[i]? = some []

variable {n m k : ℕ} {l s x a b : Str}

/-! ## Pieces -/

theorem pieces_of_le (hl : l.length ≤ 4095) : pieces l = [l] := by
  rw [pieces, if_pos hl]

theorem pieces_of_lt (hl : 4095 < l.length) :
    pieces l = l.take 4095 :: pieces (l.drop 4095) := by
  rw [pieces, if_neg (Nat.not_le_of_lt hl)]

theorem length_pieces_pos (l : Str) : 0 < (pieces l).length := by
  rw [pieces]
  split_ifs
  all_goals simp

theorem length_pieces_eq_one_iff : (pieces l).length = 1 ↔ l.length ≤ 4095 := by
  constructor
  · intro h
    by_contra hl
    have hpos := length_pieces_pos (l.drop 4095)
    rw [pieces_of_lt (Nat.lt_of_not_le hl), List.length_cons] at h
    omega
  · intro hl
    rw [pieces_of_le hl]
    rfl

/-- A line that is cut once. -/
theorem exists_of_length_pieces_eq_two (h : (pieces l).length = 2) :
    ∃ a b, l = a ++ b ∧ a.length = 4095 ∧ b ≠ [] ∧ b.length ≤ 4095 := by
  have hlt : 4095 < l.length := by
    by_contra hl
    rw [pieces_of_le (Nat.le_of_not_lt hl), List.length_singleton] at h
    omega
  rw [pieces_of_lt hlt, List.length_cons, Nat.succ_inj, length_pieces_eq_one_iff] at h
  refine ⟨l.take 4095, l.drop 4095, (List.take_append_drop 4095 l).symm, ?_, ?_, h⟩
  · rw [List.length_take, Nat.min_eq_left hlt.le]
  · rw [Ne, List.drop_eq_nil_iff]
    omega

theorem pieces_append (ha : a.length = 4095) (hb : b ≠ []) : pieces (a ++ b) = a :: pieces b := by
  have hpos := List.length_pos_of_ne_nil hb
  rw [pieces_of_lt (by rw [List.length_append]; omega), List.take_left' ha, List.drop_left' ha]

/-- A line that does not fit in the buffer is cut. -/
theorem fgets_of_le (hx : '\n' ∉ x) (hn : n ≤ x.length) (s : Str) :
    fgets n (x ++ s) = (x.take n, x.drop n ++ s) := by
  induction n generalizing x with
  | zero => rfl
  | succ n ih =>
    obtain ⟨c, x, rfl⟩ := List.exists_cons_of_length_pos (Nat.lt_of_lt_of_le n.succ_pos hn)
    rw [List.mem_cons, not_or] at hx
    rw [List.cons_append, fgets, if_neg (Ne.symm hx.1), ih hx.2 (Nat.le_of_succ_le_succ hn)]
    rfl

theorem readLine_of_ne_nil (hs : s ≠ []) :
    readLine s = some ((fgets 4095 s).map stripLineEnd id) := by
  cases s with
  | nil => exact absurd rfl hs
  | cons c s => rfl

/-- The pieces of a line, one after the other. -/
theorem linesOf_line (hx : '\n' ∉ x) (s : Str) :
    linesOf (x ++ '\n' :: s) = (pieces (x ++ ['\n'])).map stripLineEnd ++ linesOf s := by
  induction hlen : x.length using Nat.strongRecOn generalizing x with
  | ind n ih =>
    rcases Nat.lt_or_ge x.length 4095 with hlt | hge
    · rw [linesOf_cons hx hlt, pieces_of_le (by rw [List.length_append]; exact hlt)]
      rfl
    · have hread := readLine_of_ne_nil (s := x ++ '\n' :: s) (by simp)
      rw [fgets_of_le hx hge] at hread
      have hdrop : '\n' ∉ x.drop 4095 := fun h => hx (List.mem_of_mem_drop h)
      have hrest := ih (x.drop 4095).length (by rw [List.length_drop]; omega) hdrop rfl
      have hlong : 4095 < (x ++ ['\n']).length := by
        rw [List.length_append, List.length_singleton]
        omega
      rw [linesOf_eq hread, pieces_of_lt hlong, List.take_append_of_le_length hge,
        List.drop_append_of_le_length hge, List.map_cons, List.cons_append, id, hrest]

/-- So for the last line, without a newline. -/
theorem linesOf_lastLine (hx : '\n' ∉ x) (hne : x ≠ []) :
    linesOf x = (pieces x).map stripLineEnd := by
  induction hlen : x.length using Nat.strongRecOn generalizing x with
  | ind n ih =>
    rcases Nat.lt_or_ge x.length 4095 with hlt | hge
    · rw [linesOf_last hx hlt hne, pieces_of_le hlt.le]
      rfl
    · have hread := readLine_of_ne_nil hne
      have hfgets := fgets_of_le hx hge []
      rw [List.append_nil, List.append_nil] at hfgets
      rw [hfgets] at hread
      rw [linesOf_eq hread]
      by_cases hnil : x.drop 4095 = []
      · have hle : x.length ≤ 4095 := List.drop_eq_nil_iff.mp hnil
        rw [pieces_of_le hle, List.take_of_length_le hle, id, hnil]
        rfl
      · have hdrop : '\n' ∉ x.drop 4095 := fun h => hx (List.mem_of_mem_drop h)
        have hrest := ih (x.drop 4095).length (by rw [List.length_drop]; omega) hdrop hnil rfl
        have hlong : 4095 < x.length := by
          rw [List.drop_eq_nil_iff] at hnil
          omega
        rw [pieces_of_lt hlong, List.map_cons, id, hrest]

/-- `ReadLine` returns the pieces of the lines. -/
theorem linesOf_eq_flatMap (s : Str) :
    linesOf s = (rawLines s).flatMap fun l => (pieces l).map stripLineEnd := by
  induction s using DelimitedLines.induction (d := '\n') with
  | nil => rfl
  | last x hx hne =>
    rw [linesOf_lastLine hx hne, rawLines, DelimitedLines.lines_last hx hne, List.flatMap_singleton]
  | line x s hx ih =>
    rw [linesOf_line hx, ih, rawLines, rawLines, DelimitedLines.lines_line hx, List.flatMap_cons]

/-! ## A loop that trims the lines and passes over blank ones -/

/-- A line that such a loop reads whole. -/
structure ReadWhole (l : Str) : Prop where
  length_le : l.length ≤ 4095
  no_break : '\n' ∉ l
  no_nul : '\x00' ∉ l

instance (l : Str) : Decidable (ReadWhole l) :=
  decidable_of_iff (l.length ≤ 4095 ∧ '\n' ∉ l ∧ '\x00' ∉ l)
    ⟨fun h => ⟨h.1, h.2.1, h.2.2⟩, fun h => ⟨h.1, h.2, h.3⟩⟩

theorem ReadWhole.of_sublist (h : ReadWhole l) (hx : x.Sublist l) : ReadWhole x :=
  ⟨hx.length_le.trans h.length_le, fun hc => h.no_break (hx.subset hc),
    fun hc => h.no_nul (hx.subset hc)⟩

section Loop

variable {σ : Type} {f : σ → Str → σ}

/-- What the loop makes of a line, as `ReadLine` returns it. -/
def readBy (f : σ → Str → σ) (p : σ) (line : Str) : σ := (linesOf (line ++ ['\n'])).foldl f p

theorem readBy_eq (hx : '\n' ∉ x) (p : σ) :
    readBy f p x = ((pieces (x ++ ['\n'])).map stripLineEnd).foldl f p := by
  have hlines := linesOf_line hx []
  rw [readBy, hlines]
  exact congrArg (List.foldl f p) (List.append_nil _)

/-- A line and the lines below it. -/
theorem foldl_linesOf_line (hx : '\n' ∉ x) (s : Str) (p : σ) :
    (linesOf (x ++ '\n' :: s)).foldl f p = (linesOf s).foldl f (readBy f p x) := by
  rw [linesOf_line hx, List.foldl_append, readBy_eq hx]

/-- The newline of a line plays no part, but for a blank line that comes of it. -/
theorem map_pieces_newline (x : Str) :
    (pieces (x ++ ['\n'])).map stripLineEnd = (pieces x).map stripLineEnd ∨
      (pieces (x ++ ['\n'])).map stripLineEnd = (pieces x).map stripLineEnd ++ [[]] := by
  have hstrip : ∀ y : Str, stripLineEnd (y ++ ['\n']) = stripLineEnd y := by
    intro y
    rw [stripLineEnd, stripLineEnd, cStr, cStr]
    by_cases hy : '\x00' ∈ y
    · obtain ⟨a, b, rfl, -⟩ := List.eq_append_cons_of_mem hy
      rw [List.append_assoc, List.cons_append, takeWhile_append_cons (by simp),
        takeWhile_append_cons (by simp)]
    · have hall : ∀ c ∈ y, decide (c ≠ '\x00') = true := by
        intro c hc
        rw [decide_eq_true_eq]
        rintro rfl
        exact hy hc
      rw [List.takeWhile_append_of_pos hall, List.takeWhile_eq_self_iff.mpr hall]
      exact List.rdropWhile_concat_pos _ _ _ rfl
  induction hlen : x.length using Nat.strongRecOn generalizing x with
  | ind n ih =>
    rcases Nat.lt_trichotomy x.length 4095 with hlt | heq | hgt
    · rw [pieces_of_le hlt.le, pieces_of_le (by rw [List.length_append]; exact hlt)]
      exact .inl (congrArg (fun y => [y]) (hstrip x))
    · rw [pieces_of_le heq.le, pieces_append heq (List.cons_ne_nil _ _),
        pieces_of_le (l := ['\n']) (by decide)]
      exact .inr rfl
    · have hlong : 4095 < (x ++ ['\n']).length := by
        rw [List.length_append]
        exact Nat.lt_add_right _ hgt
      rw [pieces_of_lt hgt, pieces_of_lt hlong, List.take_append_of_le_length hgt.le,
        List.drop_append_of_le_length hgt.le, List.map_cons, List.map_cons]
      rcases ih (x.drop 4095).length (by rw [List.length_drop]; omega) (x.drop 4095) rfl with h | h
      · exact .inl (congrArg _ h)
      · exact .inr (congrArg _ h)

/-- The last line, without a newline. -/
theorem foldl_linesOf_last (hblank : ∀ p, f p [] = p) (hx : '\n' ∉ x) (p : σ) :
    (linesOf x).foldl f p = readBy f p x := by
  rw [readBy_eq hx]
  by_cases hne : x = []
  · rw [hne, List.nil_append, pieces_of_le (l := ['\n']) (by decide)]
    exact (hblank p).symm
  rw [linesOf_lastLine hx hne]
  rcases map_pieces_newline x with h | h
  · rw [h]
  · rw [h, List.foldl_append]
    exact (hblank _).symm

/-- The lines of a text with newlines between them, one after the other. -/
theorem foldl_linesOf_intercalate (hblank : ∀ p, f p [] = p) {ls : List Str}
    (hls : ∀ l ∈ ls, '\n' ∉ l) (p : σ) :
    (linesOf (['\n'].intercalate ls)).foldl f p = ls.foldl (readBy f) p := by
  induction ls generalizing p with
  | nil => rfl
  | cons l ls ih =>
    obtain ⟨hl, hls⟩ := List.forall_mem_cons.mp hls
    rcases ls with - | ⟨l', ls⟩
    · rw [List.intercalate_singleton, foldl_linesOf_last hblank hl, List.foldl_cons,
        List.foldl_nil]
    · rw [List.intercalate_cons_cons, List.append_assoc, List.singleton_append,
        foldl_linesOf_line hl, ih hls]
      rfl

theorem readBy_of_readWhole (hcongr : ∀ p l l', stringTrim l = stringTrim l' → f p l = f p l')
    (hblank : ∀ p, f p [] = p) (hl : ReadWhole l) (p : σ) : readBy f p l = f p l := by
  rw [← foldl_linesOf_last hblank hl.no_break]
  by_cases hne : l = []
  · rw [hne]
    exact (hblank p).symm
  · rw [linesOf_lastLine hl.no_break hne, pieces_of_le hl.length_le]
    exact hcongr p _ _ (stringTrim_stripLineEnd hl.no_nul)

/-- Lines that are read whole, one after the other. -/
theorem foldl_readBy (hcongr : ∀ p l l', stringTrim l = stringTrim l' → f p l = f p l')
    (hblank : ∀ p, f p [] = p) {ls : List Str} (hls : ∀ l ∈ ls, ReadWhole l) (p : σ) :
    ls.foldl (readBy f) p = ls.foldl f p := by
  induction ls generalizing p with
  | nil => rfl
  | cons l ls ih =>
    obtain ⟨hl, hls⟩ := List.forall_mem_cons.mp hls
    rw [List.foldl_cons, List.foldl_cons, readBy_of_readWhole hcongr hblank hl, ih hls]

theorem foldl_linesOf_readWhole (hcongr : ∀ p l l', stringTrim l = stringTrim l' → f p l = f p l')
    (hblank : ∀ p, f p [] = p) {ls : List Str} (hls : ∀ l ∈ ls, ReadWhole l) (p : σ) :
    (linesOf (['\n'].intercalate ls)).foldl f p = ls.foldl f p := by
  rw [foldl_linesOf_intercalate hblank fun l hl => (hls l hl).no_break,
    foldl_readBy hcongr hblank hls]

end Loop

/-! ## The number of the lines -/

theorem length_linesOf (s : Str) :
    (linesOf s).length = ((rawLines s).flatMap pieces).length := by
  rw [linesOf_eq_flatMap, ← List.map_flatMap, List.length_map]

theorem length_le_flatMap_pieces (ls : List Str) :
    ls.length ≤ (ls.flatMap pieces).length := by
  induction ls with
  | nil => exact Nat.le_refl 0
  | cons l ls ih =>
    have hpos := length_pieces_pos l
    rw [List.flatMap_cons, List.length_append, List.length_cons]
    omega

/-- There are as many pieces as lines where no line is cut. -/
theorem length_flatMap_pieces_iff {ls : List Str} :
    (ls.flatMap pieces).length = ls.length ↔ ∀ l ∈ ls, l.length ≤ 4095 := by
  induction ls with
  | nil => simp
  | cons l ls ih =>
    have hpos := length_pieces_pos l
    have hle := length_le_flatMap_pieces ls
    rw [List.forall_mem_cons, ← ih, ← length_pieces_eq_one_iff, List.flatMap_cons,
      List.length_append, List.length_cons]
    omega

/-- There is one more where one line is cut, once. -/
theorem exists_of_length_flatMap_pieces {ls : List Str}
    (h : (ls.flatMap pieces).length = ls.length + 1) :
    ∃ before l after, ls = before ++ l :: after ∧ (pieces l).length = 2 ∧
      ∀ l' ∈ before ++ after, l'.length ≤ 4095 := by
  induction ls with
  | nil => exact absurd h (by simp)
  | cons l ls ih =>
    have hpos := length_pieces_pos l
    have hle := length_le_flatMap_pieces ls
    rw [List.flatMap_cons, List.length_append, List.length_cons] at h
    by_cases hone : (pieces l).length = 1
    · obtain ⟨before, l', after, rfl, hl', hrest⟩ := ih (by omega)
      refine ⟨l :: before, l', after, rfl, hl', ?_⟩
      rw [List.cons_append, List.forall_mem_cons]
      exact ⟨length_pieces_eq_one_iff.mp hone, hrest⟩
    · refine ⟨[], l, ls, rfl, by omega, ?_⟩
      rw [List.nil_append, ← length_flatMap_pieces_iff]
      omega

theorem flatMap_pieces_of_le {ls : List Str} (h : ∀ l ∈ ls, l.length ≤ 4095) :
    (ls.flatMap fun l => (pieces l).map stripLineEnd) = ls.map stripLineEnd := by
  induction ls with
  | nil => rfl
  | cons l ls ih =>
    rw [List.forall_mem_cons] at h
    rw [List.flatMap_cons, ih h.2, pieces_of_le h.1, List.map_cons]
    rfl

/-! ## What is stripped -/

theorem mem_of_mem_rawLines {c : Char} (hl : l ∈ rawLines s) (hc : c ∈ l) : c ∈ s := by
  rw [← DelimitedLines.flatten_lines '\n' s]
  exact List.mem_flatten_of_mem hl hc

theorem stripLineEnd_of_not_mem (hnul : '\x00' ∉ l) :
    stripLineEnd l = l.rdropWhile isLineEnd := by
  have hcStr : cStr l = l := List.takeWhile_eq_self_iff.mpr fun c hc => by
    simpa using fun h : c = '\x00' => hnul (h ▸ hc)
  rw [stripLineEnd, hcStr]

/-- Without carriage returns only the newline is stripped. -/
theorem stripLineEnd_eq_text (hl : l ∈ rawLines s) (hnul : '\x00' ∉ s) (hcr : '\r' ∉ s) :
    stripLineEnd l = text '\n' l := by
  have hsub : ∀ c ∈ l, c ∈ s := fun c hc => mem_of_mem_rawLines hl hc
  have hself : ∀ x : Str, (∀ c ∈ x, c ∈ s) → '\n' ∉ x → x.rdropWhile isLineEnd = x := by
    intro x hx hnewline
    rw [List.rdropWhile_eq_self_iff]
    intro hne hend
    have hmem := List.getLast_mem hne
    rcases Bool.or_eq_true_iff.mp hend with h | h
    · exact hnewline (of_decide_eq_true h ▸ hmem)
    · exact hcr (hx _ (of_decide_eq_true h ▸ hmem))
  rw [stripLineEnd_of_not_mem fun h => hnul (hsub _ h)]
  obtain ⟨-, x, hx, rfl | rfl⟩ := DelimitedLines.exists_of_mem_lines hl
  · rw [hself l hsub hx, DelimitedLines.text_of_not_mem hx]
  · rw [DelimitedLines.text_append hx, rdropWhile_append_of_forall (by simp [isLineEnd])]
    exact hself x (fun c hc => hsub c (List.mem_append_left _ hc)) hx

/-! ## One call after the other -/

theorem linesOf_of_readLine_eq_none (h : readLine s = none) : linesOf s = [] := by
  cases s with
  | nil => rfl
  | cons c s => cases h

/-- The calls return the pieces, and `false` after them. -/
theorem calls_eq (n : ℕ) (s : Str) : calls n s = resize none n ((linesOf s).map some) := by
  induction n generalizing s with
  | zero => rw [Overwriting.resize_zero, calls]
  | succ n ih =>
    rw [calls]
    cases h : readLine s with
    | none =>
      simp only [ih, linesOf_of_readLine_eq_none h]
      simp [resize, List.replicate_succ]
    | some p =>
      simp only [ih, linesOf_eq (Prod.eta p ▸ h)]
      simp [resize]

/-- Enough calls tell what they return. -/
theorem eq_of_forall_resize {ls ls' : List Str}
    (h : ∀ n, resize none n (ls.map some) = resize none n (ls'.map some)) : ls = ls' := by
  have hfilter : ∀ (ls : List Str) n, ls.length ≤ n →
      (resize none n (ls.map some)).filterMap id = ls := by
    intro ls n hn
    rw [resize, List.take_of_length_le (by rwa [List.length_map]), List.filterMap_append]
    simp
  have hn := congrArg (List.filterMap id) (h (max ls.length ls'.length))
  rwa [hfilter ls _ (Nat.le_max_left _ _), hfilter ls' _ (Nat.le_max_right _ _)] at hn

theorem linesOf_eq_lineTexts_iff (hnul : '\x00' ∉ s) (hcr : '\r' ∉ s) :
    linesOf s = lineTexts s ↔ ∀ l ∈ rawLines s, l.length ≤ 4095 := by
  have htexts : (rawLines s).map stripLineEnd = lineTexts s := by
    apply List.map_congr_left
    intro l hl
    exact stripLineEnd_eq_text hl hnul hcr
  constructor
  · intro h
    have hlen := congrArg List.length h
    rw [length_linesOf, lineTexts, List.length_map] at hlen
    exact length_flatMap_pieces_iff.mp hlen
  · intro h
    rw [linesOf_eq_flatMap, flatMap_pieces_of_le h, htexts]

theorem readsLines_iff_linesOf : ReadsLines s ↔ linesOf s = lineTexts s := by
  constructor
  · intro h
    apply eq_of_forall_resize
    intro n
    rw [← calls_eq, h n]
  · intro h n
    rw [calls_eq, h]

/-- The calls return the lines exactly when every line fits in the buffer with its newline. -/
theorem calls_iff (hnul : '\x00' ∉ s) (hcr : '\r' ∉ s) :
    ReadsLines s ↔ ∀ l ∈ rawLines s, l.length ≤ 4095 :=
  readsLines_iff_linesOf.trans (linesOf_eq_lineTexts_iff hnul hcr)

theorem calls_iff_twoLines :
    ReadsLines ['a', '\n', 'b'] ↔ ∀ l ∈ rawLines ['a', '\n', 'b'], l.length ≤ 4095 :=
  calls_iff (by decide) (by decide)

/-- A line that fills the buffer without its newline: the newline comes as an empty line. -/
theorem calls_fullBuffer : ¬ReadsLines (List.replicate 4095 'x' ++ ['\n']) := by
  have hx : ∀ c ∈ List.replicate 4095 'x', c = 'x' := fun c hc => List.eq_of_mem_replicate hc
  have hnone : ∀ c, c ≠ 'x' → c ≠ '\n' → c ∉ List.replicate 4095 'x' ++ ['\n'] := by
    intro c hcx hcn hc
    rw [List.mem_append, List.mem_singleton] at hc
    rcases hc with hc | hc
    · exact hcx (hx c hc)
    · exact hcn hc
  have hline : '\n' ∉ List.replicate 4095 'x' := fun h => absurd (hx _ h) (by decide)
  rw [readsLines_iff_linesOf,
    linesOf_eq_lineTexts_iff (hnone _ (by decide) (by decide)) (hnone _ (by decide) (by decide)),
    rawLines, DelimitedLines.lines_line hline]
  intro h
  have hlen := h _ List.mem_cons_self
  rw [List.length_append, List.length_replicate, List.length_singleton] at hlen
  omega

/-! ## A limited call, and an unlimited one -/

/-- Without a limit, the loop collects the pieces. -/
theorem collectLines_none (hn : s.length < n) : (collectLines n none s).1 = linesOf s := by
  induction n generalizing s with
  | zero => exact absurd hn (Nat.not_lt_zero _)
  | succ n ih =>
    rw [collectLines]
    cases h : readLine s with
    | none => exact (linesOf_of_readLine_eq_none h).symm
    | some p =>
      have hlen := length_readLine h
      rw [linesOf_eq (Prod.eta p ▸ h)]
      exact congrArg (p.1 :: ·) (ih (by omega))

/-- With a limit, it leaves one piece out between those it collects and those it leaves. -/
theorem collectLines_some (hn : s.length < n) :
    (collectLines n (some k) s).1 = (linesOf s).take k ∧
      linesOf (collectLines n (some k) s).2 = (linesOf s).drop (k + 1) := by
  induction n generalizing s k with
  | zero => exact absurd hn (Nat.not_lt_zero _)
  | succ n ih =>
    rw [collectLines]
    cases h : readLine s with
    | none =>
      have hnil := linesOf_of_readLine_eq_none h
      simp [hnil]
    | some p =>
      have hlen := length_readLine h
      rw [linesOf_eq (Prod.eta p ▸ h)]
      cases k with
      | zero => exact ⟨rfl, rfl⟩
      | succ k =>
        obtain ⟨hfirst, hrest⟩ := ih (s := p.2) (k := k) (by omega)
        exact ⟨congrArg (p.1 :: ·) hfirst, hrest⟩

/-- Two places at which leaving out an entry gives the same. -/
theorem eraseIdx_eq_iff_of_le {α : Type} {q : List α} {m j : ℕ} (hmj : m ≤ j) :
    q.eraseIdx m = q.eraseIdx j ↔ ∀ i, m ≤ i → i ≤ j → q[i]? = q[j]? := by
  constructor
  · intro h i hi hij
    induction hij using Nat.decreasingInduction with
    | self => rfl
    | of_succ i hlt ih =>
      have hget := congrArg (·[i]?) h
      simp only [List.getElem?_eraseIdx, if_neg (Nat.not_lt_of_le hi), if_pos hlt] at hget
      rw [← hget, ih (Nat.le_succ_of_le hi)]
  · intro h
    apply List.ext_getElem?
    intro i
    rw [List.getElem?_eraseIdx, List.getElem?_eraseIdx]
    by_cases hi : i < m
    · rw [if_pos hi, if_pos (Nat.lt_of_lt_of_le hi hmj)]
    · by_cases hij : i < j
      · rw [if_neg hi, if_pos hij, h (i + 1) (by omega) hij, h i (by omega) hij.le]
      · rw [if_neg hi, if_neg hij]

/-- From either side: the entries between the two places are equal. -/
theorem eraseIdx_eq_iff {α : Type} {q : List α} {m j : ℕ} :
    q.eraseIdx m = q.eraseIdx j ↔ ∀ i, min m j ≤ i → i ≤ max m j → q[i]? = q[j]? := by
  rcases Nat.le_total m j with hmj | hjm
  · rw [eraseIdx_eq_iff_of_le hmj, Nat.min_eq_left hmj, Nat.max_eq_right hmj]
  · rw [eq_comm, eraseIdx_eq_iff_of_le hjm, Nat.min_eq_right hjm, Nat.max_eq_left hjm]
    constructor
    · intro h i hi him
      rw [h i hi him, h j le_rfl hjm]
    · intro h i hi him
      rw [h i hi him, h m hjm le_rfl]

theorem readTwice_eq (hn : 1 ≤ n) (s : Str) : readTwice n s = (linesOf s).eraseIdx n := by
  have hlimit : (some (n : Int)).bind (fun n => if n ≤ 0 then none else some n.toNat) =
      some n := by
    rw [Option.bind_some, if_neg (by omega), Int.toNat_natCast]
  obtain ⟨hfirst, hrest⟩ := @collectLines_some (s.length + 1) n s (Nat.lt_succ_self _)
  rw [readTwice, readFileIntoVector, hlimit, List.eraseIdx_eq_take_drop_succ, ← hrest, ← hfirst]
  exact congrArg (_ ++ ·) (collectLines_none (Nat.lt_succ_self _))

theorem readTwice_eq_linesOf_iff (hn : 1 ≤ n) :
    readTwice n s = linesOf s ↔ (linesOf s).length ≤ n := by
  rw [readTwice_eq hn]
  constructor
  · intro h
    have hlen := congrArg List.length h
    rw [List.length_eraseIdx] at hlen
    split_ifs at hlen
    all_goals omega
  · intro h
    exact List.eraseIdx_of_length_le h

theorem subset_of_mem_pieces (hx : x ∈ pieces l) : x ⊆ l := by
  induction l using pieces.induct with
  | case1 l hl =>
    rw [pieces_of_le hl, List.mem_singleton] at hx
    exact hx ▸ List.Subset.refl l
  | case2 l hl ih =>
    rw [pieces_of_lt (Nat.lt_of_not_le hl), List.mem_cons] at hx
    rcases hx with rfl | hx
    · exact List.take_subset _ _
    · exact List.Subset.trans (ih hx) (List.drop_subset _ _)

theorem length_le_of_mem_pieces (hx : x ∈ pieces l) : x.length ≤ 4095 := by
  induction l using pieces.induct with
  | case1 l hl =>
    rw [pieces_of_le hl, List.mem_singleton] at hx
    exact hx ▸ hl
  | case2 l hl ih =>
    rw [pieces_of_lt (Nat.lt_of_not_le hl), List.mem_cons] at hx
    rcases hx with rfl | hx
    · exact List.length_take_le _ _
    · exact ih hx

/-- What `ReadLine` returns is a line that fits. -/
theorem readWhole_of_mem_linesOf (hl : l ∈ linesOf s) : ReadWhole l := by
  have hpieces : ∀ {x : Str}, '\n' ∉ x → ∀ y ∈ (pieces x).map stripLineEnd, ReadWhole y := by
    intro x hx y hy
    obtain ⟨z, hz, rfl⟩ := List.mem_map.mp hy
    have hnul : '\x00' ∉ cStr z := fun h => by simpa using List.mem_takeWhile_imp h
    have hstrip : stripLineEnd z <+: cStr z := List.rdropWhile_prefix _ _
    have hcut : cStr z <+: z := List.takeWhile_prefix _
    exact ⟨(hstrip.trans hcut).length_le.trans (length_le_of_mem_pieces hz),
      fun h => hx (subset_of_mem_pieces hz ((hstrip.trans hcut).subset h)),
      fun h => hnul (hstrip.subset h)⟩
  induction s using DelimitedLines.induction (d := '\n') with
  | nil => cases hl
  | last x hx hne =>
    rw [linesOf_lastLine hx hne] at hl
    exact hpieces hx l hl
  | line x s hx ih =>
    rw [linesOf_line hx, List.mem_append] at hl
    rcases hl with hl | hl
    · rcases map_pieces_newline x with h | h
      · rw [h] at hl
        exact hpieces hx l hl
      · rw [h, List.mem_append, List.mem_singleton] at hl
        rcases hl with hl | rfl
        · exact hpieces hx l hl
        · decide
    · exact ih hl

theorem stripLineEnd_eq_nil_iff (hb : '\x00' ∉ b) :
    stripLineEnd b = [] ↔ ∀ c ∈ b, isLineEnd c = true := by
  rw [stripLineEnd_of_not_mem hb, List.rdropWhile_eq_nil_iff]

/-- A blank end of a line is stripped with what is blank before it. -/
theorem stripLineEnd_append (hnul : '\x00' ∉ a ++ b) (hb : stripLineEnd b = []) :
    stripLineEnd (a ++ b) = stripLineEnd a := by
  have hbnul : '\x00' ∉ b := fun h => hnul (List.mem_append_right a h)
  have hanul : '\x00' ∉ a := fun h => hnul (List.mem_append_left b h)
  rw [stripLineEnd_of_not_mem hnul, stripLineEnd_of_not_mem hanul]
  exact rdropWhile_append_of_forall ((stripLineEnd_eq_nil_iff hbnul).mp hb) a

/-- Another end of a line stays, and all that is before it. -/
theorem length_lt_stripLineEnd (hnul : '\x00' ∉ a ++ b) (hb : stripLineEnd b ≠ []) :
    a.length < (stripLineEnd (a ++ b)).length := by
  have hbnul : '\x00' ∉ b := fun h => hnul (List.mem_append_right a h)
  rw [Ne, stripLineEnd_eq_nil_iff hbnul] at hb
  push Not at hb
  obtain ⟨c, hmem, hc⟩ := hb
  obtain ⟨l, r, rfl⟩ := List.append_of_mem hmem
  have hkeep := rdropWhile_append_cons (Bool.eq_false_iff.mpr hc) (a ++ l) r
  rw [stripLineEnd_of_not_mem hnul, ← List.append_assoc, hkeep]
  simp only [List.length_append, List.length_cons]
  omega

section Cut

variable {before after : List Str} (hraw : rawLines s = before ++ (a ++ b) :: after)
  (ha : a.length = 4095) (hb : b ≠ []) (hlen : b.length ≤ 4095)
  (hrest : ∀ l ∈ before ++ after, l.length ≤ 4095)

include hraw ha hb hlen hrest

/-- The pieces around a line that is cut once. -/
theorem linesOf_of_cut :
    linesOf s = before.map stripLineEnd ++
      stripLineEnd a :: stripLineEnd b :: after.map stripLineEnd := by
  have hbefore : ∀ l ∈ before, l.length ≤ 4095 := fun l hl => hrest l (List.mem_append_left _ hl)
  have hafter : ∀ l ∈ after, l.length ≤ 4095 := fun l hl => hrest l (List.mem_append_right _ hl)
  rw [linesOf_eq_flatMap, hraw, List.flatMap_append, List.flatMap_cons,
    flatMap_pieces_of_le hbefore, flatMap_pieces_of_le hafter, pieces_append ha hb,
    pieces_of_le hlen]
  rfl

/-- The lines are the pieces without the blank one. -/
theorem strippedLines_of_cut (hnul : '\x00' ∉ s) (hblank : stripLineEnd b = []) :
    strippedLines s = (linesOf s).eraseIdx (before.length + 1) := by
  have hmem : a ++ b ∈ rawLines s := hraw ▸ List.mem_append_right before List.mem_cons_self
  have hcut : '\x00' ∉ a ++ b := fun h => hnul (mem_of_mem_rawLines hmem h)
  rw [strippedLines, hraw, linesOf_of_cut hraw ha hb hlen hrest, List.map_append, List.map_cons,
    stripLineEnd_append hcut hblank,
    List.eraseIdx_append_of_length_le (by rw [List.length_map]; omega), List.length_map,
    Nat.add_sub_cancel_left]
  rfl

theorem getElem?_linesOf_of_cut : (linesOf s)[before.length + 1]? = some (stripLineEnd b) := by
  rw [linesOf_of_cut hraw ha hb hlen hrest,
    List.getElem?_append_right (by rw [List.length_map]; omega), List.length_map,
    Nat.add_sub_cancel_left]
  rfl

end Cut

theorem readTwice_eq_strippedLines_iff (hn : 1 ≤ n) (hnul : '\x00' ∉ s) :
    readTwice n s = strippedLines s ↔
      (∀ l ∈ rawLines s, l.length ≤ 4095) ∧ (rawLines s).length ≤ n ∨ LeavesOutBlank n s := by
  rw [readTwice_eq hn]
  constructor
  · intro h
    have hlength := congrArg List.length h
    rw [List.length_eraseIdx, strippedLines, List.length_map, length_linesOf] at hlength
    by_cases hle : (linesOf s).length ≤ n
    · rw [length_linesOf] at hle
      rw [if_neg (Nat.not_lt_of_le hle)] at hlength
      exact .inl ⟨length_flatMap_pieces_iff.mp hlength, hlength ▸ hle⟩
    · have hpos := Nat.lt_of_not_le hle
      rw [length_linesOf] at hpos
      rw [if_pos hpos] at hlength
      obtain ⟨before, l, after, hraw, htwo, hrest⟩ :=
        @exists_of_length_flatMap_pieces (rawLines s) (by omega)
      obtain ⟨a, b, rfl, ha, hb, hlen⟩ := exists_of_length_pieces_eq_two htwo
      refine .inr ⟨before, a, b, after, hraw, ha, hb, hlen, hrest, ?_⟩
      have hcut : a ++ b ∈ rawLines s := hraw ▸ List.mem_append_right before List.mem_cons_self
      have hblank : stripLineEnd b = [] := by
        by_contra hne
        have hsub : '\x00' ∉ a ++ b := fun h => hnul (mem_of_mem_rawLines hcut h)
        -- The whole line is longer than any piece.
        have hlong := length_lt_stripLineEnd hsub hne
        have hmem : stripLineEnd (a ++ b) ∈ (linesOf s).eraseIdx n := by
          rw [h]
          exact List.mem_map_of_mem hcut
        have hshort := (readWhole_of_mem_linesOf (List.mem_of_mem_eraseIdx hmem)).length_le
        omega
      have hget := getElem?_linesOf_of_cut hraw ha hb hlen hrest
      rw [strippedLines_of_cut hraw ha hb hlen hrest hnul hblank, eraseIdx_eq_iff] at h
      intro i hi hmax
      rw [h i hi hmax, hget, hblank]
  · rintro (⟨hfit, hle⟩ | ⟨before, a, b, after, hraw, ha, hb, hlen, hrest, hall⟩)
    · have hlines : linesOf s = strippedLines s := by
        rw [linesOf_eq_flatMap, flatMap_pieces_of_le hfit, strippedLines]
      rw [hlines, List.eraseIdx_of_length_le]
      rwa [strippedLines, List.length_map]
    · have hget := getElem?_linesOf_of_cut hraw ha hb hlen hrest
      have hsome := hall (before.length + 1) (Nat.min_le_right _ _) (Nat.le_max_right _ _)
      have hblank : stripLineEnd b = [] := Option.some.inj (hget.symm.trans hsome)
      rw [strippedLines_of_cut hraw ha hb hlen hrest hnul hblank, eraseIdx_eq_iff]
      intro i hi hmax
      rw [hall i hi hmax, hsome]

/-- The two calls return every line exactly when there are no more than the limit: of the lines as
`ReadLine` reads them, and of the lines that the newlines set apart, where none is cut or the
blank end of one is left out. -/
theorem readTwice_iff (hn : 1 ≤ n) (hnul : '\x00' ∉ s) :
    (readTwice n s = linesOf s ↔ (linesOf s).length ≤ n) ∧
      (readTwice n s = strippedLines s ↔
        (∀ l ∈ rawLines s, l.length ≤ 4095) ∧ (rawLines s).length ≤ n ∨ LeavesOutBlank n s) :=
  ⟨readTwice_eq_linesOf_iff hn, readTwice_eq_strippedLines_iff hn hnul⟩

theorem readTwice_iff_twoLines :
    (readTwice 2 ['a', '\n', 'b'] = linesOf ['a', '\n', 'b'] ↔
        (linesOf ['a', '\n', 'b']).length ≤ 2) ∧
      (readTwice 2 ['a', '\n', 'b'] = strippedLines ['a', '\n', 'b'] ↔
        (∀ l ∈ rawLines ['a', '\n', 'b'], l.length ≤ 4095) ∧
          (rawLines ['a', '\n', 'b']).length ≤ 2 ∨ LeavesOutBlank 2 ['a', '\n', 'b']) :=
  readTwice_iff (by decide) (by decide)

/-- The second of three lines is lost. -/
theorem readTwice_threeLines :
    readTwice 1 ['a', '\n', 'b', '\n', 'c'] ≠ linesOf ['a', '\n', 'b', '\n', 'c'] ∧
      readTwice 1 ['a', '\n', 'b', '\n', 'c'] ≠ strippedLines ['a', '\n', 'b', '\n', 'c'] := by
  decide

end WwivBasic
