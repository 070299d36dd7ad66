import WwivBasic.Core.StringUtils
import WwivBasic.Core.TextLines

/-!
# Lines that are written

`TextFile::WriteLine` puts a text and a line end into a file, which is a carriage return and a line
feed in DOS mode. `fputs` stops at the first NUL of the text.

## Main definitions

* `TextWriter`, `TextWriter.new`: a `TextFile` that writes at its end, and its constructor
* `TextWriter.write`, `TextWriter.writeLine`: the operations
* `TextWriter.Keeps`: a line that is read back

## Main results

* `readFileIntoVector_writeLine_iff`: when the lines that are written are the lines that are read
-/

namespace WwivBasic

open DelimitedLines (Closed)

/-! ## The operations -/

/-- A `TextFile` that is open to write at its end, with what is in the file. -/
structure TextWriter where
  dos_mode_ : Bool
  contents : Str

namespace TextWriter

/-- What is in a file when `fopen` has opened it to write at its end. -/
def fopen (mode file : Str) : Option Str :=
  match mode with
  | 'w' :: _ => some []
  | 'a' :: _ => some file
  | _ => none

/-- The constructor of a `TextFile`. -/
def new (file_mode file : Str) : Option TextWriter := do
  let mode ← fopenCompatibleMode (file_mode.length + 1) file_mode
  let contents ← fopen mode file
  return ⟨'d' ∈ cStr file_mode, contents⟩

/-- `Write`. -/
def write (text : Str) (f : TextWriter) : Int × TextWriter :=
  (text.length, { f with contents := f.contents ++ cStr text })

/-- The end of a line. -/
def lineEnd (f : TextWriter) : Str := if f.dos_mode_ then ['\r', '\n'] else ['\n']

/-- `WriteLine`. The size of the line end is said to be 2 in both modes. -/
def writeLine (text : Str) (f : TextWriter) : Int × TextWriter :=
  let (num_written, f) := f.write text
  (num_written + 2, { f with contents := f.contents ++ f.lineEnd })

/-- Lines that are written one after the other. -/
def writeLines (lines : List Str) (f : TextWriter) : TextWriter :=
  lines.foldl (fun f text => (f.writeLine text).2) f

/-- **A line that is read back.** No part of it ends a line or a C string, its end is not taken for
a part of the line end, and it fits in the buffer of `ReadLine` with its line end. -/
structure Keeps (f : TextWriter) (l : Str) : Prop where
  no_nul : '\x00' ∉ l
  no_break : '\n' ∉ l
  last : l.getLast? ≠ some '\r'
  length_le : (l ++ f.lineEnd).length ≤ 4095

variable {f : TextWriter} {l : Str} {lines : List Str}

/-! ## What is written -/

theorem writeLines_eq (lines : List Str) (f : TextWriter) : f.writeLines lines =
    { f with contents := f.contents ++ lines.flatMap fun l => cStr l ++ f.lineEnd } := by
  induction lines generalizing f with
  | nil => rw [List.flatMap_nil, List.append_nil]; rfl
  | cons l lines ih =>
    have hline : (f.writeLine l).2 = { f with contents := f.contents ++ cStr l ++ f.lineEnd } := rfl
    have hend (contents : Str) : ({ f with contents } : TextWriter).lineEnd = f.lineEnd := rfl
    rw [writeLines, List.foldl_cons, ← writeLines, ih, hline, List.flatMap_cons]
    simp only [hend, List.append_assoc]

/-- Lines that are written stand apart. -/
theorem closed_written (l : Str) (f : TextWriter) : Closed '\n' (cStr l ++ f.lineEnd) := by
  right
  rw [lineEnd]
  split_ifs <;> simp

/-! ## What is read -/

theorem linesOf_append {s : Str} (hs : Closed '\n' s) (t : Str) :
    linesOf (s ++ t) = linesOf s ++ linesOf t := by
  rw [linesOf_eq_flatMap, linesOf_eq_flatMap, linesOf_eq_flatMap, rawLines, rawLines, rawLines,
    DelimitedLines.lines_append hs, List.flatMap_append]

theorem linesOf_written (lines : List Str) (f : TextWriter) :
    linesOf (lines.flatMap fun l => cStr l ++ f.lineEnd) =
      lines.flatMap fun l => linesOf (cStr l ++ f.lineEnd) := by
  induction lines with
  | nil => rfl
  | cons l lines ih =>
    rw [List.flatMap_cons, linesOf_append (closed_written l f), ih, List.flatMap_cons]

theorem linesOf_ne_nil {s : Str} (hs : s ≠ []) : linesOf s ≠ [] := by
  rw [linesOf_eq (readLine_of_ne_nil hs)]
  exact List.cons_ne_nil _ _

/-- Parts that are not empty make a list of as many elements when each makes its own. -/
theorem flatMap_eq_self_iff {α : Type} {g : α → List α} {as : List α} (hg : ∀ a, g a ≠ []) :
    as.flatMap g = as ↔ ∀ a ∈ as, g a = [a] := by
  have hlen : ∀ as : List α, as.length ≤ (as.flatMap g).length := by
    intro as
    induction as with
    | nil => exact Nat.le_refl 0
    | cons a as ih =>
      have hpos := List.length_pos_of_ne_nil (hg a)
      rw [List.flatMap_cons, List.length_append, List.length_cons]
      omega
  induction as with
  | nil => simp
  | cons a as ih =>
    rw [List.flatMap_cons, List.forall_mem_cons]
    constructor
    · intro h
      have hle := congrArg List.length h
      have has := hlen as
      rw [List.length_append, List.length_cons] at hle
      rcases hga : g a with - | ⟨b, rest⟩
      · exact absurd hga (hg a)
      · -- There is no room for more than one.
        rw [hga, List.length_cons] at hle
        obtain rfl : rest = [] := List.eq_nil_of_length_eq_zero (by omega)
        rw [hga, List.singleton_append] at h
        obtain ⟨rfl, hrest⟩ := List.cons.inj h
        exact ⟨rfl, ih.mp hrest⟩
    · rintro ⟨ha, has⟩
      rw [ha, ih.mpr has]
      rfl

/-- A line end is a newline, and nothing but a carriage return before it. -/
theorem exists_lineEnd (f : TextWriter) :
    ∃ e, f.lineEnd = e ++ ['\n'] ∧ '\n' ∉ e ∧ '\x00' ∉ e ∧ ∀ c ∈ e, isLineEnd c = true := by
  rcases hdos : f.dos_mode_ with - | -
  · refine ⟨[], ?_, by simp, by simp, by simp⟩
    simp [lineEnd, hdos]
  · refine ⟨['\r'], ?_, by simp, by simp, by simp [isLineEnd]⟩
    simp [lineEnd, hdos]

theorem not_mem_cStr (l : Str) : '\x00' ∉ cStr l := by
  intro h
  have hne := List.mem_takeWhile_imp h
  simp at hne

theorem cStr_of_not_mem (hl : '\x00' ∉ l) : cStr l = l := by
  apply List.takeWhile_eq_self_iff.mpr
  intro c hc
  rw [decide_eq_true_eq]
  rintro rfl
  exact hl hc

/-- Nothing is stripped off a line whose last character is no part of a line end. -/
theorem rdropWhile_isLineEnd_eq_self_iff (hl : '\n' ∉ l) :
    l.rdropWhile isLineEnd = l ↔ l.getLast? ≠ some '\r' := by
  rcases List.eq_nil_or_concat l with rfl | ⟨l, c, rfl⟩
  · simp
  · have hc : c ≠ '\n' := by
      rintro rfl
      exact hl (by simp)
    rw [List.concat_eq_append, List.rdropWhile_eq_self_iff, List.getLast?_concat]
    simp [isLineEnd, hc]

/-- What is stripped off a line that is written. -/
theorem stripLineEnd_written {x e : Str} (hx : '\x00' ∉ x) (he : '\x00' ∉ e)
    (hend : ∀ c ∈ e, isLineEnd c = true) :
    stripLineEnd (x ++ e ++ ['\n']) = x.rdropWhile isLineEnd := by
  have hnul : '\x00' ∉ x ++ e ++ ['\n'] := by simp [hx, he]
  have hall : ∀ c ∈ e ++ ['\n'], isLineEnd c = true := by
    intro c hc
    rcases List.mem_append.mp hc with hc | hc
    · exact hend c hc
    · rw [List.mem_singleton.mp hc]
      rfl
  rw [stripLineEnd_of_not_mem hnul, List.append_assoc, rdropWhile_append_of_forall hall]

/-- One line is read exactly where it keeps. -/
theorem linesOf_eq_singleton_iff : linesOf (cStr l ++ f.lineEnd) = [l] ↔ f.Keeps l := by
  obtain ⟨e, hlineEnd, hbreak, hnul, hend⟩ := exists_lineEnd f
  have hstrip := @stripLineEnd_written (cStr l) e (not_mem_cStr l) hnul hend
  have hread : '\n' ∉ cStr l → linesOf (cStr l ++ e ++ ['\n']) =
      (pieces (cStr l ++ e ++ ['\n'])).map stripLineEnd := by
    intro hl
    have hline : '\n' ∉ cStr l ++ e := by
      rw [List.mem_append, not_or]
      exact ⟨hl, hbreak⟩
    rw [linesOf_line hline, linesOf, List.length_nil, readLines, List.append_nil]
  rw [hlineEnd, ← List.append_assoc]
  constructor
  · intro h
    -- One line is read at least for every newline that is written.
    have hl : '\n' ∉ cStr l := by
      have hlen := congrArg List.length h
      have hle := length_le_flatMap_pieces (rawLines (cStr l ++ e ++ ['\n']))
      rw [length_linesOf, List.length_singleton] at hlen
      rw [hlen, rawLines, DelimitedLines.length_lines (by simp),
        DelimitedLines.chop_append_singleton] at hle
      have hcount : (cStr l ++ e).count '\n' = 0 := by omega
      exact fun hmem => List.count_eq_zero.mp hcount (List.mem_append_left e hmem)
    rw [hread hl] at h
    -- The line is not longer than what is read at once.
    have hone := congrArg List.length h
    rw [List.length_map, List.length_singleton, length_pieces_eq_one_iff] at hone
    rw [pieces_of_le hone, List.map_singleton, hstrip, List.singleton_inj] at h
    -- What is written ends at the first null.
    have hno : '\x00' ∉ l := by
      rw [← h]
      exact fun hmem => not_mem_cStr l ((List.rdropWhile_prefix _ _).mem hmem)
    rw [cStr_of_not_mem hno] at h hl hone
    refine ⟨hno, hl, (rdropWhile_isLineEnd_eq_self_iff hl).mp h, ?_⟩
    rwa [hlineEnd, ← List.append_assoc]
  · intro h
    have hle := h.length_le
    rw [hlineEnd, ← List.append_assoc] at hle
    rw [cStr_of_not_mem h.no_nul] at hread hstrip ⊢
    rw [hread h.no_break, pieces_of_le hle, List.map_singleton, hstrip,
      (rdropWhile_isLineEnd_eq_self_iff h.no_break).mpr h.last]

/-! ## What is written and read -/

theorem readFileIntoVector_none (s : Str) : (readFileIntoVector none s).1 = linesOf s :=
  collectLines_none (Nat.lt_succ_self _)

/-- A file that is opened is empty, or as it was. -/
theorem closed_new {file_mode file : Str} (hnew : TextWriter.new file_mode file = some f)
    (hfile : Closed '\n' file) : Closed '\n' f.contents := by
  rw [TextWriter.new, fopenCompatibleMode_eq (Nat.lt_succ_self _)] at hnew
  obtain ⟨mode, -, hnew⟩ := Option.bind_eq_some_iff.mp hnew
  obtain ⟨contents, hopen, hf⟩ := Option.bind_eq_some_iff.mp hnew
  obtain rfl := Option.some.inj hf
  -- The file is emptied, or it is as it was.
  unfold fopen at hopen
  split at hopen
  · obtain rfl := Option.some.inj hopen
    exact .inl rfl
  · obtain rfl := Option.some.inj hopen
    exact hfile
  · cases hopen

/-- **The lines that are written are the lines that are read.** After the lines of the file as it
was opened, and exactly where each of them keeps. -/
theorem readFileIntoVector_writeLine_iff {file_mode file : Str}
    (hnew : TextWriter.new file_mode file = some f) (hfile : Closed '\n' file) :
    (readFileIntoVector none (f.writeLines lines).contents).1 =
        (readFileIntoVector none f.contents).1 ++ lines ↔
      ∀ l ∈ lines, f.Keeps l := by
  have hne : ∀ l, linesOf (cStr l ++ f.lineEnd) ≠ [] := by
    intro l
    obtain ⟨e, hlineEnd, -⟩ := exists_lineEnd f
    exact linesOf_ne_nil (by simp [hlineEnd])
  rw [readFileIntoVector_none, readFileIntoVector_none, writeLines_eq,
    linesOf_append (closed_new hnew hfile), List.append_right_inj, linesOf_written,
    flatMap_eq_self_iff hne]
  simp only [linesOf_eq_singleton_iff]

theorem readFileIntoVector_writeLine_iff_dosFile :
    (readFileIntoVector none
        ((⟨true, "old\n".toList⟩ : TextWriter).writeLines
          ["a".toList, "".toList, "b c".toList]).contents).1 =
        (readFileIntoVector none "old\n".toList).1 ++ ["a".toList, "".toList, "b c".toList] ↔
      ∀ l ∈ ["a".toList, "".toList, "b c".toList],
        (⟨true, "old\n".toList⟩ : TextWriter).Keeps l :=
  @readFileIntoVector_writeLine_iff _ _ "ad".toList "old\n".toList rfl (.inr (by decide))

end TextWriter

end WwivBasic
