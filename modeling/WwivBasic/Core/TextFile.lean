import WwivBasic.Core.Strings
import Mathlib.Data.List.DropRight

/-!
# Reading a file line by line

`TextFile::ReadLine` reads with `fgets` into a buffer of 4096 characters, one of them for the final
NUL. What it returns is the line up to its first NUL, without the line break: a longer line comes in
pieces. `StringTrim` takes the white space off both ends of a text.

## Main definitions

* `stringTrim`: the text without the white space around it
* `fgets`, `readLine`: one line
* `linesOf`: the lines of a file

## Main results

* `stringTrim_blanks`: white space around a text plays no part
* `linesOf_cons`, `linesOf_last`: a line that fits in the buffer is read whole
-/

namespace WwivBasic

/-! ## White space -/

/-- `DELIMS_WHITE`. -/
def isWhite (c : Char) : Bool := c = ' ' || c = '\t' || c = '\r' || c = '\n'

/-- `StringTrim`. -/
def stringTrim (s : Str) : Str := (s.dropWhile isWhite).rdropWhile isWhite

section Trim

variable {c : Char} {s b a : Str}

theorem rdropWhile_append_cons {p : Char → Bool} (hc : p c = false) (l r : Str) :
    (l ++ c :: r).rdropWhile p = l ++ c :: r.rdropWhile p := by
  induction r using List.reverseRecOn with
  | nil => simp [hc]
  | append_singleton r d ih =>
    have hassoc : l ++ c :: (r ++ [d]) = l ++ c :: r ++ [d] := by simp
    rw [hassoc, List.rdropWhile_concat, List.rdropWhile_concat]
    cases p d with
    | true => exact ih
    | false => simp

theorem dropWhile_append_cons {p : Char → Bool} (hc : p c = false) (l r : Str) :
    (l ++ c :: r).dropWhile p = l.dropWhile p ++ c :: r := by
  induction l with
  | nil => simp [hc]
  | cons d l ih => cases hd : p d <;> simp [hd, ih]

theorem takeWhile_append_cons {p : Char → Bool} (hc : p c = false) (l r : Str) :
    (l ++ c :: r).takeWhile p = l.takeWhile p := by
  induction l with
  | nil => simp [hc]
  | cons d l ih => cases hd : p d <;> simp [hd, ih]

/-- The trimmed text around a character that is not white space. -/
theorem stringTrim_append (hc : isWhite c = false) (l r : Str) :
    stringTrim (l ++ c :: r) = l.dropWhile isWhite ++ c :: r.rdropWhile isWhite := by
  rw [stringTrim, dropWhile_append_cons hc, rdropWhile_append_cons hc]

theorem stringTrim_of_forall (hs : ∀ c ∈ s, isWhite c = true) : stringTrim s = [] := by
  rw [stringTrim, List.dropWhile_eq_nil_iff.mpr hs]
  rfl

theorem rdropWhile_append_of_forall {p : Char → Bool} (ha : ∀ c ∈ a, p c = true) (s : Str) :
    (s ++ a).rdropWhile p = s.rdropWhile p := by
  rw [List.rdropWhile, List.reverse_append, List.dropWhile_append_of_pos (by simpa using ha)]
  rfl

/-- A text is blank, or some character of it is no white space. -/
theorem forall_isWhite_or (s : Str) : (∀ c ∈ s, isWhite c = true) ∨
    ∃ l c r, s = l ++ c :: r ∧ isWhite c = false := by
  by_cases hs : ∀ c ∈ s, isWhite c = true
  · exact .inl hs
  · push Not at hs
    obtain ⟨c, hmem, hc⟩ := hs
    obtain ⟨l, r, rfl⟩ := List.append_of_mem hmem
    exact .inr ⟨l, c, r, rfl, by simpa using hc⟩

/-- White space around a text plays no part. -/
theorem stringTrim_blanks (hb : ∀ c ∈ b, isWhite c = true) (ha : ∀ c ∈ a, isWhite c = true) :
    stringTrim (b ++ (s ++ a)) = stringTrim s := by
  rcases forall_isWhite_or s with hs | ⟨l, c, r, rfl, hc⟩
  · rw [stringTrim_of_forall hs, stringTrim_of_forall]
    intro c hc
    simp only [List.mem_append] at hc
    rcases hc with hc | hc | hc
    · exact hb c hc
    · exact hs c hc
    · exact ha c hc
  · have hassoc : b ++ (l ++ c :: r ++ a) = (b ++ l) ++ c :: (r ++ a) := by simp
    rw [hassoc, stringTrim_append hc, stringTrim_append hc, List.dropWhile_append_of_pos hb]
    congr 2
    exact rdropWhile_append_of_forall ha r

/-- Only the end of a text decides on its last character. -/
theorem getLast?_stringTrim (s : Str) :
    (stringTrim s).getLast? = (s.rdropWhile isWhite).getLast? := by
  rcases forall_isWhite_or s with hs | ⟨l, c, r, rfl, hc⟩
  · rw [stringTrim_of_forall hs, List.rdropWhile_eq_nil_iff.mpr hs]
  · rw [stringTrim_append hc, rdropWhile_append_cons hc, List.getLast?_append_cons,
      List.getLast?_append_cons]

/-- Only the beginning of a text decides on its first character. -/
theorem head?_stringTrim (s : Str) : (stringTrim s).head? = (s.dropWhile isWhite).head? := by
  rcases forall_isWhite_or s with hs | ⟨l, c, r, rfl, hc⟩
  · rw [stringTrim_of_forall hs, List.dropWhile_eq_nil_iff.mpr hs]
  · rw [stringTrim_append hc, dropWhile_append_cons hc, List.head?_append, List.head?_append]
    rfl

theorem stringTrim_isInfix (s : Str) : stringTrim s <:+: s :=
  (List.rdropWhile_prefix isWhite _).isInfix.trans (List.dropWhile_suffix isWhite).isInfix

theorem stringTrim_dropWhile (s : Str) : stringTrim (s.dropWhile isWhite) = stringTrim s := by
  rw [stringTrim, List.dropWhile_idempotent]
  rfl

/-- What is taken off the end is white space. -/
theorem stringTrim_rdropWhile {p : Char → Bool} (hp : ∀ c, p c = true → isWhite c = true)
    (s : Str) : stringTrim (s.rdropWhile p) = stringTrim s := by
  have hs := stringTrim_blanks (b := []) (s := s.rdropWhile p) (a := s.rtakeWhile p) (by simp)
    fun c hc => hp c (List.mem_rtakeWhile_imp hc)
  rwa [List.nil_append, List.rdropWhile_append_rtakeWhile, eq_comm] at hs

end Trim

/-! ## Lines -/

/-- `fgets` with room for `n` characters: what is read, and what is left of the file. -/
def fgets : ℕ → Str → Str × Str
  | 0, s => ([], s)
  | _, [] => ([], [])
  | n + 1, c :: s => if c = '\n' then ([c], s) else ((fgets n s).map (c :: ·) id)

/-- A carriage return or a line feed. -/
def isLineEnd (c : Char) : Bool := c = '\n' || c = '\r'

/-- `StripLineEnd`. -/
def stripLineEnd (s : Str) : Str := (cStr s).rdropWhile isLineEnd

/-- `ReadLine`: one line and the rest of the file, unless it is at its end. -/
def readLine : Str → Option (Str × Str)
  | [] => none
  | c :: s => some ((fgets 4095 (c :: s)).map stripLineEnd id)

/-- The lines that `ReadLine` returns one after the other. Each takes at least one character. -/
def readLines : ℕ → Str → List Str
  | 0, _ => []
  | n + 1, s =>
    match readLine s with
    | none => []
    | some (line, s) => line :: readLines n s

/-- The lines of a file. -/
def linesOf (s : Str) : List Str := readLines s.length s

section Lines

variable {n : ℕ} {l s : Str}

/-- A line, and the end of the file or a line break. -/
theorem fgets_line (hl : '\n' ∉ l) (hn : l.length < n) :
    fgets n l = (l, []) ∧ fgets n (l ++ '\n' :: s) = (l ++ ['\n'], s) := by
  induction l generalizing n with
  | nil =>
    obtain ⟨n, rfl⟩ : ∃ m, n = m + 1 := ⟨n - 1, by simp at hn; omega⟩
    simp [fgets]
  | cons c l ih =>
    simp only [List.mem_cons, not_or, List.length_cons] at hl hn
    obtain ⟨n, rfl⟩ : ∃ m, n = m + 1 := ⟨n - 1, by omega⟩
    obtain ⟨hend, hbreak⟩ := ih (n := n) hl.2 (by omega)
    rw [List.cons_append, fgets, fgets, if_neg (Ne.symm hl.1), if_neg (Ne.symm hl.1), hend, hbreak]
    simp

theorem length_fgets (n : ℕ) (s : Str) : (fgets n s).2.length ≤ s.length := by
  induction n, s using fgets.induct with
  | case1 s => exact le_rfl
  | case2 n hn => simp [fgets]
  | case3 n s => simp [fgets]
  | case4 n c s hc ih =>
    rw [fgets, if_neg hc]
    exact Nat.le_succ_of_le ih

theorem length_readLine {p : Str × Str} (h : readLine s = some p) : p.2.length < s.length := by
  rcases s with - | ⟨c, s⟩
  · cases h
  · obtain rfl := Option.some.inj h
    rw [fgets]
    split_ifs
    · simp
    · exact Nat.lt_succ_of_le (length_fgets _ s)

/-- More calls of `ReadLine` find no more lines. -/
theorem readLines_eq_of_le {m : ℕ} (hn : s.length ≤ n) (hm : s.length ≤ m) :
    readLines n s = readLines m s := by
  induction n generalizing m s with
  | zero =>
    obtain rfl := List.length_eq_zero_iff.mp (Nat.le_zero.mp hn)
    cases m <;> rfl
  | succ n ih =>
    rcases s with - | ⟨c, s⟩
    · cases m <;> rfl
    · obtain ⟨m, rfl⟩ : ∃ k, m = k + 1 := ⟨m - 1, by simp at hm; omega⟩
      rw [readLines, readLines]
      cases hp : readLine (c :: s) with
      | none => rfl
      | some p =>
        have hlen := length_readLine hp
        simp only [List.length_cons] at hn hm hlen
        exact congrArg (p.1 :: ·) (ih (by omega) (by omega))

theorem linesOf_eq {r : Str} (h : readLine s = some (l, r)) : linesOf s = l :: linesOf r := by
  have hlen := length_readLine h
  obtain ⟨n, hn⟩ : ∃ n, s.length = n + 1 := ⟨s.length - 1, by simp at hlen; omega⟩
  rw [linesOf, hn, readLines, h]
  exact congrArg (l :: ·) (readLines_eq_of_le (by simp at hlen; omega) le_rfl)

/-- A line that fits in the buffer with its line break is read whole. -/
theorem linesOf_cons (hl : '\n' ∉ l) (hn : l.length < 4095) :
    linesOf (l ++ '\n' :: s) = stripLineEnd (l ++ ['\n']) :: linesOf s := by
  apply linesOf_eq
  have hread : readLine (l ++ '\n' :: s) =
      some ((fgets 4095 (l ++ '\n' :: s)).map stripLineEnd id) := by
    cases l <;> rfl
  rw [hread, (fgets_line hl hn).2]
  rfl

/-- So is the last line, without a line break. -/
theorem linesOf_last (hl : '\n' ∉ l) (hn : l.length < 4095) (hne : l ≠ []) :
    linesOf l = [stripLineEnd l] := by
  have hread : readLine l = some ((fgets 4095 l).map stripLineEnd id) := by
    cases l with
    | nil => exact absurd rfl hne
    | cons c l => rfl
  rw [(fgets_line (s := []) hl hn).1] at hread
  exact linesOf_eq hread

/-- Without NULs in the line, white space around it is all that is lost. -/
theorem stringTrim_stripLineEnd (hl : '\x00' ∉ l) : stringTrim (stripLineEnd l) = stringTrim l := by
  have hc : cStr l = l := List.takeWhile_eq_self_iff.mpr fun c hc => by
    simpa using fun h : c = '\x00' => hl (h ▸ hc)
  rw [stripLineEnd, hc]
  apply stringTrim_rdropWhile
  intro c hc
  simp only [isLineEnd, Bool.or_eq_true, decide_eq_true_eq] at hc
  rcases hc with rfl | rfl <;> rfl

end Lines

end WwivBasic
