import Mathlib.Data.List.Basic

/-!
# Lines

A list, taken apart after every delimiter. Each line keeps its delimiter; the last one may have
none.

## Main definitions

* `lines d s`: the lines of a list
* `text d l`: a line without its delimiter
* `Closed d s`: a list after which a new line begins
* `chop d s`: a list without a delimiter at its end

## Main results

* `flatten_lines`: the lines put together again
* `lines_append`, `lines_flatten_drop`: the lines of a part that begins with a line
* `length_lines`: there is one line more than delimiters between lines
-/

universe u

namespace DelimitedLines

variable {α : Type u} {d : α} {l s t : List α}

/-- A new line begins after the list. -/
def Closed (d : α) (s : List α) : Prop := s = [] ∨ s.getLast? = some d

theorem closed_append_line (s : List α) : Closed d (l ++ d :: s) ↔ Closed d s := by
  rcases List.eq_nil_or_concat s with rfl | ⟨s, c, rfl⟩
  · simp [Closed]
  · have hassoc : l ++ d :: (s ++ [c]) = l ++ d :: s ++ [c] := by simp
    rw [Closed, Closed, List.concat_eq_append, hassoc, List.getLast?_concat, List.getLast?_concat]
    simp

theorem Closed.drop (hs : Closed d s) (k : ℕ) : Closed d (s.drop k) := by
  by_cases hk : s.length ≤ k
  · exact .inl (List.drop_of_length_le hk)
  · rcases hs with rfl | hs
    · exact .inl List.drop_nil
    · refine .inr ?_
      rw [List.getLast?_drop, if_neg hk, hs]

variable [DecidableEq α]

/-- The lines of a list, each with its delimiter. -/
def lines (d : α) : List α → List (List α)
  | [] => []
  | c :: s =>
    if c = d then [c] :: lines d s
    else match lines d s with
      | [] => [[c]]
      | l :: ls => (c :: l) :: ls

/-- A line without its delimiter. -/
def text (d : α) (l : List α) : List α := l.takeWhile (· ≠ d)

@[simp] theorem lines_nil : lines d [] = [] := rfl

/-- The first line, with its delimiter. -/
theorem lines_line (hl : d ∉ l) (s : List α) : lines d (l ++ d :: s) = (l ++ [d]) :: lines d s := by
  induction l with
  | nil => exact if_pos rfl
  | cons c l ih =>
    rw [List.mem_cons, not_or] at hl
    rw [List.cons_append, lines, if_neg (Ne.symm hl.1), ih hl.2]
    rfl

/-- The last line, without one. -/
theorem lines_last (hl : d ∉ l) (hne : l ≠ []) : lines d l = [l] := by
  induction l with
  | nil => exact absurd rfl hne
  | cons c l ih =>
    rw [List.mem_cons, not_or] at hl
    rw [lines, if_neg (Ne.symm hl.1)]
    by_cases hnil : l = []
    · rw [hnil]
      rfl
    · rw [ih hl.2 hnil]

/-- A list is empty, is one line, or begins with one. -/
@[elab_as_elim]
theorem induction {motive : List α → Prop} (nil : motive [])
    (last : ∀ l, d ∉ l → l ≠ [] → motive l)
    (line : ∀ l s, d ∉ l → motive s → motive (l ++ d :: s)) (s : List α) : motive s := by
  induction hn : s.length using Nat.strongRecOn generalizing s with
  | ind n ih =>
    by_cases hd : d ∈ s
    · obtain ⟨l, r, rfl, hl⟩ := List.eq_append_cons_of_mem hd
      apply line l r hl
      apply ih r.length ?_ r rfl
      rw [← hn, List.length_append, List.length_cons]
      omega
    · by_cases hnil : s = []
      · exact hnil ▸ nil
      · exact last s hd hnil

/-- The lines put together again. -/
@[simp] theorem flatten_lines (d : α) (s : List α) : (lines d s).flatten = s := by
  induction s using induction (d := d) with
  | nil => rfl
  | last l hl hne => rw [lines_last hl hne, List.flatten_singleton]
  | line l s hl ih =>
    rw [lines_line hl, List.flatten_cons, ih, List.append_assoc, List.singleton_append]

/-- After a delimiter a new line begins. -/
theorem lines_append (hs : Closed d s) (t : List α) :
    lines d (s ++ t) = lines d s ++ lines d t := by
  induction s using induction (d := d) with
  | nil => rfl
  | last l hl hne =>
    rcases hs with hs | hs
    · exact absurd hs hne
    · exact absurd (List.mem_of_getLast? hs) hl
  | line l s hl ih =>
    rw [closed_append_line] at hs
    rw [List.append_assoc, List.cons_append, lines_line hl, lines_line hl, ih hs, List.cons_append]

/-- A line has one delimiter at most, at its end. -/
theorem exists_of_mem_lines (h : l ∈ lines d s) :
    l ≠ [] ∧ ∃ x, d ∉ x ∧ (l = x ∨ l = x ++ [d]) := by
  induction s using induction (d := d) with
  | nil => exact absurd h List.not_mem_nil
  | last x hx hne =>
    rw [lines_last hx hne, List.mem_singleton] at h
    subst h
    exact ⟨hne, l, hx, .inl rfl⟩
  | line x s hx ih =>
    rw [lines_line hx, List.mem_cons] at h
    rcases h with rfl | h
    · exact ⟨by simp, x, hx, .inr rfl⟩
    · exact ih h

theorem not_mem_text (d : α) (l : List α) : d ∉ text d l := by
  intro hd
  have hall := List.all_takeWhile (p := fun c => decide (c ≠ d)) (l := l)
  exact of_decide_eq_true (List.all_eq_true.mp hall d hd) rfl

theorem text_of_not_mem (hl : d ∉ l) : text d l = l := by
  have hpos : ∀ c ∈ l, decide (c ≠ d) = true := by
    intro c hc
    rw [decide_eq_true_eq]
    rintro rfl
    exact hl hc
  have happend := @List.takeWhile_append_of_pos α (fun c => decide (c ≠ d)) l [] hpos
  rwa [List.append_nil, List.takeWhile_nil, List.append_nil] at happend

theorem text_append (hl : d ∉ l) (s : List α) : text d (l ++ d :: s) = l := by
  have hpos : ∀ c ∈ l, decide (c ≠ d) = true := by
    intro c hc
    rw [decide_eq_true_eq]
    rintro rfl
    exact hl hc
  rw [text, List.takeWhile_append_of_pos hpos, List.takeWhile_cons]
  simp

/-- What is left of the lines are the elements that are no delimiters. -/
theorem flatten_map_text (d : α) (s : List α) :
    ((lines d s).map (text d)).flatten = s.filter (· ≠ d) := by
  have hfilter : ∀ l : List α, d ∉ l → l.filter (· ≠ d) = l := by
    intro l hl
    rw [List.filter_eq_self]
    intro c hc
    rw [decide_eq_true_eq]
    rintro rfl
    exact hl hc
  induction s using induction (d := d) with
  | nil => rfl
  | last l hl hne =>
    rw [lines_last hl hne, List.map_singleton, List.flatten_singleton, text_of_not_mem hl,
      hfilter l hl]
  | line l s hl ih =>
    rw [lines_line hl, List.map_cons, List.flatten_cons, ih, text_append hl, List.filter_append,
      hfilter l hl, List.filter_cons_of_neg (by simp)]

/-! ## A part of the lines -/

/-- The lines of what the last lines, put together, are. -/
theorem lines_flatten_drop (d : α) (s : List α) (j : ℕ) :
    lines d ((lines d s).drop j).flatten = (lines d s).drop j := by
  induction s using induction (d := d) generalizing j with
  | nil => simp
  | last l hl hne =>
    cases j with
    | zero => simp
    | succ j => simp [lines_last hl hne]
  | line l s hl ih =>
    cases j with
    | zero => simp
    | succ j =>
      rw [lines_line hl, List.drop_succ_cons]
      exact ih j

/-- A new line begins after lines that are not all. -/
theorem closed_flatten_take {j : ℕ} (hj : j < (lines d s).length) :
    Closed d ((lines d s).take j).flatten := by
  induction s using induction (d := d) generalizing j with
  | nil => exact .inl (by simp)
  | last l hl hne =>
    rw [lines_last hl hne, List.length_singleton, Nat.lt_one_iff] at hj
    exact .inl (by simp [hj])
  | line l s hl ih =>
    cases j with
    | zero => exact .inl (by simp)
    | succ j =>
      rw [lines_line hl, List.length_cons, Nat.add_lt_add_iff_right] at hj
      rw [lines_line hl, List.take_succ_cons, List.flatten_cons, List.append_assoc,
        List.singleton_append, closed_append_line]
      exact ih hj

/-! ## The last delimiter -/

/-- The list without a delimiter at its end. -/
def chop (d : α) (s : List α) : List α := if s.getLast? = some d then s.dropLast else s

theorem chop_append_singleton (s : List α) : chop d (s ++ [d]) = s := by
  rw [chop, List.getLast?_concat, if_pos rfl, List.dropLast_concat]

theorem chop_of_not_mem (hl : d ∉ l) : chop d l = l :=
  if_neg fun h => hl (List.mem_of_getLast? h)

theorem chop_append (ht : t ≠ []) (s : List α) : chop d (s ++ t) = s ++ chop d t := by
  rcases List.eq_nil_or_concat t with rfl | ⟨t, c, rfl⟩
  · exact absurd rfl ht
  · rw [List.concat_eq_append, chop, chop, ← List.append_assoc, List.getLast?_concat,
      List.getLast?_concat, List.dropLast_concat, List.dropLast_concat]
    split_ifs
    · rfl
    · rw [List.append_assoc]

theorem chop_sublist (d : α) (s : List α) : (chop d s).Sublist s := by
  rw [chop]
  split_ifs
  · exact List.dropLast_sublist s
  · exact List.Sublist.refl s

theorem chop_line (hs : s ≠ []) (l : List α) : chop d (l ++ d :: s) = l ++ d :: chop d s := by
  have hassoc : l ++ d :: s = l ++ [d] ++ s := by simp
  rw [hassoc, chop_append hs, List.append_assoc, List.singleton_append]

/-- There is one line more than delimiters between lines. -/
theorem length_lines (hs : s ≠ []) : (lines d s).length = (chop d s).count d + 1 := by
  induction s using induction (d := d) with
  | nil => exact absurd rfl hs
  | last l hl hne =>
    rw [lines_last hl hne, chop_of_not_mem hl, List.count_eq_zero.mpr hl]
    rfl
  | line l s hl ih =>
    rw [lines_line hl, List.length_cons]
    by_cases hnil : s = []
    · rw [hnil, chop_append_singleton, List.count_eq_zero.mpr hl]
      rfl
    · rw [ih hnil, chop_line hnil, List.count_append, List.count_eq_zero.mpr hl,
        List.count_cons_self, Nat.zero_add]

/-- The lines that are not empty are the same without the last delimiter. -/
theorem filter_text_chop (d : α) (s : List α) :
    ((lines d (chop d s)).map (text d)).filter (· ≠ []) =
      ((lines d s).map (text d)).filter (· ≠ []) := by
  induction s using induction (d := d) with
  | nil => rfl
  | last l hl hne => rw [chop_of_not_mem hl]
  | line l s hl ih =>
    by_cases hnil : s = []
    · rw [hnil, chop_append_singleton, lines_line hl, lines_nil, List.map_singleton,
        text_append hl]
      by_cases hl' : l = []
      · simp [hl']
      · rw [lines_last hl hl', List.map_singleton, text_of_not_mem hl]
    · rw [chop_line hnil, lines_line hl, lines_line hl, List.map_cons, List.map_cons,
        List.filter_cons, List.filter_cons, ih]

end DelimitedLines
