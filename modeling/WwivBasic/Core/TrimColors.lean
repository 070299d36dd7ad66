import WwivBasic.Core.ColorCodes

/-!
# The width of a text with color codes

`trim_to_size_ignore_colors` of `core/strings.cpp` takes characters off the end of a text until it
is no wider than asked for. A character less may make a code visible, or an ANSI sequence far before
it, so that the width does not go down with the length; but it never falls by more than one.

## Main definitions

* `sizeWithoutColors`, `trimToSizeIgnoreColors`: the width, and the loop that trims

## Main results

* `length_stripFrom_append_le`: a character more makes a text wider by one at most
* `trimToSizeIgnoreColors_eq_some`: the loop ends with the width asked for
-/

namespace WwivBasic

namespace ColorCodes

/-- `size_int`. -/
def sizeInt (s : Str) : Int := castInt s.length

/-- `size_without_colors`. -/
def sizeWithoutColors (s : Str) : Int := sizeInt (stripcolors s)

/-- `trim_to_size_ignore_colors`, with `n` tests of the loop at most: `none` if they do not suffice,
or a character is taken off the empty text. -/
def trimToSizeIgnoreColors : ℕ → Str → Int → Option Str
  | 0, _, _ => none
  | n + 1, s, size =>
    if size < sizeWithoutColors s then
      if s = [] then none else trimToSizeIgnoreColors n s.dropLast size
    else some s

section Width

variable {a c : Char} {s p r u : Str}

/-! ## Letters -/

theorem not_isColorCode (ha : a.isAlpha = true) : isColorCode a = false := by
  rw [Bool.eq_false_iff, isColorCode, Ne, Bool.or_eq_true, decide_eq_true_eq]
  rintro (rfl | hd)
  · exact absurd ha (by decide)
  · exact not_isAlpha_of_isDigit hd ha

theorem not_isDigit (ha : a.isAlpha = true) : a.isDigit = false := by
  rw [Bool.eq_false_iff]
  exact fun hd => not_isAlpha_of_isDigit hd ha

/-- A letter belongs to no pipe code. -/
theorem pipeCode_append_letter (ha : a.isAlpha = true) : pipeCode (p ++ a :: u) = pipeCode p := by
  have hcode := not_isColorCode ha
  have hpipe : a ≠ '|' := by
    rintro rfl
    exact absurd ha (by decide)
  rcases p with - | ⟨x, - | ⟨y, - | ⟨z, p⟩⟩⟩
  · rcases u with - | ⟨b, - | ⟨b', u⟩⟩ <;> simp [pipeCode, hpipe]
  · cases u <;> simp [pipeCode, hcode]
  · simp [pipeCode, hcode]
  · rfl

/-- A letter belongs to no heart code. -/
theorem heartCode_append_letter (ha : a.isAlpha = true) :
    heartCode (p ++ a :: u) = heartCode p := by
  have hdigit := not_isDigit ha
  have hheart : a ≠ heart := by
    rintro rfl
    exact absurd ha (by decide)
  rcases p with - | ⟨x, - | ⟨y, p⟩⟩
  · cases u <;> simp [heartCode, hheart]
  · simp [heartCode, hdigit]
  · rfl

theorem ansiCode_of_not_mem (hm : 'm' ∉ s) : ansiCode s = false := by
  rw [Bool.eq_false_iff, Ne, ansiCode_eq_true_iff]
  rintro ⟨r, rfl, hr⟩
  exact hm (List.mem_cons_of_mem _ (List.mem_cons_of_mem _ hr))

/-- Without ANSI sequences, a letter is left with what is left before it and after it. -/
theorem stripcolors_append_letter (ha : a.isAlpha = true) (hm : 'm' ∉ p ++ a :: u) :
    stripcolors (p ++ a :: u) = stripcolors p ++ a :: stripcolors u := by
  induction hn : p.length using Nat.strongRecOn generalizing p with
  | ind n ih =>
    subst hn
    have hmp : 'm' ∉ p := fun h => hm (List.mem_append_left _ h)
    rw [stripcolors_of_not_ansi (ansiCode_of_not_mem hm),
      stripcolors_of_not_ansi (ansiCode_of_not_mem hmp)]
    have hwhole := @pipeCode_append_letter a p u ha
    have hwhole' := @heartCode_append_letter a p u ha
    by_cases hpipe : pipeCode p = true
    · obtain ⟨b, b', q, rfl, hb, hb'⟩ := pipeCode_eq_true_iff.mp hpipe
      simp only [List.cons_append, List.mem_cons, not_or] at hm ⊢
      rw [stripRest_pipe hb hb', stripRest_pipe hb hb']
      exact ih q.length (by simp only [List.length_cons]; omega) hm.2.2.2 rfl
    by_cases hheart : heartCode p = true
    · obtain ⟨d, q, rfl, hd⟩ := heartCode_eq_true_iff.mp hheart
      simp only [List.cons_append, List.mem_cons, not_or] at hm ⊢
      rw [stripRest_heart hd, stripRest_heart hd]
      exact ih q.length (by simp only [List.length_cons]; omega) hm.2.2 rfl
    rw [Bool.not_eq_true] at hpipe hheart
    rw [hpipe] at hwhole
    rw [hheart] at hwhole'
    cases p with
    | nil => exact stripRest_other hwhole hwhole'
    | cons x q =>
      rw [List.cons_append] at hm hwhole hwhole' ⊢
      have hmq : 'm' ∉ q ++ a :: u := fun h => hm (List.mem_cons_of_mem _ h)
      rw [stripRest_other hwhole hwhole', stripRest_other hpipe hheart,
        ih q.length (by simp) hmq rfl]
      rfl

/-! ## A character more -/

/-- A character that completes a pipe code or a heart code ends the text. -/
theorem stripRest_completed (hpipe : pipeCode s = false) (hheart : heartCode s = false)
    (h : pipeCode (s ++ [c]) = true ∨ heartCode (s ++ [c]) = true) :
    stripRest (s ++ [c]) = [] := by
  rcases h with h | h
  · obtain ⟨a, b, q, hq, ha, hb⟩ := pipeCode_eq_true_iff.mp h
    obtain rfl : q = [] := by
      rcases List.eq_nil_or_concat' q with rfl | ⟨q, d, rfl⟩
      · rfl
      · have hsnoc : s ++ [c] = ('|' :: a :: b :: q) ++ [d] := hq
        rw [pipeCode_eq_true_iff.mpr ⟨a, b, q, (List.append_inj' hsnoc rfl).1, ha, hb⟩] at hpipe
        exact absurd hpipe.symm Bool.false_ne_true
    rw [hq, stripRest_pipe ha hb]
    rfl
  · obtain ⟨d, q, hq, hd⟩ := heartCode_eq_true_iff.mp h
    obtain rfl : q = [] := by
      rcases List.eq_nil_or_concat' q with rfl | ⟨q, e, rfl⟩
      · rfl
      · have hsnoc : s ++ [c] = (heart :: d :: q) ++ [e] := hq
        rw [heartCode_eq_true_iff.mpr ⟨d, q, (List.append_inj' hsnoc rfl).1, hd⟩] at hheart
        exact absurd hheart.symm Bool.false_ne_true
    rw [hq, stripRest_heart hd]
    rfl

/-- The loop from the tests for a pipe code and a heart code on. -/
theorem length_stripRest_append_le
    (ih : ∀ t : Str, t.length < s.length →
      (stripcolors (t ++ [c])).length ≤ (stripcolors t).length + 1) :
    (stripRest (s ++ [c])).length ≤ (stripRest s).length + 1 := by
  by_cases hpipe : pipeCode s = true
  · obtain ⟨a, b, r, rfl, ha, hb⟩ := pipeCode_eq_true_iff.mp hpipe
    simp only [List.cons_append]
    rw [stripRest_pipe ha hb, stripRest_pipe ha hb]
    exact ih r (by simp only [List.length_cons]; omega)
  by_cases hheart : heartCode s = true
  · obtain ⟨d, r, rfl, hd⟩ := heartCode_eq_true_iff.mp hheart
    simp only [List.cons_append]
    rw [stripRest_heart hd, stripRest_heart hd]
    exact ih r (by simp only [List.length_cons]; omega)
  rw [Bool.not_eq_true] at hpipe hheart
  by_cases hcode : pipeCode (s ++ [c]) = true ∨ heartCode (s ++ [c]) = true
  · rw [stripRest_completed hpipe hheart hcode]
    exact Nat.zero_le _
  rw [not_or, Bool.not_eq_true, Bool.not_eq_true] at hcode
  obtain ⟨hpipe', hheart'⟩ := hcode
  cases s with
  | nil =>
    rw [List.nil_append, stripRest_other rfl rfl]
    exact Nat.le_refl 1
  | cons x t =>
    rw [List.cons_append] at hpipe' hheart' ⊢
    rw [stripRest_other hpipe hheart, stripRest_other hpipe' hheart']
    have hrest := ih t (by simp)
    simp only [List.length_cons]
    omega

/-- An `m` that completes an ANSI sequence: what the letters of the sequence made visible goes. -/
theorem length_stripcolors_complete_le (hm : 'm' ∉ r)
    (ih : ∀ t : Str, t.length < r.length →
      (stripRest (t ++ ['m'])).length ≤ (stripRest t).length + 1) :
    (stripcolors (esc :: '[' :: (r ++ ['m']))).length ≤
      (stripcolors (esc :: '[' :: r)).length + 1 := by
  by_cases hletter : ∃ a ∈ r, a.isAlpha = true
  · obtain ⟨body, a, u, rfl, hbody, ha⟩ := exists_first_letter hletter
    have hmu : 'm' ∉ u := fun h =>
      hm (List.mem_append_right _ (List.mem_cons_of_mem _ h))
    have hstrip : stripcolors (esc :: '[' :: (body ++ a :: u ++ ['m'])) =
        stripRest (u ++ ['m']) := by
      have hassoc : body ++ a :: u ++ ['m'] = body ++ a :: (u ++ ['m']) := by simp
      rw [hassoc, stripcolors_ansi hbody ha (by simp)]
    have hleft : stripcolors (esc :: '[' :: (body ++ a :: u)) =
        stripcolors (esc :: '[' :: body) ++ a :: stripRest u := by
      have hmw : 'm' ∉ (esc :: '[' :: body) ++ a :: u := by
        simp only [List.cons_append, List.mem_cons, not_or]
        exact ⟨by decide, by decide, hm⟩
      have hsplit := stripcolors_append_letter ha hmw
      rw [stripcolors_of_not_ansi (ansiCode_of_not_mem hmu)] at hsplit
      exact hsplit
    have hrest := ih u (by rw [List.length_append, List.length_cons]; omega)
    rw [hstrip, hleft, List.length_append, List.length_cons]
    omega
  · have hbody : ∀ c ∈ r, c.isAlpha = false := by
      intro c hc
      rw [Bool.eq_false_iff]
      exact fun h => hletter ⟨c, hc, h⟩
    rw [stripcolors_ansi hbody rfl (List.mem_cons_self ..)]
    exact Nat.zero_le _

theorem length_stripcolors_append_le
    (ih : ∀ t : Str, t.length < s.length →
      (stripRest (t ++ [c])).length ≤ (stripRest t).length + 1)
    (hrest : (stripRest (s ++ [c])).length ≤ (stripRest s).length + 1) :
    (stripcolors (s ++ [c])).length ≤ (stripcolors s).length + 1 := by
  by_cases hansi : ansiCode s = true
  · obtain ⟨body, a, t, rfl, hbody, ha, hm⟩ := exists_of_ansiCode hansi
    have hassoc : esc :: '[' :: (body ++ a :: t) ++ [c] =
        esc :: '[' :: (body ++ a :: (t ++ [c])) := by simp
    have hm' : 'm' ∈ a :: (t ++ [c]) := List.mem_append_left [c] hm
    rw [hassoc, stripcolors_ansi hbody ha hm, stripcolors_ansi hbody ha hm']
    exact ih t (by simp only [List.length_append, List.length_cons]; omega)
  rw [Bool.not_eq_true] at hansi
  by_cases hansi' : ansiCode (s ++ [c]) = true
  · obtain ⟨q, hq, hm⟩ := ansiCode_eq_true_iff.mp hansi'
    rcases s with - | ⟨x, - | ⟨y, r⟩⟩
    · exact absurd (congrArg List.length hq) (by simp)
    · obtain rfl : q = [] := by simpa using (List.cons.inj (List.cons.inj hq).2).2.symm
      exact absurd hm List.not_mem_nil
    · obtain ⟨rfl, htail⟩ := List.cons.inj hq
      obtain ⟨rfl, rfl⟩ := List.cons.inj htail
      have hmr : 'm' ∉ r := fun h => by
        rw [ansiCode_eq_true_iff.mpr ⟨r, rfl, h⟩] at hansi
        exact absurd hansi.symm Bool.false_ne_true
      obtain rfl : c = 'm' := by
        rcases List.mem_append.mp hm with h | h
        · exact absurd h hmr
        · exact (List.mem_singleton.mp h).symm
      refine length_stripcolors_complete_le hmr fun t ht => ih t ?_
      simp only [List.length_cons]
      omega
  · rw [Bool.not_eq_true] at hansi'
    rw [stripcolors_of_not_ansi hansi, stripcolors_of_not_ansi hansi']
    exact hrest

/-- A character more makes a text wider by one at most. -/
theorem length_stripFrom_append_le (after : Bool) (s : Str) (c : Char) :
    (stripFrom after (s ++ [c])).length ≤ (stripFrom after s).length + 1 := by
  induction hn : s.length using Nat.strongRecOn generalizing s after with
  | ind n ih =>
    subst hn
    have hrest : (stripRest (s ++ [c])).length ≤ (stripRest s).length + 1 :=
      length_stripRest_append_le fun t ht => ih t.length ht false t rfl
    cases after with
    | true => exact hrest
    | false => exact length_stripcolors_append_le (fun t ht => ih t.length ht true t rfl) hrest

/-! ## Trimming -/

theorem sizeWithoutColors_eq (h : (s.length : Int) ≤ intMax) :
    sizeWithoutColors s = (stripcolors s).length := by
  have hle := (stripcolors_sublist s).length_le
  have hmax : ((stripcolors s).length : Int) ≤ intMax := by omega
  rw [sizeWithoutColors, sizeInt, castInt_eq_self (Int.natCast_nonneg _) hmax]

/-- The loop ends, takes nothing off the empty text, and ends with the width asked for. -/
theorem trimToSizeIgnoreColors_eq_some {size : Int} {n : ℕ} (hsize : 0 ≤ size)
    (hs : (s.length : Int) ≤ intMax) (hn : s.length < n) :
    ∃ r, trimToSizeIgnoreColors n s size = some r ∧ r <+: s ∧
      sizeWithoutColors r = min size (sizeWithoutColors s) := by
  induction n generalizing s with
  | zero => exact absurd hn (Nat.not_lt_zero _)
  | succ n ih =>
    rw [trimToSizeIgnoreColors]
    by_cases hwide : size < sizeWithoutColors s
    · rcases List.eq_nil_or_concat' s with rfl | ⟨t, c, rfl⟩
      · have hnil : sizeWithoutColors [] = 0 := rfl
        omega
      · have hlen : (t ++ [c]).length = t.length + 1 := List.length_append
        rw [hlen] at hs hn
        have hstep : (stripcolors (t ++ [c])).length ≤ (stripcolors t).length + 1 :=
          length_stripFrom_append_le false t c
        have hge : size ≤ sizeWithoutColors t := by
          have hwide' := hwide
          rw [sizeWithoutColors_eq (by omega)] at hwide' ⊢
          omega
        obtain ⟨r, hr, hprefix, hmin⟩ := @ih t (by omega) (by omega)
        refine ⟨r, ?_, hprefix.trans (List.prefix_append t [c]), ?_⟩
        · rw [if_pos hwide, if_neg (List.append_ne_nil_of_right_ne_nil t (List.cons_ne_nil c [])),
            List.dropLast_concat, hr]
        · rw [hmin, Int.min_eq_left hge, Int.min_eq_left (Int.le_of_lt hwide)]
    · exact ⟨s, if_neg hwide, List.prefix_rfl, (Int.min_eq_right (Int.not_lt.mp hwide)).symm⟩

theorem trimToSizeIgnoreColors_eq_some_pipe :
    ∃ r, trimToSizeIgnoreColors 6 ['a', 'b', '|', '1', '2'] 1 = some r ∧
      r <+: ['a', 'b', '|', '1', '2'] ∧
      sizeWithoutColors r = min 1 (sizeWithoutColors ['a', 'b', '|', '1', '2']) :=
  trimToSizeIgnoreColors_eq_some (by decide) (by decide) (by decide)

/-- 2147483647 characters and a pipe code: a character less makes the width negative. -/
theorem trimToSizeIgnoreColors_overflow :
    ¬ ∀ (s : Str) (size : Int), 0 ≤ size → ∃ N, ∀ n, N ≤ n →
      ∃ r, trimToSizeIgnoreColors n s size = some r ∧ r <+: s ∧
        sizeWithoutColors r = min size (sizeWithoutColors s) := by
  intro h
  obtain ⟨k, hk⟩ : ∃ k : ℕ, k = 2147483647 := ⟨_, rfl⟩
  obtain ⟨N, hN⟩ := h (List.replicate k 'a' ++ ['|', '1', '2']) 0 (Int.le_refl 0)
  obtain ⟨r, hr, -, hmin⟩ := hN (N + 2) (Nat.le_add_right N 2)
  have hplain : IsPlain (List.replicate k 'a') := by
    intro c hc
    rw [List.eq_of_mem_replicate hc]
    decide
  have hwidth : ∀ t, sizeWithoutColors (List.replicate k 'a' ++ t) =
      castInt (k + (stripcolors t).length : ℕ) := by
    intro t
    rw [sizeWithoutColors, sizeInt, stripcolors_plain_append hplain, List.length_append,
      List.length_replicate]
  have hwide : sizeWithoutColors (List.replicate k 'a' ++ ['|', '1', '2']) = 2147483647 := by
    have hcast : castInt ((2147483647 + 0 : ℕ) : Int) = 2147483647 := by decide
    rw [← hk] at hcast
    exact (hwidth ['|', '1', '2']).trans hcast
  have hnext : sizeWithoutColors (List.replicate k 'a' ++ ['|', '1']) = -2147483647 := by
    have hcast : castInt ((2147483647 + 2 : ℕ) : Int) = -2147483647 := by decide
    rw [← hk] at hcast
    exact (hwidth ['|', '1']).trans hcast
  have hdrop : (List.replicate k 'a' ++ ['|', '1', '2']).dropLast =
      List.replicate k 'a' ++ ['|', '1'] := by
    rw [List.dropLast_append_of_ne_nil (List.cons_ne_nil _ _)]
    rfl
  have hne : List.replicate k 'a' ++ ['|', '1', '2'] ≠ [] :=
    List.append_ne_nil_of_right_ne_nil _ (List.cons_ne_nil _ _)
  rw [trimToSizeIgnoreColors, hwide, if_pos (by decide), if_neg hne, hdrop,
    trimToSizeIgnoreColors, hnext, if_neg (by decide)] at hr
  obtain rfl := Option.some.inj hr
  rw [hwide, hnext] at hmin
  exact absurd hmin (by decide)

end Width

end ColorCodes

end WwivBasic
