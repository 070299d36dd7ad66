import Mathlib.Data.List.Infix

/-!
# Occurrences of a list in a list

The first occurrence of a pattern, and the list in which the occurrences of a pattern, found one
after the other from the left, are replaced.

## Main definitions

* `FirstAt pattern s k`: the pattern occurs at `k`, and nowhere before
* `Replaced old new s t`: `t` is `s` with the occurrences of `old` replaced by `new`

## Main results

* `FirstAt.unique`, `Replaced.unique`: there is one such position, and one such list
* `replaced_singleton`: the occurrences of one element
-/

universe u

namespace Occurrences

variable {α : Type u} {pattern old new s t t' : List α} {k k' : ℕ}

/-- The pattern occurs at `k`, and nowhere before. -/
def FirstAt (pattern s : List α) (k : ℕ) : Prop :=
  pattern <+: s.drop k ∧ ∀ j < k, ¬pattern <+: s.drop j

/-- The occurrences of `old`, each searched for after the one before it, are replaced by `new`. -/
inductive Replaced (old new : List α) : List α → List α → Prop
  | rest {s : List α} (h : ¬old <:+: s) : Replaced old new s s
  | next {s t : List α} {k : ℕ} (h : FirstAt old s k)
      (hrest : Replaced old new (s.drop (k + old.length)) t) :
      Replaced old new s (s.take k ++ new ++ t)

theorem FirstAt.unique (h : FirstAt pattern s k) (h' : FirstAt pattern s k') : k = k' := by
  rcases Nat.lt_trichotomy k k' with hlt | heq | hlt
  · exact absurd h.1 (h'.2 k hlt)
  · exact heq
  · exact absurd h'.1 (h.2 k' hlt)

theorem FirstAt.isInfix (h : FirstAt pattern s k) : pattern <:+: s :=
  h.1.isInfix.trans (List.drop_suffix k s).isInfix

theorem FirstAt.length_le (h : FirstAt pattern s k) (hne : pattern ≠ []) :
    k + pattern.length ≤ s.length := by
  have hpos := List.length_pos_of_ne_nil hne
  have hlen := h.1.length_le
  rw [List.length_drop] at hlen
  omega

theorem firstAt_zero (h : pattern <+: s) : FirstAt pattern s 0 :=
  ⟨h, fun j hj => absurd hj (Nat.not_lt_zero j)⟩

theorem FirstAt.cons {a : α} (h : FirstAt pattern s k) (hne : ¬pattern <+: a :: s) :
    FirstAt pattern (a :: s) (k + 1) := by
  refine ⟨h.1, fun j hj => ?_⟩
  cases j with
  | zero => exact hne
  | succ j => exact h.2 j (Nat.lt_of_succ_lt_succ hj)

/-- There is one list with the occurrences replaced. -/
theorem Replaced.unique (h : Replaced old new s t) (h' : Replaced old new s t') : t = t' := by
  induction h generalizing t' with
  | rest hno =>
    cases h' with
    | rest => rfl
    | next hfirst => exact absurd hfirst.isInfix hno
  | next hfirst hrest ih =>
    cases h' with
    | rest hno => exact absurd hfirst.isInfix hno
    | next hfirst' hrest' =>
      obtain rfl := hfirst.unique hfirst'
      rw [ih hrest']

/-- An element before which no occurrence begins stays. -/
theorem Replaced.cons {a : α} (h : Replaced old new s t) (hne : ¬old <+: a :: s) :
    Replaced old new (a :: s) (a :: t) := by
  cases h with
  | rest hno =>
    apply Replaced.rest
    rw [List.infix_cons_iff]
    exact not_or.mpr ⟨hne, hno⟩
  | @next _ t k hfirst hrest =>
    have hdrop : (a :: s).drop (k + 1 + old.length) = s.drop (k + old.length) := by
      rw [Nat.add_right_comm, List.drop_succ_cons]
    rw [← hdrop] at hrest
    exact .next (hfirst.cons hne) hrest

/-- The occurrences of one element. -/
theorem replaced_singleton [DecidableEq α] (a b : α) (s : List α) :
    Replaced [a] [b] s (s.map fun c => if c = a then b else c) := by
  induction s with
  | nil => exact .rest (by simp)
  | cons c s ih =>
    rw [List.map_cons]
    by_cases hc : c = a
    · subst hc
      rw [if_pos rfl]
      exact .next (firstAt_zero (List.prefix_append [c] s)) ih
    · rw [if_neg hc]
      exact ih.cons fun hp => hc (List.cons_prefix_cons.mp hp).1.symm

end Occurrences
