import Mathlib.Data.List.Basic

/-!
# What a list mentions first, last

A pointer that follows the elements of a list, but moves only to those it has not met before, is at
the newest element: the one whose first mention comes last. It is at the last element of the list
when nothing else was met first since that element was.

## Main definitions

* `List.IsNewest x l`: of the elements of `l`, `x` is the one whose first mention comes last

## Main results

* `isNewest_concat_of_mem`, `isNewest_concat_of_not_mem`: one more element
* `IsNewest.eq`: there is one newest element
-/

universe u

namespace List

variable {α : Type u} {x y : α} {l : List α}

/-- The first mention of `x` comes after the first mentions of all other elements. -/
def IsNewest (x : α) (l : List α) : Prop :=
  ∃ xs ys, l = xs ++ x :: ys ∧ x ∉ xs ∧ ∀ y ∈ ys, y ∈ x :: xs

theorem isNewest_singleton (x : α) : IsNewest x [x] := ⟨[], [], rfl, not_mem_nil, nofun⟩

theorem isNewest_concat_of_not_mem (h : x ∉ l) : IsNewest x (l ++ [x]) := ⟨l, [], rfl, h, nofun⟩

theorem isNewest_concat_of_mem (h : IsNewest x l) (hy : y ∈ l) : IsNewest x (l ++ [y]) := by
  obtain ⟨xs, ys, rfl, hx, hys⟩ := h
  refine ⟨xs, ys ++ [y], by simp, hx, fun z hz => ?_⟩
  rcases mem_append.mp hz with hz | hz
  · exact hys z hz
  · obtain rfl := mem_singleton.mp hz
    -- The element has been mentioned, before `x`, as `x` or after it.
    rcases mem_append.mp hy with hxs | hrest
    · exact mem_cons_of_mem _ hxs
    · rcases mem_cons.mp hrest with rfl | hrest
      · exact mem_cons_self
      · exact hys z hrest

/-- Of two newest elements neither is first mentioned before the other. -/
theorem IsNewest.eq (h : IsNewest x l) (h' : IsNewest y l) : x = y := by
  have hbefore : ∀ {a b : α} {xs ys m ys' : List α}, (∀ c ∈ ys, c ∈ a :: xs) →
      b ∉ xs ++ m → a :: ys = m ++ b :: ys' → a = b := by
    intro a b xs ys m ys' hys hb heq
    cases m with
    | nil => exact (cons.inj heq).1
    | cons c m =>
      obtain ⟨rfl, rfl⟩ := cons.inj heq
      rcases mem_cons.mp (hys b (mem_append_right _ mem_cons_self)) with rfl | hmem
      · rfl
      · exact absurd (mem_append_left _ hmem) hb
  obtain ⟨xs, ys, rfl, hx, hys⟩ := h
  obtain ⟨xs', ys', heq, hy, hys'⟩ := h'
  rcases append_eq_append_iff.mp heq with ⟨m, rfl, hm⟩ | ⟨m, rfl, hm⟩
  · exact hbefore hys hy hm
  · exact (hbefore hys' hx hm).symm

end List
