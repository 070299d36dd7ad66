import Mathlib.Data.List.Forall2

/-!
# The last position with a property

`lastIdx? p l` is the position of the last element of `l` satisfying `p`: the search of a stack
kept bottom first, from its top. The lemmas say where the search ends.

## Main definitions

* `lastIdx? p l`: the last position of `l` whose element satisfies `p`

## Main results

* `lastIdx?_eq_some_iff`, `lastIdx?_eq_none_iff`: what the search returns
* `lastIdx?_of_forall₂`: the search of two stacks side by side
-/

universe u v

namespace List

variable {α : Type u} {p : α → Bool} {l : List α} {i : ℕ}

/-- The position of the last element satisfying `p`. -/
def lastIdx? (p : α → Bool) : List α → Option ℕ
  | [] => none
  | a :: l =>
    match lastIdx? p l with
    | some i => some (i + 1)
    | none => if p a then some 0 else none

theorem lastIdx?_eq_none_iff : lastIdx? p l = none ↔ ∀ a ∈ l, p a = false := by
  induction l with
  | nil => simp [lastIdx?]
  | cons a l ih =>
    rw [lastIdx?]
    cases hl : lastIdx? p l with
    | some i =>
      have : ¬ ∀ a ∈ l, p a = false := fun h => by simp [ih.mpr h] at hl
      simp [this]
    | none =>
      have hnone := ih.mp hl
      simp only [List.mem_cons, forall_eq_or_imp, and_iff_left hnone]
      cases p a <;> simp

theorem lastIdx?_eq_some_iff :
    lastIdx? p l = some i ↔
      (∃ a, l[i]? = some a ∧ p a) ∧ ∀ j a, i < j → l[j]? = some a → p a = false := by
  induction l generalizing i with
  | nil => simp [lastIdx?]
  | cons a l ih =>
    rw [lastIdx?]
    -- A position in the tail comes after the head, which counts only when there is none.
    cases hl : lastIdx? p l with
    | some k =>
      obtain ⟨⟨b, hb, hpb⟩, hlast⟩ := ih.mp hl
      simp only [Option.some.injEq]
      constructor
      · rintro rfl
        refine ⟨⟨b, by simpa using hb, hpb⟩, fun j c hj hc => ?_⟩
        obtain ⟨j, rfl⟩ : ∃ j', j = j' + 1 := ⟨j - 1, by omega⟩
        exact hlast j c (by omega) (by simpa using hc)
      -- The last position is neither after `k + 1` nor before it.
      · rintro ⟨⟨c, hc, hpc⟩, hlast'⟩
        have hi : i ≤ k + 1 := by
          by_contra hlt
          obtain ⟨i, rfl⟩ : ∃ i', i = i' + 1 := ⟨i - 1, by omega⟩
          rw [hlast i c (by omega) (by simpa using hc)] at hpc
          cases hpc
        by_contra hne
        rw [hlast' (k + 1) b (by omega) (by simpa using hb)] at hpb
        cases hpb
    | none =>
      have hnone := lastIdx?_eq_none_iff.mp hl
      constructor
      · intro h
        obtain ⟨hp, rfl⟩ : p a = true ∧ 0 = i := by simpa using h
        refine ⟨⟨a, rfl, hp⟩, fun j c hj hc => hnone c ?_⟩
        obtain ⟨j, rfl⟩ : ∃ j', j = j' + 1 := ⟨j - 1, by omega⟩
        exact List.mem_of_getElem? (by simpa using hc)
      -- No element of the tail satisfies `p`, so the position is that of the head.
      · rintro ⟨⟨c, hc, hpc⟩, -⟩
        cases i with
        | zero =>
          obtain rfl : a = c := by simpa using hc
          simp [hpc]
        | succ i =>
          rw [hnone c (List.mem_of_getElem? (by simpa using hc))] at hpc
          cases hpc

/-- The search of two lists whose elements are related. -/
theorem lastIdx?_of_forall₂ {β : Type v} {R : α → β → Prop} {q : β → Bool}
    (hR : ∀ a b, R a b → p a = q b) {l' : List β} (h : Forall₂ R l l') :
    lastIdx? p l = lastIdx? q l' := by
  induction h with
  | nil => rfl
  | cons hab _ ih => rw [lastIdx?, lastIdx?, ih, hR _ _ hab]

end List
