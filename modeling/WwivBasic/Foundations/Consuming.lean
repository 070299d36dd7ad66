import Mathlib.Data.List.Basic

/-!
# Loops that consume a list

A loop that reads a list from the front. Each iteration takes at least one element and puts out a
list of results; the loop ends with the list.

## Main definitions

* `Consumes step`: an iteration leaves less than there was
* `run step`: what the iterations put out

## Main results

* `run_of_ne_nil`: the loop, from its first iteration
* `runUpTo_eq_of_le`: more iterations change nothing
-/

universe u v

namespace Consuming

variable {α : Type u} {β : Type v}

/-- An iteration leaves less than there was. -/
def Consumes (step : List α → List β × List α) : Prop :=
  ∀ s, s ≠ [] → (step s).2.length < s.length

/-- At most `n` iterations. -/
def runUpTo (step : List α → List β × List α) : ℕ → List α → List β
  | 0, _ => []
  | _ + 1, [] => []
  | n + 1, a :: s => (step (a :: s)).1 ++ runUpTo step n (step (a :: s)).2

/-- What the iterations put out. -/
def run (step : List α → List β × List α) (s : List α) : List β := runUpTo step s.length s

variable {step : List α → List β × List α} {s : List α} {n m : ℕ}

/-- More iterations change nothing. -/
theorem runUpTo_eq_of_le (h : Consumes step) (hn : s.length ≤ n) (hm : s.length ≤ m) :
    runUpTo step n s = runUpTo step m s := by
  induction n generalizing m s with
  | zero =>
    obtain rfl := List.length_eq_zero_iff.mp (Nat.le_zero.mp hn)
    cases m <;> rfl
  | succ n ih =>
    rcases s with - | ⟨a, s⟩
    · cases m <;> rfl
    · obtain ⟨m, rfl⟩ : ∃ k, m = k + 1 := ⟨m - 1, by simp at hm; omega⟩
      have hlen := h (a :: s) (List.cons_ne_nil a s)
      simp only [List.length_cons] at hn hm hlen
      have hrest := @ih (step (a :: s)).2 m (by omega) (by omega)
      rw [runUpTo, runUpTo, hrest]

/-- The loop, from its first iteration. -/
theorem run_of_ne_nil (h : Consumes step) (hs : s ≠ []) :
    run step s = (step s).1 ++ run step (step s).2 := by
  obtain ⟨a, s, rfl⟩ := List.exists_cons_of_ne_nil hs
  have hlen := h (a :: s) hs
  rw [run, List.length_cons, runUpTo, run]
  exact congrArg (_ ++ ·) (runUpTo_eq_of_le h (Nat.lt_succ_iff.mp hlen) (Nat.le_refl _))

end Consuming
