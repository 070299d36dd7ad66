import Mathlib.Logic.Function.Basic

/-!
# Resources with one owner

Each owner holds at most one resource. A resource is taken while somebody holds it; some are taken
from the beginning, and held by nobody.

## Main definitions

* `Accounts stale held taken`: no resource has two owners, and the taken ones are those that are
  held and the stale ones

## Main results

* `Accounts.acquire`, `Accounts.release`: what keeps the accounts
-/

universe u v

namespace Ownership

variable {ι : Type u} {P : Type v} {stale : P → Prop} {held : ι → Option P} {taken : P → Prop}
  {i j : ι} {p : P}

/-- **One owner.** The resources that are taken are the stale ones, and those that are held, each by
one owner. -/
structure Accounts (stale : P → Prop) (held : ι → Option P) (taken : P → Prop) : Prop where
  unique : ∀ i j p, held i = some p → held j = some p → i = j
  taken_iff : ∀ p, taken p ↔ stale p ∨ ∃ i, held i = some p
  not_stale : ∀ i p, held i = some p → ¬ stale p

/-- Only what is held and what is taken counts. -/
theorem Accounts.congr {held' : ι → Option P} {taken' : P → Prop} (h : Accounts stale held taken)
    (hheld : ∀ i, held' i = held i) (htaken : ∀ p, taken' p ↔ taken p) :
    Accounts stale held' taken' := by
  obtain rfl : held' = held := funext hheld
  obtain rfl : taken' = taken := funext fun p => propext (htaken p)
  exact h

variable [DecidableEq ι]

/-- A resource that is not taken is held by one owner more, who held nothing. -/
theorem Accounts.acquire {taken' : P → Prop} (h : Accounts stale held taken) (hi : held i = none)
    (hp : ¬ taken p) (htaken : ∀ q, taken' q ↔ q = p ∨ taken q) :
    Accounts stale (Function.update held i (some p)) taken' := by
  rw [h.taken_iff, not_or, not_exists] at hp
  -- Whoever holds something is the new owner, or held it before.
  have hother {j : ι} {q : P} (hj : Function.update held i (some p) j = some q) :
      j = i ∧ q = p ∨ j ≠ i ∧ held j = some q := by
    by_cases hji : j = i
    · subst hji
      rw [Function.update_self] at hj
      exact .inl ⟨rfl, (Option.some.inj hj).symm⟩
    · rw [Function.update_of_ne hji] at hj
      exact .inr ⟨hji, hj⟩
  refine ⟨fun j k q hj hk => ?_, fun q => ?_, fun j q hj => ?_⟩
  · rcases hother hj with ⟨rfl, rfl⟩ | ⟨-, hj'⟩
    · rcases hother hk with ⟨rfl, -⟩ | ⟨-, hk'⟩
      · rfl
      · exact absurd hk' (hp.2 k)
    · rcases hother hk with ⟨-, rfl⟩ | ⟨-, hk'⟩
      · exact absurd hj' (hp.2 j)
      · exact h.unique j k q hj' hk'
  · rw [htaken, h.taken_iff]
    constructor
    · rintro (rfl | hstale | ⟨j, hj⟩)
      · exact .inr ⟨i, Function.update_self ..⟩
      · exact .inl hstale
      · have hji : j ≠ i := by
          rintro rfl
          rw [hi] at hj
          cases hj
        exact .inr ⟨j, by rw [Function.update_of_ne hji, hj]⟩
    · rintro (hstale | ⟨j, hj⟩)
      · exact .inr (.inl hstale)
      · rcases hother hj with ⟨-, rfl⟩ | ⟨-, hj⟩
        · exact .inl rfl
        · exact .inr (.inr ⟨j, hj⟩)
  · rcases hother hj with ⟨-, rfl⟩ | ⟨-, hj⟩
    · exact hp.1
    · exact h.not_stale j q hj

/-- A resource that is given up is taken by nobody. -/
theorem Accounts.release {taken' : P → Prop} (h : Accounts stale held taken)
    (hi : held i = some p) (htaken : ∀ q, taken' q ↔ q ≠ p ∧ taken q) :
    Accounts stale (Function.update held i none) taken' := by
  -- Whoever holds something is somebody else, and held it before.
  have hother {j : ι} {q : P} : Function.update held i none j = some q ↔
      j ≠ i ∧ held j = some q := by
    by_cases hji : j = i
    · subst hji
      simp
    · rw [Function.update_of_ne hji]
      simp [hji]
  refine ⟨fun j k q hj hk => ?_, fun q => ?_, fun j q hj => ?_⟩
  · exact h.unique j k q (hother.mp hj).2 (hother.mp hk).2
  · rw [htaken, h.taken_iff]
    simp only [hother]
    constructor
    · rintro ⟨hne, hstale | ⟨j, hj⟩⟩
      · exact .inl hstale
      · refine .inr ⟨j, ?_, hj⟩
        rintro rfl
        exact hne (Option.some.inj (hj.symm.trans hi))
    · rintro (hstale | ⟨j, hji, hj⟩)
      · refine ⟨?_, .inl hstale⟩
        rintro rfl
        exact h.not_stale i q hi hstale
      · refine ⟨?_, .inr ⟨j, hj⟩⟩
        rintro rfl
        exact hji (h.unique j i q hj hi)
  · exact h.not_stale j q (hother.mp hj).2

end Ownership
