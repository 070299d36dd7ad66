import Mathlib.Algebra.Order.Group.Int
import Mathlib.Tactic.Linarith
import Mathlib.Tactic.Ring

/-!
# Arithmetic progressions

A loop that adds a step to its counter goes through an arithmetic progression. What it is meant to
visit is the part of one that lies below a bound.

## Main definitions

* `progression a d m`: the first `m` terms from `a` on, with the difference `d`
* `upTo a b k`: the terms from `a` on that are at most `b`

## Main results

* `progression_succ`, `progression_concat`: the first and the last term
* `mem_upTo_iff`: the terms of `upTo`
* `upTo_of_dvd`, `eq_or_dvd_of_upTo`: when a progression that ends at the bound is `upTo`
-/

/-- The numbers `a`, `a + d`, and so on, `m` of them. -/
def progression (a d : ℤ) (m : ℕ) : List ℤ := (List.range m).map fun l : ℕ => a + l * d

/-- The numbers `a`, `a + k`, and so on, that are at most `b`. -/
def upTo (a b k : ℤ) : List ℤ := progression a k ((b - a) / k + 1).toNat

variable {a b d k x : ℤ} {m : ℕ}

@[simp] theorem length_progression : (progression a d m).length = m := by
  rw [progression, List.length_map, List.length_range]

theorem progression_succ : progression a d (m + 1) = a :: progression (a + d) d m := by
  rw [progression, List.range_succ_eq_map, List.map_cons, List.map_map, progression]
  congr 1
  · simp
  · refine List.map_congr_left fun l _ => ?_
    simp only [Function.comp_apply, Nat.succ_eq_add_one]
    push_cast
    ring

theorem progression_concat : progression a d (m + 1) = progression a d m ++ [a + m * d] := by
  rw [progression, List.range_succ, List.map_append, List.map_singleton, progression]

theorem mem_progression_iff : x ∈ progression a d m ↔ ∃ l < m, x = a + l * d := by
  simp only [progression, List.mem_map, List.mem_range, eq_comm]

/-- The terms are those of the progression without an end that are at most `b`. -/
theorem mem_upTo_iff (hk : 0 < k) : x ∈ upTo a b k ↔ ∃ l : ℕ, x = a + l * k ∧ x ≤ b := by
  have hterm : ∀ l : ℕ, l < ((b - a) / k + 1).toNat ↔ a + l * k ≤ b := by
    intro l
    rw [Int.lt_toNat, Int.lt_add_one_iff, Int.le_ediv_iff_mul_le hk]
    omega
  simp only [upTo, mem_progression_iff, hterm]
  constructor
  · rintro ⟨l, hle, rfl⟩
    exact ⟨l, rfl, hle⟩
  · rintro ⟨l, rfl, hle⟩
    exact ⟨l, hle, rfl⟩

/-- A step that divides the distance goes through `upTo`, up to the bound. -/
theorem upTo_of_dvd (hk : 0 < k) (hle : a ≤ b) (hdvd : k ∣ b - a) :
    ∃ m : ℕ, b = a + m * k ∧ upTo a b k = progression a k (m + 1) := by
  obtain ⟨c, hc⟩ := hdvd
  have hnonneg : 0 ≤ c := by
    by_contra hneg
    have := Int.mul_neg_of_pos_of_neg hk (Int.not_le.mp hneg)
    omega
  obtain ⟨m, rfl⟩ := Int.eq_ofNat_of_zero_le hnonneg
  refine ⟨m, by linarith, ?_⟩
  rw [upTo, hc, Int.mul_ediv_cancel_left _ (Int.ne_of_gt hk)]
  rfl

/-- A progression that ends at the bound is `upTo` only if it has one term, or the same step. -/
theorem eq_or_dvd_of_upTo (hk : 0 < k) (hb : b = a + m * d)
    (h : progression a d (m + 1) = upTo a b k) : a = b ∨ a ≤ b ∧ k ∣ b - a ∧ d = k := by
  cases m with
  | zero => exact .inl (by simp [hb])
  | succ m =>
    have hlength := congrArg List.length h
    rw [upTo, length_progression, length_progression] at hlength
    -- The second terms are equal.
    rw [upTo, ← hlength, progression_succ, progression_succ, progression_succ, progression_succ,
      List.cons.injEq, List.cons.injEq] at h
    obtain rfl : d = k := by linarith [h.2.1]
    refine .inr ⟨?_, ⟨(m + 1 : ℕ), by rw [hb]; ring⟩, rfl⟩
    rw [hb]
    have := Int.mul_nonneg (Int.natCast_nonneg (m + 1)) hk.le
    omega

/-- From a bound that is the first term on there is one term, whatever the step. -/
theorem upTo_self : upTo a a k = [a] := by
  rw [upTo, Int.sub_self, Int.zero_ediv]
  simp [progression]
