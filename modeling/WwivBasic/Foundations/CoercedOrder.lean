import Mathlib.Order.Compare
import Mathlib.Order.Lattice

/-!
# Comparison at the kind of the left operand

Values of several kinds are compared with each other by reading both at the kind of the left one,
where there is a linear order. Every pair of values is comparable, but the comparison is an order
on the values of one kind only: swapping two values of different kinds changes the order they are
compared in, and so does a step to a value of another kind in a chain.

## Main definitions

* `CoercedOrder`: the kinds, and the readings
* `CoercedOrder.compare`: the comparison

## Main results

* `compare_eq_iff`: the three outcomes
* `compare_swap`: swapping two values of one kind
* `compare_eq_trans`, `compare_lt_trans`: chains that begin with two values of one kind
-/

universe u v w

/-- Values `α` of the kinds `τ`, each of which can be read at every kind. -/
structure CoercedOrder (τ : Type u) (α : Type v) (K : τ → Type w) where
  kind : α → τ
  /-- The reading at a kind. -/
  read : ∀ t, α → K t

namespace CoercedOrder

variable {τ : Type u} {α : Type v} {K : τ → Type w} [∀ t, LinearOrder (K t)]
  (C : CoercedOrder τ α K) {a b c : α}

/-- The comparison of two values, at the kind of the first. -/
def compare (a b : α) : Ordering := cmp (C.read (C.kind a) a) (C.read (C.kind a) b)

variable {C}

theorem compare_eq_iff {o : Ordering} :
    C.compare a b = o ↔ o.Compares (C.read (C.kind a) a) (C.read (C.kind a) b) := by
  cases o
  · exact cmp_eq_lt_iff _ _
  · exact cmp_eq_eq_iff _ _
  · exact cmp_eq_gt_iff _ _

theorem compare_swap (h : C.kind a = C.kind b) : C.compare b a = (C.compare a b).swap := by
  rw [compare, compare, ← h, cmp_swap]

theorem compare_eq_trans (h : C.kind a = C.kind b) (hab : C.compare a b = .eq)
    (hbc : C.compare b c = .eq) : C.compare a c = .eq := by
  rw [compare_eq_iff, ← h] at hbc
  rw [compare_eq_iff] at hab ⊢
  exact Eq.trans hab hbc

theorem compare_lt_trans (h : C.kind a = C.kind b) (hab : C.compare a b = .lt)
    (hbc : C.compare b c = .lt) : C.compare a c = .lt := by
  rw [compare_eq_iff, ← h] at hbc
  rw [compare_eq_iff] at hab ⊢
  exact lt_trans hab hbc

end CoercedOrder
