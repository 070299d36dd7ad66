import Mathlib.Data.Prod.Lex
import WwivBasic.Core.Strings

/-!
# Dates and times

A `DateTime` of `core/datetime.h` is a `time_t` with the milliseconds after it. `operator==` looks
at the `time_t` only, and `operator<` at both; `operator+` makes a new `DateTime` without
milliseconds, and `operator+=` keeps them.

## Main definitions

* `DateTime`, `DateTime.updateTm`: a `DateTime`, and one made of its parts
* `DateTime.lt`, `DateTime.eq` and so on: the comparisons
* `DateTime.add`, `DateTime.addAssign` and so on: the operators with a duration

## Main results

* `DateTime.lt_iff_toLex`: `operator<` is the order of the pairs of parts
* `DateTime.comparisons_iff`: when the comparisons are those of one order
* `DateTime.durations_iff`: when the operators with a duration agree
-/

namespace WwivBasic

/-- `DateTime`, with the type of a `tm`. -/
structure DateTime (Tm : Type) where
  t_ : Int
  tm_ : Tm
  millis_ : Int
  deriving DecidableEq

namespace DateTime

variable {Tm : Type}

/-! ## Comparisons -/

/-- `operator<`. -/
def lt (lhs rhs : DateTime Tm) : Bool :=
  if lhs.t_ = rhs.t_ then lhs.millis_ < rhs.millis_ else lhs.t_ < rhs.t_

/-- `operator==`. -/
def eq (lhs rhs : DateTime Tm) : Bool := lhs.t_ = rhs.t_

/-- `operator!=`. -/
def ne (lhs rhs : DateTime Tm) : Bool := lhs.t_ ≠ rhs.t_

/-- `operator>`. -/
def gt (lhs rhs : DateTime Tm) : Bool := rhs.lt lhs

/-- `operator<=`. -/
def le (lhs rhs : DateTime Tm) : Bool := !lhs.gt rhs

/-- `operator>=`. -/
def ge (lhs rhs : DateTime Tm) : Bool := !lhs.lt rhs

/-- Exactly one of `<`, `==` and `>` holds. -/
def ExactlyOne (a b : DateTime Tm) : Prop :=
  a.lt b ∧ !a.eq b ∧ !a.gt b ∨ !a.lt b ∧ a.eq b ∧ !a.gt b ∨ !a.lt b ∧ !a.eq b ∧ a.gt b

/-- The comparisons of `a`, `b` and `c` are those of one order. -/
structure OneOrder (a b c : DateTime Tm) : Prop where
  exactlyOne : ExactlyOne a b
  le_iff : a.le b ↔ a.lt b ∨ a.eq b
  ge_iff : a.ge b ↔ a.gt b ∨ a.eq b
  ne_iff : a.ne b ↔ ¬a.eq b
  lt_trans : a.lt b → b.lt c → a.lt c
  eq_trans : a.eq b → b.eq c → a.eq c

/-! ## Durations -/

section Durations

variable (localtime : Int → Option Tm) (now : Tm)

/-- A `DateTime` after `update_tm`, which makes a negative `time_t` 1. Where there is no local time
of it, the `tm` is that of now. -/
def updateTm (t millis : Int) : DateTime Tm :=
  let t := if t < 0 then 1 else t
  ⟨t, (localtime t).getD now, millis⟩

/-- `from_time_t`. -/
def fromTimeT (t : Int) : DateTime Tm := updateTm localtime now t 0

/-- `operator+`, with a duration of `d` seconds. -/
def add (lhs : DateTime Tm) (d : Int) : DateTime Tm := fromTimeT localtime now (lhs.t_ + d)

/-- `operator-`. -/
def sub (lhs : DateTime Tm) (d : Int) : DateTime Tm := fromTimeT localtime now (lhs.t_ - d)

/-- `operator+=`. -/
def addAssign (a : DateTime Tm) (d : Int) : DateTime Tm :=
  updateTm localtime now (a.t_ + d) a.millis_

/-- `operator-=`. -/
def subAssign (a : DateTime Tm) (d : Int) : DateTime Tm :=
  updateTm localtime now (a.t_ - d) a.millis_

/-- A `time_t` that is in range and not negative. -/
def InRange (t : Int) : Prop := 0 ≤ t ∧ t ≤ longMax

/-- The `time_t` and the milliseconds of two values agree. -/
def SameParts (a b : DateTime Tm) : Prop := a.t_ = b.t_ ∧ a.millis_ = b.millis_

/-- The operators with a duration agree, where it keeps the `time_t` in range. -/
structure DurationsAgree (a : DateTime Tm) (d : Int) : Prop where
  add : InRange (a.t_ + d) →
    SameParts (a.add localtime now d) (a.addAssign localtime now d)
  sub : InRange (a.t_ - d) →
    SameParts (a.sub localtime now d) (a.subAssign localtime now d)
  add_sub : InRange (a.t_ + d) →
    ((a.add localtime now d).sub localtime now d).lt a = false ∧
      a.lt ((a.add localtime now d).sub localtime now d) = false

end Durations

/-! ## One order -/

section OneOrder

variable {a b c : DateTime Tm}

/-- `operator<` is the order of the pairs of parts. -/
theorem lt_iff_toLex : a.lt b = true ↔ toLex (a.t_, a.millis_) < toLex (b.t_, b.millis_) := by
  rw [Prod.Lex.toLex_lt_toLex, lt]
  dsimp only
  split_ifs with h
  · simp [h]
  · simp [h]

theorem lt_trans (h : a.lt b = true) (h' : b.lt c = true) : a.lt c = true := by
  rw [lt_iff_toLex] at h h' ⊢
  exact h.trans h'

theorem eq_trans (h : a.eq b = true) (h' : b.eq c = true) : a.eq c = true :=
  decide_eq_true ((of_decide_eq_true h).trans (of_decide_eq_true h'))

theorem ne_iff : a.ne b = true ↔ ¬a.eq b = true := by simp [ne, eq]

/-- Within one second `operator<` is that of the milliseconds. -/
theorem lt_of_t_eq (h : a.t_ = b.t_) : a.lt b = decide (a.millis_ < b.millis_) := if_pos h

theorem lt_of_t_ne (h : a.t_ ≠ b.t_) : a.lt b = decide (a.t_ < b.t_) := if_neg h

/-- With a `time_t` of their own, two values are in the order of these. -/
theorem exactlyOne_of_t_ne (h : a.t_ ≠ b.t_) : ExactlyOne a b := by
  have heq : a.eq b = false := decide_eq_false h
  rw [ExactlyOne, heq, gt, lt_of_t_ne h, lt_of_t_ne h.symm]
  rcases lt_or_gt_of_ne h with hlt | hgt
  · exact .inl (by simp [hlt, hlt.le])
  · exact .inr (.inr (by simp [hgt, hgt.le]))

/-- Within one second `operator==` holds, and so neither `operator<` nor `operator>` may. -/
theorem exactlyOne_iff_of_t_eq (h : a.t_ = b.t_) : ExactlyOne a b ↔ a.millis_ = b.millis_ := by
  have heq : a.eq b = true := decide_eq_true h
  rw [ExactlyOne, heq, gt, lt_of_t_eq h, lt_of_t_eq h.symm]
  simp only [Bool.not_true, Bool.false_eq_true, false_and, and_false, false_or, or_false, true_and,
    Bool.not_eq_true', decide_eq_false_iff_not, not_lt]
  exact le_antisymm_iff.symm.trans eq_comm

theorem exactlyOne_iff : ExactlyOne a b ↔ (a.t_ = b.t_ → a.millis_ = b.millis_) := by
  by_cases h : a.t_ = b.t_
  · rw [exactlyOne_iff_of_t_eq h]
    simp [h]
  · simp [exactlyOne_of_t_ne h, h]

/-- Where exactly one of the three holds, `operator<=` is `<` or `==`. -/
theorem ExactlyOne.le_iff (h : ExactlyOne a b) : a.le b = true ↔ a.lt b = true ∨ a.eq b = true := by
  rw [le, Bool.not_eq_true']
  rcases h with ⟨hlt, heq, hgt⟩ | ⟨hlt, heq, hgt⟩ | ⟨hlt, heq, hgt⟩ <;> simp_all

theorem ExactlyOne.ge_iff (h : ExactlyOne a b) : a.ge b = true ↔ a.gt b = true ∨ a.eq b = true := by
  rw [ge, Bool.not_eq_true']
  rcases h with ⟨hlt, heq, hgt⟩ | ⟨hlt, heq, hgt⟩ | ⟨hlt, heq, hgt⟩ <;> simp_all

/-- The comparisons are those of one order unless two values share a `time_t` and differ in their
milliseconds. -/
theorem comparisons_iff (a b c : DateTime Tm) :
    OneOrder a b c ↔ (a.t_ = b.t_ → a.millis_ = b.millis_) := by
  rw [← exactlyOne_iff]
  constructor
  · exact OneOrder.exactlyOne
  · intro h
    exact ⟨h, h.le_iff, h.ge_iff, ne_iff, lt_trans, eq_trans⟩

/-- Half a second apart, the first is both `<` and `==` the second. -/
theorem comparisons_halfSecond :
    ¬OneOrder (⟨1, (), 0⟩ : DateTime Unit) ⟨1, (), 500⟩ ⟨2, (), 0⟩ := by
  intro h
  have := h.exactlyOne
  revert this
  unfold ExactlyOne
  decide

end OneOrder

/-! ## Agreement of the operators with a duration -/

section DurationLemmas

variable {localtime : Int → Option Tm} {now : Tm} {a : DateTime Tm} {t d millis : Int}

theorem updateTm_t (h : 0 ≤ t) : (updateTm localtime now t millis).t_ = t := by
  rw [updateTm]
  exact if_neg (not_lt.mpr h)

@[simp] theorem updateTm_millis : (updateTm localtime now t millis).millis_ = millis := rfl

/-- A new value and the old one moved keep one `time_t`, and differ in the milliseconds. -/
theorem sameParts_updateTm_iff :
    SameParts (fromTimeT localtime now t) (updateTm localtime now t millis) ↔ millis = 0 := by
  rw [SameParts, updateTm_millis, eq_comm (b := millis)]
  exact and_iff_right rfl

/-- Adding a duration and taking it off again gives the start of the second. -/
theorem add_sub_t (ha : 0 ≤ a.t_) (hd : 0 ≤ a.t_ + d) :
    ((a.add localtime now d).sub localtime now d).t_ = a.t_ := by
  have hadd : (a.add localtime now d).t_ = a.t_ + d := updateTm_t hd
  rw [sub, hadd, Int.add_sub_cancel]
  exact updateTm_t ha

theorem add_sub_millis : ((a.add localtime now d).sub localtime now d).millis_ = 0 :=
  updateTm_millis

/-- The operators with a duration agree on the values without milliseconds, and on no other. -/
theorem durations_iff (ha : 0 ≤ a.t_) (hd : InRange (a.t_ + d) ∨ InRange (a.t_ - d)) :
    DurationsAgree localtime now a d ↔ a.millis_ = 0 := by
  constructor
  · intro h
    rcases hd with hd | hd
    · exact sameParts_updateTm_iff.mp (h.add hd)
    · exact sameParts_updateTm_iff.mp (h.sub hd)
  · intro h
    refine ⟨fun _ => sameParts_updateTm_iff.mpr h, fun _ => sameParts_updateTm_iff.mpr h,
      fun hadd => ?_⟩
    have ht : ((a.add localtime now d).sub localtime now d).t_ = a.t_ := add_sub_t ha hadd.1
    rw [lt_of_t_eq ht, lt_of_t_eq ht.symm, add_sub_millis, h]
    simp

/-- A second is added to the first one and taken off again. -/
theorem durations_iff_oneSecond :
    DurationsAgree (fun _ => some ()) () (⟨1, (), 0⟩ : DateTime Unit) 1 :=
  (durations_iff (by decide) (.inl (by unfold InRange; decide))).mpr rfl

/-- Half a second is lost by `operator+` and kept by `operator+=`. -/
theorem durations_halfSecond :
    ¬DurationsAgree (fun _ => some ()) () (⟨1, (), 500⟩ : DateTime Unit) 1 := by
  intro h
  have hsame := (h.add (by unfold InRange; decide)).2
  revert hsame
  decide

end DurationLemmas

end DateTime

end WwivBasic
