import Mathlib.Data.Bool.Basic
import Mathlib.Data.Char
import Mathlib.Data.Int.Order.Basic
import Mathlib.Data.List.Lex
import WwivBasic.Executor
import WwivBasic.Foundations.CoercedOrder

/-!
# The relational operators

`operator<`, `operator>` and `operator==` read both operands at the type of the left one and
compare them there, and `visitRelation` makes the other three operators of them. So the six
operators are those of one comparison, which is a total order among the values of one type and
none across the types.

## Main definitions

* `Value.coercedOrder`: the readings of values, and the order at each type

## Main results

* `Value.WellTagged.lt_eq` to `Value.WellTagged.beq_eq`: the operators are those of the comparison
* `relations_order`: the laws they have
-/

namespace WwivBasic

/-- What a value is read as at a type: an `int` as its number. -/
abbrev ValueType.Reading : ValueType → Type
  | .boolean => Bool
  | .integer => Int
  | .string => Str
  | .invalid => Unit

instance : ∀ t : ValueType, LinearOrder t.Reading
  | .boolean => Bool.linearOrder
  | .integer => Int.instLinearOrder
  | .string => List.instLinearOrder
  | .invalid => PUnit.instLinearOrder

namespace Value

/-- The value at a type, where the accessors succeed. -/
def readAt (v : Value) : ∀ t : ValueType, t.Reading
  | .boolean => v.toBool.toOption.getD false
  | .integer => (v.toInt.toOption.getD 0).toInt
  | .string => v.toString.toOption.getD []
  | .invalid => ()

/-- Values by their `type`, read with `toBool`, `toInt` and `toString`. -/
def coercedOrder : CoercedOrder ValueType Value ValueType.Reading where
  kind := Value.type
  read t v := v.readAt t

variable {v that : Value}

/-- A comparison operator is the question whether the comparison has the value `o`, if it is this
question at each type. -/
theorem WellTagged.compareWith_eq {onBool : Bool → Bool → Bool} {onInt : Int32 → Int32 → Bool}
    {onString : Str → Str → Bool} {o : Ordering} (h : v.WellTagged) (h' : that.WellTagged)
    (hbool : ∀ b c, onBool b c = true ↔ o.Compares b c)
    (hint : ∀ i j, onInt i j = true ↔ o.Compares i.toInt j.toInt)
    (hstring : ∀ s t, onString s t = true ↔ o.Compares s t) :
    Value.compareWith onBool onInt onString v that =
      .ok (decide (coercedOrder.compare v that = o)) := by
  obtain ⟨⟨c, hc⟩, ⟨j, hj⟩, t, ht⟩ := h'.exists_ok
  rcases h.eq with ⟨b, rfl⟩ | ⟨i, rfl⟩ | ⟨s, rfl⟩
  · have hthat : that.readAt .boolean = c := by rw [readAt, hc]; rfl
    have hop : onBool b c = decide (coercedOrder.compare (ofBool b) that = o) := by
      rw [Bool.eq_iff_iff, hbool, decide_eq_true_iff, CoercedOrder.compare_eq_iff, ← hthat]
      rfl
    rw [Value.compareWith, hc]
    exact congrArg Except.ok hop
  · have hthat : that.readAt .integer = j.toInt := by rw [readAt, hj]; rfl
    have hop : onInt i j = decide (coercedOrder.compare (ofInt i) that = o) := by
      rw [Bool.eq_iff_iff, hint, decide_eq_true_iff, CoercedOrder.compare_eq_iff, ← hthat]
      rfl
    rw [Value.compareWith, hj]
    exact congrArg Except.ok hop
  · have hthat : that.readAt .string = t := by rw [readAt, ht]; rfl
    have hop : onString s t = decide (coercedOrder.compare (ofString s) that = o) := by
      rw [Bool.eq_iff_iff, hstring, decide_eq_true_iff, CoercedOrder.compare_eq_iff, ← hthat]
      rfl
    rw [Value.compareWith, ht]
    exact congrArg Except.ok hop

theorem WellTagged.lt_eq (h : v.WellTagged) (h' : that.WellTagged) :
    Value.lt v that = .ok (decide (coercedOrder.compare v that = .lt)) := by
  have hbool : ∀ b c : Bool, (!b && c) = true ↔ b < c := by decide
  refine h.compareWith_eq h' hbool (fun i j => ?_) fun s t => ?_
  · exact decide_eq_true_iff.trans Int32.lt_iff_toInt_lt
  · exact decide_eq_true_iff

theorem WellTagged.gt_eq (h : v.WellTagged) (h' : that.WellTagged) :
    Value.gt v that = .ok (decide (coercedOrder.compare v that = .gt)) := by
  have hbool : ∀ b c : Bool, (b && !c) = true ↔ b > c := by decide
  refine h.compareWith_eq h' hbool (fun i j => ?_) fun s t => ?_
  · exact decide_eq_true_iff.trans Int32.lt_iff_toInt_lt
  · exact decide_eq_true_iff

theorem WellTagged.beq_eq (h : v.WellTagged) (h' : that.WellTagged) :
    Value.beq v that = .ok (decide (coercedOrder.compare v that = .eq)) := by
  have hbool : ∀ b c : Bool, (b == c) = true ↔ b = c := by decide
  refine h.compareWith_eq h' hbool (fun i j => ?_) fun s t => ?_
  · exact beq_iff_eq.trans Int32.toInt_inj.symm
  · exact beq_iff_eq

end Value

/-! ## The laws -/

section Laws

variable {a b c : Value} (ha : a.WellTagged) (hb : b.WellTagged)

include ha hb

/-- `a = b || a < b` is `!(a > b)`, and so on. -/
theorem evalRelation_eq :
    evalRelation a b .ge = (a.lt b).map (!·) ∧ evalRelation a b .le = (a.gt b).map (!·) ∧
      evalRelation a b .ne = (a.beq b).map (!·) := by
  refine ⟨?_, ?_, rfl⟩
  · simp only [evalRelation, ha.lt_eq hb, ha.gt_eq hb, ha.beq_eq hb]
    cases Value.coercedOrder.compare a b <;> rfl
  · simp only [evalRelation, ha.lt_eq hb, ha.gt_eq hb, ha.beq_eq hb]
    cases Value.coercedOrder.compare a b <;> rfl

theorem exactly_one :
    (a.lt b = .ok true ∧ a.beq b = .ok false ∧ a.gt b = .ok false) ∨
      (a.lt b = .ok false ∧ a.beq b = .ok true ∧ a.gt b = .ok false) ∨
      (a.lt b = .ok false ∧ a.beq b = .ok false ∧ a.gt b = .ok true) := by
  rw [ha.lt_eq hb, ha.gt_eq hb, ha.beq_eq hb]
  cases Value.coercedOrder.compare a b <;> simp

theorem swap_of_type_eq (h : a.type = b.type) : a.beq b = b.beq a ∧ a.lt b = b.gt a := by
  have hswap := CoercedOrder.compare_swap (C := Value.coercedOrder) h
  rw [ha.beq_eq hb, hb.beq_eq ha, ha.lt_eq hb, hb.gt_eq ha, hswap]
  cases Value.coercedOrder.compare a b <;> exact ⟨rfl, rfl⟩

variable (hc : c.WellTagged)

include hc

theorem lt_trans_of_type_eq (h : a.type = b.type) (hab : a.lt b = .ok true)
    (hbc : b.lt c = .ok true) : a.lt c = .ok true := by
  rw [ha.lt_eq hb, Except.ok.injEq, decide_eq_true_iff] at hab
  rw [hb.lt_eq hc, Except.ok.injEq, decide_eq_true_iff] at hbc
  rw [ha.lt_eq hc, CoercedOrder.compare_lt_trans h hab hbc]
  rfl

/-- Two values of one type that are equal are the same value. -/
theorem beq_trans_of_type_eq (h : a.type = b.type ∨ b.type = c.type)
    (hab : a.beq b = .ok true) (hbc : b.beq c = .ok true) : a.beq c = .ok true := by
  rcases h with h | h
  · rw [ha.beq_eq hb, Except.ok.injEq, decide_eq_true_iff] at hab
    rw [hb.beq_eq hc, Except.ok.injEq, decide_eq_true_iff] at hbc
    rw [ha.beq_eq hc, CoercedOrder.compare_eq_trans h hab hbc]
    rfl
  · obtain rfl : b = c := by
      rcases hb.eq with ⟨x, rfl⟩ | ⟨i, rfl⟩ | ⟨s, rfl⟩ <;>
        rcases hc.eq with ⟨y, rfl⟩ | ⟨j, rfl⟩ | ⟨t, rfl⟩ <;> cases h
      · exact congrArg Value.ofBool (beq_iff_eq.mp (Except.ok.inj hbc))
      · exact congrArg Value.ofInt (beq_iff_eq.mp (Except.ok.inj hbc))
      · exact congrArg Value.ofString (beq_iff_eq.mp (Except.ok.inj hbc))
    exact hab

end Laws

/-- **The relational operators** decide for every two values whether the first is less than, equal
to or greater than the second, and `>=`, `<=` and `<>` are the negations. Between values of one
type they are an order; `=` and `<` are transitive where the chain begins with two of one type,
and `=` also where it ends so. -/
theorem relations_order (a b c : Value) (ha : a.WellTagged) (hb : b.WellTagged)
    (hc : c.WellTagged) :
    ((a.lt b = .ok true ∧ a.beq b = .ok false ∧ a.gt b = .ok false) ∨
      (a.lt b = .ok false ∧ a.beq b = .ok true ∧ a.gt b = .ok false) ∨
      (a.lt b = .ok false ∧ a.beq b = .ok false ∧ a.gt b = .ok true)) ∧
    (evalRelation a b .ge = (a.lt b).map (!·) ∧ evalRelation a b .le = (a.gt b).map (!·) ∧
      evalRelation a b .ne = (a.beq b).map (!·)) ∧
    (a.type = b.type → a.beq b = b.beq a ∧ a.lt b = b.gt a) ∧
    (a.type = b.type ∨ b.type = c.type →
      a.beq b = .ok true → b.beq c = .ok true → a.beq c = .ok true) ∧
    (a.type = b.type → a.lt b = .ok true → b.lt c = .ok true → a.lt c = .ok true) :=
  ⟨exactly_one ha hb, evalRelation_eq ha hb, swap_of_type_eq ha hb,
    beq_trans_of_type_eq ha hb hc, lt_trans_of_type_eq ha hb hc⟩

/-- `2 < 10` and `10 < "11"`, where the text is read as a number. -/
theorem relations_order_numbers :
    (Value.ofInt 2).lt (.ofInt 10) = (Value.ofInt 10).gt (.ofInt 2) ∧
      (Value.ofInt 2).lt (.ofString ['1', '1']) = .ok true := by
  obtain ⟨-, -, hswap, -, htrans⟩ :=
    relations_order (.ofInt 2) (.ofInt 10) (.ofString ['1', '1']) trivial trivial trivial
  exact ⟨(hswap rfl).2, htrans rfl (by decide) (by decide)⟩

/-- Across the types: `5 = "05"` but not `"05" = 5`, and `10 > "9"` but not `"9" < 10`. Neither
`=` nor `<` is transitive: `"5" = 5` and `5 = "05"`, and `FALSE < -1` and `-1 < 0`. -/
theorem relations_not_order :
    ((Value.ofInt 5).beq (.ofString ['0', '5']) = .ok true ∧
      (Value.ofString ['0', '5']).beq (.ofInt 5) = .ok false) ∧
    ((Value.ofInt 10).gt (.ofString ['9']) = .ok true ∧
      (Value.ofString ['9']).lt (.ofInt 10) = .ok false) ∧
    ((Value.ofString ['5']).beq (.ofInt 5) = .ok true ∧
      (Value.ofInt 5).beq (.ofString ['0', '5']) = .ok true ∧
      (Value.ofString ['5']).beq (.ofString ['0', '5']) = .ok false) ∧
    ((Value.ofBool false).lt (.ofInt (-1)) = .ok true ∧
      (Value.ofInt (-1)).lt (.ofInt 0) = .ok true ∧
      (Value.ofBool false).lt (.ofInt 0) = .ok false) := by
  decide

end WwivBasic
