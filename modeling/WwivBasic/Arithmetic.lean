import WwivBasic.Executor
import WwivBasic.Stdlib

/-!
# Arithmetic

`+`, `-`, `*`, `/` and `MOD` compute an `int` where their left operand is an `INTEGER`. The right
operand is read as an `int` first: a `BOOLEAN` as 0 or 1, a `STRING` as the number it starts with,
or 0. Nothing looks at the two numbers before they are combined.

## Main definitions

* `ArithmeticOperator`, `evalArithmetic`: the operators, as the visitor applies them
* `IntDefined`: a computation that reaches no undefined operation of `int`
* `ArithmeticOperator.DefinedAt`: where an operator of `int` is defined

## Main results

* `arithmetic_intDefined_iff`: when an operator, and `abs`, is defined
-/

namespace WwivBasic

/-- The arithmetic operators of `multiplicativeoperator` and `additiveoperator`. -/
inductive ArithmeticOperator
  | plus | minus | star | slash | mod
  deriving DecidableEq

/-- The operator, in the `switch` it belongs to. -/
def evalArithmetic (left right : Value) : ArithmeticOperator → Except Fault Value
  | .plus => evalAddSub left right .plus
  | .minus => evalAddSub left right .minus
  | .star => evalMulDiv left right .star
  | .slash => evalMulDiv left right .slash
  | .mod => evalMulDiv left right .mod

/-- No division by zero, and no result out of the range of `int`. -/
def IntDefined {α : Type} (x : Except Fault α) : Prop :=
  x.wp (fun _ => True) fun e => e ≠ .divideByZero ∧ e ≠ .overflow

instance {α : Type} (x : Except Fault α) : Decidable (IntDefined x) := by
  cases x
  · exact inferInstanceAs (Decidable (_ ∧ _))
  · exact inferInstanceAs (Decidable True)

/-- A number in the range of `int`. -/
def InIntRange (n : Int) : Prop := intMin ≤ n ∧ n ≤ intMax

/-- Where the operator of `int` is defined. The quotient of two numbers in range is out of range
only when it is `-intMin`, and the remainder is undefined where the quotient is. -/
def ArithmeticOperator.DefinedAt (i j : Int) : ArithmeticOperator → Prop
  | .plus => InIntRange (i + j)
  | .minus => InIntRange (i - j)
  | .star => InIntRange (i * j)
  | .slash | .mod => j ≠ 0 ∧ ¬ (i = intMin ∧ j = -1)

/-! ## `int` -/

theorem inIntRange_toInt (i : Int32) : InIntRange i.toInt :=
  ⟨i.le_toInt, Int.le_of_lt_add_one i.toInt_lt⟩

theorem intDefined_checkedInt_iff (n : Int) : IntDefined (Value.checkedInt n) ↔ InIntRange n := by
  unfold Value.checkedInt
  split_ifs with h
  · exact iff_of_true trivial h
  · exact iff_of_false (fun hdef => hdef.2 rfl) h

/-- The quotient is not greater than the dividend, in absolute value. -/
theorem inIntRange_tdiv_iff {i j : Int} (hi : InIntRange i) (hj : j ≠ 0) :
    InIntRange (i.tdiv j) ↔ ¬ (i = intMin ∧ j = -1) := by
  constructor
  · rintro h ⟨rfl, rfl⟩
    exact absurd h.2 (by decide)
  · intro h
    have habs := Int.natAbs_tdiv_le_natAbs i j
    obtain ⟨hlo, hhi⟩ := hi
    unfold InIntRange
    unfold intMin intMax at *
    -- Only the quotient by -1 of `intMin` has the absolute value of `intMin` and no sign.
    by_contra hout
    have hquot : i.tdiv j = 2147483648 := by omega
    obtain rfl : i = -2147483648 := by omega
    have hdiv : 2147483648 / j.natAbs = 2147483648 := by
      have hnat := Int.natAbs_tdiv (-2147483648) j
      rw [hquot] at hnat
      exact hnat.symm
    have hone : j.natAbs = 1 := by
      by_contra hne
      have hle : 2147483648 / j.natAbs ≤ 2147483648 / 2 :=
        Nat.div_le_div_left (by omega) Nat.two_pos
      omega
    rcases Int.natAbs_eq_iff.mp hone with rfl | rfl
    · rw [Int.ofNat_one, Int.tdiv_one] at hquot
      omega
    · exact h ⟨rfl, rfl⟩

theorem intDefined_divInt_iff (i j : Int32) :
    IntDefined (Value.divInt i j) ↔ j.toInt ≠ 0 ∧ ¬ (i.toInt = intMin ∧ j.toInt = -1) := by
  unfold Value.divInt
  have hzero : j = 0 ↔ j.toInt = 0 := Int32.toInt_inj.symm
  split_ifs with h
  · exact iff_of_false (fun hdef => hdef.1 rfl) fun hdef => hdef.1 (hzero.mp h)
  · have hj : j.toInt ≠ 0 := fun h' => h (hzero.mpr h')
    rw [intDefined_checkedInt_iff, inIntRange_tdiv_iff (inIntRange_toInt i) hj]
    exact ⟨fun hmin => ⟨hj, hmin⟩, And.right⟩

theorem intDefined_modInt_iff (i j : Int32) :
    IntDefined (Value.modInt i j) ↔ j.toInt ≠ 0 ∧ ¬ (i.toInt = intMin ∧ j.toInt = -1) := by
  rw [← intDefined_divInt_iff]
  simp only [IntDefined, Value.modInt, Except.wp_bind, Except.wp_pure]

theorem intDefined_abs_iff (n : Int32) : IntDefined (Stdlib.abs n) ↔ n.toInt ≠ intMin := by
  have hrange := inIntRange_toInt n
  unfold Stdlib.abs
  unfold InIntRange at hrange
  split_ifs with h
  · rw [intDefined_checkedInt_iff, InIntRange]
    unfold intMin intMax at *
    omega
  · refine iff_of_true trivial fun hmin => h ?_
    rw [hmin]
    decide

/-! ## The operators -/

section Operators

variable {v that : Value}

theorem intDefined_map {α β : Type} {x : Except Fault α} {f : α → β} :
    IntDefined (x.map f) ↔ IntDefined x := Except.wp_map ..

/-- The accessors do no arithmetic. -/
theorem intDefined_get (v : Value) : IntDefined v.getBool ∧ IntDefined v.getInt ∧
    IntDefined v.getString := by
  have herror : IntDefined (.error .badVariantAccess : Except Fault Bool) := by decide
  obtain ⟨x, type⟩ := v
  cases x with
  | bool b => exact ⟨trivial, herror, herror⟩
  | int i => exact ⟨herror, trivial, herror⟩
  | string s => exact ⟨herror, herror, trivial⟩

theorem intDefined_toBool (v : Value) : IntDefined v.toBool := by
  obtain ⟨hbool, hint, hstring⟩ := intDefined_get v
  unfold Value.toBool
  cases v.type
  · exact hbool
  · exact intDefined_map.mpr hint
  · exact intDefined_map.mpr hstring
  · trivial

theorem intDefined_toInt (v : Value) : IntDefined v.toInt := by
  obtain ⟨hbool, hint, hstring⟩ := intDefined_get v
  unfold Value.toInt
  cases v.type
  · exact intDefined_map.mpr hbool
  · exact hint
  · exact intDefined_map.mpr hstring
  · trivial

theorem intDefined_toString (v : Value) : IntDefined v.toString := by
  obtain ⟨hbool, hint, hstring⟩ := intDefined_get v
  unfold Value.toString
  cases v.type
  · exact intDefined_map.mpr hbool
  · exact intDefined_map.mpr hint
  · exact hstring
  · trivial

theorem intDefined_bind {α β : Type} {x : Except Fault α} {f : α → Except Fault β}
    (hx : IntDefined x) (hf : ∀ a, IntDefined (f a)) : IntDefined (x >>= f) :=
  (Except.wp_bind ..).mpr (Except.wp_mono hx fun a _ => hf a)

theorem intDefined_concat : IntDefined (Value.concat v that) :=
  intDefined_bind (intDefined_toString v) fun _ =>
    intDefined_bind (intDefined_toString that) fun _ => trivial

/-- Truth values are combined without arithmetic on `int`. -/
theorem intDefined_boolean (b : Bool) (that : Value) (op : ArithmeticOperator) :
    IntDefined (evalArithmetic (.ofBool b) that op) := by
  have htoBool := intDefined_toBool that
  cases op with
  | plus =>
    refine intDefined_map.mpr (intDefined_bind trivial fun c => ?_)
    cases c
    · exact htoBool
    · trivial
  | minus =>
    refine intDefined_map.mpr (intDefined_bind trivial fun c => ?_)
    cases c
    · trivial
    · exact htoBool
  | star => exact intDefined_bind trivial fun _ => intDefined_bind htoBool fun _ => trivial
  | slash | mod => trivial

/-- At the type `STRING` every operator appends the texts. -/
theorem intDefined_text (s : Str) (that : Value) (op : ArithmeticOperator) :
    IntDefined (evalArithmetic (.ofString s) that op) := by
  cases op <;> exact intDefined_concat

/-- At the type `INTEGER` the operator is one of `int`. -/
theorem intDefined_arith_iff {op : Int32 → Int32 → Except Fault Int32} (i : Int32)
    (that : Value) : IntDefined (Value.arith op (.ofInt i) that) ↔
      ∀ j, that.toInt = .ok j → IntDefined (op i j) := by
  have hiff : IntDefined (Value.arith op (.ofInt i) that) ↔
      that.toInt.wp (fun j => IntDefined (op i j)) fun e => e ≠ .divideByZero ∧ e ≠ .overflow := by
    simp only [Value.arith, IntDefined, Except.wp_bind, Except.wp_pure]
    exact Iff.rfl
  have hthat := intDefined_toInt that
  rw [hiff]
  cases hj : that.toInt with
  | ok j => simp
  | error e =>
    rw [hj] at hthat
    exact iff_of_true hthat fun j h => by cases h

theorem intDefined_integer_iff (i : Int32) (that : Value) (op : ArithmeticOperator) :
    IntDefined (evalArithmetic (.ofInt i) that op) ↔
      ∀ j, that.toInt = .ok j → op.DefinedAt i.toInt j.toInt := by
  cases op with
  | plus | minus | star =>
    exact (intDefined_arith_iff i that).trans
      (forall₂_congr fun j _ => intDefined_checkedInt_iff _)
  | slash =>
    exact (intDefined_arith_iff i that).trans
      (forall₂_congr fun j _ => intDefined_divInt_iff i j)
  | mod =>
    exact (intDefined_arith_iff i that).trans
      (forall₂_congr fun j _ => intDefined_modInt_iff i j)

end Operators

/-- **An arithmetic operator is defined** exactly when its left operand is no `INTEGER`, or the
right operand, read as an `int`, is one that the operator of `int` is defined at. `abs` is
defined but at `intMin`. -/
theorem arithmetic_intDefined_iff (a b : Value) (ha : a.WellTagged) (op : ArithmeticOperator)
    (n : Int32) :
    (IntDefined (evalArithmetic a b op) ↔
      ∀ i j, a = .ofInt i → b.toInt = .ok j → op.DefinedAt i.toInt j.toInt) ∧
    (IntDefined (Stdlib.abs n) ↔ n.toInt ≠ intMin) := by
  refine ⟨?_, intDefined_abs_iff n⟩
  rcases ha.eq with ⟨c, rfl⟩ | ⟨i, rfl⟩ | ⟨s, rfl⟩
  · exact iff_of_true (intDefined_boolean c b op) nofun
  · rw [intDefined_integer_iff]
    constructor
    · rintro h _ j ⟨⟩ hj
      exact h j hj
    · exact fun h j hj => h i j rfl hj
  · exact iff_of_true (intDefined_text s b op) nofun

/-- `7 MOD "3 apples"`. -/
theorem arithmetic_intDefined_mod :
    IntDefined (evalArithmetic (.ofInt 7) (.ofString "3 apples".toList) .mod) := by
  have hiff := (arithmetic_intDefined_iff (.ofInt 7) (.ofString "3 apples".toList) trivial .mod 0).1
  apply hiff.mpr
  rintro _ j ⟨⟩ hj
  obtain rfl : 3 = j := Except.ok.inj (Eq.trans (by decide) hj)
  exact ⟨by decide, by decide⟩

/-- A division by `FALSE` and one by a text, and results that no `int` holds. -/
theorem arithmetic_not_intDefined :
    evalArithmetic (.ofInt 1) (.ofBool false) .slash = .error .divideByZero ∧
    evalArithmetic (.ofInt 1) (.ofString ['x']) .mod = .error .divideByZero ∧
    evalArithmetic (.ofInt 2147483647) (.ofInt 1) .plus = .error .overflow ∧
    evalArithmetic (.ofInt (-2147483648)) (.ofInt (-1)) .slash = .error .overflow ∧
    Stdlib.abs (-2147483648) = .error .overflow := by
  decide

end WwivBasic
