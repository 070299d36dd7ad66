import WwivBasic.Arithmetic
import WwivBasic.FunctionDef
import WwivBasic.VisitorRules

/-!
# The type of an arithmetic expression

Each operator chooses its computation by the type of its left operand, and its result has that
type again, but for two cases. The product of two truth values is an `int`, so that the `Value`
made of it is an `INTEGER`; and an operand without a type makes a `BOOLEAN`. What the type of a
whole expression is depends on its leftmost leaf and on the operators that leaf is below.

## Main definitions

* `IsArithmetic`: expressions of literals, names and the operators `+`, `-`, `*`, `/` and `MOD`
* `Expr.leftmost`, `Expr.leftOperators`: the leftmost leaf and the operators above it
* `ArithmeticOperator.resultType`: what an operator does to the type

## Main results

* `type_visitOperand`: the type of an expression from that of its leftmost leaf
* `completes_of_bound`: an expression of bound variables has a value, or is undefined at `int`
* `type_eq_leftmost_iff`: when the two types are one
-/

namespace WwivBasic

open EStateM

/-- The alternative of `expr` with the operator. -/
def ArithmeticOperator.toExpr (e₀ e₁ : Expr) : ArithmeticOperator → Expr
  | .plus => .addSub .plus e₀ e₁
  | .minus => .addSub .minus e₀ e₁
  | .star => .mulDiv .star e₀ e₁
  | .slash => .mulDiv .slash e₀ e₁
  | .mod => .mulDiv .mod e₀ e₁

/-- A tree of literals and names under arithmetic operators. -/
inductive IsArithmetic : Expr → Prop
  | int (text : Str) : IsArithmetic (.int text)
  | string (text : Str) : IsArithmetic (.string text)
  | boolean (b : Bool) : IsArithmetic (.boolean b)
  | ident (rvalue : Str) : IsArithmetic (.ident rvalue)
  | operator (op : ArithmeticOperator) {e₀ e₁ : Expr} (left : IsArithmetic e₀)
      (right : IsArithmetic e₁) : IsArithmetic (op.toExpr e₀ e₁)

namespace Expr

/-- The leaf at the left end. -/
def leftmost : Expr → Expr
  | .mulDiv _ e₀ _ => e₀.leftmost
  | .addSub _ e₀ _ => e₀.leftmost
  | e => e

/-- The arithmetic operators that the leftmost leaf is below, from the root down. -/
def leftOperators : Expr → List ArithmeticOperator
  | .addSub .plus e₀ _ => .plus :: e₀.leftOperators
  | .addSub .minus e₀ _ => .minus :: e₀.leftOperators
  | .mulDiv .star e₀ _ => .star :: e₀.leftOperators
  | .mulDiv .slash e₀ _ => .slash :: e₀.leftOperators
  | .mulDiv .mod e₀ _ => .mod :: e₀.leftOperators
  | _ => []

/-- The greatest number of operators above a leaf. -/
def operatorDepth : Expr → ℕ
  | .mulDiv _ e₀ e₁ => max e₀.operatorDepth e₁.operatorDepth + 1
  | .addSub _ e₀ e₁ => max e₀.operatorDepth e₁.operatorDepth + 1
  | _ => 0

/-- The names of an arithmetic expression. -/
def names : Expr → List Str
  | .mulDiv _ e₀ e₁ => e₀.names ++ e₁.names
  | .addSub _ e₀ e₁ => e₀.names ++ e₁.names
  | .ident rvalue => [rvalue]
  | _ => []

variable (e₀ e₁ : Expr) (op : ArithmeticOperator)

@[simp] theorem leftmost_toExpr : (op.toExpr e₀ e₁).leftmost = e₀.leftmost := by
  cases op <;> rfl

@[simp] theorem leftOperators_toExpr :
    (op.toExpr e₀ e₁).leftOperators = op :: e₀.leftOperators := by
  cases op <;> rfl

@[simp] theorem operatorDepth_toExpr :
    (op.toExpr e₀ e₁).operatorDepth = max e₀.operatorDepth e₁.operatorDepth + 1 := by
  cases op <;> rfl

@[simp] theorem names_toExpr : (op.toExpr e₀ e₁).names = e₀.names ++ e₁.names := by
  cases op <;> rfl

end Expr

/-- The type of the result of an operator whose left operand has the given type. -/
def ArithmeticOperator.resultType : ArithmeticOperator → ValueType → ValueType
  | .star, .boolean => .integer
  | _, .invalid => .boolean
  | _, type => type

/-- A name is bound to a value whose type is that of what it holds. -/
def Context.Bound (ec : Context) (name : Str) : Prop :=
  ∃ var, ec.findVar name = some var ∧ var.value_.WellTagged

/-! ## One operator -/

section Operators

variable {a b v : Value}

/-- A well-tagged value passes through an `any`. -/
theorem Value.WellTagged.ofAny_toAny (h : v.WellTagged) :
    ∃ x, v.toAny = .ok x ∧ ∀ tag, Value.ofAny tag x = v := by
  rcases h.eq with ⟨b, rfl⟩ | ⟨i, rfl⟩ | ⟨s, rfl⟩
  · exact ⟨.bool b, rfl, fun _ => rfl⟩
  · exact ⟨.int i, rfl, fun _ => rfl⟩
  · exact ⟨.string s, rfl, fun _ => rfl⟩

/-- The results of a computation are well tagged and of one type. -/
abbrev YieldsType (type : ValueType) (x : Except Fault Value) : Prop :=
  x.wp (fun v => v.WellTagged ∧ v.type = type) fun _ => True

theorem yieldsType_concat : YieldsType .string (Value.concat a b) :=
  Except.wp_bind_of_forall _ fun _ => Except.wp_bind_of_forall _ fun _ => ⟨trivial, rfl⟩

theorem yieldsType_arith (op : Int32 → Int32 → Except Fault Int32) :
    YieldsType .integer (Value.arith op a b) :=
  Except.wp_bind_of_forall _ fun _ => Except.wp_bind_of_forall _ fun _ =>
    Except.wp_bind_of_forall _ fun _ => ⟨trivial, rfl⟩

theorem yieldsType_ofBool (x : Except Fault Bool) (f : Bool → Bool) :
    YieldsType .boolean (x.map fun c => Value.ofBool (f c)) := by
  cases x with
  | ok c => exact ⟨trivial, rfl⟩
  | error e => trivial

/-- An operator looks at the type of its left operand only. -/
theorem yieldsType_evalArithmetic (a b : Value) (op : ArithmeticOperator) :
    YieldsType (op.resultType a.type) (evalArithmetic a b op) := by
  obtain ⟨x, type⟩ := a
  cases type with
  | string => cases op <;> exact yieldsType_concat
  | integer => cases op <;> exact yieldsType_arith _
  | invalid => cases op <;> exact ⟨trivial, rfl⟩
  | boolean =>
    cases op with
    | plus => exact yieldsType_ofBool _ id
    | minus => exact yieldsType_ofBool _ (!·)
    -- The conjunction is an `int` here.
    | star =>
      exact Except.wp_bind_of_forall _ fun _ => Except.wp_bind_of_forall _ fun _ => ⟨trivial, rfl⟩
    | slash | mod => exact ⟨trivial, rfl⟩

/-- A stop at an undefined operation of `int`. -/
def Fault.IsUndefinedInt (e : Fault) : Prop := e = .overflow ∨ e = .divideByZero

theorem wp_checkedInt (n : Int) : (Value.checkedInt n).wp (fun _ => True) Fault.IsUndefinedInt := by
  unfold Value.checkedInt
  split_ifs
  · trivial
  · exact .inl rfl

theorem wp_divInt (i j : Int32) : (Value.divInt i j).wp (fun _ => True) Fault.IsUndefinedInt := by
  unfold Value.divInt
  split_ifs
  · exact .inr rfl
  · exact wp_checkedInt _

theorem wp_modInt (i j : Int32) : (Value.modInt i j).wp (fun _ => True) Fault.IsUndefinedInt := by
  simp only [Value.modInt, Except.wp_bind, Except.wp_pure]
  exact wp_divInt i j

/-- Well-tagged operands have a result, unless the operation of `int` is undefined. -/
theorem wp_evalArithmetic (ha : a.WellTagged) (hb : b.WellTagged) (op : ArithmeticOperator) :
    (evalArithmetic a b op).wp Value.WellTagged Fault.IsUndefinedInt := by
  obtain ⟨⟨c, hc⟩, ⟨j, hj⟩, ⟨t, ht⟩⟩ := hb.exists_ok
  rcases ha.eq with ⟨d, rfl⟩ | ⟨i, rfl⟩ | ⟨s, rfl⟩
  · have hor : Value.orBool (.ofBool d) b = .ok (d || c) := by
      cases d
      · exact hc
      · rfl
    have hand : Value.andBool (.ofBool d) b = .ok (d && c) := by
      cases d
      · rfl
      · exact hc
    cases op with
    | plus =>
      change ((Value.orBool (.ofBool d) b).map Value.ofBool).wp _ _
      rw [hor]
      trivial
    | minus =>
      change ((Value.andBool (.ofBool d) b).map _).wp _ _
      rw [hand]
      trivial
    | star =>
      change ((Value.ofBool d).toBool >>= fun d => b.toBool >>= fun c => _).wp _ _
      rw [hc]
      trivial
    | slash | mod => trivial
  · have harith : ∀ f, (f i j).wp (fun _ => True) Fault.IsUndefinedInt →
        (Value.arith f (.ofInt i) b).wp Value.WellTagged Fault.IsUndefinedInt := by
      intro f hf
      change ((Value.ofInt i).toInt >>= fun i => b.toInt >>= fun j => _).wp _ _
      rw [hj]
      change (f i j >>= fun k => pure (Value.ofInt k)).wp _ _
      exact (Except.wp_bind ..).mpr (Except.wp_mono hf fun k _ => Value.wellTagged_ofInt k)
    cases op with
    | plus | minus | star => exact harith _ (wp_checkedInt _)
    | slash => exact harith _ (wp_divInt i j)
    | mod => exact harith _ (wp_modInt i j)
  · have hconcat :
        (Value.concat (.ofString s) b).wp Value.WellTagged Fault.IsUndefinedInt := by
      change ((Value.ofString s).toString >>= fun s => b.toString >>= fun t => _).wp _ _
      rw [ht]
      trivial
    cases op <;> exact hconcat

end Operators

/-! ## A whole expression -/

section Runs

variable {n : ℕ} {s t : Machine} {e e₀ e₁ : Expr} {v : Value}

theorem visitExpr_toExpr (visitor : Visitor) (op : ArithmeticOperator) :
    visitExpr visitor (op.toExpr e₀ e₁) =
      visitBinary visitor (fun left right => evalArithmetic left right op) Value.convertedWith
        e₀ e₁ := by
  cases op <;> rfl

/-- A value made of an `any` that comes from a well-tagged value is that value. -/
theorem makeValue_toAny (h : v.WellTagged) :
    ∃ x, v.toAny = .ok x ∧ ∀ s, makeValue x s = .ok v (s.dropTag.note (.made v)) := by
  obtain ⟨x, hx, hof⟩ := h.ofAny_toAny
  refine ⟨x, hx, fun s => ?_⟩
  change EStateM.Result.ok (Value.ofAny (s.tags 0) x)
    (s.dropTag.note (.made (Value.ofAny (s.tags 0) x))) = _
  rw [hof]

/-- An operator evaluates its operands from the left and applies the `switch` to them. -/
theorem exists_of_visitOperand_toExpr {op : ArithmeticOperator}
    (h : visitOperand (visitor (n + 1)) (op.toExpr e₀ e₁) s = .ok v t) :
    ∃ a s₁ b s₂, visitOperand (visitor n) e₀ s = .ok a s₁ ∧
      visitOperand (visitor n) e₁ s₁ = .ok b s₂ ∧ evalArithmetic a b op = .ok v := by
  obtain ⟨x, s₃, hvisit, hmake⟩ := bind_eq_ok.mp h
  change visitExpr (visitor n) (op.toExpr e₀ e₁) s = _ at hvisit
  rw [visitExpr_toExpr] at hvisit
  obtain ⟨a, s₁, hleft, hafterLeft⟩ := bind_eq_ok.mp hvisit
  obtain ⟨b, s₂, hright, hafterRight⟩ := bind_eq_ok.mp hafterLeft
  obtain ⟨_, _, _, hafterConvert⟩ := bind_eq_ok.mp hafterRight
  obtain ⟨result, s₂', hlift, hprints⟩ := bind_eq_ok.mp hafterConvert
  have heval := (lift_eq_ok.mp hlift).1
  -- The printed texts are dropped.
  obtain ⟨_, _, _, hprints⟩ := bind_eq_ok.mp hprints
  obtain ⟨_, _, _, hprints⟩ := bind_eq_ok.mp hprints
  obtain ⟨_, _, _, hresult⟩ := bind_eq_ok.mp hprints
  have hany := (lift_eq_ok.mp hresult).1
  have htyped := yieldsType_evalArithmetic a b op
  rw [show evalArithmetic a b op = .ok result from heval] at htyped
  obtain ⟨y, hy, hmade⟩ := makeValue_toAny htyped.1
  obtain rfl : y = x := Except.ok.inj (hy.symm.trans hany)
  rw [hmade] at hmake
  cases hmake
  exact ⟨a, s₁, b, s₂, hleft, hright, heval⟩

/-- The visit of a leaf does not visit anything else. -/
theorem visitOperand_leaf (he : IsArithmetic e) (m : ℕ) :
    visitOperand (visitor (m + 1)) e.leftmost = visitOperand (visitor 1) e.leftmost := by
  induction he with
  | int | string | boolean | ident => rfl
  | operator op _ _ ih _ => rw [Expr.leftmost_toExpr, ih]

/-- The type of an expression is what the operators above its leftmost leaf make of the type of
that leaf, which is the first to be evaluated. -/
theorem type_visitOperand (he : IsArithmetic e) (h : visitOperand (visitor n) e s = .ok v t) :
    ∃ v₀ t₀, visitOperand (visitor n) e.leftmost s = .ok v₀ t₀ ∧
      v.type = e.leftOperators.foldr ArithmeticOperator.resultType v₀.type := by
  induction he generalizing n v t with
  | int text => exact ⟨v, t, h, rfl⟩
  | string text => exact ⟨v, t, h, rfl⟩
  | boolean b => exact ⟨v, t, h, rfl⟩
  | ident rvalue => exact ⟨v, t, h, rfl⟩
  | operator op left right ihleft _ =>
    cases n with
    | zero => cases h
    | succ n =>
      obtain ⟨a, s₁, b, s₂, ha, -, heval⟩ := exists_of_visitOperand_toExpr h
      obtain ⟨v₀, t₀, hleaf, htype⟩ := ihleft ha
      have htyped := yieldsType_evalArithmetic a b op
      rw [heval] at htyped
      refine ⟨v₀, t₀, ?_, ?_⟩
      · cases n with
        | zero => cases hleaf
        | succ n =>
          rw [Expr.leftmost_toExpr, visitOperand_leaf left, ← visitOperand_leaf left n]
          exact hleaf
      · rw [Expr.leftOperators_toExpr, List.foldr_cons, htyped.2, htype]

/-- A well-tagged value that a visitor method returns is the operand made of it. -/
theorem wp_lift_toAny (h : v.WellTagged) (hec : t.ec = s.ec) {F : Fault → Machine → Prop} :
    wp (lift v.toAny)
      (fun x t => wp (makeValue x) (fun v t => v.WellTagged ∧ t.ec = s.ec) F t) F t := by
  obtain ⟨x, hx, hmake⟩ := makeValue_toAny h
  rw [hx]
  change wp (makeValue x) (fun v t => v.WellTagged ∧ t.ec = s.ec) F t
  rw [wp, hmake]
  exact ⟨h, hec⟩

theorem wp_print (h : v.WellTagged) {Q : Unit → Machine → Prop} {F : Fault → Machine → Prop}
    (hQ : Q ⟨⟩ s) : wp (print v) Q F s := by
  obtain ⟨-, -, text, htext⟩ := h.exists_ok
  rw [print, htext]
  exact hQ

/-- An expression of bound variables has a value, unless an operation of `int` is undefined. -/
theorem completes_of_bound (he : IsArithmetic e) (hn : e.operatorDepth < n)
    (hbound : ∀ name ∈ e.names, s.ec.Bound name) :
    wp (visitOperand (visitor n) e) (fun v t => v.WellTagged ∧ t.ec = s.ec)
      (fun f _ => f.IsUndefinedInt) s := by
  induction he generalizing n s with
  | int text =>
    obtain ⟨n, rfl⟩ := Nat.exists_eq_succ_of_ne_zero (Nat.ne_zero_of_lt hn)
    exact ⟨trivial, rfl⟩
  | string text =>
    obtain ⟨n, rfl⟩ := Nat.exists_eq_succ_of_ne_zero (Nat.ne_zero_of_lt hn)
    exact ⟨trivial, rfl⟩
  | boolean b =>
    obtain ⟨n, rfl⟩ := Nat.exists_eq_succ_of_ne_zero (Nat.ne_zero_of_lt hn)
    exact ⟨trivial, rfl⟩
  | ident rvalue =>
    obtain ⟨n, rfl⟩ := Nat.exists_eq_succ_of_ne_zero (Nat.ne_zero_of_lt hn)
    obtain ⟨var, hfind, htag⟩ := hbound rvalue (List.mem_singleton_self rvalue)
    change wp (visitRvalue rvalue >>= makeValue) _ _ s
    simp only [visitRvalue, readVar, bind_assoc, wp_bind, note, wp_modify, wp_pure]
    refine wp_var ?_ fun var' f hfind' htext => ?_
    · have hnoted : (s.note (.ident rvalue)).ec.findVar rvalue = some var := hfind
      rw [hnoted]
      exact wp_lift_toAny htag rfl
    · -- The text of the variable is printed, and a well-tagged value has one.
      obtain rfl : var = var' := Option.some.inj (hfind.symm.trans hfind')
      obtain ⟨-, -, text, hok⟩ := htag.exists_ok
      cases hok.symm.trans htext
  | operator op left right ihleft ihright =>
    obtain ⟨n, rfl⟩ := Nat.exists_eq_succ_of_ne_zero (Nat.ne_zero_of_lt hn)
    simp only [Expr.operatorDepth_toExpr, Nat.succ_lt_succ_iff, Nat.max_lt] at hn
    simp only [Expr.names_toExpr, List.mem_append] at hbound
    change wp (visitExpr (visitor n) (op.toExpr _ _) >>= makeValue) _ _ s
    rw [visitExpr_toExpr]
    simp only [visitBinary, readStrings, bind_assoc, wp_bind, wp_modify]
    refine wp_mono (ihleft hn.1 fun x hx => hbound x (.inl hx)) ?_ fun _ _ h => h
    rintro a s₁ ⟨ha, hs₁⟩
    refine wp_mono (ihright hn.2 fun x hx => hs₁ ▸ hbound x (.inr hx)) ?_ fun _ _ h => h
    rintro b s₂ ⟨hb, hs₂⟩
    have heval := wp_evalArithmetic ha hb op
    cases hresult : evalArithmetic a b op with
    | error f =>
      rw [hresult] at heval
      exact heval
    | ok result =>
      rw [hresult] at heval
      refine wp_print ha (wp_print hb (wp_print heval ?_))
      exact wp_lift_toAny (t := s₂.readNumbers _) heval (hs₂.trans hs₁)

end Runs

/-! ## The operators above a leaf -/

section Spine

variable (ops : List ArithmeticOperator)

theorem foldr_resultType_integer : ops.foldr ArithmeticOperator.resultType .integer = .integer := by
  induction ops with
  | nil => rfl
  | cons op ops ih =>
    rw [List.foldr_cons, ih]
    cases op <;> rfl

theorem foldr_resultType_string : ops.foldr ArithmeticOperator.resultType .string = .string := by
  induction ops with
  | nil => rfl
  | cons op ops ih =>
    rw [List.foldr_cons, ih]
    cases op <;> rfl

/-- Truth values stay what they are up to the first product of them. -/
theorem foldr_resultType_boolean : ops.foldr ArithmeticOperator.resultType .boolean =
    if .star ∈ ops then .integer else .boolean := by
  induction ops with
  | nil => rfl
  | cons op ops ih =>
    rw [List.foldr_cons, ih]
    by_cases hops : ArithmeticOperator.star ∈ ops
    · rw [if_pos hops, if_pos (List.mem_cons_of_mem op hops)]
      cases op <;> rfl
    · rw [if_neg hops]
      cases op <;> simp [ArithmeticOperator.resultType, hops]

/-- No operator leaves a value without a type. -/
theorem foldr_resultType_ne_invalid (op : ArithmeticOperator) (type : ValueType) :
    (op :: ops).foldr ArithmeticOperator.resultType type ≠ .invalid := by
  rw [List.foldr_cons]
  cases op <;> cases ops.foldr ArithmeticOperator.resultType type <;>
    exact fun h => ValueType.noConfusion h

/-- The type of the leaf is kept by no operators at all, at the types `INTEGER` and `STRING`, and
at the type `BOOLEAN` without a `*`. -/
theorem foldr_resultType_eq_iff (type : ValueType) :
    ops.foldr ArithmeticOperator.resultType type = type ↔
      ops = [] ∨ type = .integer ∨ type = .string ∨ type = .boolean ∧ .star ∉ ops := by
  cases type with
  | integer => simp [foldr_resultType_integer]
  | string => simp [foldr_resultType_string]
  | boolean =>
    rw [foldr_resultType_boolean]
    by_cases hops : ArithmeticOperator.star ∈ ops
    · simp [hops, List.ne_nil_of_mem hops]
    · simp [hops]
  | invalid =>
    cases ops with
    | nil => simp
    | cons op ops => exact iff_of_false (foldr_resultType_ne_invalid ops op _) (by simp)

end Spine

/-! ## The type of the leftmost leaf -/

/-- **The type of an arithmetic expression is that of its leftmost leaf** exactly when the leaf is
the whole expression, or it is an `INTEGER` or a `STRING`, or it is a `BOOLEAN` below no `*`. With
bound variables the evaluation ends, unless an operation of `int` is undefined. -/
theorem type_eq_leftmost_iff (e : Expr) (he : IsArithmetic e) (n : ℕ) (s : Machine) :
    (∀ v t, visitOperand (visitor n) e s = .ok v t →
      ∃ v₀ t₀, visitOperand (visitor n) e.leftmost s = .ok v₀ t₀ ∧
        (v.type = v₀.type ↔ e.leftOperators = [] ∨ v₀.type = .integer ∨ v₀.type = .string ∨
          v₀.type = .boolean ∧ .star ∉ e.leftOperators)) ∧
    (e.operatorDepth < n → (∀ name ∈ e.names, s.ec.Bound name) →
      (∃ v t, visitOperand (visitor n) e s = .ok v t) ∨
      ∃ f t, visitOperand (visitor n) e s = .error f t ∧ f.IsUndefinedInt) := by
  constructor
  · intro v t h
    obtain ⟨v₀, t₀, hleaf, htype⟩ := type_visitOperand he h
    refine ⟨v₀, t₀, hleaf, ?_⟩
    rw [htype]
    exact foldr_resultType_eq_iff _ _
  · intro hn hbound
    have hwp := completes_of_bound he hn hbound
    cases hrun : visitOperand (visitor n) e s with
    | ok v t => exact .inl ⟨v, t, rfl⟩
    | error f t => exact .inr ⟨f, t, rfl, wp_error hwp hrun⟩

/-- A state in which no program has run. -/
def freshMachine : Machine := .start Context.init fun _ => .invalid

/-- `1 + "2"`, an `INTEGER` as its leftmost leaf. -/
def sumOfTypes : Expr := .addSub .plus (.int ['1']) (.string ['"', '2', '"'])

theorem type_eq_leftmost_sumOfTypes :
    ∃ v₀ t₀, visitOperand (visitor 2) sumOfTypes.leftmost freshMachine = .ok v₀ t₀ ∧
      (ValueType.integer = v₀.type ↔ sumOfTypes.leftOperators = [] ∨ v₀.type = .integer ∨
        v₀.type = .string ∨ v₀.type = .boolean ∧ .star ∉ sumOfTypes.leftOperators) :=
  (type_eq_leftmost_iff sumOfTypes (.operator .plus (.int ['1']) (.string ['"', '2', '"'])) 2
    freshMachine).1 (.ofInt 3) _ rfl

/-- `TRUE * TRUE`, whose value is the `INTEGER` 1. -/
def productOfTruths : Expr := .mulDiv .star (.boolean true) (.boolean true)

theorem type_ne_leftmost_product :
    IsArithmetic productOfTruths ∧
    (∃ t, visitOperand (visitor 2) productOfTruths freshMachine = .ok (.ofInt 1) t) ∧
    (∃ t, visitOperand (visitor 2) productOfTruths.leftmost freshMachine = .ok (.ofBool true) t) ∧
    (Value.ofInt 1).type ≠ (Value.ofBool true).type :=
  ⟨.operator .star (.boolean true) (.boolean true), ⟨_, rfl⟩, ⟨_, rfl⟩, by decide⟩

end WwivBasic
