import WwivBasic.FunctionDef
import WwivBasic.Stdlib
import WwivBasic.VisitorRules

/-!
# Parenthesised expressions

`visitParens` visits the first child of its node, the terminal `(`, so the expression between the
parentheses is not evaluated and the result is an empty `any`. An expression survives its
parentheses where it would have had that result anyway.

## Main definitions

* `Expr.nest`: an expression in pairs of parentheses
* `Machine.Same`: two states apart from what records a run
* `Expr.Blank`: expressions that yield nothing and change nothing

## Main results

* `NonEmpty.visitExpr`: operators and literals yield a value
* `visit_nest_iff`: when parentheses change nothing
-/

namespace WwivBasic

open EStateM

/-- An expression in `d` pairs of parentheses. -/
def Expr.nest (e : Expr) : ℕ → Expr
  | 0 => e
  | d + 1 => .parens (e.nest d)

/-- The two states have the same context, `return_` and `errno`. -/
structure Machine.Same (s t : Machine) : Prop where
  ec : s.ec = t.ec
  return_ : s.return_ = t.return_
  errno : s.errno = t.errno

/-- An expression that is in parentheses itself, a name that no visible scope binds, a name bound
to a value whose `type` is no type, and a call that gives such a value and changes nothing. -/
def Expr.Blank (v : Visitor) (s : Machine) : Expr → Prop
  | .parens _ => True
  | .ident name => ∀ var, s.ec.findVar name = some var → var.value_.type = .invalid
  | .procCall procedureName parameterList => ∃ val t,
      (visitParameterList v parameterList >>= Context.call v procedureName) s = .ok val t ∧
        val.type = .invalid ∧ s.Same (t.setReturn false)
  | _ => False

/-! ## Values of operators and literals -/

namespace Value

variable {v that : Value}

/-- Only a value without a type is an empty `any`. -/
theorem toAny_eq_empty_iff : v.toAny = .ok .empty ↔ v.type = .invalid := by
  obtain ⟨x, type⟩ := v
  cases type <;> cases x <;> simp [toAny, getBool, getInt, getString, Except.map]

/-- A computation whose values have a type. -/
abbrev Typed (x : Except Fault Value) : Prop := x.wp (fun v => v.type ≠ .invalid) fun _ => True

theorem typed_bind {α : Type} {f : α → Except Fault Value} (hf : ∀ a, Typed (f a))
    (x : Except Fault α) : Typed (x >>= f) :=
  Except.wp_bind_of_forall x hf

theorem typed_map {α : Type} {f : α → Value} (hf : ∀ a, Typed (.ok (f a))) (x : Except Fault α) :
    Typed (x.map f) :=
  typed_bind hf x

theorem typed_ofBool (b : Bool) : Typed (.ok (ofBool b)) := by simp [Typed, ofBool]

theorem typed_ofInt (i : Int32) : Typed (.ok (ofInt i)) := by simp [Typed, ofInt]

theorem typed_ofString (s : Str) : Typed (.ok (ofString s)) := by simp [Typed, ofString]

theorem typed_concat : Typed (concat v that) :=
  typed_bind (fun _ => typed_bind (fun _ => typed_ofString _) _) _

theorem typed_arith (op : Int32 → Int32 → Except Fault Int32) : Typed (arith op v that) :=
  typed_bind (fun _ => typed_bind (fun _ => typed_bind (fun _ => typed_ofInt _) _) _) _

theorem typed_evalMulDiv (op : MultiplicativeOperator) : Typed (evalMulDiv v that op) := by
  obtain ⟨x, type⟩ := v
  cases op <;> cases type
  all_goals first
    | exact typed_concat
    | exact typed_arith _
    | exact typed_ofBool false
    | skip
  -- What is left is `*` and `AND` at the types `BOOLEAN` and `INTEGER`.
  · exact typed_bind (fun _ => typed_bind (fun _ => typed_ofInt _) _) _
  · exact typed_map typed_ofBool _
  · refine typed_bind (fun i => ?_) _
    split_ifs
    · exact typed_ofBool false
    · exact typed_bind (fun _ => typed_ofBool _) _

theorem typed_evalAddSub (op : AdditiveOperator) : Typed (evalAddSub v that op) := by
  obtain ⟨x, type⟩ := v
  cases op <;> cases type
  all_goals first
    | exact typed_concat
    | exact typed_arith _
    | exact typed_ofBool false
    | exact typed_map (fun b => typed_ofBool _) _
    | skip
  -- What is left is `OR` at the type `INTEGER`.
  refine typed_bind (fun i => ?_) _
  split_ifs
  · exact typed_ofBool true
  · exact typed_bind (fun _ => typed_ofBool _) _

end Value

/-- A computation that never completes with an empty `any`. -/
def NonEmpty (m : Eval AnyVal) : Prop := ∀ s, wp m (fun a _ => a ≠ .empty) (fun _ _ => True) s

namespace NonEmpty

variable {v : Visitor}

theorem pure {a : AnyVal} (h : a ≠ .empty) : NonEmpty (Pure.pure a) := fun _ => h

theorem bind {α : Type} {m : Eval α} {f : α → Eval AnyVal} (h : ∀ a, NonEmpty (f a)) :
    NonEmpty (m >>= f) := by
  intro s
  rw [wp_bind, wp]
  cases m s with
  | ok a t => exact h a t
  | error => trivial

theorem lift_bind {α : Type} {x : Except Fault α} {P : α → Prop} {f : α → Eval AnyVal}
    (hx : x.wp P fun _ => True) (h : ∀ a, P a → NonEmpty (f a)) : NonEmpty (lift x >>= f) := by
  cases x with
  | ok a => exact h a hx
  | error => exact fun _ => trivial

theorem lift_toAny {val : Value} (h : val.type ≠ .invalid) : NonEmpty (lift val.toAny) := by
  intro s
  cases hany : val.toAny with
  | ok a =>
    rintro rfl
    exact h (Value.toAny_eq_empty_iff.mp hany)
  | error => trivial

theorem visitBinary {eval : Value → Value → Except Fault Value}
    (heval : ∀ left right, Value.Typed (eval left right)) (converted : Value → Value → List Str)
    (e₀ e₁ : Expr) : NonEmpty (visitBinary v eval converted e₀ e₁) :=
  bind fun left => bind fun right => bind fun _ => lift_bind (heval left right) fun _ h =>
    bind fun _ => bind fun _ => bind fun _ => lift_toAny h

/-- Operators and literals yield a value, whatever their operands do. -/
theorem visitExpr {e : Expr} (hproc : ∀ f args, e ≠ .procCall f args)
    (hparens : ∀ e', e ≠ .parens e')
    (hident : ∀ name, e ≠ .ident name) : NonEmpty (visitExpr v e) := by
  cases e with
  | relation op e₀ e₁ =>
    exact bind fun _ => bind fun _ => bind fun _ => bind fun _ => bind fun _ => bind fun _ =>
      pure nofun
  | mulDiv op e₀ e₁ => exact visitBinary (fun _ _ => Value.typed_evalMulDiv op) _ e₀ e₁
  | addSub op e₀ e₁ => exact visitBinary (fun _ _ => Value.typed_evalAddSub op) _ e₀ e₁
  | procCall f args => exact absurd rfl (hproc f args)
  | parens e => exact absurd rfl (hparens e)
  | ident name => exact absurd rfl (hident name)
  | int text => exact bind fun _ => pure nofun
  | string text => exact pure nofun
  | boolean b => exact pure nofun

end NonEmpty

/-! ## Parentheses -/

/-- An expression in parentheses yields nothing, and changes nothing. -/
theorem visit_nest (n d : ℕ) (e : Expr) (s : Machine) :
    (visitor (n + 1)).expr (e.nest (d + 1)) s = .ok .empty (s.note .parens) := rfl

theorem relResult_empty_iff {s : Machine} {r : Result Fault Machine AnyVal} :
    RelResult Machine.Same Eq (.ok .empty (s.note .parens)) r ↔
      ∃ t, r = .ok .empty t ∧ s.Same t := by
  constructor
  · rintro (⟨rfl, h⟩ | -)
    exact ⟨_, rfl, ⟨h.ec, h.return_, h.errno⟩⟩
  · rintro ⟨t, rfl, h⟩
    exact .ok rfl ⟨h.ec, h.return_, h.errno⟩

/-- A name yields nothing when it is not bound, or bound to a value without a type. -/
theorem visitRvalue_empty_iff (name : Str) (s : Machine) :
    (∃ t, visitRvalue name s = .ok .empty t ∧ s.Same t) ↔
      ∀ var, s.ec.findVar name = some var → var.value_.type = .invalid := by
  have hwp : wp (visitRvalue name)
      (fun a t => s.Same t ∧ (a = .empty ↔
        ∀ var, s.ec.findVar name = some var → var.value_.type = .invalid))
      (fun _ _ => ¬ ∀ var, s.ec.findVar name = some var → var.value_.type = .invalid) s := by
    simp only [visitRvalue, readVar, note, wp_bind, wp_modify, wp_pure]
    refine wp_var ?_ fun var e hvar he h => ?_
    · cases hvar : (s.note (.ident name)).ec.findVar name with
      | none =>
        have hnone : s.ec.findVar name = none := hvar
        exact ⟨⟨rfl, rfl, rfl⟩, by simp [hnone]⟩
      | some var =>
        have hsome : s.ec.findVar name = some var := hvar
        rw [hsome]
        simp only [Option.some.injEq, forall_eq', ← Value.toAny_eq_empty_iff]
        cases hany : var.value_.toAny with
        | ok a => exact ⟨⟨rfl, rfl, rfl⟩, by simp⟩
        | error e =>
          intro hempty
          cases hempty
    -- A value without a type has the empty text.
    · have hinvalid := h var hvar
      rw [Value.toString, hinvalid] at he
      cases he
  constructor
  · rintro ⟨t, ht, -⟩
    exact (wp_ok hwp ht).2.mp rfl
  · intro h
    cases hr : visitRvalue name s with
    | ok a t =>
      obtain ⟨hsame, hiff⟩ := wp_ok hwp hr
      exact ⟨t, by rw [hiff.mpr h], hsame⟩
    | error e t => exact absurd h (wp_error hwp hr)

/-- A call yields nothing when its value has no type. -/
theorem visitProcedureCall_empty_iff (v : Visitor) (f : Str) (args : List Expr) (s : Machine) :
    (∃ t, visitProcedureCall v f args s = .ok .empty t ∧ s.Same t) ↔
      (Expr.procCall f args).Blank v s := by
  have hassoc : visitProcedureCall v f args s =
      ((visitParameterList v args >>= Context.call v f) >>= fun val => do
        modify (Machine.setReturn · false)
        lift val.toAny) s := by
    rw [bind_assoc]
    rfl
  rw [hassoc]
  show (∃ t, EStateM.bind _ _ s = _ ∧ _) ↔ _
  rw [EStateM.bind]
  cases hcall : (visitParameterList v args >>= Context.call v f) s with
  | ok val t =>
    show (∃ u, lift val.toAny (t.setReturn false) = _ ∧ _) ↔ ∃ val' t', _ ∧ _
    simp only [hcall, Result.ok.injEq]
    cases hany : val.toAny with
    | ok a =>
      constructor
      · rintro ⟨u, hu, hsame⟩
        cases hu
        exact ⟨val, t, ⟨rfl, rfl⟩, Value.toAny_eq_empty_iff.mp hany, hsame⟩
      · rintro ⟨_, _, ⟨rfl, rfl⟩, htype, hsame⟩
        rw [Value.toAny_eq_empty_iff.mpr htype] at hany
        cases hany
        exact ⟨_, rfl, hsame⟩
    | error e =>
      constructor
      · rintro ⟨u, hu, -⟩
        cases hu
      · rintro ⟨_, _, ⟨rfl, rfl⟩, htype, -⟩
        rw [Value.toAny_eq_empty_iff.mpr htype] at hany
        cases hany
  | error e t =>
    constructor
    · rintro ⟨u, hu, -⟩
      cases hu
    · rintro ⟨val, t', h, -⟩
      rw [hcall] at h
      cases h

/-- **Parentheses around an expression**, one pair or more, leave its result and the state it
leads to unchanged exactly when the expression yields nothing and changes nothing. The result is
the `any` that every operand, argument, condition, bound, right-hand side and `RETURN` is made
of. -/
theorem visit_nest_iff (n d : ℕ) (e : Expr) (s : Machine) :
    RelResult Machine.Same Eq ((visitor (n + 1)).expr (e.nest (d + 1)) s)
        ((visitor (n + 1)).expr e s) ↔ e.Blank (visitor n) s := by
  rw [visit_nest, relResult_empty_iff]
  show (∃ t, visitExpr (visitor n) e s = _ ∧ _) ↔ _
  -- An expression that always yields a value is not blank.
  have hvalue : NonEmpty (visitExpr (visitor n) e) →
      ¬ ∃ t, visitExpr (visitor n) e s = .ok .empty t ∧ s.Same t := by
    rintro h ⟨t, ht, -⟩
    exact wp_ok (h s) ht rfl
  cases e with
  | parens e => exact iff_of_true ⟨_, rfl, ⟨rfl, rfl, rfl⟩⟩ trivial
  | ident name => exact visitRvalue_empty_iff name s
  | procCall f args => exact visitProcedureCall_empty_iff (visitor n) f args s
  | relation | mulDiv | addSub | int | string | boolean =>
    exact iff_of_false (hvalue (NonEmpty.visitExpr nofun nofun nofun)) id

/-- `(1)`, evaluated in the initial context, yields nothing, and `1` yields 1. -/
theorem visit_parens_one :
    ¬ RelResult Machine.Same Eq
      ((visitor 1).expr ((Expr.int ['1']).nest 1) (.start .init fun _ => .integer))
      ((visitor 1).expr (.int ['1']) (.start .init fun _ => .integer)) := by
  rintro (⟨h, -⟩ | -)
  revert h
  decide

end WwivBasic
