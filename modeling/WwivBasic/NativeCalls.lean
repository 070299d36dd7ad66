import WwivBasic.Balance
import WwivBasic.FunctionDef
import WwivBasic.Stdlib

/-!
# Calls of native functions

`make_basic_fn` makes a function of `Value`s of a C++ function of one or two parameters. It counts
the arguments, and then reads them with `std::get`. `Module::call` runs it between the push and the
pop of a scope, and catches nothing.

## Main definitions

* `NativeType`, `NativeFunction`: C++ functions, by their parameter types
* `NativeFunction.makeBasicFn`, `NativeFunction.typedCall?`: what is registered, and what is meant
* `basicrunHost`: the registrations of `basicrun.cpp`

## Main results

* `call_native_ok`, `call_native_error`: what a call of a native function does
* `call_makeBasicFn_iff`: when it has the value it is meant to have
-/

namespace WwivBasic

open EStateM

/-- The types that a native function takes and returns. -/
inductive NativeType
  | bool | int | string
  deriving DecidableEq

namespace NativeType

/-- The type in C++. -/
abbrev Carrier : NativeType → Type
  | .bool => Bool
  | .int => Int32
  | .string => Str

/-- `Value::get<T>`. -/
def get : ∀ T : NativeType, Value → Except Fault T.Carrier
  | .bool => Value.getBool
  | .int => Value.getInt
  | .string => Value.getString

/-- `Value(T)`. -/
def toValue : ∀ T : NativeType, T.Carrier → Value
  | .bool => Value.ofBool
  | .int => Value.ofInt
  | .string => Value.ofString

theorem wellTagged_toValue : ∀ (T : NativeType) (x : T.Carrier), (T.toValue x).WellTagged
  | .bool, _ => trivial
  | .int, _ => trivial
  | .string, _ => trivial

end NativeType

/-- A C++ function of one or two parameters, which may itself fail. -/
inductive NativeFunction
  | one (P R : NativeType) (f : P.Carrier → Except Fault R.Carrier)
  | two (P P' R : NativeType) (f : P.Carrier → P'.Carrier → Except Fault R.Carrier)

namespace NativeFunction

/-- `make_basic_fn`. -/
def makeBasicFn : NativeFunction → List Value → Except Fault Value
  | one P R f => makeBasicFn₁ P.get R.toValue f
  | two P P' R f => makeBasicFn₂ P.get P'.get R.toValue f

/-- The number of parameters. -/
def arity : NativeFunction → ℕ
  | one _ _ _ => 1
  | two _ _ _ _ => 2

/-- What the function returns, when there are arguments for its parameters and they hold values of
the parameters' types. -/
def typedCall? : NativeFunction → List Value → Option (Except Fault Value)
  | one P R f, v :: _ =>
    match P.get v with
    | .ok x => some ((f x).map R.toValue)
    | .error _ => none
  | two P P' R f, v :: v' :: _ =>
    match P.get v, P'.get v' with
    | .ok x, .ok x' => some ((f x x').map R.toValue)
    | _, _ => none
  | _, _ => none

/-- What a call is meant to return: the result of the function where the arguments fit, and the
error `false` where they do not. -/
def meant (g : NativeFunction) (args : List Value) : Except Fault Value :=
  (g.typedCall? args).getD (.ok (Value.ofBool false))

variable {g : NativeFunction} {args : List Value} {r : Except Fault Value}

theorem makeBasicFn_of_lt (h : args.length < g.arity) :
    g.makeBasicFn args = .ok (Value.ofBool false) ∧ g.typedCall? args = none := by
  rcases g with ⟨P, R, f⟩ | ⟨P, P', R, f⟩
  · obtain rfl : args = [] := List.length_eq_zero_iff.mp (Nat.lt_one_iff.mp h)
    exact ⟨rfl, rfl⟩
  · match args, h with
    | [], _ => exact ⟨rfl, rfl⟩
    | [v], _ => exact ⟨rfl, rfl⟩

theorem makeBasicFn_of_typedCall? (h : g.typedCall? args = some r) : g.makeBasicFn args = r := by
  rcases g with ⟨P, R, f⟩ | ⟨P, P', R, f⟩
  · match args, h with
    | v :: args, h =>
      simp only [typedCall?, makeBasicFn, makeBasicFn₁] at h ⊢
      cases hx : P.get v with
      | error e => simp [hx] at h
      | ok x =>
        rw [hx] at h
        exact Option.some.inj h
  · match args, h with
    | v :: v' :: args, h =>
      simp only [typedCall?, makeBasicFn, makeBasicFn₂] at h ⊢
      cases hx : P.get v with
      | error e => simp [hx] at h
      | ok x =>
        cases hx' : P'.get v' with
        | error e => simp [hx, hx'] at h
        | ok x' =>
          rw [hx, hx'] at h
          exact Option.some.inj h

/-- An argument of another type stops the extraction. -/
theorem makeBasicFn_of_not_fit (hle : g.arity ≤ args.length) (h : g.typedCall? args = none) :
    ∃ e, g.makeBasicFn args = .error e := by
  rcases g with ⟨P, R, f⟩ | ⟨P, P', R, f⟩
  · match args, hle, h with
    | v :: args, _, h =>
      simp only [typedCall?, makeBasicFn, makeBasicFn₁] at h ⊢
      cases hx : P.get v with
      | error e => exact ⟨e, rfl⟩
      | ok x => simp [hx] at h
  · match args, hle, h with
    | v :: v' :: args, _, h =>
      simp only [typedCall?, makeBasicFn, makeBasicFn₂] at h ⊢
      cases hx : P.get v with
      | error e => exact ⟨e, rfl⟩
      | ok x =>
        cases hx' : P'.get v' with
        | error e => exact ⟨e, rfl⟩
        | ok x' => simp [hx, hx'] at h
    | [v], hle, _ => exact absurd hle (Nat.not_succ_le_self 1)

/-- What a function returns can be printed. -/
theorem wellTagged_of_makeBasicFn {val : Value} (h : g.makeBasicFn args = .ok val) :
    val.WellTagged := by
  have hmap : ∀ {T : NativeType} (x : Except Fault T.Carrier), x.map T.toValue = .ok val →
      val.WellTagged := by
    intro T x hx
    obtain ⟨y, -, rfl⟩ := Except.map_eq_ok.mp hx
    exact T.wellTagged_toValue y
  cases hfit : g.typedCall? args with
  | some r =>
    rw [makeBasicFn_of_typedCall? hfit] at h
    subst h
    rcases g with ⟨P, R, f⟩ | ⟨P, P', R, f⟩
    · match args, hfit with
      | v :: args, hfit =>
        simp only [typedCall?] at hfit
        split at hfit
        · exact hmap _ (Option.some.inj hfit)
        · cases hfit
    · match args, hfit with
      | v :: v' :: args, hfit =>
        simp only [typedCall?] at hfit
        split at hfit
        · exact hmap _ (Option.some.inj hfit)
        · cases hfit
  | none =>
    by_cases hlt : args.length < g.arity
    · rw [(makeBasicFn_of_lt hlt).1] at h
      obtain rfl := Except.ok.inj h
      trivial
    · obtain ⟨e, he⟩ := makeBasicFn_of_not_fit (Nat.le_of_not_lt hlt) hfit
      rw [he] at h
      cases h

end NativeFunction

/-! ## Calls -/

section Call

variable {v : Visitor} {self function : Str} {args : List Value} {s : Machine}
  {fn : BasicFunction} {cppFn : NativeFn}
  (hfind : (s.ec.moduleAt self).functions.find? function = some fn)
  (hbody : fn.body = .native cppFn)

include hfind hbody

/-- A call whose function returns a value that can be printed returns it, and pops the scope. -/
theorem call_native_ok {val : Value} (hrun : cppFn args = .ok val) (htag : val.WellTagged) :
    ∃ t, Module.call v self function args s = .ok val t ∧
      ∀ key, t.ec.scopes key = s.ec.scopes key := by
  have hwp : wp (Module.call v self function args)
      (fun r t => r = val ∧ ∀ key, t.ec.scopes key = s.ec.scopes key) (fun _ _ => False) s := by
    obtain ⟨-, -, text, htext⟩ := htag.exists_ok
    simp only [Module.call, hfind, hbody, pushScope, popScope, note, readStrings, runNative, print,
      hrun, htext, lift, Except.mapError, wp_bind, wp_get, wp_modify, wp_pure, true_and]
    intro key
    -- The scope that the pop removes is the one that was pushed.
    simp only [Machine.note, Machine.readNumbers, Machine.popScope, Machine.pushScope,
      Machine.mapContext, Context.scopes_mapScopes, Context.contains_mapScopes]
    split_ifs
    · exact List.dropLast_concat
    · rfl
  cases hr : Module.call v self function args s with
  | ok r t =>
    obtain ⟨rfl, hscopes⟩ := wp_ok hwp hr
    exact ⟨t, rfl, hscopes⟩
  | error e t => exact (wp_error hwp hr).elim

/-- A call whose function fails stops, with the scope of the function on the deque. -/
theorem call_native_error {e : Fault} (hrun : cppFn args = .error e) :
    Module.call v self function args s =
      .error (.native e)
        (s.enterNative self function ⟨function, ∅⟩ args (cppFn.converted args)) := by
  have hwp : wp (Module.call v self function args) (fun _ _ => False)
      (fun e' t => e' = .native e ∧
        t = s.enterNative self function ⟨function, ∅⟩ args (cppFn.converted args)) s := by
    simp only [Module.call, hfind, hbody, pushScope, popScope, note, readStrings, runNative, print,
      hrun, lift, Except.mapError, wp_bind, wp_get, wp_modify, wp_throw, true_and]
    rfl
  cases hr : Module.call v self function args s with
  | ok r t => exact (wp_ok hwp hr).elim
  | error e' t =>
    obtain ⟨rfl, rfl⟩ := wp_error hwp hr
    rfl

end Call

/-- **A call of a function made with `make_basic_fn`** has the value it is meant to have, and
restores the scopes, exactly when there are too few arguments, or the arguments hold values of the
parameters' types and the function returns for them. -/
theorem call_makeBasicFn_iff (v : Visitor) (self function : Str) (args : List Value) (s : Machine)
    (fn : BasicFunction) (g : NativeFunction)
    (hfind : (s.ec.moduleAt self).functions.find? function = some fn)
    (hbody : fn.body = .native g.makeBasicFn) :
    (∃ val t, g.meant args = .ok val ∧ Module.call v self function args s = .ok val t ∧
      ∀ key, t.ec.scopes key = s.ec.scopes key) ↔
    args.length < g.arity ∨ ∃ val, g.typedCall? args = some (.ok val) := by
  constructor
  · rintro ⟨val, t, hmeant, hcall, -⟩
    by_contra hcond
    obtain ⟨hlt, hfit⟩ := not_or.mp hcond
    -- Arguments that do not fit, or for which the function fails, stop the call.
    have hfail : ∃ e, g.makeBasicFn args = .error e := by
      cases htyped : g.typedCall? args with
      | none => exact NativeFunction.makeBasicFn_of_not_fit (Nat.le_of_not_lt hlt) htyped
      | some r =>
        cases r with
        | ok val => exact absurd ⟨val, htyped⟩ hfit
        | error e => exact ⟨e, NativeFunction.makeBasicFn_of_typedCall? htyped⟩
    obtain ⟨e, he⟩ := hfail
    rw [call_native_error hfind hbody he] at hcall
    cases hcall
  · intro hcond
    obtain ⟨val, hmeant, hrun⟩ :
        ∃ val, g.meant args = .ok val ∧ g.makeBasicFn args = .ok val := by
      rcases hcond with hlt | ⟨val, htyped⟩
      · obtain ⟨hrun, hnone⟩ := NativeFunction.makeBasicFn_of_lt hlt
        exact ⟨_, by rw [NativeFunction.meant, hnone, Option.getD_none], hrun⟩
      · exact ⟨val, by rw [NativeFunction.meant, htyped, Option.getD_some],
          NativeFunction.makeBasicFn_of_typedCall? htyped⟩
    obtain ⟨t, hcall, hscopes⟩ :=
      call_native_ok hfind hbody hrun (NativeFunction.wellTagged_of_makeBasicFn hrun)
    exact ⟨val, t, hmeant, hcall, hscopes⟩

/-! ## The registrations of `basicrun.cpp` -/

def easy : NativeFunction := .one .string .string fun _ => .ok []

def easy2 : NativeFunction := .two .string .string .string fun _ _ => .ok []

/-- `EASY3`. -/
def easy3 : NativeFunction := .two .int .int .int fun a b => Value.checkedInt (a.toInt + b.toInt)

/-- `PRINT` of the module `wwiv.io`, which prints its first argument. -/
def printFirst : List Value → Except Fault Value
  | [] => .ok Value.default
  | arg :: _ => arg.toString.map fun _ => Value.default

/-- `PRINT` of the root module. -/
def printAll (args : List Value) : Except Fault Value := do
  let _ ← args.mapM Value.toString
  return Value.default

def printText : Str := ['P', 'R', 'I', 'N', 'T']

def wwivIoText : Str := ['w', 'w', 'i', 'v', '.', 'i', 'o']

/-- What `main` registers between the definition pass and the execution. -/
def basicrunHost : List Registration :=
  [.module wwivIoText (Module.nativeFunctionl {} printText printFirst),
    .native printText printAll,
    .native ['e', 'a', 's', 'y'] easy.makeBasicFn,
    .native ['e', 'a', 's', 'y', '2'] easy2.makeBasicFn,
    .native ['E', 'A', 'S', 'Y', '3'] easy3.makeBasicFn,
    .native printText printAll]

/-- The state in which an empty program begins in `basicrun`. -/
def basicrunStart : Machine := .start (Context.init.register basicrunHost) fun _ => .integer

/-- `EASY3(2, 3)` is 5. -/
theorem call_makeBasicFn_easy3 :
    ∃ val t, easy3.meant [.ofInt 2, .ofInt 3] = .ok val ∧
      Module.call (visitor 0) [] ['E', 'A', 'S', 'Y', '3'] [.ofInt 2, .ofInt 3] basicrunStart =
        .ok val t ∧ ∀ key, t.ec.scopes key = basicrunStart.ec.scopes key :=
  (call_makeBasicFn_iff (visitor 0) [] ['E', 'A', 'S', 'Y', '3'] [.ofInt 2, .ofInt 3] basicrunStart
    ⟨['E', 'A', 'S', 'Y', '3'], .native easy3.makeBasicFn, []⟩ easy3 rfl rfl).mpr
    (.inr ⟨.ofInt 5, rfl⟩)

/-- `EASY3("2", 3)` throws, and leaves its scope on the deque of the root module. -/
theorem call_makeBasicFn_throws :
    let r := Module.call (visitor 0) [] ['E', 'A', 'S', 'Y', '3']
      [.ofString ['2'], .ofInt 3] basicrunStart
    easy3.meant [.ofString ['2'], .ofInt 3] = .ok (.ofBool false) ∧
      r.error? = some (.native .badVariantAccess) ∧
      basicrunStart.ec.fnNames [] = [globalText] ∧
      r.final.ec.fnNames [] = [globalText, ['E', 'A', 'S', 'Y', '3']] := by
  decide

end WwivBasic
