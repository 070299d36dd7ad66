import Mathlib.Data.Set.Finite.Basic
import Mathlib.Logic.Relation
import Mathlib.Order.WellFounded
import WwivBasic.Foundations.Fueled
import WwivBasic.Literals
import WwivBasic.Loops
import WwivBasic.ModuleScopes

/-!
# Programs whose runs end

A BASIC program repeats statements in two ways: a procedure that calls itself, directly or through
others, and a `FOR`. The counter of a `FOR` starts each round from what its variable holds, so that
a body that assigns the variable may keep it going for ever, and so may a `STEP` that is read as 0,
as each is once a number or a string has been out of the range of `long`. A program that does none
of the three ends, whatever its values are: it completes or stops at a fault, among them the
overflow of a counter that has passed its last value.

## Main definitions

* `Mention`: what a statement mentions of procedures, assigned names and `FOR` variables
* `Calls`: a procedure of a program mentions a call of another one
* `Machine.Advances`: each `STEP` has been read as more than 0
* `Machine.Proceeds`: a visit that assigns no `FOR` variable
* `Finishes`: a visit ends, from every state of the program

## Main results

* `Finishes.loop`: a `FOR` ends
* `finishes_stmts`: and so do the statements that only call procedures that end
* `basicrun_ends`: every run of the program ends
-/

namespace WwivBasic

open EStateM
open Filter (atTop)

/-! ## Mentions -/

/-- What decides whether the runs of a program end. -/
inductive Mention
  /-- A call, by the name it is written with. -/
  | call (procedureName : Str)
  /-- The name on the left of an assignment. -/
  | assign (lvalue : Str)
  /-- The variable of a `FOR`. -/
  | loopVar (id : Str)
  deriving DecidableEq

mutual

/-- The mentions of an expression. What is in parentheses is not visited. -/
def Expr.mentions : Expr → List Mention
  | .relation _ e₀ e₁ => e₀.mentions ++ e₁.mentions
  | .mulDiv _ e₀ e₁ => e₀.mentions ++ e₁.mentions
  | .addSub _ e₀ e₁ => e₀.mentions ++ e₁.mentions
  | .procCall procedureName parameterList =>
    .call procedureName :: Expr.mentionsList parameterList
  | .parens _ => []
  | .ident _ => []
  | .int _ => []
  | .string _ => []
  | .boolean _ => []

def Expr.mentionsList : List Expr → List Mention
  | [] => []
  | e :: es => e.mentions ++ Expr.mentionsList es

end

mutual

/-- The mentions of a statement. -/
def Stmt.mentions : Stmt → List Mention
  | .assignRvalue lvalue _ => [.assign lvalue]
  | .assignExpr lvalue e => .assign lvalue :: e.mentions
  | .ifThen e statements => e.mentions ++ Stmt.mentionsList statements
  | .ifThenElse e statements otherwise =>
    e.mentions ++ Stmt.mentionsList statements ++ Stmt.mentionsList otherwise
  | .ifThenElseIfElse e statements elseIfs otherwise =>
    e.mentions ++ Stmt.mentionsList statements ++ Stmt.mentionsClauses elseIfs ++
      Stmt.mentionsList otherwise
  | .forStatement id e₀ e₁ _ statements =>
    .loopVar id :: (e₀.mentions ++ e₁.mentions) ++ Stmt.mentionsList statements
  | .procedureCall procedureName parameterList =>
    .call procedureName :: Expr.mentionsList parameterList
  | .returnStatement e => e.mentions
  | .emptyStatement => []

def Stmt.mentionsList : List Stmt → List Mention
  | [] => []
  | stmt :: stmts => stmt.mentions ++ Stmt.mentionsList stmts

def Stmt.mentionsClauses : List (Expr × List Stmt) → List Mention
  | [] => []
  | (e, statements) :: clauses =>
    e.mentions ++ Stmt.mentionsList statements ++ Stmt.mentionsClauses clauses

end

/-- The mentions of an item of `main`. -/
def Item.mentions : Item → List Mention
  | .statement stmt => stmt.mentions
  | .procedureDefinition definition => Stmt.mentionsList definition.statements
  | .importModule _ | .importFile _ | .moduleDefinition _ => []

/-- The procedures that a program defines. -/
def Item.procedure? : Item → Option ProcedureDefinition
  | .procedureDefinition definition => some definition
  | .statement _ | .importModule _ | .importFile _ | .moduleDefinition _ => none

/-- The name of a variable or a procedure, without its package. -/
def localName (name : Str) : Str :=
  let split := splitPackageFromId name
  if split.1 ≠ [] then split.2 else name

/-- The first procedure mentions a call of the second one, whatever the package it is written
with. -/
def Calls (items : List Item) (d d' : ProcedureDefinition) : Prop :=
  d ∈ items.filterMap Item.procedure? ∧ d' ∈ items.filterMap Item.procedure? ∧
    ∃ f, .call f ∈ Stmt.mentionsList d.statements ∧
      strcasecmp (localName f) d'.procedureName = .eq

/-! ## Faults of values -/

/-- A computation that does not want for fuel. -/
abbrev InFuel {α : Type} (x : Except Fault α) : Prop := x.wp (fun _ => True) (· ≠ .outOfFuel)

section InFuel

variable {α β : Type} {x : Except Fault α}

theorem InFuel.bind {f : α → Except Fault β} (h : InFuel x) (hf : ∀ a, InFuel (f a)) :
    InFuel (x >>= f) :=
  (Except.wp_bind ..).mpr (Except.wp_mono h fun a _ => hf a)

theorem InFuel.map (h : InFuel x) (f : α → β) : InFuel (x.map f) :=
  (Except.wp_map ..).mpr h

theorem InFuel.ite {p : Prop} [Decidable p] {y : Except Fault α} (h : InFuel x) (h' : InFuel y) :
    InFuel (if p then x else y) :=
  Except.wp_ite (fun _ => h) fun _ => h'

namespace Value

variable (v that : Value)

theorem inFuel_getBool : InFuel v.getBool := by
  unfold getBool
  cases v.value_ <;> first | trivial | exact nofun

theorem inFuel_getInt : InFuel v.getInt := by
  unfold getInt
  cases v.value_ <;> first | trivial | exact nofun

theorem inFuel_getString : InFuel v.getString := by
  unfold getString
  cases v.value_ <;> first | trivial | exact nofun

theorem inFuel_toBool : InFuel v.toBool := by
  unfold toBool
  cases v.type with
  | boolean => exact v.inFuel_getBool
  | integer => exact v.inFuel_getInt.map _
  | string => exact v.inFuel_getString.map _
  | invalid => trivial

theorem inFuel_toInt : InFuel v.toInt := by
  unfold toInt
  cases v.type with
  | boolean => exact v.inFuel_getBool.map _
  | integer => exact v.inFuel_getInt
  | string => exact v.inFuel_getString.map _
  | invalid => trivial

theorem inFuel_toString : InFuel v.toString := by
  unfold Value.toString
  cases v.type with
  | boolean => exact v.inFuel_getBool.map _
  | integer => exact v.inFuel_getInt.map _
  | string => exact v.inFuel_getString
  | invalid => trivial

theorem inFuel_toAny : InFuel v.toAny := by
  unfold toAny
  cases v.type with
  | boolean => exact v.inFuel_getBool.map _
  | integer => exact v.inFuel_getInt.map _
  | string => exact v.inFuel_getString.map _
  | invalid => trivial

theorem inFuel_checkedInt (n : Int) : InFuel (checkedInt n) :=
  Except.wp_ite (fun _ => trivial) fun _ => nofun

theorem inFuel_divInt (i j : Int32) : InFuel (divInt i j) :=
  Except.wp_ite (fun _ => nofun) fun _ => inFuel_checkedInt _

theorem inFuel_modInt (i j : Int32) : InFuel (modInt i j) :=
  (inFuel_divInt i j).bind fun _ => trivial

theorem inFuel_concat : InFuel (concat v that) :=
  v.inFuel_toString.bind fun _ => that.inFuel_toString.bind fun _ => trivial

theorem inFuel_orBool : InFuel (orBool v that) :=
  v.inFuel_toBool.bind fun _ => .ite trivial that.inFuel_toBool

theorem inFuel_andBool : InFuel (andBool v that) :=
  v.inFuel_toBool.bind fun _ => .ite that.inFuel_toBool trivial

theorem inFuel_arith {op : Int32 → Int32 → Except Fault Int32} (hop : ∀ i j, InFuel (op i j)) :
    InFuel (arith op v that) :=
  v.inFuel_toInt.bind fun i => that.inFuel_toInt.bind fun j => (hop i j).bind fun _ => trivial

theorem inFuel_compareWith (onBool : Bool → Bool → Bool) (onInt : Int32 → Int32 → Bool)
    (onString : Str → Str → Bool) : InFuel (compareWith onBool onInt onString v that) := by
  unfold compareWith
  cases v.type with
  | boolean => exact v.inFuel_toBool.bind fun _ => that.inFuel_toBool.bind fun _ => trivial
  | integer => exact v.inFuel_toInt.bind fun _ => that.inFuel_toInt.bind fun _ => trivial
  | string => exact v.inFuel_toString.bind fun _ => that.inFuel_toString.bind fun _ => trivial
  | invalid => trivial

end Value

theorem inFuel_evalRelation (left right : Value) (op : RelationalOperator) :
    InFuel (evalRelation left right op) := by
  have heq : InFuel (left.beq right) := left.inFuel_compareWith right _ _ _
  have hlt : InFuel (left.lt right) := left.inFuel_compareWith right _ _ _
  have hgt : InFuel (left.gt right) := left.inFuel_compareWith right _ _ _
  cases op with
  | gt => exact hgt
  | ge => exact heq.bind fun _ => .ite trivial hgt
  | lt => exact hlt
  | le => exact heq.bind fun _ => .ite trivial hlt
  | ne => exact heq.map _
  | eq => exact heq

theorem inFuel_evalMulDiv (left right : Value) (op : MultiplicativeOperator) :
    InFuel (evalMulDiv left right op) := by
  -- The type of the left operand decides how the right one is converted.
  cases op with
  | star =>
    show InFuel (left.mul right)
    unfold Value.mul
    cases left.type with
    | boolean =>
      exact left.inFuel_toBool.bind fun _ => right.inFuel_toBool.bind fun _ => trivial
    | integer => exact left.inFuel_arith right fun _ _ => Value.inFuel_checkedInt _
    | string => exact left.inFuel_concat right
    | invalid => trivial
  | slash =>
    show InFuel (left.div right)
    unfold Value.div
    cases left.type with
    | boolean | invalid => trivial
    | integer => exact left.inFuel_arith right Value.inFuel_divInt
    | string => exact left.inFuel_concat right
  | mod =>
    show InFuel (left.mod right)
    unfold Value.mod
    cases left.type with
    | boolean | invalid => trivial
    | integer => exact left.inFuel_arith right Value.inFuel_modInt
    | string => exact left.inFuel_concat right
  | and =>
    show InFuel (left.land right)
    unfold Value.land
    cases left.type with
    | boolean => exact (left.inFuel_andBool right).map _
    | integer =>
      exact left.inFuel_toInt.bind fun _ => .ite trivial (right.inFuel_toInt.bind fun _ => trivial)
    | string => exact left.inFuel_concat right
    | invalid => trivial

theorem inFuel_evalAddSub (left right : Value) (op : AdditiveOperator) :
    InFuel (evalAddSub left right op) := by
  cases op with
  | plus =>
    show InFuel (left.add right)
    unfold Value.add
    cases left.type with
    | boolean => exact (left.inFuel_orBool right).map _
    | integer => exact left.inFuel_arith right fun _ _ => Value.inFuel_checkedInt _
    | string => exact left.inFuel_concat right
    | invalid => trivial
  | minus =>
    show InFuel (left.sub right)
    unfold Value.sub
    cases left.type with
    | boolean => exact (left.inFuel_andBool right).map _
    | integer => exact left.inFuel_arith right fun _ _ => Value.inFuel_checkedInt _
    | string => exact left.inFuel_concat right
    | invalid => trivial
  | or =>
    show InFuel (left.lor right)
    unfold Value.lor
    cases left.type with
    | boolean => exact (left.inFuel_orBool right).map _
    | integer =>
      exact left.inFuel_toInt.bind fun _ => .ite trivial (right.inFuel_toInt.bind fun _ => trivial)
    | string => exact left.inFuel_concat right
    | invalid => trivial

end InFuel

/-! ## Visits that assign no loop variable -/

variable (items : List Item)

/-- The program has the mention. -/
def Mentioned (m : Mention) : Prop := ∃ item ∈ items, m ∈ item.mentions

/-- A `FOR` of the program has the variable. -/
def LoopVar (x : Str) : Prop := ∃ y, Mentioned items (.loopVar y) ∧ strcasecmp y x = .eq

/-- The BASIC procedures that are registered are procedures of the program, under their names. -/
def Context.Defines (ec : Context) : Prop :=
  ∀ key f fn d, (ec.moduleAt key).functions.find? f = some fn → fn.body = .basic d →
    d ∈ items.filterMap Item.procedure? ∧ strcasecmp f d.procedureName = .eq

theorem Context.Defines.of_functions {items : List Item} {ec ec' : Context} (h : ec.Defines items)
    (hec : ∀ k, (ec'.moduleAt k).functions = (ec.moduleAt k).functions) : ec'.Defines items := by
  intro key f fn d
  rw [hec key]
  exact h key f fn d

/-- A visit is complete, and has assigned no variable of a `FOR`. -/
structure Machine.Proceeds (s t : Machine) : Prop extends s.Returns t where
  unassigned : ∀ p ∈ s.passed t, ∀ x v, p.event = .assign x v → ¬ LoopVar items (localName x)

variable {items}

namespace Machine

variable {s t u : Machine}

theorem Proceeds.defines (h : s.Proceeds items t) (hs : s.ec.Defines items) : t.ec.Defines items :=
  hs.of_functions h.ec.functions

theorem Proceeds.refl : s.Proceeds items s :=
  ⟨.refl, forall_passed_self⟩

theorem Proceeds.trans (h : s.Proceeds items t) (h' : t.Proceeds items u) :
    s.Proceeds items u where
  toReturns := h.toReturns.trans h'.toReturns
  unassigned := (forall_passed_trans h.trace h'.trace).mpr ⟨h.unassigned, h'.unassigned⟩

theorem Proceeds.note {e : Event} (he : ∀ x v, e = .assign x v → ¬ LoopVar items (localName x)) :
    s.Proceeds items (s.note e) where
  toReturns := Returns.refl.note e
  unassigned := forall_passed_note.mpr he

/-- A step that passes no point and leaves the context alone. -/
theorem Proceeds.update (h : s.Proceeds items t) (htrace : u.trace = t.trace)
    (hnest : u.nest = t.nest) (hec : u.ec = t.ec) : s.Proceeds items u where
  toReturns := h.toReturns.update htrace hnest hec
  unassigned := by
    rw [passed, htrace]
    exact h.unassigned

theorem Proceeds.converting (h : s.Proceeds items t) (v : Value) :
    s.Proceeds items (t.converting v) := h.update rfl rfl rfl

end Machine

/-- Each `STEP` that has been read is more than 0. -/
def Machine.Advances (s : Machine) : Prop := ∀ text k, .step text k ∈ s.numbers → 0 < k.toInt

theorem Machine.Advances.of_readsOn {s t : Machine} (ht : t.Advances) (h : s.ReadsOn t) :
    s.Advances := by
  obtain ⟨reads, hnumbers, -⟩ := h
  intro text k hk
  exact ht text k (hnumbers ▸ List.mem_append_left reads hk)

/-- What was read before a visit is still read after it. -/
theorem Keeps.inherited {α : Type} {m : Eval α} (h : Keeps .numbers m) :
    Inherited Machine.Advances m :=
  fun s hs => hs.of_readsOn (wp_final (P := s.ReadsOn) (h s))

/-! ## Visits that end -/

/-- From every state of the program the visit ends, where each `STEP` is read as more than 0, and it
assigns no variable of a `FOR`. -/
structure Finishes (items : List Item) {α : Type} (m : ℕ → Eval α) : Prop where
  keeps : ∀ n, Keeps .numbers (m n)
  ends : ∀ s, s.ec.Defines items →
    Ends .outOfFuel Machine.Advances m (fun _ t => s.Proceeds items t) s

theorem wp_lift_inFuel {α : Type} {x : Except Fault α} (hx : InFuel x) {s : Machine}
    {Q : α → Machine → Prop} (hQ : ∀ a, x = .ok a → Q a s) :
    wp (lift x) Q (fun e _ => e ≠ .outOfFuel) s := by
  cases x with
  | ok a => exact hQ a rfl
  | error e => exact hx

section Finishes

variable {α β : Type} {m : ℕ → Eval α}

theorem Finishes.bind {f : ℕ → α → Eval β} (h : Finishes items m)
    (hf : ∀ a, Finishes items fun n => f n a) : Finishes items fun n => m n >>= f n where
  keeps n := (h.keeps n).bind rules_numbers fun a => (hf a).keeps n
  ends s hs := (h.ends s hs).bind (fun n a => ((hf a).keeps n).inherited) fun a t _ ht =>
    ((hf a).ends t (ht.defines hs)).mono fun _ _ hu => ht.trans hu

theorem Finishes.of_wp {x : Eval α} (hkeeps : Keeps .numbers x) (h : ∀ s, s.ec.Defines items →
    wp x (fun _ t => s.Proceeds items t) (fun e _ => e ≠ .outOfFuel) s) :
    Finishes items fun _ => x where
  keeps _ := hkeeps
  ends s hs := .of_run (h s hs)

theorem Finishes.pure (a : α) : Finishes items fun _ => (Pure.pure a : Eval α) :=
  .of_wp (.pure rules_numbers a) fun _ _ => .refl

theorem Finishes.throw {e : Fault} (he : e ≠ .outOfFuel) :
    Finishes items fun _ => (MonadExcept.throw e : Eval α) :=
  .of_wp (.throw rules_numbers e) fun _ _ => he

theorem finishes_lift {x : Except Fault α} (hx : InFuel x) : Finishes items fun _ => lift x :=
  .of_wp (keeps_lift rules_numbers x) fun _ _ => wp_lift_inFuel hx fun _ _ => .refl

theorem finishes_print (v : Value) : Finishes items fun _ => print v :=
  (finishes_lift v.inFuel_toString).bind fun _ => .pure _

/-- A point that is no assignment. -/
theorem finishes_note {e : Event} (he : e.isAssign = false) : Finishes items fun _ => note e :=
  .of_wp (fun s => Machine.ReadsOn.refl (s := s)) fun _ _ => .note fun x v h => by
    rw [h] at he
    cases he

theorem finishes_makeValue (a : AnyVal) : Finishes items fun _ => makeValue a := by
  refine .of_wp (keeps_makeValue rules_numbers a) fun s _ => ?_
  simp only [makeValue, note, wp_bind, wp_get, wp_modify, wp_pure]
  have hdrop : s.Proceeds items s.dropTag := Machine.Proceeds.refl.update rfl rfl rfl
  exact hdrop.trans (.note fun _ _ h => by cases h)

theorem finishes_readVar (name : Str) : Finishes items fun _ => readVar name := by
  refine .of_wp (keeps_readVar rules_numbers name) fun s _ => ?_
  simp only [readVar, note, wp_bind, wp_modify, wp_pure]
  refine wp_var (.note fun _ _ h => by cases h) fun var e _ he => ?_
  have htext := var.value_.inFuel_toString
  rw [he] at htext
  exact htext

theorem finishes_visitInt (text : Str) : Finishes items fun _ => visitInt text :=
  have hread : Finishes items fun _ => toNumberInt .int text :=
    .of_wp (keeps_toNumberInt rules_numbers (fun _ => .int) text) fun _ _ =>
      Machine.Proceeds.refl.update rfl rfl rfl
  hread.bind fun _ => .pure _

theorem finishes_readStrings (texts : List Str) : Finishes items fun _ => readStrings texts :=
  .of_wp (keeps_readStrings rules_numbers texts) fun _ _ => Machine.Proceeds.refl.update rfl rfl rfl

end Finishes

/-! ### Calls -/

/-- The procedures of the program that a name may call end. -/
def Callable (items : List Item) (name : Str) : Prop :=
  ∀ d ∈ items.filterMap Item.procedure?, strcasecmp (localName name) d.procedureName = .eq →
    Finishes items fun n => (visitor n).statements d.statements

/-- A mention of the program, of procedures that end. -/
def Mention.Admitted (items : List Item) (m : Mention) : Prop :=
  Mentioned items m ∧ ∀ name, m = .call name → Callable items name

section Call

variable {s t : Machine} {owner function : Str} {sc : Scope} {args : List Value}

theorem Machine.Proceeds.exitCall
    (h : (s.enterCall owner function sc args).Proceeds items t) (a : AnyVal) (v : Value) :
    s.Proceeds items ((t.leaveBody a).exitCall owner v) where
  toReturns := h.toReturns.exitCall a v
  unassigned := (Machine.passesCall_exitCall h.trace a v).forall nofun h.unassigned
    fun p hp x v he => by
      rw [he] at hp
      cases hp

theorem Machine.Proceeds.exitNative (converted : List Str) (v : Value) :
    s.Proceeds items ((s.enterNative owner function sc args converted).exitCall owner v) where
  toReturns := rules_balance.native s owner function sc args converted v
  unassigned := by
    rw [Machine.passed_exitNative]
    intro p hp x v he
    simp only [List.mem_cons, List.not_mem_nil, or_false] at hp
    rcases hp with rfl | rfl <;> cases he

/-- **A call ends** where the procedures of the program that have its name do. -/
theorem finishes_moduleCall (owner function : Str) (args : List Value)
    (hcall : ∀ d ∈ items.filterMap Item.procedure?, strcasecmp function d.procedureName = .eq →
      Finishes items fun n => (visitor n).statements d.statements) :
    Finishes items fun n => Module.call (visitor n) owner function args := by
  refine ⟨fun n => wp_moduleCall rules_numbers (visitor_keeps rules_numbers n) _ _ _,
    fun s hs => ?_⟩
  simp only [Module.call]
  refine Ends.run_bind (wp_get.mpr ?_)
  cases hfn : (s.ec.moduleAt owner).functions.find? function with
  | none => exact .pure Machine.Proceeds.refl
  | some fn =>
    dsimp only
    cases hbody : fn.body with
    | basic d =>
      dsimp only
      obtain ⟨hd, hname⟩ := hs owner function fn d hfn hbody
      by_cases hlen : args.length ≠ fn.params.length
      · simp only [if_pos hlen]
        exact .pure Machine.Proceeds.refl
      · simp only [if_neg hlen]
        -- The body is visited in the scope of the call, which is popped after it.
        let s₀ := s.enterCall owner function (bindParams ⟨function, ∅⟩ fn.params args) args
        have hs₀ : s₀.ec.Defines items :=
          hs.of_functions (s.reaches_enterCall owner function _ args).ec.functions
        have hends := ((hcall d hd hname).ends s₀ hs₀).bind (f := fun _ a => do
          note .bodyEnd
          modify Machine.closeBlock
          let result ← makeValue a
          print result
          popScope owner
          note (.leave result)
          return result) (R := fun _ t => s.Proceeds items t) (fun _ a => ?_)
          fun a t _ ht => .of_run ?_
        · simp only [runBody, bind_assoc]
          exact hends
        -- Nothing is read after the body.
        · refine Keeps.inherited fun t => ?_
          simp only [note, makeValue, popScope, print, wp_bind, wp_get, wp_modify, wp_pure]
          exact wp_lift _ (fun _ => Machine.ReadsOn.refl (s := t)) fun _ =>
            Machine.ReadsOn.refl (s := t)
        · simp only [note, makeValue, popScope, print, wp_bind, wp_get, wp_modify, wp_pure]
          exact wp_lift_inFuel (Value.inFuel_toString _) fun _ _ => ht.exitCall a _
    | native cppFn =>
      dsimp only
      -- A native function takes no fuel.
      refine .of_run ?_
      simp only [note, pushScope, popScope, runNative, readStrings, print, wp_bind, wp_modify,
        wp_pure]
      cases hrun : cppFn args with
      | ok result =>
        exact wp_lift_inFuel (Value.inFuel_toString _) fun _ _ => .exitNative _ result
      | error e => exact Fault.noConfusion

end Call

theorem finishes_contextCall {name : Str} (h : Callable items name) (args : List Value) :
    Finishes items fun n => Context.call (visitor n) name args := by
  refine ⟨fun n => wp_contextCall rules_numbers (visitor_keeps rules_numbers n) _ _,
    fun s hs => ?_⟩
  simp only [Context.call]
  refine Ends.run_bind (wp_get.mpr ?_)
  unfold Callable localName at h
  -- The module is the one that is named, or the root, or the current one.
  by_cases hpkg : (splitPackageFromId name).1 ≠ []
  · simp only [if_pos hpkg] at h ⊢
    by_cases hmod : s.ec.modules.contains (splitPackageFromId name).1
    · simp only [if_pos hmod]
      exact (finishes_moduleCall _ _ args h).ends s hs
    · simp only [if_neg hmod]
      exact (Finishes.pure _).ends s hs
  · simp only [if_neg hpkg] at h ⊢
    by_cases hroot : (!(s.ec.moduleAt s.ec.module).hasFn name &&
        (s.ec.moduleAt s.ec.root).hasFn name) = true
    · simp only [if_pos hroot]
      exact (finishes_moduleCall _ _ args h).ends s hs
    · simp only [if_neg hroot]
      exact (finishes_moduleCall _ _ args h).ends s hs

/-! ### Expressions -/

/-- No assignment names a variable of a `FOR`. -/
def LoopVarsUnassigned (items : List Item) : Prop :=
  ∀ x, Mentioned items (.assign x) → ¬ LoopVar items (localName x)

/-- One more unit of fuel changes nothing. -/
theorem Finishes.expr {e : Expr} (h : Finishes items fun n => visitExpr (visitor n) e) :
    Finishes items fun n => (visitor n).expr e where
  keeps n := (visitor_keeps rules_numbers n).expr e
  ends s hs := ends_succ.mp (h.ends s hs)

theorem Finishes.operand {e : Expr} (h : Finishes items fun n => (visitor n).expr e) :
    Finishes items fun n => visitOperand (visitor n) e :=
  h.bind fun a => finishes_makeValue a

theorem finishes_visitBinary {e₀ e₁ : Expr} {eval : Value → Value → Except Fault Value}
    (heval : ∀ left right, InFuel (eval left right)) (converted : Value → Value → List Str)
    (h₀ : Finishes items fun n => (visitor n).expr e₀)
    (h₁ : Finishes items fun n => (visitor n).expr e₁) :
    Finishes items fun n => visitBinary (visitor n) eval converted e₀ e₁ :=
  h₀.operand.bind fun left => h₁.operand.bind fun right =>
    (finishes_readStrings _).bind fun _ => (finishes_lift (heval left right)).bind fun result =>
      (finishes_print left).bind fun _ => (finishes_print right).bind fun _ =>
        (finishes_print result).bind fun _ => finishes_lift result.inFuel_toAny

theorem finishes_visitRelation {e₀ e₁ : Expr} (op : RelationalOperator)
    (h₀ : Finishes items fun n => (visitor n).expr e₀)
    (h₁ : Finishes items fun n => (visitor n).expr e₁) :
    Finishes items fun n => visitRelation (visitor n) op e₀ e₁ :=
  h₀.operand.bind fun left => h₁.operand.bind fun right => (finishes_readStrings _).bind fun _ =>
    (finishes_lift (inFuel_evalRelation left right op)).bind fun _ =>
      (finishes_print left).bind fun _ => (finishes_print right).bind fun _ => .pure _

theorem finishes_visitProcedureCall {name : Str} {es : List Expr} (hname : Callable items name)
    (hes : Finishes items fun n => visitParameterList (visitor n) es) :
    Finishes items fun n => visitProcedureCall (visitor n) name es := by
  refine hes.bind fun params => (finishes_contextCall hname params).bind fun val => ?_
  refine Finishes.bind (.of_wp (fun s => Machine.ReadsOn.refl (s := s)) fun s _ => ?_) fun _ =>
    finishes_lift val.inFuel_toAny
  exact Machine.Proceeds.refl.update rfl rfl rfl

theorem finishes_visitRvalue (name : Str) : Finishes items fun _ => visitRvalue name := by
  refine (finishes_note rfl).bind fun _ => (finishes_readVar name).bind fun result => ?_
  cases result with
  | none => exact .pure _
  | some var => exact finishes_lift var.value_.inFuel_toAny

mutual

/-- **An expression ends** where the procedures that it calls do. -/
theorem finishes_expr : ∀ e : Expr,
    (∀ m ∈ e.mentions, m.Admitted items) → Finishes items fun n => (visitor n).expr e
  | .relation op e₀ e₁, h => by
    rw [Expr.mentions, List.forall_mem_append] at h
    exact .expr (finishes_visitRelation op (finishes_expr e₀ h.1) (finishes_expr e₁ h.2))
  | .mulDiv op e₀ e₁, h => by
    rw [Expr.mentions, List.forall_mem_append] at h
    exact .expr (finishes_visitBinary (fun left right => inFuel_evalMulDiv left right op) _
      (finishes_expr e₀ h.1) (finishes_expr e₁ h.2))
  | .addSub op e₀ e₁, h => by
    rw [Expr.mentions, List.forall_mem_append] at h
    exact .expr (finishes_visitBinary (fun left right => inFuel_evalAddSub left right op) _
      (finishes_expr e₀ h.1) (finishes_expr e₁ h.2))
  | .procCall procedureName parameterList, h => by
    rw [Expr.mentions, List.forall_mem_cons] at h
    exact .expr (finishes_visitProcedureCall (h.1.2 _ rfl)
      (finishes_parameterList parameterList h.2))
  | .parens _, _ => .expr ((finishes_note rfl).bind fun _ => .pure _)
  | .ident name, _ => .expr (finishes_visitRvalue name)
  | .int text, _ => .expr (finishes_visitInt text)
  | .string _, _ => .expr (.pure _)
  | .boolean _, _ => .expr (.pure _)

theorem finishes_parameterList : ∀ es : List Expr,
    (∀ m ∈ Expr.mentionsList es, m.Admitted items) →
      Finishes items fun n => visitParameterList (visitor n) es
  | [], _ => .pure _
  | e :: es, h => by
    rw [Expr.mentionsList, List.forall_mem_append] at h
    exact (finishes_expr e h.1).operand.bind fun _ =>
      (finishes_parameterList es h.2).bind fun _ => .pure _

end

/-! ### The `FOR` -/

/-- A value is read as a number. -/
theorem wp_toIntOf_inFuel {v : Value} {s : Machine} {Q : Int32 → Machine → Prop}
    (hQ : ∀ i, v.toInt = .ok i → Q i (s.converting v)) :
    wp (toIntOf v) Q (fun e _ => e ≠ .outOfFuel) s := by
  simp only [toIntOf, readStrings, wp_bind, wp_modify]
  exact wp_lift_inFuel v.inFuel_toInt hQ

section Keeps

variable (n : ℕ) (loop : ForLoop)

theorem keeps_getLoopVar : Keeps .numbers (getLoopVar loop) :=
  fun s => Machine.ReadsOn.refl (s := s)

theorem keeps_iterate (i : Int32) : Keeps .numbers ((visitor n).iterate loop i) :=
  fun s => (visitor_keeps rules_numbers n).iterate loop i s s .refl

/-- The last visit of a `FOR`. -/
theorem keeps_lastRound : Keeps .numbers (do
    setLoopVar loop (← toIntOf loop.stop)
    let _ ← (visitor n).statements loop.statements
    return) :=
  (keeps_toIntOf rules_numbers _).bind rules_numbers fun _ =>
    Keeps.bind rules_numbers (fun s => Machine.ReadsOn.refl (s := s)) fun _ =>
      Keeps.bind rules_numbers ((visitor_keeps rules_numbers n).statements _) fun _ =>
        .pure rules_numbers _

theorem keeps_forTail (id : Str) (statements : List Stmt) (head : Int32 × Value × Value) :
    Keeps .numbers (forTail (visitor n) id statements head) := by
  have hloop (loop : ForLoop) : Keeps .numbers (runLoop (visitor n) loop head.2.1) :=
    (keeps_toIntOf rules_numbers _).bind rules_numbers fun i =>
      Keeps.bind rules_numbers (keeps_iterate (n + 1) loop i) fun _ => keeps_lastRound n loop
  intro s
  simp only [forTail, note, pushScope, popScope, wp_bind, wp_get, wp_modify, wp_pure]
  exact hloop _ _

end Keeps

/-- Between two visits of the body of a `FOR`, of which none has assigned its variable. -/
structure Machine.Rounds (items : List Item) (s : Machine) (loop : ForLoop) (u : Machine) :
    Prop extends s.InLoop loop u where
  held : (loop.held u).isSome
  unassigned : ∀ p ∈ s.passed u, ∀ x v, p.event = .assign x v → ¬ LoopVar items (localName x)

theorem Point.written_of_not_loopVar {p : Point}
    (h : ∀ x v, p.event = .assign x v → ¬ LoopVar items (localName x)) {y : Str}
    (hy : Mentioned items (.loopVar y)) (key : Str) (i : ℕ) : p.written key i y = none := by
  cases hw : p.written key i y with
  | none => rfl
  | some value =>
    obtain ⟨x, he, ⟨r, hr, -, hname⟩, -⟩ := Point.writes_of_written hw
    -- Wherever the name is looked up, it is its last part that is written.
    have hlocal : r.2 = localName x := by
      unfold Context.resolve at hr
      unfold localName
      dsimp only at hr ⊢
      split_ifs at hr ⊢
      · cases hr
        rfl
      · cases hr
      · cases hr
        rfl
    exact absurd ⟨y, hy, hlocal ▸ hname⟩ (h x value he)

section Loop

variable {s u w : Machine} {loop : ForLoop}

theorem Machine.Rounds.converting (h : s.Rounds items loop u) (v : Value) :
    s.Rounds items loop (u.converting v) :=
  ⟨h.toInLoop.converting v, h.held, h.unassigned⟩

/-- The variable is set and the body visited. -/
theorem Machine.Rounds.visit (h : s.Rounds items loop u)
    (hvar : Mentioned items (.loopVar loop.varname)) {i : Int32} {n : ℕ} {a : AnyVal}
    (hbody : (visitor n).statements loop.statements (loop.setTo u i) = .ok a w)
    (hw : (loop.setTo u i).Proceeds items w) :
    s.Rounds items loop w ∧ loop.held w = some (.ofInt i) := by
  have hun : loop.Unassigned u w := fun p hp =>
    Point.written_of_not_loopVar (hw.unassigned p hp) hvar _ _
  have hheld := held_visit h.held hbody hun
  refine ⟨⟨h.toInLoop.visit hbody, by rw [hheld]; rfl, ?_⟩, hheld⟩
  exact (forall_passed_trans h.trace hw.trace).mpr ⟨h.unassigned, hw.unassigned⟩

theorem Machine.Rounds.exitLoop (h : s.Rounds items loop u) :
    s.Proceeds items (u.exitLoop loop) :=
  ⟨h.toInLoop.exitLoop, h.unassigned⟩

variable (hs : s.ec.Defines items) (hvar : Mentioned items (.loopVar loop.varname))
  (hbody : Finishes items fun n => (visitor n).statements loop.statements)

include hs hvar hbody

/-- A visit of the body ends, with what follows it. -/
theorem Machine.Rounds.ends_bind {α : Type} {f : ℕ → AnyVal → Eval α} {Q : α → Machine → Prop}
    (h : s.Rounds items loop u) (i : Int32) (hkeeps : ∀ n a, Keeps .numbers (f n a))
    (hf : ∀ a w, s.Rounds items loop w → loop.held w = some (.ofInt i) →
      Ends .outOfFuel Machine.Advances (fun n => f n a) Q w) :
    Ends .outOfFuel Machine.Advances (fun n => do
      setLoopVar loop i
      let a ← (visitor n).statements loop.statements
      f n a) Q (u.converting loop.stop) := by
  have hdefines : (loop.setTo u i).ec.Defines items :=
    hs.of_functions (h.toInLoop.setVarAt i).ec.functions
  refine Ends.run_bind (wp_modify _ |>.mpr ?_)
  refine (hbody.ends _ hdefines).bind (fun n a => (hkeeps n a).inherited) fun a w hev hw => ?_
  -- The body has run to its end for some fuel, and its trace shows what it has written.
  obtain ⟨n, hn⟩ := hev.exists
  obtain ⟨hround, hheld⟩ := h.visit hvar hn hw
  exact hf a w hround hheld

/-- **The iterations of a `FOR` end.** Each goes on from the value that the variable was set to,
so that the counter grows until it is the last value or overflows. -/
theorem ends_iterate (hstep : 0 < loop.step.toInt) (i : Int32) (h : s.Rounds items loop u) :
    Ends .outOfFuel Machine.Advances (fun n => (visitor n).iterate loop i)
      (fun _ t => s.Rounds items loop t) u := by
  -- The counter grows from round to round, and an `int` is bounded.
  refine Ends.loop (I := fun _ t => s.Rounds items loop t)
    (fun i : Int32 => (2147483648 - i.toInt).toNat) (fun i u h hrec => ?_) i h
  show Ends .outOfFuel _ (fun n => iterateFor (visitor n) loop i) _ u
  simp only [iterateFor]
  refine Ends.run_bind (wp_toIntOf_inFuel fun stop _ => ?_)
  by_cases hstop : i = stop
  · simp only [if_pos hstop]
    exact .pure (h.converting _)
  · simp only [if_neg hstop]
    refine h.ends_bind hs hvar hbody i (fun n _ => ?_) fun _ w hw hheld => ?_
    · exact (keeps_getLoopVar loop).bind rules_numbers fun _ =>
        (keeps_toIntOf rules_numbers _).bind rules_numbers fun _ =>
          (keeps_lift rules_numbers _).bind rules_numbers fun next => keeps_iterate n loop next
    -- The body has left the loop variable as it was set.
    have hread : getLoopVar loop w = .ok (.ofInt i) w := by
      show Result.ok ((loop.held w).getD Value.default) w = _
      rw [hheld]
      rfl
    refine .of_eq (fun n => bind_of_ok hread) (Ends.run_bind ?_)
    refine wp_toIntOf_inFuel fun current hcurrent => Ends.run_bind ?_
    refine wp_lift_inFuel (Value.inFuel_checkedInt _) fun next hnext => ?_
    obtain rfl : i = current := Except.ok.inj hcurrent
    have hgrows := toInt_of_checkedInt hnext
    have hlt := i.toInt_lt
    exact hrec next _ (hw.converting _) (by omega)

/-- A whole `FOR`, from the push of its scope on. -/
theorem ends_runLoop (hstep : 0 < loop.step.toInt) (start : Value)
    (howner : loop.owner = s.ec.module)
    (hposition : loop.position = (s.ec.scopes loop.owner).length) :
    Ends .outOfFuel Machine.Advances (fun n => runLoop (visitor n) loop start)
      (fun _ t => s.Rounds items loop t) (s.enterLoop loop start) := by
  -- Nothing is written before the first round but the loop variable.
  have henter : s.Rounds items loop (s.enterLoop loop start) := by
    refine ⟨s.inLoop_enterLoop loop start howner hposition, ?_, ?_⟩
    · rw [ForLoop.held, Machine.cell_enterLoop _ howner hposition, if_pos (strcasecmp_self _)]
      rfl
    · rw [Machine.passed_enterLoop]
      intro p hp x v he
      rw [List.mem_singleton.mp hp] at he
      cases he
  simp only [runLoop]
  refine Ends.run_bind (wp_toIntOf_inFuel fun first _ => ?_)
  have hiterate : Ends .outOfFuel Machine.Advances (fun n => iterateFor (visitor n) loop first)
      (fun _ t => s.Rounds items loop t) ((s.enterLoop loop start).converting start) :=
    ends_succ.mpr (ends_iterate hs hvar hbody hstep first (henter.converting start))
  refine hiterate.bind (fun n _ => (keeps_lastRound n loop).inherited) fun _ w _ hw =>
    Ends.run_bind (wp_toIntOf_inFuel fun last _ => ?_)
  exact hw.ends_bind hs hvar hbody last (fun _ _ => .pure rules_numbers _)
    fun _ _ hrounds _ => .pure hrounds

end Loop

/-- A step is read, and its number is on record. -/
theorem wp_forStep (step : Option Str) (s : Machine) :
    wp (forStep step) (fun k t => s.Proceeds items t ∧ (t.Advances → 0 < k.toInt))
      (fun e _ => e ≠ .outOfFuel) s := by
  cases step with
  | none => exact ⟨.refl, fun _ => by decide⟩
  | some text =>
    refine ⟨Machine.Proceeds.refl.update rfl rfl rfl, fun h => h text _ ?_⟩
    exact List.mem_append_right _ (List.mem_singleton_self _)

/-- A `FOR` ends whose step is more than 0. -/
theorem finishes_forTail {id : Str} {k : Int32} (hk : 0 < k.toInt) (start stop : Value)
    {statements : List Stmt} (hvar : Mentioned items (.loopVar id))
    (hbody : Finishes items fun n => (visitor n).statements statements) :
    Finishes items fun n => forTail (visitor n) id statements (k, start, stop) where
  keeps n := keeps_forTail n id statements (k, start, stop)
  ends u hu := by
    have hloop :=
      @ends_runLoop items u (u.forLoop id stop k statements) hu hvar hbody hk start rfl rfl
    exact hloop.bind (f := fun _ _ => do
      modify Machine.closeBlock
      popScope u.ec.module
      return AnyVal.empty) (fun _ _ => Keeps.inherited fun t => Machine.ReadsOn.refl (s := t))
      fun _ w _ hw => .pure hw.exitLoop

theorem finishes_visitForStatement {id : Str} {e₀ e₁ : Expr} {step : Option Str}
    {statements : List Stmt} (hvar : Mentioned items (.loopVar id))
    (h₀ : Finishes items fun n => (visitor n).expr e₀)
    (h₁ : Finishes items fun n => (visitor n).expr e₁)
    (hbody : Finishes items fun n => (visitor n).statements statements) :
    Finishes items fun n => visitForStatement (visitor n) id e₀ e₁ step statements := by
  refine ⟨fun n => keepsStmt_visitForStatement rules_numbers (visitor_keeps rules_numbers n) _ _ _ _
    _, fun s hs => ?_⟩
  simp only [visitForStatement_eq, forHead, bind_assoc, pure_bind]
  refine Ends.run_bind (wp_mono (@wp_forStep items step s) (fun k t ht => ?_) fun _ _ h => h)
  obtain ⟨ht, hk⟩ := ht
  -- What is read after the step leaves its number on record.
  refine Ends.of_inherited (fun n => Keeps.inherited ?_) fun hgood => ?_
  · exact (h₀.operand.keeps n).bind rules_numbers fun start =>
      (h₁.operand.keeps n).bind rules_numbers fun stop => keeps_forTail n id statements _
  -- The bounds are evaluated, and then the run is inside the `FOR`.
  have hbounds := h₀.operand.bind fun start => h₁.operand.bind fun stop =>
    finishes_forTail (hk hgood) start stop hvar hbody
  exact (hbounds.ends t (ht.defines hs)).mono fun _ _ hu => ht.trans hu

/-! ### Statements -/

theorem finishes_upsert {name : Str} (value : Value)
    (hname : ¬ LoopVar items (localName name)) :
    Finishes items fun _ => (do note (.assign name value); Context.upsert name value) := by
  refine .of_wp (keeps_assign rules_numbers name value) fun s _ => ?_
  simp only [note, wp_bind, wp_modify]
  refine wp_upsert ⟨rules_balance.assign s name value, ?_⟩ Fault.noConfusion
  refine (forall_passed_note (e := .assign name value)).mpr fun x v he => ?_
  cases he
  exact hname

theorem finishes_visitCondition {e : Expr} (h : Finishes items fun n => (visitor n).expr e) :
    Finishes items fun n => visitCondition (visitor n) e := by
  refine h.bind fun a => ?_
  cases a with
  | bool b => exact .pure b
  | empty | int | string => exact .throw nofun

/-- The branches of an `IF` end. -/
theorem Finishes.ite {e : Expr} {α : Type} {m m' : ℕ → Eval α}
    (h : Finishes items fun n => (visitor n).expr e) (ht : Finishes items m)
    (hf : Finishes items m') :
    Finishes items fun n => (do if ← visitCondition (visitor n) e then m n else m' n) := by
  refine (finishes_visitCondition h).bind fun b => ?_
  cases b with
  | false => exact hf
  | true => exact ht

theorem finishes_visitAssignExpr {lvalue : Str} {e : Expr}
    (hname : ¬ LoopVar items (localName lvalue))
    (h : Finishes items fun n => (visitor n).expr e) :
    Finishes items fun n => visitAssignExpr (visitor n) lvalue e := by
  refine h.operand.bind fun value => (finishes_print value).bind fun _ => ?_
  simpa only [bind_assoc] using (finishes_upsert value hname).bind fun _ => .pure AnyVal.empty

theorem finishes_visitAssignRvalue {lvalue : Str} (hname : ¬ LoopVar items (localName lvalue))
    (rvalue : Str) : Finishes items fun _ => visitAssignRvalue lvalue rvalue := by
  refine (finishes_readVar rvalue).bind fun result => ?_
  cases result with
  | none => exact .pure _
  | some var =>
    refine (finishes_print var.value_).bind fun _ => ?_
    simpa only [bind_assoc] using
      (finishes_upsert var.value_ hname).bind fun _ => .pure AnyVal.empty

theorem finishes_visitReturnStatement {e : Expr}
    (h : Finishes items fun n => (visitor n).expr e) :
    Finishes items fun n => visitReturnStatement (visitor n) e := by
  refine h.bind fun result => (finishes_makeValue result).bind fun value =>
    (finishes_print value).bind fun _ => (finishes_note rfl).bind fun _ =>
      Finishes.bind (.of_wp (fun s => Machine.ReadsOn.refl (s := s)) fun s _ => ?_)
        fun _ => .pure result
  exact Machine.Proceeds.refl.update rfl rfl rfl

theorem Finishes.statement {stmt : Stmt}
    (h : Finishes items fun n => visitAlternative (visitor n) stmt) :
    Finishes items fun n => visitStatement (visitor n) stmt :=
  (finishes_note rfl).bind fun _ => h

/-- A statement and those after it. -/
theorem Finishes.cons {stmt : Stmt} {stmts : List Stmt}
    (h : Finishes items fun n => visitAlternative (visitor n) stmt)
    (hrest : ∀ a, Finishes items fun n => visitStatements (visitor n) a stmts) (result : AnyVal) :
    Finishes items fun n => visitStatements (visitor n) result (stmt :: stmts) := by
  refine h.statement.bind fun a => ⟨fun n s => ?_, fun s hs => Ends.run_bind (wp_get.mpr ?_)⟩
  · rw [wp_bind, wp_get]
    split_ifs
    · exact Machine.ReadsOn.refl
    · exact (hrest a).keeps n s
  · cases s.return_ with
    | true => exact (Finishes.pure a).ends s hs
    | false => exact (hrest a).ends s hs

theorem Finishes.block {stmts : List Stmt}
    (h : ∀ a, Finishes items fun n => visitStatements (visitor n) a stmts) :
    Finishes items fun n => (visitor n).statements stmts where
  keeps n := (visitor_keeps rules_numbers n).statements stmts
  ends s hs := ends_succ.mp ((h .empty).ends s hs)

mutual

/-- **A statement ends** where the procedures that it calls do. -/
theorem finishes_stmt (hassign : LoopVarsUnassigned items) : ∀ stmt : Stmt,
    (∀ m ∈ stmt.mentions, m.Admitted items) →
      Finishes items fun n => visitAlternative (visitor n) stmt
  | .assignRvalue lvalue rvalue, h => by
    rw [Stmt.mentions, List.forall_mem_singleton] at h
    exact finishes_visitAssignRvalue (hassign _ h.1) rvalue
  | .assignExpr lvalue e, h => by
    rw [Stmt.mentions, List.forall_mem_cons] at h
    exact finishes_visitAssignExpr (hassign _ h.1.1) (finishes_expr e h.2)
  | .ifThen e statements, h => by
    rw [Stmt.mentions, List.forall_mem_append] at h
    exact (finishes_expr e h.1).ite (.block (finishes_stmts hassign statements h.2))
      (.pure _)
  | .ifThenElse e statements otherwise, h => by
    simp only [Stmt.mentions, List.forall_mem_append] at h
    exact (finishes_expr e h.1.1).ite
      (.block (finishes_stmts hassign statements h.1.2))
      (.block (finishes_stmts hassign otherwise h.2))
  | .ifThenElseIfElse e statements elseIfs otherwise, h => by
    simp only [Stmt.mentions, List.forall_mem_append] at h
    exact (finishes_expr e h.1.1.1).ite
      (.block (finishes_stmts hassign statements h.1.1.2))
      (finishes_clauses hassign otherwise (.block (finishes_stmts hassign otherwise h.2)) elseIfs
        h.1.2)
  | .forStatement id e₀ e₁ step statements, h => by
    simp only [Stmt.mentions, List.forall_mem_append, List.forall_mem_cons] at h
    obtain ⟨⟨hvar, h₀, h₁⟩, hbody⟩ := h
    exact finishes_visitForStatement hvar.1 (finishes_expr e₀ h₀) (finishes_expr e₁ h₁)
      (.block (finishes_stmts hassign statements hbody))
  | .procedureCall procedureName parameterList, h => by
    rw [Stmt.mentions, List.forall_mem_cons] at h
    exact (finishes_visitProcedureCall (h.1.2 _ rfl)
      (finishes_parameterList parameterList h.2)).bind fun _ => .pure _
  | .returnStatement e, h => finishes_visitReturnStatement (finishes_expr e h)
  | .emptyStatement, _ => .pure _

theorem finishes_stmts (hassign : LoopVarsUnassigned items) : ∀ stmts : List Stmt,
    (∀ m ∈ Stmt.mentionsList stmts, m.Admitted items) → ∀ result,
      Finishes items fun n => visitStatements (visitor n) result stmts
  | [], _, result => .pure result
  | stmt :: stmts, h, result => by
    rw [Stmt.mentionsList, List.forall_mem_append] at h
    exact (finishes_stmt hassign stmt h.1).cons (finishes_stmts hassign stmts h.2)
      result

theorem finishes_clauses (hassign : LoopVarsUnassigned items) (otherwise : List Stmt)
    (hotherwise : Finishes items fun n => (visitor n).statements otherwise) :
    ∀ clauses : List (Expr × List Stmt),
      (∀ m ∈ Stmt.mentionsClauses clauses, m.Admitted items) →
        Finishes items fun n => visitIfThenElseIfElseStatement (visitor n) otherwise clauses
  | [], _ => hotherwise
  | (e, statements) :: clauses, h => by
    simp only [Stmt.mentionsClauses, List.forall_mem_append] at h
    exact (finishes_expr e h.1.1).ite
      (.block (finishes_stmts hassign statements h.1.2))
      (finishes_clauses hassign otherwise hotherwise clauses h.2)

end

/-! ## Procedures -/

/-- A program defines finitely many procedures, so that calls without a cycle come to an end. -/
theorem wellFounded_calls (hacyclic : ∀ d, ¬ Relation.TransGen (Calls items) d d) :
    WellFounded fun d' d : {d // d ∈ items.filterMap Item.procedure?} =>
      Relation.TransGen (Calls items) d.1 d'.1 := by
  have hfinite : Finite {d // d ∈ items.filterMap Item.procedure?} :=
    (List.finite_toSet _).to_subtype
  have : IsTrans {d // d ∈ items.filterMap Item.procedure?} fun d' d =>
      Relation.TransGen (Calls items) d.1 d'.1 := ⟨fun _ _ _ h h' => h'.trans h⟩
  have : Std.Irrefl fun d' d : {d // d ∈ items.filterMap Item.procedure?} =>
      Relation.TransGen (Calls items) d.1 d'.1 := ⟨fun d => hacyclic d.1⟩
  exact Finite.wellFounded_of_trans_of_irrefl _

/-- The mentions of a procedure are those of the program. -/
theorem mentioned_of_procedure {d : ProcedureDefinition}
    (hd : d ∈ items.filterMap Item.procedure?) {m : Mention}
    (hm : m ∈ Stmt.mentionsList d.statements) : Mentioned items m := by
  obtain ⟨item, hitem, hdef⟩ := List.mem_filterMap.mp hd
  refine ⟨item, hitem, ?_⟩
  cases item with
  | procedureDefinition definition =>
    obtain rfl := Option.some.inj hdef
    exact hm
  | statement | importModule | importFile | moduleDefinition => cases hdef

section Acyclic

variable (hassign : LoopVarsUnassigned items)
  (hacyclic : ∀ d, ¬ Relation.TransGen (Calls items) d d)

include hassign hacyclic

/-- **The procedures of a program end** when none calls itself, directly or through others. -/
theorem finishes_procedure {d : ProcedureDefinition}
    (hd : d ∈ items.filterMap Item.procedure?) :
    Finishes items fun n => (visitor n).statements d.statements := by
  have hrec := (wellFounded_calls hacyclic).induction
    (C := fun d => Finishes items fun n => (visitor n).statements d.1.statements) ⟨d, hd⟩
  refine hrec fun d ih => .block (finishes_stmts hassign _ fun m hm => ?_)
  -- The calls of the procedure are of procedures that it comes before.
  refine ⟨mentioned_of_procedure d.2 hm, fun name hname d' hd' hcalls => ?_⟩
  subst hname
  exact ih ⟨d', hd'⟩ (.single ⟨d.2, hd', name, hm, hcalls⟩)

theorem admitted_of_mentioned {m : Mention} (h : Mentioned items m) : m.Admitted items :=
  ⟨h, fun _ _ _ hd _ => finishes_procedure hassign hacyclic hd⟩

/-! ## Programs -/

theorem finishes_visitItem {item : Item} (hitem : item ∈ items) :
    Finishes items fun n => visitItem (visitor n) item := by
  cases item with
  | statement stmt =>
    refine (Finishes.statement (finishes_stmt hassign stmt fun m hm => ?_)).bind fun _ => .pure _
    exact admitted_of_mentioned hassign hacyclic ⟨_, hitem, hm⟩
  | importModule id =>
    refine .of_wp (fun s => Machine.ReadsOn.refl (s := s)) fun s _ =>
      ⟨⟨?_, rfl, fun k => ?_⟩, forall_passed_self⟩
    · exact Machine.Reaches.refl.update rfl List.suffix_rfl (.importModule s.ec id)
    · exact congrArg _ (s.ec.scopes_importModule id k)
  | procedureDefinition | importFile | moduleDefinition => exact .pure _

theorem finishes_visitItems : ∀ rest : List Item, rest ⊆ items →
    Finishes items fun n => visitItems (visitor n) rest
  | [], _ => .pure _
  | item :: rest, h => by
    rw [List.cons_subset] at h
    exact (finishes_note rfl).bind fun _ =>
      (finishes_visitItem hassign hacyclic h.1).bind fun _ => finishes_visitItems rest h.2

end Acyclic

/-! ### The context in which a program begins -/

/-- Every function of the module is a native one. -/
def Module.Native (m : Module) : Prop :=
  ∀ f fn d, m.functions.find? f = some fn → fn.body ≠ .basic d

theorem Module.Native.nativeFunctionl {m : Module} (h : m.Native) (name : Str)
    (cppFn : NativeFn) : (m.nativeFunctionl name cppFn).Native := by
  intro f fn d hfind
  rw [Module.nativeFunctionl, OrderedMap.find?_insertOrAssign] at hfind
  split_ifs at hfind
  · cases hfind
    exact nofun
  · exact h f fn d hfind

theorem Module.native_empty (scopes : List Scope) : ({ scopes := scopes } : Module).Native :=
  fun _ _ _ hfind => by cases hfind

theorem Module.native_initial : Module.initial.Native := by
  have hfold : ∀ (fs : List (Str × NativeFn)) (m : Module), m.Native →
      (fs.foldl (fun m f => m.nativeFunctionl f.1 f.2) m).Native := by
    intro fs
    induction fs with
    | nil => exact fun m hm => hm
    | cons f fs ih => exact fun m hm => ih _ (hm.nativeFunctionl f.1 f.2)
  exact hfold stdlibFunctions _ (Module.native_empty _)

section Definitions

variable {ec : Context}

/-- A function is registered in a module. -/
theorem Context.Defines.insertOrAssign (h : ec.Defines items) (key name : Str)
    {fn : BasicFunction} (hfn : ∀ f d, strcasecmp f name = .eq → fn.body = .basic d →
      d ∈ items.filterMap Item.procedure? ∧ strcasecmp f d.procedureName = .eq) :
    (ec.mapModule key fun m => { m with functions := m.functions.insertOrAssign name fn }).Defines
      items := by
  intro k f fn' d hfind hbody
  rw [Context.moduleAt_mapModule] at hfind
  split_ifs at hfind
  · rw [OrderedMap.find?_insertOrAssign] at hfind
    split_ifs at hfind with hname
    · cases hfind
      exact hfn f d hname hbody
    · exact h k f fn' d hfind hbody
  · exact h k f fn' d hfind hbody

/-- A module is added, or takes the place of another one. -/
theorem Context.Defines.update {ec' : Context} (h : ec.Defines items) (key : Str)
    (hnew : (ec'.moduleAt key).Native)
    (hold : ∀ k, strcasecmp k key ≠ .eq → ec'.moduleAt k = ec.moduleAt k) : ec'.Defines items := by
  intro k f fn d hfind hbody
  by_cases hk : strcasecmp k key = .eq
  · rw [Context.moduleAt_congr _ hk] at hfind
    exact absurd hbody (hnew f fn d hfind)
  · rw [hold k hk] at hfind
    exact h k f fn d hfind hbody

theorem Context.Defines.visitItem (h : ec.Defines items) {item : Item} (hitem : item ∈ items) :
    (FunctionDefVisitor.visitItem ec item).wp (fun ec' => ec'.Defines items)
      (· ≠ .outOfFuel) := by
  cases item with
  | procedureDefinition d =>
    show Except.wp (FunctionDefVisitor.visitProcedureDefinition ec d) _ _
    unfold FunctionDefVisitor.visitProcedureDefinition
    unfold FunctionDefVisitor.visitParameterDefinitionList
    cases d.parameterDefinitionList with
    | nil => exact nofun
    | cons id ids =>
      refine h.insertOrAssign ec.module d.procedureName fun f d' hname hbody => ?_
      obtain rfl := FunctionBody.basic.inj hbody
      exact ⟨List.mem_filterMap.mpr ⟨_, hitem, rfl⟩, hname⟩
  | moduleDefinition text =>
    show Context.Defines items (FunctionDefVisitor.visitModuleDefinition ec text)
    unfold FunctionDefVisitor.visitModuleDefinition
    dsimp only
    split_ifs with hc
    · exact h
    · have hnone : ec.modules.find? (removeQuotes text) = none := by
        simpa [OrderedMap.contains] using hc
      refine h.update (removeQuotes text) ?_ fun k hk => ?_
      · simp only [Context.moduleAt, OrderedMap.find?_emplace, strcasecmp_self, if_true, hnone,
          Option.getD_none, Option.getD_some]
        exact Module.native_empty []
      · simp only [Context.moduleAt, OrderedMap.find?_emplace, if_neg hk]
  | statement | importModule | importFile => exact h

theorem Context.Defines.visitMain (h : ec.Defines items) {rest : List Item}
    (hrest : rest ⊆ items) : (FunctionDefVisitor.visitMain ec rest).wp
      (fun ec' => ec'.Defines items) (· ≠ .outOfFuel) := by
  induction rest generalizing ec with
  | nil => exact h
  | cons item rest ih =>
    rw [List.cons_subset] at hrest
    rw [FunctionDefVisitor.visitMain, Except.wp_bind]
    exact Except.wp_mono (h.visitItem hrest.1) fun ec' hec' => ih hec' hrest.2

theorem Context.Defines.registerModule (h : ec.Defines items) (name : Str) {m : Module}
    (hm : m.Native) : (ec.registerModule name m).Defines items := by
  have hat : ∀ k, (ec.registerModule name m).moduleAt k =
      if strcasecmp k name = .eq then m else ec.moduleAt k := by
    intro k
    rw [Context.moduleAt, Context.registerModule, OrderedMap.find?_insertOrAssign]
    split_ifs <;> rfl
  refine h.update name ?_ fun k hk => by rw [hat, if_neg hk]
  rw [hat, if_pos (strcasecmp_self name)]
  exact hm

/-- A host registers native functions only. -/
theorem Context.Defines.register (h : ec.Defines items) {host : List Registration}
    (hhost : ∀ name m, .module name m ∈ host → m.Native) : (ec.register host).Defines items := by
  induction host generalizing ec with
  | nil => exact h
  | cons r host ih =>
    have hrest := fun name m hmem => hhost name m (List.mem_cons_of_mem r hmem)
    cases r with
    | native name fn =>
      exact ih (h.insertOrAssign ec.root name fun _ _ _ hbody => by cases hbody) hrest
    | module name m => exact ih (h.registerModule name (hhost name m List.mem_cons_self)) hrest

theorem defines_init : Context.init.Defines items := by
  intro key f fn d hfind hbody
  rw [Context.moduleAt, Context.init, OrderedMap.find?_emplace] at hfind
  split_ifs at hfind
  · exact absurd hbody (Module.native_initial f fn d hfind)
  · cases hfind

end Definitions

/-- **A program whose calls and loops cannot go on for ever ends**: no procedure of it calls
itself, directly or through others, no assignment names a variable of a `FOR`, and each `STEP` that
its run reads denotes a number above 0 and comes before any number or string that is out of the
range of `long`. With enough fuel the run has one result, and fuel is not what it stops for. -/
theorem basicrun_ends (host : List Registration) (tags : ℕ → ValueType) (items : List Item)
    (hhost : ∀ name m, .module name m ∈ host → m.Native) (hassign : LoopVarsUnassigned items)
    (hacyclic : ∀ d, ¬ Relation.TransGen (Calls items) d d)
    (hstep : ∀ᶠ n in atTop,
      StepsAdvance (basicrun n (·.register host) Context.init tags items).final.numbers) :
    ∃ r, r.error? ≠ some .outOfFuel ∧
      ∀ᶠ n in atTop, basicrun n (·.register host) Context.init tags items = r := by
  have hdefines := (@defines_init items).visitMain (List.Subset.refl items)
  unfold basicrun at hstep ⊢
  cases hpass : FunctionDefVisitor.visitMain Context.init items with
  | error e =>
    rw [hpass] at hdefines
    -- The first pass has failed, whatever the fuel is.
    exact ⟨.error e (.start Context.init tags), fun h => hdefines (Option.some.inj h),
      .of_forall fun _ => rfl⟩
  | ok ec =>
    rw [hpass] at hdefines hstep
    let s := (Machine.start (ec.register host) tags).mapContext Context.toRoot
    have hfinishes := finishes_visitItems hassign hacyclic items (List.Subset.refl items)
    obtain ⟨r, hr, hruns, -⟩ := hfinishes.ends s (hdefines.register hhost)
      (hstep.mono fun n hn _ _ => (readsOn_runProgram n _ tags items).step_pos rfl rfl hn)
    exact ⟨r, hr, hruns⟩

/-- `FOR i = 1 TO 3 STEP 2`, which assigns `r`. -/
def countingProgram : List Item :=
  [.statement (.forStatement ['i'] (.int ['1']) (.int ['3']) (some ['2'])
    [.assignExpr ['r'] (.ident ['i'])])]

theorem basicrun_ends_counting : ∃ r, r.error? ≠ some .outOfFuel ∧
    ∀ᶠ n in atTop, basicrun n (·.register basicrunHost) Context.init (fun _ => .invalid)
      countingProgram = r := by
  refine basicrun_ends basicrunHost _ countingProgram (fun name m hm => ?_) (fun x hx => ?_)
    (fun d hd => ?_) ?_
  · simp only [basicrunHost, List.mem_cons, Registration.module.injEq, List.not_mem_nil, or_false,
      reduceCtorEq] at hm
    obtain ⟨-, rfl⟩ := hm
    exact (Module.native_empty []).nativeFunctionl _ _
  -- The only assignment is of `r`, and the only variable of a `FOR` is `i`.
  · have hx : x = ['r'] := by
      simpa [Mentioned, countingProgram, Item.mentions, Stmt.mentions, Stmt.mentionsList,
        Expr.mentions] using hx
    subst hx
    rintro ⟨y, hy, hname⟩
    have hy : y = ['i'] := by
      simpa [Mentioned, countingProgram, Item.mentions, Stmt.mentions, Stmt.mentionsList,
        Expr.mentions] using hy
    subst hy
    exact absurd hname (by decide)
  -- There is no procedure.
  · obtain ⟨d', hcalls, -⟩ := Relation.TransGen.head'_iff.mp hd
    simpa [countingProgram, Item.procedure?] using hcalls.1
  · apply eventually_of_add 8
    intro n E text k E' hE
    have hnumbers : (basicrun (n + 8) (·.register basicrunHost) Context.init (fun _ => .invalid)
        countingProgram).final.numbers = [.step ['2'] 2, .int ['1'] 1, .int ['3'] 3] := rfl
    rw [hnumbers] at hE
    cases E with
    | nil =>
      cases hE
      exact ⟨by decide, fun r hr => absurd hr List.not_mem_nil⟩
    | cons r E =>
      -- The step is the first number that is read.
      have hmem : .step text k ∈ [NumberRead.int ['1'] 1, .int ['3'] 3] :=
        (List.cons.inj hE).2 ▸ List.mem_append_cons_self
      simp at hmem

end WwivBasic
