import WwivBasic.Executor
import WwivBasic.Foundations.RunLogic

/-!
# Invariants of runs

What one step of the interpreter can do is said once, as the fields of `Rules`: a bundle of
relations between the state before and the state after a visit is an invariant of runs as soon
as each step keeps it. `Rules` allows an invariant to build on one proved before, whose
relations are then assumptions of its fields.

## Main definitions

* `Relations`: a relation for each kind of visit: expressions, calls, statements, loops, and
  runs that stop
* `Rules B A`: the steps keep `A`, where `B` is known already
* `Visitor.Keeps`: the visits of a visitor keep the relations

## Main results

* `Rules.inf`: an invariant on top of an invariant is an invariant
* `visitor_keeps`: the visitor keeps every invariant, at every fuel
* `wp_visitItems`: and so does a program
-/

namespace WwivBasic

open EStateM

/-! ## Variables -/

section Variables

variable {s : Machine}

theorem wp_upsert {name : Str} {value : Value} {Q : Unit → Machine → Prop}
    {F : Fault → Machine → Prop} (hQ : Q ⟨⟩ (s.mapContext (Context.upserted · name value)))
    (hF : F .emptyBack s) : wp (Context.upsert name value) Q F s := by
  -- A name that resolves is assigned in its module, whether it has a package or not.
  have hup : ∀ r, s.ec.resolve name = some r → wp (Module.upsert r.1 r.2 value) Q F s := by
    intro r hr
    simp only [Machine.mapContext, Context.upserted, hr] at hQ
    simp only [Module.upsert, wp_bind, wp_get]
    split_ifs
    · exact hF
    · exact hQ
  -- A name whose package is not there is not assigned.
  have hnone : s.ec.resolve name = none → Q ⟨⟩ s := by
    intro hr
    simpa only [Machine.mapContext, Context.upserted, hr] using hQ
  simp only [Context.upsert, wp_bind, wp_get]
  by_cases hpkg : (splitPackageFromId name).1 ≠ []
  · rw [if_pos hpkg]
    by_cases hmod : s.ec.modules.contains (splitPackageFromId name).1
    · rw [if_pos hmod]
      exact hup _ (by simp only [Context.resolve, if_pos hpkg, if_pos hmod])
    · rw [if_neg hmod]
      exact hnone (by simp only [Context.resolve, if_pos hpkg, if_neg hmod])
  · rw [if_neg hpkg]
    exact hup (s.ec.varModule name, name) (by simp only [Context.resolve, if_neg hpkg])

theorem wp_var {name : Str} {Q : Option Var → Machine → Prop} {F : Fault → Machine → Prop}
    (hQ : Q (s.ec.findVar name) s)
    (hF : ∀ var e, s.ec.findVar name = some var → var.value_.toString = .error e → F e s) :
    wp (Context.var name) Q F s := by
  -- A name that resolves is looked up in its module, and what is found is printed.
  have hvar : ∀ r, s.ec.resolve name = some r → wp (Module.var r.1 r.2) Q F s := by
    intro r hr
    simp only [Context.findVar, hr, Option.bind_some] at hQ hF
    simp only [Module.var, wp_bind, wp_get]
    cases hv : (s.ec.moduleAt r.1).findVar r.2 with
    | none =>
      rw [hv] at hQ
      exact hQ
    | some var =>
      rw [hv] at hQ
      simp only [print, wp_bind]
      cases htext : var.value_.toString with
      | ok text => exact hQ
      | error e => exact hF var e hv htext
  simp only [Context.var, wp_bind, wp_get]
  by_cases hpkg : (splitPackageFromId name).1 ≠ []
  · rw [if_pos hpkg]
    by_cases hmod : s.ec.modules.contains (splitPackageFromId name).1
    · rw [if_pos hmod]
      exact hvar _ (by simp only [Context.resolve, if_pos hpkg, if_pos hmod])
    · rw [if_neg hmod]
      simpa only [Context.findVar, Context.resolve, if_pos hpkg, if_neg hmod,
        Option.bind_none, wp_pure] using hQ
  · rw [if_neg hpkg]
    exact hvar (s.ec.varModule name, name) (by simp only [Context.resolve, if_neg hpkg])

end Variables

/-! ## What an invariant says, and what keeps it -/

/-- Relations between the state before and after a visit, or a part of one. -/
structure Relations where
  /-- A completed visit of an expression, or a simple step. -/
  expr : Machine → Machine → Prop
  /-- A completed call, before `return_` is cleared. -/
  call : Machine → Machine → Prop
  /-- A completed visit of a statement or a block, with its result. -/
  stmt : Machine → AnyVal → Machine → Prop
  /-- From before a `FOR` to a state inside it, between two visits of its body. -/
  loop : Machine → ForLoop → Machine → Prop
  /-- A visit that stopped. -/
  stop : Machine → Machine → Prop

namespace Relations

/-- No relation. -/
def trivial : Relations :=
  ⟨fun _ _ => True, fun _ _ => True, fun _ _ _ => True, fun _ _ _ => True, fun _ _ => True⟩

/-- Both relations. -/
def inf (B A : Relations) : Relations where
  expr s t := B.expr s t ∧ A.expr s t
  call s t := B.call s t ∧ A.call s t
  stmt s a t := B.stmt s a t ∧ A.stmt s a t
  loop s l t := B.loop s l t ∧ A.loop s l t
  stop s t := B.stop s t ∧ A.stop s t

end Relations

/-- Events that no rule singles out. -/
def Event.isPlain : Event → Bool
  | .ident _ | .parens | .made _ | .loopVar _ => true
  | _ => false

namespace Machine

/-- The state in which the statements of a procedure begin. -/
def enterCall (s : Machine) (owner function : Str) (fnscope : Scope) (args : List Value) :
    Machine :=
  ((s.pushScope owner fnscope).openBlock (.call owner function)).note (.enter function args)

/-- The value of a call whose statements have ended with the result `a`. -/
def callValue (s : Machine) (a : AnyVal) : Value := Value.ofAny (s.tags 0) a

/-- The state after the statements of a procedure have ended with the result `a`, when the value
of the call is made. -/
def leaveBody (s : Machine) (a : AnyVal) : Machine :=
  (s.note .bodyEnd).closeBlock.dropTag.note (.made (s.callValue a))

/-- The state after a call, whose scope is popped. -/
def exitCall (s : Machine) (owner : Str) (result : Value) : Machine :=
  (s.popScope owner).note (.leave result)

/-- The state in which a native function runs, and has converted the texts. -/
def enterNative (s : Machine) (owner function : Str) (fnscope : Scope) (args : List Value)
    (converted : List Str) : Machine :=
  ((s.pushScope owner fnscope).note (.native function args)).readNumbers (converted.map .string)

/-- The state in which a `FOR` begins to iterate. -/
def enterLoop (s : Machine) (loop : ForLoop) (start : Value) : Machine :=
  ((s.note (.loopVar loop.varname)).pushScope loop.owner
    (Scope.insertOrAssign ⟨forText ++ loop.varname, ∅⟩ loop.varname start)).openBlock
    (.loop loop.varname)

/-- The state after a `FOR`, whose scope is popped. -/
def exitLoop (s : Machine) (loop : ForLoop) : Machine :=
  s.closeBlock.popScope loop.owner

end Machine

theorem wp_lift {α : Type} {s : Machine} {Q : α → Machine → Prop} {F : Fault → Machine → Prop}
    (x : Except Fault α) (hok : ∀ a, Q a s) (herror : ∀ e, F e s) : wp (lift x) Q F s := by
  cases x with
  | ok a => exact hok a
  | error e => exact herror e

/-- What `Module::call` does: nothing, or it visits the body of a procedure, or it runs a native
function. -/
theorem wp_call {v : Visitor} {self function : Str} {args : List Value} {s : Machine}
    {Q : Value → Machine → Prop} {F : Fault → Machine → Prop}
    (hskip : Q (Value.ofBool false) s)
    (hbody : ∀ fn defFn, (s.ec.moduleAt self).functions.find? function = some fn →
      fn.body = .basic defFn → args.length = fn.params.length →
      wp (v.statements defFn.statements)
        (fun a t => Q (t.callValue a) ((t.leaveBody a).exitCall self (t.callValue a)) ∧
          ∀ e, (t.callValue a).toString = .error e → F e (t.leaveBody a)) F
        (s.enterCall self function (bindParams ⟨function, ∅⟩ fn.params args) args))
    (hnative : ∀ fn cppFn, (s.ec.moduleAt self).functions.find? function = some fn →
      fn.body = .native cppFn →
      (∀ result, cppFn args = .ok result →
        Q result ((s.enterNative self function ⟨function, ∅⟩ args
            (cppFn.converted args)).exitCall self result) ∧
          ∀ e, result.toString = .error e →
            F e (s.enterNative self function ⟨function, ∅⟩ args (cppFn.converted args))) ∧
        ∀ e, cppFn args = .error e →
          F (.native e)
            (s.enterNative self function ⟨function, ∅⟩ args (cppFn.converted args))) :
    wp (Module.call v self function args) Q F s := by
  -- Every call ends alike: the result is printed, and the scope popped.
  have hprint : ∀ result t, Q result (t.exitCall self result) →
      (∀ e, result.toString = .error e → F e t) →
      wp (print result) (fun _ u => Q result (u.exitCall self result)) F t := by
    intro result t hQ hF
    unfold print
    cases hr : result.toString with
    | ok => exact hQ
    | error e => exact hF e hr
  simp only [Module.call, wp_bind, wp_get]
  cases hfn : (s.ec.moduleAt self).functions.find? function with
  | none => exact hskip
  | some fn =>
    dsimp only
    cases hfb : fn.body with
    | basic defFn =>
      dsimp only
      split_ifs with hlen
      · exact hskip
      · simp only [pushScope, popScope, note, runBody, makeValue, wp_bind, wp_get, wp_modify,
          wp_pure]
        -- After the body, `bodyEnd` is passed and the value of the call is made.
        refine wp_mono (hbody fn defFn hfn hfb (not_not.mp hlen)) (fun a t ht => ?_)
          fun _ _ ht => ht
        exact hprint _ (t.leaveBody a) ht.1 ht.2
    | native cppFn =>
      obtain ⟨hok, herror⟩ := hnative fn cppFn hfn hfb
      simp only [pushScope, popScope, note, readStrings, runNative, wp_bind, wp_modify, wp_pure]
      cases hrun : cppFn args with
      | ok result => exact hprint result _ (hok result hrun).1 (hok result hrun).2
      | error e => exact herror e hrun

/-- The steps of the interpreter keep `A`, where `B` is known to be kept. -/
structure Rules (B A : Relations) : Prop where
  -- Simple steps, and how they follow each other.
  refl : ∀ s, A.expr s s
  trans : ∀ s t u, B.expr s t → B.expr t u → A.expr s t → A.expr t u → A.expr s u
  stop : ∀ s t, B.expr s t → A.expr s t → A.stop s t
  trans_stop : ∀ s t u, B.expr s t → B.stop t u → A.expr s t → A.stop t u → A.stop s u
  -- The simple steps there are.
  note : ∀ s e, e.isPlain → A.expr s (s.note e)
  read : ∀ s name, A.expr s (s.note (.read name ((s.ec.findVar name).map Var.value_)))
  dropTag : ∀ s, A.expr s s.dropTag
  readNumbers : ∀ s reads, s.Reads reads → A.expr s (s.readNumbers reads)
  assign : ∀ s name value,
    A.expr s ((s.note (.assign name value)).mapContext (Context.upserted · name value))
  assign_stop : ∀ s name value, A.stop s (s.note (.assign name value))
  -- Calls: of nothing, of a procedure, and of a native function.
  call_refl : ∀ s, A.call s s
  call_clear : ∀ s t, B.call s t → A.call s t → A.expr s (t.setReturn false)
  call_body : ∀ s owner function fnscope args a t,
    B.stmt (s.enterCall owner function fnscope args) a t →
    A.stmt (s.enterCall owner function fnscope args) a t →
    A.call s ((t.leaveBody a).exitCall owner (t.callValue a))
  call_print : ∀ s owner function fnscope args a t,
    B.stmt (s.enterCall owner function fnscope args) a t →
    A.stmt (s.enterCall owner function fnscope args) a t → A.stop s (t.leaveBody a)
  call_stop : ∀ s owner function fnscope args t,
    B.stop (s.enterCall owner function fnscope args) t →
    A.stop (s.enterCall owner function fnscope args) t → A.stop s t
  native : ∀ s owner function fnscope args converted result,
    A.call s ((s.enterNative owner function fnscope args converted).exitCall owner result)
  native_stop : ∀ s owner function fnscope args converted,
    A.stop s (s.enterNative owner function fnscope args converted)
  -- Statements, and the blocks they make up.
  start : ∀ s a t, B.stmt (s.note .statement) a t → A.stmt (s.note .statement) a t →
    A.stmt s a t
  start_stop : ∀ s t, B.stop (s.note .statement) t → A.stop (s.note .statement) t → A.stop s t
  simple : ∀ s t, B.expr s t → A.expr s t → A.stmt s .empty t
  block : ∀ s t a u, B.expr s t → B.stmt t a u → A.expr s t → A.stmt t a u → A.stmt s a u
  next : ∀ s a t b u, t.return_ = false → B.stmt s a t → B.stmt t b u →
    A.stmt s a t → A.stmt t b u → A.stmt s b u
  next_stop : ∀ s a t u, t.return_ = false → B.stmt s a t → B.stop t u →
    A.stmt s a t → A.stop t u → A.stop s u
  ret : ∀ s t a, B.expr s t → A.expr s t → A.stmt s a ((t.note (.ret a)).setReturn true)
  -- The `FOR`, from the push of its scope to the pop.
  loop_enter : ∀ s loop start, loop.owner = s.ec.module →
    loop.position = (s.ec.scopes loop.owner).length → A.loop s loop (s.enterLoop loop start)
  loop_set : ∀ s loop t i, B.loop s loop t → A.loop s loop t →
    A.loop s loop (t.setVarAt loop.owner loop.position loop.varname i)
  loop_read : ∀ s loop t (texts : List Str), B.loop s loop t → A.loop s loop t →
    A.loop s loop (t.readNumbers (texts.map .string))
  loop_body : ∀ s loop t a u, B.loop s loop t → B.stmt t a u → A.loop s loop t →
    A.stmt t a u → A.loop s loop u
  loop_stop : ∀ s loop t, B.loop s loop t → A.loop s loop t → A.stop s t
  loop_body_stop : ∀ s loop t u, B.loop s loop t → B.stop t u → A.loop s loop t →
    A.stop t u → A.stop s u
  loop_exit : ∀ s loop t, B.loop s loop t → A.loop s loop t →
    A.stmt s .empty (t.exitLoop loop)

namespace Rules

variable {B A : Relations}

/-- An invariant on top of an invariant is an invariant. -/
theorem inf (hB : Rules .trivial B) (hA : Rules B A) : Rules .trivial (B.inf A) where
  refl s := ⟨hB.refl s, hA.refl s⟩
  trans s t u _ _ h h' := ⟨hB.trans s t u ⟨⟩ ⟨⟩ h.1 h'.1, hA.trans s t u h.1 h'.1 h.2 h'.2⟩
  stop s t _ h := ⟨hB.stop s t ⟨⟩ h.1, hA.stop s t h.1 h.2⟩
  trans_stop s t u _ _ h h' :=
    ⟨hB.trans_stop s t u ⟨⟩ ⟨⟩ h.1 h'.1, hA.trans_stop s t u h.1 h'.1 h.2 h'.2⟩
  note s e he := ⟨hB.note s e he, hA.note s e he⟩
  read s name := ⟨hB.read s name, hA.read s name⟩
  dropTag s := ⟨hB.dropTag s, hA.dropTag s⟩
  readNumbers s reads h := ⟨hB.readNumbers s reads h, hA.readNumbers s reads h⟩
  assign s name value := ⟨hB.assign s name value, hA.assign s name value⟩
  assign_stop s name value := ⟨hB.assign_stop s name value, hA.assign_stop s name value⟩
  call_refl s := ⟨hB.call_refl s, hA.call_refl s⟩
  call_clear s t _ h := ⟨hB.call_clear s t ⟨⟩ h.1, hA.call_clear s t h.1 h.2⟩
  call_body s o f sc args a t _ h :=
    ⟨hB.call_body s o f sc args a t ⟨⟩ h.1, hA.call_body s o f sc args a t h.1 h.2⟩
  call_print s o f sc args a t _ h :=
    ⟨hB.call_print s o f sc args a t ⟨⟩ h.1, hA.call_print s o f sc args a t h.1 h.2⟩
  call_stop s o f sc args t _ h :=
    ⟨hB.call_stop s o f sc args t ⟨⟩ h.1, hA.call_stop s o f sc args t h.1 h.2⟩
  native s o f sc args c r := ⟨hB.native s o f sc args c r, hA.native s o f sc args c r⟩
  native_stop s o f sc args c := ⟨hB.native_stop s o f sc args c, hA.native_stop s o f sc args c⟩
  start s a t _ h := ⟨hB.start s a t ⟨⟩ h.1, hA.start s a t h.1 h.2⟩
  start_stop s t _ h := ⟨hB.start_stop s t ⟨⟩ h.1, hA.start_stop s t h.1 h.2⟩
  simple s t _ h := ⟨hB.simple s t ⟨⟩ h.1, hA.simple s t h.1 h.2⟩
  block s t a u _ _ h h' :=
    ⟨hB.block s t a u ⟨⟩ ⟨⟩ h.1 h'.1, hA.block s t a u h.1 h'.1 h.2 h'.2⟩
  next s a t b u hr _ _ h h' :=
    ⟨hB.next s a t b u hr ⟨⟩ ⟨⟩ h.1 h'.1, hA.next s a t b u hr h.1 h'.1 h.2 h'.2⟩
  next_stop s a t u hr _ _ h h' :=
    ⟨hB.next_stop s a t u hr ⟨⟩ ⟨⟩ h.1 h'.1, hA.next_stop s a t u hr h.1 h'.1 h.2 h'.2⟩
  ret s t a _ h := ⟨hB.ret s t a ⟨⟩ h.1, hA.ret s t a h.1 h.2⟩
  loop_enter s l v ho hp := ⟨hB.loop_enter s l v ho hp, hA.loop_enter s l v ho hp⟩
  loop_set s l t i _ h := ⟨hB.loop_set s l t i ⟨⟩ h.1, hA.loop_set s l t i h.1 h.2⟩
  loop_read s l t texts _ h :=
    ⟨hB.loop_read s l t texts ⟨⟩ h.1, hA.loop_read s l t texts h.1 h.2⟩
  loop_body s l t a u _ _ h h' :=
    ⟨hB.loop_body s l t a u ⟨⟩ ⟨⟩ h.1 h'.1, hA.loop_body s l t a u h.1 h'.1 h.2 h'.2⟩
  loop_stop s l t _ h := ⟨hB.loop_stop s l t ⟨⟩ h.1, hA.loop_stop s l t h.1 h.2⟩
  loop_body_stop s l t u _ _ h h' :=
    ⟨hB.loop_body_stop s l t u ⟨⟩ ⟨⟩ h.1 h'.1, hA.loop_body_stop s l t u h.1 h'.1 h.2 h'.2⟩
  loop_exit s l t _ h := ⟨hB.loop_exit s l t ⟨⟩ h.1, hA.loop_exit s l t h.1 h.2⟩

end Rules

/-! ## The visits of a visitor -/

/-- A computation whose runs are simple steps. -/
def Keeps (A : Relations) {α : Type} (m : Eval α) : Prop :=
  ∀ s, wp m (fun _ t => A.expr s t) (fun _ t => A.stop s t) s

/-- A computation whose runs are visits of a statement. -/
def KeepsStmt (A : Relations) (m : Eval AnyVal) : Prop :=
  ∀ s, wp m (fun a t => A.stmt s a t) (fun _ t => A.stop s t) s

/-- The visits a visitor makes keep the relations. -/
structure Visitor.Keeps (v : Visitor) (A : Relations) : Prop where
  expr : ∀ e, WwivBasic.Keeps A (v.expr e)
  statements : ∀ b, KeepsStmt A (v.statements b)
  iterate : ∀ loop i s t, A.loop s loop t →
    wp (v.iterate loop i) (fun _ u => A.loop s loop u) (fun _ u => A.stop s u) t

section Soundness

variable {A : Relations} {α β : Type}

/-- A simple step after which the run goes on. -/
theorem Keeps.after (h : Rules .trivial A) {m : Eval α} (hm : Keeps A m) {s t : Machine}
    (hst : A.expr s t) : wp m (fun _ u => A.expr s u) (fun _ u => A.stop s u) t :=
  wp_mono (hm t) (fun _ u hu => h.trans s t u ⟨⟩ ⟨⟩ hst hu)
    fun _ u hu => h.trans_stop s t u ⟨⟩ ⟨⟩ hst hu

theorem Keeps.pure (h : Rules .trivial A) (a : α) : Keeps A (Pure.pure a) :=
  fun s => h.refl s

theorem Keeps.throw (h : Rules .trivial A) (e : Fault) : Keeps A (MonadExcept.throw e : Eval α) :=
  fun s => h.stop s s ⟨⟩ (h.refl s)

theorem Keeps.bind (h : Rules .trivial A) {m : Eval α} {f : α → Eval β} (hm : Keeps A m)
    (hf : ∀ a, Keeps A (f a)) : Keeps A (m >>= f) := by
  intro s
  rw [wp_bind]
  exact wp_mono (hm s) (fun a t hst => (hf a).after h hst) fun _ _ ht => ht

/-- A simple step, then a statement. -/
theorem Keeps.bind_stmt (h : Rules .trivial A) {m : Eval α} {f : α → Eval AnyVal}
    (hm : Keeps A m) (hf : ∀ a, KeepsStmt A (f a)) : KeepsStmt A (m >>= f) := by
  intro s
  rw [wp_bind]
  refine wp_mono (hm s) (fun a t hst => ?_) fun _ _ ht => ht
  exact wp_mono (hf a t) (fun b u hu => h.block s t b u ⟨⟩ ⟨⟩ hst hu)
    fun _ u hu => h.trans_stop s t u ⟨⟩ ⟨⟩ hst hu

theorem keeps_lift (h : Rules .trivial A) (x : Except Fault α) : Keeps A (lift x) := by
  cases x with
  | ok a => exact Keeps.pure h a
  | error e => exact Keeps.throw h e

theorem keeps_print (h : Rules .trivial A) (v : Value) : Keeps A (print v) :=
  (keeps_lift h _).bind h fun _ => Keeps.pure h _

theorem keeps_note (h : Rules .trivial A) {e : Event} (he : e.isPlain) : Keeps A (note e) :=
  fun s => h.note s e he

theorem keeps_makeValue (h : Rules .trivial A) (a : AnyVal) : Keeps A (makeValue a) := by
  intro s
  simp only [makeValue, note, wp_bind, wp_get, wp_modify, wp_pure]
  exact h.trans _ _ _ ⟨⟩ ⟨⟩ (h.dropTag s) (h.note _ _ rfl)

theorem keeps_toNumberInt (h : Rules .trivial A) {read : Str → Int32 → NumberRead}
    (hread : ∀ (s : Machine) text, s.Reads [read text (s.intOf text)]) (text : Str) :
    Keeps A (toNumberInt read text) := by
  intro s
  simp only [toNumberInt, wp_bind, wp_get, wp_modify, wp_pure]
  exact h.readNumbers s _ (hread s text)

theorem keeps_readStrings (h : Rules .trivial A) (texts : List Str) : Keeps A (readStrings texts) :=
  fun s => h.readNumbers s _ (.strings texts)

theorem keeps_toIntOf (h : Rules .trivial A) (v : Value) : Keeps A (toIntOf v) :=
  (keeps_readStrings h _).bind h fun _ => keeps_lift h _

theorem keeps_readVar (h : Rules .trivial A) (name : Str) : Keeps A (readVar name) := by
  intro s
  simp only [readVar, note, wp_bind, wp_modify, wp_pure]
  exact wp_var (h.read s name) fun _ _ _ _ => h.stop s s ⟨⟩ (h.refl s)

/-! ### Calls -/

variable {v : Visitor}

theorem wp_moduleCall (h : Rules .trivial A) (hv : v.Keeps A) (self function : Str)
    (args : List Value) (s : Machine) :
    wp (Module.call v self function args) (fun _ t => A.call s t) (fun _ t => A.stop s t) s := by
  refine wp_call (h.call_refl s) (fun fn defFn _ _ _ => ?_) fun fn cppFn _ _ => ⟨?_, ?_⟩
  · refine wp_mono (hv.statements _ _) (fun a t ht => ?_) fun _ t ht => ?_
    · exact ⟨h.call_body s self function _ args a t ⟨⟩ ht,
        fun _ _ => h.call_print s self function _ args a t ⟨⟩ ht⟩
    · exact h.call_stop s self function _ args t ⟨⟩ ht
  · exact fun result _ => ⟨h.native s self function _ args _ result,
      fun _ _ => h.native_stop s self function _ args _⟩
  · exact fun _ _ => h.native_stop s self function _ args _

theorem wp_contextCall (h : Rules .trivial A) (hv : v.Keeps A) (function : Str)
    (args : List Value) (s : Machine) :
    wp (Context.call v function args) (fun _ t => A.call s t) (fun _ t => A.stop s t) s := by
  simp only [Context.call, wp_bind, wp_get]
  split_ifs
  · exact wp_moduleCall h hv _ _ _ s
  · exact h.call_refl s
  · exact wp_moduleCall h hv _ _ _ s
  · exact wp_moduleCall h hv _ _ _ s

/-! ### Expressions -/

theorem keeps_visitOperand (h : Rules .trivial A) (hv : v.Keeps A) (e : Expr) :
    Keeps A (visitOperand v e) :=
  (hv.expr e).bind h fun a => keeps_makeValue h a

theorem keeps_visitParameterList (h : Rules .trivial A) (hv : v.Keeps A) (es : List Expr) :
    Keeps A (visitParameterList v es) := by
  induction es with
  | nil => exact Keeps.pure h []
  | cons e es ih =>
    exact (keeps_visitOperand h hv e).bind h fun _ => ih.bind h fun _ => Keeps.pure h _

theorem keeps_visitProcedureCall (h : Rules .trivial A) (hv : v.Keeps A) (procedureName : Str)
    (parameterList : List Expr) : Keeps A (visitProcedureCall v procedureName parameterList) := by
  refine (keeps_visitParameterList h hv parameterList).bind h fun params s => ?_
  simp only [wp_bind, wp_modify]
  refine wp_mono (wp_contextCall h hv procedureName params s) (fun val t ht => ?_)
    fun _ _ ht => ht
  -- The flag is cleared before the value of the call becomes an `any`.
  exact (keeps_lift h val.toAny).after h (h.call_clear s t ⟨⟩ ht)

theorem keeps_visitRelation (h : Rules .trivial A) (hv : v.Keeps A) (op : RelationalOperator)
    (e₀ e₁ : Expr) : Keeps A (visitRelation v op e₀ e₁) :=
  (keeps_visitOperand h hv e₀).bind h fun left =>
    (keeps_visitOperand h hv e₁).bind h fun right =>
      (keeps_readStrings h _).bind h fun _ => (keeps_lift h _).bind h fun _ =>
        (keeps_print h left).bind h fun _ => (keeps_print h right).bind h fun _ => Keeps.pure h _

theorem keeps_visitBinary (h : Rules .trivial A) (hv : v.Keeps A)
    (eval : Value → Value → Except Fault Value) (converted : Value → Value → List Str)
    (e₀ e₁ : Expr) : Keeps A (visitBinary v eval converted e₀ e₁) :=
  (keeps_visitOperand h hv e₀).bind h fun left =>
    (keeps_visitOperand h hv e₁).bind h fun right =>
      (keeps_readStrings h _).bind h fun _ => (keeps_lift h _).bind h fun result =>
        (keeps_print h left).bind h fun _ => (keeps_print h right).bind h fun _ =>
          (keeps_print h result).bind h fun _ => keeps_lift h _

theorem keeps_visitRvalue (h : Rules .trivial A) (name : Str) : Keeps A (visitRvalue name) := by
  refine (keeps_note h rfl).bind h fun _ => (keeps_readVar h name).bind h fun result => ?_
  cases result with
  | none => exact Keeps.pure h _
  | some var => exact keeps_lift h _

theorem keeps_visitExpr (h : Rules .trivial A) (hv : v.Keeps A) (e : Expr) :
    Keeps A (visitExpr v e) := by
  cases e with
  | relation op e₀ e₁ => exact keeps_visitRelation h hv op e₀ e₁
  | mulDiv op e₀ e₁ => exact keeps_visitBinary h hv _ _ e₀ e₁
  | addSub op e₀ e₁ => exact keeps_visitBinary h hv _ _ e₀ e₁
  | procCall procedureName parameterList =>
    exact keeps_visitProcedureCall h hv procedureName parameterList
  | parens e => exact (keeps_note h rfl).bind h fun _ => Keeps.pure h _
  | ident name => exact keeps_visitRvalue h name
  | int text => exact (keeps_toNumberInt h (fun _ => .int) text).bind h fun _ => Keeps.pure h _
  | string text => exact Keeps.pure h _
  | boolean b => exact Keeps.pure h _

/-! ### Statements -/

theorem keeps_visitCondition (h : Rules .trivial A) (hv : v.Keeps A) (e : Expr) :
    Keeps A (visitCondition v e) := by
  apply (hv.expr e).bind h
  intro a
  cases a with
  | bool b => exact Keeps.pure h b
  | empty | int | string => exact Keeps.throw h _

theorem keeps_assign (h : Rules .trivial A) (name : Str) (value : Value) :
    Keeps A (do note (.assign name value); Context.upsert name value) := by
  intro s
  simp only [note, wp_bind, wp_modify]
  exact wp_upsert (h.assign s name value) (h.assign_stop s name value)

/-- A computation that ends without a result. -/
theorem Keeps.stmtEmpty (h : Rules .trivial A) {m : Eval α} (hm : Keeps A m) :
    KeepsStmt A (do let _ ← m; return .empty) := by
  intro s
  rw [wp_bind]
  exact wp_mono (hm s) (fun _ t hst => h.simple s t ⟨⟩ hst) fun _ _ ht => ht

theorem keepsStmt_empty (h : Rules .trivial A) : KeepsStmt A (pure .empty) :=
  fun s => h.simple s s ⟨⟩ (h.refl s)

theorem keepsStmt_visitAssignExpr (h : Rules .trivial A) (hv : v.Keeps A) (lvalue : Str)
    (e : Expr) : KeepsStmt A (visitAssignExpr v lvalue e) := by
  refine (keeps_visitOperand h hv e).bind_stmt h fun value =>
    (keeps_print h value).bind_stmt h fun _ => ?_
  simpa only [bind_assoc] using (keeps_assign h lvalue value).stmtEmpty h

theorem keepsStmt_visitAssignRvalue (h : Rules .trivial A) (lvalue rvalue : Str) :
    KeepsStmt A (visitAssignRvalue lvalue rvalue) := by
  apply (keeps_readVar h rvalue).bind_stmt h
  intro result
  cases result with
  | none => exact keepsStmt_empty h
  | some var =>
    apply (keeps_print h var.value_).bind_stmt h
    intro _
    simpa only [bind_assoc] using (keeps_assign h lvalue var.value_).stmtEmpty h

theorem keepsStmt_visitIfThenElseIfElse (h : Rules .trivial A) (hv : v.Keeps A)
    (otherwise : List Stmt) (clauses : List (Expr × List Stmt)) :
    KeepsStmt A (visitIfThenElseIfElseStatement v otherwise clauses) := by
  induction clauses with
  | nil => exact hv.statements otherwise
  | cons clause clauses ih =>
    apply (keeps_visitCondition h hv clause.1).bind_stmt h
    intro b
    cases b with
    | false => exact ih
    | true => exact hv.statements clause.2

/-- One visit of the body of a `FOR`, from inside it. -/
theorem wp_loopBody (h : Rules .trivial A) (hv : v.Keeps A) {s t : Machine} {loop : ForLoop}
    (ht : A.loop s loop t) :
    wp (v.statements loop.statements) (fun _ u => A.loop s loop u) (fun _ u => A.stop s u) t :=
  wp_mono (hv.statements _ t) (fun a u hu => h.loop_body s loop t a u ⟨⟩ ⟨⟩ ht hu)
    fun _ u hu => h.loop_body_stop s loop t u ⟨⟩ ⟨⟩ ht hu

/-- A value is read as a number from inside a `FOR`. -/
theorem wp_toIntOf (h : Rules .trivial A) {s t : Machine} {loop : ForLoop} (v : Value)
    {Q : Int32 → Machine → Prop} (ht : A.loop s loop t)
    (hQ : ∀ i u, A.loop s loop u → Q i u) : wp (toIntOf v) Q (fun _ u => A.stop s u) t := by
  simp only [toIntOf, readStrings, wp_bind, wp_modify]
  have hread := h.loop_read s loop t v.converted ⟨⟩ ht
  exact wp_lift _ (fun i => hQ i _ hread) fun _ => h.loop_stop s loop _ ⟨⟩ hread

theorem wp_iterateFor (h : Rules .trivial A) (hv : v.Keeps A) (loop : ForLoop) (i : Int32)
    (s t : Machine) (ht : A.loop s loop t) :
    wp (iterateFor v loop i) (fun _ u => A.loop s loop u) (fun _ u => A.stop s u) t := by
  simp only [iterateFor, wp_bind]
  apply wp_toIntOf h _ ht
  intro stop t ht
  split_ifs
  · exact ht
  -- One iteration: the variable is set, the body visited, the variable read and advanced.
  · simp only [setLoopVar, getLoopVar, wp_bind, wp_modify, wp_get, wp_pure]
    refine wp_mono (wp_loopBody h hv (h.loop_set s loop t i ⟨⟩ ht)) (fun _ u hu => ?_)
      fun _ _ hu => hu
    refine wp_toIntOf h _ hu fun current w hw => ?_
    exact wp_lift _ (fun next => hv.iterate loop next s w hw) fun _ => h.loop_stop s loop w ⟨⟩ hw

theorem keepsStmt_visitForStatement (h : Rules .trivial A) (hv : v.Keeps A) (id : Str)
    (e₀ e₁ : Expr) (step : Option Str) (statements : List Stmt) :
    KeepsStmt A (visitForStatement v id e₀ e₁ step statements) := by
  have hstep : Keeps A (forStep step) := by
    cases step with
    | none => exact Keeps.pure h 1
    | some text => exact keeps_toNumberInt h (fun _ => .step) text
  refine hstep.bind_stmt h fun step => (keeps_visitOperand h hv e₀).bind_stmt h fun start =>
    (keeps_visitOperand h hv e₁).bind_stmt h fun stop s => ?_
  simp only [note, pushScope, popScope, runLoop, setLoopVar, wp_bind, wp_get, wp_modify, wp_pure]
  set loop : ForLoop :=
    ⟨s.ec.module, (s.ec.scopes s.ec.module).length, id, stop, step, statements⟩
  -- From here to the last line the run is inside the `FOR`.
  have henter : A.loop s loop (s.enterLoop loop start) := h.loop_enter s loop start rfl rfl
  apply wp_toIntOf h _ henter
  intro current r hr
  refine wp_mono (wp_iterateFor h hv loop current s r hr) (fun _ t ht => ?_) fun _ _ ht => ht
  -- The iterations are over, and the body is visited once more, at `end`.
  apply wp_toIntOf h _ ht
  intro last t ht
  refine wp_mono (wp_loopBody h hv (h.loop_set s loop t last ⟨⟩ ht)) (fun _ u hu => ?_)
    fun _ _ hu => hu
  exact h.loop_exit s loop u ⟨⟩ hu

theorem keepsStmt_visitReturnStatement (h : Rules .trivial A) (hv : v.Keeps A) (e : Expr) :
    KeepsStmt A (visitReturnStatement v e) := by
  intro s
  simp only [visitReturnStatement, note, wp_bind, wp_modify, wp_pure]
  refine wp_mono (hv.expr e s) (fun a t hst => ?_) fun _ _ ht => ht
  refine wp_mono ((keeps_makeValue h a).after h hst) (fun value u hsu => ?_) fun _ _ ht => ht
  refine wp_mono ((keeps_print h value).after h hsu) (fun _ w hsw => ?_) fun _ _ ht => ht
  -- All that came before the flag is set is a simple step.
  exact h.ret s w a ⟨⟩ hsw

theorem keepsStmt_visitAlternative (h : Rules .trivial A) (hv : v.Keeps A) (stmt : Stmt) :
    KeepsStmt A (visitAlternative v stmt) := by
  cases stmt with
  | assignRvalue lvalue rvalue => exact keepsStmt_visitAssignRvalue h lvalue rvalue
  | assignExpr lvalue e => exact keepsStmt_visitAssignExpr h hv lvalue e
  | ifThen e statements =>
    apply (keeps_visitCondition h hv e).bind_stmt h
    intro b
    cases b with
    | false => exact keepsStmt_empty h
    | true => exact hv.statements statements
  | ifThenElse e statements otherwise =>
    apply (keeps_visitCondition h hv e).bind_stmt h
    intro b
    cases b with
    | false => exact hv.statements otherwise
    | true => exact hv.statements statements
  | ifThenElseIfElse e statements elseIfs otherwise =>
    exact keepsStmt_visitIfThenElseIfElse h hv otherwise _
  | forStatement id e₀ e₁ step statements =>
    exact keepsStmt_visitForStatement h hv id e₀ e₁ step statements
  | procedureCall procedureName parameterList =>
    exact (keeps_visitProcedureCall h hv procedureName parameterList).stmtEmpty h
  | returnStatement e => exact keepsStmt_visitReturnStatement h hv e
  | emptyStatement => exact keepsStmt_empty h

theorem keepsStmt_visitStatement (h : Rules .trivial A) (hv : v.Keeps A) (stmt : Stmt) :
    KeepsStmt A (visitStatement v stmt) := by
  intro s
  simp only [visitStatement, note, wp_bind, wp_modify]
  exact wp_mono (keepsStmt_visitAlternative h hv stmt _) (fun a t ht => h.start s a t ⟨⟩ ht)
    fun _ t ht => h.start_stop s t ⟨⟩ ht

/-- A block with a statement is a statement; one without returns the result so far. -/
theorem wp_visitStatements (h : Rules .trivial A) (hv : v.Keeps A) (stmts : List Stmt)
    (result : AnyVal) (s : Machine) :
    wp (visitStatements v result stmts)
      (fun a t => if stmts = [] then a = result ∧ t = s else A.stmt s a t)
      (fun _ t => A.stop s t) s := by
  induction stmts generalizing result s with
  | nil => exact ⟨rfl, rfl⟩
  | cons stmt stmts ih =>
    simp only [visitStatements, wp_bind, wp_get, reduceCtorEq, if_false]
    refine wp_mono (keepsStmt_visitStatement h hv stmt s) (fun a t ht => ?_) fun _ _ ht => ht
    -- With the flag set the block ends here, with the result of this statement.
    cases hr : t.return_ with
    | true => simpa using ht
    | false =>
      refine wp_mono (ih a t) (fun b u hu => ?_) fun _ u hu =>
        h.next_stop s a t u hr ⟨⟩ ⟨⟩ ht hu
      -- Without further statements the result of this one stays.
      split_ifs at hu with hnil
      · obtain ⟨rfl, rfl⟩ := hu
        exact ht
      · exact h.next s a t b u hr ⟨⟩ ⟨⟩ ht hu

theorem keepsStmt_visitStatements (h : Rules .trivial A) (hv : v.Keeps A) (stmts : List Stmt) :
    KeepsStmt A (visitStatements v .empty stmts) := by
  intro s
  refine wp_mono (wp_visitStatements h hv stmts .empty s) (fun a t ht => ?_) fun _ _ ht => ht
  -- A block without statements does nothing, and has the empty result.
  split_ifs at ht with hnil
  · obtain ⟨rfl, rfl⟩ := ht
    exact h.simple t t ⟨⟩ (h.refl t)
  · exact ht

/-- **The visitor keeps every invariant**, at every fuel. -/
theorem visitor_keeps (h : Rules .trivial A) (n : ℕ) : (visitor n).Keeps A := by
  induction n with
  | zero =>
    -- Without fuel every visit stops where it began.
    exact ⟨fun _ => Keeps.throw h _, fun _ s => h.stop s s ⟨⟩ (h.refl s),
      fun loop _ s t ht => h.loop_stop s loop t ⟨⟩ ht⟩
  | succ n ih =>
    exact ⟨keeps_visitExpr h ih, keepsStmt_visitStatements h ih, wp_iterateFor h ih⟩

/-! ### Programs -/

/-- A property of states holds through a program when the items keep it. -/
theorem wp_visitItems (h : Rules .trivial A) {I S : Machine → Prop}
    (hitem : ∀ s, I s → I (s.note .item)) (hstmt : ∀ s a t, I s → A.stmt s a t → I t)
    (hstop : ∀ s t, I s → A.stop s t → S t)
    (himport : ∀ s id, I s → I (s.mapContext (Context.importModule · id)))
    (n : ℕ) (items : List Item) (s : Machine) (hs : I s) :
    wp (visitItems (visitor n) items) (fun _ t => I t) (fun _ t => S t) s := by
  -- A statement is the only item that is a visit.
  have hvisit : ∀ item s, I s →
      wp (visitItem (visitor n) item) (fun _ t => I t) (fun _ t => S t) s := by
    intro item s hs
    cases item with
    | statement stmt =>
      simp only [visitItem, wp_bind, wp_pure]
      exact wp_mono (keepsStmt_visitStatement h (visitor_keeps h n) stmt s)
        (fun a t ht => hstmt s a t hs ht) fun _ t ht => hstop s t hs ht
    | importModule id => exact himport s id hs
    | procedureDefinition | importFile | moduleDefinition => exact hs
  induction items generalizing s with
  | nil => exact hs
  | cons item items ih =>
    simp only [visitItems, WwivBasic.note, wp_bind, wp_modify]
    exact wp_mono (hvisit item _ (hitem s hs)) (fun _ t ht => ih t ht) fun _ _ ht => ht

end Soundness

end WwivBasic
