import WwivBasic.Alike

/-!
# Runs of related programs

The runs of two related programs from related states take the same steps: at every step they
look up, push, pop and update related data, branch alike, and stop with the same fault.

## Main definitions

* `RunAlike N A m m'`: two computations of the interpreter that run alike
* `Visitor.Alike`: two visitors whose visits of related trees run alike

## Main results

* `visitor_alike`: the visitor runs alike on related trees, at every fuel
* `visitItems_alike`: and so do the visits of a program
-/

namespace WwivBasic

open EStateM

/-- From related states the computations end alike, with results related by `A`. -/
abbrev RunAlike (N : Str → Str → Prop) {α α' : Type} (A : α → α' → Prop) (m : Eval α)
    (m' : Eval α') : Prop :=
  Lockstep (Machine.Alike N) A m m'

/-! ## Steps -/

theorem Machine.history_note (s : Machine) (e : Event) :
    (s.note e).history = s.history ++ if e.isItem then [] else [s.point e] := by
  rw [history, note, List.filter_append, history]
  cases e <;> rfl

namespace Machine.Alike

variable {N : Str → Str → Prop} {s s' : Machine} (h : s.Alike N s')

include h

theorem point {e e' : Event} (he : e.Alike N e') : (s.point e).Alike N (s'.point e') :=
  ⟨he, h.ec, h.return_, h.nest⟩

theorem note {e e' : Event} (he : e.Alike N e') : (s.note e).Alike N (s'.note e') := by
  refine ⟨h.ec, h.return_, h.errno, h.tags, h.nest, h.numbers, ?_⟩
  have hitem : e.isItem = e'.isItem := by cases he <;> rfl
  rw [history_note, history_note, hitem]
  apply List.rel_append h.history
  split_ifs
  · exact .nil
  · exact .cons (h.point he) .nil

theorem mapContext {f f' : Context → Context}
    (hf : ∀ ec ec', ec.Alike N ec' → (f ec).Alike N (f' ec')) :
    (s.mapContext f).Alike N (s'.mapContext f') :=
  ⟨hf _ _ h.ec, h.return_, h.errno, h.tags, h.nest, h.numbers, h.history⟩

theorem dropTag : s.dropTag.Alike N s'.dropTag :=
  ⟨h.ec, h.return_, h.errno, funext fun n => congrFun h.tags (n + 1), h.nest, h.numbers, h.history⟩

theorem setReturn (b : Bool) : (s.setReturn b).Alike N (s'.setReturn b) :=
  ⟨h.ec, rfl, h.errno, h.tags, h.nest, h.numbers, h.history⟩

theorem readNumbers (reads : List NumberRead) :
    (s.readNumbers reads).Alike N (s'.readNumbers reads) :=
  ⟨h.ec, h.return_, congrArg (· || _) h.errno, h.tags, h.nest, congrArg (· ++ _) h.numbers,
    h.history⟩

theorem openBlock {b b' : Block} (hb : b.Alike N b') :
    (s.openBlock b).Alike N (s'.openBlock b') :=
  ⟨h.ec, h.return_, h.errno, h.tags, .cons hb h.nest, h.numbers, h.history⟩

theorem closeBlock : s.closeBlock.Alike N s'.closeBlock := by
  refine ⟨h.ec, h.return_, h.errno, h.tags, ?_, h.numbers, h.history⟩
  have hnest := h.nest
  show List.Forall₂ _ s.nest.tail s'.nest.tail
  revert hnest
  cases s.nest <;> cases s'.nest <;> rintro ⟨⟩
  · exact .nil
  · assumption

end Machine.Alike

section Steps

variable {N : Str → Str → Prop} {α : Type}

theorem note_alike {e e' : Event} (he : e.Alike N e') : RunAlike N Eq (note e) (note e') :=
  .of_modify fun _ _ hs => hs.note he

theorem lift_alike (x : Except Fault α) : RunAlike N Eq (lift x) (lift x) := by
  cases x with
  | ok a => exact .of_pure rfl
  | error e => exact .of_throw e

theorem print_alike (v : Value) : RunAlike N Eq (print v) (print v) :=
  (lift_alike v.toString).bind_eq fun _ => .of_pure rfl

theorem makeValue_alike (a : AnyVal) : RunAlike N Eq (makeValue a) (makeValue a) := by
  apply Lockstep.bind .of_get
  intro s s' hs
  rw [hs.tags]
  exact (Lockstep.of_modify fun _ _ hs => hs.dropTag).bind_eq fun _ =>
    (note_alike (.made _)).bind_eq fun _ => .of_pure rfl

theorem toNumberInt_alike (read : Str → Int32 → NumberRead) (text : Str) :
    RunAlike N Eq (toNumberInt read text) (toNumberInt read text) := by
  apply Lockstep.bind .of_get
  intro s s' hs
  rw [Machine.intOf, hs.errno]
  exact (Lockstep.of_modify fun _ _ hs => hs.readNumbers _).bind_eq fun _ => .of_pure rfl

theorem readStrings_alike (texts : List Str) :
    RunAlike N Eq (readStrings texts) (readStrings texts) :=
  .of_modify fun _ _ hs => hs.readNumbers _

theorem toIntOf_alike (v : Value) : RunAlike N Eq (toIntOf v) (toIntOf v) :=
  (readStrings_alike v.converted).bind_eq fun _ => lift_alike v.toInt

variable (hN : Spelling N)

include hN

/-! ### Variables -/

theorem moduleVar_alike {self self' name name' : Str} (hself : N self self')
    (hname : N name name') :
    RunAlike N (Option.Rel (Var.Alike N)) (Module.var self name) (Module.var self' name') := by
  apply Lockstep.bind .of_get
  intro s s' hs
  have hvar := (hs.ec.moduleAt hN hself).findVar hN hname
  -- Both modules have the variable, with one value, or neither has it.
  revert hvar
  cases (s.ec.moduleAt self).findVar name <;> cases (s'.ec.moduleAt self').findVar name' <;>
    rintro ⟨⟩
  · exact .of_pure .none
  · rename_i var var' hvar
    dsimp only
    rw [hvar.value]
    exact (print_alike var'.value_).bind_eq fun _ => .of_pure (.some hvar)

theorem moduleUpsert_alike {self self' name name' : Str} (hself : N self self')
    (hname : N name name') (value : Value) :
    RunAlike N Eq (Module.upsert self name value) (Module.upsert self' name' value) := by
  apply Lockstep.bind .of_get
  intro s s' hs
  -- Related deques are empty together.
  have hempty : (s.ec.scopes self).isEmpty = (s'.ec.scopes self').isEmpty := by
    have hscopes := hs.ec.scopes hN hself
    revert hscopes
    cases s.ec.scopes self <;> cases s'.ec.scopes self' <;> rintro ⟨⟩ <;> rfl
  rw [hempty]
  have hmodify : RunAlike N Eq
      (modify (Machine.mapContext · (Context.mapScopes · self (upsertScopes name value))))
      (modify (Machine.mapContext · (Context.mapScopes · self' (upsertScopes name' value)))) :=
    .of_modify fun _ _ hs => hs.mapContext fun _ _ hec =>
      hec.mapScopes hN hself fun _ _ hl => upsertScopes_alike hN hl hname value
  split_ifs
  · exact .of_throw _
  · exact hmodify

theorem split_alike {s s' : Machine} (hs : s.Alike N s') {name name' : Str} (hname : N name name') :
    ((splitPackageFromId name).1 ≠ [] ↔ (splitPackageFromId name').1 ≠ []) ∧
      s.ec.modules.contains (splitPackageFromId name).1 =
        s'.ec.modules.contains (splitPackageFromId name').1 :=
  have hsplit := hN.split name name' hname
  ⟨not_congr (hN.nil_iff _ _ hsplit.1), hs.ec.contains hN hsplit.1⟩

theorem contextUpsert_alike {name name' : Str} (hname : N name name') (value : Value) :
    RunAlike N Eq (Context.upsert name value) (Context.upsert name' value) := by
  apply Lockstep.bind .of_get
  intro s s' hs
  obtain ⟨hpkg, hmod⟩ := split_alike hN hs hname
  have hsplit := hN.split name name' hname
  -- Both names have a package or neither has, and both packages are there or neither is.
  simp only [hpkg, hmod]
  split_ifs
  · exact moduleUpsert_alike hN hsplit.1 hsplit.2 value
  · exact .of_pure rfl
  · exact moduleUpsert_alike hN (hs.ec.varModule hN hname) hname value

theorem contextVar_alike {name name' : Str} (hname : N name name') :
    RunAlike N (Option.Rel (Var.Alike N)) (Context.var name) (Context.var name') := by
  apply Lockstep.bind .of_get
  intro s s' hs
  obtain ⟨hpkg, hmod⟩ := split_alike hN hs hname
  have hsplit := hN.split name name' hname
  simp only [hpkg, hmod]
  split_ifs
  · exact moduleVar_alike hN hsplit.1 hsplit.2
  · exact .of_pure .none
  · exact moduleVar_alike hN (hs.ec.varModule hN hname) hname

theorem readVar_alike {name name' : Str} (hname : N name name') :
    RunAlike N (Option.Rel (Var.Alike N)) (readVar name) (readVar name') := by
  apply (contextVar_alike hN hname).bind
  intro r r' hr
  have hvalue : r.map Var.value_ = r'.map Var.value_ := by
    cases hr with
    | none => rfl
    | some hvar => exact congrArg some hvar.value
  rw [hvalue]
  exact (note_alike (.read _ hname)).bind_eq fun _ => .of_pure hr

end Steps

/-! ## Visits -/

/-- Two `FOR`s over related names, with related bodies. -/
structure ForLoop.Alike (N : Str → Str → Prop) (l l' : ForLoop) : Prop where
  owner : N l.owner l'.owner
  position : l.position = l'.position
  varname : N l.varname l'.varname
  stop : l.stop = l'.stop
  step : l.step = l'.step
  statements : List.Forall₂ (Stmt.Alike N) l.statements l'.statements

/-- Visits of related trees run alike. -/
structure Visitor.Alike (N : Str → Str → Prop) (v v' : Visitor) : Prop where
  expr : ∀ e e', e.Alike N e' → RunAlike N Eq (v.expr e) (v'.expr e')
  statements : ∀ b b', List.Forall₂ (Stmt.Alike N) b b' →
    RunAlike N Eq (v.statements b) (v'.statements b')
  iterate : ∀ l l', l.Alike N l' → ∀ i, RunAlike N Eq (v.iterate l i) (v'.iterate l' i)

section Visits

variable {N : Str → Str → Prop} (hN : Spelling N) {v v' : Visitor} (hv : v.Alike N v')

/-! ### Calls -/

include hN in
theorem pushScope_alike {owner owner' : Str} (howner : N owner owner') {sc sc' : Scope}
    (hsc : sc.Alike N sc') : RunAlike N Eq (pushScope owner sc) (pushScope owner' sc') :=
  .of_modify fun _ _ hs => hs.mapContext fun _ _ hec =>
    hec.mapScopes hN howner fun _ _ hl => List.rel_append hl (.cons hsc .nil)

include hN in
theorem popScope_alike {owner owner' : Str} (howner : N owner owner') :
    RunAlike N Eq (popScope owner) (popScope owner') :=
  .of_modify fun _ _ hs => hs.mapContext fun _ _ hec =>
    hec.mapScopes hN howner fun _ _ hl => forall₂_dropLast hl

include hv

theorem runBody_alike {self self' f f' : Str} (hself : N self self') (hf : N f f')
    {d d' : ProcedureDefinition} (hd : d.Alike N d') (params : List Value) :
    RunAlike N Eq (runBody v self f d params) (runBody v' self' f' d' params) := by
  refine (Lockstep.of_modify fun _ _ hs => hs.openBlock (.call hself hf)).bind_eq fun _ => ?_
  refine (note_alike (.enter params hf)).bind_eq fun _ => ?_
  refine (hv.statements _ _ hd.statements).bind_eq fun a => ?_
  refine (note_alike .bodyEnd).bind_eq fun _ => ?_
  exact (Lockstep.of_modify fun _ _ hs => hs.closeBlock).bind_eq fun _ => makeValue_alike a

omit hv in
theorem runNative_alike {f f' : Str} (hf : N f f') (cppFn : NativeFn) (params : List Value) :
    RunAlike N Eq (runNative f cppFn params) (runNative f' cppFn params) :=
  (note_alike (.native params hf)).bind_eq fun _ =>
    (readStrings_alike _).bind_eq fun _ => lift_alike _

include hN

theorem moduleCall_alike {self self' f f' : Str} (hself : N self self') (hf : N f f')
    (params : List Value) :
    RunAlike N Eq (Module.call v self f params) (Module.call v' self' f' params) := by
  apply Lockstep.bind .of_get
  intro s s' hs
  -- The function is unknown to both modules, or it is related functions that are called.
  have hfn := (hs.ec.moduleAt hN hself).findFn hN hf
  revert hfn
  cases (s.ec.moduleAt self).functions.find? f <;>
    cases (s'.ec.moduleAt self').functions.find? f' <;> rintro ⟨⟩
  · exact .of_pure rfl
  rename_i fn fn' hfn
  have hend : ∀ result, RunAlike N Eq
      (do print result; popScope self; note (.leave result); return result)
      (do print result; popScope self'; note (.leave result); return result) := fun result =>
    (print_alike result).bind_eq fun _ => (popScope_alike hN hself).bind_eq fun _ =>
      (note_alike (.leave result)).bind_eq fun _ => .of_pure rfl
  have hempty : Scope.Alike N ⟨f, ∅⟩ ⟨f', ∅⟩ := ⟨hf, .empty⟩
  have hbody := hfn.body
  dsimp only
  -- Related functions are of one type, and have as many parameters.
  revert hbody
  cases fn.body <;> cases fn'.body <;> rintro ⟨⟩
  · exact (pushScope_alike hN hself hempty).bind_eq fun _ =>
      (runNative_alike hf _ params).bind_eq hend
  · rename_i hd
    dsimp only
    rw [hfn.params.length_eq]
    split_ifs
    · exact .of_pure rfl
    · exact (pushScope_alike hN hself (bindParams_alike hN hempty hfn.params params)).bind_eq
        fun _ => (runBody_alike hv hself hf hd params).bind_eq hend

theorem contextCall_alike {f f' : Str} (hf : N f f') (params : List Value) :
    RunAlike N Eq (Context.call v f params) (Context.call v' f' params) := by
  apply Lockstep.bind .of_get
  intro s s' hs
  obtain ⟨hpkg, hmod⟩ := split_alike hN hs hf
  have hsplit := hN.split f f' hf
  simp only [hpkg, hmod, (hs.ec.moduleAt hN hs.ec.module).hasFn hN hf,
    (hs.ec.moduleAt hN hs.ec.root).hasFn hN hf]
  split_ifs
  · exact moduleCall_alike hN hv hsplit.1 hsplit.2 params
  · exact .of_pure rfl
  · exact moduleCall_alike hN hv hs.ec.root hf params
  · exact moduleCall_alike hN hv hs.ec.module hf params

/-! ### Expressions -/

omit hN in
theorem visitOperand_alike {e e' : Expr} (he : e.Alike N e') :
    RunAlike N Eq (visitOperand v e) (visitOperand v' e') :=
  (hv.expr e e' he).bind_eq makeValue_alike

omit hN in
theorem visitParameterList_alike {es es' : List Expr} (hes : List.Forall₂ (Expr.Alike N) es es') :
    RunAlike N Eq (visitParameterList v es) (visitParameterList v' es') := by
  induction hes with
  | nil => exact .of_pure rfl
  | cons he _ ih =>
    exact (visitOperand_alike hv he).bind_eq fun _ => ih.bind_eq fun _ => .of_pure rfl

theorem visitProcedureCall_alike {f f' : Str} (hf : N f f') {es es' : List Expr}
    (hes : List.Forall₂ (Expr.Alike N) es es') :
    RunAlike N Eq (visitProcedureCall v f es) (visitProcedureCall v' f' es') :=
  (visitParameterList_alike hv hes).bind_eq fun params =>
    (contextCall_alike hN hv hf params).bind_eq fun val =>
      (Lockstep.of_modify fun _ _ hs => hs.setReturn false).bind_eq fun _ => lift_alike val.toAny

omit hN in
theorem visitRelation_alike (op : RelationalOperator) {e₀ e₀' e₁ e₁' : Expr}
    (h₀ : e₀.Alike N e₀') (h₁ : e₁.Alike N e₁') :
    RunAlike N Eq (visitRelation v op e₀ e₁) (visitRelation v' op e₀' e₁') :=
  (visitOperand_alike hv h₀).bind_eq fun left => (visitOperand_alike hv h₁).bind_eq fun right =>
    (readStrings_alike _).bind_eq fun _ => (lift_alike _).bind_eq fun _ =>
      (print_alike left).bind_eq fun _ => (print_alike right).bind_eq fun _ => .of_pure rfl

omit hN in
theorem visitBinary_alike (eval : Value → Value → Except Fault Value)
    (converted : Value → Value → List Str) {e₀ e₀' e₁ e₁' : Expr} (h₀ : e₀.Alike N e₀')
    (h₁ : e₁.Alike N e₁') :
    RunAlike N Eq (visitBinary v eval converted e₀ e₁) (visitBinary v' eval converted e₀' e₁') :=
  (visitOperand_alike hv h₀).bind_eq fun left => (visitOperand_alike hv h₁).bind_eq fun right =>
    (readStrings_alike _).bind_eq fun _ => (lift_alike _).bind_eq fun result =>
      (print_alike left).bind_eq fun _ => (print_alike right).bind_eq fun _ =>
        (print_alike result).bind_eq fun _ => lift_alike result.toAny

omit hv in
theorem visitRvalue_alike {a a' : Str} (ha : N a a') :
    RunAlike N Eq (visitRvalue a) (visitRvalue a') := by
  refine (note_alike (.ident ha)).bind_eq fun _ => (readVar_alike hN ha).bind fun r r' hr => ?_
  cases hr with
  | none => exact .of_pure rfl
  | some hvar =>
    dsimp only
    rw [hvar.value]
    exact lift_alike _

theorem visitExpr_alike {e e' : Expr} (he : e.Alike N e') :
    RunAlike N Eq (visitExpr v e) (visitExpr v' e') := by
  cases he with
  | relation op h₀ h₁ => exact visitRelation_alike hv op h₀ h₁
  | mulDiv op h₀ h₁ => exact visitBinary_alike hv _ _ h₀ h₁
  | addSub op h₀ h₁ => exact visitBinary_alike hv _ _ h₀ h₁
  | procCall hf hes => exact visitProcedureCall_alike hN hv hf hes
  | parens => exact (note_alike .parens).bind_eq fun _ => .of_pure rfl
  | ident ha => exact visitRvalue_alike hN ha
  | int text => exact (toNumberInt_alike .int text).bind_eq fun _ => .of_pure rfl
  | string => exact .of_pure rfl
  | boolean => exact .of_pure rfl

/-! ### Statements -/

omit hN in
theorem visitCondition_alike {e e' : Expr} (he : e.Alike N e') :
    RunAlike N Eq (visitCondition v e) (visitCondition v' e') := by
  apply (hv.expr e e' he).bind_eq
  intro a
  cases a with
  | bool b => exact .of_pure rfl
  | empty | int | string => exact .of_throw _

theorem visitAssignExpr_alike {a a' : Str} (ha : N a a') {e e' : Expr} (he : e.Alike N e') :
    RunAlike N Eq (visitAssignExpr v a e) (visitAssignExpr v' a' e') :=
  (visitOperand_alike hv he).bind_eq fun value => (print_alike value).bind_eq fun _ =>
    (note_alike (.assign value ha)).bind_eq fun _ =>
      (contextUpsert_alike hN ha value).bind_eq fun _ => .of_pure rfl

omit hv in
theorem visitAssignRvalue_alike {a a' b b' : Str} (ha : N a a') (hb : N b b') :
    RunAlike N Eq (visitAssignRvalue a b) (visitAssignRvalue a' b') := by
  apply (readVar_alike hN hb).bind
  intro r r' hr
  cases hr with
  | none => exact .of_pure rfl
  | some hvar =>
    dsimp only
    rw [hvar.value]
    exact (print_alike _).bind_eq fun _ => (note_alike (.assign _ ha)).bind_eq fun _ =>
      (contextUpsert_alike hN ha _).bind_eq fun _ => .of_pure rfl

omit hN in
/-- A condition with the statements it guards, and what is done when it fails. -/
theorem visitGuarded_alike {e e' : Expr} (he : e.Alike N e') {b b' : List Stmt}
    (hb : List.Forall₂ (Stmt.Alike N) b b') {m m' : Eval AnyVal} (hm : RunAlike N Eq m m') :
    RunAlike N Eq (do if ← visitCondition v e then v.statements b else m)
      (do if ← visitCondition v' e' then v'.statements b' else m') := by
  apply (visitCondition_alike hv he).bind_eq
  intro c
  cases c with
  | true => exact hv.statements b b' hb
  | false => exact hm

omit hN in
theorem visitIfThenElseIfElse_alike {o o' : List Stmt} (ho : List.Forall₂ (Stmt.Alike N) o o')
    {c c' : List (Expr × List Stmt)} (hc : Clauses.Alike N c c') :
    RunAlike N Eq (visitIfThenElseIfElseStatement v o c)
      (visitIfThenElseIfElseStatement v' o' c') := by
  -- By induction on the clauses: the conditions have equal results.
  induction c generalizing c' with
  | nil =>
    cases hc
    exact hv.statements o o' ho
  | cons clause c ih =>
    cases hc with
    | cons he hb hc => exact visitGuarded_alike hv he hb (ih hc)

omit hv in
theorem setLoopVar_alike {l l' : ForLoop} (hl : l.Alike N l') (i : Int32) :
    RunAlike N Eq (setLoopVar l i) (setLoopVar l' i) := by
  refine .of_modify fun s s' hs => hs.mapContext fun _ _ hec =>
    hec.mapScopes hN hl.owner fun _ _ hscopes => ?_
  rw [hl.position]
  exact forall₂_modify hscopes (fun _ _ hsc => hsc.assign hN hl.varname _) _

omit hv in
theorem getLoopVar_alike {l l' : ForLoop} (hl : l.Alike N l') :
    RunAlike N Eq (getLoopVar l) (getLoopVar l') := by
  refine .bind .of_get fun s s' hs => .of_pure ?_
  have hsc := forall₂_getElem? (hs.ec.scopes hN hl.owner) l'.position
  rw [hl.position]
  revert hsc
  cases (s.ec.scopes l.owner)[l'.position]? <;> cases (s'.ec.scopes l'.owner)[l'.position]? <;>
    rintro ⟨⟩
  · rfl
  · rename_i hsc
    rw [Option.bind_some, Option.bind_some, hsc.value? hN hl.varname]

theorem iterateFor_alike {l l' : ForLoop} (hl : l.Alike N l') (current : Int32) :
    RunAlike N Eq (iterateFor v l current) (iterateFor v' l' current) := by
  unfold iterateFor
  rw [hl.stop, hl.step]
  apply (toIntOf_alike _).bind_eq
  intro stop
  split_ifs
  · exact .of_pure rfl
  · exact (setLoopVar_alike hN hl current).bind_eq fun _ =>
      (hv.statements _ _ hl.statements).bind_eq fun _ => (getLoopVar_alike hN hl).bind_eq fun _ =>
        (toIntOf_alike _).bind_eq fun _ => (lift_alike _).bind_eq fun next =>
          hv.iterate l l' hl next

theorem runLoop_alike {l l' : ForLoop} (hl : l.Alike N l') (start : Value) :
    RunAlike N Eq (runLoop v l start) (runLoop v' l' start) := by
  unfold runLoop
  rw [hl.stop]
  exact (toIntOf_alike _).bind_eq fun current =>
    (iterateFor_alike hN hv hl current).bind_eq fun _ => (toIntOf_alike _).bind_eq fun last =>
      (setLoopVar_alike hN hl last).bind_eq fun _ =>
        (hv.statements _ _ hl.statements).bind_eq fun _ => .of_pure rfl

theorem visitForStatement_alike {a a' : Str} (ha : N a a') {e₀ e₀' e₁ e₁' : Expr}
    (h₀ : e₀.Alike N e₀') (h₁ : e₁.Alike N e₁') (step : Option Str) {b b' : List Stmt}
    (hb : List.Forall₂ (Stmt.Alike N) b b') :
    RunAlike N Eq (visitForStatement v a e₀ e₁ step b)
      (visitForStatement v' a' e₀' e₁' step b') := by
  have hstep : RunAlike N Eq (forStep step) (forStep step) := by
    cases step with
    | none => exact .of_pure rfl
    | some text => exact toNumberInt_alike .step text
  refine hstep.bind_eq fun step => (visitOperand_alike hv h₀).bind_eq fun start =>
    (visitOperand_alike hv h₁).bind_eq fun stop => .bind .of_get fun s s' hs => ?_
  -- The two variables live at one position of related deques.
  have hl : ForLoop.Alike N ⟨s.ec.module, (s.ec.scopes s.ec.module).length, a, stop, step, b⟩
      ⟨s'.ec.module, (s'.ec.scopes s'.ec.module).length, a', stop, step, b'⟩ :=
    ⟨hs.ec.module, (hs.ec.scopes hN hs.ec.module).length_eq, ha, rfl, rfl, hb⟩
  -- The name of the scope is related, being `FOR ` and the name of the variable.
  have hsc : Scope.Alike N ⟨forText ++ a, ∅⟩ ⟨forText ++ a', ∅⟩ := ⟨hN.append _ _ _ ha, .empty⟩
  exact (note_alike (.loopVar ha)).bind_eq fun _ =>
    (pushScope_alike hN hl.owner (hsc.insertOrAssign hN ha start)).bind_eq fun _ =>
      (Lockstep.of_modify fun _ _ hs => hs.openBlock (.loop ha)).bind_eq fun _ =>
        (runLoop_alike hN hv hl start).bind_eq fun _ =>
          (Lockstep.of_modify fun _ _ hs => hs.closeBlock).bind_eq fun _ =>
            (popScope_alike hN hl.owner).bind_eq fun _ => .of_pure rfl

omit hN in
theorem visitReturnStatement_alike {e e' : Expr} (he : e.Alike N e') :
    RunAlike N Eq (visitReturnStatement v e) (visitReturnStatement v' e') :=
  (hv.expr e e' he).bind_eq fun result => (makeValue_alike result).bind_eq fun value =>
    (print_alike value).bind_eq fun _ => (note_alike (.ret result)).bind_eq fun _ =>
      (Lockstep.of_modify fun _ _ hs => hs.setReturn true).bind_eq fun _ => .of_pure rfl

theorem visitAlternative_alike {stmt stmt' : Stmt} (h : stmt.Alike N stmt') :
    RunAlike N Eq (visitAlternative v stmt) (visitAlternative v' stmt') := by
  cases h with
  | assignRvalue ha hb => exact visitAssignRvalue_alike hN ha hb
  | assignExpr ha he => exact visitAssignExpr_alike hN hv ha he
  | ifThen he hb => exact visitGuarded_alike hv he hb (.of_pure rfl)
  | ifThenElse he hb ho => exact visitGuarded_alike hv he hb (hv.statements _ _ ho)
  | ifThenElseIfElse hc ho => exact visitIfThenElseIfElse_alike hv ho hc
  | forStatement step ha h₀ h₁ hb => exact visitForStatement_alike hN hv ha h₀ h₁ step hb
  | procedureCall hf hes =>
    exact (visitProcedureCall_alike hN hv hf hes).bind_eq fun _ => .of_pure rfl
  | returnStatement he => exact visitReturnStatement_alike hv he
  | emptyStatement => exact .of_pure rfl

theorem visitStatement_alike {stmt stmt' : Stmt} (h : stmt.Alike N stmt') :
    RunAlike N Eq (visitStatement v stmt) (visitStatement v' stmt') :=
  (note_alike .statement).bind_eq fun _ => visitAlternative_alike hN hv h

theorem visitStatements_alike {b b' : List Stmt} (h : List.Forall₂ (Stmt.Alike N) b b')
    (result : AnyVal) :
    RunAlike N Eq (visitStatements v result b) (visitStatements v' result b') := by
  induction h generalizing result with
  | nil => exact .of_pure rfl
  | cons hstmt _ ih =>
    refine (visitStatement_alike hN hv hstmt).bind_eq fun result =>
      .bind .of_get fun s s' hs => ?_
    -- The flags are equal, so that both blocks end here or both go on.
    rw [hs.return_]
    split_ifs
    · exact .of_pure rfl
    · exact ih result

end Visits

/-! ## Programs -/

section Programs

variable {N : Str → Str → Prop} (hN : Spelling N)

include hN

/-- **The visitor runs alike on related trees**, at every fuel. -/
theorem visitor_alike (n : ℕ) : (visitor n).Alike N (visitor n) := by
  induction n with
  | zero => exact ⟨fun _ _ _ => .of_throw _, fun _ _ _ => .of_throw _, fun _ _ _ _ => .of_throw _⟩
  | succ n ih =>
    exact ⟨fun _ _ he => visitExpr_alike hN ih he,
      fun _ _ hb => visitStatements_alike hN ih hb .empty,
      fun _ _ hl i => iterateFor_alike hN ih hl i⟩

theorem visitItem_alike (n : ℕ) {item item' : Item} (h : item.Alike N item') :
    RunAlike N Eq (visitItem (visitor n) item) (visitItem (visitor n) item') := by
  cases h with
  | statement hs =>
    exact (visitStatement_alike hN (visitor_alike hN n) hs).bind_eq fun _ => .of_pure rfl
  | importModule ha =>
    exact .of_modify fun _ _ hs => hs.mapContext fun _ _ hec => hec.importModule hN ha
  | procedureDefinition | importFile | moduleDefinition => exact .of_pure rfl

theorem visitItems_alike (n : ℕ) {items items' : List Item}
    (h : List.Forall₂ (Item.Alike N) items items') :
    RunAlike N Eq (visitItems (visitor n) items) (visitItems (visitor n) items') := by
  induction h with
  | nil => exact .of_pure rfl
  | cons hitem _ ih =>
    exact (note_alike .item).bind_eq fun _ => (visitItem_alike hN n hitem).bind_eq fun _ => ih

end Programs

end WwivBasic
