import WwivBasic.Lockstep

/-!
# The case of letters

Variables, procedures, modules and packages are found by `strcasecmp`. Two programs whose names
differ only in the case of their letters register related procedures, and run alike.

## Main definitions

* `Machine.nativeArgs`, `Machine.results`: the arguments of native functions and the results of
  calls, in the order of the run

## Main results

* `basicrun_alike`: the two passes over related programs
* `letter_case`: programs that differ in the case of their names have the same outcome
-/

namespace WwivBasic

open EStateM

/-! ## What a run shows -/

/-- The arguments of a native function that is run at the point. -/
def Event.nativeArgs? : Event → Option (List Value)
  | .native _ args => some args
  | _ => none

/-- The result of a call that ends at the point. -/
def Event.result? : Event → Option Value
  | .leave result => some result
  | _ => none

/-- The arguments passed to native functions, in order. -/
def Machine.nativeArgs (s : Machine) : List (List Value) :=
  s.trace.filterMap fun p => p.event.nativeArgs?

/-- The results of calls, of native functions and of procedures, in order. -/
def Machine.results (s : Machine) : List Value :=
  s.trace.filterMap fun p => p.event.result?

section Observations

variable {N : Str → Str → Prop} {α : Type} {f : Event → Option α}

/-- What no item shows is seen in the history. -/
theorem filterMap_history (hitem : f .item = none) (s : Machine) :
    s.trace.filterMap (fun p => f p.event) = s.history.filterMap fun p => f p.event := by
  rw [Machine.history, List.filterMap_filter]
  apply List.filterMap_congr
  intro p _
  cases he : p.event <;> simp [Event.isItem, hitem]

theorem filterMap_alike (hf : ∀ e e', Event.Alike N e e' → f e = f e') {l l' : List Point}
    (h : List.Forall₂ (Point.Alike N) l l') :
    (l.filterMap fun p => f p.event) = l'.filterMap fun p => f p.event := by
  induction h with
  | nil => rfl
  | cons hp _ ih =>
    rw [List.filterMap_cons, List.filterMap_cons, hf _ _ hp.event, ih]

theorem Machine.Alike.nativeArgs {s s' : Machine} (h : s.Alike N s') :
    s.nativeArgs = s'.nativeArgs := by
  rw [Machine.nativeArgs, Machine.nativeArgs, filterMap_history rfl, filterMap_history rfl]
  exact filterMap_alike (fun _ _ he => by cases he <;> rfl) h.history

theorem Machine.Alike.results {s s' : Machine} (h : s.Alike N s') : s.results = s'.results := by
  rw [Machine.results, Machine.results, filterMap_history rfl, filterMap_history rfl]
  exact filterMap_alike (fun _ _ he => by cases he <;> rfl) h.history

end Observations

/-! ## The two passes -/

section Passes

variable {N : Str → Str → Prop} (hN : Spelling N)

theorem start_alike {ec ec' : Context} (h : ec.Alike N ec') (tags : ℕ → ValueType) :
    (Machine.start ec tags).Alike N (Machine.start ec' tags) :=
  ⟨h, rfl, rfl, rfl, .nil, rfl, .nil⟩

include hN

theorem register_alike {ec ec' : Context} (h : ec.Alike N ec') (host : List Registration) :
    (ec.register host).Alike N (ec'.register host) := by
  induction host generalizing ec ec' with
  | nil => exact h
  | cons r host ih =>
    apply ih
    cases r with
    | native name fn =>
      refine h.mapModule hN h.root fun m m' hm => ⟨hm.scopes, ?_, hm.importedModules⟩
      exact hm.functions.insertOrAssign hN.strcasecmp (hN.refl name)
        ⟨hN.refl name, .native fn, .nil⟩
    | module name m =>
      exact ⟨h.modules.insertOrAssign hN.strcasecmp (hN.refl name) (.refl hN m), h.root, h.module⟩

/-- The definition pass over one item: it fails for both, or registers related procedures. -/
theorem visitItem_definitions_alike {ec ec' : Context} (h : ec.Alike N ec') {item item' : Item}
    (hitem : item.Alike N item') :
    Except.RelResult (Context.Alike N) (FunctionDefVisitor.visitItem ec item)
      (FunctionDefVisitor.visitItem ec' item') := by
  cases hitem with
  | @procedureDefinition d d' hd =>
    have hparams := hd.params
    simp only [FunctionDefVisitor.visitItem, FunctionDefVisitor.visitProcedureDefinition]
    -- Without parameters both passes fail, and else both register.
    revert hparams
    cases d.parameterDefinitionList <;> cases d'.parameterDefinitionList <;> intro hparams
    · exact .error _
    · cases hparams
    · cases hparams
    · refine .ok (h.mapModule hN h.module fun m m' hm => ⟨hm.scopes, ?_, hm.importedModules⟩)
      exact hm.functions.insertOrAssign hN.strcasecmp hd.name ⟨hd.name, .basic hd, hparams⟩
  | moduleDefinition ha =>
    have hname := hN.removeQuotes _ _ ha
    apply Except.RelResult.ok
    unfold FunctionDefVisitor.visitModuleDefinition
    dsimp only
    -- The module is new to both contexts, or to neither.
    rw [h.contains hN hname]
    split_ifs
    · exact h
    · exact ⟨h.modules.emplace hN.strcasecmp hname (.refl hN {}), h.root, hname⟩
  | statement | importModule | importFile => exact .ok h

theorem visitMain_definitions_alike {ec ec' : Context} (h : ec.Alike N ec') {items items' : List Item}
    (hitems : List.Forall₂ (Item.Alike N) items items') :
    Except.RelResult (Context.Alike N) (FunctionDefVisitor.visitMain ec items)
      (FunctionDefVisitor.visitMain ec' items') := by
  induction hitems generalizing ec ec' with
  | nil => exact .ok h
  | cons hitem _ ih => exact (visitItem_definitions_alike hN h hitem).bind fun _ _ hec => ih hec

/-- **The two passes over related programs run alike.** -/
theorem basicrun_alike (n : ℕ) (host : List Registration)
    (ec : Context) (tags : ℕ → ValueType) {items items' : List Item}
    (h : List.Forall₂ (Item.Alike N) items items') :
    let r := basicrun n (·.register host) ec tags items
    let r' := basicrun n (·.register host) ec tags items'
    r.error? = r'.error? ∧ r.final.Alike N r'.final := by
  intro r r'
  have hpass := visitMain_definitions_alike hN (.refl hN ec) h
  have hr : r = basicrun n (·.register host) ec tags items := rfl
  have hr' : r' = basicrun n (·.register host) ec tags items' := rfl
  unfold basicrun at hr hr'
  -- The definition pass stops both programs, or neither.
  revert hpass hr hr'
  cases FunctionDefVisitor.visitMain ec items <;> cases FunctionDefVisitor.visitMain ec items' <;>
    rintro ⟨⟩ hr hr'
  · rw [hr, hr']
    exact ⟨rfl, start_alike (.refl hN ec) tags⟩
  · rename_i hec
    have hrun : RunAlike N Eq (visitMain (visitor n) items) (visitMain (visitor n) items') :=
      (Lockstep.of_modify fun _ _ hs => hs.mapContext fun _ _ hec => hec.toRoot).bind_eq
        fun _ => visitItems_alike hN n h
    rw [hr, hr']
    exact hrun.final (start_alike (register_alike hN hec host) tags)

end Passes

/-- **Programs that differ only in the case of their names have the same outcome**: they end
alike, pass the same arguments to native functions and get the same results from calls, and
their final scopes bind the same names, up to case, to the same values. -/
theorem letter_case (n : ℕ) (host : List Registration)
    (ec : Context) (tags : ℕ → ValueType) (items items' : List Item)
    (h : List.Forall₂ (Item.Alike SameLetters) items items') :
    let r := basicrun n (·.register host) ec tags items
    let r' := basicrun n (·.register host) ec tags items'
    r.error? = r'.error? ∧ r.final.nativeArgs = r'.final.nativeArgs ∧
      r.final.results = r'.final.results ∧
      ∀ key, List.Forall₂ (Scope.Alike SameLetters) (r.final.ec.scopes key)
        (r'.final.ec.scopes key) := by
  obtain ⟨herror, hfinal⟩ := basicrun_alike .sameLetters n host ec tags h
  exact ⟨herror, hfinal.nativeArgs, hfinal.results,
    fun key => hfinal.ec.scopes .sameLetters (SameLetters.refl key)⟩

/-- A procedure that prints its parameter, and its call from a `FOR`; `v` spells the variable. -/
def printInLoop (f v : Str) : List Item :=
  [.procedureDefinition ⟨f, [v], [.procedureCall ['p'] [.ident v], .returnStatement (.ident v)]⟩,
    .statement (.forStatement v (.int ['1']) (.int ['2']) none
      [.assignExpr ['r'] (.procCall f [.ident v])])]

/-- A host with one function `p`, which returns its first argument. -/
def printHost : List Registration :=
  [.native ['p'] { run := fun args => .ok (args.headD Value.default) }]

theorem letter_case_printInLoop :
    let r := basicrun 9 (·.register printHost) Context.init (fun _ => .invalid)
      (printInLoop ['f'] ['i'])
    let r' := basicrun 9 (·.register printHost) Context.init (fun _ => .invalid)
      (printInLoop ['F'] ['I'])
    (r.error? = none ∧ r.final.nativeArgs = [[Value.ofInt 1], [Value.ofInt 2]]) ∧
      r'.error? = none ∧ r'.final.nativeArgs = [[Value.ofInt 1], [Value.ofInt 2]] := by
  intro r r'
  have hn : SameLetters ['f'] ['F'] := rfl
  have hv : SameLetters ['i'] ['I'] := rfl
  have hcase := letter_case 9 printHost Context.init (fun _ => .invalid) (printInLoop ['f'] ['i'])
    (printInLoop ['F'] ['I']) (.cons (.procedureDefinition ⟨hn, .cons hv .nil,
      .cons (.procedureCall rfl (.cons (.ident hv) .nil)) (.cons (.returnStatement (.ident hv)) .nil)⟩)
      (.cons (.statement (.forStatement none hv (.int _) (.int _)
        (.cons (.assignExpr rfl (.procCall hn (.cons (.ident hv) .nil))) .nil))) .nil))
  have hrun : r.error? = none ∧ r.final.nativeArgs = [[Value.ofInt 1], [Value.ofInt 2]] := by
    decide +kernel
  exact ⟨hrun, hcase.1.symm.trans hrun.1, hcase.2.1.symm.trans hrun.2⟩

end WwivBasic
