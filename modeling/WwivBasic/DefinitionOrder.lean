import Mathlib.Data.List.Pairwise
import WwivBasic.LetterCase

/-!
# The order of definitions

The definition pass registers each procedure under its own name, in the current module, which only
a `MODULE` item changes; the execution does nothing at a definition. So the definitions of a
program may stand anywhere among its top-level items, before or after the calls.

## Main definitions

* `Item.definition?`: the procedure an item defines
* `FunctionDefVisitor.register`: the registration of a procedure

## Main results

* `visitMain_of_perm`: the definition pass, on definitions in another order
* `visitItems_skip`: the execution, on a program without its definitions
* `definition_order`: a program runs alike wherever its definitions stand
-/

namespace WwivBasic

open EStateM

/-- The procedure that an item defines. -/
def Item.definition? : Item → Option ProcedureDefinition
  | .procedureDefinition d => some d
  | _ => none

/-- Whether the item is a `DEF`. -/
def Item.isDefinition (item : Item) : Bool := item.definition?.isSome

/-- Whether the item is a `MODULE`. -/
def Item.isModule : Item → Bool
  | .moduleDefinition _ => true
  | _ => false

theorem Item.definition?_eq_some_iff {item : Item} {d : ProcedureDefinition} :
    item.definition? = some d ↔ item = .procedureDefinition d := by
  cases item <;> simp [definition?]

/-! ## The definition pass -/

namespace FunctionDefVisitor

/-- The context with a procedure registered in its current module. -/
def register (ec : Context) (d : ProcedureDefinition) : Context :=
  ec.mapModule ec.module fun m => { m with
    functions := m.functions.insertOrAssign d.procedureName
      ⟨d.procedureName, .basic d, d.parameterDefinitionList⟩ }

theorem visitItem_definition (ec : Context) (d : ProcedureDefinition) :
    visitItem ec (.procedureDefinition d) =
      if d.parameterDefinitionList = [] then .error .nullDereference else .ok (register ec d) := by
  rw [visitItem, visitProcedureDefinition]
  unfold register
  cases d.parameterDefinitionList <;> rfl

theorem visitItem_other (ec : Context) {item : Item} (hd : item.definition? = none)
    (hm : item.isModule = false) : visitItem ec item = .ok ec := by
  cases item with
  | procedureDefinition => cases hd
  | moduleDefinition => cases hm
  | statement | importModule | importFile => rfl

/-- The pass over items without a `MODULE`: it registers the procedures, in order, and completes
when each has a parameter. -/
theorem visitMain_eq_ok_iff (ec ec₁ : Context) (items : List Item)
    (hm : ∀ item ∈ items, item.isModule = false) :
    visitMain ec items = .ok ec₁ ↔
      (∀ d ∈ items.filterMap Item.definition?, d.parameterDefinitionList ≠ []) ∧
        (items.filterMap Item.definition?).foldl register ec = ec₁ := by
  induction items generalizing ec with
  | nil => simp [visitMain]
  | cons item items ih =>
    obtain ⟨hitem, hitems⟩ := List.forall_mem_cons.mp hm
    -- A definition registers, and fails without a parameter; other items do nothing.
    cases hd : item.definition? with
    | none =>
      rw [visitMain, visitItem_other ec hd hitem, List.filterMap_cons_none hd]
      exact ih ec hitems
    | some d =>
      obtain rfl := Item.definition?_eq_some_iff.mp hd
      rw [visitMain, visitItem_definition, List.filterMap_cons_some hd, List.forall_mem_cons,
        List.foldl_cons, and_assoc]
      split_ifs with hparams
      · exact iff_of_false (fun h => by cases h) fun h => h.1 hparams
      · exact (ih _ hitems).trans (and_iff_right hparams).symm

/-- Registrations of different names commute. -/
theorem register_comm (ec : Context) {d d' : ProcedureDefinition}
    (h : strcasecmp d.procedureName d'.procedureName ≠ .eq) :
    register (register ec d) d' = register (register ec d') d := by
  -- Both procedures are registered in the current module, which stays the same.
  have hmodules : (register (register ec d) d').modules = (register (register ec d') d).modules := by
    show ((ec.modules.modify ec.module _).modify ec.module _) =
      (ec.modules.modify ec.module _).modify ec.module _
    rw [OrderedMap.modify_modify, OrderedMap.modify_modify]
    congr 1
    funext m
    dsimp only
    rw [OrderedMap.insertOrAssign, OrderedMap.insertOrAssign, OrderedMap.insertOrAssign,
      OrderedMap.insertOrAssign, OrderedMap.insertWith_comm _ h]
  exact Context.ext hmodules rfl rfl

theorem foldl_register_perm {ds ds' : List ProcedureDefinition} (hp : ds.Perm ds')
    (hd : ds.Pairwise fun d d' => strcasecmp d.procedureName d'.procedureName ≠ .eq)
    (ec : Context) : ds.foldl register ec = ds'.foldl register ec := by
  refine hp.foldl_eq' (fun d hdm d' hdm' ec => ?_) ec
  by_cases heq : d = d'
  · rw [heq]
  · have : Std.Symm fun d d' : ProcedureDefinition =>
        strcasecmp d.procedureName d'.procedureName ≠ .eq :=
      ⟨fun _ _ h h' => h (Std.OrientedCmp.eq_symm h')⟩
    exact register_comm ec (hd.forall hdm hdm' heq)

/-- **The definition pass does not see the order of definitions of different names.** -/
theorem visitMain_of_perm {ec ec₁ : Context} {items items' : List Item}
    (hm : ∀ item ∈ items, item.isModule = false) (hm' : ∀ item ∈ items', item.isModule = false)
    (hd : (items.filterMap Item.definition?).Pairwise fun d d' =>
      strcasecmp d.procedureName d'.procedureName ≠ .eq)
    (hp : (items.filterMap Item.definition?).Perm (items'.filterMap Item.definition?))
    (h : visitMain ec items = .ok ec₁) : visitMain ec items' = .ok ec₁ := by
  obtain ⟨hparams, hfold⟩ := (visitMain_eq_ok_iff ec ec₁ items hm).mp h
  refine (visitMain_eq_ok_iff ec ec₁ items' hm').mpr ⟨fun d hd' => ?_, ?_⟩
  · exact hparams d (hp.mem_iff.mpr hd')
  · rw [← foldl_register_perm hp hd, hfold]

end FunctionDefVisitor

/-! ## The execution -/

/-- **The execution does nothing at a definition.** -/
theorem visitItems_skip (n : ℕ) (items : List Item) :
    RunAlike Eq Eq (visitItems (visitor n) items)
      (visitItems (visitor n) (items.filter fun item => !item.isDefinition)) := by
  induction items with
  | nil => exact .of_pure rfl
  | cons item items ih =>
    cases hd : item.definition? with
    | none =>
      rw [List.filter_cons_of_pos (by rw [Item.isDefinition, hd]; rfl)]
      exact (note_alike .item).bind_eq fun _ =>
        (visitItem_alike .eq n (.refl .eq item)).bind_eq fun _ => ih
    | some d =>
      rw [List.filter_cons_of_neg (by rw [Item.isDefinition, hd]; exact Bool.false_ne_true)]
      obtain rfl := Item.definition?_eq_some_iff.mp hd
      intro s s' hs
      -- The definition only passes a point that the history does not keep.
      have hnote : (s.note .item).Alike Eq s' := by
        refine ⟨hs.ec, hs.return_, hs.errno, hs.tags, hs.nest, hs.numbers, ?_⟩
        rw [Machine.history_note]
        exact (List.append_nil _).symm ▸ hs.history
      exact ih (s.note .item) s' hnote

/-! ## Data with equal names -/

theorem Var.Alike.eq {v v' : Var} (h : v.Alike Eq v') : v = v' := by
  obtain ⟨hname, hvalue⟩ := h
  cases v
  cases v'
  simp_all

theorem Scope.Alike.eq {sc sc' : Scope} (h : sc.Alike Eq sc') : sc = sc' := by
  obtain ⟨hname, hvars⟩ := h
  have hentries : sc.localVars.entries = sc'.localVars.entries :=
    List.forall₂_eq_eq_eq ▸ hvars.imp fun _ _ he => Prod.ext he.1 he.2.eq
  cases sc
  cases sc'
  cases hname
  exact congrArg _ (OrderedMap.ext hentries)

theorem Machine.Alike.scopes_eq {s s' : Machine} (h : s.Alike Eq s') (key : Str) :
    s.ec.scopes key = s'.ec.scopes key := by
  have hscopes := (h.ec.scopes .eq (rfl : key = key)).imp fun _ _ hsc => hsc.eq
  rwa [List.forall₂_eq_eq_eq] at hscopes

/-! ## Programs -/

theorem visitMain_skip (n : ℕ) (items : List Item) :
    RunAlike Eq Eq (visitMain (visitor n) items)
      (visitMain (visitor n) (items.filter fun item => !item.isDefinition)) :=
  (Lockstep.of_modify fun _ _ hs => hs.mapContext fun _ _ hec => hec.toRoot).bind_eq
    fun _ => visitItems_skip n items

/-- A program has a `MODULE` when it has one among the items that are no definitions. -/
theorem isModule_of_filter_eq {items items' : List Item}
    (hrest : (items'.filter fun item => !item.isDefinition) =
      items.filter fun item => !item.isDefinition)
    (hmodule : ∀ item ∈ items, item.isModule = false) :
    ∀ item ∈ items', item.isModule = false := by
  intro item hitem
  cases hd : item.definition? with
  | some d =>
    rw [Item.definition?_eq_some_iff.mp hd]
    rfl
  | none =>
    have hkept : item ∈ items'.filter fun item => !item.isDefinition :=
      List.mem_filter.mpr ⟨hitem, by rw [Item.isDefinition, hd]; rfl⟩
    rw [hrest] at hkept
    exact hmodule item (List.mem_filter.mp hkept).1

/-- **The definitions of a program may stand anywhere among its items, in any order**: when no
item is a `MODULE`, the names are distinct and the definition pass completes, the run ends alike,
passes the same arguments to native functions, gets the same results from calls, and has the
same final scopes. -/
theorem definition_order (n : ℕ) (host : Context → Context) (ec ec₁ : Context)
    (tags : ℕ → ValueType) (items items' : List Item)
    (hmodule : ∀ item ∈ items, item.isModule = false)
    (hdistinct : (items.filterMap Item.definition?).Pairwise fun d d' =>
      strcasecmp d.procedureName d'.procedureName ≠ .eq)
    (hpass : FunctionDefVisitor.visitMain ec items = .ok ec₁)
    (hrest : (items'.filter fun item => !item.isDefinition) =
      items.filter fun item => !item.isDefinition)
    (hperm : (items.filterMap Item.definition?).Perm (items'.filterMap Item.definition?)) :
    let r := basicrun n host ec tags items
    let r' := basicrun n host ec tags items'
    r.error? = r'.error? ∧ r.final.nativeArgs = r'.final.nativeArgs ∧
      r.final.results = r'.final.results ∧
      ∀ key, r.final.ec.scopes key = r'.final.ec.scopes key := by
  have hmodule' := isModule_of_filter_eq hrest hmodule
  have hpass' := FunctionDefVisitor.visitMain_of_perm hmodule hmodule' hdistinct hperm hpass
  -- Both programs run like the program without its definitions.
  let s := Machine.start (host ec₁) tags
  have hs : s.Alike Eq s := start_alike (.refl .eq _) tags
  obtain ⟨herror, hfinal⟩ := (visitMain_skip n items).final hs
  obtain ⟨herror', hfinal'⟩ := (visitMain_skip n items').final hs
  rw [hrest] at herror' hfinal'
  intro r r'
  have hr : r = visitMain (visitor n) items s := by
    show basicrun n host ec tags items = _
    rw [basicrun, hpass]
    rfl
  have hr' : r' = visitMain (visitor n) items' s := by
    show basicrun n host ec tags items' = _
    rw [basicrun, hpass']
    rfl
  rw [hr, hr']
  exact ⟨herror.trans herror'.symm, hfinal.nativeArgs.trans hfinal'.nativeArgs.symm,
    hfinal.results.trans hfinal'.results.symm,
    fun key => (hfinal.scopes_eq key).trans (hfinal'.scopes_eq key).symm⟩

/-- A procedure that prints its parameter. -/
def printParam : ProcedureDefinition :=
  ⟨['f'], [['x']], [.procedureCall ['p'] [.ident ['x']], .returnStatement (.ident ['x'])]⟩

/-- The procedure may be defined after its call. -/
theorem definition_order_callFirst :
    let call : Item := .statement (.assignExpr ['r'] (.procCall ['f'] [.int ['1']]))
    let r := basicrun 9 (·.register printHost) Context.init (fun _ => .invalid)
      [.procedureDefinition printParam, call]
    let r' := basicrun 9 (·.register printHost) Context.init (fun _ => .invalid)
      [call, .procedureDefinition printParam]
    (r.error? = none ∧ r.final.nativeArgs = [[Value.ofInt 1]]) ∧
      r'.error? = none ∧ r'.final.nativeArgs = [[Value.ofInt 1]] := by
  intro call r r'
  have horder := definition_order 9 (·.register printHost) Context.init
    (FunctionDefVisitor.register Context.init printParam) (fun _ => .invalid)
    [.procedureDefinition printParam, call] [call, .procedureDefinition printParam]
    (by simp [Item.isModule, call]) (List.pairwise_singleton _ _) rfl rfl (.refl _)
  have hrun : r.error? = none ∧ r.final.nativeArgs = [[Value.ofInt 1]] := by decide +kernel
  exact ⟨hrun, horder.1.symm.trans hrun.1, horder.2.1.symm.trans hrun.2⟩

end WwivBasic
