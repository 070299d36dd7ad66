import WwivBasic.DefinitionOrder
import WwivBasic.Foundations.FirstMention

/-!
# What the definition pass registers, and where

`visitProcedureDefinition` visits the `parameterDefinitionList` of a `DEF` whether it is there or
not, so a `DEF` without parameters stops the pass. `visitModuleDefinition` makes the module of a
`MODULE` item current only when it creates it, so the current module is the one that was named for
the first time last, and not the one that was named last.

## Main definitions

* `FunctionDefVisitor.Registered`: a `DEF` is in the `functions` of a module
* `moduleNames`, `nearestModule`: the modules that items name
* `FunctionDefVisitor.Follows`: the modules of a context are those that items have named

## Main results

* `visitMain_ok_iff`: when the pass completes
* `definitions_registered_iff`: and registers every `DEF`
* `definitions_attributed_iff`: in the module it stands in
-/

namespace WwivBasic

/-- The name of a `MODULE` item. -/
def Item.moduleName? : Item → Option Str
  | .moduleDefinition text => some (removeQuotes text)
  | _ => none

/-- The modules that items name, after the root module. -/
def moduleNames (items : List Item) : List Str := [] :: items.filterMap Item.moduleName?

/-- The module of the nearest `MODULE` item before what follows the items: the root module when
there is none. -/
def nearestModule (items : List Item) : Str :=
  (items.filterMap Item.moduleName?).getLast?.getD []

namespace FunctionDefVisitor

/-- The procedure is found in the module by its name, with its parameters. -/
def Registered (ec : Context) (key : Str) (d : ProcedureDefinition) : Prop :=
  (ec.moduleAt key).functions.find? d.procedureName =
    some ⟨d.procedureName, .basic d, d.parameterDefinitionList⟩

/-! ## The pass -/

theorem visitMain_append (ec : Context) (xs ys : List Item) :
    visitMain ec (xs ++ ys) = visitMain ec xs >>= fun ec' => visitMain ec' ys := by
  induction xs generalizing ec with
  | nil => rfl
  | cons item xs ih =>
    rw [List.cons_append, visitMain, visitMain]
    cases visitItem ec item with
    | error e => rfl
    | ok ec' => exact ih ec'

theorem visitItem_ok_iff (ec : Context) (item : Item) : (∃ ec', visitItem ec item = .ok ec') ↔
    ∀ d, item = .procedureDefinition d → d.parameterDefinitionList ≠ [] := by
  cases item with
  | procedureDefinition d =>
    simp only [Item.procedureDefinition.injEq, forall_eq']
    rw [visitItem_definition]
    split_ifs with h
    · exact iff_of_false nofun (not_not.mpr h)
    · exact iff_of_true ⟨_, rfl⟩ h
  | moduleDefinition | statement | importModule | importFile => exact iff_of_true ⟨_, rfl⟩ nofun

/-- The pass completes when every `DEF` has a parameter. -/
theorem visitMain_ok_iff (ec : Context) (items : List Item) :
    (∃ ec', visitMain ec items = .ok ec') ↔
    ∀ d, .procedureDefinition d ∈ items → d.parameterDefinitionList ≠ [] := by
  induction items generalizing ec with
  | nil => exact iff_of_true ⟨ec, rfl⟩ fun d hd => absurd hd List.not_mem_nil
  | cons item items ih =>
    have hitem := visitItem_ok_iff ec item
    simp only [visitMain, List.mem_cons]
    cases hvisit : visitItem ec item with
    | error e =>
      rw [hvisit] at hitem
      refine iff_of_false (by rintro ⟨_, hok⟩; cases hok) fun h => ?_
      obtain ⟨_, hok⟩ := hitem.mpr fun d hd => h d (.inl hd.symm)
      cases hok
    | ok ec' =>
      have hhead := hitem.mp ⟨ec', hvisit⟩
      refine (ih ec').trans ⟨fun h d hd => ?_, fun h d hd => h d (.inr hd)⟩
      rcases hd with hd | hd
      · exact hhead d hd.symm
      · exact h d hd

theorem moduleAt_register (ec : Context) (d : ProcedureDefinition) (k : Str) :
    ((register ec d).moduleAt k).functions =
      if strcasecmp k ec.module = .eq then
        (ec.moduleAt k).functions.insertOrAssign d.procedureName
          ⟨d.procedureName, .basic d, d.parameterDefinitionList⟩
      else (ec.moduleAt k).functions := by
  rw [register, Context.moduleAt_mapModule]
  by_cases h : strcasecmp k ec.module = .eq
  · have hk : ec.modules.contains k = true := by
      rw [ec.modules.contains_congr h]
      exact ec.module_mem
    rw [if_pos ⟨h, hk⟩, if_pos h]
  · rw [if_neg h, if_neg fun h' => h h'.1]

theorem registered_register (ec : Context) (d : ProcedureDefinition) {key : Str}
    (h : strcasecmp key ec.module = .eq) : Registered (register ec d) key d := by
  rw [Registered, moduleAt_register, if_pos h, OrderedMap.find?_insertOrAssign,
    if_pos (strcasecmp_self _)]

/-- **The definition pass completes**, and registers every `DEF` with its parameters in the module
that is current there, exactly when every `DEF` has a parameter. -/
theorem definitions_registered_iff (ec : Context) (items : List Item) :
    (∃ ec', visitMain ec items = .ok ec' ∧
      ∀ pre d post, items = pre ++ .procedureDefinition d :: post → ∃ ec₀ ec₁,
        visitMain ec pre = .ok ec₀ ∧ visitItem ec₀ (.procedureDefinition d) = .ok ec₁ ∧
        Registered ec₁ ec₀.module d ∧ visitMain ec₁ post = .ok ec') ↔
    ∀ d, .procedureDefinition d ∈ items → d.parameterDefinitionList ≠ [] := by
  rw [← visitMain_ok_iff ec items]
  refine exists_congr fun ec' => and_iff_left_of_imp fun hpass pre d post hitems => ?_
  rw [hitems, visitMain_append] at hpass
  obtain ⟨ec₀, hpre, hrest⟩ := Except.bind_eq_ok.mp hpass
  obtain ⟨ec₁, hitem, hpost⟩ := Except.bind_eq_ok.mp hrest
  refine ⟨ec₀, ec₁, hpre, hitem, ?_, hpost⟩
  rw [visitItem_definition] at hitem
  split_ifs at hitem
  obtain rfl := Except.ok.inj hitem
  exact registered_register ec₀ d (strcasecmp_self _)

/-- `DEF f()` stops the pass. -/
theorem definitions_not_registered :
    visitMain .init [.procedureDefinition ⟨['f'], [], []⟩] = .error .nullDereference := rfl

/-! ## The current module -/

/-- The context has the modules that were named, and the newest of them is current. -/
structure Follows (names : List Str) (ec : Context) : Prop where
  contains : ∀ k, ec.modules.contains k = true ↔ fold k ∈ names.map fold
  newest : (names.map fold).IsNewest (fold ec.module)

theorem follows_init : Follows [[]] .init where
  contains k := by
    have hempty : (∅ : CiMap Module).contains k = false := rfl
    rw [Context.init, OrderedMap.contains_emplace, hempty, List.map_singleton, List.mem_singleton,
      ← strcasecmp_eq_iff, Bool.or_false, decide_eq_true_iff]
  newest := List.isNewest_singleton _

variable {names : List Str} {ec ec' : Context}

theorem Follows.visitModuleDefinition (h : Follows names ec) (text : Str) :
    Follows (names ++ [removeQuotes text]) (visitModuleDefinition ec text) := by
  unfold FunctionDefVisitor.visitModuleDefinition
  dsimp only
  split_ifs with hmem
  -- A module that is there stays as it is, and so does the current one.
  · refine ⟨fun k => (h.contains k).trans ?_, ?_⟩
    · rw [List.map_append, List.mem_append, List.map_singleton, List.mem_singleton]
      refine ⟨.inl, fun hk => hk.elim id fun heq => ?_⟩
      rw [heq]
      exact (h.contains _).mp hmem
    · rw [List.map_append]
      exact List.isNewest_concat_of_mem h.newest ((h.contains _).mp hmem)
  · refine ⟨fun k => ?_, ?_⟩
    · rw [OrderedMap.contains_emplace, List.map_append, List.mem_append, List.map_singleton,
        List.mem_singleton, ← strcasecmp_eq_iff, ← h.contains, Bool.or_eq_true, decide_eq_true_iff]
      exact or_comm
    · rw [List.map_append]
      exact List.isNewest_concat_of_not_mem fun hnew => hmem ((h.contains _).mpr hnew)

theorem Follows.register (h : Follows names ec) (d : ProcedureDefinition) :
    Follows names (register ec d) where
  contains k := by
    rw [← h.contains]
    exact iff_of_eq (congrArg (· = true) (OrderedMap.contains_modify ..))
  newest := h.newest

theorem Follows.visitItem (h : Follows names ec) {item : Item}
    (hvisit : visitItem ec item = .ok ec') : Follows (names ++ item.moduleName?.toList) ec' := by
  cases item with
  | procedureDefinition d =>
    rw [visitItem_definition] at hvisit
    split_ifs at hvisit
    obtain rfl := Except.ok.inj hvisit
    exact (List.append_nil names).symm ▸ h.register d
  | moduleDefinition text =>
    obtain rfl := Except.ok.inj hvisit
    exact h.visitModuleDefinition text
  | statement | importModule | importFile =>
    obtain rfl := Except.ok.inj hvisit
    exact (List.append_nil names).symm ▸ h

theorem Follows.visitMain (h : Follows names ec) {items : List Item}
    (hpass : visitMain ec items = .ok ec') :
    Follows (names ++ items.filterMap Item.moduleName?) ec' := by
  induction items generalizing names ec with
  | nil =>
    obtain rfl := Except.ok.inj hpass
    rwa [List.filterMap_nil, List.append_nil]
  | cons item items ih =>
    obtain ⟨ec₁, hitem, hitems⟩ := Except.bind_eq_ok.mp hpass
    have hfollows := ih (h.visitItem hitem) hitems
    cases hname : item.moduleName? with
    | none => simpa only [List.filterMap_cons_none hname, hname, Option.toList_none,
        List.append_nil] using hfollows
    | some name => simpa only [List.filterMap_cons_some hname, hname, Option.toList_some,
        List.append_assoc, List.singleton_append] using hfollows

/-- **Every `DEF` is registered in the module of the nearest `MODULE` item**, and in no other,
exactly when every `DEF` has a parameter and that module is, of all modules named before the `DEF`,
the one that was named for the first time last. -/
theorem definitions_attributed_iff (items : List Item) :
    (∀ pre d post, items = pre ++ .procedureDefinition d :: post → ∃ ec ec',
      FunctionDefVisitor.visitMain .init pre = .ok ec ∧
      FunctionDefVisitor.visitItem ec (.procedureDefinition d) = .ok ec' ∧
      strcasecmp ec.module (nearestModule pre) = .eq ∧ Registered ec' (nearestModule pre) d ∧
      ∀ k, strcasecmp k (nearestModule pre) ≠ .eq →
        (ec'.moduleAt k).functions = (ec.moduleAt k).functions) ↔
    ∀ pre d post, items = pre ++ .procedureDefinition d :: post →
      d.parameterDefinitionList ≠ [] ∧
        ((moduleNames pre).map fold).IsNewest (fold (nearestModule pre)) := by
  constructor
  · intro h pre d post hitems
    obtain ⟨ec, ec', hpre, hitem, hmodule, -⟩ := h pre d post hitems
    have hnewest := (follows_init.visitMain hpre).newest
    rw [strcasecmp_eq_iff.mp hmodule] at hnewest
    exact ⟨(visitItem_ok_iff ec _).mp ⟨ec', hitem⟩ d rfl, hnewest⟩
  · intro h pre d post hitems
    obtain ⟨hparams, hnewest⟩ := h pre d post hitems
    -- The pass gets to the `DEF`, since those before it have parameters as well.
    obtain ⟨ec, hpre⟩ := (visitMain_ok_iff .init pre).mpr fun d' hd' => by
      obtain ⟨pre', mid, rfl⟩ := List.append_of_mem hd'
      exact (h pre' d' (mid ++ .procedureDefinition d :: post) (by simp [hitems])).1
    have hmodule : strcasecmp ec.module (nearestModule pre) = .eq :=
      strcasecmp_eq_iff.mpr ((follows_init.visitMain hpre).newest.eq hnewest)
    have hmodule' : strcasecmp (nearestModule pre) ec.module = .eq :=
      Std.OrientedCmp.eq_symm hmodule
    refine ⟨ec, register ec d, hpre, ?_, hmodule, registered_register ec d hmodule', fun k hk => ?_⟩
    · rw [visitItem_definition, if_neg hparams]
    · rw [moduleAt_register, if_neg fun hk' => hk (Std.TransCmp.eq_trans hk' hmodule)]

/-- The module `a` is opened, `b`, and `a` again. -/
def reopened : List Item :=
  [.moduleDefinition ['"', 'a', '"'], .moduleDefinition ['"', 'b', '"'],
    .moduleDefinition ['"', 'A', '"'], .procedureDefinition ⟨['f'], [['x']], []⟩]

/-- The `DEF` stands in `a`, and is registered in `b`. -/
theorem definitions_not_attributed :
    nearestModule (reopened.take 3) = ['A'] ∧
      ((visitMain .init reopened).toOption.map fun ec =>
        ((ec.moduleAt ['a']).hasFn ['f'], (ec.moduleAt ['b']).hasFn ['f'])) =
          some (false, true) := by
  decide

end FunctionDefVisitor

end WwivBasic
