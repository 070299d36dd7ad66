import WwivBasic.Foundations.LastIndex
import WwivBasic.Value

/-!
# Scopes, modules and the context

The data of `src/context.h`. A `Module*` of the `Context` is the key of the module in
`modules`: the nodes of a `std::map` never move, and no module is ever erased. The deque
`scopes` is listed from `front()` to `back()`, so that a scope keeps its position while others
are pushed after it.

## Main definitions

* `Scope`, `NativeFn`, `BasicFunction`, `Module`, `Context`: the data
* `innermost`: the position of the innermost scope that binds a name
* `upsertScopes`: what `Module::upsert` does to a deque that has a scope
* `Context.scopes`, `Context.mapScopes`: the deque of a module, and an update of it
* `Context.cell`: the value of a variable of one scope

## Main results

* `value?_upsertScopes`: an assignment changes one variable of one scope
* `scopes_mapScopes`, `functions_mapScopes`: an update of a deque changes no other data
-/

namespace WwivBasic

/-- `Var`. -/
structure Var where
  name_ : Str
  value_ : Value

/-- `Scope`. -/
structure Scope where
  fnName : Str
  localVars : CiMap Var

/-- A host function of the argument values, with the texts that it hands to `std::stoi`. -/
structure NativeFn where
  run : List Value → Except Fault Value
  converted : List Value → List Str := fun _ => []

instance : CoeFun NativeFn fun _ => List Value → Except Fault Value := ⟨NativeFn.run⟩

/-- Most functions convert nothing. -/
instance : Coe (List Value → Except Fault Value) NativeFn := ⟨fun run => { run }⟩

/-- What a `BasicFunction` runs, with its `type`. -/
inductive FunctionBody
  | native (cppFn : NativeFn)
  | basic (defFn : ProcedureDefinition)

/-- `BasicFunction`. -/
structure BasicFunction where
  name : Str
  body : FunctionBody
  params : List Str

/-- `Module`. -/
structure Module where
  scopes : List Scope := []
  functions : CiMap BasicFunction := ∅
  importedModules : CiMap Unit := ∅

/-- `Context`, with `root` and `module` pointing at modules it holds. -/
@[ext] structure Context where
  modules : CiMap Module
  root : Str
  module : Str
  root_mem : modules.contains root = true
  module_mem : modules.contains module = true

namespace Scope

/-- Whether the scope binds a name. -/
def binds (sc : Scope) (name : Str) : Bool := sc.localVars.contains name

/-- `local_vars.at(name).value(value)`. -/
def assign (sc : Scope) (name : Str) (value : Value) : Scope :=
  { sc with localVars := sc.localVars.modify name fun var => { var with value_ := value } }

/-- `local_vars.emplace(name, Var(name, value))`. -/
def emplace (sc : Scope) (name : Str) (value : Value) : Scope :=
  { sc with localVars := sc.localVars.emplace name ⟨name, value⟩ }

/-- `local_vars.insert_or_assign(name, Var(name, value))`. -/
def insertOrAssign (sc : Scope) (name : Str) (value : Value) : Scope :=
  { sc with localVars := sc.localVars.insertOrAssign name ⟨name, value⟩ }

/-- The value the scope binds a name to. -/
def value? (sc : Scope) (name : Str) : Option Value := (sc.localVars.find? name).map Var.value_

end Scope

/-- The innermost scope that binds a name. -/
def innermost (name : Str) (scopes : List Scope) : Option ℕ :=
  scopes.lastIdx? fun sc => sc.binds name

/-- `Module::upsert` on a deque that is not empty: the innermost variable of the name is updated,
and a name that no scope binds is added to the last scope. -/
def upsertScopes (name : Str) (value : Value) (scopes : List Scope) : List Scope :=
  match innermost name scopes with
  | some i => scopes.modify i fun sc => sc.assign name value
  | none => scopes.modify (scopes.length - 1) fun sc => sc.emplace name value

namespace Module

/-- `Module::has_var`. -/
def hasVar (m : Module) (name : Str) : Bool := (innermost name m.scopes).isSome

/-- `Module::has_fn`. -/
def hasFn (m : Module) (name : Str) : Bool := m.functions.contains name

/-- The variable `Module::var` finds. -/
def findVar (m : Module) (name : Str) : Option Var :=
  (innermost name m.scopes).bind fun i => m.scopes[i]?.bind fun sc => sc.localVars.find? name

end Module

namespace Context

/-- The module at a key. -/
def moduleAt (ec : Context) (key : Str) : Module := (ec.modules.find? key).getD {}

/-- The deque `scopes` of the module at a key. -/
def scopes (ec : Context) (key : Str) : List Scope := (ec.moduleAt key).scopes

/-- An update of the module at a key. -/
def mapModule (ec : Context) (key : Str) (f : Module → Module) : Context where
  modules := ec.modules.modify key f
  root := ec.root
  module := ec.module
  root_mem := by rw [OrderedMap.contains_modify, ec.root_mem]
  module_mem := by rw [OrderedMap.contains_modify, ec.module_mem]

/-- An update of the deque `scopes` of the module at a key. -/
def mapScopes (ec : Context) (key : Str) (f : List Scope → List Scope) : Context :=
  ec.mapModule key fun m => { m with scopes := f m.scopes }

/-- `module = root`. -/
def toRoot (ec : Context) : Context := { ec with module := ec.root, module_mem := ec.root_mem }

/-- The names of the scopes of the module at a key. -/
def fnNames (ec : Context) (key : Str) : List Str := (ec.scopes key).map Scope.fnName

/-- The value of a name in the scope at a position of the module at a key. -/
def cell (ec : Context) (key : Str) (i : ℕ) (name : Str) : Option Value :=
  (ec.scopes key)[i]?.bind fun sc => sc.value? name

end Context

/-! ## One scope -/

namespace Scope

variable (sc : Scope) (name x : Str) (value : Value)

@[simp] theorem fnName_assign : (sc.assign name value).fnName = sc.fnName := rfl

@[simp] theorem fnName_emplace : (sc.emplace name value).fnName = sc.fnName := rfl

@[simp] theorem binds_assign : (sc.assign name value).binds x = sc.binds x := by
  simp [binds, assign]

theorem isSome_value? : (sc.value? x).isSome = sc.binds x := by
  simp [value?, binds, OrderedMap.contains]

theorem value?_congr {x y : Str} (h : strcasecmp x y = .eq) : sc.value? x = sc.value? y := by
  rw [value?, value?, sc.localVars.find?_congr h]

theorem binds_congr {x y : Str} (h : strcasecmp x y = .eq) : sc.binds x = sc.binds y :=
  sc.localVars.contains_congr h

theorem value?_assign : (sc.assign name value).value? x =
    if strcasecmp x name = .eq ∧ sc.binds x then some value else sc.value? x := by
  simp only [value?, assign, OrderedMap.find?_modify, binds, OrderedMap.contains]
  by_cases h : strcasecmp x name = .eq
  · simp only [h, if_true, true_and]
    cases sc.localVars.find? x <;> rfl
  · simp only [h, if_false, false_and]

theorem value?_emplace (hn : sc.binds name = false) : (sc.emplace name value).value? x =
    if strcasecmp x name = .eq then some value else sc.value? x := by
  have hnone : sc.localVars.find? name = none := by
    simpa [binds, OrderedMap.contains] using hn
  simp only [value?, emplace, OrderedMap.find?_emplace, hnone]
  by_cases h : strcasecmp x name = .eq <;> simp [h]

theorem value?_emplace_of_binds (hn : sc.binds name = true) :
    (sc.emplace name value).value? x = sc.value? x := by
  obtain ⟨var, hvar⟩ := Option.isSome_iff_exists.mp hn
  simp only [value?, emplace, OrderedMap.find?_emplace, hvar, Option.getD_some]
  by_cases h : strcasecmp x name = .eq
  · rw [if_pos h, sc.localVars.find?_congr h, hvar]
  · rw [if_neg h]

theorem value?_insertOrAssign : (sc.insertOrAssign name value).value? x =
    if strcasecmp x name = .eq then some value else sc.value? x := by
  simp only [value?, insertOrAssign, OrderedMap.find?_insertOrAssign]
  by_cases h : strcasecmp x name = .eq <;> simp [h]

end Scope

/-! ## The deque of a module -/

/-- Where an assignment of a name goes. -/
def upsertTarget (name : Str) (scopes : List Scope) : ℕ :=
  (innermost name scopes).getD (scopes.length - 1)

theorem innermost_congr {x y : Str} (h : strcasecmp x y = .eq) (scopes : List Scope) :
    innermost x scopes = innermost y scopes := by
  simp only [innermost, Scope.binds_congr _ h]

theorem map_fnName_modify (scopes : List Scope) (i : ℕ) {f : Scope → Scope}
    (hf : ∀ sc, (f sc).fnName = sc.fnName) :
    (scopes.modify i f).map Scope.fnName = scopes.map Scope.fnName := by
  apply List.ext_getElem?
  intro j
  rw [List.getElem?_map, List.getElem?_map, List.getElem?_modify]
  cases scopes[j]? with
  | none => rfl
  | some sc => by_cases h : i = j <;> simp [h, hf]

@[simp] theorem map_fnName_upsertScopes (name : Str) (value : Value) (scopes : List Scope) :
    (upsertScopes name value scopes).map Scope.fnName = scopes.map Scope.fnName := by
  unfold upsertScopes
  split
  · exact map_fnName_modify _ _ fun sc => sc.fnName_assign name value
  · exact map_fnName_modify _ _ fun sc => sc.fnName_emplace name value

/-- An assignment changes one variable of one scope. -/
theorem value?_upsertScopes (name x : Str) (value : Value) (scopes : List Scope) (i : ℕ) :
    ((upsertScopes name value scopes)[i]?.bind fun sc => sc.value? x) =
      if i = upsertTarget name scopes ∧ i < scopes.length ∧ strcasecmp x name = .eq then
        some value
      else scopes[i]?.bind fun sc => sc.value? x := by
  unfold upsertScopes upsertTarget
  cases hin : innermost name scopes with
  | some k =>
    obtain ⟨⟨sc, hsc, hbinds⟩, -⟩ := List.lastIdx?_eq_some_iff.mp hin
    simp only [Option.getD_some, List.getElem?_modify]
    -- The scope at `k` binds the name, and keeps its other variables.
    by_cases hik : k = i
    · subst hik
      have hlt : k < scopes.length := (List.getElem?_eq_some_iff.mp hsc).1
      by_cases hx : strcasecmp x name = .eq
      · have hb : sc.binds x = true := (sc.binds_congr hx).trans hbinds
        simp only [hsc, if_true, Option.map_eq_map, Option.map_some, Option.bind_some,
          Scope.value?_assign, hx, hb, hlt, and_self]
      · simp only [hsc, if_true, Option.map_eq_map, Option.map_some, Option.bind_some,
          Scope.value?_assign, hx, false_and, and_false, if_false]
    · simp [hik, Ne.symm hik]
  | none =>
    have hnone := List.lastIdx?_eq_none_iff.mp hin
    simp only [Option.getD_none, List.getElem?_modify]
    -- No scope binds the name: the last one gets it, and there is none in an empty deque.
    by_cases hik : scopes.length - 1 = i
    · cases hsc : scopes[i]? with
      | none =>
        have hge : scopes.length ≤ i := List.getElem?_eq_none_iff.mp hsc
        simp [Nat.not_lt.mpr hge]
      | some sc =>
        have hlt : i < scopes.length := (List.getElem?_eq_some_iff.mp hsc).1
        have hsc' := hnone sc (List.mem_of_getElem? hsc)
        simp [hik, hlt, Scope.value?_emplace _ _ _ _ hsc']
    · simp [hik, Ne.symm hik]

/-! ## Updates of a context -/

namespace Context

variable (ec : Context) (key k : Str)

theorem moduleAt_congr {k k' : Str} (h : strcasecmp k k' = .eq) :
    ec.moduleAt k = ec.moduleAt k' := by
  rw [moduleAt, moduleAt, ec.modules.find?_congr h]

theorem scopes_congr {k k' : Str} (h : strcasecmp k k' = .eq) : ec.scopes k = ec.scopes k' := by
  rw [scopes, scopes, ec.moduleAt_congr h]

@[simp] theorem contains_mapScopes (f : List Scope → List Scope) :
    (ec.mapScopes key f).modules.contains k = ec.modules.contains k :=
  OrderedMap.contains_modify ..

/-- Only the module at the key, when there is one, is updated. -/
theorem moduleAt_mapModule (f : Module → Module) :
    (ec.mapModule key f).moduleAt k =
      if strcasecmp k key = .eq ∧ ec.modules.contains k then f (ec.moduleAt k)
      else ec.moduleAt k := by
  simp only [moduleAt, mapModule, OrderedMap.find?_modify, OrderedMap.contains]
  by_cases h : strcasecmp k key = .eq
  · simp only [h, if_true, true_and]
    cases ec.modules.find? k <;> rfl
  · simp only [h, if_false, false_and]

@[simp] theorem functions_mapScopes (f : List Scope → List Scope) :
    ((ec.mapScopes key f).moduleAt k).functions = (ec.moduleAt k).functions := by
  rw [mapScopes, moduleAt_mapModule]
  split_ifs <;> rfl

theorem scopes_mapScopes (f : List Scope → List Scope) :
    (ec.mapScopes key f).scopes k =
      if strcasecmp k key = .eq ∧ ec.modules.contains k then f (ec.scopes k)
      else ec.scopes k := by
  rw [scopes, mapScopes, moduleAt_mapModule]
  split_ifs <;> rfl

theorem fnNames_mapScopes {f : List Scope → List Scope} {g : List Str → List Str}
    (hf : ∀ l, (f l).map Scope.fnName = g (l.map Scope.fnName)) :
    (ec.mapScopes key f).fnNames k =
      if strcasecmp k key = .eq ∧ ec.modules.contains k then g (ec.fnNames k)
      else ec.fnNames k := by
  rw [fnNames, scopes_mapScopes]
  split_ifs
  · exact hf _
  · rfl

end Context

end WwivBasic
