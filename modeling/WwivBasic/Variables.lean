import WwivBasic.Foundations.Shadowing
import WwivBasic.FunctionDef
import WwivBasic.VisitorRules

/-!
# Variables are read where they are written

`Context::upsert` and `Context::var` each choose between the current module and the root module, and
then search the scopes of that module from the top. The write makes the choice of the next read:
the name it has written is found there, and what other names are found in is not changed.

## Main definitions

* `Scope.var?`, `Scope.put`: a variable of a scope, and what an assignment makes of the scope
* `printed`: what `Context::var` makes of the variable it finds
* `Machine.put`: the state after an assignment

## Main results

* `upsertScopes_eq`: an assignment puts the variable in one scope
* `upsert_var_iff`: when a read after a write yields what was written
-/

namespace WwivBasic

open EStateM

/-! ## One scope -/

namespace Scope

/-- The variable of a name. -/
def var? (sc : Scope) (name : Str) : Option Var := sc.localVars.find? name

/-- The variable of a name is updated, or added. -/
def put (name : Str) (value : Value) (sc : Scope) : Scope :=
  if sc.binds name then sc.assign name value else sc.emplace name value

variable (sc : Scope) (name : Str) (value : Value)

theorem var?_put_of_ne {x : Str} (h : strcasecmp x name ≠ .eq) :
    (sc.put name value).var? x = sc.var? x := by
  unfold put var?
  split_ifs
  · rw [assign, OrderedMap.find?_modify, if_neg h]
  · rw [emplace, OrderedMap.find?_emplace, if_neg h]

theorem var?_put_self : ∃ var, var.value_ = value ∧ (sc.put name value).var? name = some var := by
  unfold put var?
  split_ifs with hbinds
  · obtain ⟨var, hvar⟩ := Option.isSome_iff_exists.mp hbinds
    refine ⟨{ var with value_ := value }, rfl, ?_⟩
    rw [assign, OrderedMap.find?_modify, if_pos (strcasecmp_self name), hvar, Option.map_some]
  · have hnone : sc.localVars.find? name = none :=
      Option.not_isSome_iff_eq_none.mp hbinds
    refine ⟨⟨name, value⟩, rfl, ?_⟩
    rw [emplace, OrderedMap.find?_emplace, if_pos (strcasecmp_self name), hnone, Option.getD_none]

end Scope

/-! ## One module -/

theorem findVar_eq_visible (m : Module) (name : Str) :
    m.findVar name = m.scopes.visible Scope.var? name := rfl

theorem hasVar_eq_isSome (m : Module) (name : Str) :
    m.hasVar name = (m.scopes.topmost Scope.var? name).isSome := rfl

/-- An assignment puts the variable in the scope it goes to. -/
theorem upsertScopes_eq (name : Str) (value : Value) (scopes : List Scope) :
    upsertScopes name value scopes =
      scopes.modify (scopes.storedAt Scope.var? name) (Scope.put name value) := by
  have hcongr : ∀ {i : ℕ} {f g : Scope → Scope}, (∀ sc, scopes[i]? = some sc → f sc = g sc) →
      scopes.modify i f = scopes.modify i g := by
    intro i f g h
    refine List.ext_getElem? fun j => ?_
    rw [List.getElem?_modify, List.getElem?_modify]
    cases hj : scopes[j]? with
    | none => rfl
    | some sc =>
      by_cases hij : i = j
      · subst hij
        simp [h sc hj]
      · simp [hij]
  have htop : scopes.topmost Scope.var? name = innermost name scopes := rfl
  rw [upsertScopes, List.storedAt, htop]
  cases hin : innermost name scopes with
  | some i =>
    obtain ⟨⟨sc', hsc', hbinds⟩, -⟩ := List.lastIdx?_eq_some_iff.mp hin
    refine hcongr fun sc hsc => ?_
    obtain rfl : sc' = sc := Option.some.inj (hsc'.symm.trans hsc)
    exact (if_pos hbinds).symm
  | none =>
    refine hcongr fun sc hsc => ?_
    have hbinds := List.lastIdx?_eq_none_iff.mp hin sc (List.mem_of_getElem? hsc)
    exact (if_neg (Bool.eq_false_iff.mp hbinds)).symm

/-! ## The two modules -/

namespace Context

variable {ec : Context} {key name x : Str} {value : Value} {i : ℕ}

/-- Updates of one module that agree on it. -/
theorem mapScopes_congr {f g : List Scope → List Scope} (h : f (ec.scopes key) = g (ec.scopes key)) :
    ec.mapScopes key f = ec.mapScopes key g := by
  refine Context.ext ?_ rfl rfl
  show ec.modules.modify key _ = ec.modules.modify key _
  unfold OrderedMap.modify
  cases hm : ec.modules.find? key with
  | none => rfl
  | some m =>
    have hscopes : ec.scopes key = m.scopes := by rw [scopes, moduleAt, hm, Option.getD_some]
    rw [hscopes] at h
    dsimp only
    rw [h]

/-- What the search for a name finds in a module does not change with other names. -/
theorem findVar_put_of_ne (h : strcasecmp x name ≠ .eq) (k : Str) :
    ((ec.mapScopes key (List.modify · i (Scope.put name value))).moduleAt k).findVar x =
      (ec.moduleAt k).findVar x := by
  rw [mapScopes, moduleAt_mapModule]
  split_ifs
  · exact List.visible_modify_of_eq fun sc => sc.var?_put_of_ne name value h
  · rfl

theorem hasVar_put_of_ne (h : strcasecmp x name ≠ .eq) (k : Str) :
    ((ec.mapScopes key (List.modify · i (Scope.put name value))).moduleAt k).hasVar x =
      (ec.moduleAt k).hasVar x := by
  rw [mapScopes, moduleAt_mapModule]
  split_ifs
  · exact congrArg Option.isSome
      (List.topmost_modify_of_eq fun sc => sc.var?_put_of_ne name value h)
  · rfl

/-- The search for the name finds the new value, in the module it was put in. -/
theorem findVar_put_self (h : ec.scopes key ≠ []) :
    ∃ var, var.value_ = value ∧ ((ec.mapScopes key (List.modify ·
      ((ec.scopes key).storedAt Scope.var? name) (Scope.put name value))).moduleAt key).findVar name =
        some var := by
  have hmem : ec.modules.contains key = true := by
    rw [OrderedMap.contains]
    cases hm : ec.modules.find? key with
    | some m => rfl
    | none => exact absurd (by rw [scopes, moduleAt, hm]; rfl) h
  have hput : ∀ sc : Scope, ((sc.put name value).var? name).isSome := fun sc => by
    obtain ⟨var, -, hvar⟩ := sc.var?_put_self name value
    rw [hvar]
    rfl
  obtain ⟨sc, hvisible⟩ := List.visible_modify_storedAt (k := name) h hput
  obtain ⟨var, hvalue, hvar⟩ := sc.var?_put_self name value
  refine ⟨var, hvalue, ?_⟩
  rw [mapScopes, moduleAt_mapModule, if_pos ⟨strcasecmp_self key, hmem⟩, ← hvar]
  exact hvisible

end Context

/-! ## Writes and reads -/

/-- What `Context::var` makes of the variable it finds, which it prints. -/
def printed : Option Var → Except Fault (Option Var)
  | some var => var.value_.toString.map fun _ => some var
  | none => .ok none

theorem moduleVar_eq (self name : Str) (s : Machine) :
    Module.var self name s = lift (printed ((s.ec.moduleAt self).findVar name)) s := by
  show (match (s.ec.moduleAt self).findVar name with
    | some var => (do print var.value_; return some var : Eval (Option Var))
    | none => return none) s = _
  cases (s.ec.moduleAt self).findVar name with
  | none => rfl
  | some var =>
    rw [printed]
    show (do print var.value_; return some var : Eval (Option Var)) s = _
    unfold print
    cases var.value_.toString <;> rfl

section Unqualified

variable {name : Str} (hname : (splitPackageFromId name).1 = []) (s : Machine)

include hname

theorem contextVar_eq :
    Context.var name s = lift (printed ((s.ec.moduleAt (s.ec.varModule name)).findVar name)) s := by
  rw [← moduleVar_eq]
  show (if (splitPackageFromId name).1 ≠ [] then _ else Module.var (s.ec.varModule name) name) s = _
  rw [if_neg (not_not.mpr hname)]

theorem contextUpsert_eq (value : Value) (h : s.ec.scopes (s.ec.varModule name) ≠ []) :
    Context.upsert name value s = .ok ⟨⟩ (s.mapContext
      (Context.mapScopes · (s.ec.varModule name) (upsertScopes name value))) := by
  have hmodule : Context.upsert name value s = Module.upsert (s.ec.varModule name) name value s := by
    show (if (splitPackageFromId name).1 ≠ [] then _
      else Module.upsert (s.ec.varModule name) name value) s = _
    rw [if_neg (not_not.mpr hname)]
  rw [hmodule]
  show (if (s.ec.scopes (s.ec.varModule name)).isEmpty then _ else _ : Eval Unit) s = _
  rw [if_neg (by rwa [List.isEmpty_iff])]
  rfl

end Unqualified

namespace Context

variable {ec : Context} {name x : Str} {value : Value}

theorem varModule_eq_or (ec : Context) (name : Str) :
    ec.varModule name = ec.module ∨ ec.varModule name = ec.root := by
  unfold varModule
  split_ifs
  · exact .inr rfl
  · exact .inl rfl

theorem varModule_put_of_ne {key : Str} {i : ℕ} (h : strcasecmp x name ≠ .eq) :
    (ec.mapScopes key (List.modify · i (Scope.put name value))).varModule x = ec.varModule x := by
  simp only [varModule, hasVar_put_of_ne h]
  rfl

/-- A name that was written is looked up in the module it was written in. -/
theorem varModule_put_self (h : ec.scopes (ec.varModule name) ≠ []) :
    (ec.mapScopes (ec.varModule name) (List.modify ·
      ((ec.scopes (ec.varModule name)).storedAt Scope.var? name)
      (Scope.put name value))).varModule name = ec.varModule name := by
  set ec' := ec.mapScopes (ec.varModule name) (List.modify ·
    ((ec.scopes (ec.varModule name)).storedAt Scope.var? name) (Scope.put name value)) with hec'
  have hwritten : (ec'.moduleAt (ec.varModule name)).hasVar name = true := by
    obtain ⟨var, -, hvar⟩ :
        ∃ var, var.value_ = value ∧ (ec'.moduleAt (ec.varModule name)).findVar name = some var :=
      findVar_put_self h
    rw [findVar_eq_visible, List.visible] at hvar
    obtain ⟨i, htop, -⟩ := Option.bind_eq_some_iff.mp hvar
    rw [hasVar_eq_isSome, hec', htop]
    rfl
  by_cases hroot : !(ec.moduleAt ec.module).hasVar name && (ec.moduleAt ec.root).hasVar name
  · have hkey : ec.varModule name = ec.root := if_pos hroot
    rw [Bool.and_eq_true, Bool.not_eq_true'] at hroot
    -- The current module is another one, and still does not have the variable.
    have hne : strcasecmp ec.module ec.root ≠ .eq := fun heq => by
      rw [ec.moduleAt_congr heq, hroot.2] at hroot
      cases hroot.1
    have hmodule : (ec'.moduleAt ec.module).hasVar name = false := by
      rw [hec', hkey, mapScopes, moduleAt_mapModule, if_neg fun h => hne h.1]
      exact hroot.1
    rw [hkey] at hwritten ⊢
    apply if_pos
    rw [Bool.and_eq_true, Bool.not_eq_true']
    exact ⟨hmodule, hwritten⟩
  · have hkey : ec.varModule name = ec.module := if_neg hroot
    rw [hkey] at hwritten ⊢
    apply if_neg
    rw [Bool.and_eq_true, Bool.not_eq_true']
    rintro ⟨hnone, -⟩
    exact absurd (hnone.symm.trans hwritten) (by decide)

end Context

/-- The state after an assignment: the variable is put in one scope of the module that the name is
looked up in. -/
def Machine.put (s : Machine) (name : Str) (value : Value) : Machine :=
  s.mapContext (Context.mapScopes · (s.ec.varModule name) (List.modify ·
    ((s.ec.scopes (s.ec.varModule name)).storedAt Scope.var? name) (Scope.put name value)))

section Put

variable {s : Machine} {name : Str} (hname : (splitPackageFromId name).1 = [])
  (hscopes : s.ec.scopes (s.ec.varModule name) ≠ []) (value : Value)

include hname hscopes

theorem contextUpsert_put : Context.upsert name value s = .ok ⟨⟩ (s.put name value) := by
  have hput : s.put name value = s.mapContext
      (Context.mapScopes · (s.ec.varModule name) (upsertScopes name value)) :=
    congrArg (fun ec => { s with ec := ec })
      (Context.mapScopes_congr (upsertScopes_eq name value _)).symm
  rw [contextUpsert_eq hname s value hscopes, hput]

/-- The name is found where it was written, and printed. -/
theorem contextVar_put_self : ∃ var, var.value_ = value ∧
    Context.var name (s.put name value) =
      lift (value.toString.map fun _ => some var) (s.put name value) := by
  obtain ⟨var, hvalue, hfind⟩ : ∃ var, var.value_ = value ∧
      ((s.put name value).ec.moduleAt (s.ec.varModule name)).findVar name = some var :=
    Context.findVar_put_self hscopes
  have hmodule : (s.put name value).ec.varModule name = s.ec.varModule name :=
    Context.varModule_put_self hscopes
  exact ⟨var, hvalue, by rw [contextVar_eq hname, hmodule, hfind, printed, hvalue]⟩

end Put

/-- Other names are read as before. -/
theorem contextVar_put_of_ne (s : Machine) {name x : Str} (value : Value)
    (hx : (splitPackageFromId x).1 = []) (hne : strcasecmp x name ≠ .eq) :
    ∃ result, Context.var x s = lift result s ∧
      Context.var x (s.put name value) = lift result (s.put name value) := by
  refine ⟨printed ((s.ec.moduleAt (s.ec.varModule x)).findVar x), contextVar_eq hx s, ?_⟩
  have hmodule : (s.put name value).ec.varModule x = s.ec.varModule x :=
    Context.varModule_put_of_ne hne
  have hfind : ((s.put name value).ec.moduleAt (s.ec.varModule x)).findVar x =
      (s.ec.moduleAt (s.ec.varModule x)).findVar x := Context.findVar_put_of_ne hne _
  rw [contextVar_eq hx, hmodule, hfind]

/-- **A write and the reads after it**: an assignment of an unqualified name puts its variable in
one scope of the current module or of the root module, the name is then read as the value that was
assigned, and every other unqualified name as before, exactly when the value has a text, which the
read prints: its type is that of what it holds, or no type. -/
theorem upsert_var_iff (s : Machine) (name : Str) (value : Value)
    (hname : (splitPackageFromId name).1 = []) (hmodule : s.ec.scopes s.ec.module ≠ [])
    (hroot : s.ec.scopes s.ec.root ≠ []) :
    (∃ key i t, (key = s.ec.module ∨ key = s.ec.root) ∧ i < (s.ec.scopes key).length ∧
      t = s.mapContext (Context.mapScopes · key (List.modify · i (Scope.put name value))) ∧
      Context.upsert name value s = .ok ⟨⟩ t ∧
      (∃ var, var.value_ = value ∧ Context.var name t = .ok (some var) t) ∧
      ∀ x, (splitPackageFromId x).1 = [] → strcasecmp x name ≠ .eq →
        ∃ result, Context.var x s = lift result s ∧ Context.var x t = lift result t) ↔
    value.WellTagged ∨ value.type = .invalid := by
  have hscopes : s.ec.scopes (s.ec.varModule name) ≠ [] := by
    rcases s.ec.varModule_eq_or name with h | h <;> rw [h] <;> assumption
  have hupsert := contextUpsert_put hname hscopes value
  obtain ⟨var, hvalue, hread⟩ := contextVar_put_self hname hscopes value
  rw [← Value.toString_ok_iff]
  constructor
  · rintro ⟨-, -, t, -, -, -, hput, ⟨var', -, hvar'⟩, -⟩
    -- The read prints the value, so it has a text.
    obtain rfl : s.put name value = t := by
      rw [hupsert] at hput
      cases hput
      rfl
    rw [hread] at hvar'
    cases htext : value.toString with
    | ok text => exact ⟨text, rfl⟩
    | error e =>
      rw [htext] at hvar'
      cases hvar'
  · rintro ⟨text, htext⟩
    rw [htext] at hread
    exact ⟨_, _, s.put name value, s.ec.varModule_eq_or name, List.storedAt_lt hscopes, rfl,
      hupsert, ⟨var, hvalue, hread⟩, fun x hx hne => contextVar_put_of_ne s value hx hne⟩

/-- A variable that is new in the initial context. -/
theorem upsert_var_new :
    let s := Machine.start .init fun _ => .integer
    ∃ t var, Context.upsert ['x'] (.ofInt 1) s = .ok ⟨⟩ t ∧ var.value_ = .ofInt 1 ∧
      Context.var ['x'] t = .ok (some var) t := by
  intro s
  obtain ⟨-, -, t, -, -, -, hupsert, ⟨var, hvalue, hread⟩, -⟩ :=
    (upsert_var_iff s ['x'] (.ofInt 1) rfl (by decide) (by decide)).mpr (.inl trivial)
  exact ⟨t, var, hupsert, hvalue, hread⟩

/-- A value made from an empty `any` has a type that was not written. Where it is `INTEGER` by
chance, the read of the variable that has been assigned it throws. -/
theorem upsert_var_unwritten :
    let s := Machine.start .init fun _ => .integer
    let t := (Context.upsert ['x'] (.ofAny .integer .empty) s).final
    (Context.upsert ['x'] (.ofAny .integer .empty) s).error? = none ∧
      (Context.var ['x'] t).error? = some .badVariantAccess := by
  decide +kernel

end WwivBasic
