import WwivBasic.Frame
import WwivBasic.NativeCalls
import WwivBasic.Settled

/-!
# The scopes of the modules

`Context()` gives the root module the scope `<GLOBAL>`. The modules that a `MODULE` opens, and those
that `basicrun.cpp` registers, begin without a scope. A `FOR` pushes its scope on the root module,
which is current throughout an execution, so that the deque of another module holds the scopes of
the open calls of its procedures, and is empty without one. A qualified assignment selects its
module by the name alone.

## Main definitions

* `Context.Bare`: only the root module has a scope
* `Accounts`: the scopes of the other modules are those of the open calls
* `Point.BackSafe`: the assignment at a point does not call `back()` on an empty deque
* `Point.PackageOpen`: a procedure of the module it selects is being called

## Main results

* `stable_accounts`: the scopes are accounted for throughout a run
* `assignment_scopes_iff`: an assignment is safe exactly when its package is open
-/

namespace WwivBasic

open EStateM

/-! ## The number of scopes -/

/-- Only the root module, which has the empty name, has a scope. -/
structure Context.Bare (ec : Context) : Prop where
  root : ec.root = []
  root_scopes : ec.scopes [] ≠ []
  scopes : ∀ k, strcasecmp k [] ≠ .eq → ec.scopes k = []

/-- Whether the block is a call of a procedure of the module at a key. -/
def Block.isCallOf (key : Str) : Block → Bool
  | .call owner _ => strcasecmp key owner = .eq
  | .loop _ => false

/-- The root module is current and has a scope, and every other module has one for each open call
of its procedures. -/
structure Accounts (ec : Context) (nest : List Block) : Prop where
  root : ec.root = []
  module : ec.module = []
  root_scopes : ec.scopes [] ≠ []
  length : ∀ k, strcasecmp k [] ≠ .eq → ec.modules.contains k = true →
    (ec.scopes k).length = nest.countP (Block.isCallOf k)

namespace Context

variable {ec ec' : Context} {key : Str}

theorem Bare.accounts (h : ec.Bare) : Accounts ec.toRoot [] where
  root := h.root
  module := h.root
  root_scopes := h.root_scopes
  length k hk _ := congrArg List.length (h.scopes k hk)

theorem Grows.scopes_ne_nil (h : ec.Grows ec') (hec : ec.scopes key ≠ []) : ec'.scopes key ≠ [] :=
  List.length_pos_iff.mp (Nat.lt_of_lt_of_le (List.length_pos_iff.mpr hec) (h.length_le key))

theorem length_scopes_of_fnNames (h : ec'.fnNames key = ec.fnNames key) :
    (ec'.scopes key).length = (ec.scopes key).length := by
  rw [← length_fnNames, h, length_fnNames]

end Context

theorem stable_accounts : Stable Accounts where
  returns s t h hst := by
    refine ⟨hst.ec.root.trans h.root, hst.ec.module.trans h.module,
      hst.ec.scopes_ne_nil h.root_scopes, fun k hk hc => ?_⟩
    rw [hst.ec.contains k] at hc
    rw [Context.length_scopes_of_fnNames (hst.fnNames_eq k), hst.nest_eq]
    exact h.length k hk hc
  inLoop s loop t h hst := by
    refine ⟨hst.ec.root.trans h.root, hst.ec.module.trans h.module,
      hst.ec.scopes_ne_nil h.root_scopes, fun k hk hc => ?_⟩
    -- The scope of the `FOR` is on the deque of the root module.
    have howner : strcasecmp k loop.owner ≠ .eq := by rwa [hst.owner, h.module]
    have hnames := hst.fnNames_eq k
    rw [if_neg fun hcond => howner hcond.1] at hnames
    rw [hst.ec.contains k] at hc
    rw [Context.length_scopes_of_fnNames hnames, hst.nest_eq,
      List.countP_cons_of_neg Bool.false_ne_true]
    exact h.length k hk hc
  enterCall s owner function sc args h := by
    have hgrows := (s.reaches_enterCall owner function sc args).ec
    refine ⟨h.root, h.module, hgrows.scopes_ne_nil h.root_scopes, fun k hk hc => ?_⟩
    rw [hgrows.contains k] at hc
    show _ = (Block.call owner function :: s.nest).countP (Block.isCallOf k)
    -- The call pushes a scope on the deque of the module that owns the procedure.
    by_cases howner : strcasecmp k owner = .eq
    · rw [s.length_enterCall howner hc, List.countP_cons_of_pos (by simpa [Block.isCallOf]),
        h.length k hk hc]
    · have hscopes : (s.enterCall owner function sc args).ec.scopes k = s.ec.scopes k := by
        show (s.ec.mapScopes owner (· ++ [sc])).scopes k = _
        rw [Context.scopes_mapScopes, if_neg fun hcond => howner hcond.1]
      rw [hscopes, List.countP_cons_of_neg (by simpa [Block.isCallOf]), h.length k hk hc]
  importModule ec nest id h := by
    refine ⟨h.root, h.module, ?_, fun k hk hc => ?_⟩
    · rw [Context.scopes_importModule]
      exact h.root_scopes
    · rw [(Context.Grows.importModule ec id).contains k] at hc
      rw [Context.scopes_importModule]
      exact h.length k hk hc

/-! ## The context of an execution -/

namespace Context

variable {ec ec' : Context}

/-- A change of the functions of a module. -/
theorem Bare.mapModule (h : ec.Bare) (key : Str) {f : Module → Module}
    (hf : ∀ m, (f m).scopes = m.scopes) : (ec.mapModule key f).Bare := by
  have hscopes : ∀ k, (ec.mapModule key f).scopes k = ec.scopes k := by
    intro k
    rw [Context.scopes, moduleAt_mapModule]
    split_ifs
    · exact hf _
    · rfl
  exact ⟨h.root, by rw [hscopes]; exact h.root_scopes, fun k hk => by rw [hscopes, h.scopes k hk]⟩

/-- A module without a scope is added, or takes the place of another one. -/
theorem Bare.update (h : ec.Bare) (hroot : ec'.root = ec.root) (key : Str)
    (hkey : strcasecmp key [] ≠ .eq) (hnew : (ec'.moduleAt key).scopes = [])
    (hold : ∀ k, strcasecmp k key ≠ .eq → ec'.moduleAt k = ec.moduleAt k) : ec'.Bare := by
  refine ⟨hroot.trans h.root, ?_, fun k hk => ?_⟩
  · rw [Context.scopes, hold [] fun heq => hkey (strcasecmp_eq_iff.mpr
      (strcasecmp_eq_iff.mp heq).symm)]
    exact h.root_scopes
  · by_cases hk' : strcasecmp k key = .eq
    · rw [scopes_congr _ hk']
      exact hnew
    · rw [Context.scopes, hold k hk']
      exact h.scopes k hk

theorem bare_init : Context.init.Bare := by
  refine ⟨rfl, by decide, fun k hk => ?_⟩
  rw [Context.scopes, moduleAt, init, OrderedMap.find?_emplace, if_neg hk]
  rfl

theorem Bare.registerNative (h : ec.Bare) (name : Str) (fn : NativeFn) :
    (ec.registerNative name fn).Bare :=
  h.mapModule _ fun _ => rfl

theorem Bare.registerModule (h : ec.Bare) {name : Str} {m : Module}
    (hname : strcasecmp name [] ≠ .eq) (hm : m.scopes = []) : (ec.registerModule name m).Bare := by
  have hat : ∀ k, (ec.registerModule name m).moduleAt k =
      if strcasecmp k name = .eq then m else ec.moduleAt k := by
    intro k
    rw [moduleAt, Context.registerModule, OrderedMap.find?_insertOrAssign]
    split_ifs <;> rfl
  refine h.update rfl name hname ?_ fun k hk => by rw [hat, if_neg hk]
  rw [hat, if_pos (strcasecmp_self name), hm]

theorem Bare.visitItem (h : ec.Bare) {item : Item}
    (hrun : FunctionDefVisitor.visitItem ec item = .ok ec') : ec'.Bare := by
  cases item with
  | procedureDefinition d =>
    obtain ⟨params, -, hec'⟩ := Except.bind_eq_ok.mp hrun
    obtain rfl := Except.ok.inj hec'
    exact h.mapModule _ fun _ => rfl
  | moduleDefinition text =>
    obtain rfl := Except.ok.inj hrun
    unfold FunctionDefVisitor.visitModuleDefinition
    dsimp only
    split_ifs with hc
    · exact h
    · -- The root module is there, so that a new one has another name.
      have hkey : strcasecmp (removeQuotes text) [] ≠ .eq := fun heq =>
        hc ((ec.modules.contains_congr heq).trans (h.root ▸ ec.root_mem))
      have hnone : ec.modules.find? (removeQuotes text) = none := by
        simpa [OrderedMap.contains] using hc
      refine h.update rfl (removeQuotes text) hkey ?_ fun k hk => ?_
      · simp only [moduleAt, OrderedMap.find?_emplace, strcasecmp_self, if_true, hnone,
          Option.getD_none, Option.getD_some]
      · simp only [moduleAt, OrderedMap.find?_emplace, if_neg hk]
  | statement | importModule | importFile =>
    obtain rfl := Except.ok.inj hrun
    exact h

theorem Bare.visitMain (h : ec.Bare) {items : List Item}
    (hrun : FunctionDefVisitor.visitMain ec items = .ok ec') : ec'.Bare := by
  induction items generalizing ec with
  | nil =>
    obtain rfl := Except.ok.inj hrun
    exact h
  | cons item items ih =>
    obtain ⟨ec₁, hitem, hrest⟩ := Except.bind_eq_ok.mp hrun
    exact ih (h.visitItem hitem) hrest

theorem Bare.withProgram (h : ec.Bare) (items : List Item) : (ec.withProgram items).Bare := by
  unfold Context.withProgram
  cases hrun : FunctionDefVisitor.visitMain ec items with
  | ok ec' => exact h.visitMain hrun
  | error e => exact h

/-- A host that registers modules of its own, which begin without a scope. -/
theorem Bare.register (h : ec.Bare) {host : List Registration}
    (hhost : ∀ name m, .module name m ∈ host → strcasecmp name [] ≠ .eq ∧ m.scopes = []) :
    (ec.register host).Bare := by
  induction host generalizing ec with
  | nil => exact h
  | cons r host ih =>
    have hrest := fun name m hmem => hhost name m (List.mem_cons_of_mem r hmem)
    cases r with
    | native name fn => exact ih (h.registerNative name fn) hrest
    | module name m =>
      obtain ⟨hname, hm⟩ := hhost name m List.mem_cons_self
      exact ih (h.registerModule hname hm) hrest

end Context

/-! ## Assignments -/

/-- The name that is assigned. -/
def Event.assigned? : Event → Option Str
  | .assign name _ => some name
  | _ => none

/-- The assignment at this point, if there is one, calls `back()` only on a deque with a scope. -/
def Point.BackSafe (p : Point) : Prop :=
  ∀ name ∈ p.event.assigned?, ∀ r ∈ p.ec.resolve name,
    innermost r.2 (p.ec.scopes r.1) = none → p.ec.scopes r.1 ≠ []

/-- The assignment at this point, if there is one, names the root module or no module, or a
procedure of the module it names is being called. -/
def Point.PackageOpen (p : Point) : Prop :=
  ∀ name ∈ p.event.assigned?, strcasecmp (splitPackageFromId name).1 [] = .eq ∨
    p.ec.modules.contains (splitPackageFromId name).1 = false ∨
    ∃ b ∈ p.nest, b.isCallOf (splitPackageFromId name).1 = true

instance (p : Point) : Decidable p.BackSafe :=
  inferInstanceAs (Decidable (∀ name ∈ p.event.assigned?, _))

instance (p : Point) : Decidable p.PackageOpen :=
  inferInstanceAs (Decidable (∀ name ∈ p.event.assigned?, _))

section Assignment

variable {ec : Context} {nest : List Block}

/-- A package other than the root module has a scope exactly while a procedure of it is called. -/
theorem Accounts.scopes_ne_nil_iff (h : Accounts ec nest) {k : Str} (hk : strcasecmp k [] ≠ .eq)
    (hc : ec.modules.contains k = true) :
    ec.scopes k ≠ [] ↔ ∃ b ∈ nest, b.isCallOf k = true := by
  rw [← List.length_pos_iff, h.length k hk hc, List.countP_pos_iff]

/-- The deque of the module that a name resolves to. -/
theorem Accounts.safe_iff (h : Accounts ec nest) (name : Str) :
    (∀ r ∈ ec.resolve name, ec.scopes r.1 ≠ []) ↔
      strcasecmp (splitPackageFromId name).1 [] = .eq ∨
        ec.modules.contains (splitPackageFromId name).1 = false ∨
        ∃ b ∈ nest, b.isCallOf (splitPackageFromId name).1 = true := by
  unfold Context.resolve
  by_cases hpkg : strcasecmp (splitPackageFromId name).1 [] = .eq
  · -- The root module has a scope, by whatever name it is found.
    refine iff_of_true (fun r hr => ?_) (.inl hpkg)
    have hroot : strcasecmp r.1 [] = .eq := by
      dsimp only at hr
      split_ifs at hr
      · cases hr
        exact hpkg
      · cases hr
      · cases hr
        rw [Context.varModule, h.root, h.module, ite_self]
        exact strcasecmp_self []
    rw [ec.scopes_congr hroot]
    exact h.root_scopes
  · have hne : (splitPackageFromId name).1 ≠ [] := fun heq =>
      hpkg (heq ▸ strcasecmp_self _)
    cases hc : ec.modules.contains (splitPackageFromId name).1 with
    | false => simp [hne, hc]
    | true => simp [hne, hc, hpkg, h.scopes_ne_nil_iff hpkg hc]

end Assignment

/-- An empty deque binds no name. -/
theorem backSafe_iff {p : Point} : p.BackSafe ↔
    ∀ name ∈ p.event.assigned?, ∀ r ∈ p.ec.resolve name, p.ec.scopes r.1 ≠ [] := by
  refine forall₂_congr fun name _ => forall₂_congr fun r _ => ⟨fun h hempty => ?_, fun h _ => h⟩
  exact h (by rw [hempty]; rfl) hempty

/-- **An assignment calls `back()` on no empty deque** exactly when it names no package, or a
package that is not there, or one of whose procedures a call is open. -/
theorem assignment_scopes_iff (n : ℕ) (defs items : List Item) (host : List Registration)
    (hhost : ∀ name m, .module name m ∈ host → strcasecmp name [] ≠ .eq ∧ m.scopes = [])
    (tags : ℕ → ValueType) :
    ∀ p ∈ (runProgram n ((Context.init.withProgram defs).register host) tags items).final.trace,
      p.BackSafe ↔ p.PackageOpen := by
  have hbare := (Context.bare_init.withProgram defs).register hhost
  intro p hp
  have hmeets := settled_of_run stable_accounts n _ tags items hbare.accounts p hp
  rw [backSafe_iff]
  refine forall₂_congr fun name hname => (hmeets ?_).safe_iff name
  -- The context is settled where a name is assigned.
  cases he : p.event with
  | assign => rfl
  | _ =>
    rw [he] at hname
    cases hname

/-- A procedure that assigns to a name of its own module, and one that assigns to a package that is
not there. -/
def assignInModule : List Item :=
  [.statement (.assignExpr ['o', '.', 'x'] (.int ['1'])),
    .statement (.assignExpr ['r'] (.procCall ['m', '.', 'f'] [.int ['1']])),
    .moduleDefinition ['"', 'm', '"'],
    .procedureDefinition ⟨['f'], [['x']],
      [.assignExpr ['M', '.', 'X'] (.int ['2']), .returnStatement (.int ['1'])]⟩]

theorem assignment_scopes_assignInModule :
    let r := runProgram 9 ((Context.init.withProgram assignInModule).register basicrunHost)
      (fun _ => .invalid) assignInModule
    r.error? = none ∧ ∀ p ∈ r.final.trace, p.BackSafe := by
  intro r
  refine ⟨by decide +kernel, fun p hp => ?_⟩
  have hhost : ∀ name m, .module name m ∈ basicrunHost →
      strcasecmp name [] ≠ .eq ∧ m.scopes = [] := by
    intro name m hmem
    simp only [basicrunHost, List.mem_cons, Registration.module.injEq, List.not_mem_nil, or_false,
      reduceCtorEq] at hmem
    obtain ⟨rfl, rfl⟩ := hmem
    decide
  have hopen : ∀ p ∈ r.final.trace, p.PackageOpen := by decide +kernel
  exact (assignment_scopes_iff 9 assignInModule assignInModule basicrunHost hhost _ p hp).mpr
    (hopen p hp)

/-- `MODULE "m"` and then `m.x = 1`. -/
def assignIntoModule : List Item :=
  [.moduleDefinition ['"', 'm', '"'], .statement (.assignExpr ['m', '.', 'x'] (.int ['1']))]

/-- The assignment calls `back()` on the empty deque of the module. -/
theorem assignment_scopes_empty :
    let r := runProgram 9 ((Context.init.withProgram assignIntoModule).register basicrunHost)
      (fun _ => .invalid) assignIntoModule
    r.error? = some .emptyBack ∧ ∃ p ∈ r.final.trace, ¬ p.BackSafe := by
  decide +kernel

end WwivBasic
