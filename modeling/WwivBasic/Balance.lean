import WwivBasic.FunctionDef
import WwivBasic.VisitorRules

/-!
# Calls and loops are balanced

`Module::call` and `visitForStatement` push a scope and pop it again, possibly on different
modules, with visits of any depth between. A completed visit leaves every deque with the scopes
it had: their values and variables may have changed, their number and names have not. During
the visit the deques only grow, and no function is registered or removed.

## Main definitions

* `Machine.passed s t`: the points of the run between two states
* `Machine.PassesCall`: the points of a call, around those of its body
* `Machine.Reaches`, `Machine.Returns`, `Machine.InLoop`: a state during a visit, after it, and
  inside one of its `FOR` loops
* `Relations.balance`: these as relations of visits

## Main results

* `rules_balance`: every step keeps them
* `module_eq_root`: a program is executed with the root module current
* `fnNames_preserved`: a completed visit preserves the names of all scopes
-/

namespace WwivBasic

open EStateM

/-! ## The points between two states -/

namespace Machine

/-- The points the run passes from `s` to `t`. -/
def passed (s t : Machine) : List Point := t.trace.drop s.trace.length

variable {s t u : Machine}

theorem trace_eq (h : s.trace <+: t.trace) : t.trace = s.trace ++ s.passed t := by
  obtain ⟨E, hE⟩ := h
  rw [passed, ← hE, List.drop_left]

@[simp] theorem passed_self : s.passed s = [] := by
  rw [passed, List.drop_length]

theorem passed_trans (h : s.trace <+: t.trace) (h' : t.trace <+: u.trace) :
    s.passed u = s.passed t ++ t.passed u := by
  have hu : u.trace = s.trace ++ (s.passed t ++ t.passed u) := by
    rw [trace_eq h', trace_eq h, List.append_assoc]
  rw [passed, hu, List.drop_left]

theorem passed_note (h : s.trace <+: t.trace) (e : Event) :
    s.passed (t.note e) = s.passed t ++ [t.point e] := by
  rw [passed_trans h (List.prefix_append _ _), passed, passed, note, List.drop_left]

end Machine

/-- Events after the statements of a procedure have ended. -/
def Event.isEnd : Event → Bool
  | .bodyEnd | .made _ | .leave _ => true
  | _ => false

/-! ## Deques that grow -/

/-- The context of a later state of a visit: scopes may have been pushed. -/
structure Context.Grows (ec ec' : Context) : Prop where
  root : ec'.root = ec.root
  module : ec'.module = ec.module
  contains : ∀ k, ec'.modules.contains k = ec.modules.contains k
  functions : ∀ k, (ec'.moduleAt k).functions = (ec.moduleAt k).functions
  fnNames : ∀ k, ec.fnNames k <+: ec'.fnNames k

namespace Context

variable {ec ec' ec'' : Context}

theorem Grows.refl : ec.Grows ec :=
  ⟨rfl, rfl, fun _ => rfl, fun _ => rfl, fun _ => List.prefix_rfl⟩

theorem Grows.trans (h : ec.Grows ec') (h' : ec'.Grows ec'') : ec.Grows ec'' :=
  ⟨h'.root.trans h.root, h'.module.trans h.module,
    fun k => (h'.contains k).trans (h.contains k),
    fun k => (h'.functions k).trans (h.functions k),
    fun k => (h.fnNames k).trans (h'.fnNames k)⟩

/-- An update of one deque, by what it does to the names. -/
theorem Grows.mapScopes (h : ec.Grows ec') (owner : Str) {f : List Scope → List Scope}
    (hf : ∀ k, ec.fnNames k <+: (ec'.mapScopes owner f).fnNames k) :
    ec.Grows (ec'.mapScopes owner f) :=
  ⟨h.root, h.module, fun k => (contains_mapScopes ..).trans (h.contains k),
    fun k => (functions_mapScopes ..).trans (h.functions k), hf⟩

theorem length_fnNames (k : Str) : (ec.fnNames k).length = (ec.scopes k).length :=
  List.length_map _

theorem fnNames_push (owner k : Str) (sc : Scope) :
    (ec.mapScopes owner (· ++ [sc])).fnNames k =
      if strcasecmp k owner = .eq ∧ ec.modules.contains k then ec.fnNames k ++ [sc.fnName]
      else ec.fnNames k :=
  ec.fnNames_mapScopes owner k (g := (· ++ [sc.fnName])) fun l => by
    rw [List.map_append, List.map_singleton]

theorem fnNames_pop (owner k : Str) :
    (ec.mapScopes owner List.dropLast).fnNames k =
      if strcasecmp k owner = .eq ∧ ec.modules.contains k then (ec.fnNames k).dropLast
      else ec.fnNames k :=
  ec.fnNames_mapScopes owner k (g := List.dropLast) fun l => by rw [List.map_dropLast]

/-- A change of the variables of the scopes changes no name. -/
theorem fnNames_mapScopes_of_eq (owner k : Str) {f : List Scope → List Scope}
    (hf : ∀ l, (f l).map Scope.fnName = l.map Scope.fnName) :
    (ec.mapScopes owner f).fnNames k = ec.fnNames k := by
  rw [ec.fnNames_mapScopes owner k (g := id) hf, id, ite_self]

@[simp] theorem fnNames_upserted (name : Str) (value : Value) (k : Str) :
    (ec.upserted name value).fnNames k = ec.fnNames k := by
  unfold upserted
  split
  · exact fnNames_mapScopes_of_eq _ k fun l => map_fnName_upsertScopes ..
  · rfl

theorem Grows.upserted (name : Str) (value : Value) : ec.Grows (ec.upserted name value) := by
  have hnames : ∀ k, ec.fnNames k <+: (ec.upserted name value).fnNames k :=
    fun k => (fnNames_upserted name value k).symm ▸ List.prefix_rfl
  unfold Context.upserted at hnames ⊢
  split
  · rename_i r hr
    rw [hr] at hnames
    exact Grows.refl.mapScopes r.1 hnames
  · exact Grows.refl

end Context

/-! ## States of a visit -/

/-- `t` is a state of a visit that began in `s`. -/
structure Machine.Reaches (s t : Machine) : Prop where
  trace : s.trace <+: t.trace
  nest : s.nest <:+ t.nest
  ec : s.ec.Grows t.ec
  points : ∀ p ∈ s.passed t, s.nest <:+ p.nest ∧ s.ec.Grows p.ec

/-- A visit that began in `s` is complete in `t`. -/
structure Machine.Returns (s t : Machine) : Prop extends s.Reaches t where
  nest_eq : t.nest = s.nest
  fnNames_eq : ∀ k, t.ec.fnNames k = s.ec.fnNames k

/-- `t` is a state of the `FOR` that began in `s`, between two visits of its body. -/
structure Machine.InLoop (s : Machine) (loop : ForLoop) (t : Machine) : Prop
    extends s.Reaches t where
  owner : loop.owner = s.ec.module
  position : loop.position = (s.ec.scopes loop.owner).length
  nest_eq : t.nest = .loop loop.varname :: s.nest
  fnNames_eq : ∀ k, t.ec.fnNames k =
    if strcasecmp k loop.owner = .eq ∧ s.ec.modules.contains k then
      s.ec.fnNames k ++ [forText ++ loop.varname]
    else s.ec.fnNames k

namespace Machine

variable {s t u : Machine}

theorem Reaches.refl : s.Reaches s :=
  ⟨List.prefix_rfl, List.suffix_rfl, .refl, fun p hp => by simp at hp⟩

theorem Reaches.trans (h : s.Reaches t) (h' : t.Reaches u) : s.Reaches u where
  trace := h.trace.trans h'.trace
  nest := h.nest.trans h'.nest
  ec := h.ec.trans h'.ec
  points p hp := by
    rw [passed_trans h.trace h'.trace, List.mem_append] at hp
    -- What `t` has reached, `s` has reached through it.
    rcases hp with hp | hp
    · exact h.points p hp
    · exact ⟨h.nest.trans (h'.points p hp).1, h.ec.trans (h'.points p hp).2⟩

theorem Reaches.note (h : s.Reaches t) (e : Event) : s.Reaches (t.note e) where
  trace := h.trace.trans (List.prefix_append _ _)
  nest := h.nest
  ec := h.ec
  points p hp := by
    rw [passed_note h.trace, List.mem_append, List.mem_singleton] at hp
    rcases hp with hp | rfl
    · exact h.points p hp
    · exact ⟨h.nest, h.ec⟩

/-- A step that passes no point. -/
theorem Reaches.update (h : s.Reaches t) (htrace : u.trace = t.trace) (hnest : s.nest <:+ u.nest)
    (hec : s.ec.Grows u.ec) : s.Reaches u where
  trace := htrace ▸ h.trace
  nest := hnest
  ec := hec
  points p hp := h.points p (by rwa [passed, htrace] at hp)

theorem Returns.refl : s.Returns s := ⟨.refl, rfl, fun _ => rfl⟩

theorem Returns.trans (h : s.Returns t) (h' : t.Returns u) : s.Returns u :=
  ⟨h.toReaches.trans h'.toReaches, h'.nest_eq.trans h.nest_eq,
    fun k => (h'.fnNames_eq k).trans (h.fnNames_eq k)⟩

theorem Returns.note (h : s.Returns t) (e : Event) : s.Returns (t.note e) :=
  ⟨h.toReaches.note e, h.nest_eq, h.fnNames_eq⟩

/-- A step that passes no point and leaves the context alone. -/
theorem Returns.update (h : s.Returns t) (htrace : u.trace = t.trace) (hnest : u.nest = t.nest)
    (hec : u.ec = t.ec) : s.Returns u :=
  ⟨h.toReaches.update htrace (hnest ▸ h.nest) (hec ▸ h.ec), hnest.trans h.nest_eq,
    fun k => hec ▸ h.fnNames_eq k⟩

theorem grows_push (s : Machine) (owner : Str) (sc : Scope) :
    s.ec.Grows (s.pushScope owner sc).ec := by
  have hnames : ∀ k, s.ec.fnNames k <+: (s.ec.mapScopes owner (· ++ [sc])).fnNames k := by
    intro k
    rw [Context.fnNames_push]
    split_ifs
    · exact List.prefix_append _ _
    · exact List.prefix_rfl
  exact Context.Grows.refl.mapScopes owner hnames

theorem reaches_enterCall (s : Machine) (owner function : Str) (sc : Scope)
    (args : List Value) : s.Reaches (s.enterCall owner function sc args) :=
  -- The push and the block come before the only point, that of the entry.
  have hopen : s.Reaches ((s.pushScope owner sc).openBlock (.call owner function)) :=
    Reaches.refl.update (t := s) rfl (List.suffix_cons _ _) (s.grows_push owner sc)
  hopen.note _

theorem reaches_enterNative (s : Machine) (owner function : Str) (sc : Scope)
    (args : List Value) (converted : List Str) :
    s.Reaches (s.enterNative owner function sc args converted) :=
  have hpush : s.Reaches (s.pushScope owner sc) :=
    Reaches.refl.update (t := s) rfl List.suffix_rfl (s.grows_push owner sc)
  have hnote := hpush.note (.native function args)
  hnote.update rfl hnote.nest hnote.ec

/-- The scopes after a pop are those before the push. -/
theorem fnNames_pop_push {owner k : Str} {sc : Scope}
    (hc : t.ec.modules.contains k = s.ec.modules.contains k)
    (h : t.ec.fnNames k = (s.pushScope owner sc).ec.fnNames k) :
    (t.popScope owner).ec.fnNames k = s.ec.fnNames k := by
  simp only [popScope, pushScope, mapContext, Context.fnNames_pop, Context.fnNames_push, hc] at h ⊢
  -- The deque that lost its last name is the one that got it.
  split_ifs at h ⊢
  · rw [h, List.dropLast_concat]
  · exact h

/-- The pop that ends a visit begun with a push. -/
theorem Reaches.popScope (h : s.Reaches t) {owner : Str} {sc : Scope}
    (hnames : ∀ k, t.ec.fnNames k = (s.pushScope owner sc).ec.fnNames k)
    (hnest : t.nest = s.nest) : s.Returns (t.popScope owner) := by
  have hpop : ∀ k, (t.popScope owner).ec.fnNames k = s.ec.fnNames k :=
    fun k => fnNames_pop_push (h.ec.contains k) (hnames k)
  -- The names after the pop are those of `s`, so that they are also a prefix.
  refine ⟨h.update rfl (hnest ▸ List.suffix_rfl) (h.ec.mapScopes owner fun k => ?_), hnest, hpop⟩
  exact (hpop k).symm ▸ List.prefix_rfl

section Call

variable {owner function : Str} {sc : Scope} {args : List Value}
  (h : (s.enterCall owner function sc args).Returns t)

include h

theorem Returns.nest_leaveBody (a : AnyVal) : (t.leaveBody a).nest = s.nest := by
  show t.nest.tail = s.nest
  rw [h.nest_eq]
  rfl

theorem Returns.leaveBody (a : AnyVal) : s.Reaches (t.leaveBody a) := by
  have hreach : s.Reaches t := (s.reaches_enterCall owner function sc args).trans h.toReaches
  exact ((hreach.note .bodyEnd).update (u := (t.note .bodyEnd).closeBlock.dropTag) rfl
    (h.nest_leaveBody a ▸ List.suffix_rfl) hreach.ec).note _

/-- A call is balanced when the visit of its body is. -/
theorem Returns.exitCall (a : AnyVal) (v : Value) :
    s.Returns ((t.leaveBody a).exitCall owner v) :=
  ((h.leaveBody a).popScope h.fnNames_eq (h.nest_leaveBody a)).note _

end Call

theorem inLoop_enterLoop (s : Machine) (loop : ForLoop) (start : Value)
    (howner : loop.owner = s.ec.module)
    (hposition : loop.position = (s.ec.scopes loop.owner).length) :
    s.InLoop loop (s.enterLoop loop start) where
  toReaches := (Reaches.refl.note _).update rfl (List.suffix_cons _ _) (s.grows_push loop.owner _)
  owner := howner
  position := hposition
  nest_eq := rfl
  fnNames_eq _ := Context.fnNames_push ..

theorem InLoop.setVarAt {loop : ForLoop} (h : s.InLoop loop t) (i : Int32) :
    s.InLoop loop (t.setVarAt loop.owner loop.position loop.varname i) := by
  -- The variable is assigned in its scope, whose name stays.
  have hnames : ∀ k, (t.setVarAt loop.owner loop.position loop.varname i).ec.fnNames k =
      t.ec.fnNames k := fun k =>
    Context.fnNames_mapScopes_of_eq _ k fun l => map_fnName_modify _ _ fun sc => rfl
  exact
    { toReaches := h.update rfl h.nest (h.ec.mapScopes _ fun k => (hnames k).symm ▸ h.ec.fnNames k)
      owner := h.owner
      position := h.position
      nest_eq := h.nest_eq
      fnNames_eq := fun k => (hnames k).trans (h.fnNames_eq k) }

theorem InLoop.body {loop : ForLoop} (h : s.InLoop loop t) (h' : t.Returns u) :
    s.InLoop loop u where
  toReaches := h.toReaches.trans h'.toReaches
  owner := h.owner
  position := h.position
  nest_eq := h'.nest_eq.trans h.nest_eq
  fnNames_eq k := (h'.fnNames_eq k).trans (h.fnNames_eq k)

theorem InLoop.exitLoop {loop : ForLoop} (h : s.InLoop loop t) : s.Returns (t.exitLoop loop) := by
  have hnest : t.closeBlock.nest = s.nest := by
    rw [closeBlock, h.nest_eq, List.tail_cons]
  have hclose : s.Reaches t.closeBlock := h.update rfl (hnest ▸ List.suffix_rfl) h.ec
  -- The names inside the `FOR` are those after its push.
  have hnames : ∀ k, t.closeBlock.ec.fnNames k =
      (s.pushScope loop.owner ⟨forText ++ loop.varname, ∅⟩).ec.fnNames k := by
    intro k
    rw [pushScope, mapContext, Context.fnNames_push]
    exact h.fnNames_eq k
  exact hclose.popScope hnames hnest

/-! ### The points of calls and loops -/

theorem passed_enterCall (s : Machine) (owner function : Str) (sc : Scope) (args : List Value) :
    s.passed (s.enterCall owner function sc args) =
      [((s.pushScope owner sc).openBlock (.call owner function)).point
        (.enter function args)] := by
  rw [enterCall, passed_note]
  · exact congrArg (· ++ _) passed_self
  · exact List.prefix_rfl

/-- From `s` to `u` a call is entered, its statements run to `t`, and the points after them end
the call. -/
def PassesCall (s : Machine) (owner function : Str) (sc : Scope) (args : List Value)
    (t u : Machine) : Prop :=
  ∃ E : List Point, s.passed u = s.passed (s.enterCall owner function sc args) ++
    (s.enterCall owner function sc args).passed t ++ E ∧ ∀ p ∈ E, p.event.isEnd = true

section Call

variable {owner function : Str} {sc : Scope} {args : List Value}

/-- What holds of the entry, of the points of the body and of all points that end a call. -/
theorem PassesCall.forall (h : s.PassesCall owner function sc args t u) {P : Point → Prop}
    (henter : P (((s.pushScope owner sc).openBlock (.call owner function)).point
      (.enter function args)))
    (hbody : ∀ p ∈ (s.enterCall owner function sc args).passed t, P p)
    (hend : ∀ p : Point, p.event.isEnd = true → P p) : ∀ p ∈ s.passed u, P p := by
  obtain ⟨E, hu, hE⟩ := h
  rw [hu, List.forall_mem_append, List.forall_mem_append, passed_enterCall,
    List.forall_mem_singleton]
  exact ⟨⟨henter, hbody⟩, fun p hp => hend p (hE p hp)⟩

/-- The points of the body are among those of the call. -/
theorem PassesCall.body (h : s.PassesCall owner function sc args t u) {P : Point → Prop}
    (hP : ∀ p ∈ s.passed u, P p) : ∀ p ∈ (s.enterCall owner function sc args).passed t, P p := by
  obtain ⟨E, hu, -⟩ := h
  rw [hu, List.forall_mem_append, List.forall_mem_append] at hP
  exact hP.1.2

theorem PassesCall.note (h : s.PassesCall owner function sc args t u) (hu : s.trace <+: u.trace)
    {e : Event} (he : e.isEnd = true) : s.PassesCall owner function sc args t (u.note e) := by
  obtain ⟨E, hE, hend⟩ := h
  refine ⟨E ++ [u.point e], ?_, ?_⟩
  · rw [passed_note hu, hE, List.append_assoc]
  · exact List.forall_mem_append.mpr ⟨hend, List.forall_mem_singleton.mpr he⟩

variable (h : (s.enterCall owner function sc args).trace <+: t.trace)

include h

/-- A call that is still in its body. -/
theorem passesCall_body : s.PassesCall owner function sc args t t := by
  refine ⟨[], ?_, nofun⟩
  rw [List.append_nil]
  exact passed_trans (s.reaches_enterCall owner function sc args).trace h

theorem passesCall_leaveBody (a : AnyVal) :
    s.PassesCall owner function sc args t (t.leaveBody a) := by
  have htrace := (s.reaches_enterCall owner function sc args).trace.trans h
  have hend : s.PassesCall owner function sc args t (t.note .bodyEnd).closeBlock.dropTag :=
    (passesCall_body h).note htrace rfl
  exact hend.note (htrace.trans (List.prefix_append _ _)) rfl

theorem passesCall_exitCall (a : AnyVal) (v : Value) :
    s.PassesCall owner function sc args t ((t.leaveBody a).exitCall owner v) := by
  have htrace := (s.reaches_enterCall owner function sc args).trace.trans h
  have hpop : s.PassesCall owner function sc args t ((t.leaveBody a).popScope owner) :=
    passesCall_leaveBody h a
  exact hpop.note (htrace.trans ((List.prefix_append _ _).trans (List.prefix_append _ _))) rfl

end Call

theorem passed_enterNative (s : Machine) (owner function : Str) (sc : Scope)
    (args : List Value) (converted : List Str) :
    s.passed (s.enterNative owner function sc args converted) =
      [(s.pushScope owner sc).point (.native function args)] :=
  (passed_note (t := s.pushScope owner sc) List.prefix_rfl _).trans (congrArg (· ++ _) passed_self)

theorem passed_exitNative (s : Machine) (owner function : Str) (sc : Scope) (args : List Value)
    (converted : List Str) (v : Value) :
    s.passed ((s.enterNative owner function sc args converted).exitCall owner v) =
      [(s.pushScope owner sc).point (.native function args),
        ((s.enterNative owner function sc args converted).popScope owner).point (.leave v)] := by
  have htrace := (s.reaches_enterNative owner function sc args converted).trace
  refine (passed_note (t := (s.enterNative owner function sc args converted).popScope owner) htrace
    _).trans ?_
  exact congrArg (· ++ _) (s.passed_enterNative owner function sc args converted)

theorem passed_enterLoop (s : Machine) (loop : ForLoop) (start : Value) :
    s.passed (s.enterLoop loop start) = [s.point (.loopVar loop.varname)] :=
  (passed_note List.prefix_rfl _).trans (congrArg (· ++ _) passed_self)

/-- The points of a call of a procedure, wherever it ends: none without the right number of
arguments, and else those around the points of its statements. -/
theorem passed_call_basic {v : Visitor} {self function : Str} {args : List Value} {s : Machine}
    {fn : BasicFunction} {defFn : ProcedureDefinition}
    (hfn : (s.ec.moduleAt self).functions.find? function = some fn) (hbody : fn.body = .basic defFn)
    {I : Machine → Prop}
    (htrace : ∀ t, I t →
      (s.enterCall self function (bindParams ⟨function, ∅⟩ fn.params args) args).trace <+: t.trace)
    (hrun : wp (v.statements defFn.statements) (fun _ => I) (fun _ => I)
      (s.enterCall self function (bindParams ⟨function, ∅⟩ fn.params args) args)) :
    s.passed (Module.call v self function args s).final = [] ∨
      args.length = fn.params.length ∧ ∃ t, I t ∧ s.PassesCall self function
        (bindParams ⟨function, ∅⟩ fn.params args) args t
        (Module.call v self function args s).final := by
  refine wp_final (P := fun u => s.passed u = [] ∨ args.length = fn.params.length ∧ ∃ t, I t ∧
    s.PassesCall self function (bindParams ⟨function, ∅⟩ fn.params args) args t u)
    (wp_call (.inl passed_self) (fun fn' defFn' hfn' hbody' hlen => ?_)
      fun fn' cppFn hfn' hbody' => ?_)
  · obtain rfl : fn = fn' := Option.some.inj (hfn.symm.trans hfn')
    obtain rfl : defFn = defFn' := FunctionBody.basic.inj (hbody.symm.trans hbody')
    refine wp_mono hrun (fun a t ht => ⟨?_, fun _ _ => ?_⟩) fun _ t ht => ?_
    · exact .inr ⟨hlen, t, ht, passesCall_exitCall (htrace t ht) a _⟩
    · exact .inr ⟨hlen, t, ht, passesCall_leaveBody (htrace t ht) a⟩
    · exact .inr ⟨hlen, t, ht, passesCall_body (htrace t ht)⟩
  · obtain rfl : fn = fn' := Option.some.inj (hfn.symm.trans hfn')
    -- The function is not a native one.
    rw [hbody] at hbody'
    cases hbody'

end Machine

/-! ## The invariant -/

/-- A completed visit returns, and a stopped one was still under way. -/
def Relations.balance : Relations where
  expr := Machine.Returns
  call := Machine.Returns
  stmt s _ t := s.Returns t
  loop := Machine.InLoop
  stop := Machine.Reaches

/-- **Calls and loops are balanced.** -/
theorem rules_balance : Rules .trivial .balance where
  refl _ := .refl
  trans _ _ _ _ _ h h' := h.trans h'
  stop _ _ _ h := h.toReaches
  trans_stop _ _ _ _ _ h h' := h.toReaches.trans h'
  note _ e _ := Machine.Returns.refl.note e
  read _ _ := Machine.Returns.refl.note _
  dropTag _ := Machine.Returns.refl.update rfl rfl rfl
  readNumbers _ _ _ := Machine.Returns.refl.update rfl rfl rfl
  -- An assignment may create a variable, but no scope.
  assign _ name value :=
    ⟨(Machine.Reaches.refl.note _).update rfl List.suffix_rfl (.upserted name value), rfl,
      fun _ => Context.fnNames_upserted ..⟩
  assign_stop _ _ _ := Machine.Reaches.refl.note _
  call_refl _ := .refl
  call_clear _ _ _ h := h.update rfl rfl rfl
  -- The body is balanced, so that the pop meets the scope that the call has pushed.
  call_body _ _ _ _ _ a _ _ h := h.exitCall a _
  call_print _ _ _ _ _ a _ _ h := h.leaveBody a
  call_stop s owner function sc args _ _ h := (s.reaches_enterCall owner function sc args).trans h
  native s owner function sc args converted _ :=
    ((s.reaches_enterNative owner function sc args converted).popScope (fun _ => rfl) rfl).note _
  native_stop s owner function sc args converted :=
    s.reaches_enterNative owner function sc args converted
  start _ _ _ _ h := (Machine.Returns.refl.note _).trans h
  start_stop _ _ _ h := (Machine.Reaches.refl.note _).trans h
  simple _ _ _ h := h
  block _ _ _ _ _ _ h h' := h.trans h'
  next _ _ _ _ _ _ _ _ h h' := h.trans h'
  next_stop _ _ _ _ _ _ _ h h' := h.toReaches.trans h'
  ret _ _ _ _ h := (h.note _).update rfl rfl rfl
  -- So it is with the scope of a `FOR`, after each visit of its body.
  loop_enter s loop start ho hp := s.inLoop_enterLoop loop start ho hp
  loop_set _ _ _ i _ h := h.setVarAt i
  loop_read _ _ _ _ _ h := h.body (Machine.Returns.refl.update rfl rfl rfl)
  loop_body _ _ _ _ _ _ _ h h' := h.body h'
  loop_stop _ _ _ _ h := h.toReaches
  loop_body_stop _ _ _ _ _ _ h h' := h.toReaches.trans h'
  loop_exit _ _ _ _ h := h.exitLoop

/-! ## The names of the scopes -/

theorem Context.scopes_importModule (ec : Context) (id k : Str) :
    (ec.importModule id).scopes k = ec.scopes k := by
  rw [scopes, importModule, moduleAt_mapModule]
  split_ifs <;> rfl

theorem Context.Grows.importModule (ec : Context) (id : Str) : ec.Grows (ec.importModule id) where
  root := rfl
  module := rfl
  contains k := OrderedMap.contains_modify ..
  functions k := by
    rw [Context.importModule, moduleAt_mapModule]
    split_ifs <;> rfl
  fnNames k := by
    have hnames : (ec.importModule id).fnNames k = ec.fnNames k :=
      congrArg _ (ec.scopes_importModule id k)
    exact hnames ▸ List.prefix_rfl

/-- **A program is executed with the root module current**, whatever modules it calls into. -/
theorem module_eq_root (n : ℕ) (ec : Context) (tags : ℕ → ValueType) (items : List Item) :
    ∀ p ∈ (runProgram n ec tags items).final.trace, p.ec.module = p.ec.root := by
  let s : Machine := (Machine.start ec tags).mapContext Context.toRoot
  have hrun : s.Reaches (runProgram n ec tags items).final := by
    apply wp_final (m := visitMain (visitor n) items)
    apply wp_visitItems rules_balance
    · exact fun _ h => h.note .item
    · exact fun _ _ _ h h' => h.trans h'.toReaches
    · exact fun _ _ h h' => h.trans h'
    · intro t id h
      exact h.update rfl h.nest (h.ec.trans (.importModule t.ec id))
    · exact .refl
  intro p hp
  have hgrows := (hrun.points p hp).2
  exact hgrows.module.trans hgrows.root.symm

/-- **A completed visit preserves the scopes of every module**, in number and by name: of an
expression, of a statement, and of a whole program. -/
theorem fnNames_preserved (n : ℕ) (s t : Machine) :
    (∀ e a, visitExpr (visitor n) e s = .ok a t →
        ∀ key, t.ec.fnNames key = s.ec.fnNames key) ∧
      (∀ stmt a, visitStatement (visitor n) stmt s = .ok a t →
        ∀ key, t.ec.fnNames key = s.ec.fnNames key) ∧
      ∀ items, visitMain (visitor n) items s = .ok ⟨⟩ t →
        ∀ key, t.ec.fnNames key = s.ec.fnNames key := by
  have hv := visitor_keeps rules_balance n
  refine ⟨fun e a hrun => ?_, fun stmt a hrun => ?_, fun items hrun => ?_⟩
  · exact (wp_ok (keeps_visitExpr rules_balance hv e s) hrun).fnNames_eq
  · exact (wp_ok (keepsStmt_visitStatement rules_balance hv stmt s) hrun).fnNames_eq
  -- A program: each item preserves the names, and an `IMPORT` touches no deque.
  · have hitems := wp_visitItems rules_balance (S := fun _ => True)
      (I := fun t => ∀ key, t.ec.fnNames key = s.ec.fnNames key)
      (fun _ h => h) (fun _ _ _ h h' key => (h'.fnNames_eq key).trans (h key))
      (fun _ _ _ _ => trivial)
      (fun u id h key => (congrArg _ (u.ec.scopes_importModule id key)).trans (h key))
      n items (s.mapContext Context.toRoot) fun _ => rfl
    exact wp_ok (m := visitMain (visitor n) items) hitems hrun

/-- A procedure, and a `FOR` that calls it. -/
def loopWithCall : List Item :=
  [.procedureDefinition ⟨['f'], [['x']], [.returnStatement (.ident ['x'])]⟩,
    .statement (.forStatement ['i'] (.int ['1']) (.int ['2']) none
      [.assignExpr ['r'] (.procCall ['f'] [.ident ['i']])])]

theorem fnNames_preserved_loopWithCall :
    let s := Machine.start (Context.init.withProgram loopWithCall) fun _ => .invalid
    ∃ t, visitMain (visitor 9) loopWithCall s = .ok ⟨⟩ t ∧
      ∀ key, t.ec.fnNames key = s.ec.fnNames key := by
  intro s
  obtain ⟨_, t, hrun⟩ := Result.exists_ok
    (r := visitMain (visitor 9) loopWithCall s) (by decide +kernel)
  exact ⟨t, hrun, (fnNames_preserved 9 s t).2.2 loopWithCall hrun⟩

end WwivBasic
