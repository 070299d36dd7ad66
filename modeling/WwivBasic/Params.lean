import Mathlib.Data.List.TakeWhile
import WwivBasic.Frame
import WwivBasic.Returns

/-!
# Parameters

A call binds its parameters in a new scope of the module that owns the procedure, and a name is
looked up from the top of the deque of the current module. Where the two modules are the same,
a read in the body of the procedure finds the parameter under the scopes of the `FOR` loops that
the body has open. These bind no name of the scopes below them but their variables, since an
assignment of a name that is bound creates nothing.

## Main definitions

* `Machine.Covers`: above the scopes of a state, the reads of its activation find the variables
  of open `FOR` loops only
* `Relations.shadow`: this as an invariant of visits
* `Point.InLoopOver`: a point in a `FOR` over a name

## Main results

* `rules_shadow`: every step keeps the invariant
* `param_read`: a parameter that no assignment has written is read as its argument
-/

namespace WwivBasic

open EStateM

/-! ## The parameters of a call -/

/-- A name that is no parameter is bound as before. -/
theorem value?_bindParams_of_forall {sc : Scope} {names : List Str} {args : List Value} {x : Str}
    (h : ∀ a ∈ names, strcasecmp x a ≠ .eq) :
    (bindParams sc names args).value? x = sc.value? x := by
  induction names generalizing sc args with
  | nil => rfl
  | cons a names ih =>
    obtain ⟨ha, hnames⟩ := List.forall_mem_cons.mp h
    rcases args with _ | ⟨v, args⟩
    · rfl
    · rw [bindParams, ih hnames, Scope.value?_insertOrAssign, if_neg ha]

/-- A parameter is bound to its argument, unless a later parameter has its name. -/
theorem value?_bindParams {sc : Scope} {names : List Str} {args : List Value} {j : ℕ} {a : Str}
    {v : Value} (h : names.Pairwise fun a b => strcasecmp a b ≠ .eq) (ha : names[j]? = some a)
    (hv : args[j]? = some v) : (bindParams sc names args).value? a = some v := by
  induction names generalizing sc args j with
  | nil => cases ha
  | cons b names ih =>
    obtain ⟨hb, hnames⟩ := List.pairwise_cons.mp h
    cases args with
    | nil => cases hv
    | cons w args =>
      -- The first parameter is bound first, and no later one has its name.
      cases j with
      | zero =>
        obtain rfl : b = a := by simpa using ha
        obtain rfl : w = v := by simpa using hv
        rw [bindParams, value?_bindParams_of_forall hb, Scope.value?_insertOrAssign,
          if_pos (strcasecmp_self b)]
      | succ j => exact ih hnames (by simpa using ha) (by simpa using hv)

/-! ## Names that are bound stay where they are -/

section Bound

variable {s t : Machine} {key x : Str} {i k : ℕ}

theorem lt_of_isSome_cell {ec : Context} (h : (ec.cell key k x).isSome) :
    k < (ec.scopes key).length := by
  by_contra hk
  rw [Context.cell_eq_none (Nat.le_of_not_lt hk)] at h
  cases h

/-- A variable stays bound. -/
theorem Machine.Tracks.bound (h : s.Tracks t) (hk : (s.ec.cell key k x).isSome) :
    ∀ p ∈ s.passed t, (p.ec.cell key k x).isSome := by
  intro p hp
  obtain ⟨E, E', hE⟩ := List.append_of_mem hp
  have halong := h key k x (lt_of_isSome_cell hk)
  rw [hE] at halong
  have hcell : p.ec.cell key k x = E.replay (Point.written key k x) (s.ec.cell key k x) :=
    halong.at
  rw [hcell, List.isSome_replay, hk, Bool.true_or]

/-- The assignments of a name that is bound create no variable. -/
theorem Machine.Tracks.isSome_replay (h : s.Tracks t) (hk : (s.ec.cell key k x).isSome)
    (hi : i < (s.ec.scopes key).length) {E E' : List Point} (hE : s.passed t = E ++ E') :
    (E.replay (Point.written key i x) (s.ec.cell key i x)).isSome =
      (s.ec.cell key i x).isSome := by
  have halong := h key i x hi
  rw [hE, List.along_append] at halong
  refine halong.1.foldl (I := fun c => c.isSome = (s.ec.cell key i x).isSome) rfl
    fun c p hp hcell hc => ?_
  -- The name is bound at every point, so that an assignment of it finds a variable.
  have hbound := h.bound hk p (hE ▸ List.mem_append_left _ hp)
  cases hw : p.written key i x with
  | none => exact hc
  | some value =>
    obtain ⟨name, -, hwrites⟩ := Point.writes_of_written hw
    have hc' : c.isSome := by
      rcases hwrites.isSome_or with hcreated | ⟨hnone, -⟩
      · exact hcell ▸ hcreated
      · rw [Context.innermost_eq_none_iff.mp hnone k] at hbound
        cases hbound
    rw [← hc, hc']
    rfl

theorem Machine.Tracks.isSome_cell (h : s.Tracks t) (hk : (s.ec.cell key k x).isSome)
    (hi : i < (s.ec.scopes key).length) :
    ∀ p ∈ s.passed t, (p.ec.cell key i x).isSome = (s.ec.cell key i x).isSome := by
  intro p hp
  obtain ⟨E, E', hE⟩ := List.append_of_mem hp
  have halong := h key i x hi
  rw [hE] at halong
  rw [← h.isSome_replay hk hi hE]
  exact congrArg _ halong.at

theorem Machine.Frames.isSome_cell (h : s.Frames t) (hk : (s.ec.cell key k x).isSome)
    (hi : i < (s.ec.scopes key).length) :
    (t.ec.cell key i x).isSome = (s.ec.cell key i x).isSome := by
  rw [h.cell key i x hi]
  exact h.tracks.isSome_replay hk hi (List.append_nil _).symm

end Bound

/-! ## What lies above the scopes of a state -/

/-- At a point in `FOR` loops of the activation that `s` belongs to, the scopes above those of
`s` bind no name that `s` binds, but the variables of these loops. -/
def Machine.Covers (s : Machine) (p : Point) : Prop :=
  ∀ loops, p.nest = loops ++ s.nest → (∀ b ∈ loops, b.isLoop = true) →
    ∀ key k x, (s.ec.cell key k x).isSome → ∀ j, (s.ec.scopes key).length ≤ j →
      (p.ec.cell key j x).isSome → ∃ var, .loop var ∈ loops ∧ strcasecmp x var = .eq

/-- A read finds what its name refers to, and `s` is covered there. -/
def Machine.ReadsFrom (s : Machine) (p : Point) : Prop :=
  ∀ name result, p.event = .read name result →
    result = (p.ec.findVar name).map Var.value_ ∧ s.Covers p

/-- Every read of a visit is covered. The scope of a `FOR` binds no name that is bound below it
but the variable of the `FOR`. -/
def Relations.shadow : Relations where
  expr s t := ∀ p ∈ s.passed t, s.ReadsFrom p
  call s t := ∀ p ∈ s.passed t, s.ReadsFrom p
  stmt s _ t := ∀ p ∈ s.passed t, s.ReadsFrom p
  loop s loop t := (∀ p ∈ s.passed t, s.ReadsFrom p) ∧
    ∀ k x, (s.ec.cell loop.owner k x).isSome →
      (t.ec.cell loop.owner loop.position x).isSome → strcasecmp x loop.varname = .eq
  stop s t := ∀ p ∈ s.passed t, s.ReadsFrom p

theorem activation_append {loops nest : List Block} (h : ∀ b ∈ loops, b.isLoop = true) :
    activation (loops ++ nest) = activation nest := by
  induction loops with
  | nil => rfl
  | cons b loops ih =>
    obtain ⟨hb, hloops⟩ := List.forall_mem_cons.mp h
    cases b with
    | call => cases hb
    | loop var => exact ih hloops

theorem Context.cell_congr {ec : Context} {key key' : Str} (h : strcasecmp key key' = .eq) (i : ℕ)
    (x : Str) : ec.cell key i x = ec.cell key' i x := by
  rw [cell, ec.scopes_congr h, cell]

theorem Event.ne_read_of_isEnd {e : Event} (h : e.isEnd = true) (name : Str)
    (result : Option Value) : e ≠ .read name result := by
  rintro rfl
  cases h

namespace Machine

variable {s t u : Machine} {p : Point}

theorem readsFrom_of_not_read (h : ∀ name result, p.event ≠ .read name result) :
    s.ReadsFrom p := fun name result he => absurd he (h name result)

/-- A visit after a visit reads from where the first began. -/
theorem ReadsFrom.trans (hst : s.Returns t) (hframe : s.Frames t) (h : t.ReadsFrom p) :
    s.ReadsFrom p := by
  intro name result he
  obtain ⟨hresult, hcovers⟩ := h name result he
  refine ⟨hresult, fun loops hnest hloops key k x hk j hj hp => ?_⟩
  -- The variables and scopes of `s` are those that `t` has.
  refine hcovers loops (hst.nest_eq ▸ hnest) hloops key k x ?_ j ?_ hp
  · rw [hframe.isSome_cell hk (lt_of_isSome_cell hk), hk]
  · rwa [← Context.length_fnNames, hst.fnNames_eq, Context.length_fnNames]

theorem readsFrom_trans (hst : s.Returns t) (hframe : s.Frames t) (htu : t.trace <+: u.trace)
    (h : ∀ p ∈ s.passed t, s.ReadsFrom p) (h' : ∀ p ∈ t.passed u, t.ReadsFrom p) :
    ∀ p ∈ s.passed u, s.ReadsFrom p :=
  (forall_passed_trans hst.trace htu).mpr ⟨h, fun p hp => (h' p hp).trans hst hframe⟩

/-- What a call reads is no read of the activation that makes it. -/
theorem ReadsFrom.of_call {owner function : Str} (h : t.ReadsFrom p)
    (hnest : .call owner function :: s.nest <:+ p.nest) : s.ReadsFrom p := by
  intro name result he
  refine ⟨(h name result he).1, fun loops hp hloops => ?_⟩
  rw [hp] at hnest
  exact absurd (activation_append hloops) (activation_ne_of_call hnest)

/-- A visit of the body of a `FOR` reads from where the `FOR` began. -/
theorem ReadsFrom.of_loop {loop : ForLoop} (hst : s.InLoop loop t) (hframe : s.Frames t)
    (hvar : ∀ k x, (s.ec.cell loop.owner k x).isSome →
      (t.ec.cell loop.owner loop.position x).isSome → strcasecmp x loop.varname = .eq)
    (htu : t.Reaches u) (htracks : t.Tracks u) (hp : p ∈ t.passed u) (h : t.ReadsFrom p) :
    s.ReadsFrom p := by
  intro name result he
  obtain ⟨hresult, hcovers⟩ := h name result he
  refine ⟨hresult, fun loops hnest hloops key k x hk j hj hpj => ?_⟩
  -- The `FOR` itself is the outermost of the loops.
  obtain ⟨inner, hinner⟩ := (htu.points p hp).1
  rw [hst.nest_eq, hnest, List.append_cons] at hinner
  obtain rfl : inner ++ [.loop loop.varname] = loops := List.append_cancel_right hinner
  have hkt : (t.ec.cell key k x).isSome := by
    rw [hframe.isSome_cell hk (lt_of_isSome_cell hk), hk]
  -- Above the scopes the body began with, `t` covers the point. The one scope between them
  -- and those of `s` is that of the `FOR`.
  by_cases hjt : (t.ec.scopes key).length ≤ j
  · obtain ⟨var, hmem, hx⟩ := hcovers inner
      (by rw [hst.nest_eq, hnest, List.append_assoc, List.singleton_append])
      (fun b hb => hloops b (List.mem_append_left _ hb)) key k x hkt j hjt hpj
    exact ⟨var, List.mem_append_left _ hmem, hx⟩
  · have hlength := congrArg List.length (hst.fnNames_eq key)
    rw [Context.length_fnNames] at hlength
    split_ifs at hlength with hkey
    · rw [List.length_append, Context.length_fnNames, List.length_singleton] at hlength
      have hposition : j = loop.position := by
        rw [hst.position, ← s.ec.scopes_congr hkey.1]
        omega
      rw [htracks.isSome_cell hkt (Nat.lt_of_not_le hjt) p hp, Context.cell_congr hkey.1,
        hposition] at hpj
      rw [Context.cell_congr hkey.1] at hk
      exact ⟨loop.varname, by simp, hvar k x hk hpj⟩
    · rw [Context.length_fnNames] at hlength
      omega

/-- The reads of a call are those of its body. -/
theorem readsFrom_call {owner function : Str} {sc : Scope} {args : List Value}
    (hpass : s.PassesCall owner function sc args t u)
    (hreach : (s.enterCall owner function sc args).Reaches t)
    (h : ∀ p ∈ (s.enterCall owner function sc args).passed t,
      (s.enterCall owner function sc args).ReadsFrom p) :
    ∀ p ∈ s.passed u, s.ReadsFrom p := by
  refine hpass.forall (readsFrom_of_not_read nofun) (fun p hp => ?_) fun p hp => ?_
  · exact (h p hp).of_call (hreach.points p hp).1
  · exact readsFrom_of_not_read (Event.ne_read_of_isEnd hp)

theorem readsFrom_note {e : Event} (h : ∀ name result, e ≠ .read name result) :
    ∀ p ∈ s.passed (s.note e), s.ReadsFrom p :=
  forall_passed_note.mpr (readsFrom_of_not_read h)

theorem readsFrom_read (s : Machine) (name : Str) :
    ∀ p ∈ s.passed (s.note (.read name ((s.ec.findVar name).map Var.value_))),
      s.ReadsFrom p := by
  refine forall_passed_note.mpr fun name' result he => ?_
  obtain ⟨rfl, rfl⟩ : name = name' ∧ (s.ec.findVar name).map Var.value_ = result := by
    simpa [point] using he
  -- Where a visit begins, no scope is above those it begins with.
  refine ⟨rfl, fun loops _ _ key k x _ j hj hp => ?_⟩
  rw [show (s.point _).ec.cell key j x = none from Context.cell_eq_none hj] at hp
  cases hp

/-- The variables of the scope of a `FOR`, when it begins. -/
theorem cell_enterLoop {loop : ForLoop} {start : Value} (x : Str)
    (howner : loop.owner = s.ec.module)
    (hposition : loop.position = (s.ec.scopes loop.owner).length) :
    (s.enterLoop loop start).ec.cell loop.owner loop.position x =
      if strcasecmp x loop.varname = .eq then some start else none := by
  rw [hposition]
  exact (Context.cell_push_self (strcasecmp_self _) (howner ▸ s.ec.module_mem)).trans
    (Scope.value?_insertOrAssign ..)

/-- They are its own variable only. -/
theorem eq_varname_of_enterLoop {loop : ForLoop} {start : Value} {x : Str}
    (howner : loop.owner = s.ec.module)
    (hposition : loop.position = (s.ec.scopes loop.owner).length)
    (h : ((s.enterLoop loop start).ec.cell loop.owner loop.position x).isSome) :
    strcasecmp x loop.varname = .eq := by
  rw [cell_enterLoop x howner hposition] at h
  split_ifs at h with hx
  · exact hx
  · cases h

end Machine

/-- **The reads of a visit find nothing above the scopes it began with but open `FOR`s.** -/
theorem rules_shadow : Rules (.inf .balance .frame) .shadow where
  refl _ := forall_passed_self
  trans _ _ _ hst htu h h' := Machine.readsFrom_trans hst.1 hst.2 htu.1.trace h h'
  stop _ _ _ h := h
  trans_stop _ _ _ hst htu h h' := Machine.readsFrom_trans hst.1 hst.2 htu.1.trace h h'
  note s e he := Machine.readsFrom_note fun name result heq => by rw [heq] at he; cases he
  read := Machine.readsFrom_read
  dropTag s := forall_passed_self (s := s)
  readNumbers s _ _ := forall_passed_self (s := s)
  assign s name value := Machine.readsFrom_note (e := .assign name value) nofun
  assign_stop s name value := Machine.readsFrom_note (e := .assign name value) nofun
  call_refl _ := forall_passed_self
  call_clear _ _ _ h := h
  -- What is read in the body of a call is not read by the caller.
  call_body s owner function sc args a t ht h :=
    Machine.readsFrom_call (Machine.passesCall_exitCall ht.1.trace a _) ht.1.toReaches h
  call_print s owner function sc args a t ht h :=
    Machine.readsFrom_call (Machine.passesCall_leaveBody ht.1.trace a) ht.1.toReaches h
  call_stop s owner function sc args t ht h :=
    Machine.readsFrom_call (Machine.passesCall_body ht.1.trace) ht.1 h
  native s owner function sc args converted result := by
    show ∀ p ∈ s.passed _, s.ReadsFrom p
    rw [Machine.passed_exitNative, List.forall_mem_cons, List.forall_mem_singleton]
    exact ⟨Machine.readsFrom_of_not_read nofun, Machine.readsFrom_of_not_read nofun⟩
  native_stop s owner function sc args converted := by
    show ∀ p ∈ s.passed _, s.ReadsFrom p
    rw [Machine.passed_enterNative, List.forall_mem_singleton]
    exact Machine.readsFrom_of_not_read nofun
  start _ _ _ ht h :=
    Machine.readsFrom_trans (Machine.Returns.refl.note _)
      (Machine.Frames.refl.note List.prefix_rfl rfl) ht.1.trace (Machine.readsFrom_note nofun) h
  start_stop _ _ ht h :=
    Machine.readsFrom_trans (Machine.Returns.refl.note _)
      (Machine.Frames.refl.note List.prefix_rfl rfl) ht.1.trace (Machine.readsFrom_note nofun) h
  simple _ _ _ h := h
  block _ _ _ _ hst htu h h' := Machine.readsFrom_trans hst.1 hst.2 htu.1.trace h h'
  next _ _ _ _ _ _ hst htu h h' := Machine.readsFrom_trans hst.1 hst.2 htu.1.trace h h'
  next_stop _ _ _ _ _ hst htu h h' := Machine.readsFrom_trans hst.1 hst.2 htu.1.trace h h'
  ret s t a hst h := by
    have hpoints : s.passed ((t.note (.ret a)).setReturn true) = s.passed t ++ [t.point (.ret a)] :=
      Machine.passed_note hst.1.trace _
    show ∀ p ∈ s.passed _, s.ReadsFrom p
    rw [hpoints, List.forall_mem_append, List.forall_mem_singleton]
    exact ⟨h, Machine.readsFrom_of_not_read nofun⟩
  loop_enter s loop start howner hposition := by
    refine ⟨?_, fun k x _ => Machine.eq_varname_of_enterLoop howner hposition⟩
    rw [Machine.passed_enterLoop, List.forall_mem_singleton]
    exact Machine.readsFrom_of_not_read nofun
  loop_set s loop t i hst h := by
    obtain ⟨hpoints, hvar⟩ := h
    refine ⟨hpoints, fun k x hk hx => hvar k x hk ?_⟩
    -- The assignment of the variable binds nothing.
    have hcell : ((t.setVarAt loop.owner loop.position loop.varname i).ec.cell loop.owner
        loop.position x).isSome = (t.ec.cell loop.owner loop.position x).isSome :=
      Context.isSome_cell_modify fun sc => sc.binds_assign loop.varname x (Value.ofInt i)
    rwa [hcell] at hx
  loop_read _ _ _ _ _ h := h
  loop_body s loop t a u hst htu h h' := by
    obtain ⟨hpoints, hvar⟩ := h
    refine ⟨(forall_passed_trans hst.1.trace htu.1.trace).mpr ⟨hpoints, fun p hp =>
      (h' p hp).of_loop hst.1 hst.2 hvar htu.1.toReaches htu.2.tracks hp⟩, fun k x hk hx => ?_⟩
    -- A name bound below the `FOR` is bound when the body begins, and created nowhere above.
    have hkt := hst.2.isSome_cell hk (lt_of_isSome_cell hk)
    rw [hk] at hkt
    have hlt : loop.position < (t.ec.scopes loop.owner).length := by
      have hu := lt_of_isSome_cell hx
      rwa [← Context.length_fnNames, htu.1.fnNames_eq, Context.length_fnNames] at hu
    exact hvar k x hk (by rwa [← htu.2.isSome_cell hkt hlt])
  loop_stop _ _ _ _ h := h.1
  loop_body_stop s loop t u hst htu h h' :=
    (forall_passed_trans hst.1.trace htu.1.trace).mpr ⟨h.1, fun p hp =>
      (h' p hp).of_loop hst.1 hst.2 h.2 htu.1 htu.2 hp⟩
  loop_exit _ _ _ _ h := h.1

/-! ## Reads of a parameter -/

/-- Whether the point is in a `FOR` over the name, of the innermost open call. -/
def Point.InLoopOver (p : Point) (x : Str) : Prop :=
  ∃ b ∈ p.nest.takeWhile Block.isLoop, ∃ var, b = .loop var ∧ strcasecmp x var = .eq

/-- A name of the current module, bound innermost in a scope, refers to that variable. -/
theorem Context.findVar_eq {ec : Context} {name key : Str} {k : ℕ}
    (hpkg : (splitPackageFromId name).1 = []) (hkey : strcasecmp key ec.module = .eq)
    (hk : innermost name (ec.scopes key) = some k) :
    (ec.findVar name).map Var.value_ = ec.cell key k name := by
  rw [ec.scopes_congr hkey] at hk
  have hmodule : ec.varModule name = ec.module := by
    rw [varModule, ← isSome_innermost, hk]
    rfl
  have hresolve : ec.resolve name = some (ec.module, name) := by
    simp only [resolve, hpkg, ne_eq, not_true_eq_false, if_false, hmodule]
  rw [findVar, hresolve, Option.bind_some, Module.findVar]
  change Option.map _ ((innermost name (ec.scopes ec.module)).bind _) = _
  rw [hk, cell_congr hkey, cell, Option.bind_some]
  change Option.map _ ((ec.scopes ec.module)[k]?.bind _) = _
  cases (ec.scopes ec.module)[k]? <;> rfl

section Body

variable {s t : Machine} {self : Str} {a : Str} {v : Value}

/-- What holds of the reads of the body, from the state in which it begins. -/
theorem read_of_covered {s₀ : Machine} {E E' : List Point} {p : Point} {name : Str}
    {result : Option Value} {h : ℕ} (hself : strcasecmp self s₀.ec.module = .eq)
    (hheight : (s₀.ec.scopes self).length = h + 1) (hcell : s₀.ec.cell self h a = some v)
    (hreach : s₀.Reaches t) (htracks : s₀.Tracks t) (hreads : ∀ p ∈ s₀.passed t, s₀.ReadsFrom p)
    (hE : s₀.passed t = E ++ p :: E') (he : p.event = .read name result)
    (hname : strcasecmp name a = .eq) (hpkg : (splitPackageFromId name).1 = [])
    (hown : activation p.nest = s₀.nest) (hloop : ¬ p.InLoopOver a)
    (hassign : ∀ q ∈ E, q.written self h a = none) : result = some v := by
  have hp : p ∈ s₀.passed t := hE ▸ List.mem_append_right _ List.mem_cons_self
  obtain ⟨hresult, hcovers⟩ := hreads p hp name result he
  have halong := htracks self h a (by omega)
  rw [hE] at halong
  -- No assignment has written the parameter, so that it has the value it was bound to.
  have hvalue : p.ec.cell self h a = some v :=
    halong.at.trans ((List.replay_of_forall hassign).trans hcell)
  -- A scope above that binds its name is that of a `FOR` over the name.
  have hinner : innermost name (p.ec.scopes self) = some h := by
    rw [innermost_congr hname, Context.innermost_eq_some_iff, hvalue]
    refine ⟨rfl, fun j hj => Bool.eq_false_iff.mpr fun hpj => hloop ?_⟩
    have hnest : p.nest = p.nest.takeWhile Block.isLoop ++ s₀.nest := by
      rw [← hown]
      exact List.takeWhile_append_dropWhile.symm
    obtain ⟨var, hmem, hx⟩ := hcovers _ hnest (fun b hb => List.mem_takeWhile_imp hb) self h a
      (by rw [hcell]; rfl) j (by omega) hpj
    exact ⟨_, hmem, var, rfl, hx⟩
  -- The procedure belongs to the current module, where the name is looked up.
  have hmodule : strcasecmp self p.ec.module = .eq := by
    rw [(hreach.points p hp).2.module]
    exact hself
  rw [hresult, Context.findVar_eq hpkg hmodule hinner, ← hvalue, Context.cell, Context.cell]
  exact congrArg _ (funext fun sc => sc.value?_congr hname)

end Body

/-- **A parameter is read as its argument**: by a read in the body of the procedure, before an
assignment has written the parameter, and in no `FOR` over its name. -/
theorem param_read (n : ℕ) (self function : Str) (args : List Value) (s : Machine)
    (fn : BasicFunction) (defFn : ProcedureDefinition)
    (hself : strcasecmp self s.ec.module = .eq)
    (hfn : (s.ec.moduleAt self).functions.find? function = some fn)
    (hbody : fn.body = .basic defFn)
    (hdistinct : fn.params.Pairwise fun a b => strcasecmp a b ≠ .eq)
    (j : ℕ) (a : Str) (v : Value) (ha : fn.params[j]? = some a) (hv : args[j]? = some v)
    (E E' : List Point) (p : Point) (name : Str) (result : Option Value)
    (hE : s.passed (Module.call (visitor n) self function args s).final = E ++ p :: E')
    (hread : p.event = .read name result) (hname : strcasecmp name a = .eq)
    (hpkg : (splitPackageFromId name).1 = [])
    (hown : activation p.nest = .call self function :: s.nest) (hloop : ¬ p.InLoopOver a)
    (hassign : ∀ q ∈ E, q.written self (s.ec.scopes self).length a = none) :
    result = some v := by
  have hrules := (rules_balance.inf rules_frame).inf rules_shadow
  have hmem : s.ec.modules.contains self = true := by
    rw [s.ec.modules.contains_congr hself]
    exact s.ec.module_mem
  let s₀ := s.enterCall self function (bindParams ⟨function, ∅⟩ fn.params args) args
  have hheight : (s₀.ec.scopes self).length = (s.ec.scopes self).length + 1 :=
    s.length_enterCall (strcasecmp_self self) hmem
  have hcell : s₀.ec.cell self (s.ec.scopes self).length a = some v :=
    (Context.cell_push_self (strcasecmp_self self) hmem).trans
      (value?_bindParams hdistinct ha hv)
  have hstatements : wp ((visitor n).statements defFn.statements)
      (fun _ t => s₀.Reaches t ∧ s₀.Tracks t ∧ ∀ p ∈ s₀.passed t, s₀.ReadsFrom p)
      (fun _ t => s₀.Reaches t ∧ s₀.Tracks t ∧ ∀ p ∈ s₀.passed t, s₀.ReadsFrom p) s₀ :=
    wp_mono ((visitor_keeps hrules n).statements _ s₀)
      (fun _ t ht => ⟨ht.1.1.toReaches, ht.1.2.tracks, ht.2⟩) fun _ t ht => ⟨ht.1.1, ht.1.2, ht.2⟩
  rcases Machine.passed_call_basic hfn hbody (fun t ht => ht.1.trace) hstatements
    with hnone | ⟨-, t, ⟨hreach, htracks, hreads⟩, T, hu, hT⟩
  -- Without a call nothing is read.
  · rw [hnone] at hE
    exact absurd hE (by simp)
  -- The read is a point of the body.
  · rw [hu] at hE
    have henter : p ∉ s.passed s₀ := by
      rw [Machine.passed_enterCall, List.mem_singleton]
      rintro rfl
      cases hread
    obtain ⟨m, m', rfl, hm⟩ :=
      List.split_of_not_mem hE henter fun hp => Event.ne_read_of_isEnd (hT p hp) name result hread
    have hself₀ : strcasecmp self s₀.ec.module = .eq := hself
    exact read_of_covered hself₀ hheight hcell hreach htracks hreads hm hread hname hpkg hown
      hloop fun q hq => hassign q (List.mem_append_right _ hq)

/-- A procedure that assigns one of its parameters in a `FOR`, and reads the other. -/
def accumulate : ProcedureDefinition :=
  ⟨['f'], [['x'], ['y']],
    [.forStatement ['i'] (.int ['1']) (.int ['2']) none
        [.assignExpr ['y'] (.addSub .plus (.ident ['Y']) (.ident ['i']))],
      .returnStatement (.ident ['X'])]⟩

/-- The read of the `RETURN`, after the `FOR`. -/
theorem param_read_accumulate :
    let s := Machine.start (Context.init.withProgram [.procedureDefinition accumulate])
      fun _ => .invalid
    let L := s.passed (Module.call (visitor 9) [] ['f'] [Value.ofInt 7, Value.ofInt 5] s).final
    ∃ result, L[25]?.map Point.event = some (.read ['X'] result) ∧
      result = some (Value.ofInt 7) := by
  intro s L
  have hevent : L[25]?.map Point.event = some (.read ['X'] (some (Value.ofInt 7))) := by
    decide +kernel
  obtain ⟨p, hp, hread⟩ := Option.map_eq_some_iff.mp hevent
  have hown : L[25]?.map Point.nest = some [.call [] ['f']] := by decide +kernel
  rw [hp, Option.map_some, Option.some.injEq] at hown
  have hE : L = L.take 25 ++ p :: L.drop 26 := by
    obtain ⟨hlt, hget⟩ := List.getElem?_eq_some_iff.mp hp
    rw [← hget, ← List.drop_eq_getElem_cons hlt, List.take_append_drop]
  refine ⟨_, hevent, ?_⟩
  exact param_read 9 [] ['f'] [Value.ofInt 7, Value.ofInt 5] s
    ⟨['f'], .basic accumulate, [['x'], ['y']]⟩ accumulate (by decide) rfl rfl (by decide)
    0 ['x'] (Value.ofInt 7) rfl rfl (L.take 25) (L.drop 26) p ['X'] _ hE hread (by decide)
    (by decide) (by rw [hown]; rfl) (by simp [Point.InLoopOver, hown, Block.isLoop])
    (by decide +kernel)

/-- A callee assigns the name of the parameter before the body reads it. -/
theorem param_read_changed :
    let s := Machine.start (Context.init.withProgram assignInCallee) fun _ => .invalid
    let L := s.passed (Module.call (visitor 9) [] ['f'] [Value.ofInt 1] s).final
    ∃ i < L.length, (L[i]?.map fun p => (p.event, p.nest)) =
        some (.read ['x'] (some (Value.ofInt 2)), [.call [] ['f']]) ∧
      ∀ q ∈ L.take i, activation q.nest = [.call [] ['f']] → q.event.isAssign = false := by
  decide +kernel

end WwivBasic
