import WwivBasic.Balance
import WwivBasic.Foundations.Replay

/-!
# What a call changes

`Module::upsert` updates the innermost variable of a name, and adds a name that no scope binds
to the scope on top. Every other change of a deque is a push, a pop, or the update of the
variable of a `FOR`, all above the scopes that were there before. So the variables of the scopes
that existed before a visit change by its assignment statements only, and the value of each is
the one that the last assignment to it has given.

## Main definitions

* `Context.Refers`, `Context.Writes`: the variable a name refers to, and the one its assignment
  writes
* `Point.written`: what the assignment at a point writes to a variable
* `Machine.Tracks`, `Machine.Frames`: the variables of a state, during a visit and after it, are
  replayed from its assignments
* `Machine.AddsAbove`: a variable that an assignment creates goes to a new scope

## Main results

* `call_frame`: a call changes the scopes of its callers by assignments that resolve there only
* `call_names`: it adds a variable to them exactly when it creates one in a scope that existed
-/

namespace WwivBasic

open EStateM

/-! ## Variables after an update -/

namespace Context

variable {ec : Context} {owner key x : Str} {i : ℕ}

/-- A name refers to the variable `x` of the module at `key`. -/
def Refers (ec : Context) (name key x : Str) : Prop :=
  ∃ r ∈ ec.resolve name, strcasecmp key r.1 = .eq ∧ strcasecmp x r.2 = .eq

/-- An assignment of the name writes the variable `x` of the scope at position `i` of the module
at `key`. -/
def Writes (ec : Context) (name key : Str) (i : ℕ) (x : Str) : Prop :=
  ec.Refers name key x ∧ i = upsertTarget x (ec.scopes key)

instance (name : Str) : Decidable (ec.Refers name key x) :=
  inferInstanceAs (Decidable (∃ r ∈ ec.resolve name, _))

instance (name : Str) : Decidable (ec.Writes name key i x) :=
  inferInstanceAs (Decidable (_ ∧ _))

theorem contains_of_lt (h : i < (ec.scopes key).length) : ec.modules.contains key = true := by
  rw [OrderedMap.contains]
  cases hm : ec.modules.find? key with
  | some m => rfl
  | none =>
    rw [scopes, moduleAt, hm] at h
    exact absurd h (Nat.not_lt_zero i)

theorem cell_eq_none (h : (ec.scopes key).length ≤ i) : ec.cell key i x = none := by
  rw [cell, List.getElem?_eq_none h, Option.bind_none]

/-- An update that keeps the scope at a position keeps its variables. -/
theorem cell_mapScopes {f : List Scope → List Scope}
    (hf : strcasecmp key owner = .eq → (f (ec.scopes key))[i]? = (ec.scopes key)[i]?) :
    (ec.mapScopes owner f).cell key i x = ec.cell key i x := by
  rw [cell, scopes_mapScopes]
  split_ifs with h
  · rw [hf h.1, cell]
  · rfl

theorem cell_push {sc : Scope} (h : i < (ec.scopes key).length) :
    (ec.mapScopes owner (· ++ [sc])).cell key i x = ec.cell key i x :=
  cell_mapScopes fun _ => List.getElem?_append_left h

/-- The variables of the scope that is pushed. -/
theorem cell_push_self {sc : Scope} (howner : strcasecmp key owner = .eq)
    (hc : ec.modules.contains key = true) :
    (ec.mapScopes owner (· ++ [sc])).cell key (ec.scopes key).length x = sc.value? x := by
  rw [cell, scopes_mapScopes, if_pos ⟨howner, hc⟩, List.getElem?_concat_length, Option.bind_some]

theorem cell_pop (h : strcasecmp key owner = .eq → i + 1 < (ec.scopes key).length) :
    (ec.mapScopes owner List.dropLast).cell key i x = ec.cell key i x :=
  cell_mapScopes fun howner => by
    rw [List.getElem?_dropLast, if_pos (by have := h howner; omega)]

theorem cell_modify {position : ℕ} {f : Scope → Scope}
    (h : strcasecmp key owner = .eq → i ≠ position) :
    (ec.mapScopes owner fun l => l.modify position f).cell key i x = ec.cell key i x :=
  cell_mapScopes fun howner => by
    simp only [List.getElem?_modify, if_neg (Ne.symm (h howner)), id_map']

theorem isSome_cell_modify {position : ℕ} {f : Scope → Scope}
    (hf : ∀ sc, (f sc).binds x = sc.binds x) :
    ((ec.mapScopes owner fun l => l.modify position f).cell key i x).isSome =
      (ec.cell key i x).isSome := by
  rw [cell, cell, scopes_mapScopes]
  split_ifs
  · rw [List.getElem?_modify]
    cases (ec.scopes key)[i]? with
    | none => rfl
    | some sc => by_cases h : position = i <;> simp [h, Scope.isSome_value?, hf]
  · rfl

/-- An assignment writes one variable of one scope. -/
theorem cell_upserted {name : Str} {value : Value} (h : i < (ec.scopes key).length) :
    (ec.upserted name value).cell key i x =
      if ec.Writes name key i x then some value else ec.cell key i x := by
  cases hr : ec.resolve name with
  | none =>
    have hnot : ¬ ec.Refers name key x := by
      rintro ⟨r, hmem, -⟩
      rw [hr] at hmem
      cases hmem
    rw [upserted, hr, if_neg fun hw => hnot hw.1]
  | some r =>
    have hrefers : ec.Refers name key x ↔ strcasecmp key r.1 = .eq ∧ strcasecmp x r.2 = .eq := by
      rw [Refers, hr]
      simp only [Option.mem_def, Option.some.injEq, exists_eq_left']
    simp only [upserted, hr, Writes, hrefers]
    -- The module is the one that the name refers to, or its deque is as before.
    by_cases hkey : strcasecmp key r.1 = .eq
    · rw [cell, scopes_mapScopes, if_pos ⟨hkey, contains_of_lt h⟩, value?_upsertScopes]
      by_cases hx : strcasecmp x r.2 = .eq
      · have htarget : upsertTarget x (ec.scopes key) = upsertTarget r.2 (ec.scopes key) := by
          rw [upsertTarget, innermost_congr hx, upsertTarget]
        simp only [hkey, hx, htarget, h, and_true, true_and, cell]
      · simp only [hx, and_false, false_and, if_false, cell]
    · simp only [hkey, false_and, if_false]
      exact cell_mapScopes fun howner => absurd howner hkey

theorem isSome_cell : (ec.cell key i x).isSome = (ec.scopes key)[i]?.any (·.binds x) := by
  rw [cell]
  cases (ec.scopes key)[i]? with
  | none => rfl
  | some sc => exact sc.isSome_value? x

/-- The position of the innermost variable of a name. -/
theorem innermost_eq_some_iff {k : ℕ} :
    innermost x (ec.scopes key) = some k ↔
      (ec.cell key k x).isSome ∧ ∀ j, k < j → (ec.cell key j x).isSome = false := by
  rw [innermost, List.lastIdx?_eq_some_iff]
  -- Whether a scope binds the name is whether its variable has a value.
  refine and_congr ?_ (forall_congr' fun j => ?_)
  · cases hsc : (ec.scopes key)[k]? <;> simp [isSome_cell, hsc]
  · cases hsc : (ec.scopes key)[j]? <;> simp [isSome_cell, hsc]

theorem innermost_eq_none_iff :
    innermost x (ec.scopes key) = none ↔ ∀ j, (ec.cell key j x).isSome = false := by
  rw [innermost, List.lastIdx?_eq_none_iff]
  constructor
  · intro h j
    rw [isSome_cell]
    cases hsc : (ec.scopes key)[j]? with
    | none => rfl
    | some sc => exact h sc (List.mem_of_getElem? hsc)
  · intro h sc hsc
    obtain ⟨j, hj⟩ := List.getElem?_of_mem hsc
    simpa [isSome_cell, hj] using h j

/-- What an assignment writes is bound already, or created in the scope on top. -/
theorem Writes.isSome_or {name : Str} (h : ec.Writes name key i x) :
    (ec.cell key i x).isSome ∨
      innermost x (ec.scopes key) = none ∧ i = (ec.scopes key).length - 1 := by
  obtain ⟨-, rfl⟩ := h
  unfold upsertTarget
  cases hin : innermost x (ec.scopes key) with
  | some k => exact .inl (innermost_eq_some_iff.mp hin).1
  | none => exact .inr ⟨rfl, rfl⟩

end Context

/-! ## Variables through a visit -/

/-- What the assignment at a point writes to the variable `x` of the scope at position `i` of
the module at `key`, if it writes this variable. -/
def Point.written (key : Str) (i : ℕ) (x : Str) (p : Point) : Option Value :=
  match p.event with
  | .assign name value => if p.ec.Writes name key i x then some value else none
  | _ => none

theorem Point.writes_of_written {key x : Str} {i : ℕ} {p : Point} {value : Value}
    (h : p.written key i x = some value) : ∃ name, p.event = .assign name value ∧
      p.ec.Writes name key i x := by
  unfold Point.written at h
  split at h
  · rename_i name v he
    split_ifs at h with hwrites
    cases h
    exact ⟨name, he, hwrites⟩
  · cases h

/-- During a visit, the variables of the scopes it began with are what its assignments made of
them. -/
def Machine.Tracks (s t : Machine) : Prop :=
  ∀ key i x, i < (s.ec.scopes key).length →
    (s.passed t).Along (fun c p => (p.written key i x).or c)
      (fun c p => p.ec.cell key i x = c) (s.ec.cell key i x)

/-- And so they are in `t`. -/
structure Machine.Frames (s t : Machine) : Prop where
  tracks : s.Tracks t
  cell : ∀ key i x, i < (s.ec.scopes key).length →
    t.ec.cell key i x = (s.passed t).replay (Point.written key i x) (s.ec.cell key i x)

/-- Events other than assignments. -/
def Event.isAssign : Event → Bool
  | .assign _ _ => true
  | _ => false

theorem Event.isAssign_of_isEnd {e : Event} (h : e.isEnd = true) : e.isAssign = false := by
  cases e <;> first | rfl | cases h

theorem Point.written_eq_none {key x : Str} {i : ℕ} {p : Point} (h : p.event.isAssign = false) :
    p.written key i x = none := by
  unfold Point.written
  split
  · rename_i he
    rw [he] at h
    cases h
  · rfl

theorem Context.Grows.length_le {ec ec' : Context} (h : ec.Grows ec') (key : Str) :
    (ec.scopes key).length ≤ (ec'.scopes key).length := by
  rw [← length_fnNames, ← length_fnNames]
  exact (h.fnNames key).length_le

namespace Machine

variable {s t u : Machine}

theorem Frames.refl : s.Frames s where
  tracks _ _ _ _ := by rw [passed_self]; trivial
  cell _ _ _ _ := by rw [passed_self]; rfl

/-- A visit after a visit. -/
theorem Frames.trans_tracks (hst : s.Reaches t) (htu : t.trace <+: u.trace) (h : s.Frames t)
    (h' : t.Tracks u) : s.Tracks u := by
  intro key i x hi
  have hu := h' key i x (Nat.lt_of_lt_of_le hi (hst.ec.length_le key))
  rw [h.cell key i x hi] at hu
  rw [passed_trans hst.trace htu, List.along_append]
  exact ⟨h.tracks key i x hi, hu⟩

theorem Frames.trans (hst : s.Reaches t) (htu : t.trace <+: u.trace) (h : s.Frames t)
    (h' : t.Frames u) : s.Frames u where
  tracks := h.trans_tracks hst htu h'.tracks
  cell key i x hi := by
    rw [passed_trans hst.trace htu, List.replay_append, ← h.cell key i x hi]
    exact h'.cell key i x (Nat.lt_of_lt_of_le hi (hst.ec.length_le key))

/-- A step that passes no point and changes no variable of a scope that `s` has. -/
theorem Frames.update (h : s.Frames t) (htrace : u.trace = t.trace)
    (hcell : ∀ key i x, i < (s.ec.scopes key).length →
      u.ec.cell key i x = t.ec.cell key i x) : s.Frames u := by
  have hpassed : s.passed u = s.passed t := by rw [passed, htrace, passed]
  constructor
  · intro key i x hi
    rw [hpassed]
    exact h.tracks key i x hi
  · intro key i x hi
    rw [hpassed, hcell key i x hi]
    exact h.cell key i x hi

theorem Frames.tracks_note (h : s.Frames t) (hst : s.trace <+: t.trace) (e : Event) :
    s.Tracks (t.note e) := by
  intro key i x hi
  rw [passed_note hst, List.along_append]
  exact ⟨h.tracks key i x hi, h.cell key i x hi, trivial⟩

theorem Frames.note (h : s.Frames t) (hst : s.trace <+: t.trace) {e : Event}
    (he : e.isAssign = false) : s.Frames (t.note e) where
  tracks := h.tracks_note hst e
  cell key i x hi := by
    rw [passed_note hst, List.replay_append, List.replay_cons, List.replay_nil,
      Point.written_eq_none he, Option.none_or, ← h.cell key i x hi]
    rfl

theorem Frames.assign (s : Machine) (name : Str) (value : Value) :
    s.Frames ((s.note (.assign name value)).mapContext (Context.upserted · name value)) where
  tracks := Frames.refl.tracks_note List.prefix_rfl _
  cell key i x hi := by
    have hpassed : s.passed ((s.note (.assign name value)).mapContext
        (Context.upserted · name value)) = [s.point (.assign name value)] :=
      (passed_note List.prefix_rfl _).trans (congrArg (· ++ _) passed_self)
    rw [hpassed, List.replay_cons, List.replay_nil]
    have hcell : (s.ec.upserted name value).cell key i x =
        if s.ec.Writes name key i x then some value else s.ec.cell key i x :=
      Context.cell_upserted hi
    apply hcell.trans
    have hwritten : (s.point (.assign name value)).written key i x =
        if s.ec.Writes name key i x then some value else none := rfl
    rw [hwritten]
    -- The value written is the one that the replay of this point gives.
    split_ifs <;> rfl

theorem Frames.pushScope (h : s.Frames t) (hst : s.Reaches t) (owner : Str) (sc : Scope) :
    s.Frames (t.pushScope owner sc) :=
  h.update rfl fun key _ _ hi => Context.cell_push (Nat.lt_of_lt_of_le hi (hst.ec.length_le key))

/-- The pop that ends a visit begun with a push of a scope of this name. -/
theorem Frames.popScope (h : s.Frames t) {owner : Str} {sc : Scope}
    (hnames : ∀ k, t.ec.fnNames k = (s.pushScope owner sc).ec.fnNames k) :
    s.Frames (t.popScope owner) := by
  refine h.update rfl fun key i x hi => Context.cell_pop fun howner => ?_
  -- The deque has one scope more than that of `s`, so that the pop removes none of `s`.
  have hlength := congrArg List.length (hnames key)
  rw [Machine.pushScope, mapContext, Context.fnNames_push,
    if_pos ⟨howner, Context.contains_of_lt hi⟩, List.length_append, Context.length_fnNames,
    Context.length_fnNames, List.length_singleton] at hlength
  omega

theorem frames_enterCall (s : Machine) (owner function : Str) (sc : Scope)
    (args : List Value) : s.Frames (s.enterCall owner function sc args) := by
  have hpush : s.Frames ((s.pushScope owner sc).openBlock (.call owner function)) :=
    (Frames.refl.pushScope .refl owner sc).update rfl fun _ _ _ _ => rfl
  exact hpush.note (e := .enter function args) List.prefix_rfl rfl

/-- The deque of the module that owns a procedure has one scope more during the call. -/
theorem length_enterCall (s : Machine) {owner function key : Str} {sc : Scope} {args : List Value}
    (howner : strcasecmp key owner = .eq) (hc : s.ec.modules.contains key = true) :
    ((s.enterCall owner function sc args).ec.scopes key).length =
      (s.ec.scopes key).length + 1 := by
  show ((s.ec.mapScopes owner (· ++ [sc])).scopes key).length = _
  rw [Context.scopes_mapScopes, if_pos ⟨howner, hc⟩, List.length_append, List.length_singleton]

theorem frames_enterNative (s : Machine) (owner function : Str) (sc : Scope)
    (args : List Value) (converted : List Str) :
    s.Frames (s.enterNative owner function sc args converted) := by
  have hpush : s.Frames (s.pushScope owner sc) := Frames.refl.pushScope .refl owner sc
  exact (hpush.note (e := .native function args) List.prefix_rfl rfl).update rfl fun _ _ _ _ => rfl

section Call

variable {owner function : Str} {sc : Scope} {args : List Value}
  (hst : (s.enterCall owner function sc args).Returns t)
  (h : (s.enterCall owner function sc args).Frames t)

include hst h

theorem Frames.leaveBody (a : AnyVal) : s.Frames (t.leaveBody a) := by
  have henter := s.reaches_enterCall owner function sc args
  have hbody : s.Frames t :=
    (s.frames_enterCall owner function sc args).trans henter hst.trace h
  have hend : s.Frames (t.note .bodyEnd) := hbody.note (henter.trace.trans hst.trace) rfl
  have hclose : s.Frames (t.note .bodyEnd).closeBlock.dropTag := hend.update rfl fun _ _ _ _ => rfl
  exact hclose.note (e := .made (t.callValue a))
    ((henter.trace.trans hst.trace).trans (List.prefix_append _ _)) rfl

theorem Frames.exitCall (a : AnyVal) (v : Value) :
    s.Frames ((t.leaveBody a).exitCall owner v) := by
  have hleave := hst.leaveBody a
  have hpop : s.Frames ((t.leaveBody a).popScope owner) :=
    (h.leaveBody hst a).popScope hst.fnNames_eq
  exact hpop.note (e := .leave v) hleave.trace rfl

end Call

end Machine

/-- The variables of the scopes a visit began with are replayed from its assignments. -/
def Relations.frame : Relations where
  expr := Machine.Frames
  call := Machine.Frames
  stmt s _ t := s.Frames t
  loop s _ t := s.Frames t
  stop := Machine.Tracks

/-- **A visit changes the scopes it began with by its assignments only.** -/
theorem rules_frame : Rules .balance .frame where
  refl _ := .refl
  trans _ _ _ hst htu h h' := h.trans hst.toReaches htu.trace h'
  stop _ _ _ h := h.tracks
  trans_stop _ _ _ hst htu h h' := h.trans_tracks hst.toReaches htu.trace h'
  note _ e he := Machine.Frames.refl.note List.prefix_rfl (by cases e <;> first | rfl | cases he)
  read _ _ := Machine.Frames.refl.note List.prefix_rfl rfl
  dropTag _ := Machine.Frames.refl.update rfl fun _ _ _ _ => rfl
  readNumbers _ _ _ := Machine.Frames.refl.update rfl fun _ _ _ _ => rfl
  assign := .assign
  assign_stop _ _ _ := Machine.Frames.refl.tracks_note List.prefix_rfl _
  call_refl _ := .refl
  call_clear _ _ _ h := h.update rfl fun _ _ _ _ => rfl
  call_body _ _ _ _ _ a _ hst h := h.exitCall hst a _
  call_print _ _ _ _ _ a _ hst h := (h.leaveBody hst a).tracks
  call_stop s owner function sc args _ hst h :=
    (s.frames_enterCall owner function sc args).trans_tracks
      (s.reaches_enterCall owner function sc args) hst.trace h
  native s owner function sc args converted result :=
    have hpop : s.Frames ((s.enterNative owner function sc args converted).popScope owner) :=
      (s.frames_enterNative owner function sc args converted).popScope fun _ => rfl
    hpop.note (e := .leave result) (s.reaches_enterNative owner function sc args converted).trace rfl
  native_stop s owner function sc args converted :=
    (s.frames_enterNative owner function sc args converted).tracks
  start s _ _ hst h :=
    (Machine.Frames.refl.note List.prefix_rfl rfl).trans (Machine.Reaches.refl.note _) hst.trace h
  start_stop s _ hst h :=
    (Machine.Frames.refl.note List.prefix_rfl rfl).trans_tracks (Machine.Reaches.refl.note _)
      hst.trace h
  simple _ _ _ h := h
  block _ _ _ _ hst htu h h' := h.trans hst.toReaches htu.trace h'
  next _ _ _ _ _ _ hst htu h h' := h.trans hst.toReaches htu.trace h'
  next_stop _ _ _ _ _ hst htu h h' := h.trans_tracks hst.toReaches htu.trace h'
  ret _ _ a hst h := (h.note hst.trace (e := .ret a) rfl).update rfl fun _ _ _ _ => rfl
  loop_enter s loop start _ _ := by
    have hnote : s.Frames (s.note (.loopVar loop.varname)) :=
      Machine.Frames.refl.note List.prefix_rfl rfl
    exact (hnote.pushScope (Machine.Reaches.refl.note _) loop.owner _).update rfl
      fun _ _ _ _ => rfl
  loop_set s loop t i hst h := by
    -- The variable of the `FOR` is in the scope that was pushed.
    refine h.update rfl fun key j x hj => Context.cell_modify fun howner => ?_
    rw [hst.position, ← s.ec.scopes_congr howner]
    omega
  loop_read _ _ _ _ _ h := h.update rfl fun _ _ _ _ => rfl
  loop_body _ _ _ _ _ hst htu h h' := h.trans hst.toReaches htu.trace h'
  loop_stop _ _ _ _ h := h.tracks
  loop_body_stop _ _ _ _ hst htu h h' := h.trans_tracks hst.toReaches htu.trace h'
  loop_exit s loop t hst h := by
    have hclose : s.Frames t.closeBlock := h.update rfl fun _ _ _ _ => rfl
    have hnames : ∀ k, t.closeBlock.ec.fnNames k =
        (s.pushScope loop.owner ⟨forText ++ loop.varname, ∅⟩).ec.fnNames k := by
      intro k
      rw [Machine.pushScope, Machine.mapContext, Context.fnNames_push]
      exact hst.fnNames_eq k
    exact hclose.popScope hnames

/-! ## The variables of the callers -/

/-- What a call does to the variables of the scopes that exist. -/
theorem wp_call_frames (n : ℕ) (self function : Str) (args : List Value) (s : Machine) :
    wp (Module.call (visitor n) self function args) (fun _ t => s.Returns t ∧ s.Frames t)
      (fun _ t => s.Reaches t ∧ s.Tracks t) s :=
  have hrules := rules_balance.inf rules_frame
  wp_moduleCall hrules (visitor_keeps hrules n) self function args s

/-- **A call changes a variable of a scope that existed before it by the assignments that write
this variable only**: at every point of the call, and after it, the variable has the value of
the last of them, or its old value when there is none. -/
theorem call_frame (n : ℕ) (self function : Str) (args : List Value) (s : Machine)
    (key x : Str) (i : ℕ) (hi : i < (s.ec.scopes key).length) :
    let r := Module.call (visitor n) self function args s
    (∀ E p E', s.passed r.final = E ++ p :: E' →
      p.ec.cell key i x = E.replay (Point.written key i x) (s.ec.cell key i x)) ∧
    ∀ result t, r = .ok result t →
      t.ec.cell key i x = (s.passed t).replay (Point.written key i x) (s.ec.cell key i x) := by
  intro r
  have hrun := wp_call_frames n self function args s
  have htracks : s.Tracks r.final :=
    wp_final (P := s.Tracks) (wp_mono hrun (fun _ _ ht => ht.2.tracks) fun _ _ ht => ht.2)
  constructor
  · intro E p E' hE
    have halong := htracks key i x hi
    rw [hE] at halong
    exact halong.at
  · intro result t hr
    exact (wp_ok hrun hr).2.cell key i x hi

/-- A procedure that calls another, which assigns a name that only its caller binds. -/
def assignInCallee : List Item :=
  [.procedureDefinition ⟨['f'], [['x']],
      [.procedureCall ['g'] [.int ['0']], .returnStatement (.ident ['x'])]⟩,
    .procedureDefinition ⟨['g'], [['y']],
      [.assignExpr ['X'] (.int ['2']), .returnStatement (.int ['1'])]⟩,
    .statement (.assignExpr ['r'] (.procCall ['f'] [.int ['1']]))]

/-- The state in which the body of `f` begins, with the argument 1. -/
def inCaller : Machine :=
  (Machine.start (Context.init.withProgram assignInCallee) fun _ => .invalid).enterCall [] ['f']
    (bindParams ⟨['f'], ∅⟩ [['x']] [Value.ofInt 1]) [Value.ofInt 1]

theorem call_frame_inCaller :
    let r := Module.call (visitor 9) [] ['g'] [Value.ofInt 0] inCaller
    r.error? = none ∧ r.final.ec.cell [] 1 ['x'] =
      (inCaller.passed r.final).replay (Point.written [] 1 ['x']) (inCaller.ec.cell [] 1 ['x']) := by
  intro r
  obtain ⟨result, t, hrun⟩ := Result.exists_ok (r := r) (by decide +kernel)
  have hframe := (call_frame 9 [] ['g'] [Value.ofInt 0] inCaller [] ['x'] 1
    (by decide +kernel)).2 result t hrun
  rw [hrun]
  exact ⟨rfl, hframe⟩

/-- The call of `g` changes the parameter of `f`, which returns the new value. -/
theorem call_changes_caller :
    let call := Module.call (visitor 9) [] ['g'] [Value.ofInt 0] inCaller
    let run := runProgram 9 (Context.init.withProgram assignInCallee) (fun _ => .invalid)
      assignInCallee
    (call.error? = none ∧ inCaller.ec.cell [] 1 ['x'] = some (Value.ofInt 1) ∧
      call.final.ec.cell [] 1 ['x'] = some (Value.ofInt 2)) ∧
    run.error? = none ∧ run.final.ec.cell [] 0 ['r'] = some (Value.ofInt 2) := by
  decide +kernel

/-! ## The names in the scopes of the callers -/

/-- The assignment at this point, if there is one, names no package. -/
def Point.Unqualified (p : Point) : Prop :=
  match p.event with
  | .assign name _ => (splitPackageFromId name).1 = []
  | _ => True

/-- A variable that the assignment at this point creates goes to a new scope: the scope on top
of the current module is none of those that `s` has. -/
def Machine.AddsAbove (s : Machine) (p : Point) : Prop :=
  match p.event with
  | .assign name _ => innermost name (p.ec.scopes (p.ec.varModule name)) = none →
      (s.ec.scopes p.ec.module).length ≤ (p.ec.scopes p.ec.module).length - 1
  | _ => True

instance (p : Point) : Decidable p.Unqualified := by
  unfold Point.Unqualified
  split <;> infer_instance

instance (s : Machine) (p : Point) : Decidable (s.AddsAbove p) := by
  unfold Machine.AddsAbove
  split <;> infer_instance

theorem Point.unqualified_iff {p : Point} : p.Unqualified ↔
    ∀ name value, p.event = .assign name value → (splitPackageFromId name).1 = [] := by
  unfold Point.Unqualified
  cases p.event <;> simp

theorem Machine.addsAbove_iff {s : Machine} {p : Point} : s.AddsAbove p ↔
    ∀ name value, p.event = .assign name value →
      innermost name (p.ec.scopes (p.ec.varModule name)) = none →
        (s.ec.scopes p.ec.module).length ≤ (p.ec.scopes p.ec.module).length - 1 := by
  unfold Machine.AddsAbove
  cases p.event <;> simp

theorem Context.isSome_innermost (ec : Context) (name key : Str) :
    (innermost name (ec.scopes key)).isSome = (ec.moduleAt key).hasVar name := rfl

/-- A name that is bound nowhere refers to the current module. -/
theorem Context.varModule_of_none {ec : Context} {name : Str}
    (h : innermost name (ec.scopes (ec.varModule name)) = none) :
    ec.varModule name = ec.module := by
  unfold Context.varModule at h ⊢
  split_ifs at h ⊢ with hroot
  · rw [Bool.and_eq_true, ← Context.isSome_innermost ec name ec.root, h] at hroot
    cases hroot.2
  · rfl

/-- An assignment that names no package writes its own name, in the module it is looked up in. -/
theorem Context.refers_of_unqualified {ec : Context} {name key x : Str}
    (h : (splitPackageFromId name).1 = []) :
    ec.Refers name key x ↔
      strcasecmp key (ec.varModule name) = .eq ∧ strcasecmp x name = .eq := by
  simp only [Context.Refers, Context.resolve, h, ne_eq, not_true_eq_false, if_false,
    Option.mem_def, Option.some.injEq, exists_eq_left']

section Names

variable {s t : Machine}

/-- While created variables go to new scopes, an assignment writes a variable that exists. -/
theorem isSome_of_written {p : Point} {key x : Str} {i : ℕ} {value : Value}
    (hunq : p.Unqualified) (hadds : s.AddsAbove p) (hi : i < (s.ec.scopes key).length)
    (hw : p.written key i x = some value) : (p.ec.cell key i x).isSome := by
  obtain ⟨name, he, hwrites⟩ := Point.writes_of_written hw
  rcases hwrites.isSome_or with hbound | ⟨hnone, htop⟩
  · exact hbound
  -- A variable that is created would be in the scope on top, above those of `s`.
  have hpkg := Point.unqualified_iff.mp hunq name value he
  obtain ⟨hkey, hx⟩ := (Context.refers_of_unqualified hpkg).mp hwrites.1
  rw [innermost_congr hx, p.ec.scopes_congr hkey] at hnone
  have hnew := Machine.addsAbove_iff.mp hadds name value he hnone
  rw [Context.varModule_of_none hnone] at hkey
  rw [← s.ec.scopes_congr hkey, ← p.ec.scopes_congr hkey] at hnew
  omega

/-- A variable that is created in a scope that `s` has is new in that scope, and stays. -/
theorem addsAbove_of_names (hframe : s.Frames t)
    (hnames : ∀ key i x, i < (s.ec.scopes key).length →
      (t.ec.cell key i x).isSome = (s.ec.cell key i x).isSome)
    (hunq : ∀ p ∈ s.passed t, p.Unqualified) : ∀ p ∈ s.passed t, s.AddsAbove p := by
  intro p hp
  rw [Machine.addsAbove_iff]
  intro name value he hnone
  -- Else the scope on top is one of `s`, and the assignment creates the variable in it.
  by_contra hnew
  set i := (p.ec.scopes p.ec.module).length - 1 with htop
  have hi : i < (s.ec.scopes p.ec.module).length := Nat.lt_of_not_le hnew
  obtain ⟨E, E', hE⟩ := List.append_of_mem hp
  have hmodule := Context.varModule_of_none hnone
  rw [hmodule] at hnone
  have hbefore : (p.ec.cell p.ec.module i name).isSome = false :=
    Context.innermost_eq_none_iff.mp hnone i
  have hwrites : p.ec.Writes name p.ec.module i name := by
    have hpkg := Point.unqualified_iff.mp (hunq p hp) name value he
    refine ⟨(Context.refers_of_unqualified hpkg).mpr ⟨?_, ?_⟩, ?_⟩
    · rw [hmodule, strcasecmp_self]
    · exact strcasecmp_self name
    · rw [upsertTarget, hnone, Option.getD_none]
  have hwritten : p.written p.ec.module i name = some value := by
    simp only [Point.written, he, if_pos hwrites]
  have halong := hframe.tracks p.ec.module i name hi
  have hend := hframe.cell p.ec.module i name hi
  rw [hE] at halong hend
  -- The variable is bound at the end, so it was bound in `s`, and before the assignment.
  have hs : (s.ec.cell p.ec.module i name).isSome = true := by
    rw [← hnames p.ec.module i name hi, hend, List.isSome_replay, List.any_append, List.any_cons,
      hwritten]
    simp
  rw [halong.at] at hbefore
  exact absurd (List.isSome_replay.symm.trans hbefore) (by rw [hs]; simp)

theorem names_of_addsAbove (hframe : s.Frames t) (hunq : ∀ p ∈ s.passed t, p.Unqualified)
    (hadds : ∀ p ∈ s.passed t, s.AddsAbove p) (key : Str) (i : ℕ) (x : Str)
    (hi : i < (s.ec.scopes key).length) :
    (t.ec.cell key i x).isSome = (s.ec.cell key i x).isSome := by
  rw [hframe.cell key i x hi]
  -- Along the points: an assignment that writes the variable finds it bound.
  refine (hframe.tracks key i x hi).foldl (I := fun c => c.isSome = (s.ec.cell key i x).isSome)
    rfl fun c p hp hcell hc => ?_
  cases hw : p.written key i x with
  | none => exact hc
  | some value =>
    have hbound := isSome_of_written (hunq p hp) (hadds p hp) hi hw
    rw [hcell] at hbound
    rw [← hc, hbound]
    rfl

end Names

/-- **A completed call adds no variable to the scopes that existed before it exactly when every
variable it creates goes to a scope that it has pushed.** -/
theorem call_names (n : ℕ) (self function : Str) (args : List Value) (s t : Machine)
    (result : Value) (hrun : Module.call (visitor n) self function args s = .ok result t)
    (hunq : ∀ p ∈ s.passed t, p.Unqualified) :
    (∀ key i x, i < (s.ec.scopes key).length →
      (t.ec.cell key i x).isSome = (s.ec.cell key i x).isSome) ↔
    ∀ p ∈ s.passed t, s.AddsAbove p := by
  obtain ⟨-, hframe⟩ := wp_ok (wp_call_frames n self function args s) hrun
  constructor
  · exact fun hnames => addsAbove_of_names hframe hnames hunq
  · exact names_of_addsAbove hframe hunq

/-- The variables that a procedure of the current module creates go to new scopes. -/
theorem addsAbove_of_module (n : ℕ) (self function : Str) (args : List Value) (s t : Machine)
    (result : Value) (hself : strcasecmp s.ec.module self = .eq)
    (hrun : Module.call (visitor n) self function args s = .ok result t) :
    ∀ p ∈ s.passed t, s.AddsAbove p := by
  have hplain : ∀ p : Point, p.event.isAssign = false → s.AddsAbove p := fun p hp =>
    Machine.addsAbove_iff.mpr fun name value he => by rw [he] at hp; cases hp
  refine wp_ok (Q := fun _ t => ∀ p ∈ s.passed t, s.AddsAbove p) (F := fun _ _ => True)
    (wp_call ?_ (fun fn defFn _ _ _ => ?_) fun fn cppFn _ _ =>
      ⟨fun result _ => ⟨?_, fun _ _ => trivial⟩, fun _ _ => trivial⟩) hrun
  -- Without a call no point is passed.
  · simp
  · have hv := visitor_keeps rules_balance n
    refine wp_mono (hv.statements _ _) (fun a t ht => ⟨?_, fun _ _ => trivial⟩) fun _ _ _ => trivial
    refine (Machine.passesCall_exitCall ht.trace a _).forall (hplain _ rfl) (fun p hp => ?_)
      fun p hp => hplain p (Event.isAssign_of_isEnd hp)
    rw [Machine.addsAbove_iff]
    intro _ _ _ _
    -- The body runs above the scope of the call, which is on the deque of the current module.
    have hgrows := (ht.points p hp).2
    have hlength := hgrows.length_le s.ec.module
    rw [s.length_enterCall hself s.ec.module_mem] at hlength
    rw [hgrows.module]
    show (s.ec.scopes s.ec.module).length ≤ (p.ec.scopes s.ec.module).length - 1
    omega
  · rw [Machine.passed_exitNative]
    simp only [List.forall_mem_cons, List.not_mem_nil, false_imp_iff, implies_true, and_true]
    exact ⟨hplain _ rfl, hplain _ rfl⟩

/-- A procedure of the root module with a local variable. -/
def localVariable : List Item :=
  [.procedureDefinition ⟨['f'], [['x']],
    [.assignExpr ['y'] (.int ['2']), .returnStatement (.int ['1'])]⟩]

theorem call_names_localVariable :
    let s := Machine.start (Context.init.withProgram localVariable) fun _ => .invalid
    let r := Module.call (visitor 9) [] ['f'] [Value.ofInt 1] s
    r.error? = none ∧ ∀ key i x, i < (s.ec.scopes key).length →
      (r.final.ec.cell key i x).isSome = (s.ec.cell key i x).isSome := by
  intro s r
  obtain ⟨result, t, hrun⟩ := Result.exists_ok (r := r) (by decide +kernel)
  have hnames := (call_names 9 [] ['f'] [Value.ofInt 1] s r.final result
    (by rw [hrun]; exact hrun) (by decide +kernel)).mpr (by decide +kernel)
  exact ⟨by rw [hrun]; rfl, hnames⟩

/-- The same procedure in a module of its own. -/
def localVariableOfModule : List Item := .moduleDefinition ['"', 'm', '"'] :: localVariable

/-- The local variable of the procedure stays in the scope `<GLOBAL>` of the root module. -/
theorem call_leaks_local :
    let s := Machine.start (Context.init.withProgram localVariableOfModule).toRoot
      fun _ => .invalid
    let r := Module.call (visitor 9) ['m'] ['f'] [Value.ofInt 1] s
    r.error? = none ∧ (∀ p ∈ s.passed r.final, p.Unqualified) ∧
      (s.ec.cell [] 0 ['y']).isSome = false ∧ (r.final.ec.cell [] 0 ['y']).isSome = true := by
  decide +kernel

end WwivBasic
