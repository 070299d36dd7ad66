import WwivBasic.Params

/-!
# Activations of one procedure

The activations of a procedure keep their parameters on one deque, which is searched by name from
its top. Those below are protected from those above by the scopes that the calls push: the scope of
a call binds every parameter of the procedure before its body begins, and its variables stay bound
until it is popped. So an assignment of a parameter's name during a call finds a variable there, or
in a scope further up.

## Main results

* `isSome_bindParams`: the scope of a call binds every parameter
* `not_written_during_call`: during a call no assignment writes a variable of that name in a scope
  that existed before it
* `recursion_separate`: so the parameters of the activations below keep their values
-/

namespace WwivBasic

open EStateM

section Bind

variable {names : List Str} {args : List Value} {sc : Scope} {a : Str}

theorem isSome_bindParams_of_bound (h : (sc.value? a).isSome) :
    ((bindParams sc names args).value? a).isSome := by
  induction names generalizing sc args with
  | nil => exact h
  | cons b names ih =>
    cases args with
    | nil => exact h
    | cons v args =>
      rw [bindParams]
      apply ih
      rw [Scope.value?_insertOrAssign]
      split_ifs
      · rfl
      · exact h

/-- Every parameter is bound, also when another one has its name. -/
theorem isSome_bindParams (hlen : args.length = names.length) (ha : a ∈ names) :
    ((bindParams sc names args).value? a).isSome := by
  induction names generalizing sc args with
  | nil => cases ha
  | cons b names ih =>
    cases args with
    | nil => cases hlen
    | cons v args =>
      rw [bindParams]
      rcases List.mem_cons.mp ha with rfl | ha
      · apply isSome_bindParams_of_bound
        rw [Scope.value?_insertOrAssign, if_pos (strcasecmp_self a)]
        rfl
      · exact ih (Nat.succ.inj hlen) ha

end Bind

/-- A variable is hidden by those of its name above it. -/
theorem Context.not_writes_of_lt {ec : Context} {key x name : Str} {i k : ℕ} (hik : i < k)
    (hk : (ec.cell key k x).isSome) : ¬ ec.Writes name key i x := by
  rintro ⟨-, rfl⟩
  cases hin : innermost x (ec.scopes key) with
  | some j =>
    rw [upsertTarget, hin, Option.getD_some] at hik
    rw [(innermost_eq_some_iff.mp hin).2 k hik] at hk
    cases hk
  | none =>
    rw [innermost_eq_none_iff.mp hin k] at hk
    cases hk

theorem Point.written_of_not_writes {p : Point} {key x : Str} {i : ℕ}
    (h : ∀ name, ¬ p.ec.Writes name key i x) : p.written key i x = none := by
  unfold Point.written
  split
  · exact if_neg (h _)
  · rfl

section Call

variable {self function : Str} {args : List Value} {s : Machine} {fn : BasicFunction}
  {defFn : ProcedureDefinition}
  (hfn : (s.ec.moduleAt self).functions.find? function = some fn) (hbody : fn.body = .basic defFn)

include hfn hbody

theorem not_written_during_call (n : ℕ) {a : Str} (ha : a ∈ fn.params) {i : ℕ}
    (hi : i < (s.ec.scopes self).length) :
    ∀ p ∈ s.passed (Module.call (visitor n) self function args s).final,
      p.written self i a = none := by
  have hrules := rules_balance.inf rules_frame
  let s₀ := s.enterCall self function (bindParams ⟨function, ∅⟩ fn.params args) args
  rcases Machine.passed_call_basic hfn hbody (I := fun t => s₀.Reaches t ∧ s₀.Tracks t)
      (fun t ht => ht.1.trace) (wp_mono ((visitor_keeps hrules n).statements _ s₀)
        (fun _ t ht => ⟨ht.1.toReaches, ht.2.tracks⟩) fun _ _ ht => ht)
    with hnone | ⟨hlen, t, ⟨-, htracks⟩, hpass⟩
  · rw [hnone]
    exact nofun
  -- The scope of the call binds the parameter when the body begins, and so at each of its points.
  · have hbound : (s₀.ec.cell self (s.ec.scopes self).length a).isSome := by
      rw [show s₀.ec.cell self (s.ec.scopes self).length a = _ from
        Context.cell_push_self (strcasecmp_self self) (Context.contains_of_lt hi)]
      exact isSome_bindParams hlen ha
    refine hpass.forall (Point.written_eq_none rfl) (fun p hp => ?_)
      fun p hp => Point.written_eq_none (Event.isAssign_of_isEnd hp)
    exact Point.written_of_not_writes fun name =>
      Context.not_writes_of_lt hi (htracks.bound hbound p hp)

end Call

/-- **Activations of a procedure have parameters of their own.** While a call of it is under way,
at every point of its body and of all that the body calls, and after it, each variable that has the
name of a parameter in a scope that existed before the call has the value it had then. All
activations that led to the call have their parameters in such scopes. -/
theorem recursion_separate (n : ℕ) (self function : Str) (args : List Value) (s : Machine)
    (fn : BasicFunction) (defFn : ProcedureDefinition)
    (hfn : (s.ec.moduleAt self).functions.find? function = some fn)
    (hbody : fn.body = .basic defFn) (a : Str) (ha : a ∈ fn.params) (i : ℕ)
    (hi : i < (s.ec.scopes self).length) :
    let r := Module.call (visitor n) self function args s
    (∀ p ∈ s.passed r.final, p.written self i a = none ∧
      p.ec.cell self i a = s.ec.cell self i a) ∧
    ∀ result t, r = .ok result t → t.ec.cell self i a = s.ec.cell self i a := by
  intro r
  have hwritten : ∀ p ∈ s.passed r.final, p.written self i a = none :=
    not_written_during_call hfn hbody n ha hi
  obtain ⟨hpoints, hend⟩ := call_frame n self function args s self a i hi
  constructor
  · intro p hp
    obtain ⟨E, E', hE⟩ := List.append_of_mem hp
    refine ⟨hwritten p hp, (hpoints E p E' hE).trans (List.replay_of_forall fun q hq => ?_)⟩
    exact hwritten q (hE ▸ List.mem_append_left _ hq)
  · intro result t hr
    refine (hend result t hr).trans (List.replay_of_forall fun q hq => hwritten q ?_)
    rw [hr]
    exact hq

/-- A procedure that calls itself, and assigns its parameter in an `IF`, in a `FOR` over it, and in
another `FOR`. -/
def countdown : List Item :=
  [.procedureDefinition ⟨['f'], [['x']],
    [.ifThen (.relation .gt (.ident ['x']) (.int ['0']))
        [.assignExpr ['r'] (.procCall ['f'] [.addSub .minus (.ident ['x']) (.int ['1'])]),
          .assignExpr ['X'] (.int ['8'])],
      .forStatement ['x'] (.int ['1']) (.int ['2']) none [.assignExpr ['x'] (.ident ['x'])],
      .forStatement ['i'] (.int ['1']) (.int ['2']) none [.assignExpr ['x'] (.int ['9'])],
      .returnStatement (.ident ['x'])]⟩]

/-- The state in which the body of `f` begins, with the argument 3. -/
def inCountdown : Machine :=
  (Machine.start (Context.init.withProgram countdown) fun _ => .invalid).enterCall [] ['f']
    (bindParams ⟨['f'], ∅⟩ [['x']] [Value.ofInt 3]) [Value.ofInt 3]

theorem recursion_separate_countdown :
    let r := Module.call (visitor 20) [] ['f'] [Value.ofInt 2] inCountdown
    r.error? = none ∧ inCountdown.ec.cell [] 1 ['x'] = some (Value.ofInt 3) ∧
      ∀ p ∈ inCountdown.passed r.final, p.ec.cell [] 1 ['x'] = some (Value.ofInt 3) := by
  intro r
  obtain ⟨⟨fn, defFn⟩, hfn, hbody, hparams⟩ :
      ∃ d : BasicFunction × ProcedureDefinition,
        (inCountdown.ec.moduleAt []).functions.find? ['f'] = some d.1 ∧
          d.1.body = .basic d.2 ∧ d.1.params = [['x']] := ⟨⟨_, _⟩, rfl, rfl, rfl⟩
  have hcell : inCountdown.ec.cell [] 1 ['x'] = some (Value.ofInt 3) := by decide +kernel
  have hcall := (recursion_separate 20 [] ['f'] [Value.ofInt 2] inCountdown fn defFn hfn hbody
    ['x'] (hparams ▸ List.mem_singleton_self _) 1 (by decide +kernel)).1
  exact ⟨by decide +kernel, hcell, fun p hp => (hcall p hp).2.trans hcell⟩

end WwivBasic
