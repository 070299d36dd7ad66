import WwivBasic.Returns

/-!
# What holds between the steps of a run

A property of the context and the open constructs that a balanced visit preserves, and that a call
and a `FOR` establish anew when they begin, holds wherever the run is between two pushes and pops:
at every point but those at which a call ends or a native function runs.

## Main definitions

* `Stable I`: visits preserve `I`, and calls and loops establish it
* `Point.Meets I`: `I` holds at the point, where the run is between two steps

## Main results

* `rules_settled`: a stable property is an invariant of visits
* `settled_of_run`: it holds throughout the run of a program
-/

namespace WwivBasic

open EStateM

/-- Events at which the scopes are those of the open constructs. -/
def Event.isSettled : Event → Bool
  | .native _ _ => false
  | e => !e.isEnd

/-- What a completed visit preserves, and what holds inside a call or a `FOR` that is made where it
holds. -/
structure Stable (I : Context → List Block → Prop) : Prop where
  returns : ∀ s t : Machine, I s.ec s.nest → s.Returns t → I t.ec t.nest
  inLoop : ∀ (s : Machine) (loop : ForLoop) (t : Machine), I s.ec s.nest → s.InLoop loop t →
    I t.ec t.nest
  enterCall : ∀ (s : Machine) (owner function : Str) (sc : Scope) (args : List Value),
    I s.ec s.nest → I (s.enterCall owner function sc args).ec
      (s.enterCall owner function sc args).nest
  importModule : ∀ (ec : Context) (nest : List Block) (id : Str), I ec nest →
    I (ec.importModule id) nest

/-- The property holds at this point, unless a call ends there or a native function runs. -/
def Point.Meets (I : Context → List Block → Prop) (p : Point) : Prop :=
  p.event.isSettled = true → I p.ec p.nest

/-- A visit that begins where the property holds meets it at its points. -/
def Relations.settled (I : Context → List Block → Prop) : Relations where
  expr s t := I s.ec s.nest → ∀ p ∈ s.passed t, p.Meets I
  call s t := I s.ec s.nest → ∀ p ∈ s.passed t, p.Meets I
  stmt s _ t := I s.ec s.nest → ∀ p ∈ s.passed t, p.Meets I
  loop s _ t := I s.ec s.nest → ∀ p ∈ s.passed t, p.Meets I
  stop s t := I s.ec s.nest → ∀ p ∈ s.passed t, p.Meets I

section Settled

variable {I : Context → List Block → Prop} {s t u : Machine}

theorem meets_of_not_isSettled {p : Point} (h : p.event.isSettled = false) : p.Meets I :=
  fun hp => by simp [h] at hp

theorem Event.isSettled_of_isEnd {e : Event} (h : e.isEnd = true) : e.isSettled = false := by
  cases e <;> first | rfl | cases h

theorem settled_note (e : Event) (hs : I s.ec s.nest) : ∀ p ∈ s.passed (s.note e), p.Meets I :=
  forall_passed_note.mpr fun _ => hs

variable (hI : Stable I)

include hI

/-- A visit, and what follows it. -/
theorem settled_trans (hst : s.Returns t) (htu : t.trace <+: u.trace)
    (h : I s.ec s.nest → ∀ p ∈ s.passed t, p.Meets I)
    (h' : I t.ec t.nest → ∀ p ∈ t.passed u, p.Meets I) (hs : I s.ec s.nest) :
    ∀ p ∈ s.passed u, p.Meets I :=
  (forall_passed_trans hst.trace htu).mpr ⟨h hs, h' (hI.returns s t hs hst)⟩

/-- A `FOR`, and a visit of its body. -/
theorem settled_loop {loop : ForLoop} (hst : s.InLoop loop t) (htu : t.trace <+: u.trace)
    (h : I s.ec s.nest → ∀ p ∈ s.passed t, p.Meets I)
    (h' : I t.ec t.nest → ∀ p ∈ t.passed u, p.Meets I) (hs : I s.ec s.nest) :
    ∀ p ∈ s.passed u, p.Meets I :=
  (forall_passed_trans hst.trace htu).mpr ⟨h hs, h' (hI.inLoop s loop t hs hst)⟩

theorem settled_body {owner function : Str} {sc : Scope} {args : List Value}
    (hpass : s.PassesCall owner function sc args t u)
    (h : I (s.enterCall owner function sc args).ec (s.enterCall owner function sc args).nest →
      ∀ p ∈ (s.enterCall owner function sc args).passed t, p.Meets I) (hs : I s.ec s.nest) :
    ∀ p ∈ s.passed u, p.Meets I := by
  have henter := hI.enterCall s owner function sc args hs
  exact hpass.forall (fun _ => henter) (h henter) fun p hp =>
    meets_of_not_isSettled (Event.isSettled_of_isEnd hp)

/-- **A stable property holds between the steps of a visit** that begins where it holds. -/
theorem rules_settled : Rules .balance (.settled I) where
  refl _ _ := forall_passed_self
  trans _ _ _ hst htu h h' := settled_trans hI hst htu.trace h h'
  stop _ _ _ h := h
  trans_stop _ _ _ hst htu h h' := settled_trans hI hst htu.trace h h'
  note _ e _ := settled_note e
  read _ _ := settled_note _
  dropTag s _ := forall_passed_self (s := s)
  readNumbers s _ _ _ := forall_passed_self (s := s)
  assign s name value := settled_note (s := s) (.assign name value)
  assign_stop _ _ _ := settled_note _
  call_refl _ _ := forall_passed_self
  call_clear _ _ _ h := h
  call_body _ _ _ _ _ a _ ht h :=
    settled_body hI (Machine.passesCall_exitCall ht.trace a _) h
  call_print _ _ _ _ _ a _ ht h := settled_body hI (Machine.passesCall_leaveBody ht.trace a) h
  call_stop _ _ _ _ _ _ ht h := settled_body hI (Machine.passesCall_body ht.trace) h
  native s owner function sc args converted result _ := by
    rw [Machine.passed_exitNative, List.forall_mem_cons, List.forall_mem_singleton]
    exact ⟨meets_of_not_isSettled rfl, meets_of_not_isSettled rfl⟩
  native_stop s owner function sc args converted _ := by
    rw [Machine.passed_enterNative, List.forall_mem_singleton]
    exact meets_of_not_isSettled rfl
  start _ _ _ ht h := settled_trans hI (Machine.Returns.refl.note _) ht.trace (settled_note _) h
  start_stop _ _ ht h := settled_trans hI (Machine.Returns.refl.note _) ht.trace (settled_note _) h
  simple _ _ _ h := h
  block _ _ _ _ hst htu h h' := settled_trans hI hst htu.trace h h'
  next _ _ _ _ _ _ hst htu h h' := settled_trans hI hst htu.trace h h'
  next_stop _ _ _ _ _ hst htu h h' := settled_trans hI hst htu.trace h h'
  ret s t a hst h hs := by
    have hpoints : s.passed ((t.note (.ret a)).setReturn true) = s.passed t ++ [t.point (.ret a)] :=
      Machine.passed_note hst.trace _
    rw [hpoints, List.forall_mem_append, List.forall_mem_singleton]
    exact ⟨h hs, fun _ => hI.returns s t hs hst⟩
  loop_enter s loop start _ _ hs := by
    rw [Machine.passed_enterLoop, List.forall_mem_singleton]
    exact fun _ => hs
  loop_set _ _ _ _ _ h := h
  loop_read _ _ _ _ _ h := h
  loop_body _ _ _ _ _ hst htu h h' := settled_loop hI hst htu.trace h h'
  loop_stop _ _ _ _ h := h
  loop_body_stop _ _ _ _ hst htu h h' := settled_loop hI hst htu.trace h h'
  loop_exit _ _ _ _ h := h

/-- **A stable property holds throughout the run of a program**, between its steps. -/
theorem settled_of_run (n : ℕ) (ec : Context) (tags : ℕ → ValueType) (items : List Item)
    (hec : I ec.toRoot []) :
    ∀ p ∈ (runProgram n ec tags items).final.trace, p.Meets I := by
  let s : Machine := (Machine.start ec tags).mapContext Context.toRoot
  have hrun := wp_visitItems (rules_balance.inf (rules_settled hI))
    (I := fun t => I t.ec t.nest ∧ s.trace <+: t.trace ∧ ∀ p ∈ s.passed t, p.Meets I)
    (S := fun t => ∀ p ∈ s.passed t, p.Meets I)
    ?_ ?_ ?_ ?_ n items s ⟨hec, List.prefix_rfl, forall_passed_self⟩
  · exact wp_final (m := visitMain (visitor n) items)
      (wp_mono (Q := fun _ t => _) hrun (fun _ t ht => ht.2.2) fun _ _ ht => ht)
  -- An item begins.
  · rintro t ⟨ht, htrace, hp⟩
    refine ⟨ht, htrace.trans (List.prefix_append _ _), ?_⟩
    rw [Machine.passed_note htrace, List.forall_mem_append, List.forall_mem_singleton]
    exact ⟨hp, fun _ => ht⟩
  -- A statement is complete, or has stopped.
  · rintro t a u ⟨ht, htrace, hp⟩ ⟨hb, hu⟩
    exact ⟨hI.returns t u ht hb, htrace.trans hb.trace,
      (forall_passed_trans htrace hb.trace).mpr ⟨hp, hu ht⟩⟩
  · rintro t u ⟨ht, htrace, hp⟩ ⟨hb, hu⟩
    exact (forall_passed_trans htrace hb.trace).mpr ⟨hp, hu ht⟩
  · rintro t id ⟨ht, htrace, hp⟩
    exact ⟨hI.importModule t.ec t.nest id ht, htrace, hp⟩

end Settled

end WwivBasic
