import WwivBasic.Balance

/-!
# The flag `return_`

`RETURN` sets one flag, which every block tests after each of its statements and every call
clears when it is over. A `FOR` neither tests the flag nor ends with the result of its body, and
`visitMain` does not look at it at all. So the flag does what a `RETURN` means exactly as long as
each `RETURN` is executed in the body of a procedure, outside of the `FOR` loops of that body.

## Main definitions

* `inBody`: the innermost open construct is a call
* `activation`: the calls and loops below, and with, the innermost open call
* `Relations.clear`, `Relations.unwind`: the invariants

## Main results

* `return_clear`: the flag is clear wherever an item, a body or a statement begins
* `return_unwinds`: nothing of an activation is executed after its `RETURN`, whose value is the
  value of the call
-/

namespace WwivBasic

open EStateM

/-- Whether the run is in a call, and in no `FOR` of that call. -/
def inBody : List Block → Bool
  | .call _ _ :: _ => true
  | _ => false

/-- Whether a `RETURN` is executed. -/
def Event.isRet : Event → Bool
  | .ret _ => true
  | _ => false

/-- Whether an item, the body of a procedure or a statement begins. -/
def Event.isEntry : Event → Bool
  | .item | .enter _ _ | .statement => true
  | _ => false

/-- A `RETURN` executed at this point is in the body of a procedure, and in no `FOR` of it. -/
def Point.ReturnsInBody (p : Point) : Prop := p.event.isRet = true → inBody p.nest = true

/-- What begins at this point begins with the flag clear. -/
def Point.EntersClear (p : Point) : Prop := p.event.isEntry = true → p.return_ = false

instance (p : Point) : Decidable p.ReturnsInBody := inferInstanceAs (Decidable (_ → _))

instance (p : Point) : Decidable p.EntersClear := inferInstanceAs (Decidable (_ → _))

/-! ## The flag is clear at every entry -/

/-- As long as every `RETURN` is in a body: an expression leaves the flag clear, a statement sets
it in a body only, and nothing begins while it is set. -/
def Relations.clear : Relations where
  expr s t := (∀ p ∈ s.passed t, p.ReturnsInBody) → s.return_ = false →
    t.return_ = false ∧ ∀ p ∈ s.passed t, p.EntersClear
  call s t := (∀ p ∈ s.passed t, p.ReturnsInBody) → s.return_ = false →
    ∀ p ∈ s.passed t, p.EntersClear
  stmt s _ t := (∀ p ∈ s.passed t, p.ReturnsInBody) → s.return_ = false →
    (t.return_ = true → inBody s.nest = true) ∧ ∀ p ∈ s.passed t, p.EntersClear
  loop s _ t := (∀ p ∈ s.passed t, p.ReturnsInBody) → s.return_ = false →
    t.return_ = false ∧ ∀ p ∈ s.passed t, p.EntersClear
  stop s t := (∀ p ∈ s.passed t, p.ReturnsInBody) → s.return_ = false →
    ∀ p ∈ s.passed t, p.EntersClear

section Clear

variable {s t u : Machine}

/-- The points of two parts of a run. -/
theorem forall_passed_trans {P : Point → Prop} (h : s.trace <+: t.trace)
    (h' : t.trace <+: u.trace) :
    (∀ p ∈ s.passed u, P p) ↔ (∀ p ∈ s.passed t, P p) ∧ ∀ p ∈ t.passed u, P p := by
  rw [Machine.passed_trans h h', List.forall_mem_append]

theorem forall_passed_self {P : Point → Prop} : ∀ p ∈ s.passed s, P p := by
  simp only [Machine.passed_self, List.not_mem_nil, false_imp_iff, implies_true]

theorem forall_passed_note {P : Point → Prop} {e : Event} :
    (∀ p ∈ s.passed (s.note e), P p) ↔ P (s.point e) := by
  rw [Machine.passed_note List.prefix_rfl, Machine.passed_self, List.nil_append,
    List.forall_mem_singleton]

theorem entersClear_of_not_isEntry {p : Point} (h : p.event.isEntry = false) : p.EntersClear :=
  fun hp => by simp [h] at hp

theorem entersClear_of_clear {p : Point} (h : p.return_ = false) : p.EntersClear := fun _ => h

theorem clear_note {e : Event} (h : e.isEntry = false) : Relations.clear.expr s (s.note e) :=
  fun _ hs => ⟨hs, forall_passed_note.mpr (entersClear_of_not_isEntry h)⟩

/-- A part of a run that leaves the flag clear, and the part after it. -/
theorem clear_trans {Q : Prop} (hst : s.trace <+: t.trace) (htu : t.trace <+: u.trace)
    (h : (∀ p ∈ s.passed t, p.ReturnsInBody) → s.return_ = false →
      t.return_ = false ∧ ∀ p ∈ s.passed t, p.EntersClear)
    (h' : (∀ p ∈ t.passed u, p.ReturnsInBody) → t.return_ = false →
      Q ∧ ∀ p ∈ t.passed u, p.EntersClear) :
    (∀ p ∈ s.passed u, p.ReturnsInBody) → s.return_ = false →
      Q ∧ ∀ p ∈ s.passed u, p.EntersClear := by
  intro hc hs
  rw [forall_passed_trans hst htu] at hc ⊢
  obtain ⟨ht, hp⟩ := h hc.1 hs
  obtain ⟨hQ, hp'⟩ := h' hc.2 ht
  exact ⟨hQ, hp, hp'⟩

/-- A part that leaves the flag clear, and one that stops. -/
theorem clear_stop (hst : s.trace <+: t.trace) (htu : t.trace <+: u.trace)
    (h : (∀ p ∈ s.passed t, p.ReturnsInBody) → s.return_ = false →
      t.return_ = false ∧ ∀ p ∈ s.passed t, p.EntersClear)
    (h' : Relations.clear.stop t u) : Relations.clear.stop s u := fun hc hs =>
  (clear_trans hst htu h (Q := True) (fun hc ht => ⟨trivial, h' hc ht⟩) hc hs).2

theorem Event.isEntry_of_isEnd {e : Event} (h : e.isEnd = true) : e.isEntry = false := by
  cases e <;> first | rfl | cases h

/-- The statements of a body begin with the flag clear, and what follows them begins nothing. -/
theorem clear_body {owner function : Str} {sc : Scope} {args : List Value}
    (hpass : s.PassesCall owner function sc args t u)
    (h : (∀ p ∈ (s.enterCall owner function sc args).passed t, p.ReturnsInBody) →
      s.return_ = false → ∀ p ∈ (s.enterCall owner function sc args).passed t, p.EntersClear) :
    (∀ p ∈ s.passed u, p.ReturnsInBody) → s.return_ = false →
      ∀ p ∈ s.passed u, p.EntersClear := by
  intro hc hs
  have hbody := h (hpass.body hc) hs
  exact hpass.forall (entersClear_of_clear hs) hbody fun p hp =>
    entersClear_of_not_isEntry (Event.isEntry_of_isEnd hp)

end Clear

theorem rules_clear : Rules .balance .clear where
  refl s _ hs := ⟨hs, forall_passed_self⟩
  trans _ _ _ hst htu h h' := clear_trans hst.trace htu.trace h h'
  stop _ _ _ h hc hs := (h hc hs).2
  trans_stop _ _ _ hst htu h h' := clear_stop hst.trace htu.trace h h'
  -- Simple steps begin nothing and leave the flag alone.
  note s e he := clear_note (by cases e <;> first | rfl | cases he)
  read s name := clear_note rfl
  dropTag s _ hs := ⟨hs, forall_passed_self (s := s)⟩
  readNumbers s _ _ _ hs := ⟨hs, forall_passed_self (s := s)⟩
  assign s name value := clear_note (e := .assign name value) rfl
  assign_stop s name value hc hs := (clear_note (e := .assign name value) rfl hc hs).2
  call_refl _ _ _ := forall_passed_self
  -- Whatever the body has left in the flag is cleared with the call.
  call_clear _ _ _ h hc hs := ⟨rfl, h hc hs⟩
  -- The body begins with the flag of the caller.
  call_body s owner function sc args a t ht h :=
    clear_body (Machine.passesCall_exitCall ht.trace a _) fun hc hs => (h hc hs).2
  call_print s owner function sc args a t ht h :=
    clear_body (Machine.passesCall_leaveBody ht.trace a) fun hc hs => (h hc hs).2
  call_stop s owner function sc args t ht h := clear_body (Machine.passesCall_body ht.trace) h
  native s owner function sc args converted result _ _ := by
    rw [Machine.passed_exitNative, List.forall_mem_cons, List.forall_mem_singleton]
    exact ⟨entersClear_of_not_isEntry rfl, entersClear_of_not_isEntry rfl⟩
  native_stop s owner function sc args converted _ _ := by
    rw [Machine.passed_enterNative, List.forall_mem_singleton]
    exact entersClear_of_not_isEntry rfl
  start s a t ht h hc hs := by
    rw [forall_passed_trans (List.prefix_append _ _) ht.trace] at hc ⊢
    obtain ⟨hr, hp⟩ := h hc.2 hs
    exact ⟨hr, forall_passed_note.mpr (entersClear_of_clear hs), hp⟩
  start_stop s t ht h hc hs := by
    rw [forall_passed_trans (List.prefix_append _ _) ht.trace] at hc ⊢
    exact ⟨forall_passed_note.mpr (entersClear_of_clear hs), h hc.2 hs⟩
  simple s t _ h hc hs := by
    obtain ⟨ht, hp⟩ := h hc hs
    exact ⟨fun hr => by simp [ht] at hr, hp⟩
  block s t a u hst htu h h' hc hs := by
    obtain ⟨hu, hp⟩ := clear_trans hst.trace htu.trace h h' hc hs
    exact ⟨fun hr => hst.nest_eq ▸ hu hr, hp⟩
  -- The next statement begins because the flag is clear.
  next s a t b u ht hst htu h h' hc hs := by
    obtain ⟨hu, hp⟩ :=
      clear_trans hst.trace htu.trace (fun hc hs => ⟨ht, (h hc hs).2⟩) h' hc hs
    exact ⟨fun hr => hst.nest_eq ▸ hu hr, hp⟩
  next_stop s a t u ht hst htu h h' :=
    clear_stop hst.trace htu.trace (fun hc hs => ⟨ht, (h hc hs).2⟩) h'
  ret s t a hst h hc hs := by
    have hpoints : s.passed ((t.note (.ret a)).setReturn true) = s.passed t ++ [t.point (.ret a)] :=
      Machine.passed_note hst.trace _
    rw [hpoints, List.forall_mem_append, List.forall_mem_singleton] at hc ⊢
    refine ⟨fun _ => ?_, (h hc.1 hs).2, entersClear_of_not_isEntry rfl⟩
    -- The nest at the `RETURN` is the one its statement began with.
    have hbody : inBody t.nest = true := hc.2 rfl
    rwa [hst.nest_eq] at hbody
  loop_enter s loop start _ _ _ hs := by
    refine ⟨hs, ?_⟩
    rw [Machine.passed_enterLoop, List.forall_mem_singleton]
    exact entersClear_of_not_isEntry rfl
  loop_set _ _ _ _ _ h := h
  loop_read _ _ _ _ _ h := h
  loop_body s loop t a u hst htu h h' hc hs := by
    obtain ⟨hu, hp⟩ := clear_trans hst.trace htu.trace h h' hc hs
    -- A statement sets the flag in a body only, and this one is in a `FOR`.
    refine ⟨Bool.eq_false_iff.mpr fun hr => ?_, hp⟩
    have hloop := hu hr
    rw [hst.nest_eq] at hloop
    cases hloop
  loop_stop _ _ _ _ h hc hs := (h hc hs).2
  loop_body_stop _ _ _ _ hst htu h h' := clear_stop hst.trace htu.trace h h'
  loop_exit s loop t _ h hc hs := by
    obtain ⟨ht, hp⟩ := h hc hs
    exact ⟨fun hr => by simp [Machine.exitLoop, ht] at hr, hp⟩

/-- **The flag is clear wherever a top-level item, the body of a procedure or a statement
begins**, in every run in which each `RETURN` is executed in the body of a procedure, outside of
the `FOR` loops of that body. -/
theorem return_clear (n : ℕ) (ec : Context) (tags : ℕ → ValueType) (items : List Item)
    (h : ∀ p ∈ (runProgram n ec tags items).final.trace, p.ReturnsInBody) :
    ∀ p ∈ (runProgram n ec tags items).final.trace, p.EntersClear := by
  let s : Machine := (Machine.start ec tags).mapContext Context.toRoot
  -- Between two items no construct is open, so that a `RETURN` there would not be in a body.
  have hrun := wp_visitItems (rules_balance.inf rules_clear)
    (I := fun t => t.nest = [] ∧ s.trace <+: t.trace ∧ ((∀ p ∈ s.passed t, p.ReturnsInBody) →
      t.return_ = false ∧ ∀ p ∈ s.passed t, p.EntersClear))
    (S := fun t => (∀ p ∈ s.passed t, p.ReturnsInBody) → ∀ p ∈ s.passed t, p.EntersClear)
    ?_ ?_ ?_ ?_ n items s ⟨rfl, List.prefix_rfl, fun _ => ⟨rfl, forall_passed_self⟩⟩
  · exact wp_final (m := visitMain (visitor n) items)
      (wp_mono (Q := fun _ t => _) hrun (fun _ t ht hc => (ht.2.2 hc).2) fun _ _ ht => ht) h
  -- An item begins.
  · rintro t ⟨hnest, htrace, ht⟩
    refine ⟨hnest, htrace.trans (List.prefix_append _ _), fun hc => ?_⟩
    rw [Machine.passed_note htrace, List.forall_mem_append, List.forall_mem_singleton] at hc ⊢
    obtain ⟨hr, hp⟩ := ht hc.1
    exact ⟨hr, hp, entersClear_of_clear hr⟩
  -- A statement is complete: at the top level it has not set the flag.
  · rintro t a u ⟨hnest, htrace, ht⟩ ⟨hb, hu⟩
    refine ⟨hb.nest_eq.trans hnest, htrace.trans hb.trace, fun hc => ?_⟩
    obtain ⟨hr, hp⟩ := clear_trans htrace hb.trace (fun hc _ => ht hc) hu hc rfl
    refine ⟨Bool.eq_false_iff.mpr fun hset => ?_, hp⟩
    have hbody := hr hset
    rw [hnest] at hbody
    cases hbody
  -- A statement has stopped.
  · rintro t u ⟨hnest, htrace, ht⟩ ⟨hb, hu⟩ hc
    exact clear_stop htrace hb.trace (fun hc _ => ht hc) hu hc rfl
  -- An `IMPORT` begins nothing.
  · rintro t id ⟨hnest, htrace, ht⟩
    exact ⟨hnest, htrace, ht⟩

/-- A procedure with a `RETURN`, called twice. -/
def returnInBody : List Item :=
  [.procedureDefinition ⟨['f'], [['x']], [.returnStatement (.ident ['x'])]⟩,
    .statement (.assignExpr ['r'] (.procCall ['f'] [.int ['1']])),
    .statement (.assignExpr ['r'] (.procCall ['f'] [.int ['2']]))]

theorem return_clear_returnInBody :
    let r := runProgram 6 (Context.init.withProgram returnInBody) (fun _ => .invalid) returnInBody
    r.error? = none ∧ ∀ p ∈ r.final.trace, p.EntersClear := by
  intro r
  exact ⟨by decide +kernel, return_clear 6 _ _ returnInBody (by decide +kernel)⟩

/-- A `RETURN` at the top level, and a block with two statements. -/
def returnAtTop : List Item :=
  [.statement (.returnStatement (.int ['1'])),
    .statement (.ifThen (.boolean true)
      [.assignExpr ['x'] (.int ['1']), .assignExpr ['y'] (.int ['2'])])]

/-- The block begins with the flag set, and is cut short after its first statement. -/
theorem return_not_clear : ¬ (∀ p ∈ (runProgram 6 Context.init (fun _ => .invalid)
      returnAtTop).final.trace, p.EntersClear) ∧
    (((runProgram 6 Context.init (fun _ => .invalid) returnAtTop).final.ec.findVar ['x']).isSome ∧
      ((runProgram 6 Context.init (fun _ => .invalid) returnAtTop).final.ec.findVar ['y']).isNone) := by
  decide +kernel

/-! ## Nothing follows a `RETURN` -/

/-- The calls and loops below, and with, the innermost open call. -/
def activation (nest : List Block) : List Block := nest.dropWhile Block.isLoop

@[simp] theorem activation_call (owner function : Str) (nest : List Block) :
    activation (.call owner function :: nest) = .call owner function :: nest := rfl

@[simp] theorem activation_loop (var : Str) (nest : List Block) :
    activation (.loop var :: nest) = activation nest := rfl

theorem activation_suffix_self (nest : List Block) : activation nest <:+ nest :=
  List.dropWhile_suffix _

theorem activation_suffix {l l' : List Block} (h : l <:+ l') : activation l <:+ activation l' := by
  obtain ⟨m, rfl⟩ := h
  induction m with
  | nil => exact List.suffix_rfl
  | cons b m ih =>
    -- A call on top begins an activation of its own, and a loop belongs to the one below.
    cases b with
    | call owner function =>
      exact (activation_suffix_self l).trans ((List.suffix_append _ _).trans (List.suffix_cons _ _))
    | loop var => exact ih

/-- What happens while a call is open belongs to no activation outside of it. -/
theorem activation_ne_of_call {owner function : Str} {nest nest' : List Block}
    (h : .call owner function :: nest <:+ nest') : activation nest' ≠ activation nest := by
  intro heq
  -- The activation of the call, or one above it, is longer than that of its caller.
  have hlong := (activation_suffix h).length_le
  have hshort := (activation_suffix_self nest).length_le
  rw [activation_call, heq, List.length_cons] at hlong
  omega

/-- The `RETURN`s that an activation executes among some points are in its body, and in none of
its `FOR` loops. -/
def ReturnsDirectly (act : List Block) (E : List Point) : Prop :=
  ∀ p ∈ E, activation p.nest = act → p.ReturnsInBody

instance (act : List Block) (E : List Point) : Decidable (ReturnsDirectly act E) :=
  inferInstanceAs (Decidable (∀ p ∈ E, activation p.nest = act → p.ReturnsInBody))

/-- Among some points an activation executes no `RETURN`. -/
def NoReturn (act : List Block) (E : List Point) : Prop :=
  ∀ p ∈ E, activation p.nest = act → p.event.isRet = false

/-- Among some points an activation begins no statement. -/
def NoStatement (act : List Block) (E : List Point) : Prop :=
  ∀ p ∈ E, activation p.nest = act → p.event ≠ .statement

/-- An expression executes no `RETURN` of the activation it belongs to. A statement or a block
executes none, or it executes one last, has its result and leaves the flag set. -/
def Relations.unwind : Relations where
  expr s t := NoReturn (activation s.nest) (s.passed t)
  call s t := NoReturn (activation s.nest) (s.passed t)
  stmt s a t := ReturnsDirectly (activation s.nest) (s.passed t) →
    NoReturn (activation s.nest) (s.passed t) ∨
      t.return_ = true ∧ ∃ E p, s.passed t = E ++ [p] ∧ NoReturn (activation s.nest) E ∧
        p.event = .ret a ∧ p.nest = s.nest
  loop s _ t := ReturnsDirectly (activation s.nest) (s.passed t) →
    NoReturn (activation s.nest) (s.passed t)
  stop s t := ReturnsDirectly (activation s.nest) (s.passed t) →
    NoReturn (activation s.nest) (s.passed t)

section Unwind

variable {s t u : Machine} {act : List Block}

theorem noReturn_trans (h : s.trace <+: t.trace) (h' : t.trace <+: u.trace) :
    NoReturn act (s.passed u) ↔ NoReturn act (s.passed t) ∧ NoReturn act (t.passed u) :=
  forall_passed_trans h h'

theorem noReturn_self : NoReturn act (s.passed s) := forall_passed_self

theorem noReturn_note {e : Event} (h : e.isRet = false) : NoReturn act (s.passed (s.note e)) :=
  forall_passed_note.mpr fun _ => h

theorem Event.isRet_of_isEnd {e : Event} (h : e.isEnd = true) : e.isRet = false := by
  cases e <;> first | rfl | cases h

/-- A call executes no `RETURN` of the activation that makes it. -/
theorem noReturn_body {owner function : Str} {sc : Scope} {args : List Value}
    (hreach : (s.enterCall owner function sc args).Reaches t)
    (hpass : s.PassesCall owner function sc args t u) :
    NoReturn (activation s.nest) (s.passed u) := by
  refine hpass.forall (fun _ => rfl) (fun p hp hown => ?_) fun p hp _ => Event.isRet_of_isEnd hp
  -- The body is another activation.
  exact absurd hown (activation_ne_of_call (hreach.points p hp).1)

theorem noReturn_native {owner function : Str} {sc : Scope} {args : List Value}
    {converted : List Str} (v : Value) :
    NoReturn act (s.passed ((s.enterNative owner function sc args converted).exitCall owner v)) := by
  intro p hp _
  simp only [Machine.passed_exitNative, List.mem_cons, List.not_mem_nil, or_false] at hp
  rcases hp with rfl | rfl <;> rfl

/-- A step without a `RETURN`, then a statement or a block. -/
theorem unwind_block {a : AnyVal} (hst : s.Returns t) (htu : t.trace <+: u.trace)
    (h : NoReturn (activation s.nest) (s.passed t)) (h' : Relations.unwind.stmt t a u) :
    Relations.unwind.stmt s a u := by
  intro hc
  have hc' : ReturnsDirectly (activation t.nest) (t.passed u) := by
    rw [hst.nest_eq]
    exact ((forall_passed_trans hst.trace htu).mp hc).2
  have ht := h' hc'
  rw [hst.nest_eq] at ht
  -- A `RETURN` that is the last point of the second part is the last one of both.
  rcases ht with hno | ⟨hr, E, p, hE, hno, hp, hnest⟩
  · exact .inl ((noReturn_trans hst.trace htu).mpr ⟨h, hno⟩)
  · refine .inr ⟨hr, s.passed t ++ E, p, ?_, List.forall_mem_append.mpr ⟨h, hno⟩, hp, hnest⟩
    rw [Machine.passed_trans hst.trace htu, hE, List.append_assoc]

/-- A step without a `RETURN`, then a visit that stops. -/
theorem unwind_stop (hst : s.Returns t) (htu : t.trace <+: u.trace)
    (h : NoReturn (activation s.nest) (s.passed t)) (h' : Relations.unwind.stop t u) :
    Relations.unwind.stop s u := by
  intro hc
  refine (noReturn_trans hst.trace htu).mpr ⟨h, ?_⟩
  rw [← hst.nest_eq] at hc ⊢
  exact h' ((forall_passed_trans hst.trace htu).mp hc).2

end Unwind

theorem rules_unwind : Rules .balance .unwind where
  refl _ := noReturn_self
  trans s t u hst htu h h' :=
    (noReturn_trans hst.trace htu.trace).mpr ⟨h, hst.nest_eq ▸ h'⟩
  stop _ _ _ h _ := h
  trans_stop _ _ _ hst htu h h' := unwind_stop hst htu.trace h h'
  note _ e he := noReturn_note (by cases e <;> first | rfl | cases he)
  read _ _ := noReturn_note rfl
  dropTag s := noReturn_self (s := s)
  readNumbers s _ _ := noReturn_self (s := s)
  assign s name value := noReturn_note (s := s) (e := .assign name value) rfl
  assign_stop _ _ _ _ := noReturn_note rfl
  call_refl _ := noReturn_self
  call_clear _ _ _ h := h
  call_body s owner function sc args a t ht h :=
    noReturn_body ht.toReaches (Machine.passesCall_exitCall ht.trace a _)
  call_print s owner function sc args a t ht h _ :=
    noReturn_body ht.toReaches (Machine.passesCall_leaveBody ht.trace a)
  call_stop s owner function sc args t ht h _ :=
    noReturn_body ht (Machine.passesCall_body ht.trace)
  native _ _ _ _ _ _ result := noReturn_native result
  native_stop s owner function sc args converted _ p hp _ := by
    rw [Machine.passed_enterNative, List.mem_singleton] at hp
    exact hp ▸ rfl
  start s a t ht h := unwind_block (Machine.Returns.refl.note _) ht.trace (noReturn_note rfl) h
  start_stop s t ht h := unwind_stop (Machine.Returns.refl.note _) ht.trace (noReturn_note rfl) h
  simple _ _ _ h _ := .inl h
  block _ _ _ _ hst htu h h' := unwind_block hst htu.trace h h'
  -- Another statement begins, so that the flag is clear and the first one executed no `RETURN`.
  next s a t b u hr hst htu h h' hc := by
    rcases h ((forall_passed_trans hst.trace htu.trace).mp hc).1 with hno | ⟨hset, -⟩
    · exact unwind_block hst htu.trace hno h' hc
    · simp [hr] at hset
  next_stop s a t u hr hst htu h h' hc := by
    rcases h ((forall_passed_trans hst.trace htu.trace).mp hc).1 with hno | ⟨hset, -⟩
    · exact unwind_stop hst htu.trace hno h' hc
    · simp [hr] at hset
  -- Evaluating the result executes no `RETURN` of the activation.
  ret s t a hst h _ :=
    .inr ⟨rfl, s.passed t, t.point (.ret a), Machine.passed_note hst.trace _, h, rfl, hst.nest_eq⟩
  loop_enter s loop start _ _ _ p hp _ := by
    rw [Machine.passed_enterLoop, List.mem_singleton] at hp
    exact hp ▸ rfl
  loop_set _ _ _ _ _ h := h
  loop_read _ _ _ _ _ h := h
  loop_body s loop t a u hst htu h h' hc := by
    have hact : activation t.nest = activation s.nest := by rw [hst.nest_eq, activation_loop]
    obtain ⟨hc₁, hc₂⟩ := (forall_passed_trans hst.trace htu.trace).mp hc
    refine (noReturn_trans hst.trace htu.trace).mpr ⟨h hc₁, ?_⟩
    rcases h' (hact ▸ hc₂) with hno | ⟨-, E, p, hE, -, hp, hnest⟩
    · exact hact ▸ hno
    -- A `RETURN` of the loop's body would be in the loop.
    · have hbody := hc₂ p (by rw [hE]; exact List.mem_concat_self) (hnest ▸ hact) (hp ▸ rfl)
      rw [hnest, hst.nest_eq] at hbody
      cases hbody
  loop_stop _ _ _ _ h := h
  loop_body_stop s loop t u hst htu h h' hc := by
    have hact : activation t.nest = activation s.nest := by rw [hst.nest_eq, activation_loop]
    obtain ⟨hc₁, hc₂⟩ := (forall_passed_trans hst.trace htu.trace).mp hc
    exact (noReturn_trans hst.trace htu.trace).mpr ⟨h hc₁, hact ▸ h' (hact ▸ hc₂)⟩
  loop_exit _ _ _ _ h hc := .inl (h hc)

/-- After each `RETURN` of the activation no statement of it begins, and the result has `P`. -/
def EndsAtReturn (act : List Block) (L : List Point) (P : AnyVal → Prop) : Prop :=
  ∀ E p E' a, L = E ++ p :: E' → p.event = .ret a → activation p.nest = act →
    NoStatement act E' ∧ P a

theorem endsAtReturn_of_noReturn {act : List Block} {L : List Point} {P : AnyVal → Prop}
    (h : NoReturn act L) : EndsAtReturn act L P := by
  rintro E p E' a rfl hp hown
  have hret := h p List.mem_append_cons_self hown
  rw [hp] at hret
  cases hret

theorem endsAtReturn_of_unique {act : List Block} {l₁ l₂ : List Point} {p₀ : Point} {a₀ : AnyVal}
    {P : AnyVal → Prop} (h₁ : NoReturn act l₁) (h₂ : NoReturn act l₂) (hp₀ : p₀.event = .ret a₀)
    (hs : NoStatement act l₂) (hP : P a₀) : EndsAtReturn act (l₁ ++ p₀ :: l₂) P := by
  intro E p E' a hE hp hown
  have hret : p.event.isRet = true := hp ▸ rfl
  -- The point `p` is a `RETURN` of the activation, and `p₀` is the only one.
  have hnot : ∀ l, NoReturn act l → p ∉ l := by
    intro l hl hmem
    have hno := hl p hmem hown
    simp [hret] at hno
  obtain ⟨-, rfl, rfl⟩ := (List.append_cons_inj_of_notMem (hnot l₁ h₁) (hnot l₂ h₂)).mp hE
  rw [hp₀] at hp
  cases hp
  exact ⟨hs, hP⟩

/-- The body of a call ends at its first `RETURN`, and what follows begins no statement. -/
theorem endsAtReturn_body {s t u : Machine} {owner function : Str} {sc : Scope}
    {args : List Value} {a : AnyVal} {P : AnyVal → Prop}
    (h : Relations.unwind.stmt (s.enterCall owner function sc args) a t)
    (hpass : s.PassesCall owner function sc args t u) (hP : P a)
    (hc : ReturnsDirectly (.call owner function :: s.nest) (s.passed u)) :
    EndsAtReturn (.call owner function :: s.nest) (s.passed u) P := by
  have hbody := h (hpass.body hc)
  obtain ⟨E, hu, hE⟩ := hpass
  have henter : NoReturn (.call owner function :: s.nest)
      (s.passed (s.enterCall owner function sc args)) := by
    intro p hp _
    rw [Machine.passed_enterCall, List.mem_singleton] at hp
    exact hp ▸ rfl
  have hend : NoReturn (.call owner function :: s.nest) E := fun p hp _ =>
    Event.isRet_of_isEnd (hE p hp)
  rw [hu]
  -- The statements executed no `RETURN`, or one as their last point.
  rcases hbody with hno | ⟨-, E₀, p₀, hE₀, hno, hp₀, -⟩
  · apply endsAtReturn_of_noReturn
    exact List.forall_mem_append.mpr ⟨List.forall_mem_append.mpr ⟨henter, hno⟩, hend⟩
  · rw [hE₀, ← List.append_assoc, List.append_assoc, List.singleton_append]
    refine endsAtReturn_of_unique (List.forall_mem_append.mpr ⟨henter, hno⟩) hend hp₀ ?_ hP
    intro p hp _ hstatement
    have hcontra := hE p hp
    rw [hstatement] at hcontra
    cases hcontra

/-- **A `RETURN` ends its activation with its value**: in every run of a call in which each
`RETURN` of the activation is executed outside of the `FOR` loops of the body, no statement of
the activation begins after a `RETURN` of it, and the value of a completed call is that of the
result of the `RETURN`. -/
theorem return_unwinds (n : ℕ) (s : Machine) (self function : Str) (args : List Value)
    (h : ReturnsDirectly (.call self function :: s.nest)
      (s.passed (Module.call (visitor n) self function args s).final)) :
    EndsAtReturn (.call self function :: s.nest)
      (s.passed (Module.call (visitor n) self function args s).final) fun a =>
        ∀ result t, Module.call (visitor n) self function args s = .ok result t →
          ∃ tag, result = Value.ofAny tag a := by
  have hv := visitor_keeps (rules_balance.inf rules_unwind) n
  have hrun : wp (Module.call (visitor n) self function args)
      (fun result t => ReturnsDirectly (.call self function :: s.nest) (s.passed t) →
        EndsAtReturn (.call self function :: s.nest) (s.passed t) fun a =>
          ∃ tag, result = Value.ofAny tag a)
      (fun _ t => ReturnsDirectly (.call self function :: s.nest) (s.passed t) →
        EndsAtReturn (.call self function :: s.nest) (s.passed t) fun _ => True) s := by
    refine wp_call (fun _ => endsAtReturn_of_noReturn noReturn_self) (fun fn defFn _ _ _ => ?_)
      fun fn cppFn _ _ => ⟨fun result _ => ⟨fun _ => ?_, fun _ _ _ => ?_⟩, fun _ _ _ => ?_⟩
    -- A procedure: the call completes, or its value cannot be printed, or its body stops.
    · refine wp_mono (hv.statements _ _) (fun a t ht => ⟨?_, fun _ _ => ?_⟩) fun _ t ht hc => ?_
      · exact endsAtReturn_body ht.2 (Machine.passesCall_exitCall ht.1.trace a _) ⟨_, rfl⟩
      · exact endsAtReturn_body ht.2 (Machine.passesCall_leaveBody ht.1.trace a) trivial
      · have hpass := Machine.passesCall_body ht.1.trace
        apply endsAtReturn_of_noReturn
        exact hpass.forall (fun _ => rfl) (ht.2 (hpass.body hc)) fun p hp _ =>
          Event.isRet_of_isEnd hp
    -- A native function executes no statement at all.
    · exact endsAtReturn_of_noReturn (noReturn_native result)
    all_goals
      apply endsAtReturn_of_noReturn
      intro p hp _
      rw [Machine.passed_enterNative, List.mem_singleton] at hp
      exact hp ▸ rfl
  cases hr : Module.call (visitor n) self function args s with
  | ok result t =>
    rw [hr] at h
    intro E p E' a hE hp hown
    obtain ⟨hs, hvalue⟩ := wp_ok hrun hr h E p E' a hE hp hown
    refine ⟨hs, fun result' t' heq => ?_⟩
    cases heq
    exact hvalue
  | error e t =>
    rw [hr] at h
    intro E p E' a hE hp hown
    exact ⟨(wp_error hrun hr h E p E' a hE hp hown).1, fun _ _ heq => by cases heq⟩

/-- A `RETURN` after a `FOR`, in one branch of an `IF`. -/
def returnAfterLoop : List Item :=
  [.procedureDefinition ⟨['f'], [['x']],
    [.forStatement ['i'] (.int ['1']) (.int ['2']) none [.assignExpr ['x'] (.ident ['i'])],
      .ifThen (.boolean true) [.returnStatement (.ident ['x']), .emptyStatement],
      .returnStatement (.int ['3'])]⟩]

theorem return_unwinds_returnAfterLoop :
    let s := Machine.start (Context.init.withProgram returnAfterLoop) fun _ => .invalid
    EndsAtReturn [.call [] ['f']]
      (s.passed (Module.call (visitor 9) [] ['f'] [Value.ofInt 1] s).final) fun a =>
        ∀ result t, Module.call (visitor 9) [] ['f'] [Value.ofInt 1] s = .ok result t →
          ∃ tag, result = Value.ofAny tag a := by
  intro s
  exact return_unwinds 9 s [] ['f'] [Value.ofInt 1] (by decide +kernel)

/-- Whether a `RETURN` of the activation is executed at the point. -/
def Point.isReturnOf (act : List Block) (p : Point) : Bool :=
  activation p.nest = act && p.event.isRet

/-- What follows the first `RETURN` of an activation. -/
def afterReturn (act : List Block) (L : List Point) : List Point :=
  (L.dropWhile fun p => !p.isReturnOf act).tail

instance (act : List Block) (E : List Point) : Decidable (NoStatement act E) :=
  inferInstanceAs (Decidable (∀ p ∈ E, activation p.nest = act → p.event ≠ .statement))

theorem EndsAtReturn.noStatement {act : List Block} {L : List Point} {P : AnyVal → Prop}
    (h : EndsAtReturn act L P) : NoStatement act (afterReturn act L) := by
  unfold afterReturn
  cases hdrop : L.dropWhile fun p => !p.isReturnOf act with
  | nil => exact fun p hp => by cases hp
  | cons p rest =>
    have hhead := List.head?_dropWhile_not (fun p => !p.isReturnOf act) L
    rw [hdrop] at hhead
    simp only [List.head?_cons, Bool.not_eq_false', Point.isReturnOf, Bool.and_eq_true,
      decide_eq_true_eq] at hhead
    -- The first point that is not dropped is a `RETURN` of the activation.
    obtain ⟨hown, hret⟩ := hhead
    have hL := List.takeWhile_append_dropWhile (p := fun p => !p.isReturnOf act) (l := L)
    rw [hdrop] at hL
    cases hp : p.event with
    | ret a => exact (h _ p rest a hL.symm hp hown).1
    | _ =>
      rw [hp] at hret
      cases hret

/-- A `RETURN` in a `FOR`. -/
def returnInLoop : List Item :=
  [.procedureDefinition ⟨['f'], [['x']],
    [.forStatement ['i'] (.int ['1']) (.int ['2']) none [.returnStatement (.ident ['i'])]]⟩]

/-- The `FOR` goes on after the `RETURN`. -/
theorem return_not_unwinds :
    let s := Machine.start (Context.init.withProgram returnInLoop) fun _ => .invalid
    ¬ EndsAtReturn [.call [] ['f']]
      (s.passed (Module.call (visitor 9) [] ['f'] [Value.ofInt 1] s).final) fun a =>
        ∀ result t, Module.call (visitor 9) [] ['f'] [Value.ofInt 1] s = .ok result t →
          ∃ tag, result = Value.ofAny tag a := by
  intro s h
  exact absurd h.noStatement (by decide +kernel)

end WwivBasic
