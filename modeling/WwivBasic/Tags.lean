import WwivBasic.Returns

/-!
# The tags of values

The constructor of `Value` from an empty `std::any` writes no `type`. Four things yield an empty
`any` where a value is made of it: a name that is not bound, a parenthesised expression, a
procedure whose statements end without a `RETURN`, and a `RETURN` that a `FOR` swallows. In
every run without them all values are well tagged.

## Main definitions

* `Point.YieldsValue`: none of the four happens at the point
* `Point.WellTagged`: the values at the point are well tagged
* `Sound`, `SoundStmt`: computations that keep values well tagged while `Point.YieldsValue` holds

## Main results

* `visitor_sound`: the visits of the visitor are sound
* `values_wellTagged`: the values of a run are well tagged, and it reaches no wrong `std::get`
-/

namespace WwivBasic

open EStateM

/-! ## Well-tagged states -/

/-- The variables of the scope hold well-tagged values. -/
def Scope.WellTagged (sc : Scope) : Prop := ∀ x v, sc.value? x = some v → v.WellTagged

/-- A function that returns well-tagged values for well-tagged arguments. -/
def ReturnsWellTagged (fn : List Value → Except Fault Value) : Prop :=
  ∀ args result, (∀ v ∈ args, v.WellTagged) → fn args = .ok result → result.WellTagged

/-- The variables of the module hold well-tagged values, and its native functions return
well-tagged values. -/
structure Module.WellTagged (m : Module) : Prop where
  scopes : ∀ sc ∈ m.scopes, sc.WellTagged
  native : ∀ name fn cppFn, m.functions.find? name = some fn → fn.body = .native cppFn →
    ReturnsWellTagged cppFn

/-- All modules are well tagged. -/
def Context.WellTagged (ec : Context) : Prop := ∀ key, (ec.moduleAt key).WellTagged

/-- The values of an event are well tagged. -/
def Event.WellTagged : Event → Prop
  | .enter _ args | .native _ args => ∀ v ∈ args, v.WellTagged
  | .leave v | .made v | .assign _ v => v.WellTagged
  | .read _ result => ∀ v ∈ result, v.WellTagged
  | _ => True

/-- The values at a point, in the event and in the variables, are well tagged. -/
def Point.WellTagged (p : Point) : Prop := p.event.WellTagged ∧ p.ec.WellTagged

/-- No empty `any` is made a `Value` because of what happens at the point. -/
def Point.YieldsValue (p : Point) : Prop :=
  match p.event with
  | .ident name => (p.ec.findVar name).isSome = true
  | .parens => False
  | .ret _ => inBody p.nest = true
  | .bodyEnd => p.return_ = true
  | _ => True

instance : DecidablePred Event.WellTagged := fun e => by
  unfold Event.WellTagged
  cases e <;> infer_instance

instance : DecidablePred Point.YieldsValue := fun ⟨e, ec, r, nest⟩ => by
  unfold Point.YieldsValue
  cases e <;> infer_instance

section Scopes

variable {sc : Scope} {name : Str} {value : Value}

theorem Scope.wellTagged_empty (fnName : Str) : (⟨fnName, ∅⟩ : Scope).WellTagged := by
  intro x v h
  cases h

theorem Scope.WellTagged.assign (h : sc.WellTagged) (hv : value.WellTagged) :
    (sc.assign name value).WellTagged := by
  intro x v hx
  rw [Scope.value?_assign] at hx
  split_ifs at hx
  · cases hx
    exact hv
  · exact h x v hx

theorem Scope.WellTagged.insertOrAssign (h : sc.WellTagged) (hv : value.WellTagged) :
    (sc.insertOrAssign name value).WellTagged := by
  intro x v hx
  rw [Scope.value?_insertOrAssign] at hx
  split_ifs at hx
  · cases hx
    exact hv
  · exact h x v hx

theorem Scope.WellTagged.emplace (h : sc.WellTagged) (hv : value.WellTagged) :
    (sc.emplace name value).WellTagged := by
  intro x v hx
  -- A name that is bound keeps its value.
  cases hb : sc.binds name with
  | false =>
    rw [Scope.value?_emplace _ _ _ _ hb] at hx
    split_ifs at hx
    · cases hx
      exact hv
    · exact h x v hx
  | true =>
    rw [Scope.value?_emplace_of_binds _ _ _ _ hb] at hx
    exact h x v hx

theorem Scope.WellTagged.bindParams (h : sc.WellTagged) {names : List Str} {args : List Value}
    (hargs : ∀ v ∈ args, v.WellTagged) : (bindParams sc names args).WellTagged := by
  induction names generalizing sc args with
  | nil => exact h
  | cons n names ih =>
    rcases args with _ | ⟨v, args⟩
    · exact h
    · obtain ⟨hv, hargs⟩ := List.forall_mem_cons.mp hargs
      exact ih (h.insertOrAssign hv) hargs

theorem forall_mem_modify {P : Scope → Prop} {scopes : List Scope} {i : ℕ} {f : Scope → Scope}
    (h : ∀ sc ∈ scopes, P sc) (hf : ∀ sc, P sc → P (f sc)) : ∀ sc ∈ scopes.modify i f, P sc := by
  intro sc hsc
  obtain ⟨j, hj⟩ := List.mem_iff_getElem?.mp hsc
  rw [List.getElem?_modify] at hj
  cases hget : scopes[j]? with
  | none => simp only [hget, Option.map_eq_map, Option.map_none, reduceCtorEq] at hj
  | some sc' =>
    have hsc' := h sc' (List.mem_of_getElem? hget)
    simp only [hget, Option.map_eq_map, Option.map_some, Option.some.injEq] at hj
    rw [← hj]
    -- Only the scope at position `i` is updated.
    split_ifs
    · exact hf sc' hsc'
    · exact hsc'

theorem wellTagged_upsertScopes {scopes : List Scope} (h : ∀ sc ∈ scopes, sc.WellTagged)
    (hv : value.WellTagged) : ∀ sc ∈ upsertScopes name value scopes, sc.WellTagged := by
  unfold upsertScopes
  split
  · exact forall_mem_modify h fun sc hsc => hsc.assign hv
  · exact forall_mem_modify h fun sc hsc => hsc.emplace hv

end Scopes

theorem Context.WellTagged.mapModule {ec : Context} (h : ec.WellTagged) (owner : Str)
    {f : Module → Module} (hf : ∀ m : Module, m.WellTagged → (f m).WellTagged) :
    (ec.mapModule owner f).WellTagged := by
  intro key
  rw [moduleAt_mapModule]
  split_ifs
  · exact hf _ (h key)
  · exact h key

/-- An update of one deque. -/
theorem Context.WellTagged.mapScopes {ec : Context} (h : ec.WellTagged) (owner : Str)
    {f : List Scope → List Scope}
    (hf : ∀ scopes : List Scope, (∀ sc ∈ scopes, sc.WellTagged) → ∀ sc ∈ f scopes, sc.WellTagged) :
    (ec.mapScopes owner f).WellTagged :=
  h.mapModule owner fun m hm => ⟨hf m.scopes hm.scopes, hm.native⟩

theorem Context.WellTagged.upserted {ec : Context} (h : ec.WellTagged) {name : Str} {value : Value}
    (hv : value.WellTagged) : (ec.upserted name value).WellTagged := by
  unfold Context.upserted
  split
  · exact h.mapScopes _ fun scopes hscopes => wellTagged_upsertScopes hscopes hv
  · exact h

theorem Context.WellTagged.findVar {ec : Context} (h : ec.WellTagged) {name : Str} {var : Var}
    (hvar : ec.findVar name = some var) : var.value_.WellTagged := by
  obtain ⟨r, -, hr⟩ := Option.bind_eq_some_iff.mp hvar
  obtain ⟨i, -, hi⟩ := Option.bind_eq_some_iff.mp hr
  obtain ⟨sc, hsc, hfind⟩ := Option.bind_eq_some_iff.mp hi
  exact (h r.1).scopes sc (List.mem_of_getElem? hsc) r.2 _ (by rw [Scope.value?, hfind]; rfl)

/-! ## Sound computations -/

/-- Every point so far yields values. -/
def Machine.Good (s : Machine) : Prop := ∀ p ∈ s.trace, p.YieldsValue

/-- The values of the state, and of the points so far, are well tagged. -/
structure Machine.WellTagged (s : Machine) : Prop where
  ec : s.ec.WellTagged
  trace : ∀ p ∈ s.trace, p.WellTagged

/-- From a well-tagged state with a clear flag, in a nest with `N` and where `R` holds, a
completed run leads to such a state and has a result with `P`, and a stopped run did not reach a
wrong `std::get`. All of this is asked only while every point yields values. -/
def Sound {α : Type} (N : List Block → Prop) (R : Prop) (m : Eval α) (P : α → Prop) : Prop :=
  ∀ s : Machine, N s.nest → (s.Good → R ∧ s.WellTagged ∧ s.return_ = false) →
    wp m
      (fun a t => s.trace <+: t.trace ∧ t.nest = s.nest ∧
        (t.Good → P a ∧ t.WellTagged ∧ t.return_ = false))
      (fun e t => t.Good → e ≠ .badVariantAccess ∧ t.WellTagged) s

/-- A statement may set the flag, in a body only, and then has a result that is not empty. -/
def SoundStmt (N : List Block → Prop) (R : Prop) (m : Eval AnyVal) : Prop :=
  ∀ s : Machine, N s.nest → (s.Good → R ∧ s.WellTagged ∧ s.return_ = false) →
    wp m
      (fun a t => s.trace <+: t.trace ∧ t.nest = s.nest ∧
        (t.Good → t.WellTagged ∧ (t.return_ = true → a ≠ .empty ∧ inBody s.nest = true)))
      (fun e t => t.Good → e ≠ .badVariantAccess ∧ t.WellTagged) s

namespace Machine

variable {s t : Machine}

theorem Good.of_prefix (h : t.Good) (hst : s.trace <+: t.trace) : s.Good :=
  fun p hp => h p (hst.subset hp)

theorem good_note {e : Event} : (s.note e).Good ↔ s.Good ∧ (s.point e).YieldsValue := by
  rw [Good, note, List.forall_mem_append, List.forall_mem_singleton]
  rfl

theorem WellTagged.note (h : s.WellTagged) {e : Event} (he : e.WellTagged) :
    (s.note e).WellTagged :=
  ⟨h.ec, List.forall_mem_append.mpr ⟨h.trace, List.forall_mem_singleton.mpr ⟨he, h.ec⟩⟩⟩

theorem WellTagged.mapScopes (h : s.WellTagged) (owner : Str) {f : List Scope → List Scope}
    (hf : ∀ scopes : List Scope, (∀ sc ∈ scopes, sc.WellTagged) → ∀ sc ∈ f scopes, sc.WellTagged) :
    (s.mapContext (Context.mapScopes · owner f)).WellTagged :=
  ⟨h.ec.mapScopes owner hf, h.trace⟩

theorem WellTagged.pushScope (h : s.WellTagged) (owner : Str) {sc : Scope} (hsc : sc.WellTagged) :
    (s.pushScope owner sc).WellTagged :=
  h.mapScopes owner fun _ hscopes =>
    List.forall_mem_append.mpr ⟨hscopes, List.forall_mem_singleton.mpr hsc⟩

theorem WellTagged.popScope (h : s.WellTagged) (owner : Str) : (s.popScope owner).WellTagged :=
  h.mapScopes owner fun _ hscopes sc hsc => hscopes sc (List.dropLast_subset _ hsc)

/-- The body of a procedure begins with its parameters bound to the arguments. -/
theorem WellTagged.enterCall (h : s.WellTagged) (owner function : Str) (names : List Str)
    {args : List Value} (hargs : ∀ v ∈ args, v.WellTagged) :
    (s.enterCall owner function (bindParams ⟨function, ∅⟩ names args) args).WellTagged := by
  have hsc : (bindParams ⟨function, ∅⟩ names args).WellTagged :=
    (Scope.wellTagged_empty function).bindParams hargs
  have hpush := h.pushScope owner hsc
  have hopen : ((s.pushScope owner (bindParams ⟨function, ∅⟩ names args)).openBlock
      (.call owner function)).WellTagged := ⟨hpush.ec, hpush.trace⟩
  exact hopen.note (e := .enter function args) hargs

theorem WellTagged.enterNative (h : s.WellTagged) (owner function : Str) {args : List Value}
    (hargs : ∀ v ∈ args, v.WellTagged) (converted : List Str) :
    (s.enterNative owner function ⟨function, ∅⟩ args converted).WellTagged :=
  have hnote := (h.pushScope owner (Scope.wellTagged_empty function)).note
    (e := .native function args) hargs
  ⟨hnote.ec, hnote.trace⟩

/-- The value of a call is made from the result of its body. -/
theorem WellTagged.leaveBody (h : s.WellTagged) {a : AnyVal} (ha : a ≠ .empty) :
    (s.callValue a).WellTagged ∧ (s.leaveBody a).WellTagged := by
  have hval : (s.callValue a).WellTagged := Value.wellTagged_ofAny ha (s.tags 0)
  have hend := h.note (e := .bodyEnd) trivial
  have hclose : (s.note .bodyEnd).closeBlock.dropTag.WellTagged := ⟨hend.ec, hend.trace⟩
  exact ⟨hval, hclose.note (e := .made (s.callValue a)) hval⟩

theorem WellTagged.exitCall (h : s.WellTagged) (owner : Str) {result : Value}
    (hresult : result.WellTagged) : (s.exitCall owner result).WellTagged :=
  (h.popScope owner).note (e := .leave result) hresult

theorem WellTagged.enterLoop (h : s.WellTagged) (loop : ForLoop) {start : Value}
    (hstart : start.WellTagged) : (s.enterLoop loop start).WellTagged := by
  have hnote := h.note (e := .loopVar loop.varname) trivial
  have hsc : (Scope.insertOrAssign ⟨forText ++ loop.varname, ∅⟩ loop.varname start).WellTagged :=
    (Scope.wellTagged_empty (forText ++ loop.varname)).insertOrAssign hstart
  have hpush := hnote.pushScope loop.owner hsc
  exact ⟨hpush.ec, hpush.trace⟩

end Machine

section Logic

variable {N : List Block → Prop} {R R' : Prop} {α β : Type} {P P' : α → Prop} {Q : β → Prop}

theorem Sound.weaken {m : Eval α} (h : Sound N R' m P) (hR : R → R') : Sound N R m P :=
  fun s hN hs => h s hN fun hg => ⟨hR (hs hg).1, (hs hg).2⟩

theorem Sound.pure {a : α} (h : R → P a) : Sound N R (Pure.pure a) P :=
  fun _ _ hs => ⟨List.prefix_rfl, rfl, fun hg => ⟨h (hs hg).1, (hs hg).2⟩⟩

theorem Sound.lift {x : Except Fault α} (h : R → Safe P x) : Sound N R (WwivBasic.lift x) P := by
  intro s _ hs
  cases x with
  | ok a => exact ⟨List.prefix_rfl, rfl, fun hg => ⟨h (hs hg).1, (hs hg).2⟩⟩
  | error e => exact fun hg => ⟨h (hs hg).1, (hs hg).2.1⟩

/-- What holds before a step still holds after it. -/
theorem Sound.after {m : Eval α} (hm : Sound N R m P) {s : Machine} (hN : N s.nest)
    (hs : s.Good → R ∧ s.WellTagged ∧ s.return_ = false) :
    wp m
      (fun a t => (s.trace <+: t.trace ∧ t.nest = s.nest) ∧
        (t.Good → (R ∧ P a) ∧ t.WellTagged ∧ t.return_ = false))
      (fun e t => t.Good → e ≠ .badVariantAccess ∧ t.WellTagged) s := by
  refine wp_mono (hm s hN hs) ?_ fun _ _ ht => ht
  -- The points before the step are among those after it, so that they yielded values as well.
  rintro a t ⟨htrace, hnest, ht⟩
  exact ⟨⟨htrace, hnest⟩, fun hg => ⟨⟨(hs (hg.of_prefix htrace)).1, (ht hg).1⟩, (ht hg).2⟩⟩

theorem Sound.bind {m : Eval α} {f : α → Eval β} (hm : Sound N R m P)
    (hf : ∀ a, Sound N (R ∧ P a) (f a) Q) : Sound N R (m >>= f) Q := by
  intro s hN hs
  rw [wp_bind]
  refine wp_mono (hm.after hN hs) ?_ fun _ _ ht => ht
  rintro a t ⟨⟨htrace, hnest⟩, ht⟩
  refine wp_mono (hf a t (hnest ▸ hN) ht) ?_ fun _ _ hu => hu
  rintro b u ⟨htrace', hnest', hu⟩
  exact ⟨htrace.trans htrace', hnest'.trans hnest, hu⟩

theorem Sound.bind_stmt {m : Eval α} {f : α → Eval AnyVal} (hm : Sound N R m P)
    (hf : ∀ a, SoundStmt N (R ∧ P a) (f a)) : SoundStmt N R (m >>= f) := by
  intro s hN hs
  rw [wp_bind]
  refine wp_mono (hm.after hN hs) ?_ fun _ _ ht => ht
  rintro a t ⟨⟨htrace, hnest⟩, ht⟩
  refine wp_mono (hf a t (hnest ▸ hN) ht) ?_ fun _ _ hu => hu
  rintro b u ⟨htrace', hnest', hu⟩
  exact ⟨htrace.trans htrace', hnest'.trans hnest, hnest ▸ hu⟩

/-- A statement that leaves the flag alone. -/
theorem Sound.toStmt {m : Eval AnyVal} {P : AnyVal → Prop} (h : Sound N R m P) :
    SoundStmt N R m := by
  intro s hN hs
  refine wp_mono (h s hN hs) ?_ fun _ _ ht => ht
  rintro a t ⟨htrace, hnest, ht⟩
  refine ⟨htrace, hnest, fun hg => ⟨(ht hg).2.1, fun hr => ?_⟩⟩
  simp [(ht hg).2.2] at hr

theorem Sound.note {e : Event} {Q : Prop}
    (h : ∀ s : Machine, R → (s.point e).YieldsValue → e.WellTagged ∧ Q) :
    Sound N R (WwivBasic.note e) fun _ => Q := by
  intro s _ hs
  refine ⟨List.prefix_append _ _, rfl, fun hg => ?_⟩
  obtain ⟨hg, hp⟩ := Machine.good_note.mp hg
  obtain ⟨hR, hwt, hr⟩ := hs hg
  obtain ⟨he, hQ⟩ := h s hR hp
  exact ⟨hQ, hwt.note he, hr⟩

/-- A step that changes neither the trace nor the nest. -/
theorem Sound.modify {f : Machine → Machine} (htrace : ∀ s, (f s).trace = s.trace)
    (hnest : ∀ s, (f s).nest = s.nest) (hflag : ∀ s, (f s).return_ = s.return_)
    (h : R → ∀ s : Machine, s.WellTagged → (f s).ec.WellTagged) :
    Sound N R (modify f) fun _ => True := by
  intro s _ hs
  refine ⟨(htrace s).symm ▸ List.prefix_rfl, hnest s, fun hg => ?_⟩
  obtain ⟨hR, hwt, hr⟩ := hs (by rwa [Machine.Good, htrace] at hg)
  exact ⟨trivial, ⟨h hR s hwt, (htrace s).symm ▸ hwt.trace⟩, (hflag s).trans hr⟩

theorem Sound.print {v : Value} (h : R → v.WellTagged) :
    Sound N R (WwivBasic.print v) fun _ => True :=
  (Sound.lift fun hR => (h hR).toString).bind fun _ => Sound.pure fun _ => trivial

theorem sound_makeValue {a : AnyVal} (h : R → a ≠ .empty) :
    Sound N R (makeValue a) Value.WellTagged := by
  intro s _ hs
  simp only [makeValue, note, wp_bind, wp_get, wp_modify, wp_pure]
  refine ⟨List.prefix_append _ _, rfl, fun hg => ?_⟩
  obtain ⟨hR, hwt, hr⟩ := hs (Machine.good_note.mp hg).1
  -- An `any` with a value tells the constructor which tag to write.
  have hv := Value.wellTagged_ofAny (h hR) (s.tags 0)
  exact ⟨hv, Machine.WellTagged.note (s := s.dropTag) ⟨hwt.ec, hwt.trace⟩ hv, hr⟩

theorem sound_toNumberInt (read : Str → Int32 → NumberRead) (text : Str) :
    Sound N R (toNumberInt read text) fun _ => True := by
  intro s _ hs
  simp only [toNumberInt, wp_bind, wp_get, wp_modify, wp_pure]
  exact ⟨List.prefix_rfl, rfl,
    fun hg => ⟨trivial, ⟨(hs hg).2.1.ec, (hs hg).2.1.trace⟩, (hs hg).2.2⟩⟩

theorem sound_readStrings (texts : List Str) : Sound N R (readStrings texts) fun _ => True :=
  Sound.modify (fun _ => rfl) (fun _ => rfl) (fun _ => rfl) fun _ _ hwt => hwt.ec

theorem sound_toIntOf {v : Value} (h : R → v.WellTagged) : Sound N R (toIntOf v) fun _ => True :=
  (sound_readStrings v.converted).bind fun _ => Sound.lift fun hR => (h hR.1).toInt

theorem sound_readVar (name : Str) :
    Sound N R (readVar name) fun result => ∀ var ∈ result, var.value_.WellTagged := by
  intro s _ hs
  simp only [readVar, note, wp_bind, wp_modify, wp_pure]
  refine wp_var ⟨List.prefix_append _ _, rfl, fun hg => ?_⟩ fun var e hvar he hg => ?_
  · obtain ⟨-, hwt, hr⟩ := hs (Machine.good_note.mp hg).1
    refine ⟨fun var hvar => hwt.ec.findVar hvar, hwt.note ?_, hr⟩
    rintro v hv
    obtain ⟨var, hvar, rfl⟩ := Option.map_eq_some_iff.mp hv
    exact hwt.ec.findVar hvar
  -- The value is printed, and the text of a well-tagged value can be computed.
  · have hwt := (hs hg).2.1
    have hsafe := (hwt.ec.findVar hvar).toString
    rw [he] at hsafe
    exact ⟨hsafe, hwt⟩

theorem sound_upsert {name : Str} {value : Value} (h : R → value.WellTagged) :
    Sound N R (Context.upsert name value) fun _ => True := by
  intro s _ hs
  refine wp_upsert ⟨List.prefix_rfl, rfl, fun hg => ?_⟩ fun hg => ⟨nofun, (hs hg).2.1⟩
  obtain ⟨hR, hwt, hr⟩ := hs hg
  exact ⟨trivial, ⟨hwt.ec.upserted (h hR), hwt.trace⟩, hr⟩

end Logic

/-! ## The visitor is sound -/

/-- The run is in a `FOR`. -/
def InFor (nest : List Block) : Prop := ∃ var rest, nest = .loop var :: rest

/-- The visits a visitor makes are sound. -/
structure Visitor.Sound (v : Visitor) : Prop where
  expr : ∀ N R e, WwivBasic.Sound N R (v.expr e) (· ≠ .empty)
  statements : ∀ N R b, SoundStmt N R (v.statements b)
  iterate : ∀ loop i, WwivBasic.Sound InFor loop.stop.WellTagged (v.iterate loop i) fun _ => True

section Visits

variable {v : Visitor} {N : List Block → Prop} {R : Prop}

/-! ### Calls -/

/-- The values of a call, whose body ends by a `RETURN`, are well tagged. -/
theorem wp_moduleCall_sound (hv : v.Sound) (self function : Str) {args : List Value} {s : Machine}
    (hs : s.Good → (∀ x ∈ args, x.WellTagged) ∧ s.WellTagged ∧ s.return_ = false) :
    wp (Module.call v self function args)
      (fun val t => s.trace <+: t.trace ∧ t.nest = s.nest ∧
        (t.Good → val.WellTagged ∧ t.WellTagged))
      (fun e t => t.Good → e ≠ .badVariantAccess ∧ t.WellTagged) s := by
  refine wp_call ⟨List.prefix_rfl, rfl, fun hg => ⟨trivial, (hs hg).2.1⟩⟩
    (fun fn defFn _ _ _ => ?_) fun fn cppFn hfn hcpp => ⟨fun result hresult => ⟨?_, ?_⟩, ?_⟩
  -- A procedure.
  · have hreach := s.reaches_enterCall self function (bindParams ⟨function, ∅⟩ fn.params args) args
    have henter : (s.enterCall self function (bindParams ⟨function, ∅⟩ fn.params args) args).Good →
        True ∧ (s.enterCall self function (bindParams ⟨function, ∅⟩ fn.params args) args).WellTagged ∧
          s.return_ = false := by
      intro hg
      obtain ⟨hargs, hwt, hr⟩ := hs (hg.of_prefix hreach.trace)
      exact ⟨trivial, hwt.enterCall self function fn.params hargs, hr⟩
    refine wp_mono (hv.statements (fun _ => True) True defFn.statements _ trivial henter) ?_
      fun _ _ ht => ht
    rintro a t ⟨htrace, hnest, ht⟩
    -- The body has ended with the flag set, by a `RETURN` whose result is not empty.
    have hvalue : (t.leaveBody a).Good → (t.callValue a).WellTagged ∧ (t.leaveBody a).WellTagged := by
      intro hg
      have hbody : (t.note .bodyEnd).Good := hg.of_prefix (List.prefix_append _ _)
      obtain ⟨hgt, hr⟩ := Machine.good_note.mp hbody
      obtain ⟨hwt, hne⟩ := ht hgt
      exact hwt.leaveBody (hne hr).1
    refine ⟨⟨?_, ?_, fun hg => ?_⟩, fun e he hg => ?_⟩
    · exact (hreach.trace.trans htrace).trans ((List.prefix_append _ _).trans
        ((List.prefix_append _ _).trans (List.prefix_append _ _)))
    · show t.nest.tail = s.nest
      rw [hnest]
      rfl
    · obtain ⟨hval, hwt⟩ := hvalue (Machine.good_note.mp hg).1
      exact ⟨hval, hwt.exitCall self hval⟩
    -- The text of a well-tagged value can be printed.
    · obtain ⟨hval, hwt⟩ := hvalue hg
      have hsafe := hval.toString
      rw [he] at hsafe
      exact ⟨hsafe, hwt⟩
  -- A native function, which returns well-tagged values for well-tagged arguments.
  all_goals
    have hnative : (s.enterNative self function ⟨function, ∅⟩ args (cppFn.converted args)).Good →
        (∀ x ∈ args, x.WellTagged) ∧ s.WellTagged ∧ (s.enterNative self function ⟨function, ∅⟩ args
          (cppFn.converted args)).WellTagged := by
      intro hg
      obtain ⟨hargs, hwt, -⟩ := hs (hg.of_prefix (s.reaches_enterNative ..).trace)
      exact ⟨hargs, hwt, hwt.enterNative self function hargs _⟩
  · have hreach := s.reaches_enterNative self function ⟨function, ∅⟩ args (cppFn.converted args)
    refine ⟨hreach.trace.trans (List.prefix_append _ _), rfl, fun hg => ?_⟩
    obtain ⟨hargs, hwt, hwt'⟩ := hnative (Machine.good_note.mp hg).1
    have hval := (hwt.ec self).native function fn cppFn hfn hcpp args result hargs hresult
    exact ⟨hval, hwt'.exitCall self hval⟩
  · intro e he hg
    obtain ⟨hargs, hwt, hwt'⟩ := hnative hg
    have hsafe := ((hwt.ec self).native function fn cppFn hfn hcpp args result hargs hresult).toString
    rw [he] at hsafe
    exact ⟨hsafe, hwt'⟩
  · exact fun e _ hg => ⟨nofun, (hnative hg).2.2⟩

theorem wp_contextCall_sound (hv : v.Sound) (function : Str) {args : List Value} {s : Machine}
    (hs : s.Good → (∀ x ∈ args, x.WellTagged) ∧ s.WellTagged ∧ s.return_ = false) :
    wp (Context.call v function args)
      (fun val t => s.trace <+: t.trace ∧ t.nest = s.nest ∧
        (t.Good → val.WellTagged ∧ t.WellTagged))
      (fun e t => t.Good → e ≠ .badVariantAccess ∧ t.WellTagged) s := by
  simp only [Context.call, wp_bind, wp_get]
  split_ifs
  · exact wp_moduleCall_sound hv _ _ hs
  · exact ⟨List.prefix_rfl, rfl, fun hg => ⟨trivial, (hs hg).2.1⟩⟩
  · exact wp_moduleCall_sound hv _ _ hs
  · exact wp_moduleCall_sound hv _ _ hs

/-! ### Expressions -/

theorem sound_visitOperand (hv : v.Sound) (e : Expr) :
    Sound N R (visitOperand v e) Value.WellTagged :=
  (hv.expr N R e).bind fun _ => sound_makeValue And.right

theorem sound_visitParameterList (hv : v.Sound) (es : List Expr) :
    Sound N R (visitParameterList v es) fun args => ∀ x ∈ args, x.WellTagged := by
  induction es generalizing R with
  | nil => exact Sound.pure fun _ x hx => by cases hx
  | cons e es ih =>
    refine (sound_visitOperand hv e).bind fun value => ih.bind fun values => Sound.pure ?_
    rintro ⟨⟨-, hvalue⟩, hvalues⟩
    exact List.forall_mem_cons.mpr ⟨hvalue, hvalues⟩

theorem sound_visitProcedureCall (hv : v.Sound) (procedureName : Str)
    (parameterList : List Expr) :
    Sound N R (visitProcedureCall v procedureName parameterList) (· ≠ .empty) := by
  refine (sound_visitParameterList hv parameterList).bind fun args s hN hs => ?_
  simp only [wp_bind, wp_modify]
  refine wp_mono (wp_contextCall_sound hv procedureName fun hg => ⟨(hs hg).1.2, (hs hg).2⟩) ?_
    fun _ _ ht => ht
  rintro val t ⟨htrace, hnest, ht⟩
  -- The value of the call becomes the `any` of the expression.
  have hany : Sound (fun _ => True) val.WellTagged (lift val.toAny) (· ≠ .empty) :=
    Sound.lift fun hval => hval.toAny
  refine wp_mono (hany (t.setReturn false) trivial fun hg => ?_) ?_ fun _ _ hu => hu
  · exact ⟨(ht hg).1, ⟨(ht hg).2.ec, (ht hg).2.trace⟩, rfl⟩
  · rintro a u ⟨htrace', hnest', hu⟩
    exact ⟨htrace.trans htrace', hnest'.trans hnest, hu⟩

theorem safe_evalRelation {left right : Value} (hl : left.WellTagged) (hr : right.WellTagged)
    (op : RelationalOperator) : Safe (fun _ => True) (evalRelation left right op) := by
  -- `<=` and `>=` compare once more when the values are not equal.
  have hor : ∀ x, Safe (fun _ => True) x → Safe (fun _ => True)
      (left.beq right >>= fun b => if b then pure true else x) := by
    intro x hx
    rw [Safe, Except.wp_bind]
    refine Except.wp_mono (hl.compareWith _ _ _ hr) fun b _ => ?_
    cases b with
    | false => exact hx
    | true => trivial
  cases op with
  | eq => exact hl.compareWith _ _ _ hr
  | ne => exact (Except.wp_map ..).mpr (hl.compareWith _ _ _ hr)
  | lt => exact hl.compareWith _ _ _ hr
  | gt => exact hl.compareWith _ _ _ hr
  | le => exact hor _ (hl.compareWith _ _ _ hr)
  | ge => exact hor _ (hl.compareWith _ _ _ hr)

theorem sound_visitRelation (hv : v.Sound) (op : RelationalOperator) (e₀ e₁ : Expr) :
    Sound N R (visitRelation v op e₀ e₁) (· ≠ .empty) := by
  refine (sound_visitOperand hv e₀).bind fun left => (sound_visitOperand hv e₁).bind fun right =>
    (sound_readStrings _).bind fun _ => (Sound.lift fun h => safe_evalRelation h.1.1.2 h.1.2 op).bind
      fun _ => (Sound.print fun h => h.1.1.1.2).bind fun _ =>
        (Sound.print fun h => h.1.1.1.2).bind fun _ => Sound.pure fun _ => nofun

theorem sound_visitBinary (hv : v.Sound) {eval : Value → Value → Except Fault Value}
    (heval : ∀ left right : Value, left.WellTagged → right.WellTagged →
      Safe Value.WellTagged (eval left right)) (converted : Value → Value → List Str)
    (e₀ e₁ : Expr) : Sound N R (visitBinary v eval converted e₀ e₁) (· ≠ .empty) :=
  (sound_visitOperand hv e₀).bind fun left => (sound_visitOperand hv e₁).bind fun right =>
    (sound_readStrings _).bind fun _ => (Sound.lift fun h => heval left right h.1.1.2 h.1.2).bind
      fun _ => (Sound.print fun h => h.1.1.1.2).bind fun _ =>
        (Sound.print fun h => h.1.1.1.2).bind fun _ => (Sound.print fun h => h.1.1.2).bind fun _ =>
          Sound.lift fun h => h.1.1.1.2.toAny

theorem safe_evalMulDiv {left right : Value} (hl : left.WellTagged) (hr : right.WellTagged)
    (op : MultiplicativeOperator) : Safe Value.WellTagged (evalMulDiv left right op) := by
  cases op with
  | star => exact hl.mul hr
  | slash => exact hl.div hr
  | mod => exact hl.mod hr
  | and => exact hl.land hr

theorem safe_evalAddSub {left right : Value} (hl : left.WellTagged) (hr : right.WellTagged)
    (op : AdditiveOperator) : Safe Value.WellTagged (evalAddSub left right op) := by
  cases op with
  | plus => exact hl.add hr
  | minus => exact hl.sub hr
  | or => exact hl.lor hr

/-- A name that is bound yields a value. -/
theorem sound_visitRvalue (name : Str) : Sound N R (visitRvalue name) (· ≠ .empty) := by
  intro s _ hs
  simp only [visitRvalue, readVar, note, wp_bind, wp_modify, wp_pure]
  refine wp_var ?_ fun var e hvar he hg => ?_
  · cases hvar : (s.note (.ident name)).ec.findVar name with
    | none =>
      refine ⟨(List.prefix_append _ _).trans (List.prefix_append _ _), rfl, fun hg => ?_⟩
      -- A name that is not bound does not yield a value at its point.
      have hbound : (s.ec.findVar name).isSome = true :=
        (Machine.good_note.mp (Machine.good_note.mp hg).1).2
      rw [show s.ec.findVar name = none from hvar] at hbound
      cases hbound
    | some var =>
      -- The value found becomes the `any` of the expression.
      have hread : Sound (fun _ => True) var.value_.WellTagged (lift var.value_.toAny) (· ≠ .empty) :=
        Sound.lift fun hval => hval.toAny
      refine wp_mono (hread _ trivial fun hg => ?_) ?_ fun _ _ ht => ht
      · obtain ⟨hR, hwt, hr⟩ := hs (Machine.good_note.mp (Machine.good_note.mp hg).1).1
        have hval := hwt.ec.findVar hvar
        refine ⟨hval, (hwt.note (e := .ident name) trivial).note ?_, hr⟩
        rintro x hx
        cases hx
        exact hval
      · rintro a t ⟨htrace, hnest, ht⟩
        exact ⟨((List.prefix_append _ _).trans (List.prefix_append _ _)).trans htrace, hnest, ht⟩
  · obtain ⟨hR, hwt, hr⟩ := hs (Machine.good_note.mp hg).1
    have hsafe := (hwt.ec.findVar hvar).toString
    rw [he] at hsafe
    exact ⟨hsafe, hwt.note (e := .ident name) trivial⟩

theorem sound_visitParens (e : Expr) : Sound N R (visitParens e) (· ≠ .empty) := by
  refine (Sound.note (e := .parens) (Q := False) fun _ _ (hp : False) => hp.elim).bind fun _ =>
    Sound.pure fun h => h.2.elim

theorem sound_visitExpr (hv : v.Sound) (e : Expr) : Sound N R (visitExpr v e) (· ≠ .empty) := by
  cases e with
  | relation op e₀ e₁ => exact sound_visitRelation hv op e₀ e₁
  | mulDiv op e₀ e₁ =>
    exact sound_visitBinary hv (fun _ _ hl hr => safe_evalMulDiv hl hr op) _ e₀ e₁
  | addSub op e₀ e₁ =>
    exact sound_visitBinary hv (fun _ _ hl hr => safe_evalAddSub hl hr op) _ e₀ e₁
  | procCall procedureName parameterList =>
    exact sound_visitProcedureCall hv procedureName parameterList
  | parens e => exact sound_visitParens e
  | ident name => exact sound_visitRvalue name
  | int text => exact (sound_toNumberInt .int text).bind fun _ => Sound.pure fun _ => nofun
  | string text => exact Sound.pure fun _ => nofun
  | boolean b => exact Sound.pure fun _ => nofun

/-! ### Statements -/

theorem sound_visitCondition (hv : v.Sound) (e : Expr) :
    Sound N R (visitCondition v e) fun _ => True := by
  apply (hv.expr N R e).bind
  intro a
  cases a with
  | bool b => exact Sound.pure fun _ => trivial
  | empty | int | string => exact fun s _ hs hg => ⟨nofun, (hs hg).2.1⟩

/-- An assignment of a well-tagged value. -/
theorem soundStmt_assign {name : Str} {value : Value} (h : R → value.WellTagged) :
    SoundStmt N R (do
      print value
      note (.assign name value)
      Context.upsert name value
      return .empty) :=
  Sound.toStmt ((Sound.print h).bind fun _ =>
    (Sound.note (e := .assign name value) (Q := True) fun _ hR _ => ⟨h hR.1, trivial⟩).bind fun _ =>
      (sound_upsert fun hR => h hR.1.1).bind fun _ => Sound.pure (P := fun _ => True) fun _ => trivial)

theorem soundStmt_empty : SoundStmt N R (pure .empty) :=
  Sound.toStmt (Sound.pure (P := fun _ => True) fun _ => trivial)

theorem soundStmt_visitAssignRvalue (lvalue rvalue : Str) :
    SoundStmt N R (visitAssignRvalue lvalue rvalue) := by
  apply (sound_readVar rvalue).bind_stmt
  intro result
  cases result with
  | none => exact soundStmt_empty
  | some var => exact soundStmt_assign fun h => h.2 var rfl

theorem soundStmt_visitIfThenElseIfElse (hv : v.Sound) (otherwise : List Stmt)
    (clauses : List (Expr × List Stmt)) :
    SoundStmt N R (visitIfThenElseIfElseStatement v otherwise clauses) := by
  induction clauses generalizing R with
  | nil => exact hv.statements N R otherwise
  | cons clause clauses ih =>
    apply (sound_visitCondition hv clause.1).bind_stmt
    intro b
    cases b with
    | false => exact ih
    | true => exact hv.statements N _ clause.2

/-- Outside of a body a statement leaves the flag alone, since no `RETURN` is executed there. -/
theorem SoundStmt.toSound {m : Eval AnyVal} (hbody : ∀ nest, N nest → inBody nest = false)
    (h : SoundStmt N R m) : Sound N R m fun _ => True := by
  intro s hN hs
  refine wp_mono (h s hN hs) ?_ fun _ _ ht => ht
  rintro a t ⟨htrace, hnest, ht⟩
  refine ⟨htrace, hnest, fun hg => ⟨trivial, (ht hg).1, Bool.eq_false_iff.mpr fun hr => ?_⟩⟩
  have hset := ((ht hg).2 hr).2
  simp [hbody s.nest hN] at hset

theorem inBody_of_inFor (nest : List Block) (h : InFor nest) : inBody nest = false := by
  obtain ⟨var, rest, rfl⟩ := h
  rfl

theorem Visitor.Sound.forBody (hv : v.Sound) (b : List Stmt) :
    WwivBasic.Sound InFor R (v.statements b) fun _ => True :=
  (hv.statements InFor R b).toSound inBody_of_inFor

theorem sound_setLoopVar (loop : ForLoop) (i : Int32) :
    Sound N R (setLoopVar loop i) fun _ => True :=
  Sound.modify (fun _ => rfl) (fun _ => rfl) (fun _ => rfl) fun _ _ hwt =>
    hwt.ec.mapScopes _ fun _ hscopes => forall_mem_modify hscopes fun _ hsc => hsc.assign trivial

theorem sound_getLoopVar (loop : ForLoop) : Sound N R (getLoopVar loop) Value.WellTagged := by
  intro s _ hs
  simp only [getLoopVar, wp_bind, wp_get, wp_pure]
  refine ⟨List.prefix_rfl, trivial, fun hg => ⟨?_, (hs hg).2⟩⟩
  -- The value is that of a variable of the state, or `Value()`.
  cases hsc : (s.ec.scopes loop.owner)[loop.position]? with
  | none => trivial
  | some sc =>
    cases hval : sc.value? loop.varname with
    | none => simp only [Option.bind_some, hval, Option.getD_none]; trivial
    | some x =>
      simp only [Option.bind_some, hval, Option.getD_some]
      exact ((hs hg).2.1.ec loop.owner).scopes sc (List.mem_of_getElem? hsc) loop.varname x hval

theorem sound_iterateFor (hv : v.Sound) (loop : ForLoop) (i : Int32) :
    Sound InFor loop.stop.WellTagged (iterateFor v loop i) fun _ => True := by
  apply (sound_toIntOf fun h => h).bind
  intro stop
  split_ifs
  · exact Sound.pure fun _ => trivial
  · refine (sound_setLoopVar loop i).bind fun _ => (hv.forBody _).bind fun _ =>
      (sound_getLoopVar loop).bind fun value => (sound_toIntOf fun h => h.2).bind fun current =>
        (Sound.lift fun _ => Value.safe_checkedInt _).bind fun next => ?_
    -- The last value is well tagged since before this iteration.
    exact (hv.iterate loop next).weaken fun h => h.1.1.1.1.1.1

theorem sound_runLoop (hv : v.Sound) (loop : ForLoop) (start : Value) :
    Sound InFor (start.WellTagged ∧ loop.stop.WellTagged) (runLoop v loop start)
      fun _ => True :=
  (sound_toIntOf fun h => h.1).bind fun _ =>
    ((sound_iterateFor hv loop _).weaken fun h => h.1.2).bind fun _ =>
      (sound_toIntOf fun h => h.1.1.2).bind fun _ => (sound_setLoopVar loop _).bind fun _ =>
        (hv.forBody _).bind fun _ => Sound.pure fun _ => trivial

theorem soundStmt_visitForStatement (hv : v.Sound) (id : Str) (e₀ e₁ : Expr) (step : Option Str)
    (statements : List Stmt) : SoundStmt N R (visitForStatement v id e₀ e₁ step statements) := by
  have hstep : ∀ R, Sound N R (forStep step) fun _ => True := by
    intro R
    cases step with
    | none => exact Sound.pure fun _ => trivial
    | some text => exact sound_toNumberInt .step text
  refine (hstep R).bind_stmt fun step => (sound_visitOperand hv e₀).bind_stmt fun start =>
    (sound_visitOperand hv e₁).bind_stmt fun stop s _ hs => ?_
  simp only [note, pushScope, popScope, wp_bind, wp_get, wp_modify, wp_pure]
  set loop : ForLoop :=
    ⟨s.ec.module, (s.ec.scopes s.ec.module).length, id, stop, step, statements⟩
  -- The iterations begin in a `FOR`, whose first and last value are well tagged.
  have henter : (s.enterLoop loop start).Good →
      (start.WellTagged ∧ stop.WellTagged) ∧ (s.enterLoop loop start).WellTagged ∧
        s.return_ = false := by
    intro hg
    obtain ⟨⟨⟨-, hstart⟩, hstop⟩, hwt, hr⟩ := hs (hg.of_prefix (List.prefix_append _ _))
    exact ⟨⟨hstart, hstop⟩, hwt.enterLoop loop hstart, hr⟩
  refine wp_mono (sound_runLoop hv loop start _ ⟨id, s.nest, rfl⟩ henter) ?_ fun _ _ ht => ht
  rintro _ t ⟨htrace, hnest, ht⟩
  refine ⟨(List.prefix_append _ _).trans htrace, ?_, fun hg => ?_⟩
  · show t.nest.tail = s.nest
    rw [hnest]
    rfl
  -- No `RETURN` has been executed in the `FOR`, so the flag is still clear.
  · obtain ⟨-, hwt, hr⟩ := ht hg
    have hclose : t.closeBlock.WellTagged := ⟨hwt.ec, hwt.trace⟩
    exact ⟨hclose.popScope _, fun hset => by simp [hr] at hset⟩

/-- A `RETURN` in a body has a value. -/
theorem soundStmt_visitReturnStatement (hv : v.Sound) (e : Expr) :
    SoundStmt N R (visitReturnStatement v e) := by
  refine (hv.expr N R e).bind_stmt fun a => (sound_makeValue And.right).bind_stmt fun value =>
    (Sound.print And.right).bind_stmt fun _ s _ hs => ?_
  simp only [note, wp_bind, wp_modify, wp_pure]
  refine ⟨List.prefix_append _ _, rfl, fun hg => ?_⟩
  obtain ⟨hg, hbody⟩ := Machine.good_note.mp hg
  obtain ⟨⟨⟨⟨-, hne⟩, -⟩, -⟩, hwt, -⟩ := hs hg
  have hnote := hwt.note (e := .ret a) trivial
  -- The flag is set in a body, with a result that is not empty.
  exact ⟨⟨hnote.ec, hnote.trace⟩, fun _ => ⟨hne, hbody⟩⟩

theorem soundStmt_visitAlternative (hv : v.Sound) (stmt : Stmt) :
    SoundStmt N R (visitAlternative v stmt) := by
  cases stmt with
  | assignRvalue lvalue rvalue => exact soundStmt_visitAssignRvalue lvalue rvalue
  | assignExpr lvalue e =>
    exact (sound_visitOperand hv e).bind_stmt fun value => soundStmt_assign And.right
  | ifThen e statements =>
    apply (sound_visitCondition hv e).bind_stmt
    intro b
    cases b with
    | false => exact soundStmt_empty
    | true => exact hv.statements N _ statements
  | ifThenElse e statements otherwise =>
    apply (sound_visitCondition hv e).bind_stmt
    intro b
    cases b with
    | false => exact hv.statements N _ otherwise
    | true => exact hv.statements N _ statements
  | ifThenElseIfElse e statements elseIfs otherwise =>
    exact soundStmt_visitIfThenElseIfElse hv otherwise _
  | forStatement id e₀ e₁ step statements =>
    exact soundStmt_visitForStatement hv id e₀ e₁ step statements
  | procedureCall procedureName parameterList =>
    exact (sound_visitProcedureCall hv procedureName parameterList).bind_stmt fun _ =>
      soundStmt_empty
  | returnStatement e => exact soundStmt_visitReturnStatement hv e
  | emptyStatement => exact soundStmt_empty

theorem soundStmt_visitStatement (hv : v.Sound) (stmt : Stmt) :
    SoundStmt N R (visitStatement v stmt) :=
  (Sound.note (e := .statement) (Q := True) fun _ _ _ => ⟨trivial, trivial⟩).bind_stmt fun _ =>
    soundStmt_visitAlternative hv stmt

theorem soundStmt_visitStatements (hv : v.Sound) (stmts : List Stmt) (result : AnyVal) :
    SoundStmt N R (visitStatements v result stmts) := by
  induction stmts generalizing result with
  | nil => exact Sound.toStmt (Sound.pure (P := fun _ => True) fun _ => trivial)
  | cons stmt stmts ih =>
    intro s hN hs
    simp only [visitStatements, wp_bind, wp_get]
    refine wp_mono (soundStmt_visitStatement (N := N) (R := R) hv stmt s hN hs) ?_ fun _ _ ht => ht
    rintro a t ⟨htrace, hnest, ht⟩
    -- With the flag clear the next statement begins as this one did.
    cases hr : t.return_ with
    | true => exact ⟨htrace, hnest, ht⟩
    | false =>
      have htR : t.Good → R ∧ t.WellTagged ∧ t.return_ = false := fun hg =>
        ⟨(hs (hg.of_prefix htrace)).1, (ht hg).1, hr⟩
      refine wp_mono (ih a t (hnest ▸ hN) htR) ?_ fun _ _ hu => hu
      rintro b u ⟨htrace', hnest', hu⟩
      exact ⟨htrace.trans htrace', hnest'.trans hnest, hnest ▸ hu⟩

end Visits

/-- **The visits of the visitor are sound**, at every fuel. -/
theorem visitor_sound (n : ℕ) : (visitor n).Sound := by
  induction n with
  | zero =>
    exact
      { expr := fun _ _ _ _ _ hs hg => ⟨nofun, (hs hg).2.1⟩
        statements := fun _ _ _ _ _ hs hg => ⟨nofun, (hs hg).2.1⟩
        iterate := fun _ _ _ _ hs hg => ⟨nofun, (hs hg).2.1⟩ }
  | succ n ih =>
    exact
      { expr := fun _ _ e => sound_visitExpr ih e
        statements := fun _ _ b => soundStmt_visitStatements ih b .empty
        iterate := fun loop i => sound_iterateFor ih loop i }

/-! ## Whole runs -/

theorem sound_visitItems (n : ℕ) (items : List Item) :
    Sound (· = []) True (visitItems (visitor n) items) fun _ => True := by
  have hitem : ∀ item R, Sound (· = []) R (visitItem (visitor n) item) fun _ => True := by
    intro item R
    cases item with
    | statement stmt =>
      -- At the top level, no `RETURN` is in a body.
      have htop : ∀ nest, nest = [] → inBody nest = false := by
        rintro _ rfl
        rfl
      exact ((soundStmt_visitStatement (visitor_sound n) stmt).toSound htop).bind fun _ =>
        Sound.pure fun _ => trivial
    | importModule id =>
      exact Sound.modify (fun _ => rfl) (fun _ => rfl) (fun _ => rfl) fun _ _ hwt =>
        hwt.ec.mapModule _ fun m hm => ⟨hm.scopes, hm.native⟩
    | procedureDefinition | importFile | moduleDefinition => exact Sound.pure fun _ => trivial
  induction items with
  | nil => exact Sound.pure fun _ => trivial
  | cons item items ih =>
    exact (Sound.note (e := .item) (Q := True) fun _ _ _ => ⟨trivial, trivial⟩).bind fun _ =>
      (hitem item _).bind fun _ => ih.weaken fun _ => trivial

/-- **The values of a run are well tagged**: those stored in variables, bound to parameters, used
as operands or returned by calls, at every point, as long as no name is evaluated that is not
bound, no parenthesised expression is evaluated, every call of a procedure ends by a `RETURN`,
and each `RETURN` is executed in the body of a procedure, outside of the `FOR` loops of that
body. Then no `std::get` reaches a wrong alternative. -/
theorem values_wellTagged (n : ℕ) (ec : Context) (tags : ℕ → ValueType) (items : List Item)
    (hec : ec.WellTagged)
    (h : ∀ p ∈ (runProgram n ec tags items).final.trace, p.YieldsValue) :
    (∀ p ∈ (runProgram n ec tags items).final.trace, p.WellTagged) ∧
      (runProgram n ec tags items).final.ec.WellTagged ∧
        ∀ t, runProgram n ec tags items ≠ .error .badVariantAccess t := by
  -- The run begins with nothing open, no point passed and the flag clear.
  have hrun := sound_visitItems n items ((Machine.start ec tags).mapContext Context.toRoot) rfl
    fun _ => ⟨trivial, ⟨hec, fun p hp => by cases hp⟩, rfl⟩
  cases hr : runProgram n ec tags items with
  | ok a t =>
    rw [hr] at h
    obtain ⟨-, hwt, -⟩ := (wp_ok hrun hr).2.2 h
    exact ⟨hwt.trace, hwt.ec, fun _ => nofun⟩
  | error e t =>
    rw [hr] at h
    obtain ⟨hne, hwt⟩ := wp_error hrun hr h
    refine ⟨hwt.trace, hwt.ec, fun u hu => ?_⟩
    cases hu
    exact hne rfl

/-! ## Well-tagged contexts -/

theorem returnsWellTagged_of_wp {fn : List Value → Except Fault Value}
    (h : ∀ args, (fn args).wp Value.WellTagged fun _ => True) : ReturnsWellTagged fn := by
  intro args result _ hresult
  have hwp := h args
  rwa [hresult] at hwp

section Stdlib

variable {α α' β : Type} {ret : β → Value} (hret : ∀ b, (ret b).WellTagged)

include hret

theorem returnsWellTagged_makeBasicFn₁ (get : Value → Except Fault α)
    (f : α → Except Fault β) : ReturnsWellTagged (makeBasicFn₁ get ret f) := by
  apply returnsWellTagged_of_wp
  intro args
  cases args with
  | nil => trivial
  | cons v args =>
    simp only [makeBasicFn₁, Except.wp_bind, Except.wp_pure]
    cases get v with
    | error => trivial
    | ok a =>
      rw [Except.wp_ok]
      cases f a with
      | error => trivial
      | ok b => exact hret b

theorem returnsWellTagged_makeBasicFn₂ (get : Value → Except Fault α)
    (get' : Value → Except Fault α') (f : α → α' → Except Fault β) :
    ReturnsWellTagged (makeBasicFn₂ get get' ret f) := by
  apply returnsWellTagged_of_wp
  intro args
  match args with
  | [] | [_] => trivial
  | v :: v' :: _ =>
    simp only [makeBasicFn₂, Except.wp_bind, Except.wp_pure]
    cases get v with
    | error => trivial
    | ok a =>
      cases get' v' with
      | error => trivial
      | ok a' =>
        rw [Except.wp_ok, Except.wp_ok]
        cases f a a' with
        | error => trivial
        | ok b => exact hret b

end Stdlib

theorem returnsWellTagged_len : ReturnsWellTagged Stdlib.len := by
  apply returnsWellTagged_of_wp
  intro args
  cases args with
  | nil => trivial
  | cons v args => cases h : v.toString <;> simp only [Stdlib.len, h, Except.wp_map] <;> trivial

theorem returnsWellTagged_val : ReturnsWellTagged Stdlib.val := by
  apply returnsWellTagged_of_wp
  intro args
  cases args with
  | nil => trivial
  | cons v args => cases h : v.toInt <;> simp only [Stdlib.val, h, Except.wp_map] <;> trivial

theorem returnsWellTagged_mid : ReturnsWellTagged Stdlib.mid := by
  apply returnsWellTagged_of_wp
  intro args
  match args with
  | [] => trivial
  | [v] => cases h : v.toString <;> simp only [Stdlib.mid, h, Except.wp_map] <;> trivial
  | [v, start] =>
    simp only [Stdlib.mid, Except.wp_bind, Except.wp_pure]
    cases v.toString <;> cases start.toInt <;> trivial
  | v :: start :: len :: _ =>
    simp only [Stdlib.mid, Except.wp_bind]
    cases v.toString with
    | error => trivial
    | ok text =>
      cases start.toInt with
      | error => trivial
      | ok i =>
        show Except.wp (if Stdlib.toSize i < text.length then _ else _) _ _
        split_ifs
        · cases len.toInt <;> trivial
        · trivial

theorem returnsWellTagged_stdlib : ∀ f ∈ stdlibFunctions, ReturnsWellTagged f.2 := by
  simp only [stdlibFunctions, List.map_cons, List.map_nil, List.forall_mem_cons]
  exact ⟨returnsWellTagged_makeBasicFn₁ Value.wellTagged_ofInt _ _, returnsWellTagged_len,
    returnsWellTagged_val, returnsWellTagged_makeBasicFn₁ Value.wellTagged_ofInt _ _,
    returnsWellTagged_makeBasicFn₁ Value.wellTagged_ofString _ _,
    returnsWellTagged_makeBasicFn₂ Value.wellTagged_ofString _ _ _,
    returnsWellTagged_makeBasicFn₂ Value.wellTagged_ofString _ _ _, returnsWellTagged_mid,
    fun f hf => by cases hf⟩

/-- A host may register any function that returns well-tagged values. -/
theorem Module.WellTagged.nativeFunctionl {m : Module} (h : m.WellTagged) (name : Str)
    {fn : NativeFn} (hfn : ReturnsWellTagged fn) : (m.nativeFunctionl name fn).WellTagged where
  scopes := h.scopes
  native := by
    intro k f cppFn hf hcpp
    rw [Module.nativeFunctionl, OrderedMap.find?_insertOrAssign] at hf
    split_ifs at hf
    · cases hf
      cases hcpp
      exact hfn
    · exact h.native k f cppFn hf hcpp

theorem Module.wellTagged_empty : ({} : Module).WellTagged :=
  ⟨fun _ hsc => (List.not_mem_nil hsc).elim, fun _ _ _ hfind => by cases hfind⟩

theorem Module.wellTagged_initial : Module.initial.WellTagged := by
  have hfold : ∀ (fs : List (Str × NativeFn)) (m : Module), m.WellTagged →
      (∀ f ∈ fs, ReturnsWellTagged f.2) →
        (fs.foldl (fun m f => m.nativeFunctionl f.1 f.2) m).WellTagged := by
    intro fs
    induction fs with
    | nil => exact fun m hm _ => hm
    | cons f fs ih =>
      intro m hm hfs
      obtain ⟨hf, hfs⟩ := List.forall_mem_cons.mp hfs
      exact ih _ (hm.nativeFunctionl f.1 hf) hfs
  refine hfold stdlibFunctions _ ⟨?_, fun _ _ _ hfind => by cases hfind⟩ returnsWellTagged_stdlib
  exact List.forall_mem_singleton.mpr (Scope.wellTagged_empty globalText)

theorem wellTagged_init : Context.init.WellTagged := by
  intro key
  rw [Context.moduleAt, Context.init, OrderedMap.find?_emplace]
  split_ifs
  · exact Module.wellTagged_initial
  · exact Module.wellTagged_empty

/-! ### The definition pass -/

namespace FunctionDefVisitor

/-- What is registered is a procedure, and no native function. -/
theorem visitProcedureDefinition_wellTagged {ec : Context} (h : ec.WellTagged)
    (definition : ProcedureDefinition) :
    (visitProcedureDefinition ec definition).wp Context.WellTagged fun _ => True := by
  simp only [visitProcedureDefinition, Except.wp_bind, Except.wp_pure]
  cases definition.parameterDefinitionList with
  | nil => trivial
  | cons id ids =>
    refine h.mapModule _ fun m hm => ⟨hm.scopes, fun k f cppFn hf hcpp => ?_⟩
    rw [OrderedMap.find?_insertOrAssign] at hf
    split_ifs at hf
    · cases hf
      cases hcpp
    · exact hm.native k f cppFn hf hcpp

/-- A new module has no variable and no function. -/
theorem visitModuleDefinition_wellTagged {ec : Context} (h : ec.WellTagged) (text : Str) :
    (visitModuleDefinition ec text).WellTagged := by
  simp only [visitModuleDefinition]
  split_ifs
  · exact h
  · intro key
    rw [Context.moduleAt, OrderedMap.find?_emplace]
    split_ifs with hkey
    · cases hmod : ec.modules.find? (removeQuotes text) with
      | none => exact Module.wellTagged_empty
      | some m =>
        have hm := h (removeQuotes text)
        rw [Context.moduleAt, hmod] at hm
        exact hm
    · exact h key

theorem visitItem_wellTagged {ec : Context} (h : ec.WellTagged) (item : Item) :
    (visitItem ec item).wp Context.WellTagged fun _ => True := by
  cases item with
  | procedureDefinition definition => exact visitProcedureDefinition_wellTagged h definition
  | moduleDefinition text => exact visitModuleDefinition_wellTagged h text
  | statement | importModule | importFile => exact h

theorem visitMain_wellTagged {ec : Context} (h : ec.WellTagged) (items : List Item) :
    (visitMain ec items).wp Context.WellTagged fun _ => True := by
  induction items generalizing ec with
  | nil => exact h
  | cons item items ih =>
    rw [visitMain, Except.wp_bind]
    exact Except.wp_mono (visitItem_wellTagged h item) fun _ h' => ih h'

end FunctionDefVisitor

/-- The definition pass leads from a well-tagged context to one. -/
theorem Context.WellTagged.withProgram {ec : Context} (h : ec.WellTagged) (items : List Item) :
    (ec.withProgram items).WellTagged := by
  have hpass := FunctionDefVisitor.visitMain_wellTagged h items
  unfold Context.withProgram
  cases hrun : FunctionDefVisitor.visitMain ec items with
  | error => exact h
  | ok ec' =>
    rw [hrun] at hpass
    exact hpass

/-- A sum of a name that is not bound. -/
def unboundOperand : List Item :=
  [.statement (.assignExpr ['y'] (.addSub .plus (.ident ['x']) (.int ['1'])))]

/-- Where the unwritten `type` says that the value is an `int`, the sum reads the wrong
alternative. -/
theorem values_not_wellTagged :
    ¬ (∀ p ∈ (runProgram 4 Context.init (fun _ => .integer) unboundOperand).final.trace,
        p.WellTagged) ∧
      ∃ t, runProgram 4 Context.init (fun _ => .integer) unboundOperand =
        .error .badVariantAccess t := by
  constructor
  · intro h
    have hevent : ∃ p ∈ (runProgram 4 Context.init (fun _ => .integer) unboundOperand).final.trace,
        ¬ p.event.WellTagged := by decide +kernel
    obtain ⟨p, hp, hne⟩ := hevent
    exact hne (h p hp).1
  · exact Result.exists_error (by decide +kernel)

/-- Calls, operands and variables, all of them bound. -/
def boundOperands : List Item :=
  [.procedureDefinition ⟨['f'], [['x']],
      [.returnStatement (.addSub .plus (.ident ['x']) (.int ['1']))]⟩,
    .statement (.forStatement ['i'] (.int ['1']) (.int ['2']) none
      [.assignExpr ['r'] (.procCall ['f'] [.ident ['i']])])]

theorem values_wellTagged_boundOperands :
    let r := runProgram 9 (Context.init.withProgram boundOperands) (fun _ => .integer) boundOperands
    (∀ p ∈ r.final.trace, p.WellTagged) ∧ r.final.ec.WellTagged ∧
      ∀ t, r ≠ .error .badVariantAccess t := by
  intro r
  exact values_wellTagged 9 _ _ boundOperands (wellTagged_init.withProgram boundOperands)
    (by decide +kernel)

end WwivBasic
