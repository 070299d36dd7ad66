import Mathlib.Order.Filter.AtTopBot.Basic
import WwivBasic.Core.ToNumber
import WwivBasic.Foundations.Progression
import WwivBasic.FunctionDef
import WwivBasic.Params

/-!
# The iterations of a `FOR`

A `FOR` adds its step to the value that its variable holds after each visit of the body, until the
sum equals the last value, and then visits the body once more. So it leaves the range where the
step does not lead to the last value, and where the range is empty; the counter then grows until it
overflows.

## Main definitions

* `iterateLog`, `runLoopLog`: a `FOR`, with the values that its variable holds in the visits of the
  body
* `forHead`: what a `FOR` evaluates before it begins
* `Completes`: the body completes for given values, one after the other
* `StepDenotes`: the number that is written as a step

## Main results

* `iterate_eq_log`, `runLoop_eq_log`: the record changes nothing
* `visited_of_iterateLog`: what a `FOR` that ends has visited
* `for_counts_iff`: when it visits the values it is meant to visit
-/

namespace WwivBasic

open EStateM
open Filter (atTop)

/-! ## The record of a loop -/

/-- The iterations of a `FOR`, with the values that its variable holds in the visits of the
body. -/
def iterateLog : ℕ → ForLoop → Int32 → Eval (List Value)
  | 0, _, _ => throw .outOfFuel
  | n + 1, loop, current => do
    let stop ← toIntOf loop.stop
    if current = stop then return []
    setLoopVar loop current
    let held ← getLoopVar loop
    let _ ← (visitor n).statements loop.statements
    let current ← toIntOf (← getLoopVar loop)
    let next ← lift (Value.checkedInt (current.toInt + loop.step.toInt))
    let visited ← iterateLog n loop next
    return held :: visited

/-- And with the last visit. -/
def runLoopLog (n : ℕ) (loop : ForLoop) (start : Value) : Eval (List Value) := do
  let visited ← iterateLog (n + 1) loop (← toIntOf start)
  setLoopVar loop (← toIntOf loop.stop)
  let held ← getLoopVar loop
  let _ ← (visitor n).statements loop.statements
  return visited ++ [held]

/-- A read of the loop variable changes nothing. -/
theorem getLoopVar_bind {α : Type} (loop : ForLoop) (m : Eval α) :
    (getLoopVar loop >>= fun _ => m) = m := rfl

theorem iterate_eq_log (n : ℕ) (loop : ForLoop) (current : Int32) :
    (visitor n).iterate loop current = (do let _ ← iterateLog n loop current; return) := by
  induction n generalizing current with
  | zero => rfl
  | succ n ih =>
    show iterateFor (visitor n) loop current = _
    simp only [iterateFor, iterateLog, bind_assoc, ih]
    congr 1
    funext stop
    split_ifs
    · rfl
    · simp only [bind_assoc, pure_bind, getLoopVar_bind]

theorem runLoop_eq_log (n : ℕ) (loop : ForLoop) (start : Value) :
    runLoop (visitor n) loop start = (do let _ ← runLoopLog n loop start; return) := by
  have hiterate := iterate_eq_log (n + 1) loop
  change ∀ current, iterateFor (visitor n) loop current = _ at hiterate
  simp only [runLoop, runLoopLog, hiterate, bind_assoc, pure_bind, getLoopVar_bind]

/-! ## The variable of a loop -/

/-- What the loop variable holds, in the scope of the `FOR`. -/
def ForLoop.held (loop : ForLoop) (u : Machine) : Option Value :=
  u.ec.cell loop.owner loop.position loop.varname

/-- The state in which the body is visited: after `end.toInt()` and `var.value().set(i)`. -/
def ForLoop.setTo (loop : ForLoop) (u : Machine) (i : Int32) : Machine :=
  (u.converting loop.stop).setVarAt loop.owner loop.position loop.varname i

/-- Between the two states no assignment writes the loop variable. -/
def ForLoop.Unassigned (loop : ForLoop) (u t : Machine) : Prop :=
  ∀ p ∈ u.passed t, p.written loop.owner loop.position loop.varname = none

section Variable

variable {s u w : Machine} {loop : ForLoop} {n : ℕ} {current : Int32} {a : AnyVal}

/-- A variable that is bound holds what it is assigned. -/
theorem Context.cell_assign {ec : Context} {key x : Str} {i : ℕ} (h : (ec.cell key i x).isSome)
    (value : Value) :
    (ec.mapScopes key fun scopes => scopes.modify i fun sc => sc.assign x value).cell key i x =
      some value := by
  have hc := contains_of_lt (lt_of_isSome_cell h)
  rw [isSome_cell] at h
  obtain ⟨sc, hsc, hbinds⟩ := (Option.any_eq_true ..).mp h
  rw [cell, scopes_mapScopes, if_pos ⟨strcasecmp_self _, hc⟩]
  simp [hsc, Scope.value?_assign, hbinds]

theorem held_setTo (h : (loop.held u).isSome) (i : Int32) :
    loop.held (loop.setTo u i) = some (.ofInt i) :=
  Context.cell_assign h _

/-- A `FOR` inside of which the run is, as one that begins here. -/
theorem Machine.InLoop.restart (h : s.InLoop loop w) :
    ({ w with ec := s.ec, nest := s.nest } : Machine).InLoop loop w where
  trace := List.prefix_rfl
  nest := h.nest
  ec := h.ec
  points p hp := by
    have hnil : ({ w with ec := s.ec, nest := s.nest } : Machine).passed w = [] :=
      List.drop_length
    rw [hnil] at hp
    cases hp
  owner := h.owner
  position := h.position
  nest_eq := h.nest_eq
  fnNames_eq := h.fnNames_eq

/-- The iterations pass points, and take none back. -/
theorem wp_iterateLog (h : s.InLoop loop w) (n : ℕ) (current : Int32) :
    wp (iterateLog n loop current) (fun _ t => w.trace <+: t.trace)
      (fun _ t => w.trace <+: t.trace) w := by
  have hrun := (visitor_keeps rules_balance n).iterate loop current _ w h.restart
  rw [iterate_eq_log, wp_bind] at hrun
  exact wp_mono hrun (fun _ _ ht => ht.trace) fun _ _ ht => ht.trace

/-- Inside a `FOR` a value is read as a number. -/
theorem Machine.InLoop.converting (h : s.InLoop loop u) (v : Value) :
    s.InLoop loop (u.converting v) := h.body (Machine.Returns.refl.update rfl rfl rfl)

/-- A visit of the body, from inside the `FOR`, with the variable set. -/
theorem Machine.InLoop.visit (h : s.InLoop loop u) {i : Int32}
    (hbody : (visitor n).statements loop.statements (loop.setTo u i) = .ok a w) :
    s.InLoop loop w :=
  ((h.converting loop.stop).setVarAt i).body
    (wp_ok ((visitor_keeps rules_balance n).statements _ _) hbody)

/-- A visit that does not assign the loop variable leaves it as it was set. -/
theorem held_visit (hheld : (loop.held u).isSome) {i : Int32}
    (hbody : (visitor n).statements loop.statements (loop.setTo u i) = .ok a w)
    (hun : loop.Unassigned u w) : loop.held w = some (.ofInt i) := by
  have hrules := rules_balance.inf rules_frame
  obtain ⟨-, hframe⟩ := wp_ok ((visitor_keeps hrules n).statements _ _) hbody
  have hset := held_setTo hheld i
  have hlt : loop.position < ((loop.setTo u i).ec.scopes loop.owner).length :=
    lt_of_isSome_cell (k := loop.position) (x := loop.varname) (by
      show (loop.held (loop.setTo u i)).isSome
      rw [hset]
      rfl)
  exact ((hframe.cell loop.owner loop.position loop.varname hlt).trans
    (List.replay_of_forall hun)).trans hset

/-! ## One iteration -/

/-- Without iterations left nothing is visited. -/
theorem iterateLog_stop (hstop : loop.stop.toInt = .ok current) :
    iterateLog (n + 1) loop current u = .ok [] (u.converting loop.stop) := by
  rw [iterateLog, bind_of_ok (toIntOf_of_ok hstop u), if_pos rfl]
  rfl

/-- What follows a visit of the body. -/
def afterVisit (n : ℕ) (loop : ForLoop) (held : Value) : Eval (List Value) := do
  let current ← toIntOf (← getLoopVar loop)
  let next ← lift (Value.checkedInt (current.toInt + loop.step.toInt))
  let visited ← iterateLog n loop next
  return held :: visited

/-- The counter advances by the step, from what the variable holds. -/
theorem afterVisit_of_held (h : loop.held w = some (.ofInt current)) (held : Value) :
    afterVisit n loop held w =
      (lift (Value.checkedInt (current.toInt + loop.step.toInt)) >>= fun next =>
        iterateLog n loop next >>= fun visited => pure (held :: visited)) w := by
  have hread : (loop.held w).getD Value.default = .ofInt current := by
    rw [h]
    rfl
  rw [afterVisit]
  show (toIntOf ((loop.held w).getD Value.default) >>= _) w = _
  rw [hread, bind_of_ok (toIntOf_of_ok rfl w), Machine.converting_ofInt]

section Iteration

variable {stop : Int32} (hstop : loop.stop.toInt = .ok stop) (hne : current ≠ stop)

include hstop hne

theorem iterateLog_bind (hheld : (loop.held u).isSome) :
    iterateLog (n + 1) loop current u =
      ((visitor n).statements loop.statements >>= fun _ => afterVisit n loop (.ofInt current))
        (loop.setTo u current) := by
  have hset : (loop.held (loop.setTo u current)).getD Value.default = .ofInt current := by
    rw [held_setTo hheld]
    rfl
  rw [iterateLog, bind_of_ok (toIntOf_of_ok hstop u), if_neg hne, ← hset]
  rfl

variable (hin : s.InLoop loop u) (hheld : (loop.held u).isSome)
  (hbody : (visitor n).statements loop.statements (loop.setTo u current) = .ok a w)

include hin hheld hbody

/-- The points of a visit that completes are among those of the loop, and so are the points of the
iterations after it. -/
theorem prefix_iterateLog : u.trace <+: w.trace ∧
    w.trace <+: (iterateLog (n + 1) loop current u).final.trace := by
  have hvisit := (visitor_keeps rules_balance n).statements loop.statements
    (loop.setTo u current)
  refine ⟨(wp_ok hvisit hbody).trace, ?_⟩
  rw [(iterateLog_bind hstop hne hheld).trans (bind_of_ok hbody)]
  -- What follows the visit passes points of its own only.
  apply wp_final (m := afterVisit n loop _) (P := fun t => w.trace <+: t.trace)
  simp only [afterVisit, getLoopVar, toIntOf, readStrings, wp_bind, wp_get, wp_modify, wp_pure]
  apply wp_lift _ (fun _ => ?_) fun _ => List.prefix_rfl
  apply wp_lift _ (fun next => ?_) fun _ => List.prefix_rfl
  exact wp_iterateLog ((hin.visit hbody).converting _) n next

variable (hun : loop.Unassigned u (iterateLog (n + 1) loop current u).final)

include hun

/-- The variable holds its value after the visit, and the counter advances by the step. -/
theorem iterateLog_step : loop.held w = some (.ofInt current) ∧
    iterateLog (n + 1) loop current u =
      (lift (Value.checkedInt (current.toInt + loop.step.toInt)) >>= fun next =>
        iterateLog n loop next >>= fun visited => pure (.ofInt current :: visited)) w := by
  obtain ⟨huw, hwt⟩ := prefix_iterateLog hstop hne hin hheld hbody
  have hvisit : loop.Unassigned u w := ((forall_passed_trans huw hwt).mp hun).1
  have hkept := held_visit hheld hbody hvisit
  exact ⟨hkept, ((iterateLog_bind hstop hne hheld).trans (bind_of_ok hbody)).trans
    (afterVisit_of_held hkept _)⟩

/-- And the iterations after it do not assign the variable. -/
theorem unassigned_next {next : Int32}
    (hnext : Value.checkedInt (current.toInt + loop.step.toInt) = .ok next) :
    loop.Unassigned w (iterateLog n loop next w).final := by
  obtain ⟨huw, hwt⟩ := prefix_iterateLog hstop hne hin hheld hbody
  have hstep := (iterateLog_step hstop hne hin hheld hbody hun).2
  have hrest := ((forall_passed_trans huw hwt).mp hun).2
  rw [hstep, hnext] at hrest
  have hfinal : ((lift (.ok next : Except Fault Int32) >>= fun next =>
      iterateLog n loop next >>= fun visited => pure (.ofInt current :: visited)) w).final =
      (iterateLog n loop next w).final := by
    show ((iterateLog n loop next >>= fun visited => pure (.ofInt current :: visited)) w).final = _
    cases hr : iterateLog n loop next w with
    | ok visited t =>
      rw [bind_of_ok hr]
      rfl
    | error e t => rw [bind_of_error hr]
  rwa [hfinal] at hrest

end Iteration

/-! ## The values that are visited -/

/-- The number that a loop variable holds. -/
def heldInt (v : Value) : ℤ :=
  match v.value_ with
  | .int i => i.toInt
  | _ => 0

/-- A number, as the value that a loop variable holds. -/
def intValue (i : ℤ) : Value := .ofInt (.ofInt i)

theorem toInt_of_checkedInt {i : ℤ} {next : Int32} (h : Value.checkedInt i = .ok next) :
    next.toInt = i := by
  unfold Value.checkedInt at h
  split_ifs at h with hrange
  cases h
  unfold intMin intMax at hrange
  exact Int32.toInt_ofInt_of_le (by omega) (by omega)

/-- **What a `FOR` that ends has visited**: the numbers from the first on, in steps, up to the last
one, which the steps reach. -/
theorem visited_of_iterateLog {stop : Int32} (hstop : loop.stop.toInt = .ok stop)
    {visited : List Value} (hin : s.InLoop loop u) (hheld : (loop.held u).isSome)
    (hun : loop.Unassigned u (iterateLog n loop current u).final)
    (hrun : iterateLog n loop current u = .ok visited w) :
    ∃ m : ℕ, stop.toInt = current.toInt + m * loop.step.toInt ∧
      visited.map heldInt = progression current.toInt loop.step.toInt m ∧
      s.InLoop loop w ∧ (loop.held w).isSome := by
  induction n generalizing current u visited with
  | zero => cases hrun
  | succ n ih =>
    by_cases hne : current = stop
    · subst hne
      rw [iterateLog_stop hstop] at hrun
      cases hrun
      exact ⟨0, by simp, rfl, hin.converting _, hheld⟩
    · obtain ⟨a, t, hbody, -⟩ := bind_eq_ok.mp ((iterateLog_bind hstop hne hheld).symm.trans hrun)
      obtain ⟨hkept, hstep⟩ := iterateLog_step hstop hne hin hheld hbody hun
      obtain ⟨next, t₁, hlift, hiterate⟩ := bind_eq_ok.mp (hstep.symm.trans hrun)
      obtain ⟨hnext, rfl⟩ := lift_eq_ok.mp hlift
      obtain ⟨rest, t', hrest, hcons⟩ := bind_eq_ok.mp hiterate
      cases hcons
      -- The rest of the iterations begins one step further.
      obtain ⟨m, hm, hvisited, hw⟩ := ih (hin.visit hbody) (by rw [hkept]; rfl)
        (unassigned_next hstop hne hin hheld hbody hun hnext) hrest
      rw [toInt_of_checkedInt hnext] at hm hvisited
      refine ⟨m + 1, ?_, ?_, hw⟩
      · rw [hm]
        push_cast
        ring
      · rw [List.map_cons, hvisited, progression_succ]
        rfl

/-- What holds with one more unit of fuel, from some fuel on, holds from some fuel on. -/
theorem eventually_succ_iff {P : ℕ → Prop} : (∀ᶠ n in atTop, P (n + 1)) ↔ ∀ᶠ n in atTop, P n := by
  conv_rhs => rw [← Filter.map_add_atTop_eq_nat 1, Filter.eventually_map]

/-- The body, visited with the variable set to the numbers one after the other, completes. Between
the visits for the last two of them `end.toInt()` is called twice. -/
inductive Completes (loop : ForLoop) : List ℤ → Machine → Prop
  | nil (u : Machine) : Completes loop [] u
  | last {i : ℤ} {u w : Machine} {a : AnyVal} :
      (∀ᶠ n in atTop, (visitor n).statements loop.statements
        (loop.setTo (u.converting loop.stop) (.ofInt i)) = .ok a w) → Completes loop [i] u
  | cons {i : ℤ} {rest : List ℤ} {u w : Machine} {a : AnyVal} : rest ≠ [] →
      (∀ᶠ n in atTop, (visitor n).statements loop.statements (loop.setTo u (.ofInt i)) = .ok a w) →
      Completes loop rest w → Completes loop (i :: rest) u

/-- The first of several visits. -/
theorem Completes.first {i : ℤ} {rest : List ℤ} (h : Completes loop (i :: rest) u)
    (hrest : rest ≠ []) : ∃ a w, (∀ᶠ n in atTop, (visitor n).statements loop.statements
      (loop.setTo u (.ofInt i)) = .ok a w) ∧ Completes loop rest w := by
  cases h with
  | last => exact absurd rfl hrest
  | cons _ hbody hcomp => exact ⟨_, _, hbody, hcomp⟩

/-- The last visit. -/
theorem Completes.only {i : ℤ} (h : Completes loop [i] u) : ∃ a w, ∀ᶠ n in atTop,
    (visitor n).statements loop.statements
      (loop.setTo (u.converting loop.stop) (.ofInt i)) = .ok a w := by
  cases h with
  | last hbody => exact ⟨_, _, hbody⟩
  | cons hrest => exact absurd rfl hrest

/-- **A `FOR` whose steps reach its last value** visits the numbers before it, where the body
completes for them. -/
theorem iterateLog_of_completes {stop : Int32} (hstop : loop.stop.toInt = .ok stop) {m : ℕ}
    {last : ℤ} (hpos : m ≠ 0 → 0 < loop.step.toInt)
    (hm : stop.toInt = current.toInt + m * loop.step.toInt) (hin : s.InLoop loop u)
    (hheld : (loop.held u).isSome)
    (hun : ∀ᶠ n in atTop, loop.Unassigned u (iterateLog n loop current u).final)
    (hcomp : Completes loop (progression current.toInt loop.step.toInt m ++ [last]) u) :
    ∃ w, s.InLoop loop w ∧ (loop.held w).isSome ∧
      (∃ a t, ∀ᶠ n in atTop, (visitor n).statements loop.statements
        (loop.setTo w (.ofInt last)) = .ok a t) ∧
      ∀ᶠ n in atTop, iterateLog n loop current u =
        .ok ((progression current.toInt loop.step.toInt m).map intValue) w := by
  induction m generalizing current u with
  | zero =>
    obtain rfl : current = stop := Int32.toInt_inj.mp (by simpa using hm.symm)
    exact ⟨u.converting loop.stop, hin.converting _, hheld, hcomp.only,
      eventually_succ_iff.mp (.of_forall fun n => iterateLog_stop hstop)⟩
  | succ m ih =>
    have hstep := hpos m.succ_ne_zero
    have hmul := Int.mul_nonneg (Int.natCast_nonneg m) hstep.le
    push_cast [add_mul, one_mul] at hm
    -- The counter is below the last value, and so is the next one or there.
    have hne : current ≠ stop := by
      rintro rfl
      omega
    have hlt := stop.toInt_lt
    have hge := current.le_toInt
    have hnext : Value.checkedInt (current.toInt + loop.step.toInt) =
        .ok (.ofInt (current.toInt + loop.step.toInt)) :=
      if_pos (by unfold intMin intMax; omega)
    have hnextInt := toInt_of_checkedInt hnext
    rw [progression_succ, List.cons_append] at hcomp
    obtain ⟨a, w, hbody, hrest⟩ := hcomp.first (by simp)
    rw [Int32.ofInt_toInt] at hbody
    have hun' := eventually_succ_iff.mpr hun
    obtain ⟨n₀, hbody₀, hun₀⟩ := (hbody.and hun').exists
    have hkept := (iterateLog_step hstop hne hin hheld hbody₀ hun₀).1
    have hunNext : ∀ᶠ n in atTop, loop.Unassigned w
        (iterateLog n loop (.ofInt (current.toInt + loop.step.toInt)) w).final := by
      filter_upwards [hbody, hun'] with n hb hu
      exact unassigned_next hstop hne hin hheld hb hu hnext
    obtain ⟨t, htin, htheld, htlast, hrun⟩ := ih (fun _ => hstep) (by rw [hnextInt, hm]; ring)
      (hin.visit hbody₀) (by rw [hkept]; rfl) hunNext (by rw [hnextInt]; exact hrest)
    refine ⟨t, htin, htheld, htlast, eventually_succ_iff.mp ?_⟩
    filter_upwards [hbody, hun', hrun] with n hb hu hr
    rw [(iterateLog_step hstop hne hin hheld hb hu).2, hnext]
    apply (bind_of_ok hr).trans
    rw [hnextInt, progression_succ, List.map_cons, intValue, Int32.ofInt_toInt]
    rfl

end Variable

/-! ## The step -/

/-- The number that is written after `STEP`, or 1 without a `STEP`. -/
def StepDenotes (step : Option Str) (k : ℕ) : Prop :=
  match step with
  | none => k = 1
  | some text => (∀ c ∈ text, c.isDigit = true) ∧ digitsValue 0 text = k

/-- The step that is read. -/
def stepRead (step : Option Str) (errno : Bool) : Int32 :=
  match step with
  | none => 1
  | some text => .ofInt (toNumber intMin intMax text errno).1

/-- A step is read as the number it denotes, unless `errno` is set or the number is no `int`. -/
theorem stepRead_eq_iff {step : Option Str} {k : ℕ} (hk : 1 ≤ k) (h : StepDenotes step k)
    (errno : Bool) : (stepRead step errno).toInt = k ↔
      step = none ∨ errno = false ∧ (k : ℤ) ≤ intMax := by
  cases step with
  | none =>
    obtain rfl : k = 1 := h
    exact iff_of_true rfl (.inl rfl)
  | some text =>
    obtain ⟨hdigits, rfl⟩ := h
    have hread : (stepRead (some text) errno).toInt =
        if errno = true ∨ longMax < (digitsValue 0 text : ℤ) then 0
        else if intMax < (digitsValue 0 text : ℤ) then intMax else digitsValue 0 text := by
      rw [stepRead, toNumber_digits hdigits]
      apply Int32.toInt_ofInt_of_le <;> · unfold intMax longMax; split_ifs <;> omega
    rw [hread]
    cases errno with
    | true => simp; omega
    | false =>
      simp only [Bool.false_eq_true, false_or, reduceCtorEq, true_and]
      unfold intMax longMax
      split_ifs <;> omega

/-! ## The statement -/

/-- What a `FOR` evaluates before it begins: the step, and the two bounds. -/
def forHead (v : Visitor) (e₀ e₁ : Expr) (step : Option Str) : Eval (Int32 × Value × Value) := do
  let step ← forStep step
  let start ← visitOperand v e₀
  let stop ← visitOperand v e₁
  return (step, start, stop)

/-- And what it does then. -/
def forTail (v : Visitor) (id : Str) (statements : List Stmt) (head : Int32 × Value × Value) :
    Eval AnyVal := do
  let ec := (← get).ec
  let loop : ForLoop :=
    ⟨ec.module, (ec.scopes ec.module).length, id, head.2.2, head.1, statements⟩
  note (.loopVar id)
  pushScope loop.owner (Scope.insertOrAssign ⟨forText ++ id, ∅⟩ id head.2.1)
  modify (Machine.openBlock · (.loop id))
  runLoop v loop head.2.1
  modify Machine.closeBlock
  popScope loop.owner
  return .empty

theorem visitForStatement_eq (v : Visitor) (id : Str) (e₀ e₁ : Expr) (step : Option Str)
    (statements : List Stmt) : visitForStatement v id e₀ e₁ step statements =
      forHead v e₀ e₁ step >>= forTail v id statements := by
  simp only [visitForStatement, forHead, forTail, bind_assoc, pure_bind]

/-- The `FOR` that begins in a state. -/
def Machine.forLoop (t : Machine) (id : Str) (stop : Value) (step : Int32)
    (statements : List Stmt) : ForLoop :=
  ⟨t.ec.module, (t.ec.scopes t.ec.module).length, id, stop, step, statements⟩

section Statement

variable {id : Str} {e₀ e₁ : Expr} {step : Option Str} {statements : List Stmt} {s t u w : Machine}
  {k : Int32} {start stop : Value} {n : ℕ}

theorem forHead_step {v : Visitor} (h : forHead v e₀ e₁ step s = .ok (k, start, stop) t) :
    k = stepRead step s.errno := by
  have hstep : ∃ s₁, forStep step s = .ok (stepRead step s.errno) s₁ := by
    cases step with
    | none => exact ⟨_, rfl⟩
    | some text => exact ⟨_, rfl⟩
  obtain ⟨s₁, hs₁⟩ := hstep
  obtain ⟨_, s₂, -, hlast⟩ := bind_eq_ok.mp ((bind_of_ok hs₁).symm.trans h)
  obtain ⟨_, s₃, -, hend⟩ := bind_eq_ok.mp hlast
  cases hend
  rfl

theorem visitForStatement_of_head {v : Visitor}
    (h : forHead v e₀ e₁ step s = .ok (k, start, stop) t) :
    visitForStatement v id e₀ e₁ step statements s =
      (runLoop v (t.forLoop id stop k statements) start >>= fun _ => do
        modify Machine.closeBlock
        popScope t.ec.module
        return AnyVal.empty) (t.enterLoop (t.forLoop id stop k statements) start) := by
  rw [visitForStatement_eq]
  exact bind_of_ok h

theorem final_discard {α : Type} (m : Eval α) (u : Machine) :
    ((do let _ ← m; return : Eval Unit) u).final = (m u).final := by
  cases h : m u with
  | ok a t => exact congrArg Result.final (bind_of_ok h)
  | error e t => exact congrArg Result.final (bind_of_error h)

/-- The last visit of the body, after those of the iterations. -/
def lastVisit (n : ℕ) (loop : ForLoop) (visited : List Value) : Eval (List Value) := do
  setLoopVar loop (← toIntOf loop.stop)
  let held ← getLoopVar loop
  let _ ← (visitor n).statements loop.statements
  return visited ++ [held]

variable {loop : ForLoop} {i j : Int32} {visited : List Value} (hi : start.toInt = .ok i)
  (hj : loop.stop.toInt = .ok j)

include hi in
theorem runLoopLog_bind : runLoopLog n loop start u =
    (iterateLog (n + 1) loop i >>= lastVisit n loop) (u.converting start) := by
  rw [runLoopLog, bind_of_ok (toIntOf_of_ok hi u)]
  rfl

include hj in
theorem lastVisit_bind (hheld : (loop.held w).isSome) : lastVisit n loop visited w =
    ((visitor n).statements loop.statements >>= fun _ =>
      pure (visited ++ [intValue j.toInt])) (loop.setTo w j) := by
  have hset : (loop.held (loop.setTo w j)).getD Value.default = intValue j.toInt := by
    rw [held_setTo hheld, intValue, Int32.ofInt_toInt]
    rfl
  rw [lastVisit, bind_of_ok (toIntOf_of_ok hj w), ← hset]
  rfl

include hi hj in
/-- The iterations of a loop that does not assign its variable do not assign it. -/
theorem unassigned_iterateLog (hin : s.InLoop loop u)
    (hun : loop.Unassigned u (runLoop (visitor n) loop start u).final) :
    loop.Unassigned (u.converting start)
      (iterateLog (n + 1) loop i (u.converting start)).final := by
  rw [runLoop_eq_log, final_discard, runLoopLog_bind hi] at hun
  cases hrun : iterateLog (n + 1) loop i (u.converting start) with
  | error e w =>
    rw [bind_of_error hrun] at hun
    exact hun
  | ok visited w =>
    rw [bind_of_ok hrun] at hun
    have huw : u.trace <+: w.trace :=
      wp_ok (wp_iterateLog (hin.converting start) (n + 1) i) hrun
    -- The points of the last visit come after those of the iterations.
    have hlast : w.trace <+: (lastVisit n loop visited w).final.trace := by
      apply wp_final (m := lastVisit n loop visited) (P := fun t => w.trace <+: t.trace)
      simp only [lastVisit, toIntOf, readStrings, hj, lift, setLoopVar, getLoopVar, wp_bind, wp_get,
        wp_modify, wp_pure]
      exact wp_mono ((visitor_keeps rules_balance n).statements _ (loop.setTo w j))
        (fun _ _ ht => ht.trace) fun _ _ ht => ht.trace
    exact ((forall_passed_trans huw hlast).mp hun).1

include hi hj in
/-- A loop that ends has visited a progression that ends at the last value. -/
theorem visited_of_runLoopLog (hin : s.InLoop loop u) (hheld : (loop.held u).isSome)
    (hun : loop.Unassigned u (runLoop (visitor n) loop start u).final)
    (hrun : runLoopLog n loop start u = .ok visited w) :
    ∃ m : ℕ, j.toInt = i.toInt + m * loop.step.toInt ∧
      visited.map heldInt = progression i.toInt loop.step.toInt (m + 1) := by
  rw [runLoopLog_bind hi] at hrun
  have hun' := unassigned_iterateLog hi hj hin hun
  obtain ⟨before, t, hiterate, hlast⟩ := bind_eq_ok.mp hrun
  obtain ⟨m, hm, hbefore, -, hheld'⟩ :=
    visited_of_iterateLog hj (hin.converting start) hheld hun' hiterate
  rw [lastVisit_bind hj hheld'] at hlast
  obtain ⟨a, t', -, hconcat⟩ := bind_eq_ok.mp hlast
  cases hconcat
  refine ⟨m, hm, ?_⟩
  rw [List.map_append, hbefore, progression_concat, ← hm, List.map_singleton, intValue,
    Int32.ofInt_toInt]
  rfl

end Statement

/-- The numbers of a `FOR` fit an `int`. -/
theorem map_heldInt_upTo {i j : Int32} {k : ℕ} (hk : 1 ≤ k) :
    ((upTo i.toInt j.toInt k).map intValue).map heldInt = upTo i.toInt j.toInt k := by
  rw [List.map_map]
  refine (List.map_congr_left (g := id) fun x hx => ?_).trans (List.map_id _)
  obtain ⟨l, rfl, hle⟩ := (mem_upTo_iff (by omega)).mp hx
  have hmul := Int.mul_nonneg (Int.natCast_nonneg l) (Int.natCast_nonneg k)
  have hlt := j.toInt_lt
  have hge := i.le_toInt
  exact Int32.toInt_ofInt_of_le (by omega) (by omega)

/-- Between equal bounds, and where the step divides their distance, the steps that are taken reach
the last value. -/
theorem exists_steps {i j step : Int32} {k : ℕ} (hk : (0 : ℤ) < k)
    (h : i = j ∨ i.toInt ≤ j.toInt ∧ (k : ℤ) ∣ j.toInt - i.toInt ∧ step.toInt = k) :
    ∃ m : ℕ, (m ≠ 0 → 0 < step.toInt) ∧ j.toInt = i.toInt + m * step.toInt ∧
      upTo i.toInt j.toInt k = progression i.toInt step.toInt m ++ [j.toInt] := by
  rcases h with rfl | ⟨hle, hdvd, heq⟩
  · refine ⟨0, fun h => absurd rfl h, by simp, ?_⟩
    rw [upTo_self]
    rfl
  · obtain ⟨m, hm, hupTo⟩ := upTo_of_dvd hk hle hdvd
    rw [heq]
    refine ⟨m, fun _ => hk, hm, ?_⟩
    rw [hupTo, progression_concat, ← hm]

/-- **A `FOR` visits the values it is meant to visit**, in order and with its variable holding
them, ends without an overflow and pops its scope, exactly when its bounds are equal, or the first
is below the second, the step divides their distance and is read as it is written. The body may do
anything that does not assign the loop variable, and completes for the values that are meant. -/
theorem for_counts_iff (id : Str) (e₀ e₁ : Expr) (step : Option Str) (statements : List Stmt)
    (s t : Machine) (step' : Int32) (start stop : Value) (i j : Int32) (k : ℕ)
    (hk : 1 ≤ k) (hstep : StepDenotes step k)
    (hhead : ∀ᶠ n in atTop, forHead (visitor n) e₀ e₁ step s = .ok (step', start, stop) t)
    (hi : start.toInt = .ok i) (hj : stop.toInt = .ok j)
    (hun : ∀ᶠ n in atTop, (t.forLoop id stop step' statements).Unassigned
      (t.enterLoop (t.forLoop id stop step' statements) start)
      (runLoop (visitor n) (t.forLoop id stop step' statements) start
        (t.enterLoop (t.forLoop id stop step' statements) start)).final)
    (hcomp : Completes (t.forLoop id stop step' statements) (upTo i.toInt j.toInt k)
      ((t.enterLoop (t.forLoop id stop step' statements) start).converting start)) :
    (∀ᶠ n in atTop, ∃ u u',
      visitForStatement (visitor n) id e₀ e₁ step statements s = .ok .empty u ∧
      runLoopLog n (t.forLoop id stop step' statements) start
        (t.enterLoop (t.forLoop id stop step' statements) start) =
          .ok ((upTo i.toInt j.toInt k).map intValue) u' ∧
      ∀ key, u.ec.fnNames key = s.ec.fnNames key) ↔
    i = j ∨ i.toInt ≤ j.toInt ∧ (k : ℤ) ∣ j.toInt - i.toInt ∧
      (step = none ∨ s.errno = false ∧ (k : ℤ) ≤ intMax) := by
  obtain ⟨n₀, hhead₀⟩ := hhead.exists
  have hread : step'.toInt = k ↔ step = none ∨ s.errno = false ∧ (k : ℤ) ≤ intMax := by
    rw [forHead_step hhead₀]
    exact stepRead_eq_iff hk hstep s.errno
  have hkpos : (0 : ℤ) < k := by omega
  set loop := t.forLoop id stop step' statements
  set u₀ := t.enterLoop loop start
  have hin : t.InLoop loop u₀ := t.inLoop_enterLoop loop start rfl rfl
  have hheld : (loop.held u₀).isSome := by
    rw [ForLoop.held, Machine.cell_enterLoop _ rfl rfl, if_pos (strcasecmp_self _)]
    rfl
  have hj' : loop.stop.toInt = .ok j := hj
  rw [← hread]
  constructor
  · intro hcounts
    -- The values that are visited are in steps, and they are those that are meant.
    obtain ⟨n, ⟨u, u', -, hrun, -⟩, hun'⟩ := (hcounts.and hun).exists
    obtain ⟨m, hm, hvisited⟩ := visited_of_runLoopLog hi hj' hin hheld hun' hrun
    rw [map_heldInt_upTo hk] at hvisited
    rcases eq_or_dvd_of_upTo hkpos hm hvisited.symm with heq | hdvd
    · exact .inl (Int32.toInt_inj.mp heq)
    · exact .inr hdvd
  · intro hcond
    obtain ⟨m, hpos, hm, hupTo⟩ := exists_steps hkpos hcond
    rw [hupTo] at hcomp ⊢
    have hun' : ∀ᶠ n in atTop, loop.Unassigned (u₀.converting start)
        (iterateLog n loop i (u₀.converting start)).final :=
      eventually_succ_iff.mp (hun.mono fun n h => unassigned_iterateLog hi hj' hin h)
    obtain ⟨w, -, hheldw, ⟨a, w', hbody⟩, hiterate⟩ :=
      iterateLog_of_completes hj' hpos hm (hin.converting start) hheld hun' hcomp
    rw [Int32.ofInt_toInt] at hbody
    filter_upwards [hhead, hbody, eventually_succ_iff.mpr hiterate] with n hhead' hbody' hiterate'
    have hlog : runLoopLog n loop start u₀ =
        .ok ((progression i.toInt step'.toInt m ++ [j.toInt]).map intValue) w' := by
      rw [runLoopLog_bind hi, bind_of_ok hiterate', lastVisit_bind hj' hheldw,
        bind_of_ok hbody', List.map_append, List.map_singleton]
      rfl
    have hrun : runLoop (visitor n) loop start u₀ = .ok ⟨⟩ w' := by
      rw [runLoop_eq_log, bind_of_ok hlog]
      rfl
    have hvisit : visitForStatement (visitor n) id e₀ e₁ step statements s =
        .ok .empty (w'.exitLoop loop) :=
      (visitForStatement_of_head hhead').trans (bind_of_ok hrun)
    have hreturns := wp_ok (keepsStmt_visitForStatement rules_balance
      (visitor_keeps rules_balance n) id e₀ e₁ step statements s) hvisit
    exact ⟨_, w', hvisit, hlog, hreturns.fnNames_eq⟩

/-! ## Two `FOR`s -/

theorem eventually_of_add {P : ℕ → Prop} (c : ℕ) (h : ∀ n, P (n + c)) : ∀ᶠ n in atTop, P n := by
  rw [Filter.eventually_atTop]
  refine ⟨c, fun n hn => ?_⟩
  obtain ⟨m, rfl⟩ := Nat.exists_eq_add_of_le' hn
  exact h m

/-- The bounds and the step of `FOR i = 1 TO 3 STEP 2`. -/
def oddHead : Result Fault Machine (Int32 × Value × Value) :=
  forHead (visitor 1) (.int ['1']) (.int ['3']) (some ['2'])
    (Machine.start Context.init fun _ => .invalid)

/-- This `FOR`, with the body `r = i`. -/
def oddLoop : ForLoop :=
  oddHead.final.forLoop ['i'] (.ofInt 3) 2 [.assignExpr ['r'] (.ident ['i'])]

/-- The state in which it begins. -/
def oddStart : Machine := oddHead.final.enterLoop oddLoop (.ofInt 1)

/-- The state after a visit of its body. -/
def oddVisit (u : Machine) (i : Int32) : Machine :=
  ((visitor 2).statements oddLoop.statements (oddLoop.setTo u i)).final

/-- Two nested visits are enough for the body. -/
theorem oddVisit_eq {u : Machine} {i : Int32}
    (h : ((visitor 2).statements oddLoop.statements (oddLoop.setTo u i)).error? = none) :
    ∃ a, ∀ n, (visitor (n + 2)).statements oddLoop.statements (oddLoop.setTo u i) =
      .ok a (oddVisit u i) := by
  obtain ⟨a, w, hrun⟩ := Result.exists_ok h
  refine ⟨a, fun n => ?_⟩
  have hfuel : (visitor (n + 2)).statements oddLoop.statements (oddLoop.setTo u i) =
      (visitor 2).statements oddLoop.statements (oddLoop.setTo u i) := rfl
  rw [hfuel, hrun, oddVisit, hrun]
  rfl

theorem for_counts_odd : ∀ᶠ n in atTop, ∃ u u',
    visitForStatement (visitor n) ['i'] (.int ['1']) (.int ['3']) (some ['2'])
      [.assignExpr ['r'] (.ident ['i'])] (Machine.start Context.init fun _ => .invalid) =
        .ok .empty u ∧
    runLoopLog n oddLoop (.ofInt 1) oddStart = .ok ([1, 3].map intValue) u' ∧
    ∀ key, u.ec.fnNames key =
      (Machine.start Context.init fun _ => .invalid).ec.fnNames key := by
  have hvalues : upTo (1 : Int32).toInt (3 : Int32).toInt ((2 : ℕ) : ℤ) = [1, 3] := by decide
  have hhead : ∀ᶠ n in atTop, forHead (visitor n) (.int ['1']) (.int ['3']) (some ['2'])
      (Machine.start Context.init fun _ => .invalid) =
        .ok (2, .ofInt 1, .ofInt 3) oddHead.final := eventually_of_add 1 fun n => rfl
  obtain ⟨a, ha⟩ := oddVisit_eq (u := oddStart) (i := 1) (by decide +kernel)
  obtain ⟨a', ha'⟩ := oddVisit_eq (u := oddVisit oddStart 1) (i := 3) (by decide +kernel)
  have hstop : ∀ u : Machine, u.converting oddLoop.stop = u := fun u => u.converting_ofInt 3
  have hcomp : Completes oddLoop [1, 3] (oddStart.converting (.ofInt 1)) := by
    rw [Machine.converting_ofInt]
    have hlast : Completes oddLoop [3] (oddVisit oddStart 1) :=
      .last (by rw [hstop]; exact eventually_of_add 2 ha')
    exact .cons (by simp) (eventually_of_add 2 ha) hlast
  have hun : ∀ᶠ n in atTop, oddLoop.Unassigned oddStart
      (runLoop (visitor n) oddLoop (.ofInt 1) oddStart).final := by
    apply eventually_of_add 2
    intro n
    have hheld : oddLoop.held (oddVisit oddStart 1) = some (.ofInt 1) := by decide +kernel
    have hiterate : iterateLog (n + 3) oddLoop 1 oddStart =
        .ok [.ofInt 1] (oddVisit oddStart 1) := by
      have hlast : iterateLog (n + 2) oddLoop 3 (oddVisit oddStart 1) =
          .ok [] (oddVisit oddStart 1) := (iterateLog_stop rfl).trans (by rw [hstop])
      have hnext : Value.checkedInt ((1 : Int32).toInt + oddLoop.step.toInt) = .ok 3 := rfl
      rw [(iterateLog_bind rfl (by decide) (by decide +kernel)).trans (bind_of_ok (ha n)),
        afterVisit_of_held hheld, hnext, lift, pure_bind, bind_of_ok hlast]
      rfl
    rw [runLoop_eq_log, final_discard, runLoopLog_bind rfl, Machine.converting_ofInt,
      bind_of_ok hiterate,
      lastVisit_bind rfl (by rw [hheld]; rfl), bind_of_ok (ha' n)]
    show oddLoop.Unassigned oddStart (oddVisit (oddVisit oddStart 1) 3)
    unfold ForLoop.Unassigned
    decide +kernel
  have hiff := for_counts_iff ['i'] (.int ['1']) (.int ['3']) (some ['2'])
    [.assignExpr ['r'] (.ident ['i'])] (Machine.start Context.init fun _ => .invalid)
    oddHead.final 2 (.ofInt 1) (.ofInt 3) 1 3 2 (by decide) ⟨by decide, rfl⟩ hhead rfl rfl hun
    (hvalues ▸ hcomp)
  rw [hvalues] at hiff
  exact hiff.mpr (.inr ⟨by decide, by decide, .inr ⟨rfl, by decide⟩⟩)

/-- `FOR i = 2147483647 TO 1` visits its body, and the counter overflows. -/
theorem for_overflows :
    let s := Machine.start Context.init fun _ => .invalid
    (∃ t, forHead (visitor 5) (.int "2147483647".toList) (.int ['1']) none s =
      .ok (1, .ofInt 2147483647, .ofInt 1) t) ∧
    upTo 2147483647 1 1 = [] ∧
    (visitForStatement (visitor 5) ['i'] (.int "2147483647".toList) (.int ['1']) none []
      s).error? = some .overflow :=
  ⟨⟨_, rfl⟩, rfl, rfl⟩

end WwivBasic
