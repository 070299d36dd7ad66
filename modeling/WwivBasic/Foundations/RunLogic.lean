import Mathlib.Data.List.Forall2
import Mathlib.Data.Option.Basic

/-!
# A logic for runs with a state and failures

Rules for computations of `EStateM ε σ`. A run keeps its state when it stops with an error, so a
postcondition has two parts, one for completed and one for stopped runs. The rules for one run
follow the weakest precondition; the rules for two runs side by side relate their states, their
results and the way they end.

## Main definitions

* `Except.wp`: a completed computation meets one condition, a failed one another
* `EStateM.Result.final`, `EStateM.Result.error?`: where and how a run ended
* `EStateM.wp m Q F s`: from `s`, a completed run of `m` meets `Q` and a stopped run meets `F`
* `EStateM.Lockstep R A m m'`: from states related by `R`, the two runs end alike, in related
  states and with results related by `A`
* `EStateM.Mirrors E A x r`: the run that ended in `r` ends as the computation `x` does

## Main results

* `bind_of_ok`, `bind_of_error`, `bind_eq_ok`: what a run in sequence does, from its first part
* `wp_bind`, `wp_mono`: sequencing and consequence
* `Lockstep.bind`, `Lockstep.bind_eq`: sequencing of two runs
* `Mirrors.bind`, `Mirrors.bind_ok`: sequencing of a run and a computation without a state
-/

universe u

/-! ## Computations without a state -/

namespace Except

variable {ε α β : Type u}

/-- A completed computation meets `Q` and a failed one meets `F`. -/
def wp (x : Except ε α) (Q : α → Prop) (F : ε → Prop) : Prop :=
  match x with
  | .ok a => Q a
  | .error e => F e

variable {Q Q' : α → Prop} {F : ε → Prop}

@[simp] theorem wp_pure (a : α) : wp (pure a : Except ε α) Q F ↔ Q a := Iff.rfl

@[simp] theorem wp_ok (a : α) : wp (.ok a : Except ε α) Q F ↔ Q a := Iff.rfl

@[simp] theorem wp_error (e : ε) : wp (.error e : Except ε α) Q F ↔ F e := Iff.rfl

@[simp] theorem wp_bind {Q : β → Prop} (x : Except ε α) (f : α → Except ε β) :
    wp (x >>= f) Q F ↔ wp x (fun a => wp (f a) Q F) F := by
  cases x <;> rfl

@[simp] theorem wp_map {Q : β → Prop} (x : Except ε α) (f : α → β) :
    wp (x.map f) Q F ↔ wp x (fun a => Q (f a)) F := by
  cases x <;> rfl

theorem wp_mono {x : Except ε α} (h : wp x Q F) (hQ : ∀ a, Q a → Q' a) : wp x Q' F := by
  cases x
  · exact h
  · exact hQ _ h

/-- What holds of every result of the second computation, whatever the first one gives it. -/
theorem wp_bind_of_forall {Q : β → Prop} (x : Except ε α) {f : α → Except ε β}
    (hf : ∀ a, wp (f a) Q fun _ => True) : wp (x >>= f) Q fun _ => True := by
  cases x with
  | ok a => exact hf a
  | error e => trivial

theorem wp_ite {p : Prop} [Decidable p] {x y : Except ε α} (ht : p → wp x Q F)
    (hf : ¬p → wp y Q F) : wp (if p then x else y) Q F := by
  by_cases hp : p
  · rw [if_pos hp]
    exact ht hp
  · rw [if_neg hp]
    exact hf hp

theorem bind_eq_ok {x : Except ε α} {f : α → Except ε β} {b : β} :
    (x >>= f) = .ok b ↔ ∃ a, x = .ok a ∧ f a = .ok b := by
  cases x <;> simp [bind, Except.bind]

theorem map_eq_ok {x : Except ε α} {f : α → β} {b : β} :
    x.map f = .ok b ↔ ∃ a, x = .ok a ∧ f a = b := by
  cases x <;> simp [Except.map]

/-- The two computations end alike, with related values or one error. -/
inductive RelResult {α' : Type u} (A : α → α' → Prop) : Except ε α → Except ε α' → Prop
  | ok {a : α} {a' : α'} : A a a' → RelResult A (.ok a) (.ok a')
  | error (e : ε) : RelResult A (.error e) (.error e)

theorem RelResult.bind {α' β' : Type u} {A : α → α' → Prop} {B : β → β' → Prop}
    {x : Except ε α} {x' : Except ε α'} {f : α → Except ε β} {f' : α' → Except ε β'}
    (hx : RelResult A x x') (hf : ∀ a a', A a a' → RelResult B (f a) (f' a')) :
    RelResult B (x >>= f) (x' >>= f') := by
  cases hx with
  | ok h => exact hf _ _ h
  | error e => exact .error e

end Except

namespace EStateM

variable {ε ε' σ σ' α β α' β' : Type u}

/-! ## Results -/

/-- The state in which a run ended. -/
def Result.final : Result ε σ α → σ
  | .ok _ t => t
  | .error _ t => t

/-- The error with which a run stopped. -/
def Result.error? : Result ε σ α → Option ε
  | .ok _ _ => none
  | .error e _ => some e

theorem Result.exists_ok {r : Result ε σ α} (h : r.error? = none) : ∃ a t, r = .ok a t := by
  cases r with
  | ok a t => exact ⟨a, t, rfl⟩
  | error e t => cases h

theorem Result.exists_error {r : Result ε σ α} {e : ε} (h : r.error? = some e) :
    ∃ t, r = .error e t := by
  cases r with
  | ok a t => cases h
  | error e' t =>
    cases h
    exact ⟨t, rfl⟩

/-! ## Sequencing -/

section Bind

variable {m : EStateM ε σ α} {f : α → EStateM ε σ β} {s t : σ}

theorem bind_of_ok {a : α} (h : m s = .ok a t) : (m >>= f) s = f a t := by
  show EStateM.bind m f s = _
  rw [EStateM.bind, h]

theorem bind_of_error {e : ε} (h : m s = .error e t) : (m >>= f) s = .error e t := by
  show EStateM.bind m f s = _
  rw [EStateM.bind, h]

theorem bind_eq_ok {b : β} {u : σ} :
    (m >>= f) s = .ok b u ↔ ∃ a t, m s = .ok a t ∧ f a t = .ok b u := by
  constructor
  · intro h
    cases hm : m s with
    | ok a t => exact ⟨a, t, rfl, (bind_of_ok hm).symm.trans h⟩
    | error e t => cases (bind_of_error hm).symm.trans h
  · rintro ⟨a, t, hm, hf⟩
    exact (bind_of_ok hm).trans hf

end Bind

/-! ## One run -/

/-- From `s`, a completed run of `m` meets `Q` and a stopped run meets `F`. -/
def wp (m : EStateM ε σ α) (Q : α → σ → Prop) (F : ε → σ → Prop) (s : σ) : Prop :=
  match m s with
  | .ok a t => Q a t
  | .error e t => F e t

section Wp

variable {Q Q' : α → σ → Prop} {F F' : ε → σ → Prop} {s : σ}

@[simp] theorem wp_pure (a : α) : wp (pure a) Q F s ↔ Q a s := Iff.rfl

@[simp] theorem wp_throw (e : ε) : wp (throw e) Q F s ↔ F e s := Iff.rfl

@[simp] theorem wp_get {Q : σ → σ → Prop} : wp get Q F s ↔ Q s s := Iff.rfl

@[simp] theorem wp_modify {Q : PUnit → σ → Prop} (f : σ → σ) :
    wp (modify f) Q F s ↔ Q ⟨⟩ (f s) := Iff.rfl

@[simp] theorem wp_bind {Q : β → σ → Prop} (m : EStateM ε σ α) (f : α → EStateM ε σ β) :
    wp (m >>= f) Q F s ↔ wp m (fun a t => wp (f a) Q F t) F s := by
  unfold wp
  -- The bind of `EStateM` runs `f` where `m` completes, and passes on where `m` stops.
  show (match EStateM.bind m f s with | .ok a t => Q a t | .error e t => F e t) ↔ _
  unfold EStateM.bind
  cases m s <;> rfl

theorem wp_mono {m : EStateM ε σ α} (h : wp m Q F s) (hQ : ∀ a t, Q a t → Q' a t)
    (hF : ∀ e t, F e t → F' e t) : wp m Q' F' s := by
  unfold wp at h ⊢
  cases hm : m s <;> rw [hm] at h
  · exact hQ _ _ h
  · exact hF _ _ h

theorem wp_ok {m : EStateM ε σ α} (h : wp m Q F s) {a : α} {t : σ} (hm : m s = .ok a t) :
    Q a t := by
  unfold wp at h
  rwa [hm] at h

/-- What completed and stopped runs have in common holds of the state in which a run ended. -/
theorem wp_final {m : EStateM ε σ α} {P : σ → Prop} (h : wp m (fun _ t => P t) (fun _ t => P t) s) :
    P (m s).final := by
  unfold wp at h
  cases hm : m s <;> rw [hm] at h <;> exact h

theorem wp_error {m : EStateM ε σ α} (h : wp m Q F s) {e : ε} {t : σ} (hm : m s = .error e t) :
    F e t := by
  unfold wp at h
  rwa [hm] at h

end Wp

/-! ## Two runs -/

/-- The two results are of one kind, with related states and values and one error. -/
inductive RelResult (R : σ → σ' → Prop) (A : α → α' → Prop) :
    Result ε σ α → Result ε σ' α' → Prop
  | ok {a a' t t'} : A a a' → R t t' → RelResult R A (.ok a t) (.ok a' t')
  | error {e t t'} : R t t' → RelResult R A (.error e t) (.error e t')

/-- From related states the two runs end alike. -/
def Lockstep (R : σ → σ' → Prop) (A : α → α' → Prop) (m : EStateM ε σ α)
    (m' : EStateM ε σ' α') : Prop :=
  ∀ s s', R s s' → RelResult R A (m s) (m' s')

namespace Lockstep

variable {R : σ → σ' → Prop} {A : α → α' → Prop} {B : β → β' → Prop}

theorem of_pure {a : α} {a' : α'} (h : A a a') :
    Lockstep R A (pure a : EStateM ε σ α) (pure a' : EStateM ε σ' α') :=
  fun _ _ hs => .ok h hs

theorem of_throw (e : ε) :
    Lockstep R A (throw e : EStateM ε σ α) (throw e : EStateM ε σ' α') :=
  fun _ _ hs => .error hs

theorem of_get : Lockstep R R (get : EStateM ε σ σ) (get : EStateM ε σ' σ') :=
  fun _ _ hs => .ok hs hs

theorem of_modify {f : σ → σ} {f' : σ' → σ'} (h : ∀ s s', R s s' → R (f s) (f' s')) :
    Lockstep R Eq (modify f : EStateM ε σ PUnit) (modify f' : EStateM ε σ' PUnit) :=
  fun s s' hs => .ok rfl (h s s' hs)

theorem bind {m : EStateM ε σ α} {m' : EStateM ε σ' α'} {f : α → EStateM ε σ β}
    {f' : α' → EStateM ε σ' β'} (hm : Lockstep R A m m')
    (hf : ∀ a a', A a a' → Lockstep R B (f a) (f' a')) :
    Lockstep R B (m >>= f) (m' >>= f') := by
  intro s s' hs
  show RelResult R B (EStateM.bind m f s) (EStateM.bind m' f' s')
  unfold EStateM.bind
  have h := hm s s' hs
  revert h
  cases m s <;> cases m' s' <;> rintro ⟨⟩
  · exact hf _ _ ‹_› _ _ ‹_›
  · exact .error ‹_›

/-- Two runs that start with the same computation of a result. -/
theorem bind_eq {m : EStateM ε σ α} {m' : EStateM ε σ' α} {f : α → EStateM ε σ β}
    {f' : α → EStateM ε σ' β'} (hm : Lockstep R Eq m m')
    (hf : ∀ a, Lockstep R B (f a) (f' a)) : Lockstep R B (m >>= f) (m' >>= f') :=
  hm.bind fun a _ h => h ▸ hf a

/-- What related results and states have in common. -/
theorem final {m : EStateM ε σ α} {m' : EStateM ε σ' α'} (h : Lockstep R A m m') {s : σ} {s' : σ'}
    (hs : R s s') : (m s).error? = (m' s').error? ∧ R (m s).final (m' s').final := by
  have hr := h s s' hs
  revert hr
  cases m s <;> cases m' s' <;> rintro ⟨⟩
  · exact ⟨rfl, ‹_›⟩
  · exact ⟨rfl, ‹_›⟩

end Lockstep

/-! ## A run and a computation without a state -/

/-- The run completes where the computation does, in a state and with a result that `A` relates to
the value, and it stops with the error, as `E` passes it on, where the computation fails. -/
inductive Mirrors (E : ε' → ε) (A : α' → α → σ → Prop) : Except ε' α' → Result ε σ α → Prop
  | ok {a' : α'} {a : α} {t : σ} : A a' a t → Mirrors E A (.ok a') (.ok a t)
  | error {e : ε'} {t : σ} : Mirrors E A (.error e) (.error (E e) t)

namespace Mirrors

variable {E : ε' → ε} {A : α' → α → σ → Prop} {B : β' → β → σ → Prop} {x : Except ε' α'}
  {m : EStateM ε σ α} {f : α → EStateM ε σ β} {f' : α' → Except ε' β'} {s : σ}

theorem bind (h : Mirrors E A x (m s))
    (hf : ∀ a' a t, x = .ok a' → A a' a t → Mirrors E B (f' a') (f a t)) :
    Mirrors E B (x >>= f') ((m >>= f) s) := by
  generalize hr : m s = r at h
  cases h with
  | ok ha =>
    rw [bind_of_ok hr]
    exact hf _ _ _ rfl ha
  | error =>
    rw [bind_of_error hr]
    exact .error

/-- A step of the run alone. -/
theorem bind_ok {y : Except ε' β'} {a : α} {t : σ} (h : m s = .ok a t)
    (hf : Mirrors E B y (f a t)) : Mirrors E B y ((m >>= f) s) := by
  rwa [bind_of_ok h]

/-- What the run does, from what the computation says. -/
theorem wp {Q : α → σ → Prop} {F : ε → σ → Prop} (h : Mirrors E A x (m s))
    (hQ : ∀ a' a t, x = .ok a' → A a' a t → Q a t) (hF : ∀ e t, F (E e) t) :
    EStateM.wp m Q F s := by
  unfold EStateM.wp
  generalize m s = r at h
  cases h with
  | ok ha => exact hQ _ _ _ rfl ha
  | error => exact hF _ _

theorem ite {p : Prop} [Decidable p] {y : Except ε' α'} {m' : EStateM ε σ α}
    (ht : p → Mirrors E A x (m s)) (hf : ¬p → Mirrors E A y (m' s)) :
    Mirrors E A (if p then x else y) ((if p then m else m') s) := by
  by_cases hp : p
  · rw [if_pos hp, if_pos hp]
    exact ht hp
  · rw [if_neg hp, if_neg hp]
    exact hf hp

/-- A step of the computation alone, on a value. -/
theorem map {C : β' → α → σ → Prop} {g : α' → β'} {r : Result ε σ α} (h : Mirrors E A x r)
    (hg : ∀ a' a t, A a' a t → C (g a') a t) : Mirrors E C (x.map g) r := by
  cases h with
  | ok ha => exact .ok (hg _ _ _ ha)
  | error => exact .error

end Mirrors

end EStateM
