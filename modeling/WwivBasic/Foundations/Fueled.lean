import Mathlib.Order.Filter.AtTopBot.Basic
import WwivBasic.Foundations.RunLogic

/-!
# Runs with enough fuel

A family of computations, one for each amount of fuel, that stop with an error of their own where
the fuel is not enough. A run of the family ends where some amount of fuel, and every larger one,
gives one result that is not this error. That a run ends may depend on the states that it comes
through: `G` is a property of states that a state has if a later one has it.

## Main definitions

* `Ends out G m Q s`: the run of `m` from `s` ends if it keeps to `G`, and where it completes it
  meets `Q`
* `Inherited G m`: where a run of `m` keeps to `G`, it has begun with `G`

## Main results

* `Ends.bind`: sequencing
* `ends_succ`: one more unit of fuel changes nothing
* `Ends.loop`: a loop whose rounds go down in a measure
-/

universe u

namespace EStateM

open Filter (atTop)

variable {ε σ α β : Type u} {out : ε} {G : σ → Prop} {m : ℕ → EStateM ε σ α}
  {Q Q' : α → σ → Prop} {s : σ}

/-- With enough fuel the run has one result, which is not for want of fuel, and where it completes
it meets `Q`: if it keeps to `G` with enough fuel. -/
def Ends (out : ε) (G : σ → Prop) (m : ℕ → EStateM ε σ α) (Q : α → σ → Prop) (s : σ) : Prop :=
  (∀ᶠ n in atTop, G (m n s).final) → ∃ r : Result ε σ α, r.error? ≠ some out ∧
    (∀ᶠ n in atTop, m n s = r) ∧ ∀ a t, r = .ok a t → Q a t

/-- A run that keeps to `G` has begun with `G`. -/
def Inherited (G : σ → Prop) (m : EStateM ε σ α) : Prop := ∀ s, G (m s).final → G s

theorem Ends.mono (h : Ends out G m Q s) (hQ : ∀ a t, Q a t → Q' a t) : Ends out G m Q' s := by
  intro hG
  obtain ⟨r, hr, hm, hq⟩ := h hG
  exact ⟨r, hr, hm, fun a t hok => hQ a t (hq a t hok)⟩

/-- A run that goes on as another one does. -/
theorem Ends.of_eq {m' : ℕ → EStateM ε σ α} {s' : σ} (h : ∀ n, m n s = m' n s')
    (h' : Ends out G m' Q s') : Ends out G m Q s := by
  intro hG
  obtain ⟨r, hr, hm, hq⟩ := h' (hG.mono fun n hn => h n ▸ hn)
  exact ⟨r, hr, hm.mono fun n hn => (h n).trans hn, hq⟩

/-- A computation that takes no fuel. -/
theorem Ends.of_run {m : EStateM ε σ α} (h : wp m Q (fun e _ => e ≠ out) s) :
    Ends out G (fun _ => m) Q s := by
  refine fun _ => ⟨m s, fun herror => ?_, .of_forall fun _ => rfl, fun a t hok => wp_ok h hok⟩
  obtain ⟨t, ht⟩ := Result.exists_error herror
  exact wp_error h ht rfl

theorem Ends.pure {a : α} (h : Q a s) : Ends out G (fun _ => (Pure.pure a : EStateM ε σ α)) Q s :=
  .of_run h

/-- **Sequencing.** What follows the first part begins where that has completed. -/
theorem Ends.bind {f : ℕ → α → EStateM ε σ β} {R : β → σ → Prop} (h : Ends out G m Q s)
    (hG : ∀ n a, Inherited G (f n a))
    (hf : ∀ a t, (∀ᶠ n in atTop, m n s = .ok a t) → Q a t → Ends out G (fun n => f n a) R t) :
    Ends out G (fun n => m n >>= f n) R s := by
  intro hgood
  -- Where both parts keep to `G`, so does the first one.
  have hfirst : ∀ᶠ n in atTop, G (m n s).final := by
    filter_upwards [hgood] with n hn
    cases hm : m n s with
    | ok a t =>
      rw [bind_of_ok hm] at hn
      exact hG n a t hn
    | error e t =>
      rw [bind_of_error hm] at hn
      exact hn
  obtain ⟨r, hr, hm, hq⟩ := h hfirst
  cases r with
  | ok a t =>
    have hsecond : ∀ᶠ n in atTop, G (f n a t).final := by
      filter_upwards [hgood, hm] with n hn hok
      rwa [bind_of_ok hok] at hn
    -- Fuel that is enough for each of the two is enough for both.
    obtain ⟨r', hr', hm', hq'⟩ := hf a t hm (hq a t rfl) hsecond
    refine ⟨r', hr', ?_, hq'⟩
    filter_upwards [hm, hm'] with n hn hn'
    rw [bind_of_ok hn, hn']
  | error e t =>
    -- What follows is not reached.
    refine ⟨.error e t, hr, ?_, fun _ _ hok => by cases hok⟩
    filter_upwards [hm] with n hn
    exact bind_of_error hn

/-- A run that is known to keep to `G` where it begins. -/
theorem Ends.of_inherited (hG : ∀ n, Inherited G (m n)) (h : G s → Ends out G m Q s) :
    Ends out G m Q s := by
  intro hgood
  obtain ⟨n, hn⟩ := hgood.exists
  exact h (hG n s hn) hgood

/-- A first part that takes no fuel. -/
theorem Ends.run_bind {x : EStateM ε σ α} {f : ℕ → α → EStateM ε σ β} {Q' : β → σ → Prop}
    (h : wp x (fun a t => Ends out G (fun n => f n a) Q' t) (fun e _ => e ≠ out) s) :
    Ends out G (fun n => x >>= f n) Q' s := by
  cases hx : x s with
  | ok a t => exact .of_eq (fun n => bind_of_ok hx) (wp_ok h hx)
  | error e t =>
    refine fun _ => ⟨.error e t, fun he => wp_error h hx (Option.some.inj he), ?_, nofun⟩
    exact .of_forall fun n => bind_of_error hx

/-- One more unit of fuel changes nothing. -/
theorem ends_succ : Ends out G (fun n => m (n + 1)) Q s ↔ Ends out G m Q s := by
  -- A limit stays the same without the first term.
  have hshift (P : Result ε σ α → Prop) :
      (∀ᶠ n in atTop, P (m (n + 1) s)) ↔ ∀ᶠ n in atTop, P (m n s) := by
    conv_rhs => rw [← Filter.map_add_atTop_eq_nat 1, Filter.eventually_map]
  refine imp_congr (hshift (G ·.final)) (exists_congr fun r => ?_)
  rw [hshift (· = r)]

/-- **A loop whose rounds go down in a measure.** -/
theorem Ends.loop {ι : Type*} {L : ℕ → ι → EStateM ε σ α} {I : ι → σ → Prop} (measure : ι → ℕ)
    (hround : ∀ i s, I i s → (∀ j t, I j t → measure j < measure i →
      Ends out G (fun n => L n j) Q t) → Ends out G (fun n => L (n + 1) i) Q s)
    (i : ι) (h : I i s) : Ends out G (fun n => L n i) Q s := by
  induction hk : measure i using Nat.strong_induction_on generalizing i s with
  | _ k ih =>
    rw [← ends_succ]
    exact hround i s h fun j t hj hlt => ih (measure j) (hk ▸ hlt) j hj rfl

end EStateM
