import Mathlib.Data.List.Basic

/-!
# Replaying a list

A list whose elements change a state one after the other, by `f`. What holds of each element
and the state before it is said along the list.

## Main definitions

* `List.Along f P c l`: `P` holds of each element of `l` and the state before it, from `c` on
* `List.replay w c l`: the value that the last of the writes `w` in `l` gives, else `c`

## Main results

* `List.along_append`: along a list in two parts
* `List.Along.at`: what holds at one element
* `List.Along.foldl`: what every step keeps holds at the end
* `List.replay_of_forall`, `List.isSome_replay`: the value after no write, and after some
-/

universe u v

namespace List

variable {σ : Type u} {α : Type v} {f : σ → α → σ} {P Q : σ → α → Prop} {c : σ} {l l' : List α}

/-- `P` holds of each element and the state that `f` has led to before it. -/
def Along (f : σ → α → σ) (P : σ → α → Prop) : σ → List α → Prop
  | _, [] => True
  | c, a :: l => P c a ∧ Along f P (f c a) l

@[simp] theorem along_cons {a : α} : Along f P c (a :: l) ↔ P c a ∧ Along f P (f c a) l := Iff.rfl

theorem along_append :
    Along f P c (l ++ l') ↔ Along f P c l ∧ Along f P (l.foldl f c) l' := by
  induction l generalizing c with
  | nil => exact (and_iff_right trivial).symm
  | cons a l ih =>
    rw [cons_append, along_cons, along_cons, ih, foldl_cons]
    exact and_assoc.symm

/-- What holds at one element. -/
theorem Along.at {a : α} (h : Along f P c (l ++ a :: l')) : P (l.foldl f c) a :=
  (along_append.mp h).2.1

/-- What every step keeps holds at the end, and before every element. -/
theorem Along.foldl {I : σ → Prop} (h : Along f P c l) (hc : I c)
    (hstep : ∀ c, ∀ a ∈ l, P c a → I c → I (f c a)) : I (l.foldl f c) := by
  induction l generalizing c with
  | nil => exact hc
  | cons a l ih =>
    obtain ⟨ha, hl⟩ := along_cons.mp h
    rw [foldl_cons]
    exact ih hl (hstep c a mem_cons_self ha hc) fun c b hb => hstep c b (mem_cons_of_mem a hb)

/-- An element of neither the first nor the last part is in the middle. -/
theorem split_of_not_mem {l₁ l₂ l₃ : List α} {a : α} (h : l₁ ++ l₂ ++ l₃ = l ++ a :: l')
    (h₁ : a ∉ l₁) (h₃ : a ∉ l₃) : ∃ m m', l = l₁ ++ m ∧ l₂ = m ++ a :: m' := by
  rw [append_assoc] at h
  -- The element is after the first part, or it is in it.
  rcases append_eq_append_iff.mp h with ⟨m, rfl, hm⟩ | ⟨m, rfl, hm⟩
  -- After it: the element is in the last part, or in the middle one.
  · rcases append_eq_append_iff.mp hm with ⟨k, rfl, hk⟩ | ⟨k, rfl, hk⟩
    · exact absurd (hk ▸ mem_append_right _ mem_cons_self) h₃
    · cases k with
      | nil =>
        rw [nil_append] at hk
        exact absurd (hk ▸ mem_cons_self) h₃
      | cons b k =>
        cases hk
        exact ⟨m, k, rfl, rfl⟩
  · cases m with
    | nil =>
      cases l₂ with
      | nil =>
        rw [nil_append, nil_append] at hm
        exact absurd (hm ▸ mem_cons_self) h₃
      | cons b l₂ =>
        cases hm
        exact ⟨[], l₂, by simp, rfl⟩
    | cons b m =>
      cases hm
      exact absurd (mem_append_right _ mem_cons_self) h₁

/-! ## Writes to one variable -/

section Replay

variable {β : Type v} {w : α → Option β} {o : Option β}

/-- The value of a variable after the writes of a list, where `w a` is what `a` writes, if it
writes the variable. -/
def replay (w : α → Option β) : Option β → List α → Option β := foldl fun o a => (w a).or o

@[simp] theorem replay_nil : replay w o [] = o := rfl

@[simp] theorem replay_cons {a : α} : replay w o (a :: l) = replay w ((w a).or o) l := rfl

theorem replay_append : replay w o (l ++ l') = replay w (replay w o l) l' := foldl_append ..

theorem replay_of_forall (h : ∀ a ∈ l, w a = none) : replay w o l = o := by
  induction l with
  | nil => rfl
  | cons a l ih =>
    obtain ⟨ha, hl⟩ := forall_mem_cons.mp h
    rw [replay_cons, ha, Option.none_or, ih hl]

/-- A variable never loses its value. -/
theorem isSome_replay : (replay w o l).isSome = (o.isSome || l.any fun a => (w a).isSome) := by
  induction l generalizing o with
  | nil => exact (Bool.or_false _).symm
  | cons a l ih => rw [replay_cons, ih, Option.isSome_or, any_cons, ← Bool.or_assoc, Bool.or_comm
      o.isSome]

end Replay

end List
