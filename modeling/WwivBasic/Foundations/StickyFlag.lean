import Mathlib.Data.List.Basic

/-!
# Sticky error flags

Operations that share an error flag. An operation may raise the flag, none clears it, and each
reads it after it has had the chance to raise it; while it is raised, they all have one masked
result. Such operations are independent of each other as long as the flag stays down, and of a
run from a lowered flag it can be said exactly when they look independent.

## Main definitions

* `StickyFlag`: what the operations raise and compute
* `StickyFlag.step`, `StickyFlag.run`: one operation, and one after the other
* `StickyFlag.Steady`: after an operation that raises the flag, only masked results are due

## Main results

* `run_eq_map_fresh_iff`: the results of a run are those of each operation on its own exactly when
  the run is steady
-/

universe u v

/-- Operations `κ` with results `ν` and a flag that none of them clears. -/
structure StickyFlag (κ : Type u) (ν : Type v) where
  /-- Whether the operation raises the flag. -/
  raises : κ → Bool
  /-- The result while the flag is down. -/
  value : κ → ν
  /-- The result while the flag is raised. -/
  masked : ν

namespace StickyFlag

variable {κ : Type u} {ν : Type v} (F : StickyFlag κ ν)

/-- An operation: its result, and the flag it leaves behind. -/
def step (flag : Bool) (c : κ) : ν × Bool :=
  (if flag || F.raises c then F.masked else F.value c, flag || F.raises c)

/-- The result of an operation on its own. -/
def fresh (c : κ) : ν := (F.step false c).1

/-- The results of operations one after the other. -/
def run (flag : Bool) : List κ → List ν
  | [] => []
  | c :: cs => (F.step flag c).1 :: run (F.step flag c).2 cs

/-- Each operation after one that raises the flag is to be masked on its own. -/
def Steady (cs : List κ) : Prop := cs.Pairwise fun c d => F.raises c = true → F.fresh d = F.masked

variable {F}

theorem length_run (flag : Bool) (cs : List κ) : (F.run flag cs).length = cs.length := by
  induction cs generalizing flag with
  | nil => rfl
  | cons c cs ih => rw [run, List.length_cons, ih, List.length_cons]

/-- What comes after a run begins with the flag that it leaves. -/
theorem run_append (flag : Bool) (cs ds : List κ) :
    F.run flag (cs ++ ds) = F.run flag cs ++ F.run (flag || cs.any F.raises) ds := by
  induction cs generalizing flag with
  | nil => simp [run]
  | cons c cs ih => simp [run, ih, step, Bool.or_assoc]

/-- The result of one operation of a run. -/
theorem head_of_run {flag : Bool} {cs ds : List κ} {c : κ} {before after : List ν} {a : ν}
    (h : before ++ a :: after = F.run flag (cs ++ c :: ds)) (hlength : before.length = cs.length) :
    a = (F.step (flag || cs.any F.raises) c).1 := by
  rw [run_append] at h
  have hrest := (List.append_inj h (by rw [hlength, length_run])).2
  exact (List.cons.inj hrest).1

theorem run_true (cs : List κ) : F.run true cs = cs.map fun _ => F.masked := by
  induction cs with
  | nil => rfl
  | cons c cs ih => simpa [run, step] using ih

/-- Once the flag is raised, a run is that of the single operations when these are all masked. -/
theorem run_true_eq_map_fresh_iff (cs : List κ) :
    F.run true cs = cs.map F.fresh ↔ ∀ c ∈ cs, F.fresh c = F.masked := by
  rw [run_true, List.map_inj_left]
  exact forall₂_congr fun _ _ => eq_comm

/-- **A run without interaction**: from a lowered flag, every operation has the result it has on
its own exactly when the operations are steady. -/
theorem run_eq_map_fresh_iff (cs : List κ) :
    F.run false cs = cs.map F.fresh ↔ F.Steady cs := by
  induction cs with
  | nil => simp [run, Steady]
  | cons c cs ih =>
    have hhead : (F.step false c).1 = F.fresh c := rfl
    rw [run, List.map_cons, hhead, List.cons.injEq, Steady, List.pairwise_cons]
    by_cases hc : F.raises c = true
    -- The rest runs under the raised flag, and is steady when all of it is masked.
    · have hflag : (F.step false c).2 = true := by simp [step, hc]
      rw [hflag, run_true_eq_map_fresh_iff]
      constructor
      · rintro ⟨-, h⟩
        exact ⟨fun d hd _ => h d hd, List.pairwise_of_forall_mem_list fun _ _ d hd _ => h d hd⟩
      · rintro ⟨h, -⟩
        exact ⟨rfl, fun d hd => h d hd hc⟩
    · have hflag : (F.step false c).2 = false := by simp [step, hc]
      rw [hflag, ih, Steady]
      simp [hc]

end StickyFlag
