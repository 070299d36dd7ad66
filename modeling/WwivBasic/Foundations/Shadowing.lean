import WwivBasic.Foundations.LastIndex

/-!
# A stack of frames that shadow each other

A stack of frames, listed from the bottom, is searched for a key from the top. A key is stored in
the topmost frame that has it, or in the frame on top when no frame does.

## Main definitions

* `visible get k l`: what the search of the stack finds
* `storedAt get k l`: where a key is stored

## Main results

* `visible_modify_storedAt`: a key that is stored is found
* `visible_modify_of_eq`: and the others are found as before
-/

universe u v w

namespace List

variable {φ : Type u} {κ : Type v} {ν : Type w} {get : φ → κ → Option ν} {k : κ} {l : List φ}
  {i : ℕ} {g : φ → φ}

/-- The topmost frame that has the key. -/
def topmost (get : φ → κ → Option ν) (k : κ) (l : List φ) : Option ℕ :=
  l.lastIdx? fun f => (get f k).isSome

/-- What the topmost frame that has the key has there. -/
def visible (get : φ → κ → Option ν) (k : κ) (l : List φ) : Option ν :=
  (topmost get k l).bind fun i => l[i]?.bind fun f => get f k

/-- The frame in which a key is stored. -/
def storedAt (get : φ → κ → Option ν) (k : κ) (l : List φ) : ℕ :=
  (topmost get k l).getD (l.length - 1)

theorem storedAt_lt (h : l ≠ []) : storedAt get k l < l.length := by
  unfold storedAt
  cases htop : topmost get k l with
  | none => exact Nat.sub_lt (length_pos_iff.mpr h) Nat.one_pos
  | some j =>
    obtain ⟨⟨f, hf, -⟩, -⟩ := lastIdx?_eq_some_iff.mp htop
    exact (getElem?_eq_some_iff.mp hf).1

/-- No frame above the one in which a key is stored has the key. -/
theorem get_of_storedAt_lt {j : ℕ} {f : φ} (hj : storedAt get k l < j) (hf : l[j]? = some f) :
    (get f k).isSome = false := by
  unfold storedAt at hj
  cases htop : topmost get k l with
  | none => exact lastIdx?_eq_none_iff.mp htop f (mem_of_getElem? hf)
  | some i =>
    rw [htop] at hj
    exact (lastIdx?_eq_some_iff.mp htop).2 j f hj hf

/-- A change of a frame that does not concern the key. -/
theorem topmost_modify_of_eq (hg : ∀ f, get (g f) k = get f k) :
    topmost get k (l.modify i g) = topmost get k l := by
  have hrel : Forall₂ (fun f f' => get f k = get f' k) (l.modify i g) l := by
    refine forall₂_iff_get.mpr ⟨length_modify .., fun j hj hj' => ?_⟩
    rw [get_eq_getElem, get_eq_getElem, getElem_modify]
    split_ifs
    · exact hg _
    · rfl
  exact lastIdx?_of_forall₂ (fun f f' h => by rw [h]) hrel

theorem visible_modify_of_eq (hg : ∀ f, get (g f) k = get f k) :
    visible get k (l.modify i g) = visible get k l := by
  rw [visible, visible, topmost_modify_of_eq hg]
  refine congrArg (Option.bind _) (funext fun j => ?_)
  rw [getElem?_modify]
  cases l[j]? with
  | none => rfl
  | some f => by_cases h : i = j <;> simp [h, hg]

/-- A key that is stored is found where it was stored. -/
theorem topmost_modify_storedAt (h : l ≠ []) (hg : ∀ f, (get (g f) k).isSome) :
    topmost get k (l.modify (storedAt get k l) g) = some (storedAt get k l) := by
  have hlt : storedAt get k l < l.length := storedAt_lt h
  refine lastIdx?_eq_some_iff.mpr ⟨⟨g l[storedAt get k l], ?_, hg _⟩, fun j f hj hf => ?_⟩
  · rw [getElem?_modify, getElem?_eq_getElem hlt]
    simp
  · simp only [getElem?_modify, Nat.ne_of_lt hj, if_false, id_map'] at hf
    exact get_of_storedAt_lt hj hf

theorem visible_modify_storedAt (h : l ≠ []) (hg : ∀ f, (get (g f) k).isSome) :
    ∃ f, visible get k (l.modify (storedAt get k l) g) = get (g f) k := by
  have hlt : storedAt get k l < l.length := storedAt_lt h
  refine ⟨l[storedAt get k l], ?_⟩
  rw [visible, topmost_modify_storedAt h hg, Option.bind_some, getElem?_modify,
    getElem?_eq_getElem hlt]
  simp

end List
