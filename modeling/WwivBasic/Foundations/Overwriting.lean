import Mathlib.Data.List.Basic

/-!
# Overwriting a part of a list

A list that is written to at a position, as a file is: it grows where the new elements reach past
its end, and where there is a gap it is padded.

## Main definitions

* `resize pad n s`: the first `n` elements, padded
* `overwrite pad pos data s`: `data` in place of what was at `pos`

## Main results

* `resize_overwrite`: what is kept up to the end of what was written
* `getElem?_overwrite`: the elements after a write
* `flatMap_overwrite`: a write of blocks of one length is a write of their elements
-/

universe u

namespace Overwriting

variable {α : Type u} {pad : α} {pos n k : ℕ} {data s : List α}

/-- The first `n` elements, padded where there are fewer. -/
def resize (pad : α) (n : ℕ) (s : List α) : List α :=
  s.take n ++ List.replicate (n - s.length) pad

/-- `data` in place of what was at `pos`. Nothing to write leaves the list as it is. -/
def overwrite (pad : α) (pos : ℕ) (data s : List α) : List α :=
  if data = [] then s else resize pad pos s ++ data ++ s.drop (pos + data.length)

@[simp] theorem length_resize : (resize pad n s).length = n := by
  rw [resize, List.length_append, List.length_take, List.length_replicate]
  omega

@[simp] theorem resize_zero : resize pad 0 s = [] := by
  simp [resize]

theorem resize_of_le (h : n ≤ s.length) : resize pad n s = s.take n := by
  rw [resize, Nat.sub_eq_zero_of_le h, List.replicate_zero, List.append_nil]

/-- What is kept up to the end of what was written. -/
theorem resize_overwrite (hdata : data ≠ []) (h : n ≤ pos + data.length) :
    resize pad n (overwrite pad pos data s) = (resize pad pos s ++ data).take n := by
  have hlen : (resize pad pos s ++ data).length = pos + data.length := by simp
  have hle : n ≤ (resize pad pos s ++ data ++ s.drop (pos + data.length)).length := by
    rw [List.length_append, hlen]
    omega
  rw [overwrite, if_neg hdata, resize_of_le hle, List.take_append_of_le_length (by omega)]

/-- An element after a write, where there is no gap before what was written. -/
theorem getElem?_overwrite {i : ℕ} (h : i < pos ∨ pos + data.length ≤ i) (hi : i < s.length) :
    (overwrite pad pos data s)[i]? = s[i]? := by
  by_cases hdata : data = []
  · rw [overwrite, if_pos hdata]
  · rw [overwrite, if_neg hdata]
    rcases h with h | h
    · -- before what was written
      have hlen : i < (resize pad pos s).length := by rwa [length_resize]
      rw [List.append_assoc, List.getElem?_append_left hlen, resize, List.getElem?_append_left]
      · rw [List.getElem?_take_of_lt h]
      · rw [List.length_take]
        omega
    · -- behind it
      have hlen : (resize pad pos s ++ data).length = pos + data.length := by simp
      rw [List.getElem?_append_right (by omega), hlen, List.getElem?_drop, Nat.add_sub_cancel' h]

/-- What was written. -/
theorem getElem?_overwrite_self {i : ℕ} (hi : i < data.length) :
    (overwrite pad pos data s)[pos + i]? = data[i]? := by
  have hdata : data ≠ [] := List.ne_nil_of_length_pos (Nat.lt_of_le_of_lt (Nat.zero_le i) hi)
  rw [overwrite, if_neg hdata, List.append_assoc, List.getElem?_append_right (by simp),
    length_resize, Nat.add_sub_cancel_left, List.getElem?_append_left hi]

/-! ## Blocks -/

section Blocks

variable {β : Type u} {f : α → List β} {w : ℕ} (hf : ∀ a, (f a).length = w)

include hf

theorem length_flatMap_blocks (s : List α) : (s.flatMap f).length = s.length * w := by
  induction s with
  | nil => simp
  | cons a s ih =>
    rw [List.flatMap_cons, List.length_append, ih, hf, List.length_cons, Nat.succ_mul, Nat.add_comm]

theorem drop_flatMap_blocks (k : ℕ) (s : List α) :
    (s.flatMap f).drop (k * w) = (s.drop k).flatMap f := by
  induction k generalizing s with
  | zero => rw [Nat.zero_mul, List.drop_zero, List.drop_zero]
  | succ k ih =>
    cases s with
    | nil => simp
    | cons a s =>
      rw [List.flatMap_cons, List.drop_succ_cons, ← ih, Nat.succ_mul, Nat.add_comm,
        ← List.drop_drop, ← hf a, List.drop_left]

theorem take_flatMap_blocks (k : ℕ) (s : List α) :
    (s.flatMap f).take (k * w) = (s.take k).flatMap f := by
  induction k generalizing s with
  | zero => simp
  | succ k ih =>
    cases s with
    | nil => simp
    | cons a s =>
      have hlen : (k + 1) * w = (f a).length + k * w := by
        rw [hf, Nat.succ_mul, Nat.add_comm]
      rw [List.flatMap_cons, List.take_succ_cons, List.flatMap_cons, hlen,
        List.take_length_add_append, ih]

/-- **A write of blocks is a write of their elements.** -/
theorem flatMap_overwrite (hw : 0 < w) {pad' : β} (hpad : f pad = List.replicate w pad') :
    (overwrite pad pos data s).flatMap f =
      overwrite pad' (pos * w) (data.flatMap f) (s.flatMap f) := by
  by_cases hdata : data = []
  · subst hdata
    rfl
  · have hne : data.flatMap f ≠ [] := by
      apply List.ne_nil_of_length_pos
      rw [length_flatMap_blocks hf]
      exact Nat.mul_pos (List.length_pos_of_ne_nil hdata) hw
    -- A gap is padded with whole blocks.
    have hresize : (resize pad pos s).flatMap f = resize pad' (pos * w) (s.flatMap f) := by
      rw [resize, resize, List.flatMap_append, take_flatMap_blocks hf, length_flatMap_blocks hf,
        ← Nat.sub_mul]
      congr 1
      induction pos - s.length with
      | zero => simp
      | succ k ih =>
        rw [List.replicate_succ, List.flatMap_cons, ih, hpad, List.replicate_append_replicate,
          Nat.succ_mul, Nat.add_comm]
    rw [overwrite, overwrite, if_neg hdata, if_neg hne, List.flatMap_append, List.flatMap_append,
      hresize, length_flatMap_blocks hf, ← Nat.add_mul, drop_flatMap_blocks hf]

end Blocks

end Overwriting
