import WwivBasic.Stdlib

/-!
# Parts of a text

`left` and `right` give the whole text when they are asked for more than it has, and so does `mid`
when its start is the end of the text or beyond, where nothing is left of it. So `left` and `right`
cut a text at any position, and `left` and `mid` at any position but the end.

## Main definitions

* `SliceLaws`: what cutting a text at one position has to satisfy

## Main results

* `left_eq_take`, `right_eq_drop`, `mid_of_lt`, `mid_of_length_le`: the functions as `substr`
* `left_append_right`: `left` and `right` cut a text
* `sliceLaws_iff`: where `mid` does
-/

namespace WwivBasic

namespace Stdlib

variable {s : Str} {n k : Int32}

theorem toSize_eq_toNat (h : 0 ≤ n.toInt) : toSize n = n.toInt.toNat := by
  have hlt := n.toInt_lt
  unfold toSize
  rw [Int.emod_eq_of_lt h (by omega)]

theorem toSize_ofInt {m : ℕ} (h : (m : Int) ≤ intMax) : toSize (.ofInt m) = m := by
  have hint : (Int32.ofInt m).toInt = m :=
    Int32.toInt_ofInt_of_le (by omega) (by unfold intMax at h; omega)
  rw [toSize_eq_toNat (by omega), hint, Int.toNat_natCast]

theorem left_eq_take (s : Str) (n : Int32) : left s n = s.take (toSize n) := by
  unfold left
  split_ifs with h
  · rw [List.take_of_length_le h]
  · rfl

theorem right_eq_drop (s : Str) (n : Int32) : right s n = s.drop (s.length - toSize n) := by
  unfold right
  split_ifs with h
  · rw [Nat.sub_eq_zero_of_le h, List.drop_zero]
  · rfl

/-- Before the end of the text `mid` is `substr`, of what is left or of a given length. -/
theorem mid_of_lt (h : toSize n < s.length) :
    mid [.ofString s, .ofInt n] = .ok (.ofString (s.drop (toSize n))) ∧
    mid [.ofString s, .ofInt n, .ofInt k] =
      .ok (.ofString ((s.drop (toSize n)).take (toSize k))) := by
  constructor
  · change Except.ok (Value.ofString (if toSize n < s.length then _ else s)) = _
    rw [if_pos h]
  · change (if toSize n < s.length then _ else Except.ok (Value.ofString s)) = _
    rw [if_pos h]
    rfl

/-- From the end of the text on it is the whole text. -/
theorem mid_of_length_le (h : s.length ≤ toSize n) :
    mid [.ofString s, .ofInt n] = .ok (.ofString s) ∧
    mid [.ofString s, .ofInt n, .ofInt k] = .ok (.ofString s) := by
  constructor
  · change Except.ok (Value.ofString (if toSize n < s.length then _ else s)) = _
    rw [if_neg (by omega)]
  · change (if toSize n < s.length then _ else Except.ok (Value.ofString s)) = _
    rw [if_neg (by omega)]

theorem left_append_right (hn : toSize n ≤ s.length) (hs : (s.length : Int) ≤ intMax) :
    left s n ++ right s (.ofInt (s.length - toSize n : ℕ)) = s := by
  have hsize : toSize (.ofInt (s.length - toSize n : ℕ)) = s.length - toSize n :=
    toSize_ofInt (by omega)
  rw [left_eq_take, right_eq_drop, hsize, Nat.sub_sub_self hn, List.take_append_drop]

end Stdlib

open Stdlib

/-- The texts before and after position `n` make up the text, and the `k` characters from there on
are the first `k` of the second. -/
structure SliceLaws (s : Str) (n k : Int32) : Prop where
  left_mid : ∃ t, mid [.ofString s, .ofInt n] = .ok (.ofString t) ∧ left s n ++ t = s
  left_right : left s n ++ right s (.ofInt (s.length - n.toInt)) = s
  mid_left : ∃ t, mid [.ofString s, .ofInt n] = .ok (.ofString t) ∧
    mid [.ofString s, .ofInt n, .ofInt k] = .ok (.ofString (left t k))

/-- **`left`, `right` and `mid` cut a text** at every position before its end, and at the end only
of the empty text. -/
theorem sliceLaws_iff (s : Str) (n k : Int32) (hs : (s.length : Int) ≤ intMax)
    (hn : 0 ≤ n.toInt) (hns : n.toInt ≤ s.length) :
    SliceLaws s n k ↔ n.toInt < s.length ∨ s = [] := by
  have hsize := toSize_eq_toNat hn
  constructor
  · intro hlaws
    by_cases hlt : n.toInt < s.length
    · exact .inl hlt
    · -- At the end `left` and `mid` both give the whole text, so that it appears twice.
      obtain ⟨t, hmid, happend⟩ := hlaws.left_mid
      have hle : s.length ≤ toSize n := by omega
      rw [(mid_of_length_le hle (k := k)).1] at hmid
      obtain rfl : s = t := by simpa [Value.ofString] using hmid
      rw [left_eq_take, List.take_of_length_le hle] at happend
      exact .inr (List.append_right_eq_self.mp happend)
  · intro h
    have hright : left s n ++ right s (.ofInt (s.length - n.toInt)) = s := by
      have hsub : (s.length : Int) - n.toInt = (s.length - toSize n : ℕ) := by omega
      rw [hsub]
      exact left_append_right (by omega) hs
    rcases h with hlt | rfl
    · have hmid := mid_of_lt (s := s) (n := n) (k := k) (by omega)
      exact {
        left_mid := ⟨_, hmid.1, by rw [left_eq_take, List.take_append_drop]⟩
        left_right := hright
        mid_left := ⟨_, hmid.1, by rw [hmid.2, left_eq_take]⟩ }
    · have hmid := mid_of_length_le (s := []) (n := n) (k := k) (Nat.zero_le _)
      exact {
        left_mid := ⟨[], hmid.1, by rw [left_eq_take, List.take_nil, List.append_nil]⟩
        left_right := hright
        mid_left := ⟨[], hmid.1, by rw [hmid.2, left_eq_take, List.take_nil]⟩ }

/-- `"abc"`, cut after its first character. -/
theorem sliceLaws_abc : SliceLaws ['a', 'b', 'c'] 1 5 :=
  (sliceLaws_iff ['a', 'b', 'c'] 1 5 (by decide) (by decide) (by decide)).mpr
    (.inl (by decide))

/-- `left("a", 1)` and `mid("a", 1)` are `"a"` both. -/
theorem not_sliceLaws_end : ¬ SliceLaws ['a'] 1 0 := by
  rintro ⟨⟨t, hmid, happend⟩, -, -⟩
  rw [(mid_of_length_le (k := 0) (by decide)).1] at hmid
  obtain rfl : ['a'] = t := by simpa [Value.ofString] using hmid
  exact absurd happend (by decide)

end WwivBasic
