import Mathlib

/-!
# Reflected feedback shift registers

A register that shifts towards its least significant bit, with feedback. It holds a polynomial over
the field of two elements, the coefficient of the highest power in the least significant bit, and a
shift multiplies by `X` modulo the generator.

## Main definitions

* `shift g`: one shift, with the feedback `g`
* `feed g`: the register after the bits of a message
* `polynomial`, `message`: the polynomials of a register and of a message
* `residue g`: the class of a register modulo the generator

## Main results

* `residue_feed`: what a register holds after a message
* `feed_eq_modByMonic`: as a remainder
* `shift_iterate_eq`: some shifts at a time, by a table
* `feed_ne_of_burst`, `feed_eq_of_pair_iff`: messages that leave different registers
-/

namespace ShiftRegister

open Polynomial

variable {w : ℕ} {g c c' : BitVec w} {b : Bool} {bits u v : List Bool}

/-! ## The register -/

/-- One shift towards the least significant bit, with the feedback `g`. -/
def shift (g c : BitVec w) : BitVec w := if c.getLsbD 0 then (c >>> 1) ^^^ g else c >>> 1

/-- A bit, in the least significant place. -/
def bit (w : ℕ) (b : Bool) : BitVec w := (BitVec.ofBool b).setWidth w

/-- The register after the bits of a message, each of them in its least significant place. -/
def feed (g c : BitVec w) (bits : List Bool) : BitVec w :=
  bits.foldl (fun c b => shift g (c ^^^ bit w b)) c

/-- The bits of a word, the least significant one first. -/
def word (w : ℕ) : List Bool → BitVec w
  | [] => 0
  | b :: bits => (word w bits <<< 1) ^^^ bit w b

@[simp] theorem feed_nil : feed g c [] = c := rfl

@[simp] theorem feed_cons : feed g c (b :: bits) = feed g (shift g (c ^^^ bit w b)) bits := rfl

theorem feed_append : feed g c (u ++ v) = feed g (feed g c u) v := List.foldl_append

theorem shift_xor (g c c' : BitVec w) : shift g (c ^^^ c') = shift g c ^^^ shift g c' := by
  rw [shift, shift, shift, BitVec.getLsbD_xor, BitVec.ushiftRight_xor_distrib]
  cases c.getLsbD 0 <;> cases c'.getLsbD 0
  · rfl
  · exact BitVec.xor_assoc _ _ _
  · exact (BitVec.xor_assoc _ _ _).trans
      ((congrArg _ (BitVec.xor_comm _ _)).trans (BitVec.xor_assoc _ _ _).symm)
  · ext i
    simp only [Bool.bne_true, Bool.not_true, Bool.false_eq_true, if_false, if_true,
      BitVec.getElem_xor]
    cases (c >>> 1)[i] <;> cases (c' >>> 1)[i] <;> cases g[i] <;> rfl

theorem shift_of_clear (h : c.getLsbD 0 = false) : shift g c = c >>> 1 := by
  rw [shift, h]
  rfl

theorem shift_iterate_xor (g c c' : BitVec w) (n : ℕ) :
    (shift g)^[n] (c ^^^ c') = (shift g)^[n] c ^^^ (shift g)^[n] c' := by
  induction n generalizing c c' with
  | zero => rfl
  | succ n ih => rw [Function.iterate_succ_apply, shift_xor, ih]; rfl

/-- A register with its low bits clear only shifts. -/
theorem shift_iterate_of_clear {n : ℕ} (h : ∀ i, i < n → c.getLsbD i = false) :
    (shift g)^[n] c = c >>> n := by
  induction n generalizing c with
  | zero => rfl
  | succ n ih =>
    rw [Function.iterate_succ_apply, shift_of_clear (h 0 n.succ_pos), ih]
    · rw [Nat.add_comm n 1, BitVec.shiftRight_add]
    · intro i hi
      rw [BitVec.getLsbD_ushiftRight]
      exact h (1 + i) (by omega)

/-- **A table of feedback terms.** Some shifts are those of the low bits, which a table can hold,
and the rest of the register moved down. -/
theorem shift_iterate_eq {n : ℕ} {low : BitVec w}
    (hlow : ∀ i, i < w → low.getLsbD i = decide (i < n)) :
    (shift g)^[n] c = (shift g)^[n] (c &&& low) ^^^ (c >>> n) := by
  -- The low bits, and the rest, which only shifts.
  have hsplit : c = (c &&& low) ^^^ (c &&& ~~~low) := by
    ext i
    simp only [BitVec.getElem_xor, BitVec.getElem_and, BitVec.getElem_not]
    cases low[i] <;> simp
  have hclear : ∀ i, i < n → (c &&& ~~~low).getLsbD i = false := by
    intro i hi
    by_cases hw : i < w
    · simp [hlow i hw, hi, hw]
    · exact BitVec.getLsbD_of_ge _ i (by omega)
  have hhigh : (c &&& ~~~low) >>> n = c >>> n := by
    apply BitVec.eq_of_getLsbD_eq
    intro i _
    rw [BitVec.getLsbD_ushiftRight, BitVec.getLsbD_ushiftRight]
    by_cases hw : n + i < w
    · rw [BitVec.getLsbD_and, BitVec.getLsbD_not, hlow _ hw]
      simp [hw]
    · rw [BitVec.getLsbD_of_ge _ _ (by omega), BitVec.getLsbD_of_ge _ _ (by omega)]
  conv => lhs; rw [hsplit]
  rw [shift_iterate_xor, shift_iterate_of_clear hclear, hhigh]

theorem getLsbD_word {i : ℕ} (hi : i < w) : (word w bits).getLsbD i = bits.getD i false := by
  induction bits generalizing i with
  | nil => simp [word]
  | cons b bits ih =>
    rw [word, BitVec.getLsbD_xor, BitVec.getLsbD_shiftLeft, bit, BitVec.getLsbD_setWidth]
    cases i with
    | zero => simp [hi]
    | succ i => simp [hi, ih (show i < w by omega), BitVec.getLsbD_of_ge]

/-- Feeding the bits of a word is adding the word and shifting. -/
theorem feed_eq_iterate (hlen : bits.length ≤ w) :
    feed g c bits = (shift g)^[bits.length] (c ^^^ word w bits) := by
  induction bits generalizing c with
  | nil => simp [word]
  | cons b bits ih =>
    rw [List.length_cons] at hlen
    -- The other bits stand a place higher, and the shift brings them down.
    have hrest : shift g (word w bits <<< 1) = word w bits := by
      rw [shift_of_clear (by simp)]
      apply BitVec.eq_of_getLsbD_eq
      intro i hi
      rw [BitVec.getLsbD_ushiftRight, BitVec.getLsbD_shiftLeft]
      by_cases hw : 1 + i < w
      · simp [hw]
      · have hout : (word w bits).getLsbD i = false := by
          rw [getLsbD_word hi, List.getD_eq_getElem?_getD, List.getElem?_eq_none (by omega)]
          rfl
        simp [hw, hout]
    rw [feed_cons, ih (by omega), List.length_cons, Function.iterate_succ_apply, word,
      BitVec.xor_comm (word w bits <<< 1), ← BitVec.xor_assoc, shift_xor g (c ^^^ bit w b), hrest]

/-! ## Polynomials -/

/-- A bit, as a coefficient. -/
def coefficient (b : Bool) : ZMod 2 := if b then 1 else 0

@[simp] theorem coefficient_false : coefficient false = 0 := rfl

@[simp] theorem coefficient_true : coefficient true = 1 := rfl

theorem coefficient_xor (a b : Bool) : coefficient (a ^^ b) = coefficient a + coefficient b := by
  cases a <;> cases b <;> rfl

theorem coefficient_injective : Function.Injective coefficient := by
  intro a b h
  cases a <;> cases b <;> first | rfl | exact absurd h (by decide)

/-- The polynomial of a register: the most significant bit is the constant term. -/
noncomputable def polynomial (c : BitVec w) : (ZMod 2)[X] :=
  ∑ k ∈ Finset.range w, monomial k (coefficient (c.getMsbD k))

/-- The polynomial of a message: its first bit is the coefficient of the highest power. -/
noncomputable def message : List Bool → (ZMod 2)[X]
  | [] => 0
  | b :: bits => C (coefficient b) * X ^ bits.length + message bits

/-- The generator of a register: the power that is shifted out, and the feedback. -/
noncomputable def generator (g : BitVec w) : (ZMod 2)[X] := X ^ w + polynomial g

@[simp] theorem coeff_polynomial (c : BitVec w) (k : ℕ) :
    (polynomial c).coeff k = coefficient (c.getMsbD k) := by
  by_cases hk : k < w
  · simp [polynomial, coeff_monomial, hk]
  · rw [BitVec.getMsbD_of_ge c k (by omega)]
    simp [polynomial, coeff_monomial, hk]

theorem polynomial_xor (c c' : BitVec w) :
    polynomial (c ^^^ c') = polynomial c + polynomial c' := by
  ext k
  rw [coeff_add, coeff_polynomial, coeff_polynomial, coeff_polynomial, BitVec.getMsbD_xor,
    coefficient_xor]

@[simp] theorem polynomial_zero : polynomial 0#w = 0 := by
  ext k
  simp

theorem degree_polynomial_lt (c : BitVec w) : (polynomial c).degree < w := by
  apply (degree_lt_iff_coeff_zero _ w).mpr
  intro k hk
  rw [coeff_polynomial, BitVec.getMsbD_of_ge c k hk, coefficient_false]

theorem polynomial_injective : Function.Injective (polynomial : BitVec w → (ZMod 2)[X]) := by
  intro c c' h
  apply BitVec.eq_of_getMsbD_eq
  intro k _
  apply coefficient_injective
  rw [← coeff_polynomial, ← coeff_polynomial, h]

/-- A shift loses the coefficient of the highest power. -/
theorem X_mul_polynomial (hw : 0 < w) (c : BitVec w) :
    X * polynomial c = polynomial (c >>> 1) + C (coefficient (c.getLsbD 0)) * X ^ w := by
  ext k
  have hlow : c.getLsbD 0 = c.getMsbD (w - 1) := by
    rw [BitVec.getLsbD_eq_getMsbD]
    simp [hw]
  rw [coeff_add, coeff_C_mul, coeff_X_pow, coeff_polynomial, BitVec.getMsbD_ushiftRight, hlow]
  -- The coefficients move up by one, and the one behind the last is lost.
  cases k with
  | zero => simp [hw.ne]
  | succ k =>
    rw [coeff_X_mul, coeff_polynomial]
    by_cases hlt : k + 1 < w
    · simp [hlt, show k + 1 ≠ w by omega]
    · by_cases heq : k + 1 = w
      · subst heq
        simp
      · simp [hlt, heq, BitVec.getMsbD_of_ge c k (by omega)]

theorem polynomial_bit (hw : 0 < w) : polynomial (bit w b) = C (coefficient b) * X ^ (w - 1) := by
  ext k
  rw [coeff_polynomial, coeff_C_mul, coeff_X_pow, BitVec.getMsbD_eq_getLsbD, bit,
    BitVec.getLsbD_setWidth, BitVec.getLsbD_ofBool]
  by_cases hk : k = w - 1
  · simp [hk, show w - 1 < w by omega, hw]
  · by_cases hlt : k < w
    · simp [hk, hlt, show w - 1 - k ≠ 0 by omega]
    · simp [hk, hlt]

theorem monic_generator (g : BitVec w) : (generator g).Monic :=
  monic_X_pow_add (degree_polynomial_lt g)

theorem degree_generator (g : BitVec w) : (generator g).degree = w := by
  rw [generator, degree_add_eq_left_of_degree_lt, degree_X_pow]
  rw [degree_X_pow]
  exact degree_polynomial_lt g

@[simp] theorem message_nil : message [] = 0 := rfl

theorem message_cons : message (b :: bits) =
    C (coefficient b) * X ^ bits.length + message bits := rfl

theorem message_append : message (u ++ v) = message u * X ^ v.length + message v := by
  induction u with
  | nil => simp
  | cons b u ih =>
    rw [List.cons_append, message_cons, message_cons, ih, List.length_append, pow_add]
    ring

theorem degree_message_lt (bits : List Bool) : (message bits).degree < bits.length := by
  induction bits with
  | nil => simp
  | cons b bits ih =>
    rw [message_cons, List.length_cons]
    apply (degree_add_le _ _).trans_lt
    apply max_lt
    · exact (degree_C_mul_X_pow_le _ _).trans_lt (by exact_mod_cast Nat.lt_succ_self _)
    · exact ih.trans (by exact_mod_cast Nat.lt_succ_self _)

/-- Messages of one length are told apart by their polynomials. -/
theorem message_inj (hlen : u.length = v.length) : message u = message v ↔ u = v := by
  refine ⟨fun h => ?_, fun h => by rw [h]⟩
  induction u generalizing v with
  | nil => exact (List.length_eq_zero_iff.mp hlen.symm).symm
  | cons b u ih =>
    obtain _ | ⟨b', v⟩ := v
    · simp at hlen
    · have hlen' : u.length = v.length := by simpa using hlen
      -- The first bit is the coefficient of a power that the rest does not reach.
      have htop (b : Bool) {s : List Bool} (hs : s.length = v.length) :
          (message (b :: s)).coeff v.length = coefficient b := by
        have hzero := coeff_eq_zero_of_degree_lt (hs ▸ degree_message_lt s)
        rw [message_cons, coeff_add, hzero, hs]
        simp
      have hb : b = b' := by
        apply coefficient_injective
        rw [← htop b hlen', ← htop b' rfl, h]
      rw [message_cons, message_cons, hb, hlen'] at h
      rw [hb, ih hlen' (add_left_cancel h)]

/-! ## Modulo the generator -/

/-- The class of a register, modulo the generator. -/
noncomputable def residue (g c : BitVec w) : AdjoinRoot (generator g) :=
  AdjoinRoot.mk (generator g) (polynomial c)

theorem residue_xor (g c c' : BitVec w) : residue g (c ^^^ c') = residue g c + residue g c' := by
  rw [residue, polynomial_xor, map_add]
  rfl

@[simp] theorem residue_zero (g : BitVec w) : residue g 0#w = 0 := by
  rw [residue, polynomial_zero, map_zero]

/-- The polynomials with the class of a register are those with its polynomial for a remainder. -/
theorem residue_eq_mk_iff {p : (ZMod 2)[X]} :
    residue g c = AdjoinRoot.mk (generator g) p ↔ polynomial c = p %ₘ generator g := by
  have hself : polynomial c %ₘ generator g = polynomial c := by
    rw [modByMonic_eq_self_iff (monic_generator g), degree_generator]
    exact degree_polynomial_lt c
  rw [residue, AdjoinRoot.mk_eq_mk, ← modByMonic_eq_zero_iff_dvd (monic_generator g),
    sub_modByMonic, sub_eq_zero, hself]

theorem residue_injective (g : BitVec w) : Function.Injective (residue g) := by
  intro c c' h
  apply polynomial_injective
  rw [residue_eq_mk_iff.mp h]
  exact (residue_eq_mk_iff.mp rfl).symm

/-- In the ring of the classes, the power that is shifted out is the feedback. -/
theorem root_pow_width (g : BitVec w) : AdjoinRoot.root (generator g) ^ w = residue g g := by
  rw [← AdjoinRoot.mk_X, ← map_pow, residue, AdjoinRoot.mk_eq_mk, generator]
  exact dvd_of_eq (by rw [CharTwo.sub_eq_add])

/-- **A shift multiplies by `X`**, modulo the generator. -/
theorem residue_shift (hw : 0 < w) (g c : BitVec w) :
    residue g (shift g c) = AdjoinRoot.root (generator g) * residue g c := by
  have hmul : AdjoinRoot.root (generator g) * residue g c = residue g (c >>> 1) +
      AdjoinRoot.mk (generator g) (C (coefficient (c.getLsbD 0))) * residue g g := by
    rw [← root_pow_width, ← AdjoinRoot.mk_X, ← map_pow, ← map_mul, residue, residue, ← map_mul,
      ← map_add, X_mul_polynomial hw]
  rw [hmul, shift]
  cases c.getLsbD 0
  · simp
  · simp [residue_xor]

theorem residue_shift_iterate (hw : 0 < w) (g c : BitVec w) (n : ℕ) :
    residue g ((shift g)^[n] c) = AdjoinRoot.root (generator g) ^ n * residue g c := by
  induction n generalizing c with
  | zero => simp
  | succ n ih => rw [Function.iterate_succ_apply, ih, residue_shift hw, pow_succ, mul_assoc]

/-- **What a register holds after a message**: the message moved up by the width, and what the
register held before, moved up by the length of the message. -/
theorem residue_feed (hw : 0 < w) (g c : BitVec w) (bits : List Bool) :
    residue g (feed g c bits) = AdjoinRoot.mk (generator g)
      (X ^ w * message bits + X ^ bits.length * polynomial c) := by
  induction bits generalizing c with
  | nil => simp [residue]
  | cons b bits ih =>
    -- One step: the register moves up, and the bit comes in at the width.
    have hstep : residue g (shift g (c ^^^ bit w b)) = AdjoinRoot.mk (generator g)
        (X * polynomial c + X ^ w * C (coefficient b)) := by
      have hpow : (X : (ZMod 2)[X]) * X ^ (w - 1) = X ^ w := by
        rw [← pow_succ', Nat.sub_add_cancel hw]
      rw [residue_shift hw, residue, polynomial_xor, polynomial_bit hw, ← AdjoinRoot.mk_X,
        ← map_mul, ← hpow]
      congr 1
      ring
    rw [feed_cons, ih, map_add, map_mul _ (X ^ bits.length), ← residue, hstep, ← map_mul, ← map_add,
      message_cons, List.length_cons]
    congr 1
    ring

/-- A register after a message holds a remainder by the generator. -/
theorem feed_eq_modByMonic (hw : 0 < w) (g c : BitVec w) (bits : List Bool) :
    polynomial (feed g c bits) =
      (X ^ w * message bits + X ^ bits.length * polynomial c) %ₘ generator g :=
  residue_eq_mk_iff.mp (residue_feed hw g c bits)

/-! ## Messages that are told apart -/

/-- `X` has an inverse, where the feedback reaches the constant term. -/
theorem isUnit_root (hw : 0 < w) (hg : g.msb = true) :
    IsUnit (AdjoinRoot.root (generator g)) := by
  have hconst : (generator g).coeff 0 = 1 := by
    rw [generator, coeff_add, coeff_X_pow, if_neg hw.ne, coeff_polynomial, ← BitVec.msb, hg]
    rfl
  -- The generator is `1` and a multiple of `X`, so that the cofactor is the inverse.
  have hgen : X * divX (generator g) + 1 = generator g := by
    rw [← C_1, ← hconst]
    exact X_mul_divX_add (generator g)
  apply IsUnit.of_mul_eq_one (AdjoinRoot.mk (generator g) (divX (generator g)))
  rw [← AdjoinRoot.mk_X, ← map_mul, ← map_one (AdjoinRoot.mk (generator g)), AdjoinRoot.mk_eq_mk,
    CharTwo.sub_eq_add, hgen]

/-- Messages of one length leave one register exactly when the generator divides the difference. -/
theorem feed_eq_feed_iff (hw : 0 < w) (hg : g.msb = true) (hlen : u.length = v.length) :
    feed g c u = feed g c v ↔ generator g ∣ message u - message v := by
  rw [← (residue_injective g).eq_iff, residue_feed hw, residue_feed hw, hlen, map_add, map_add,
    add_left_inj, map_mul, map_mul, map_pow, AdjoinRoot.mk_X,
    ((isUnit_root hw hg).pow w).mul_right_inj, AdjoinRoot.mk_eq_mk]

/-- A message leaves different registers different. -/
theorem feed_injective (hw : 0 < w) (hg : g.msb = true) (bits : List Bool) :
    Function.Injective fun c => feed g c bits := by
  intro c c' h
  have hres := congrArg (residue g) h
  simp only [residue_feed hw, map_add, add_right_inj, map_mul, map_pow, AdjoinRoot.mk_X] at hres
  exact residue_injective g (((isUnit_root hw hg).pow bits.length).mul_right_inj.mp hres)

theorem shift_iterate_injective (hw : 0 < w) (hg : g.msb = true) (n : ℕ) :
    Function.Injective (shift g)^[n] := by
  intro c c' h
  have hres := congrArg (residue g) h
  rw [residue_shift_iterate hw, residue_shift_iterate hw] at hres
  exact residue_injective g (((isUnit_root hw hg).pow n).mul_right_inj.mp hres)

/-- **A burst is seen.** Messages that differ in a block no longer than the register leave it
different. -/
theorem feed_ne_of_burst (hw : 0 < w) (hg : g.msb = true) (a z : List Bool)
    (hlen : u.length = v.length) (hle : u.length ≤ w) (hne : u ≠ v) :
    feed g c (a ++ u ++ z) ≠ feed g c (a ++ v ++ z) := by
  intro h
  rw [feed_append, feed_append, feed_append, feed_append] at h
  -- What comes behind the burst keeps a difference, and what came before is the same.
  have hdvd := (feed_eq_feed_iff hw hg hlen).mp (feed_injective hw hg z h)
  -- The generator does not divide a difference of a lower degree.
  have hdeg : (message u - message v).degree < (generator g).degree := by
    rw [degree_generator]
    refine (degree_sub_le _ _).trans_lt (max_lt ?_ ?_)
    · exact (degree_message_lt u).trans_le (by exact_mod_cast hle)
    · exact (degree_message_lt v).trans_le (by exact_mod_cast hlen ▸ hle)
  have hsub : message u - message v ≠ 0 := by
    rw [sub_ne_zero]
    exact fun heq => hne ((message_inj hlen).mp heq)
  exact (monic_generator g).not_dvd_of_degree_lt hsub hdeg hdvd

/-- **A pair is seen**, but at the distances that the order of `X` divides. -/
theorem feed_eq_of_pair_iff (hw : 0 < w) (hg : g.msb = true) (a m z : List Bool) (x y : Bool) :
    feed g c (a ++ x :: (m ++ y :: z)) = feed g c (a ++ (!x) :: (m ++ (!y) :: z)) ↔
      orderOf (AdjoinRoot.root (generator g)) ∣ m.length + 1 := by
  have hassoc (x y : Bool) : a ++ x :: (m ++ y :: z) = a ++ x :: (m ++ [y]) ++ z := by simp
  have hlen : (x :: (m ++ [y])).length = ((!x) :: (m ++ [!y])).length := by simp
  have hdiff (x : Bool) : C (coefficient x) - C (coefficient (!x)) = (1 : (ZMod 2)[X]) := by
    cases x
    · simp [CharTwo.neg_eq]
    · simp
  -- The bits between them are the same, so that two powers are left.
  have hsub : message (x :: (m ++ [y])) - message ((!x) :: (m ++ [!y])) =
      X ^ (m.length + 1) - 1 := by
    have hx := hdiff x
    have hy := hdiff y
    rw [message_cons, message_cons, message_append, message_append, message_cons, message_cons]
    simp only [List.length_append, List.length_singleton, message_nil, List.length_nil, pow_zero,
      mul_one, add_zero]
    rw [show (X : (ZMod 2)[X]) ^ (m.length + 1) - 1 = X ^ (m.length + 1) + 1 from
      CharTwo.sub_eq_add _ _]
    linear_combination X ^ (m.length + 1) * hx + hy
  rw [hassoc, hassoc, feed_append, @feed_append w g c (a ++ _) z, feed_append, feed_append,
    (feed_injective hw hg z).eq_iff, feed_eq_feed_iff hw hg hlen, hsub, ← AdjoinRoot.mk_eq_mk,
    map_pow, AdjoinRoot.mk_X, map_one, orderOf_dvd_iff_pow_eq_one]

/-! ## Powers of `X` -/

/-- The register that holds `1`. -/
def unit (w : ℕ) : BitVec w := BitVec.twoPow w (w - 1)

/-- A product, the first factor given by its bits, that of the highest power first. The case split
on the register at each step keeps its evaluation shallow. -/
def product (g c : BitVec w) : List Bool → BitVec w → BitVec w
  | [], acc => acc
  | b :: bits, acc =>
    bif acc.getLsbD 0 then product g c bits ((acc >>> 1 ^^^ g) ^^^ bif b then c else 0)
    else product g c bits (acc >>> 1 ^^^ bif b then c else 0)

/-- A square. -/
def square (g c : BitVec w) : BitVec w := product g c ((List.range w).map c.getLsbD) 0

/-- A power of `X`, by `k` squares: the exponent is below `2 ^ k`. -/
def power (g : BitVec w) : ℕ → ℕ → BitVec w
  | 0, _ => unit w
  | k + 1, n =>
    bif n.testBit 0 then shift g (square g (power g k (n / 2))) else square g (power g k (n / 2))

theorem residue_unit (hw : 0 < w) (g : BitVec w) : residue g (unit w) = 1 := by
  have hone : polynomial (unit w) = 1 := by
    ext k
    rw [coeff_polynomial, coeff_one, unit, BitVec.getMsbD_eq_getLsbD, BitVec.getLsbD_twoPow]
    by_cases hk : k = 0
    · simp [hk, hw]
    · by_cases hlt : k < w
      · simp [hk, hlt, show w - 1 ≠ w - 1 - k by omega]
      · simp [hk, hlt]
  rw [residue, hone, map_one]

theorem product_cons {acc : BitVec w} : product g c (b :: bits) acc =
    product g c bits (shift g acc ^^^ bif b then c else 0) := by
  rw [product, shift]
  cases acc.getLsbD 0 <;> rfl

theorem residue_product (hw : 0 < w) (g c acc : BitVec w) (bits : List Bool) :
    residue g (product g c bits acc) = AdjoinRoot.root (generator g) ^ bits.length * residue g acc +
      AdjoinRoot.mk (generator g) (message bits) * residue g c := by
  induction bits generalizing acc with
  | nil => simp [product]
  | cons b bits ih =>
    have hbit : residue g (bif b then c else 0) =
        AdjoinRoot.mk (generator g) (C (coefficient b)) * residue g c := by
      cases b <;> simp
    rw [product_cons, ih, residue_xor, residue_shift hw, hbit, message_cons, map_add, map_mul,
      map_pow, AdjoinRoot.mk_X, List.length_cons]
    ring

theorem message_bits (c : BitVec w) : message ((List.range w).map c.getLsbD) = polynomial c := by
  -- The first bit is that of the highest power.
  have hcoeff (bits : List Bool) (k : ℕ) : (message bits).coeff k =
      coefficient (bits.reverse.getD k false) := by
    induction bits with
    | nil => simp
    | cons b bits ih =>
      rw [message_cons, coeff_add, ih, coeff_C_mul, coeff_X_pow, List.reverse_cons]
      rcases lt_trichotomy k bits.length with hk | hk | hk
      · simp [List.getElem?_append_left, hk, hk.ne]
      · simp [hk]
      · have h1 : bits.length + 1 ≤ k := hk
        simp [List.getElem?_eq_none, hk.ne', h1, hk.le]
  ext k
  rw [hcoeff, coeff_polynomial, BitVec.getMsbD_eq_getLsbD]
  by_cases hk : k < w
  · simp [hk]
  · simp [hk]

theorem residue_square (hw : 0 < w) (g c : BitVec w) :
    residue g (square g c) = residue g c ^ 2 := by
  have hzero : residue g (0 : BitVec w) = 0 := residue_zero g
  rw [square, residue_product hw, message_bits, hzero, mul_zero, zero_add, pow_two]
  rfl

theorem residue_power (hw : 0 < w) (g : BitVec w) {k n : ℕ} (hn : n < 2 ^ k) :
    residue g (power g k n) = AdjoinRoot.root (generator g) ^ n := by
  induction k generalizing n with
  | zero =>
    rw [Nat.lt_one_iff.mp hn, pow_zero, power]
    exact residue_unit hw g
  | succ k ih =>
    have hhalf := ih (show n / 2 < 2 ^ k by omega)
    rw [power, Nat.testBit_zero]
    -- The last bit of the exponent decides whether the square is shifted.
    obtain h | h := Nat.mod_two_eq_zero_or_one n
    · have hn : n = n / 2 * 2 := by omega
      rw [h, hn, pow_mul, ← hn, ← hhalf]
      exact residue_square hw g _
    · have hn : n = n / 2 * 2 + 1 := by omega
      rw [h, hn, pow_succ, pow_mul, ← hn, ← hhalf, ← residue_square hw, mul_comm]
      exact residue_shift hw g _

/-- When a power of `X` is `1`, by computation. -/
theorem root_pow_eq_one_iff (hw : 0 < w) (g : BitVec w) {k n : ℕ} (hn : n < 2 ^ k) :
    AdjoinRoot.root (generator g) ^ n = 1 ↔ power g k n = unit w := by
  rw [← residue_power hw g hn, ← residue_unit hw g, (residue_injective g).eq_iff]

end ShiftRegister
