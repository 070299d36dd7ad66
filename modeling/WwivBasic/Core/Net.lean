import WwivBasic.Core.StringUtils
import WwivBasic.Core.ToNumber

/-!
# Private addresses

`is_rfc1918_private_address` of `core/net.cpp` splits a text at its dots, leaves empty parts out,
and reads the others with `to_number`. It looks at the first two numbers: they have no upper bound
after 172, and what a part has after its number is not seen.

## Main definitions

* `isRfc1918PrivateAddress`: the operation
* `IsAddress`, `PrivateAddress`: addresses, and those of the private ranges

## Main results

* `isRfc1918PrivateAddress_iff`: when the answer is right
-/

namespace WwivBasic

/-- The loop that reads the parts, one `to_number<int>` after the other. -/
def readNumbers : List Str → Bool → List Int × Bool
  | [], errno => ([], errno)
  | part :: parts, errno =>
    let (n, errno) := toNumber intMin intMax part errno
    let (o, errno) := readNumbers parts errno
    (n :: o, errno)

/-- `is_rfc1918_private_address`, with the `errno` before and after it. -/
def isRfc1918PrivateAddress (ip : Str) (errno : Bool) : Bool × Bool :=
  let parts := splitString ip ['.'] true
  if parts.length ≠ 4 then (false, errno)
  else
    let (o, errno) := readNumbers parts errno
    match o with
    | [o0, o1, _, _] => (o0 = 10 || o0 = 172 && 16 ≤ o1 || o0 = 192 && o1 = 168, errno)
    | _ => (false, errno)

/-! ## Addresses -/

/-- Decimal digits that denote a number up to 255. -/
def IsOctet (t : Str) (n : ℕ) : Prop :=
  t ≠ [] ∧ (∀ c ∈ t, c.isDigit = true) ∧ digitsValue 0 t = n ∧ n ≤ 255

/-- Four such numbers with single dots between them. -/
def IsAddress (s : Str) (a b c d : ℕ) : Prop :=
  ∃ ta tb tc td, s = ta ++ '.' :: (tb ++ '.' :: (tc ++ '.' :: td)) ∧
    IsOctet ta a ∧ IsOctet tb b ∧ IsOctet tc c ∧ IsOctet td d

/-- 10.0.0.0 to 10.255.255.255, 172.16.0.0 to 172.31.255.255 and 192.168.0.0 to 192.168.255.255, by
the first two numbers. -/
def IsPrivate (a b : ℕ) : Prop := a = 10 ∨ a = 172 ∧ 16 ≤ b ∧ b ≤ 31 ∨ a = 192 ∧ b = 168

/-- An address of a private range. -/
def PrivateAddress (s : Str) : Prop := ∃ a b c d, IsAddress s a b c d ∧ IsPrivate a b

/-- Four parts that are not empty, of which the first two begin with numbers as of a private range,
with no upper bound after 172 but that of `long`. -/
def SeemsPrivate (s : Str) : Prop :=
  ∃ p0 p1 p2 p3, splitString s ['.'] true = [p0, p1, p2, p3] ∧
    (leadingNumber p0 = 10 ∨
      leadingNumber p0 = 172 ∧ 16 ≤ leadingNumber p1 ∧ leadingNumber p1 ≤ longMax ∨
      leadingNumber p0 = 192 ∧ leadingNumber p1 = 168)

variable {s t : Str} {a b c d n : ℕ} {errno : Bool} {parts : List Str}

/-! ## The numbers of the parts -/

/-- With `errno` set, every number is 0. -/
theorem readNumbers_true (parts : List Str) :
    readNumbers parts true = (List.replicate parts.length 0, true) := by
  induction parts with
  | nil => rfl
  | cons part parts ih =>
    have hpart : toNumber intMin intMax part true = (0, true) := by
      rw [toNumber_eq]
      simp
    rw [readNumbers, hpart]
    dsimp only
    rw [ih]
    rfl

theorem isRfc1918PrivateAddress_true (s : Str) : (isRfc1918PrivateAddress s true).1 = false := by
  rw [isRfc1918PrivateAddress]
  dsimp only
  split_ifs with h
  · rfl
  · rw [readNumbers_true, not_not.mp h]
    decide

/-- The first number is read with `errno` clear, and the second too where the first is one of
those that are looked for. -/
theorem tests_readNumbers (p0 p1 p2 p3 : Str) :
    (match readNumbers [p0, p1, p2, p3] false with
      | ([o0, o1, _, _], errno) => (o0 = 10 || o0 = 172 && 16 ≤ o1 || o0 = 192 && o1 = 168, errno)
      | (_, errno) => (false, errno)).1 = true ↔
      leadingNumber p0 = 10 ∨
        leadingNumber p0 = 172 ∧ 16 ≤ leadingNumber p1 ∧ leadingNumber p1 ≤ longMax ∨
        leadingNumber p0 = 192 ∧ leadingNumber p1 = 168 := by
  simp only [readNumbers]
  rw [toNumber_eq p0, toNumber_eq p1]
  simp only [Bool.or_eq_true, Bool.and_eq_true, decide_eq_true_eq, Bool.false_eq_true, false_or,
    Bool.false_or, Bool.not_eq_true', decide_eq_false_iff_not]
  generalize leadingNumber p0 = m
  generalize leadingNumber p1 = k
  simp only [InLongRange, clamp, longMin, longMax, intMin, intMax]
  split_ifs
  all_goals omega

/-- Of a text with four parts, that is a test of its first two. -/
theorem seemsPrivate_iff_of_parts {p0 p1 p2 p3 : Str}
    (hsplit : splitString s ['.'] true = [p0, p1, p2, p3]) : SeemsPrivate s ↔
      leadingNumber p0 = 10 ∨
        leadingNumber p0 = 172 ∧ 16 ≤ leadingNumber p1 ∧ leadingNumber p1 ≤ longMax ∨
        leadingNumber p0 = 192 ∧ leadingNumber p1 = 168 := by
  constructor
  · rintro ⟨q0, q1, q2, q3, hsplit', htests⟩
    rw [hsplit] at hsplit'
    simp only [List.cons.injEq] at hsplit'
    obtain ⟨rfl, rfl, -⟩ := hsplit'
    exact htests
  · intro htests
    exact ⟨p0, p1, p2, p3, hsplit, htests⟩

/-- From a clear `errno` the texts that seem private are accepted. -/
theorem isRfc1918PrivateAddress_false_iff (s : Str) :
    (isRfc1918PrivateAddress s false).1 = true ↔ SeemsPrivate s := by
  rw [isRfc1918PrivateAddress]
  dsimp only
  split_ifs with h
  · refine iff_of_false not_false ?_
    rintro ⟨p0, p1, p2, p3, hsplit, -⟩
    exact h (by rw [hsplit]; rfl)
  · obtain ⟨p0, p1, p2, p3, hsplit⟩ := List.length_eq_four.mp (not_not.mp h)
    rw [hsplit, seemsPrivate_iff_of_parts hsplit]
    exact tests_readNumbers p0 p1 p2 p3

/-! ## The parts of an address -/

theorem IsOctet.dot_not_mem (h : IsOctet t n) : '.' ∉ t := by
  intro hdot
  exact absurd (h.2.1 '.' hdot) (by decide)

theorem IsOctet.leadingNumber_eq (h : IsOctet t n) : leadingNumber t = n := by
  obtain ⟨hne, hdigits, hvalue, -⟩ := h
  have hhead : t.head?.any Char.isDigit = true := by
    obtain ⟨c, t, rfl⟩ := List.exists_cons_of_ne_nil hne
    simpa using hdigits c List.mem_cons_self
  rw [WwivBasic.leadingNumber_eq hhead, leadingDigits, List.takeWhile_eq_self_iff.mpr hdigits,
    hvalue]

/-- The parts of an address are its numbers. -/
theorem IsAddress.exists_parts (h : IsAddress s a b c d) :
    ∃ p0 p1 p2 p3, splitString s ['.'] true = [p0, p1, p2, p3] ∧ leadingNumber p0 = a ∧
      leadingNumber p1 = b := by
  obtain ⟨ta, tb, tc, td, rfl, ha, hb, hc, hd⟩ := h
  refine ⟨ta, tb, tc, td, ?_, ha.leadingNumber_eq, hb.leadingNumber_eq⟩
  rw [splitString_append ha.dot_not_mem, splitString_append hb.dot_not_mem,
    splitString_append hc.dot_not_mem, splitString_of_not_mem hd.dot_not_mem hd.1]
  simp [ha.1, hb.1, hc.1]

theorem IsAddress.unique {a' b' c' d' : ℕ} (h : IsAddress s a b c d)
    (h' : IsAddress s a' b' c' d') : a = a' ∧ b = b' := by
  obtain ⟨p0, p1, p2, p3, hsplit, hp0, hp1⟩ := h.exists_parts
  obtain ⟨q0, q1, q2, q3, hsplit', hq0, hq1⟩ := h'.exists_parts
  rw [hsplit] at hsplit'
  simp only [List.cons.injEq] at hsplit'
  obtain ⟨rfl, rfl, -⟩ := hsplit'
  omega

/-- Of an address, that is a test of its first two numbers. -/
theorem IsAddress.seemsPrivate_iff (h : IsAddress s a b c d) :
    SeemsPrivate s ↔ a = 10 ∨ a = 172 ∧ 16 ≤ b ∨ a = 192 ∧ b = 168 := by
  have hb : (b : Int) ≤ longMax := by
    obtain ⟨-, tb, -, -, -, -, hb, -, -⟩ := h
    have hle := hb.2.2.2
    rw [longMax]
    omega
  obtain ⟨p0, p1, p2, p3, hsplit, hp0, hp1⟩ := h.exists_parts
  rw [seemsPrivate_iff_of_parts hsplit, hp0, hp1]
  omega

theorem PrivateAddress.seemsPrivate (h : PrivateAddress s) : SeemsPrivate s := by
  obtain ⟨a, b, c, d, haddress, hprivate⟩ := h
  rw [haddress.seemsPrivate_iff]
  rw [IsPrivate] at hprivate
  omega

/-- The answer is right exactly when a text that seems private is an address, with a second number
of 31 at most after 172; with `errno` set by an earlier call, when there is no private address. -/
theorem isRfc1918PrivateAddress_iff (s : Str) (errno : Bool) :
    ((isRfc1918PrivateAddress s errno).1 = true ↔ PrivateAddress s) ↔
      if errno then ¬PrivateAddress s
      else SeemsPrivate s → ∃ a b c d, IsAddress s a b c d ∧ (a = 172 → b ≤ 31) := by
  cases errno with
  | true =>
    rw [isRfc1918PrivateAddress_true, if_pos rfl]
    simp
  | false =>
    rw [isRfc1918PrivateAddress_false_iff, if_neg Bool.false_ne_true]
    constructor
    · intro h hseems
      obtain ⟨a, b, c, d, haddress, hprivate⟩ := h.mp hseems
      rw [IsPrivate] at hprivate
      exact ⟨a, b, c, d, haddress, by omega⟩
    · intro h
      refine ⟨fun hseems => ?_, PrivateAddress.seemsPrivate⟩
      obtain ⟨a, b, c, d, haddress, hle⟩ := h hseems
      refine ⟨a, b, c, d, haddress, ?_⟩
      have htests := haddress.seemsPrivate_iff.mp hseems
      rw [IsPrivate]
      omega

/-- 172.32.0.0 is accepted. -/
theorem isRfc1918PrivateAddress_above :
    ¬((isRfc1918PrivateAddress "172.32.0.0".toList false).1 = true ↔
      PrivateAddress "172.32.0.0".toList) := by
  have haddress : IsAddress "172.32.0.0".toList 172 32 0 0 :=
    ⟨['1', '7', '2'], ['3', '2'], ['0'], ['0'], by decide, by unfold IsOctet; decide,
      by unfold IsOctet; decide, by unfold IsOctet; decide, by unfold IsOctet; decide⟩
  intro h
  rw [isRfc1918PrivateAddress_false_iff] at h
  obtain ⟨a, b, c, d, haddress', hprivate⟩ := h.mp (haddress.seemsPrivate_iff.mpr (by omega))
  obtain ⟨rfl, rfl⟩ := haddress.unique haddress'
  rw [IsPrivate] at hprivate
  omega

end WwivBasic
