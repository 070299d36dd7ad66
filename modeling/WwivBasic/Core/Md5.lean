import WwivBasic.Core.Uuid
import WwivBasic.Foundations.BlockHash
import WwivBasic.Foundations.Overwriting

/-!
# The rounds of a digest

`core/md5.cpp` takes in 64 bytes at a time. The steps of the four rounds are written out one by one,
each of them for the register it changes, and with functions that save operations. RFC 1321 gives
one step, that rotates the registers, an index for the word and a table for the constant and the
shift.

## Main definitions

* `step`, `round1` to `round4`, `block`: the steps as `body` has them
* `rfcStep`, `rfcBlock`: the steps by their number

## Main results

* `block_eq_rfcBlock`: the steps that are written out are those of the RFC
-/

namespace WwivBasic

namespace Md5

/-- `MD5_u32plus`. -/
abbrev U32plus := BitVec 32

/-! ## The basic functions -/

/-- "optimized compared to their RFC 1321 definitions". -/
def F (x y z : U32plus) : U32plus := z ^^^ (x &&& (y ^^^ z))

def G (x y z : U32plus) : U32plus := y ^^^ (z &&& (x ^^^ y))

def H (x y z : U32plus) : U32plus := (x ^^^ y) ^^^ z

def H2 (x y z : U32plus) : U32plus := x ^^^ (y ^^^ z)

def I (x y z : U32plus) : U32plus := y ^^^ (x ||| ~~~ z)

/-- `STEP`: the new value of its first register. -/
def step (f : U32plus → U32plus → U32plus → U32plus) (a b c d x t : U32plus) (s : ℕ) : U32plus :=
  let a := a + (f b c d + x + t)
  let a := (a <<< s) ||| ((a &&& 0xffffffff) >>> (32 - s))
  a + b

/-- The registers `a`, `b`, `c` and `d`. -/
@[ext] structure Registers where
  a : U32plus
  b : U32plus
  c : U32plus
  d : U32plus
  deriving DecidableEq

section Steps

variable (r : Registers) (f : U32plus → U32plus → U32plus → U32plus) (x t : U32plus) (s : ℕ)

/-- `STEP(f, a, b, c, d, x, t, s)`. -/
def Registers.stepA : Registers := { r with a := step f r.a r.b r.c r.d x t s }

/-- `STEP(f, d, a, b, c, x, t, s)`. -/
def Registers.stepD : Registers := { r with d := step f r.d r.a r.b r.c x t s }

/-- `STEP(f, c, d, a, b, x, t, s)`. -/
def Registers.stepC : Registers := { r with c := step f r.c r.d r.a r.b x t s }

/-- `STEP(f, b, c, d, a, x, t, s)`. -/
def Registers.stepB : Registers := { r with b := step f r.b r.c r.d r.a x t s }

end Steps

/-- `SET` and `GET`: four bytes "in little-endian byte order". -/
def set (ptr : List UInt8) (n : ℕ) : U32plus :=
  (ptr.getD (n * 4) 0).toBitVec.setWidth 32 |||
    (ptr.getD (n * 4 + 1) 0).toBitVec.setWidth 32 <<< 8 |||
    (ptr.getD (n * 4 + 2) 0).toBitVec.setWidth 32 <<< 16 |||
    (ptr.getD (n * 4 + 3) 0).toBitVec.setWidth 32 <<< 24

/-- `body`: "Round 1". -/
def round1 (ptr : List UInt8) (r : Registers) : Registers :=
  r
    |>.stepA F (set ptr 0) 0xd76aa478 7
    |>.stepD F (set ptr 1) 0xe8c7b756 12
    |>.stepC F (set ptr 2) 0x242070db 17
    |>.stepB F (set ptr 3) 0xc1bdceee 22
    |>.stepA F (set ptr 4) 0xf57c0faf 7
    |>.stepD F (set ptr 5) 0x4787c62a 12
    |>.stepC F (set ptr 6) 0xa8304613 17
    |>.stepB F (set ptr 7) 0xfd469501 22
    |>.stepA F (set ptr 8) 0x698098d8 7
    |>.stepD F (set ptr 9) 0x8b44f7af 12
    |>.stepC F (set ptr 10) 0xffff5bb1 17
    |>.stepB F (set ptr 11) 0x895cd7be 22
    |>.stepA F (set ptr 12) 0x6b901122 7
    |>.stepD F (set ptr 13) 0xfd987193 12
    |>.stepC F (set ptr 14) 0xa679438e 17
    |>.stepB F (set ptr 15) 0x49b40821 22

/-- `body`: "Round 2". -/
def round2 (ptr : List UInt8) (r : Registers) : Registers :=
  r
    |>.stepA G (set ptr 1) 0xf61e2562 5
    |>.stepD G (set ptr 6) 0xc040b340 9
    |>.stepC G (set ptr 11) 0x265e5a51 14
    |>.stepB G (set ptr 0) 0xe9b6c7aa 20
    |>.stepA G (set ptr 5) 0xd62f105d 5
    |>.stepD G (set ptr 10) 0x02441453 9
    |>.stepC G (set ptr 15) 0xd8a1e681 14
    |>.stepB G (set ptr 4) 0xe7d3fbc8 20
    |>.stepA G (set ptr 9) 0x21e1cde6 5
    |>.stepD G (set ptr 14) 0xc33707d6 9
    |>.stepC G (set ptr 3) 0xf4d50d87 14
    |>.stepB G (set ptr 8) 0x455a14ed 20
    |>.stepA G (set ptr 13) 0xa9e3e905 5
    |>.stepD G (set ptr 2) 0xfcefa3f8 9
    |>.stepC G (set ptr 7) 0x676f02d9 14
    |>.stepB G (set ptr 12) 0x8d2a4c8a 20

/-- `body`: "Round 3". -/
def round3 (ptr : List UInt8) (r : Registers) : Registers :=
  r
    |>.stepA H (set ptr 5) 0xfffa3942 4
    |>.stepD H2 (set ptr 8) 0x8771f681 11
    |>.stepC H (set ptr 11) 0x6d9d6122 16
    |>.stepB H2 (set ptr 14) 0xfde5380c 23
    |>.stepA H (set ptr 1) 0xa4beea44 4
    |>.stepD H2 (set ptr 4) 0x4bdecfa9 11
    |>.stepC H (set ptr 7) 0xf6bb4b60 16
    |>.stepB H2 (set ptr 10) 0xbebfbc70 23
    |>.stepA H (set ptr 13) 0x289b7ec6 4
    |>.stepD H2 (set ptr 0) 0xeaa127fa 11
    |>.stepC H (set ptr 3) 0xd4ef3085 16
    |>.stepB H2 (set ptr 6) 0x04881d05 23
    |>.stepA H (set ptr 9) 0xd9d4d039 4
    |>.stepD H2 (set ptr 12) 0xe6db99e5 11
    |>.stepC H (set ptr 15) 0x1fa27cf8 16
    |>.stepB H2 (set ptr 2) 0xc4ac5665 23

/-- `body`: "Round 4". -/
def round4 (ptr : List UInt8) (r : Registers) : Registers :=
  r
    |>.stepA I (set ptr 0) 0xf4292244 6
    |>.stepD I (set ptr 7) 0x432aff97 10
    |>.stepC I (set ptr 14) 0xab9423a7 15
    |>.stepB I (set ptr 5) 0xfc93a039 21
    |>.stepA I (set ptr 12) 0x655b59c3 6
    |>.stepD I (set ptr 3) 0x8f0ccc92 10
    |>.stepC I (set ptr 10) 0xffeff47d 15
    |>.stepB I (set ptr 1) 0x85845dd1 21
    |>.stepA I (set ptr 8) 0x6fa87e4f 6
    |>.stepD I (set ptr 15) 0xfe2ce6e0 10
    |>.stepC I (set ptr 6) 0xa3014314 15
    |>.stepB I (set ptr 13) 0x4e0811a1 21
    |>.stepA I (set ptr 4) 0xf7537e82 6
    |>.stepD I (set ptr 11) 0xbd3af235 10
    |>.stepC I (set ptr 2) 0x2ad7d2bb 15
    |>.stepB I (set ptr 9) 0xeb86d391 21

/-- One pass of the loop of `body`. -/
def block (saved : Registers) (ptr : List UInt8) : Registers :=
  let r := round4 ptr (round3 ptr (round2 ptr (round1 ptr saved)))
  ⟨r.a + saved.a, r.b + saved.b, r.c + saved.c, r.d + saved.d⟩

/-! ## The steps of the RFC -/

/-- The functions of the four rounds. -/
def rfcF (x y z : U32plus) : U32plus := (x &&& y) ||| (~~~ x &&& z)

def rfcG (x y z : U32plus) : U32plus := (x &&& z) ||| (y &&& ~~~ z)

def rfcH (x y z : U32plus) : U32plus := x ^^^ y ^^^ z

def rfcI (x y z : U32plus) : U32plus := y ^^^ (x ||| ~~~ z)

/-- The constants of the steps. -/
def constants : List U32plus :=
  [0xd76aa478, 0xe8c7b756, 0x242070db, 0xc1bdceee, 0xf57c0faf, 0x4787c62a, 0xa8304613, 0xfd469501,
   0x698098d8, 0x8b44f7af, 0xffff5bb1, 0x895cd7be, 0x6b901122, 0xfd987193, 0xa679438e, 0x49b40821,
   0xf61e2562, 0xc040b340, 0x265e5a51, 0xe9b6c7aa, 0xd62f105d, 0x02441453, 0xd8a1e681, 0xe7d3fbc8,
   0x21e1cde6, 0xc33707d6, 0xf4d50d87, 0x455a14ed, 0xa9e3e905, 0xfcefa3f8, 0x676f02d9, 0x8d2a4c8a,
   0xfffa3942, 0x8771f681, 0x6d9d6122, 0xfde5380c, 0xa4beea44, 0x4bdecfa9, 0xf6bb4b60, 0xbebfbc70,
   0x289b7ec6, 0xeaa127fa, 0xd4ef3085, 0x04881d05, 0xd9d4d039, 0xe6db99e5, 0x1fa27cf8, 0xc4ac5665,
   0xf4292244, 0x432aff97, 0xab9423a7, 0xfc93a039, 0x655b59c3, 0x8f0ccc92, 0xffeff47d, 0x85845dd1,
   0x6fa87e4f, 0xfe2ce6e0, 0xa3014314, 0x4e0811a1, 0xf7537e82, 0xbd3af235, 0x2ad7d2bb, 0xeb86d391]

/-- The function of step `i`. -/
def roundFunction (i : ℕ) : U32plus → U32plus → U32plus → U32plus :=
  if i < 16 then rfcF else if i < 32 then rfcG else if i < 48 then rfcH else rfcI

/-- The word of step `i`. -/
def wordIndex (i : ℕ) : ℕ :=
  if i < 16 then i else if i < 32 then (5 * i + 1) % 16 else if i < 48 then (3 * i + 5) % 16
  else 7 * i % 16

/-- The shift of step `i`: four shifts in turn, in each round others. -/
def shiftAmount (i : ℕ) : ℕ :=
  ([7, 12, 17, 22, 5, 9, 14, 20, 4, 11, 16, 23, 6, 10, 15, 21] : List ℕ).getD (i / 16 * 4 + i % 4) 0

/-- Step `i`, after which the registers have moved by one. -/
def rfcStep (ptr : List UInt8) (r : Registers) (i : ℕ) : Registers :=
  { a := r.d
    b := r.b + (r.a + roundFunction i r.b r.c r.d + constants.getD i 0 +
      set ptr (wordIndex i)).rotateLeft (shiftAmount i)
    c := r.b
    d := r.c }

/-- The registers after the 64 steps, added to what they were before. -/
def rfcBlock (saved : Registers) (ptr : List UInt8) : Registers :=
  let r := (List.range 64).foldl (rfcStep ptr) saved
  ⟨saved.a + r.a, saved.b + r.b, saved.c + r.c, saved.d + r.d⟩

/-! ## The steps agree -/

theorem F_eq_rfcF : F = rfcF := by
  funext x y z
  ext i
  simp only [F, rfcF, BitVec.getElem_xor, BitVec.getElem_and, BitVec.getElem_or, BitVec.getElem_not]
  cases x[i] <;> cases y[i] <;> cases z[i] <;> rfl

theorem G_eq_rfcG : G = rfcG := by
  funext x y z
  ext i
  simp only [G, rfcG, BitVec.getElem_xor, BitVec.getElem_and, BitVec.getElem_or, BitVec.getElem_not]
  cases x[i] <;> cases y[i] <;> cases z[i] <;> rfl

theorem H2_eq_rfcH : H2 = rfcH := by
  funext x y z
  exact (BitVec.xor_assoc x y z).symm

variable {f f' : U32plus → U32plus → U32plus → U32plus} {x t : U32plus} {s : ℕ}

theorem step_eq (hs : s < 32) (a b c d : U32plus) : step f a b c d x t s =
    b + (a + f b c d + t + x).rotateLeft s := by
  have hmask (w : U32plus) : w &&& 0xffffffff = w := BitVec.and_allOnes
  -- The macro adds the word before the constant.
  have hsum : a + (f b c d + x + t) = a + f b c d + t + x := by
    rw [BitVec.add_assoc (f b c d), BitVec.add_comm x, ← BitVec.add_assoc, ← BitVec.add_assoc]
  rw [step, hsum, hmask, BitVec.rotateLeft_eq_rotateLeftAux_of_lt hs, BitVec.rotateLeftAux,
    BitVec.add_comm]

/-- A step of the RFC has this function, this word, this constant and this shift. -/
structure Entry (i : ℕ) (f : U32plus → U32plus → U32plus → U32plus) (n : ℕ) (t : U32plus) (s : ℕ) :
    Prop where
  function : roundFunction i = f
  word : wordIndex i = n
  constant : constants.getD i 0 = t
  shift : shiftAmount i = s
  shift_lt : s < 32

/-- Four steps of the RFC bring the registers back to their places. -/
theorem rfcStep_four {i j k l : ℕ} {fi fj fk fl : U32plus → U32plus → U32plus → U32plus}
    {ni nj nk nl si sj sk sl : ℕ} {ti tj tk tl : U32plus} (hi : Entry i fi ni ti si)
    (hj : Entry j fj nj tj sj) (hk : Entry k fk nk tk sk) (hl : Entry l fl nl tl sl)
    (ptr : List UInt8) (r : Registers) :
    rfcStep ptr (rfcStep ptr (rfcStep ptr (rfcStep ptr r i) j) k) l =
      (((r.stepA fi (set ptr ni) ti si).stepD fj (set ptr nj) tj sj).stepC fk (set ptr nk)
        tk sk).stepB fl (set ptr nl) tl sl := by
  -- The macro writes a register in its place, where the step of the RFC moves all of them.
  simp only [rfcStep, Registers.stepA, Registers.stepB, Registers.stepC, Registers.stepD,
    hi.function, hi.word, hi.constant, hi.shift, hj.function, hj.word, hj.constant, hj.shift,
    hk.function, hk.word, hk.constant, hk.shift, hl.function, hl.word, hl.constant, hl.shift,
    step_eq hi.shift_lt, step_eq hj.shift_lt, step_eq hk.shift_lt, step_eq hl.shift_lt]

theorem round1_eq (ptr : List UInt8) (r : Registers) :
    round1 ptr r = (List.range' 0 16).foldl (rfcStep ptr) r := by
  simp only [List.range', List.foldl_cons, List.foldl_nil]
  rw [round1, F_eq_rfcF]
  iterate 4
    rw [rfcStep_four ⟨rfl, rfl, rfl, rfl, by decide⟩ ⟨rfl, rfl, rfl, rfl, by decide⟩
      ⟨rfl, rfl, rfl, rfl, by decide⟩ ⟨rfl, rfl, rfl, rfl, by decide⟩]
  rfl

theorem round2_eq (ptr : List UInt8) (r : Registers) :
    round2 ptr r = (List.range' 16 16).foldl (rfcStep ptr) r := by
  simp only [List.range', List.foldl_cons, List.foldl_nil]
  rw [round2, G_eq_rfcG]
  iterate 4
    rw [rfcStep_four ⟨rfl, rfl, rfl, rfl, by decide⟩ ⟨rfl, rfl, rfl, rfl, by decide⟩
      ⟨rfl, rfl, rfl, rfl, by decide⟩ ⟨rfl, rfl, rfl, rfl, by decide⟩]
  rfl

theorem round3_eq (ptr : List UInt8) (r : Registers) :
    round3 ptr r = (List.range' 32 16).foldl (rfcStep ptr) r := by
  simp only [List.range', List.foldl_cons, List.foldl_nil]
  rw [round3, H2_eq_rfcH]
  iterate 4
    rw [rfcStep_four ⟨rfl, rfl, rfl, rfl, by decide⟩ ⟨rfl, rfl, rfl, rfl, by decide⟩
      ⟨rfl, rfl, rfl, rfl, by decide⟩ ⟨rfl, rfl, rfl, rfl, by decide⟩]
  rfl

theorem round4_eq (ptr : List UInt8) (r : Registers) :
    round4 ptr r = (List.range' 48 16).foldl (rfcStep ptr) r := by
  simp only [List.range', List.foldl_cons, List.foldl_nil]
  rw [round4]
  iterate 4
    rw [rfcStep_four ⟨rfl, rfl, rfl, rfl, by decide⟩ ⟨rfl, rfl, rfl, rfl, by decide⟩
      ⟨rfl, rfl, rfl, rfl, by decide⟩ ⟨rfl, rfl, rfl, rfl, by decide⟩]
  rfl

/-- **The steps that are written out are those of the RFC.** -/
theorem block_eq_rfcBlock (saved : Registers) (ptr : List UInt8) :
    block saved ptr = rfcBlock saved ptr := by
  have hsteps : round4 ptr (round3 ptr (round2 ptr (round1 ptr saved))) =
      (List.range 64).foldl (rfcStep ptr) saved := by
    have hrange : List.range 64 = List.range' 0 16 ++ List.range' 16 16 ++ List.range' 32 16 ++
        List.range' 48 16 := rfl
    rw [hrange, List.foldl_append, List.foldl_append, List.foldl_append, round1_eq, round2_eq,
      round3_eq, round4_eq]
  rw [block, rfcBlock, hsteps]
  simp only [BitVec.add_comm saved.a, BitVec.add_comm saved.b, BitVec.add_comm saved.c,
    BitVec.add_comm saved.d]

end Md5

end WwivBasic
