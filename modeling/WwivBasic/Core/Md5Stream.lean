import Mathlib.Algebra.Ring.Nat
import WwivBasic.Core.Md5
import WwivBasic.Foundations.Overwriting

/-!
# Digests of texts

A context of `core/md5.cpp` takes a text in pieces. It counts the bytes, keeps what does not make up
a block of 64 bytes in a buffer, and writes the padding and the count into the buffer at the end.

## Main definitions

* `Md5Ctx`: `MD5_CTX`
* `md5Init`, `md5Update`, `md5Final`: the calls of a context
* `md5`: the text of a digest
* `rfcDigest`: the digest of a text by RFC 1321

## Main results

* `md5Final_eq_rfcDigest`: the pieces do not matter, and neither does what a context held before
* `md5_collision`: texts of one digest have a collision among their blocks
-/

namespace WwivBasic

namespace Md5

open BlockHash Overwriting

/-! ## Contexts -/

/-- `MD5_CTX`. The words of `block` are read from the text itself. -/
structure Md5Ctx where
  lo : U32plus
  hi : U32plus
  regs : Registers
  buffer : List UInt8
  length_buffer : buffer.length = 64

/-- `memcpy` to the buffer, at a position. -/
def Md5Ctx.memcpy (ctx : Md5Ctx) (pos : ℕ) (data : List UInt8) : Md5Ctx :=
  { ctx with
    buffer := resize 0 64 (ctx.buffer.take pos ++ data ++ ctx.buffer.drop (pos + data.length))
    length_buffer := length_resize }

/-- The loop of `body`, with the size that is left: the registers, and `ptr` where it stops. -/
def bodyLoop : ℕ → Registers → List UInt8 → ℕ → Registers × List UInt8
  | 0, r, ptr, _ => (r, ptr)
  | fuel + 1, r, ptr, size =>
    let r := block r ptr
    let ptr := ptr.drop 64
    let size := size - 64
    if size = 0 then (r, ptr) else bodyLoop fuel r ptr size

/-- `body`. -/
def body (r : Registers) (data : List UInt8) (size : ℕ) : Registers × List UInt8 :=
  bodyLoop size r data size

/-- The registers at the start. -/
def initial : Registers := ⟨0x67452301, 0xefcdab89, 0x98badcfe, 0x10325476⟩

/-- `MD5_Init`. -/
def md5Init (ctx : Md5Ctx) : Md5Ctx := { ctx with regs := initial, lo := 0, hi := 0 }

/-- The end of `MD5_Update`, with an empty buffer. -/
def updateBlocks (ctx : Md5Ctx) (data : List UInt8) : Md5Ctx :=
  if data.length ≥ 64 then
    let (regs, rest) := body ctx.regs data (data.length - (data.length &&& 0x3f))
    { ctx with regs }.memcpy 0 (rest.take (data.length &&& 0x3f))
  else ctx.memcpy 0 data

/-- `MD5_Update`. -/
def md5Update (ctx : Md5Ctx) (data : List UInt8) : Md5Ctx :=
  let size : BitVec 64 := BitVec.ofNat 64 data.length
  let saved_lo := ctx.lo
  let lo := ((saved_lo.setWidth 64 + size) &&& 0x1fffffff).setWidth 32
  let hi := if lo < saved_lo then ctx.hi + 1 else ctx.hi
  let hi := (hi.setWidth 64 + (size >>> 29)).setWidth 32
  let ctx := { ctx with lo, hi }
  let used := (saved_lo &&& 0x3f).toNat
  if used ≠ 0 then
    let available := 64 - used
    if data.length < available then ctx.memcpy used data
    else
      let ctx := ctx.memcpy used (data.take available)
      let ctx := { ctx with regs := (body ctx.regs ctx.buffer 64).1 }
      updateBlocks ctx (data.drop available)
  else updateBlocks ctx data

/-- The bytes of a word, from the low one on. -/
def wordBytes (w : U32plus) : List UInt8 :=
  [⟨w.setWidth 8⟩, ⟨(w >>> 8).setWidth 8⟩, ⟨(w >>> 16).setWidth 8⟩, ⟨(w >>> 24).setWidth 8⟩]

/-- The bytes of the registers. -/
def registerBytes (r : Registers) : List UInt8 :=
  wordBytes r.a ++ wordBytes r.b ++ wordBytes r.c ++ wordBytes r.d

/-- `memset(ctx, 0, sizeof(*ctx))`. -/
def cleared : Md5Ctx := ⟨0, 0, ⟨0, 0, 0, 0⟩, List.replicate 64 0, List.length_replicate⟩

/-- `MD5_Final`: the result, and the context afterwards. -/
def md5Final (ctx : Md5Ctx) : List UInt8 × Md5Ctx :=
  let used := (ctx.lo &&& 0x3f).toNat
  let ctx := ctx.memcpy used [0x80]
  let used := used + 1
  let available := 64 - used
  let (ctx, used, available) :=
    if available < 8 then
      let ctx := ctx.memcpy used (List.replicate available 0)
      ({ ctx with regs := (body ctx.regs ctx.buffer 64).1 }, 0, 64)
    else (ctx, used, available)
  let ctx := ctx.memcpy used (List.replicate (available - 8) 0)
  let ctx := ctx.memcpy 56 (wordBytes (ctx.lo <<< 3) ++ wordBytes ctx.hi)
  let regs := (body ctx.regs ctx.buffer 64).1
  (registerBytes regs, cleared)

/-- `md5`, with what the context holds before it is initialized. -/
def md5 (ctx : Md5Ctx) (text : List UInt8) : Str :=
  Uuid.hexText (md5Final (md5Update (md5Init ctx) text)).1

/-! ## The digest of the RFC -/

/-- The low 64 bits of a number, the low byte first. -/
def lengthBytes (n : ℕ) : List UInt8 := (List.range 8).map fun i => UInt8.ofNat (n / 256 ^ i)

/-- A text with its padding: a bit, zeros, and the number of its bits. -/
def pad (text : List UInt8) : List UInt8 :=
  text ++ 0x80 :: (List.replicate ((119 - text.length % 64) % 64) 0 ++
    lengthBytes (8 * text.length))

/-- The digest of a text. -/
def rfcDigest (text : List UInt8) : List UInt8 :=
  registerBytes (absorb rfcBlock 64 ((pad text).length / 64) initial (pad text))

/-! ## Blocks -/

variable {ctx : Md5Ctx} {xs data : List UInt8} {pos n : ℕ} {r : Registers}

theorem set_take (hn : n < 16) (ptr : List UInt8) : set (ptr.take 64) n = set ptr n := by
  have hget (k : ℕ) (hk : k < 64) : (ptr.take 64).getD k 0 = ptr.getD k 0 := by
    rw [List.getD_eq_getElem?_getD, List.getD_eq_getElem?_getD, List.getElem?_take_of_lt hk]
  rw [set, set, hget _ (by omega), hget _ (by omega), hget _ (by omega), hget _ (by omega)]

/-- A pass of the loop reads 64 bytes. -/
theorem block_take (r : Registers) (ptr : List UInt8) : block r (ptr.take 64) = block r ptr := by
  have hindex : ∀ i < 64, wordIndex i < 16 := by decide
  have hsteps : (List.range 64).foldl (rfcStep (ptr.take 64)) r =
      (List.range 64).foldl (rfcStep ptr) r := by
    apply List.foldl_ext
    intro r i hi
    rw [rfcStep, rfcStep, set_take (hindex i (List.mem_range.mp hi))]
  rw [block_eq_rfcBlock, block_eq_rfcBlock, rfcBlock, rfcBlock, hsteps]

theorem block_eq : block = rfcBlock := by
  funext r ptr
  exact block_eq_rfcBlock r ptr

theorem bodyLoop_eq {fuel : ℕ} (hfuel : n < fuel) (r : Registers) (ptr : List UInt8) :
    bodyLoop fuel r ptr ((n + 1) * 64) =
      (absorb block 64 (n + 1) r ptr, ptr.drop ((n + 1) * 64)) := by
  induction n generalizing fuel r ptr with
  | zero =>
    obtain _ | fuel := fuel
    · omega
    · rw [bodyLoop, absorb_succ, block_take]
      rfl
  | succ n ih =>
    obtain _ | fuel := fuel
    · omega
    · have hsize : (n + 1 + 1) * 64 - 64 = (n + 1) * 64 := by omega
      have hne : (n + 1) * 64 ≠ 0 := by omega
      rw [bodyLoop]
      simp only [hsize, hne, if_false]
      rw [ih (by omega), absorb_succ (n := n + 1), block_take, List.drop_drop,
        Nat.succ_mul (n + 1), Nat.add_comm 64]

/-- `body` takes in the blocks of a size that is made up of blocks. -/
theorem body_eq (r : Registers) (data : List UInt8) (hn : 0 < n) :
    body r data (n * 64) = (absorb block 64 n r data, data.drop (n * 64)) := by
  obtain _ | n := n
  · omega
  · exact bodyLoop_eq (by omega) r data

theorem body_block (r : Registers) (buffer : List UInt8) :
    (body r buffer 64).1 = block r buffer := by
  rw [body_eq r buffer Nat.one_pos, absorb_succ, block_take]
  rfl

theorem memcpy_buffer (h : pos + data.length ≤ 64) : (ctx.memcpy pos data).buffer =
    ctx.buffer.take pos ++ data ++ ctx.buffer.drop (pos + data.length) := by
  have hlen : (ctx.buffer.take pos ++ data ++ ctx.buffer.drop (pos + data.length)).length = 64 := by
    simp only [List.length_append, List.length_take, List.length_drop, ctx.length_buffer]
    omega
  change resize 0 64 _ = _
  rw [resize_of_le hlen.ge, List.take_of_length_le hlen.le]

/-- What is in the buffer up to the end of what was copied. -/
theorem take_memcpy (h : pos + data.length ≤ 64) :
    (ctx.memcpy pos data).buffer.take (pos + data.length) = ctx.buffer.take pos ++ data := by
  have hlen : (ctx.buffer.take pos ++ data).length = pos + data.length := by
    rw [List.length_append, List.length_take, ctx.length_buffer]
    omega
  rw [memcpy_buffer h, ← hlen]
  exact List.take_left

@[simp] theorem memcpy_regs : (ctx.memcpy pos data).regs = ctx.regs := rfl

@[simp] theorem memcpy_lo : (ctx.memcpy pos data).lo = ctx.lo := rfl

@[simp] theorem memcpy_hi : (ctx.memcpy pos data).hi = ctx.hi := rfl

theorem toNat_and_63 (w : U32plus) : (w &&& 0x3f).toNat = w.toNat % 64 := by
  rw [BitVec.toNat_and]
  exact Nat.and_two_pow_sub_one_eq_mod w.toNat 6

/-! ## Updates -/

/-- A context after a text: its registers and its buffer, and the count of the bytes. -/
structure Represents (ctx : Md5Ctx) (xs : List UInt8) : Prop where
  stream : feed block 64 ⟨initial, []⟩ xs = ⟨ctx.regs, ctx.buffer.take (xs.length % 64)⟩
  count : ctx.hi.toNat * 536870912 + ctx.lo.toNat = xs.length % 2305843009213693952
  lo_lt : ctx.lo.toNat < 536870912

theorem Represents.lo_mod (h : Represents ctx xs) : ctx.lo.toNat % 64 = xs.length % 64 := by
  have hcount := h.count
  omega

theorem represents_md5Init (ctx : Md5Ctx) : Represents (md5Init ctx) [] where
  stream := rfl
  count := by simp [md5Init]
  lo_lt := by simp [md5Init]

theorem updateBlocks_eq (ctx : Md5Ctx) (data : List UInt8) :
    feed block 64 ⟨ctx.regs, []⟩ data =
      ⟨(updateBlocks ctx data).regs, (updateBlocks ctx data).buffer.take (data.length % 64)⟩ := by
  have hmod : data.length &&& 0x3f = data.length % 64 :=
    Nat.and_two_pow_sub_one_eq_mod data.length 6
  by_cases h : data.length ≥ 64
  · -- the full blocks are taken in, and the rest goes to the buffer
    have hsize : data.length - (data.length &&& 0x3f) = data.length / 64 * 64 := by
      rw [hmod]
      omega
    have hrest : (data.drop (data.length / 64 * 64)).length = data.length % 64 := by
      rw [List.length_drop]
      omega
    have hbody := body_eq ctx.regs data (show 0 < data.length / 64 by omega)
    have htake := @take_memcpy { ctx with regs := absorb block 64 (data.length / 64) ctx.regs data }
      (data.drop (data.length / 64 * 64)) 0 (by omega)
    rw [hrest, Nat.zero_add, List.take_zero, List.nil_append] at htake
    rw [updateBlocks, if_pos h, hsize, hbody, feed]
    simp only [List.nil_append, hmod, memcpy_regs]
    rw [List.take_of_length_le hrest.le, htake]
  · -- there is no full block
    have htake := @take_memcpy ctx data 0 (by omega)
    rw [Nat.zero_add, List.take_zero, List.nil_append] at htake
    rw [updateBlocks, if_neg h, feed_of_lt (by simpa using h), Nat.mod_eq_of_lt (by omega), htake]
    rfl

theorem updateBlocks_lo (ctx : Md5Ctx) (data : List UInt8) :
    (updateBlocks ctx data).lo = ctx.lo := by
  rw [updateBlocks]
  split
  · rfl
  · rfl

theorem updateBlocks_hi (ctx : Md5Ctx) (data : List UInt8) :
    (updateBlocks ctx data).hi = ctx.hi := by
  rw [updateBlocks]
  split
  · rfl
  · rfl

/-- The low part of the count of `MD5_Update`. -/
def countLo (ctx : Md5Ctx) (data : List UInt8) : U32plus :=
  ((ctx.lo.setWidth 64 + BitVec.ofNat 64 data.length) &&& 0x1fffffff).setWidth 32

/-- The high part of the count of `MD5_Update`. -/
def countHi (ctx : Md5Ctx) (data : List UInt8) : U32plus :=
  ((if countLo ctx data < ctx.lo then ctx.hi + 1 else ctx.hi).setWidth 64 +
    (BitVec.ofNat 64 data.length >>> 29)).setWidth 32

theorem toNat_countLo (hdata : data.length < 18446744073709551616) :
    (countLo ctx data).toNat = (ctx.lo.toNat + data.length) % 536870912 := by
  have hmask (n : ℕ) : n &&& 536870911 = n % 536870912 := Nat.and_two_pow_sub_one_eq_mod n 29
  rw [countLo, BitVec.toNat_setWidth, BitVec.toNat_and, BitVec.toNat_add, BitVec.toNat_setWidth,
    BitVec.toNat_ofNat, Nat.mod_eq_of_lt hdata]
  change (((ctx.lo.toNat % 18446744073709551616 + data.length) % 18446744073709551616) &&&
    536870911) % 4294967296 = _
  rw [hmask]
  omega

/-- The count carries. -/
theorem count_eq (hlo : ctx.lo.toNat < 536870912) (hdata : data.length < 18446744073709551616) :
    (countHi ctx data).toNat * 536870912 + (countLo ctx data).toNat =
      (ctx.hi.toNat * 536870912 + ctx.lo.toNat + data.length) % 2305843009213693952 := by
  -- A low part that has become smaller has passed its bound, once.
  have hcarry : (if countLo ctx data < ctx.lo then ctx.hi + 1 else ctx.hi).toNat % 4294967296 =
      (ctx.hi.toNat + (ctx.lo.toNat + data.length % 536870912) / 536870912) % 4294967296 := by
    have hlt := @toNat_countLo ctx data hdata
    by_cases h : countLo ctx data < ctx.lo
    · have h' : (countLo ctx data).toNat < ctx.lo.toNat := h
      rw [if_pos h, BitVec.toNat_add]
      change (ctx.hi.toNat + 1) % 4294967296 % 4294967296 = _
      omega
    · have h' : ¬ (countLo ctx data).toNat < ctx.lo.toNat := h
      rw [if_neg h]
      omega
  -- The other multiples of the bound are added to the high part.
  have hhi : (countHi ctx data).toNat =
      ((if countLo ctx data < ctx.lo then ctx.hi + 1 else ctx.hi).toNat +
        data.length / 536870912) % 4294967296 := by
    rw [countHi, BitVec.toNat_setWidth, BitVec.toNat_add, BitVec.toNat_setWidth,
      BitVec.toNat_ushiftRight, BitVec.toNat_ofNat, Nat.mod_eq_of_lt hdata,
      Nat.shiftRight_eq_div_pow]
    change ((_ % 18446744073709551616 + data.length / 536870912) % 18446744073709551616) %
      4294967296 = _
    generalize (if countLo ctx data < ctx.lo then ctx.hi + 1 else ctx.hi) = hi
    have hlt := hi.isLt
    omega
  rw [hhi, toNat_countLo hdata]
  omega

/-- A context with the count of more bytes. -/
def counted (ctx : Md5Ctx) (data : List UInt8) : Md5Ctx :=
  { ctx with lo := countLo ctx data, hi := countHi ctx data }

/-- A context whose buffer is filled up with the first bytes, and taken in. -/
def filled (ctx : Md5Ctx) (used : ℕ) (data : List UInt8) : Md5Ctx :=
  { ctx.memcpy used (data.take (64 - used)) with
    regs := (body ctx.regs (ctx.memcpy used (data.take (64 - used))).buffer 64).1 }

theorem md5Update_eq (ctx : Md5Ctx) (data : List UInt8) : md5Update ctx data =
    if (ctx.lo &&& 0x3f).toNat ≠ 0 then
      if data.length < 64 - (ctx.lo &&& 0x3f).toNat then
        (counted ctx data).memcpy (ctx.lo &&& 0x3f).toNat data
      else updateBlocks (filled (counted ctx data) (ctx.lo &&& 0x3f).toNat data)
        (data.drop (64 - (ctx.lo &&& 0x3f).toNat))
    else updateBlocks (counted ctx data) data := rfl

theorem md5Update_lo (ctx : Md5Ctx) (data : List UInt8) :
    (md5Update ctx data).lo = countLo ctx data := by
  rw [md5Update_eq]
  split_ifs
  · rfl
  · exact updateBlocks_lo _ _
  · exact updateBlocks_lo _ _

theorem md5Update_hi (ctx : Md5Ctx) (data : List UInt8) :
    (md5Update ctx data).hi = countHi ctx data := by
  rw [md5Update_eq]
  split_ifs
  · rfl
  · exact updateBlocks_hi _ _
  · exact updateBlocks_hi _ _

/-- An update feeds the stream. -/
theorem md5Update_stream (ctx : Md5Ctx) (data : List UInt8) :
    feed block 64 ⟨ctx.regs, ctx.buffer.take (ctx.lo.toNat % 64)⟩ data =
      ⟨(md5Update ctx data).regs,
        (md5Update ctx data).buffer.take ((ctx.lo.toNat + data.length) % 64)⟩ := by
  have hlen : (ctx.buffer.take (ctx.lo.toNat % 64)).length = ctx.lo.toNat % 64 := by
    rw [List.length_take, ctx.length_buffer]
    omega
  rw [md5Update_eq, toNat_and_63]
  by_cases hused : ctx.lo.toNat % 64 = 0
  · -- nothing is pending
    rw [if_neg (not_not.mpr hused), hused, List.take_zero, Nat.add_mod, hused, Nat.zero_add,
      Nat.mod_mod]
    exact updateBlocks_eq (counted ctx data) data
  · rw [if_pos hused]
    by_cases hlt : data.length < 64 - ctx.lo.toNat % 64
    · -- the buffer is not filled up
      have hmod : (ctx.lo.toNat + data.length) % 64 = ctx.lo.toNat % 64 + data.length := by omega
      rw [if_pos hlt, hmod, feed_of_lt (by rw [List.length_append, hlen]; omega),
        take_memcpy (by omega)]
      rfl
    · -- the buffer is filled up, and taken in as a block
      have havail : (data.take (64 - ctx.lo.toNat % 64)).length = 64 - ctx.lo.toNat % 64 := by
        rw [List.length_take]
        omega
      have hfull : (ctx.buffer.take (ctx.lo.toNat % 64) ++
          data.take (64 - ctx.lo.toNat % 64)).length = 64 := by
        rw [List.length_append, hlen, havail]
        omega
      have hbuffer : (ctx.memcpy (ctx.lo.toNat % 64) (data.take (64 - ctx.lo.toNat % 64))).buffer =
          ctx.buffer.take (ctx.lo.toNat % 64) ++ data.take (64 - ctx.lo.toNat % 64) := by
        rw [memcpy_buffer (by omega), List.drop_eq_nil_of_le, List.append_nil]
        rw [ctx.length_buffer]
        omega
      have hmod : (ctx.lo.toNat + data.length) % 64 =
          (data.drop (64 - ctx.lo.toNat % 64)).length % 64 := by
        rw [List.length_drop]
        omega
      rw [if_neg hlt]
      conv => lhs; rw [← List.take_append_drop (64 - ctx.lo.toNat % 64) data]
      rw [feed_append_of_length (by decide) hfull, ← hbuffer, ← body_block, hmod]
      exact updateBlocks_eq (filled (counted ctx data) (ctx.lo.toNat % 64) data) _

theorem represents_md5Update (h : Represents ctx xs) (hdata : data.length < 18446744073709551616) :
    Represents (md5Update ctx data) (xs ++ data) where
  stream := by
    have hmod : (xs ++ data).length % 64 = (ctx.lo.toNat + data.length) % 64 := by
      have hlo := h.lo_mod
      rw [List.length_append]
      omega
    rw [← feed_feed (by decide), h.stream, ← h.lo_mod, md5Update_stream, hmod]
  count := by
    have hcount := h.count
    rw [md5Update_lo, md5Update_hi, count_eq h.lo_lt hdata, List.length_append]
    omega
  lo_lt := by
    rw [md5Update_lo, toNat_countLo hdata]
    exact Nat.mod_lt _ (by decide)

theorem represents_foldl (pieces : List (List UInt8))
    (hpieces : ∀ piece ∈ pieces, piece.length < 18446744073709551616) (h : Represents ctx xs) :
    Represents (pieces.foldl md5Update ctx) (xs ++ pieces.flatten) := by
  induction pieces generalizing ctx xs with
  | nil => rwa [List.flatten_nil, List.append_nil]
  | cons piece pieces ih =>
    rw [List.foldl_cons, List.flatten_cons, ← List.append_assoc]
    apply ih
    · exact fun q hq => hpieces q (List.mem_cons_of_mem _ hq)
    · exact represents_md5Update h (hpieces piece List.mem_cons_self)

/-! ## The end of a text -/

/-- A buffer that is filled up with the end of a text. -/
theorem memcpy_buffer_full (h : pos + data.length = 64) :
    (ctx.memcpy pos data).buffer = ctx.buffer.take pos ++ data := by
  rw [memcpy_buffer h.le, List.drop_eq_nil_of_le (by rw [ctx.length_buffer, h]), List.append_nil]

theorem length_wordBytes (w : U32plus) : (wordBytes w).length = 4 := rfl

/-- What `MD5_Final` leaves in the buffer at the end. -/
def lastBlock (ctx : Md5Ctx) (used available : ℕ) : Md5Ctx :=
  (ctx.memcpy used (List.replicate (available - 8) 0)).memcpy 56
    (wordBytes (ctx.lo <<< 3) ++ wordBytes ctx.hi)

theorem lastBlock_buffer {used available : ℕ} (h : used + available = 64) (h8 : 8 ≤ available) :
    (lastBlock ctx used available).buffer = ctx.buffer.take used ++
      (List.replicate (available - 8) (0 : UInt8) ++
        (wordBytes (ctx.lo <<< 3) ++ wordBytes ctx.hi)) := by
  have hpos : used + (List.replicate (available - 8) (0 : UInt8)).length = 56 := by
    rw [List.length_replicate]
    omega
  rw [lastBlock, memcpy_buffer_full (by rfl), ← List.append_assoc (ctx.buffer.take used)]
  congr 1
  rw [← hpos, take_memcpy (by omega)]

/-- A context with the bit behind the text. -/
def marked (ctx : Md5Ctx) (used : ℕ) : Md5Ctx := ctx.memcpy used [0x80]

/-- A context with other registers. -/
def Md5Ctx.withRegs (ctx : Md5Ctx) (regs : Registers) : Md5Ctx := { ctx with regs }

@[simp] theorem withRegs_lo : (ctx.withRegs r).lo = ctx.lo := rfl

@[simp] theorem withRegs_hi : (ctx.withRegs r).hi = ctx.hi := rfl

@[simp] theorem withRegs_regs : (ctx.withRegs r).regs = r := rfl

/-- A context whose last full block is taken in. -/
def flushed (ctx : Md5Ctx) (used : ℕ) : Md5Ctx :=
  (ctx.memcpy used (List.replicate (64 - used) 0)).withRegs
    (body ctx.regs (ctx.memcpy used (List.replicate (64 - used) 0)).buffer 64).1

@[simp] theorem marked_regs (ctx : Md5Ctx) (used : ℕ) : (marked ctx used).regs = ctx.regs := rfl

@[simp] theorem marked_lo (ctx : Md5Ctx) (used : ℕ) : (marked ctx used).lo = ctx.lo := rfl

@[simp] theorem marked_hi (ctx : Md5Ctx) (used : ℕ) : (marked ctx used).hi = ctx.hi := rfl

theorem flushed_lo (ctx : Md5Ctx) (used : ℕ) : (flushed ctx used).lo = ctx.lo := by
  rw [flushed, withRegs_lo, memcpy_lo]

theorem flushed_hi (ctx : Md5Ctx) (used : ℕ) : (flushed ctx used).hi = ctx.hi := by
  rw [flushed, withRegs_hi, memcpy_hi]

theorem flushed_regs (ctx : Md5Ctx) (used : ℕ) : (flushed ctx used).regs =
    block ctx.regs (ctx.memcpy used (List.replicate (64 - used) 0)).buffer := by
  rw [flushed, withRegs_regs, body_block]

theorem md5Final_eq (ctx : Md5Ctx) : (md5Final ctx).1 =
    if 64 - ((ctx.lo &&& 0x3f).toNat + 1) < 8 then
      let ctx := flushed (marked ctx (ctx.lo &&& 0x3f).toNat) ((ctx.lo &&& 0x3f).toNat + 1)
      registerBytes (body ctx.regs (lastBlock ctx 0 64).buffer 64).1
    else
      let used := (ctx.lo &&& 0x3f).toNat + 1
      let ctx := marked ctx (ctx.lo &&& 0x3f).toNat
      registerBytes (body ctx.regs (lastBlock ctx used (64 - used)).buffer 64).1 := by
  rw [md5Final]
  split_ifs with h
  · simp only
    rfl
  · simp only
    rfl

/-- What comes behind a text. -/
def padding (ctx : Md5Ctx) : List UInt8 :=
  0x80 :: (List.replicate ((119 - ctx.lo.toNat % 64) % 64) (0 : UInt8) ++
    (wordBytes (ctx.lo <<< 3) ++ wordBytes ctx.hi))

theorem md5Final_stream (ctx : Md5Ctx) : (md5Final ctx).1 = registerBytes
    (feed block 64 ⟨ctx.regs, ctx.buffer.take (ctx.lo.toNat % 64)⟩ (padding ctx)).state := by
  have hlen : (ctx.buffer.take (ctx.lo.toNat % 64)).length = ctx.lo.toNat % 64 := by
    rw [List.length_take, ctx.length_buffer]
    omega
  have hmarked : (marked ctx (ctx.lo.toNat % 64)).buffer.take (ctx.lo.toNat % 64 + 1) =
      ctx.buffer.take (ctx.lo.toNat % 64) ++ [0x80] :=
    @take_memcpy ctx [0x80] (ctx.lo.toNat % 64) (by rw [List.length_singleton]; omega)
  rw [md5Final_eq, toNat_and_63]
  split_ifs with h
  · -- the count does not fit behind the text, and goes to a block of its own
    have hzeros : (119 - ctx.lo.toNat % 64) % 64 = 64 - (ctx.lo.toNat % 64 + 1) + 56 := by omega
    -- Zeros up to the end of the block, and zeros at the start of the next one.
    have hsplit : padding ctx =
        (0x80 :: List.replicate (64 - (ctx.lo.toNat % 64 + 1)) (0 : UInt8)) ++
          (List.replicate 56 (0 : UInt8) ++ (wordBytes (ctx.lo <<< 3) ++ wordBytes ctx.hi)) := by
      rw [padding, hzeros, List.replicate_add, List.cons_append, List.append_assoc]
    have hfull : (ctx.buffer.take (ctx.lo.toNat % 64) ++
        0x80 :: List.replicate (64 - (ctx.lo.toNat % 64 + 1)) 0).length = 64 := by
      rw [List.length_append, hlen, List.length_cons, List.length_replicate]
      omega
    have hflush : ((marked ctx (ctx.lo.toNat % 64)).memcpy (ctx.lo.toNat % 64 + 1)
        (List.replicate (64 - (ctx.lo.toNat % 64 + 1)) 0)).buffer =
          ctx.buffer.take (ctx.lo.toNat % 64) ++
            0x80 :: List.replicate (64 - (ctx.lo.toNat % 64 + 1)) 0 := by
      rw [memcpy_buffer_full (by rw [List.length_replicate]; omega), hmarked, List.append_assoc]
      rfl
    have hlast : (List.replicate 56 (0 : UInt8) ++
        (wordBytes (ctx.lo <<< 3) ++ wordBytes ctx.hi)).length = 64 := by
      rw [List.length_append, List.length_replicate, List.length_append, length_wordBytes,
        length_wordBytes]
    rw [hsplit, feed_append_of_length (by decide) hfull, feed_of_length (by decide) hlast]
    simp only
    rw [body_block, lastBlock_buffer rfl (by decide), flushed_regs, hflush, List.take_zero,
      flushed_lo, flushed_hi, marked_lo, marked_hi, marked_regs]
  · -- the count fits behind the text
    have hzeros : (119 - ctx.lo.toNat % 64) % 64 = 64 - (ctx.lo.toNat % 64 + 1) - 8 := by omega
    have hfull : (ctx.buffer.take (ctx.lo.toNat % 64) ++ padding ctx).length = 64 := by
      rw [padding, List.length_append, hlen, List.length_cons, List.length_append,
        List.length_replicate, List.length_append, length_wordBytes, length_wordBytes]
      omega
    rw [feed_of_length (by decide) hfull]
    simp only
    rw [body_block, lastBlock_buffer (by omega) (by omega), hmarked, padding, hzeros,
      List.append_assoc, List.singleton_append, marked_lo, marked_hi, marked_regs]

/-- The count at the end is that of the bits. -/
theorem countBytes_eq (hlo : ctx.lo.toNat < 536870912)
    (hcount : ctx.hi.toNat * 536870912 + ctx.lo.toNat = n % 2305843009213693952) :
    wordBytes (ctx.lo <<< 3) ++ wordBytes ctx.hi = lengthBytes (8 * n) := by
  have hlow : (ctx.lo <<< 3).toNat = ctx.lo.toNat * 8 := by
    rw [BitVec.toNat_shiftLeft, Nat.shiftLeft_eq]
    exact Nat.mod_eq_of_lt (by omega)
  have hbytes (w : U32plus) : wordBytes w = [UInt8.ofNat w.toNat, UInt8.ofNat (w.toNat / 256),
      UInt8.ofNat (w.toNat / 65536), UInt8.ofNat (w.toNat / 16777216)] := by
    have hbyte (k : ℕ) : (⟨(w >>> k).setWidth 8⟩ : UInt8) = UInt8.ofNat (w.toNat / 2 ^ k) := by
      apply UInt8.toNat_inj.mp
      change ((w >>> k).setWidth 8).toNat = _
      rw [BitVec.toNat_setWidth, BitVec.toNat_ushiftRight, Nat.shiftRight_eq_div_pow,
        UInt8.toNat_ofNat']
    exact congrArg₂ List.cons (by simpa using hbyte 0) (congrArg₂ List.cons (hbyte 8)
      (congrArg₂ List.cons (hbyte 16) (congrArg₂ List.cons (hbyte 24) rfl)))
  have hlength : lengthBytes (8 * n) = [UInt8.ofNat (8 * n / 1), UInt8.ofNat (8 * n / 256),
      UInt8.ofNat (8 * n / 65536), UInt8.ofNat (8 * n / 16777216), UInt8.ofNat (8 * n / 4294967296),
      UInt8.ofNat (8 * n / 1099511627776), UInt8.ofNat (8 * n / 281474976710656),
      UInt8.ofNat (8 * n / 72057594037927936)] := rfl
  -- A byte is known by its number modulo 256.
  have hmod {a b : ℕ} (h : a % 256 = b % 256) : UInt8.ofNat a = UInt8.ofNat b := by
    apply UInt8.toNat_inj.mp
    rw [UInt8.toNat_ofNat', UInt8.toNat_ofNat']
    exact h
  -- The bytes of the two parts of the count are those of the number of bits.
  rw [hbytes, hbytes, hlow, hlength]
  refine congrArg₂ List.cons (hmod (by omega)) (congrArg₂ List.cons (hmod (by omega))
    (congrArg₂ List.cons (hmod (by omega)) (congrArg₂ List.cons (hmod (by omega))
    (congrArg₂ List.cons (hmod (by omega)) (congrArg₂ List.cons (hmod (by omega))
    (congrArg₂ List.cons (hmod (by omega)) (congrArg₂ List.cons (hmod (by omega)) rfl)))))))

theorem md5Final_eq_rfcDigest_of_represents (h : Represents ctx xs) :
    (md5Final ctx).1 = rfcDigest xs := by
  have hpad : xs ++ padding ctx = pad xs := by
    rw [padding, pad, h.lo_mod, countBytes_eq h.lo_lt h.count]
  rw [md5Final_stream, h.lo_mod, ← h.stream, feed_feed (by decide), hpad, rfcDigest, ← block_eq]
  rfl

/-- **The digest of a text that comes in pieces**, whatever the context held before. -/
theorem md5Final_eq_rfcDigest (ctx : Md5Ctx) (pieces : List (List UInt8))
    (hpieces : ∀ piece ∈ pieces, piece.length < 18446744073709551616) :
    md5Final (pieces.foldl md5Update (md5Init ctx)) = (rfcDigest pieces.flatten, cleared) := by
  have h := represents_foldl pieces hpieces (represents_md5Init ctx)
  rw [List.nil_append] at h
  exact Prod.ext (md5Final_eq_rfcDigest_of_represents h) rfl

theorem md5Final_eq_rfcDigest_pieces :
    md5Final ([[87, 69], [], [76, 67, 79, 77, 69]].foldl md5Update (md5Init cleared)) =
      (rfcDigest [87, 69, 76, 67, 79, 77, 69], cleared) :=
  md5Final_eq_rfcDigest cleared [[87, 69], [], [76, 67, 79, 77, 69]] (by decide)

/-! ## Collisions -/

/-- The words of the bytes of a word. -/
theorem set_wordBytes (w : U32plus) : set (wordBytes w) 0 = w := by
  apply BitVec.eq_of_getLsbD_eq
  intro i hi
  change ((w.setWidth 8).setWidth 32 ||| ((w >>> 8).setWidth 8).setWidth 32 <<< 8 |||
    ((w >>> 16).setWidth 8).setWidth 32 <<< 16 |||
    ((w >>> 24).setWidth 8).setWidth 32 <<< 24).getLsbD i = w.getLsbD i
  simp only [BitVec.getLsbD_or, BitVec.getLsbD_shiftLeft, BitVec.getLsbD_setWidth,
    BitVec.getLsbD_ushiftRight, hi, decide_true, Bool.true_and]
  -- A bit of the word comes from the byte that it is in.
  rcases show i < 8 ∨ (8 ≤ i ∧ i < 16) ∨ (16 ≤ i ∧ i < 24) ∨ 24 ≤ i by omega with h | h | h | h
  · simp [h, show i < 16 by omega, show i < 24 by omega]
  · simp [h, show ¬ i < 8 by omega, show i - 8 < 8 by omega, show i < 24 by omega,
      show i - 8 < 32 by omega]
  · simp [h, show ¬ i < 8 by omega, show ¬ i < 16 by omega, show ¬ i - 8 < 8 by omega,
      show i - 16 < 8 by omega, show i - 16 < 32 by omega]
  · simp [show ¬ i < 8 by omega, show ¬ i < 16 by omega, show ¬ i < 24 by omega,
      show ¬ i - 8 < 8 by omega, show ¬ i - 16 < 8 by omega, show i - 24 < 8 by omega,
      show i - 24 < 32 by omega, show 24 + (i - 24) = i by omega]

theorem registerBytes_injective : Function.Injective registerBytes := by
  intro r r' h
  -- The registers can be read back.
  have hword (r : Registers) : Registers.mk (set (registerBytes r) 0) (set (registerBytes r) 1)
      (set (registerBytes r) 2) (set (registerBytes r) 3) = r := by
    ext1
    · exact set_wordBytes r.a
    · exact set_wordBytes r.b
    · exact set_wordBytes r.c
    · exact set_wordBytes r.d
  rw [← hword r, h, hword]

theorem hexText_injective : Function.Injective Uuid.hexText := by
  intro bytes bytes' h
  have hlower (bytes : List UInt8) :
      (Uuid.hexText bytes).map Char.toLower = Uuid.hexText bytes := by
    have hdigits : ∀ n < 16, (Nat.digitChar n).toLower = Nat.digitChar n := by decide
    rw [Uuid.hexText, List.map_flatMap]
    apply List.flatMap_congr
    intro b _
    have hlt := b.toNat_lt
    rw [Uuid.hexByte, List.map_cons, List.map_singleton, hdigits _ (by omega), hdigits _ (by omega)]
  have hlen := congrArg List.length h
  rw [Uuid.length_hexText, Uuid.length_hexText] at hlen
  have hread := Uuid.readBytes_hexText (hlower bytes) 0 []
  rw [h, show bytes.length = bytes'.length by omega,
    Uuid.readBytes_hexText (hlower bytes')] at hread
  simpa [Uuid.readBytes] using hread.symm

/-- A text is hashed as the RFC says. -/
theorem md5_eq (ctx : Md5Ctx) {text : List UInt8} (htext : text.length < 18446744073709551616) :
    md5 ctx text = Uuid.hexText (rfcDigest text) := by
  have h := represents_md5Update (represents_md5Init ctx) htext
  rw [md5, md5Final_eq_rfcDigest_of_represents h, List.nil_append]

example : md5 cleared [87, 69, 76, 67, 79, 77, 69] = "f851256dff2a8825ad4af615111b6a4f".toList := by
  decide +kernel

theorem length_lengthBytes (n : ℕ) : (lengthBytes n).length = 8 := rfl

theorem length_pad (text : List UInt8) : (pad text).length % 64 = 0 := by
  rw [pad, List.length_append, List.length_cons, List.length_append, List.length_replicate,
    length_lengthBytes]
  omega

theorem le_length_pad (text : List UInt8) : text.length + 9 ≤ (pad text).length := by
  rw [pad, List.length_append, List.length_cons, List.length_append, length_lengthBytes]
  omega

theorem lengthBytes_inj {m n : ℕ} (hm : m < 18446744073709551616) (hn : n < 18446744073709551616)
    (h : lengthBytes m = lengthBytes n) : m = n := by
  have hbyte (i : ℕ) (hi : i < 8) : m / 256 ^ i % 256 = n / 256 ^ i % 256 := by
    have heq := List.map_inj_left.mp h i (List.mem_range.mpr hi)
    rw [← UInt8.toNat_inj, UInt8.toNat_ofNat', UInt8.toNat_ofNat'] at heq
    exact heq
  -- from the low byte up, each byte makes one more digit of the numbers agree
  have hdigits (k : ℕ) (hk : k ≤ 8) : m % 256 ^ k = n % 256 ^ k := by
    induction k with
    | zero => rw [Nat.pow_zero, Nat.mod_one, Nat.mod_one]
    | succ k ih =>
      rw [Nat.pow_succ, Nat.mod_mul, Nat.mod_mul, ih (by omega), hbyte k hk]
  have hall := hdigits 8 (Nat.le_refl 8)
  have hpow : 256 ^ 8 = 18446744073709551616 := by decide
  rwa [hpow, Nat.mod_eq_of_lt hm, Nat.mod_eq_of_lt hn] at hall

/-- The last eight bytes. -/
theorem drop_pad (text : List UInt8) :
    (pad text).drop ((pad text).length - 8) = lengthBytes (8 * text.length) := by
  have hlen : (pad text).length - 8 =
      (text ++ 0x80 :: List.replicate ((119 - text.length % 64) % 64) 0).length := by
    rw [pad]
    simp only [List.length_append, List.length_cons, List.length_replicate, length_lengthBytes]
    omega
  have hsplit : pad text = text ++ 0x80 :: List.replicate ((119 - text.length % 64) % 64) 0 ++
      lengthBytes (8 * text.length) := by
    rw [pad, List.append_assoc, List.cons_append]
  rw [hlen, hsplit]
  exact List.drop_left

/-- What the passes of the loop of `body` take in for a text: the registers and the blocks. -/
def hashedBlocks (text : List UInt8) : List (Registers × List UInt8) :=
  trace block 64 ((pad text).length / 64) initial (pad text)

/-- **Texts of one digest have a collision among their blocks.** -/
theorem md5_collision (ctx ctx' : Md5Ctx) (s t : List UInt8)
    (hs : s.length < 2305843009213693952) (ht : t.length < 2305843009213693952) (hne : s ≠ t)
    (h : md5 ctx s = md5 ctx' t) :
    ∃ p ∈ hashedBlocks s, ∃ q ∈ hashedBlocks t, p ≠ q ∧ block p.1 p.2 = block q.1 q.2 := by
  have hdigest : absorb block 64 ((pad s).length / 64) initial (pad s) =
      absorb block 64 ((pad t).length / 64) initial (pad t) := by
    rw [md5_eq ctx (by omega), md5_eq ctx' (by omega)] at h
    rw [block_eq]
    exact registerBytes_injective (hexText_injective h)
  have hps := length_pad s
  have hpt := length_pad t
  by_cases hlen : s.length = t.length
  · -- as many blocks, and not the same ones
    have hpad : (pad s).length = (pad t).length := by
      simp only [pad, List.length_append, List.length_cons, List.length_replicate,
        length_lengthBytes, hlen]
    have hpair : (initial, pad s) ≠ (initial, pad t) := by
      intro heq
      exact hne (List.append_inj (Prod.mk.inj heq).2 hlen).1
    rw [hpad] at hdigest
    rw [hashedBlocks, hashedBlocks, hpad]
    exact exists_collision (by omega) (by omega) hdigest hpair
  · -- the last blocks end with different counts
    obtain ⟨m, hm⟩ : ∃ m, (pad s).length = (m + 1) * 64 :=
      ⟨(pad s).length / 64 - 1, by have := le_length_pad s; omega⟩
    obtain ⟨n, hn⟩ : ∃ n, (pad t).length = (n + 1) * 64 :=
      ⟨(pad t).length / 64 - 1, by have := le_length_pad t; omega⟩
    rw [hm, hn, Nat.mul_div_cancel _ (by decide), Nat.mul_div_cancel _ (by decide)] at hdigest
    rw [hashedBlocks, hashedBlocks, hm, hn, Nat.mul_div_cancel _ (by decide),
      Nat.mul_div_cancel _ (by decide)]
    apply exists_collision_last hdigest
    intro heq
    have hlast (text : List UInt8) (k : ℕ) (hk : (pad text).length = (k + 1) * 64) :
        (((pad text).drop (k * 64)).take 64).drop 56 = lengthBytes (8 * text.length) := by
      rw [List.take_of_length_le (by rw [List.length_drop]; omega), List.drop_drop, ← drop_pad]
      congr 1
      omega
    have hbytes := congrArg (List.drop 56) heq
    rw [hlast s m hm, hlast t n hn] at hbytes
    have hcount := lengthBytes_inj (by omega) (by omega) hbytes
    omega

/-- A text of two blocks. -/
def firstText : List UInt8 :=
  [0xd1, 0x31, 0xdd, 0x02, 0xc5, 0xe6, 0xee, 0xc4, 0x69, 0x3d, 0x9a, 0x06, 0x98, 0xaf, 0xf9, 0x5c,
   0x2f, 0xca, 0xb5, 0x87, 0x12, 0x46, 0x7e, 0xab, 0x40, 0x04, 0x58, 0x3e, 0xb8, 0xfb, 0x7f, 0x89,
   0x55, 0xad, 0x34, 0x06, 0x09, 0xf4, 0xb3, 0x02, 0x83, 0xe4, 0x88, 0x83, 0x25, 0x71, 0x41, 0x5a,
   0x08, 0x51, 0x25, 0xe8, 0xf7, 0xcd, 0xc9, 0x9f, 0xd9, 0x1d, 0xbd, 0xf2, 0x80, 0x37, 0x3c, 0x5b,
   0xd8, 0x82, 0x3e, 0x31, 0x56, 0x34, 0x8f, 0x5b, 0xae, 0x6d, 0xac, 0xd4, 0x36, 0xc9, 0x19, 0xc6,
   0xdd, 0x53, 0xe2, 0xb4, 0x87, 0xda, 0x03, 0xfd, 0x02, 0x39, 0x63, 0x06, 0xd2, 0x48, 0xcd, 0xa0,
   0xe9, 0x9f, 0x33, 0x42, 0x0f, 0x57, 0x7e, 0xe8, 0xce, 0x54, 0xb6, 0x70, 0x80, 0xa8, 0x0d, 0x1e,
   0xc6, 0x98, 0x21, 0xbc, 0xb6, 0xa8, 0x83, 0x93, 0x96, 0xf9, 0x65, 0x2b, 0x6f, 0xf7, 0x2a, 0x70]

/-- The text with the high bits of six bytes turned over. -/
def secondText : List UInt8 :=
  firstText.mapIdx fun i b => if i ∈ [19, 45, 59, 83, 109, 123] then b ^^^ 0x80 else b

theorem md5_collision_texts : ∃ p ∈ hashedBlocks firstText, ∃ q ∈ hashedBlocks secondText,
    p ≠ q ∧ block p.1 p.2 = block q.1 q.2 :=
  md5_collision cleared cleared firstText secondText (by decide +kernel) (by decide +kernel)
    (by decide +kernel) (by decide +kernel)

end Md5

end WwivBasic
