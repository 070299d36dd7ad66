import Mathlib.Tactic.NormNum.Prime
import WwivBasic.Core.DataFile
import WwivBasic.Foundations.ShiftRegister

/-!
# Checksums of texts and files

`core/crc32.cpp` keeps a 32 bit register, and moves it by a byte at a time with a table of 256
feedback terms. The register starts with all its bits set, and the checksum is its complement.

## Main definitions

* `updc32`: the register after one more byte
* `crc32string`, `crc32file`: the checksum of a text and of a file
* `messageBits`: the bits of a text in the order they enter the register

## Main results

* `crc32string_eq_remainder`: a checksum is the complement of a remainder
* `crc32string_eq_iff`: which texts of one length have one checksum
* `crc32string_ne_of_burst`, `crc32string_eq_of_pair_iff`: the changes that a checksum shows
* `crc32string_append_iff`: a text with its checksum behind it
-/

namespace WwivBasic

namespace Crc32

open Polynomial ShiftRegister

/-! ## The checksum -/

/-- `crc_32_tab`. -/
def crc32Tab : List (BitVec 32) :=
  [0x00000000, 0x77073096, 0xee0e612c, 0x990951ba, 0x076dc419, 0x706af48f, 0xe963a535, 0x9e6495a3,
   0x0edb8832, 0x79dcb8a4, 0xe0d5e91e, 0x97d2d988, 0x09b64c2b, 0x7eb17cbd, 0xe7b82d07, 0x90bf1d91,
   0x1db71064, 0x6ab020f2, 0xf3b97148, 0x84be41de, 0x1adad47d, 0x6ddde4eb, 0xf4d4b551, 0x83d385c7,
   0x136c9856, 0x646ba8c0, 0xfd62f97a, 0x8a65c9ec, 0x14015c4f, 0x63066cd9, 0xfa0f3d63, 0x8d080df5,
   0x3b6e20c8, 0x4c69105e, 0xd56041e4, 0xa2677172, 0x3c03e4d1, 0x4b04d447, 0xd20d85fd, 0xa50ab56b,
   0x35b5a8fa, 0x42b2986c, 0xdbbbc9d6, 0xacbcf940, 0x32d86ce3, 0x45df5c75, 0xdcd60dcf, 0xabd13d59,
   0x26d930ac, 0x51de003a, 0xc8d75180, 0xbfd06116, 0x21b4f4b5, 0x56b3c423, 0xcfba9599, 0xb8bda50f,
   0x2802b89e, 0x5f058808, 0xc60cd9b2, 0xb10be924, 0x2f6f7c87, 0x58684c11, 0xc1611dab, 0xb6662d3d,
   0x76dc4190, 0x01db7106, 0x98d220bc, 0xefd5102a, 0x71b18589, 0x06b6b51f, 0x9fbfe4a5, 0xe8b8d433,
   0x7807c9a2, 0x0f00f934, 0x9609a88e, 0xe10e9818, 0x7f6a0dbb, 0x086d3d2d, 0x91646c97, 0xe6635c01,
   0x6b6b51f4, 0x1c6c6162, 0x856530d8, 0xf262004e, 0x6c0695ed, 0x1b01a57b, 0x8208f4c1, 0xf50fc457,
   0x65b0d9c6, 0x12b7e950, 0x8bbeb8ea, 0xfcb9887c, 0x62dd1ddf, 0x15da2d49, 0x8cd37cf3, 0xfbd44c65,
   0x4db26158, 0x3ab551ce, 0xa3bc0074, 0xd4bb30e2, 0x4adfa541, 0x3dd895d7, 0xa4d1c46d, 0xd3d6f4fb,
   0x4369e96a, 0x346ed9fc, 0xad678846, 0xda60b8d0, 0x44042d73, 0x33031de5, 0xaa0a4c5f, 0xdd0d7cc9,
   0x5005713c, 0x270241aa, 0xbe0b1010, 0xc90c2086, 0x5768b525, 0x206f85b3, 0xb966d409, 0xce61e49f,
   0x5edef90e, 0x29d9c998, 0xb0d09822, 0xc7d7a8b4, 0x59b33d17, 0x2eb40d81, 0xb7bd5c3b, 0xc0ba6cad,
   0xedb88320, 0x9abfb3b6, 0x03b6e20c, 0x74b1d29a, 0xead54739, 0x9dd277af, 0x04db2615, 0x73dc1683,
   0xe3630b12, 0x94643b84, 0x0d6d6a3e, 0x7a6a5aa8, 0xe40ecf0b, 0x9309ff9d, 0x0a00ae27, 0x7d079eb1,
   0xf00f9344, 0x8708a3d2, 0x1e01f268, 0x6906c2fe, 0xf762575d, 0x806567cb, 0x196c3671, 0x6e6b06e7,
   0xfed41b76, 0x89d32be0, 0x10da7a5a, 0x67dd4acc, 0xf9b9df6f, 0x8ebeeff9, 0x17b7be43, 0x60b08ed5,
   0xd6d6a3e8, 0xa1d1937e, 0x38d8c2c4, 0x4fdff252, 0xd1bb67f1, 0xa6bc5767, 0x3fb506dd, 0x48b2364b,
   0xd80d2bda, 0xaf0a1b4c, 0x36034af6, 0x41047a60, 0xdf60efc3, 0xa867df55, 0x316e8eef, 0x4669be79,
   0xcb61b38c, 0xbc66831a, 0x256fd2a0, 0x5268e236, 0xcc0c7795, 0xbb0b4703, 0x220216b9, 0x5505262f,
   0xc5ba3bbe, 0xb2bd0b28, 0x2bb45a92, 0x5cb36a04, 0xc2d7ffa7, 0xb5d0cf31, 0x2cd99e8b, 0x5bdeae1d,
   0x9b64c2b0, 0xec63f226, 0x756aa39c, 0x026d930a, 0x9c0906a9, 0xeb0e363f, 0x72076785, 0x05005713,
   0x95bf4a82, 0xe2b87a14, 0x7bb12bae, 0x0cb61b38, 0x92d28e9b, 0xe5d5be0d, 0x7cdcefb7, 0x0bdbdf21,
   0x86d3d2d4, 0xf1d4e242, 0x68ddb3f8, 0x1fda836e, 0x81be16cd, 0xf6b9265b, 0x6fb077e1, 0x18b74777,
   0x88085ae6, 0xff0f6a70, 0x66063bca, 0x11010b5c, 0x8f659eff, 0xf862ae69, 0x616bffd3, 0x166ccf45,
   0xa00ae278, 0xd70dd2ee, 0x4e048354, 0x3903b3c2, 0xa7672661, 0xd06016f7, 0x4969474d, 0x3e6e77db,
   0xaed16a4a, 0xd9d65adc, 0x40df0b66, 0x37d83bf0, 0xa9bcae53, 0xdebb9ec5, 0x47b2cf7f, 0x30b5ffe9,
   0xbdbdf21c, 0xcabac28a, 0x53b39330, 0x24b4a3a6, 0xbad03605, 0xcdd70693, 0x54de5729, 0x23d967bf,
   0xb3667a2e, 0xc4614ab8, 0x5d681b02, 0x2a6f2b94, 0xb40bbe37, 0xc30c8ea1, 0x5a05df1b, 0x2d02ef8d]

/-- `UPDC32`. -/
def updc32 (octet crc : BitVec 32) : BitVec 32 :=
  crc32Tab.getD ((crc ^^^ octet) &&& 0xff).toNat 0 ^^^ (crc >>> 8)

/-- `crc32string`: each `char` is promoted to an `int`, with its sign. -/
def crc32string (contents : List UInt8) : BitVec 32 :=
  ~~~ contents.foldl (fun crc (c : UInt8) => updc32 (c.toBitVec.signExtend 32) crc) 0xFFFFFFFF

/-- `crc32file`, of a file that can be opened with these contents, or of none. -/
def crc32file : Option (List UInt8) → BitVec 32
  | none => 0
  | some contents =>
    let size := contents.length
    let ((ret, buffer), _) := DataFile.fileRead size ⟨contents, some 0⟩
    if ret = 0 then 0
    else ~~~ (buffer ++ List.replicate (size - buffer.length) 0).foldl
      (fun crc (c : UInt8) => updc32 (c.toBitVec.setWidth 32) crc) 0xFFFFFFFF

/-! ## The polynomials -/

/-- The feedback of the register: "CRC polynomial 0xedb88320". -/
def feedback : BitVec 32 := 0xedb88320

/-- The polynomial of the comment. -/
noncomputable def crcPolynomial : (ZMod 2)[X] :=
  X ^ 32 + X ^ 26 + X ^ 23 + X ^ 22 + X ^ 16 + X ^ 12 + X ^ 11 + X ^ 10 + X ^ 8 + X ^ 7 + X ^ 5 +
    X ^ 4 + X ^ 2 + X ^ 1 + X ^ 0

/-- The bits of a byte, in the order they enter the register. -/
def octetBits (c : UInt8) : List Bool := (List.range 8).map c.toBitVec.getLsbD

/-- The bits of a text, in the order they enter the register. -/
def messageBits (contents : List UInt8) : List Bool := contents.flatMap octetBits

/-- A table of the feedback terms: eight shifts of each byte. -/
theorem crc32Tab_eq (i : BitVec 8) :
    crc32Tab.getD i.toNat 0 = (shift feedback)^[8] (i.setWidth 32) := by
  revert i
  decide +kernel

/-- The feedback is the polynomial of the comment, with its highest power implied. -/
theorem generator_feedback : generator feedback = crcPolynomial := by
  -- The powers of the comment are the bits that are set.
  have hbits : ∀ k < 32, feedback.getMsbD k =
      decide (k ∈ [0, 1, 2, 4, 5, 7, 8, 10, 11, 12, 16, 22, 23, 26]) := by decide
  have hsum : polynomial feedback = ∑ k ∈ Finset.range 32, monomial k (coefficient
      (decide (k ∈ [0, 1, 2, 4, 5, 7, 8, 10, 11, 12, 16, 22, 23, 26]))) := by
    apply Finset.sum_congr rfl
    intro k hk
    rw [hbits k (Finset.mem_range.mp hk)]
  rw [generator, hsum, crcPolynomial]
  simp [Finset.sum_range_succ, monomial_one_right_eq_X_pow]
  ring

/-! ## A byte at a time -/

theorem length_octetBits (c : UInt8) : (octetBits c).length = 8 := by
  simp [octetBits]

theorem messageBits_cons (c : UInt8) (contents : List UInt8) :
    messageBits (c :: contents) = octetBits c ++ messageBits contents := rfl

theorem length_messageBits (contents : List UInt8) :
    (messageBits contents).length = 8 * contents.length := by
  induction contents with
  | nil => rfl
  | cons c contents ih =>
    rw [messageBits_cons, List.length_append, length_octetBits, ih, List.length_cons]
    ring

theorem messageBits_append (s t : List UInt8) :
    messageBits (s ++ t) = messageBits s ++ messageBits t := List.flatMap_append

theorem octetBits_injective {c c' : UInt8} (h : octetBits c = octetBits c') : c = c' := by
  apply UInt8.eq_of_toBitVec_eq
  apply BitVec.eq_of_getLsbD_eq
  intro i hi
  exact List.map_inj_left.mp h i (List.mem_range.mpr hi)

theorem messageBits_injective {s t : List UInt8} (h : messageBits s = messageBits t) : s = t := by
  induction s generalizing t with
  | nil =>
    have hlen := congrArg List.length h
    rw [length_messageBits, length_messageBits] at hlen
    exact (List.length_eq_zero_iff.mp (by simpa using hlen.symm)).symm
  | cons c s ih =>
    obtain _ | ⟨c', t⟩ := t
    · have hlen := congrArg List.length h
      rw [length_messageBits, length_messageBits] at hlen
      simp at hlen
    · rw [messageBits_cons, messageBits_cons] at h
      obtain ⟨hc, ht⟩ := List.append_inj h (by rw [length_octetBits, length_octetBits])
      rw [octetBits_injective hc, ih ht]

theorem word_octetBits (c : UInt8) : word 32 (octetBits c) = c.toBitVec.setWidth 32 := by
  apply BitVec.eq_of_getLsbD_eq
  intro i hi
  rw [getLsbD_word hi, BitVec.getLsbD_setWidth, octetBits]
  by_cases h8 : i < 8
  · simp [h8, hi]
  · simp [h8, BitVec.getLsbD_of_ge _ i (show 8 ≤ i by omega)]

/-- **The table agrees with the shifts**: a byte at a time is a bit at a time, whatever the other
bits of a promoted byte. -/
theorem updc32_eq_feed {octet : BitVec 32} {c : UInt8} (h : octet.setWidth 8 = c.toBitVec)
    (crc : BitVec 32) : updc32 octet crc = feed feedback crc (octetBits c) := by
  have hlow : ∀ i, i < 32 → (0xff : BitVec 32).getLsbD i = decide (i < 8) := by decide
  -- The index is made of the low bits, where a byte with its sign is the byte.
  have hindex : (crc ^^^ c.toBitVec.setWidth 32) &&& 0xff =
      ((crc ^^^ octet).setWidth 8).setWidth 32 := by
    apply BitVec.eq_of_getLsbD_eq
    intro i hi
    rw [BitVec.getLsbD_and, hlow i hi, ← h]
    by_cases h8 : i < 8 <;> simp [h8, hi]
  have hmask : (crc ^^^ octet) &&& 0xff = ((crc ^^^ octet).setWidth 8).setWidth 32 := by
    apply BitVec.eq_of_getLsbD_eq
    intro i hi
    rw [BitVec.getLsbD_and, hlow i hi]
    by_cases h8 : i < 8 <;> simp [h8, hi]
  -- The rest of the register does not meet the byte.
  have hrest : (crc ^^^ c.toBitVec.setWidth 32) >>> 8 = crc >>> 8 := by
    apply BitVec.eq_of_getLsbD_eq
    intro i hi
    simp
  have htoNat : (((crc ^^^ octet).setWidth 8).setWidth 32).toNat =
      ((crc ^^^ octet).setWidth 8).toNat := by
    apply BitVec.toNat_setWidth_of_le
    decide
  rw [feed_eq_iterate (by rw [length_octetBits]; decide), length_octetBits, word_octetBits,
    shift_iterate_eq hlow, hindex, hrest, updc32, hmask, htoNat, crc32Tab_eq]

theorem foldl_updc32 {octet : UInt8 → BitVec 32} (h : ∀ c, (octet c).setWidth 8 = c.toBitVec)
    (contents : List UInt8) (crc : BitVec 32) :
    contents.foldl (fun crc c => updc32 (octet c) crc) crc =
      feed feedback crc (messageBits contents) := by
  induction contents generalizing crc with
  | nil => rfl
  | cons c contents ih =>
    rw [List.foldl_cons, ih, updc32_eq_feed (h c), messageBits_cons, feed_append]

theorem setWidth_signExtend (c : UInt8) :
    (c.toBitVec.signExtend 32).setWidth 8 = c.toBitVec := by
  apply BitVec.eq_of_getLsbD_eq
  intro i hi
  rw [BitVec.getLsbD_setWidth, BitVec.getLsbD_signExtend]
  simp [hi, show i < 32 by omega]

theorem crc32string_eq_feed (contents : List UInt8) :
    crc32string contents = ~~~ feed feedback 0xFFFFFFFF (messageBits contents) := by
  rw [crc32string, foldl_updc32 setWidth_signExtend]

theorem not_injective : Function.Injective (fun crc : BitVec 32 => ~~~ crc) := by
  intro crc crc' h
  exact BitVec.not_inj.mp h

/-! ## What a checksum is -/

/-- The register starts with all the bits of the first four bytes inverted, and ends with its own
bits inverted. -/
theorem crc32string_eq_remainder (contents : List UInt8) :
    polynomial (~~~ crc32string contents) =
      (X ^ 32 * message (messageBits contents) +
        X ^ (8 * contents.length) * ∑ k ∈ Finset.range 32, X ^ k) %ₘ crcPolynomial := by
  have hones : polynomial (0xFFFFFFFF : BitVec 32) = ∑ k ∈ Finset.range 32, X ^ k := by
    have hbits : ∀ k < 32, (0xFFFFFFFF : BitVec 32).getMsbD k = true := by decide
    apply Finset.sum_congr rfl
    intro k hk
    rw [hbits k (Finset.mem_range.mp hk), coefficient_true, monomial_one_right_eq_X_pow]
  rw [crc32string_eq_feed, BitVec.not_not, feed_eq_modByMonic (by decide), length_messageBits,
    generator_feedback, hones]

/-- Texts of one length have one checksum exactly when the polynomial divides their difference. -/
theorem crc32string_eq_iff (s t : List UInt8) (hlen : s.length = t.length) :
    crc32string s = crc32string t ↔
      crcPolynomial ∣ message (messageBits s) - message (messageBits t) := by
  have hbits : (messageBits s).length = (messageBits t).length := by
    rw [length_messageBits, length_messageBits, hlen]
  rw [crc32string_eq_feed, crc32string_eq_feed, not_injective.eq_iff,
    feed_eq_feed_iff (by decide) (by decide) hbits, generator_feedback]

theorem crc32string_eq_iff_swapped : crc32string [1, 2] = crc32string [2, 1] ↔
    crcPolynomial ∣ message (messageBits [1, 2]) - message (messageBits [2, 1]) :=
  crc32string_eq_iff [1, 2] [2, 1] rfl

/-! ## Changes that a checksum shows -/

/-- Texts that differ only within a block of 32 bits have different checksums. -/
theorem crc32string_ne_of_burst (s t : List UInt8) (a u v z : List Bool)
    (hs : messageBits s = a ++ u ++ z) (ht : messageBits t = a ++ v ++ z)
    (hlen : u.length = v.length) (hle : u.length ≤ 32) (hne : s ≠ t) :
    crc32string s ≠ crc32string t := by
  have huv : u ≠ v := by
    rintro rfl
    exact hne (messageBits_injective (hs.trans ht.symm))
  intro h
  rw [crc32string_eq_feed, crc32string_eq_feed, not_injective.eq_iff, hs, ht] at h
  exact feed_ne_of_burst (by decide) (by decide) a z hlen hle huv h

theorem crc32string_ne_of_burst_byte : crc32string [65, 66, 67] ≠ crc32string [65, 97, 67] :=
  crc32string_ne_of_burst [65, 66, 67] [65, 97, 67] (octetBits 65) (octetBits 66) (octetBits 97)
    (octetBits 67) rfl rfl rfl (by decide) (by decide)

/-- The order of `X` modulo the polynomial is the greatest there can be. -/
theorem orderOf_root : orderOf (AdjoinRoot.root (generator feedback)) = 4294967295 := by
  apply orderOf_eq_of_pow_and_pow_div_prime (by decide)
  · -- the power is `1`
    rw [@root_pow_eq_one_iff 32 (by decide) feedback 32 _ (by decide)]
    decide +kernel
  · -- and it is not for the quotient by a prime factor
    intro p hp hdvd
    have hfactors : 4294967295 = 3 * 5 * 17 * 257 * 65537 := by decide
    rw [hfactors, hp.dvd_mul, hp.dvd_mul, hp.dvd_mul, hp.dvd_mul,
      Nat.prime_dvd_prime_iff_eq hp (by norm_num), Nat.prime_dvd_prime_iff_eq hp (by norm_num),
      Nat.prime_dvd_prime_iff_eq hp (by norm_num), Nat.prime_dvd_prime_iff_eq hp (by norm_num),
      Nat.prime_dvd_prime_iff_eq hp (by norm_num)] at hdvd
    have hlt : 4294967295 / p < 2 ^ 32 := (Nat.div_le_self _ _).trans_lt (by decide)
    rw [ne_eq, root_pow_eq_one_iff (by decide) feedback hlt]
    obtain (((rfl | rfl) | rfl) | rfl) | rfl := hdvd <;> decide +kernel

/-- Texts that differ in two bits have one checksum exactly when the distance of the bits is a
multiple of `2 ^ 32 - 1`: in a text of less than 512 megabytes, never. -/
theorem crc32string_eq_of_pair_iff (s t : List UInt8) (a m z : List Bool) (x y : Bool)
    (hs : messageBits s = a ++ x :: (m ++ y :: z))
    (ht : messageBits t = a ++ (!x) :: (m ++ (!y) :: z)) :
    crc32string s = crc32string t ↔ 4294967295 ∣ m.length + 1 := by
  rw [crc32string_eq_feed, crc32string_eq_feed, not_injective.eq_iff, hs, ht,
    feed_eq_of_pair_iff (by decide) (by decide), orderOf_root]

theorem crc32string_eq_of_pair_iff_parity :
    crc32string [65] = crc32string [66] ↔ 4294967295 ∣ ([] : List Bool).length + 1 :=
  crc32string_eq_of_pair_iff [65] [66] [] [] [false, false, false, false, true, false] true false
    rfl rfl

/-! ## A text with its checksum behind it -/

/-- A checksum as it is transmitted: "in the order low-byte to high-byte". -/
def transmitted (crc : BitVec 32) : List UInt8 :=
  (List.range 4).map fun i => ⟨(crc >>> (8 * i)).setWidth 8⟩

theorem messageBits_transmitted (crc : BitVec 32) :
    messageBits (transmitted crc) = (List.range 32).map crc.getLsbD := by
  have hbyte (i : ℕ) (hi : i < 4) : octetBits ⟨(crc >>> (8 * i)).setWidth 8⟩ =
      (List.range 8).map fun k => crc.getLsbD (8 * i + k) := by
    apply List.map_congr_left
    intro k hk
    simp [List.mem_range.mp hk]
  have hbytes : messageBits (transmitted crc) =
      (List.range 4).flatMap fun i => (List.range 8).map fun k => crc.getLsbD (8 * i + k) := by
    rw [messageBits, transmitted, List.flatMap_map]
    exact List.flatMap_congr fun i hi => hbyte i (List.mem_range.mp hi)
  rw [hbytes]
  rfl

/-- The receiver of a text and a checksum finds one constant exactly when the checksum is that of
the text. -/
theorem crc32string_append_iff (contents : List UInt8) (crc : BitVec 32) :
    crc32string (contents ++ transmitted crc) = 0x2144df1c ↔ crc = crc32string contents := by
  have hword : word 32 ((List.range 32).map crc.getLsbD) = crc := by
    apply BitVec.eq_of_getLsbD_eq
    intro i hi
    rw [getLsbD_word hi]
    simp [hi]
  -- The constant is a register with all the bits set, after 32 shifts.
  have hones : ~~~ (shift feedback)^[32] (BitVec.allOnes 32) = 0x2144df1c := by decide +kernel
  have hinj := @shift_iterate_injective 32 feedback (by decide) (by decide) 32
  rw [crc32string_eq_feed, crc32string_eq_feed, messageBits_append, feed_append,
    messageBits_transmitted, feed_eq_iterate (by simp), hword, ← hones, List.length_map,
    List.length_range, not_injective.eq_iff, hinj.eq_iff]
  generalize feed feedback 0xFFFFFFFF (messageBits contents) = reg
  -- All the bits are set by the checksum of the text, and by no other.
  have hself : reg ^^^ ~~~ reg = BitVec.allOnes 32 := by
    rw [← BitVec.xor_allOnes, ← BitVec.xor_assoc, BitVec.xor_self, BitVec.zero_xor]
  rw [← hself, BitVec.xor_right_inj]

/-! ## Files -/

/-- The bytes of a file have one checksum, promoted with a sign or without. Where there is no file
to read, it is the checksum of no bytes. -/
theorem crc32file_eq (file : Option (List UInt8)) (hsize : (file.getD []).length < 2147483648) :
    crc32file file = crc32string (file.getD []) := by
  have hnil : crc32string [] = 0 := by decide
  cases file with
  | none => exact hnil.symm
  | some contents =>
    rw [Option.getD_some] at hsize ⊢
    have hcast : DataFile.castUnsigned contents.length = contents.length :=
      Nat.mod_eq_of_lt (by omega)
    have hread : DataFile.fileRead contents.length ⟨contents, some 0⟩ =
        (((contents.length : Int), contents), ⟨contents, some contents.length⟩) := by
      simp [DataFile.fileRead, hcast]
    -- An empty file is given up like one that cannot be read, with the right result.
    by_cases hempty : contents = []
    · rw [hempty, hnil]
      rfl
    · have hlen : (contents.length : Int) ≠ 0 := by
        simpa using hempty
      rw [crc32file, hread]
      simp only [hlen, if_false, Nat.sub_self, List.replicate_zero, List.append_nil]
      rw [crc32string, foldl_updc32 setWidth_signExtend, foldl_updc32]
      intro c
      simp

end Crc32

end WwivBasic
