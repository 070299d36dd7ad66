import WwivBasic.Core.Strings
import WwivBasic.Foundations.Overwriting

/-!
# Code page 437 and UTF-8

`core/cp437.cpp` converts bytes of code page 437 one at a time with `wctomb`, and strings of them
with `wcstombs`, which may write three bytes for every one and a null. The buffer that it writes
to does not grow with the string.

## Main definitions

* `dosToUtf8`: the table
* `wctomb`, `wcstombs`: the functions of the C library, in a UTF-8 locale
* `cp437ToUtf8`: the conversion of a string

## Main results

* `cp437ToUtf8_iff`: when the conversion of a string agrees with that of its bytes and stays in
  the buffer
-/

namespace WwivBasic

open Overwriting

/-- `dos_to_utf8_`. -/
def dosToUtf8 : List ℕ :=
  [ 0x0000, 0x0001, 0x0002, 0x0003, 0x0004, 0x0005, 0x0006, 0x0007,
    0x0008, 0x0009, 0x000a, 0x000b, 0x000c, 0x000d, 0x000e, 0x000f,
    0x0010, 0x0011, 0x0012, 0x0013, 0x0014, 0x0015, 0x0016, 0x0017,
    0x0018, 0x0019, 0x001a, 0x001b, 0x001c, 0x001d, 0x001e, 0x001f,
    0x0020, 0x0021, 0x0022, 0x0023, 0x0024, 0x0025, 0x0026, 0x0027,
    0x0028, 0x0029, 0x002a, 0x002b, 0x002c, 0x002d, 0x002e, 0x002f,
    0x0030, 0x0031, 0x0032, 0x0033, 0x0034, 0x0035, 0x0036, 0x0037,
    0x0038, 0x0039, 0x003a, 0x003b, 0x003c, 0x003d, 0x003e, 0x003f,
    0x0040, 0x0041, 0x0042, 0x0043, 0x0044, 0x0045, 0x0046, 0x0047,
    0x0048, 0x0049, 0x004a, 0x004b, 0x004c, 0x004d, 0x004e, 0x004f,
    0x0050, 0x0051, 0x0052, 0x0053, 0x0054, 0x0055, 0x0056, 0x0057,
    0x0058, 0x0059, 0x005a, 0x005b, 0x005c, 0x005d, 0x005e, 0x005f,
    0x0060, 0x0061, 0x0062, 0x0063, 0x0064, 0x0065, 0x0066, 0x0067,
    0x0068, 0x0069, 0x006a, 0x006b, 0x006c, 0x006d, 0x006e, 0x006f,
    0x0070, 0x0071, 0x0072, 0x0073, 0x0074, 0x0075, 0x0076, 0x0077,
    0x0078, 0x0079, 0x007a, 0x007b, 0x007c, 0x007d, 0x007e, 0x007f,
    0x00c7, 0x00fc, 0x00e9, 0x00e2, 0x00e4, 0x00e0, 0x00e5, 0x00e7,
    0x00ea, 0x00eb, 0x00e8, 0x00ef, 0x00ee, 0x00ec, 0x00c4, 0x00c5,
    0x00c9, 0x00e6, 0x00c6, 0x00f4, 0x00f6, 0x00f2, 0x00fb, 0x00f9,
    0x00ff, 0x00d6, 0x00dc, 0x00a2, 0x00a3, 0x00a5, 0x20a7, 0x0192,
    0x00e1, 0x00ed, 0x00f3, 0x00fa, 0x00f1, 0x00d1, 0x00aa, 0x00ba,
    0x00bf, 0x2310, 0x00ac, 0x00bd, 0x00bc, 0x00a1, 0x00ab, 0x00bb,
    0x2591, 0x2592, 0x2593, 0x2502, 0x2524, 0x2561, 0x2562, 0x2556,
    0x2555, 0x2563, 0x2551, 0x2557, 0x255d, 0x255c, 0x255b, 0x2510,
    0x2514, 0x2534, 0x252c, 0x251c, 0x2500, 0x253c, 0x255e, 0x255f,
    0x255a, 0x2554, 0x2569, 0x2566, 0x2560, 0x2550, 0x256c, 0x2567,
    0x2568, 0x2564, 0x2565, 0x2559, 0x2558, 0x2552, 0x2553, 0x256b,
    0x256a, 0x2518, 0x250c, 0x2588, 0x2584, 0x258c, 0x2590, 0x2580,
    0x03b1, 0x00df, 0x0393, 0x03c0, 0x03a3, 0x03c3, 0x00b5, 0x03c4,
    0x03a6, 0x0398, 0x03a9, 0x03b4, 0x221e, 0x03c6, 0x03b5, 0x2229,
    0x2261, 0x00b1, 0x2265, 0x2264, 0x2320, 0x2321, 0x00f7, 0x2248,
    0x00b0, 0x2219, 0x00b7, 0x221a, 0x207f, 0x00b2, 0x25a0, 0x00a0]

/-- `wctomb`. -/
def wctomb (wc : ℕ) : Option (List UInt8) :=
  if wc.isValidChar then some (String.utf8EncodeChar (Char.ofNat wc)) else none

/-- What `wcstombs` has written, and what it returns: the null is not counted. -/
structure Wcstombs where
  written : List UInt8
  result : ℕ

/-- `wcstombs` with room for `n` bytes, up to a null or the end of the string; no character is
written in part. -/
def wcstombs (n : ℕ) : List ℕ → Option Wcstombs
  | [] => some ⟨if n = 0 then [] else [0], 0⟩
  | wc :: s =>
    match wctomb wc with
    | none => none
    | some bytes =>
      if n < bytes.length then some ⟨[], 0⟩
      else if wc = 0 then some ⟨bytes, 0⟩
      else (wcstombs (n - bytes.length) s).map fun r =>
        ⟨bytes ++ r.written, bytes.length + r.result⟩

/-- `dos_to_utf8_[ch]`, the `cp437_to_utf8` that returns a `wchar_t`. -/
def unicode (ch : UInt8) : ℕ := dosToUtf8.getD ch.toNat 0

/-- `cp437_to_utf8` of a byte: what is in `out` afterwards, and the result. -/
def cp437ToUtf8Char (ch : UInt8) : List UInt8 × ℕ :=
  match wctomb (unicode ch) with
  | none => ([0], 0)
  | some bytes => (bytes ++ [0], bytes.length)

/-- `cp437_to_utf8w`. -/
def cp437ToUtf8w (in_ : List UInt8) : List ℕ := in_.map unicode

/-- `size_int(s) * 3 + 1`, which has to be an `int` and becomes a `size_t`. -/
def maxLen (s : List ℕ) : Option ℕ :=
  let size := castInt s.length
  if intMin ≤ size * 3 ∧ size * 3 + 1 ≤ intMax then
    some ((size * 3 + 1) % 18446744073709551616).toNat
  else none

/-- The size of `contents` while `wcstombs` writes to it. -/
def contentsSize : ℕ := 1024 * 3 + 1

/-- The call of `wcstombs`. -/
def convert (in_ : List UInt8) : Option Wcstombs :=
  (maxLen (cp437ToUtf8w in_)).bind fun max_len => wcstombs max_len (cp437ToUtf8w in_)

/-- `cp437_to_utf8` of a string. It is not defined where more is written than `contents` has room
for; the null that ends a string may be written over by a null. -/
def cp437ToUtf8 (in_ : List UInt8) : Option (List UInt8) :=
  (convert in_).bind fun r =>
    if r.written.drop contentsSize = [] ∨ r.written.drop contentsSize = [0] then
      some (resize 0 r.result (overwrite 0 0 r.written (resize 0 contentsSize [])))
    else none

/-- What `cp437_to_utf8` gives for a byte. -/
def encoding (ch : UInt8) : List UInt8 := (cp437ToUtf8Char ch).1.take (cp437ToUtf8Char ch).2

/-- The string becomes what its bytes become, and what is written is within the buffer. -/
def Converts (in_ : List UInt8) : Prop :=
  cp437ToUtf8 in_ = some (in_.flatMap encoding) ∧
    ∀ r, convert in_ = some r → r.written.length ≤ contentsSize

variable {ch : UInt8} {s : List UInt8} {n : ℕ} {r : Wcstombs}

/-! ## The table -/

theorem length_dosToUtf8 : dosToUtf8.length = 256 := by decide +kernel

theorem lt_of_mem_dosToUtf8 : ∀ wc ∈ dosToUtf8, wc < 0xd800 := by decide +kernel

theorem zero_not_mem_tail : 0 ∉ dosToUtf8.tail := by decide +kernel

theorem unicode_lt (ch : UInt8) : unicode ch < 0xd800 := by
  have hch : ch.toNat < dosToUtf8.length := length_dosToUtf8 ▸ ch.toNat_lt
  apply lt_of_mem_dosToUtf8
  rw [unicode, List.getD_eq_getElem?_getD, List.getElem?_eq_getElem hch]
  exact List.getElem_mem hch

theorem unicode_ne_zero (h : ch ≠ 0) : unicode ch ≠ 0 := by
  obtain ⟨k, hk⟩ : ∃ k, ch.toNat = k + 1 := by
    apply Nat.exists_eq_succ_of_ne_zero
    intro hzero
    exact h (UInt8.toNat_inj.mp hzero)
  have hlen : k < dosToUtf8.tail.length := by
    have hch : ch.toNat < 256 := ch.toNat_lt
    rw [List.length_tail, length_dosToUtf8]
    omega
  intro hzero
  apply zero_not_mem_tail
  rw [← hzero, unicode, hk, List.getD_eq_getElem?_getD, ← List.getElem?_tail,
    List.getElem?_eq_getElem hlen]
  exact List.getElem_mem hlen

theorem wctomb_unicode (ch : UInt8) : wctomb (unicode ch) = some (encoding ch) := by
  have hvalid : (unicode ch).isValidChar := Or.inl (unicode_lt ch)
  rw [encoding, cp437ToUtf8Char, wctomb, if_pos hvalid]
  simp

/-- One byte, two from 0x80 on and three from 0x800 on. -/
theorem length_encoding (ch : UInt8) : (encoding ch).length =
    1 + (if 0x80 ≤ unicode ch then 1 else 0) + if 0x800 ≤ unicode ch then 1 else 0 := by
  have hlt := unicode_lt ch
  have hvalid : (unicode ch).isValidChar := Or.inl hlt
  have hencoding : encoding ch = String.utf8EncodeChar (Char.ofNat (unicode ch)) := by
    have hch := wctomb_unicode ch
    rw [wctomb, if_pos hvalid] at hch
    exact (Option.some.inj hch).symm
  have hval : (Char.ofNat (unicode ch)).val.toNat = unicode ch := by
    rw [Char.ofNat, dif_pos hvalid]
    rfl
  have hle {k : ℕ} (hk : k < UInt32.size) :
      (Char.ofNat (unicode ch)).val ≤ UInt32.ofNatLT k hk ↔ unicode ch ≤ k := by
    rw [UInt32.le_iff_toNat_le, hval, UInt32.toNat_ofNatLT]
  rw [hencoding, String.length_utf8EncodeChar, Char.utf8Size]
  simp only [hle]
  split_ifs <;> omega

example : encoding 0xfe = [0xe2, 0x96, 0xa0] := by decide

/-- The length of a text in UTF-8. -/
theorem length_flatMap_encoding (s : List UInt8) : (s.flatMap encoding).length =
    s.length + s.countP (0x80 ≤ unicode ·) + s.countP (0x800 ≤ unicode ·) := by
  induction s with
  | nil => rfl
  | cons ch s ih =>
    rw [List.flatMap_cons, List.length_append, ih, length_encoding, List.countP_cons,
      List.countP_cons, List.length_cons]
    simp only [decide_eq_true_eq]
    omega

/-! ## The conversion -/

theorem result_le_length_written {s : List ℕ} (h : wcstombs n s = some r) :
    r.result ≤ r.written.length := by
  induction s generalizing n r with
  | nil =>
    cases h
    exact Nat.zero_le _
  | cons wc s ih =>
    rw [wcstombs] at h
    split at h
    · cases h
    next bytes _ =>
      split_ifs at h
      · cases h
        exact Nat.zero_le _
      · cases h
        exact Nat.zero_le _
      · obtain ⟨r', hr', rfl⟩ := Option.map_eq_some_iff.mp h
        rw [List.length_append]
        exact Nat.add_le_add_left (ih hr') _

/-- With room for the whole text and a null. -/
theorem wcstombs_eq (hs : 0 ∉ s) (hn : (s.flatMap encoding).length < n) :
    wcstombs n (cp437ToUtf8w s) =
      some ⟨s.flatMap encoding ++ [0], (s.flatMap encoding).length⟩ := by
  induction s generalizing n with
  | nil =>
    rw [cp437ToUtf8w, List.map_nil, wcstombs, if_neg (Nat.ne_of_gt (Nat.zero_lt_of_lt hn))]
    rfl
  | cons ch s ih =>
    rw [List.mem_cons, not_or] at hs
    rw [List.flatMap_cons, List.length_append] at hn
    have hrest := @ih (n - (encoding ch).length) hs.2 (by omega)
    rw [cp437ToUtf8w] at hrest
    rw [cp437ToUtf8w, List.map_cons, wcstombs, wctomb_unicode]
    dsimp only
    rw [if_neg (by omega), if_neg (unicode_ne_zero (Ne.symm hs.1)), hrest, Option.map_some,
      List.flatMap_cons, List.length_append, List.append_assoc]

theorem length_encoding_le (ch : UInt8) : (encoding ch).length ≤ 3 := by
  rw [length_encoding]
  split_ifs <;> omega

theorem length_flatMap_encoding_le (s : List UInt8) :
    (s.flatMap encoding).length ≤ s.length * 3 := by
  induction s with
  | nil => exact Nat.zero_le _
  | cons ch s ih =>
    rw [List.flatMap_cons, List.length_append, List.length_cons]
    have hch := length_encoding_le ch
    omega

/-- Up to 3073 bytes the limit is an `int`, and the whole text is written. -/
theorem convert_eq (hs : 0 ∉ s) (hlen : s.length ≤ contentsSize) :
    convert s = some ⟨s.flatMap encoding ++ [0], (s.flatMap encoding).length⟩ := by
  rw [contentsSize] at hlen
  have hsize : castInt (cp437ToUtf8w s).length = s.length := by
    rw [cp437ToUtf8w, List.length_map]
    apply castInt_eq_self
    · exact Int.natCast_nonneg _
    · rw [intMax]
      omega
  have hmax : maxLen (cp437ToUtf8w s) = some (s.length * 3 + 1) := by
    rw [maxLen, hsize, if_pos (by rw [intMin, intMax]; omega),
      Int.emod_eq_of_lt (by omega) (by omega)]
    rfl
  rw [convert, hmax, Option.bind_some]
  apply wcstombs_eq hs
  have htext := length_flatMap_encoding_le s
  omega

theorem converts_of_le (hs : 0 ∉ s) (hlen : (s.flatMap encoding).length < contentsSize) :
    Converts s := by
  have hle : s.length ≤ contentsSize := by
    rw [length_flatMap_encoding] at hlen
    omega
  have hconvert := convert_eq hs hle
  have hwritten : (s.flatMap encoding ++ [0]).length ≤ contentsSize := by
    rw [List.length_append]
    exact hlen
  constructor
  · rw [cp437ToUtf8, hconvert, Option.bind_some, if_pos (Or.inl (List.drop_eq_nil_of_le hwritten)),
      resize_overwrite (by simp) (by simp), resize_zero, List.nil_append, List.take_left']
    rfl
  · intro r hr
    rw [hconvert] at hr
    cases hr
    exact hwritten

/-- What is returned is no longer than what is written, so that the string is not so long that the
limit overflows. -/
theorem length_lt_of_converts (hs : 0 ∉ s) (h : Converts s) :
    (s.flatMap encoding).length < contentsSize := by
  obtain ⟨htext, hwritten⟩ := h
  obtain ⟨r, hr, hresult⟩ := Option.bind_eq_some_iff.mp htext
  have hsize : r.result = (s.flatMap encoding).length := by
    split_ifs at hresult
    rw [← Option.some.inj hresult, length_resize]
  have hle : (s.flatMap encoding).length ≤ contentsSize := by
    obtain ⟨max_len, -, hwcstombs⟩ := Option.bind_eq_some_iff.mp hr
    rw [← hsize]
    exact (result_le_length_written hwcstombs).trans (hwritten r hr)
  have hlen : s.length ≤ contentsSize := by
    rw [length_flatMap_encoding] at hle
    omega
  have hfull := hwritten _ (convert_eq hs hlen)
  rw [List.length_append] at hfull
  exact hfull

/-- The conversion of a string without nulls is right, and what is written stays in the buffer,
exactly where the text takes at most 3072 bytes. -/
theorem cp437ToUtf8_iff (hs : 0 ∉ s) : Converts s ↔
    s.length + s.countP (0x80 ≤ unicode ·) + s.countP (0x800 ≤ unicode ·) ≤ 3072 := by
  rw [← length_flatMap_encoding, ← Nat.lt_succ_iff]
  exact ⟨length_lt_of_converts hs, converts_of_le hs⟩

theorem cp437ToUtf8_letters : Converts [0x41, 0x82, 0xdb] :=
  (cp437ToUtf8_iff (by decide)).mpr (by decide)

/-- A block is three bytes: with 1025 of them, 3076 bytes are written to a buffer of 3073. -/
theorem cp437ToUtf8_blocks : (0 : UInt8) ∉ List.replicate 1025 0xdb ∧
    ¬Converts (List.replicate 1025 0xdb) ∧
    (convert (List.replicate 1025 0xdb)).map (·.written.length) = some 3076 := by
  have hs : (0 : UInt8) ∉ List.replicate 1025 0xdb := by
    rw [List.mem_replicate]
    decide
  have hlen : ((List.replicate 1025 0xdb).flatMap encoding).length = 3075 := by
    rw [length_flatMap_encoding, List.length_replicate, List.countP_replicate,
      List.countP_replicate]
    rfl
  refine ⟨hs, fun h => ?_, ?_⟩
  · have hlt := length_lt_of_converts hs h
    rw [hlen, contentsSize] at hlt
    omega
  · rw [convert_eq hs (by rw [List.length_replicate, contentsSize]; omega), Option.map_some,
      List.length_append, hlen]
    rfl

end WwivBasic
