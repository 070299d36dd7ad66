import Mathlib.Data.List.Basic
import WwivBasic.Core.Strings

/-!
# Universally unique identifiers

`core/uuid.cpp` writes a `uuid_t` as groups of lower case hex digits with dashes between them.
`from_string` looks at the first character and the size of a text, and then reads two characters
for each byte, wherever there are dashes and whatever the characters are.

## Main definitions

* `Uuid.toString`, `Uuid.fromString`: the text of a `uuid_t`, and the `uuid_t` of a text
* `Uuid.Canonical`: the texts in groups of hex digits

## Main results

* `Uuid.fromString_toString`: the text of a `uuid_t`, in any case, with or without braces
* `Uuid.fromString_iff`: when only such a text is accepted
-/

namespace WwivBasic

/-- What is read of a `uuid_t`: its bytes. -/
@[ext]
structure Uuid where
  bytes : List UInt8
  length_bytes : bytes.length = 16
  deriving DecidableEq

namespace Uuid

/-! ## The text of a `uuid_t` -/

/-- A byte in hex, of width 2 and filled with zeros. -/
def hexByte (b : UInt8) : Str := [Nat.digitChar (b.toNat / 16), Nat.digitChar (b.toNat % 16)]

/-- Bytes in hex, one after the other. -/
def hexText (bytes : List UInt8) : Str := bytes.flatMap hexByte

/-- `uuid_t::to_string`. -/
def toString (u : Uuid) : Str :=
  hexText (u.bytes.take 4) ++ '-' ::
    (hexText ((u.bytes.drop 4).take 2) ++ '-' ::
      (hexText ((u.bytes.drop 6).take 2) ++ '-' ::
        (hexText ((u.bytes.drop 8).take 2) ++ '-' :: hexText (u.bytes.drop 10))))

/-! ## The `uuid_t` of a text -/

/-- `from_single_hex_byte`. Other characters count as 0. -/
def fromSingleHexByte (r : Char) : ℕ :=
  let b := r.toLower
  if 'a' ≤ b ∧ b ≤ 'f' then b.toNat - 'a'.toNat + 10
  else if '0' ≤ b ∧ b ≤ '9' then b.toNat - '0'.toNat
  else 0

/-- `from_hex_bytes`. -/
def fromHexBytes (l r : Char) : UInt8 :=
  UInt8.ofNat ((fromSingleHexByte l <<< 4 &&& 0xf0) ||| (fromSingleHexByte r &&& 0x0f))

/-- The loop of `from_string` over the `n` bytes that are left. They are 0 where the text ends. -/
def readBytes : ℕ → Str → List UInt8
  | 0, _ => []
  | n + 1, s =>
    match s.dropWhile (· = '-') with
    | [] => List.replicate (n + 1) 0
    | l :: s =>
      match s.dropWhile (· = '-') with
      | [] => List.replicate (n + 1) 0
      | r :: s => fromHexBytes l r :: readBytes n s

theorem length_readBytes (n : ℕ) (s : Str) : (readBytes n s).length = n := by
  induction n generalizing s with
  | zero => rfl
  | succ n ih =>
    rw [readBytes]
    split
    · exact List.length_replicate
    · split
      · exact List.length_replicate
      · rw [List.length_cons, ih]

/-- `uuid_t::from_string`. -/
def fromString (s : Str) : Option Uuid :=
  match s with
  | [] => none
  | front :: rest =>
    let has_braces := front = '{'
    let expected_size := if has_braces then 38 else 36
    if s.length ≠ expected_size then none
    else
      let sit := if has_braces then rest else s
      some ⟨readBytes 16 sit, length_readBytes 16 sit⟩

/-! ## Canonical texts -/

/-- A hex digit, in either case. -/
def isHexDigit (c : Char) : Bool :=
  ('a' ≤ c.toLower && c.toLower ≤ 'f') || ('0' ≤ c.toLower && c.toLower ≤ '9')

/-- A group of `n` hex digits. -/
def IsGroup (n : ℕ) (g : Str) : Prop := g.length = n ∧ ∀ c ∈ g, isHexDigit c = true

/-- Groups of 8, 4, 4, 4 and 12 hex digits with dashes between them. -/
def Canonical (s : Str) : Prop :=
  ∃ a b c d e, s = a ++ '-' :: (b ++ '-' :: (c ++ '-' :: (d ++ '-' :: e))) ∧
    IsGroup 8 a ∧ IsGroup 4 b ∧ IsGroup 4 c ∧ IsGroup 4 d ∧ IsGroup 12 e

/-- The text without one pair of braces around it. -/
def unbraced (s : Str) : Str :=
  if s.head? = some '{' ∧ s.getLast? = some '}' then s.dropLast.tail else s

/-- The size that `from_string` expects of a text with its first character. -/
def ExpectedSize (s : Str) : Prop := s.length = if s.head? = some '{' then 38 else 36

instance (s : Str) : Decidable (ExpectedSize s) :=
  inferInstanceAs (Decidable (s.length = if s.head? = some '{' then 38 else 36))

/-- Only the text of a `uuid_t` is read as it. -/
def ReadsCanonical (s : Str) : Prop :=
  ∀ u, fromString s = some u → (unbraced s).map Char.toLower = u.toString

variable {n : ℕ} {u : Uuid} {b : UInt8} {bytes : List UInt8} {l r c : Char} {s t g : Str}

/-! ## Digits -/

theorem fromSingleHexByte_of_toLower (hn : n < 16) (hc : c.toLower = Nat.digitChar n) :
    fromSingleHexByte c = n := by
  have hdigits : ∀ n < 16, (if 'a' ≤ Nat.digitChar n ∧ Nat.digitChar n ≤ 'f' then
      (Nat.digitChar n).toNat - 'a'.toNat + 10
    else if '0' ≤ Nat.digitChar n ∧ Nat.digitChar n ≤ '9' then
      (Nat.digitChar n).toNat - '0'.toNat else 0) = n := by decide
  rw [fromSingleHexByte, hc]
  exact hdigits n hn

/-- The two halves of a byte, put together. -/
theorem ofNat_halves (b : UInt8) :
    UInt8.ofNat (((b.toNat / 16) <<< 4 &&& 0xf0) ||| (b.toNat % 16 &&& 0x0f)) = b := by
  have hbytes : ∀ hi < 16, ∀ lo < 16, (hi <<< 4 &&& 0xf0) ||| (lo &&& 0x0f) = 16 * hi + lo := by
    decide
  have hlt := b.toNat_lt
  have hb := hbytes (b.toNat / 16) (by omega) (b.toNat % 16) (by omega)
  rw [Nat.div_add_mod] at hb
  exact (congrArg UInt8.ofNat hb).trans UInt8.ofNat_toNat

theorem dash_ne_digitChar : ∀ n < 16, '-'.toLower ≠ Nat.digitChar n := by
  decide

/-- A hex digit, lowered, is the digit of what it stands for. -/
theorem digitChar_fromSingleHexByte (hc : isHexDigit c = true) :
    fromSingleHexByte c < 16 ∧ Nat.digitChar (fromSingleHexByte c) = c.toLower := by
  have hletters : ∀ k < 6, Nat.digitChar (k + 10) = Char.ofNat ('a'.toNat + k) := by decide
  have hdigits : ∀ k < 10, Nat.digitChar k = Char.ofNat ('0'.toNat + k) := by decide
  rw [isHexDigit, Bool.or_eq_true, Bool.and_eq_true, Bool.and_eq_true] at hc
  simp only [decide_eq_true_eq] at hc
  rw [fromSingleHexByte]
  generalize c.toLower = d at hc ⊢
  rcases hc with hc | hc
  · have hlo : 'a'.toNat ≤ d.toNat := hc.1
    have hhi : d.toNat ≤ 'a'.toNat + 5 := hc.2
    have hk := hletters (d.toNat - 'a'.toNat) (by omega)
    rw [Nat.add_sub_cancel' hlo, Char.ofNat_toNat] at hk
    simp only [if_pos hc]
    exact ⟨by omega, hk⟩
  · have hlo : '0'.toNat ≤ d.toNat := hc.1
    have hhi : d.toNat ≤ '0'.toNat + 9 := hc.2
    have hno : ¬('a' ≤ d ∧ d ≤ 'f') := by
      rintro ⟨hletter, -⟩
      have hletter' : '0'.toNat + 49 ≤ d.toNat := hletter
      omega
    have hk := hdigits (d.toNat - '0'.toNat) (by omega)
    rw [Nat.add_sub_cancel' hlo, Char.ofNat_toNat] at hk
    simp only [if_neg hno, if_pos hc]
    exact ⟨by omega, hk⟩

/-! ## Reading -/

/-- Two digits of a byte, in either case. -/
theorem readBytes_byte (hl : l.toLower = Nat.digitChar (b.toNat / 16))
    (hr : r.toLower = Nat.digitChar (b.toNat % 16)) (n : ℕ) (s : Str) :
    readBytes (n + 1) (l :: r :: s) = b :: readBytes n s := by
  have hlt := b.toNat_lt
  have hdash : ∀ c n, n < 16 → c.toLower = Nat.digitChar n → ¬c = '-' := by
    rintro c n hn hc rfl
    exact dash_ne_digitChar n hn hc
  have hlne := hdash l _ (by omega) hl
  have hrne := hdash r _ (by omega) hr
  have hbyte : fromHexBytes l r = b := by
    rw [fromHexBytes, fromSingleHexByte_of_toLower (by omega) hl,
      fromSingleHexByte_of_toLower (by omega) hr]
    exact ofNat_halves b
  rw [readBytes, List.dropWhile_cons_of_neg (by simpa using hlne)]
  dsimp only
  rw [List.dropWhile_cons_of_neg (by simpa using hrne)]
  dsimp only
  rw [hbyte]

/-- A dash is skipped. -/
theorem readBytes_dash (n : ℕ) (s : Str) : readBytes n ('-' :: s) = readBytes n s := by
  cases n with
  | zero => rfl
  | succ n =>
    rw [readBytes, readBytes, List.dropWhile_cons_of_pos (by simp)]

/-- The digits of bytes, in either case. -/
theorem readBytes_hexText (ht : t.map Char.toLower = hexText bytes) (n : ℕ) (s : Str) :
    readBytes (bytes.length + n) (t ++ s) = bytes ++ readBytes n s := by
  induction bytes generalizing t with
  | nil =>
    rw [List.map_eq_nil_iff.mp ht, List.nil_append, List.length_nil, Nat.zero_add]
    rfl
  | cons b bytes ih =>
    have hcons : hexText (b :: bytes) = Nat.digitChar (b.toNat / 16) ::
      Nat.digitChar (b.toNat % 16) :: hexText bytes := rfl
    rw [hcons, List.map_eq_cons_iff] at ht
    obtain ⟨l, t, rfl, hl, ht⟩ := ht
    rw [List.map_eq_cons_iff] at ht
    obtain ⟨r, t, rfl, hr, ht⟩ := ht
    rw [List.cons_append, List.cons_append, List.length_cons, Nat.add_right_comm,
      readBytes_byte hl hr, ih ht, List.cons_append]

/-- The next group and its dash. -/
theorem exists_group {g rest : Str}
    (ht : t.map Char.toLower = g ++ '-' :: rest) :
    ∃ g' rest', t = g' ++ '-' :: rest' ∧ g'.map Char.toLower = g ∧
      rest'.map Char.toLower = rest := by
  rw [List.map_eq_append_iff] at ht
  obtain ⟨g', t', rfl, hg, ht⟩ := ht
  rw [List.map_eq_cons_iff] at ht
  obtain ⟨c, rest', rfl, hc, hrest⟩ := ht
  have hdash := (toLower_eq_iff (c := c) (d := '-') (by decide)).mp hc
  exact ⟨g', rest', by rw [hdash], hg, hrest⟩

/-- A text that is that of a `uuid_t` once it is lowered, in its groups. -/
theorem exists_groups (ht : t.map Char.toLower = u.toString) :
    ∃ a b c d e, t = a ++ '-' :: (b ++ '-' :: (c ++ '-' :: (d ++ '-' :: e))) ∧
      a.map Char.toLower = hexText (u.bytes.take 4) ∧
      b.map Char.toLower = hexText ((u.bytes.drop 4).take 2) ∧
      c.map Char.toLower = hexText ((u.bytes.drop 6).take 2) ∧
      d.map Char.toLower = hexText ((u.bytes.drop 8).take 2) ∧
      e.map Char.toLower = hexText (u.bytes.drop 10) := by
  obtain ⟨a, t, rfl, ha, ht⟩ := exists_group ht
  obtain ⟨b, t, rfl, hb, ht⟩ := exists_group ht
  obtain ⟨c, t, rfl, hc, ht⟩ := exists_group ht
  obtain ⟨d, e, rfl, hd, he⟩ := exists_group ht
  exact ⟨a, b, c, d, e, rfl, ha, hb, hc, hd, he⟩

theorem readBytes_group {k : ℕ} (hg : g.map Char.toLower = hexText bytes) (hlen : bytes.length = k)
    (n : ℕ) (s : Str) : readBytes (k + n) (g ++ '-' :: s) = bytes ++ readBytes n s := by
  rw [← hlen, readBytes_hexText hg, readBytes_dash]

/-- The bytes of a text in any case, whatever comes after it. -/
theorem readBytes_toString (ht : t.map Char.toLower = u.toString) (s : Str) :
    readBytes 16 (t ++ s) = u.bytes := by
  have hlen := u.length_bytes
  obtain ⟨a, b, c, d, e, rfl, ha, hb, hc, hd, he⟩ := exists_groups ht
  have hlast : (u.bytes.drop 10).length = 6 := by rw [List.length_drop, hlen]
  have hread := readBytes_hexText he 0 s
  rw [hlast, readBytes, List.append_nil] at hread
  simp only [List.append_assoc, List.cons_append]
  change readBytes (4 + (2 + (2 + (2 + (6 + 0))))) _ = _
  rw [readBytes_group (k := 4) ha (by rw [List.length_take, hlen]; rfl),
    readBytes_group (k := 2) hb (by rw [List.length_take, List.length_drop, hlen]; rfl),
    readBytes_group (k := 2) hc (by rw [List.length_take, List.length_drop, hlen]; rfl),
    readBytes_group (k := 2) hd (by rw [List.length_take, List.length_drop, hlen]; rfl), hread]
  have hdrop : ∀ k m, (u.bytes.drop k).take m ++ u.bytes.drop (k + m) = u.bytes.drop k := by
    intro k m
    rw [← List.drop_drop, List.take_append_drop]
  rw [hdrop 8 2, hdrop 6 2, hdrop 4 2, List.take_append_drop]

/-! ## Canonical texts -/

theorem length_hexText (bytes : List UInt8) : (hexText bytes).length = 2 * bytes.length := by
  induction bytes with
  | nil => rfl
  | cons b bytes ih =>
    rw [hexText] at ih ⊢
    rw [List.flatMap_cons, List.length_append, ih, List.length_cons]
    simp only [hexByte, List.length_cons, List.length_nil]
    omega

theorem isHexDigit_of_toLower (hn : n < 16) (hc : c.toLower = Nat.digitChar n) :
    isHexDigit c = true := by
  have hdigits : ∀ n < 16, (('a' ≤ Nat.digitChar n && Nat.digitChar n ≤ 'f') ||
      ('0' ≤ Nat.digitChar n && Nat.digitChar n ≤ '9')) = true := by decide
  rw [isHexDigit, hc]
  exact hdigits n hn

/-- The digits of bytes are a group, in any case. -/
theorem isGroup_of_toLower (hg : g.map Char.toLower = hexText bytes) :
    IsGroup (2 * bytes.length) g := by
  constructor
  · rw [← length_hexText, ← hg, List.length_map]
  · intro c hc
    have hmem : c.toLower ∈ hexText bytes := hg ▸ List.mem_map_of_mem hc
    obtain ⟨b, -, hb⟩ := List.mem_flatMap.mp hmem
    have hlt := b.toNat_lt
    rw [hexByte, List.mem_cons, List.mem_singleton] at hb
    rcases hb with hb | hb
    · exact isHexDigit_of_toLower (by omega) hb
    · exact isHexDigit_of_toLower (by omega) hb

/-- A group is the digits of bytes, in some case. -/
theorem exists_hexText {k : ℕ} (hg : IsGroup (2 * k) g) :
    ∃ bytes : List UInt8, bytes.length = k ∧ g.map Char.toLower = hexText bytes := by
  induction k generalizing g with
  | zero => exact ⟨[], rfl, by rw [List.length_eq_zero_iff.mp hg.1]; rfl⟩
  | succ k ih =>
    obtain ⟨hlen, hdigits⟩ := hg
    rcases g with - | ⟨l, - | ⟨r, g⟩⟩
    · simp at hlen
    · simp at hlen
      omega
    · rw [List.forall_mem_cons, List.forall_mem_cons] at hdigits
      obtain ⟨hl, hr, hrest⟩ := hdigits
      simp only [List.length_cons] at hlen
      obtain ⟨bytes, hbytes, htext⟩ := @ih g ⟨by omega, hrest⟩
      obtain ⟨hlt, hl⟩ := digitChar_fromSingleHexByte hl
      obtain ⟨hrt, hr⟩ := digitChar_fromSingleHexByte hr
      have htoNat : (UInt8.ofNat (16 * fromSingleHexByte l + fromSingleHexByte r)).toNat =
          16 * fromSingleHexByte l + fromSingleHexByte r := by
        rw [UInt8.toNat_ofNat']
        omega
      refine ⟨UInt8.ofNat (16 * fromSingleHexByte l + fromSingleHexByte r) :: bytes, ?_, ?_⟩
      · rw [List.length_cons, hbytes]
      · have hhi : (16 * fromSingleHexByte l + fromSingleHexByte r) / 16 = fromSingleHexByte l := by
          omega
        have hlo : (16 * fromSingleHexByte l + fromSingleHexByte r) % 16 = fromSingleHexByte r := by
          omega
        rw [hexText, List.flatMap_cons, ← hexText, ← htext, hexByte, htoNat, hhi, hlo, hl, hr]
        rfl

theorem canonical_of_toLower (ht : t.map Char.toLower = u.toString) : Canonical t := by
  have hlen := u.length_bytes
  obtain ⟨a, b, c, d, e, rfl, ha, hb, hc, hd, he⟩ := exists_groups ht
  have ha' := isGroup_of_toLower ha
  have hb' := isGroup_of_toLower hb
  have hc' := isGroup_of_toLower hc
  have hd' := isGroup_of_toLower hd
  have he' := isGroup_of_toLower he
  simp only [List.length_take, List.length_drop, hlen] at ha' hb' hc' hd' he'
  exact ⟨a, b, c, d, e, rfl, ha', hb', hc', hd', he'⟩

theorem exists_toString (ht : Canonical t) : ∃ u : Uuid, t.map Char.toLower = u.toString := by
  obtain ⟨a, b, c, d, e, rfl, ha, hb, hc, hd, he⟩ := ht
  obtain ⟨a', ha', hat⟩ := exists_hexText (k := 4) ha
  obtain ⟨b', hb', hbt⟩ := exists_hexText (k := 2) hb
  obtain ⟨c', hc', hct⟩ := exists_hexText (k := 2) hc
  obtain ⟨d', hd', hdt⟩ := exists_hexText (k := 2) hd
  obtain ⟨e', he', het⟩ := exists_hexText (k := 6) he
  refine ⟨⟨a' ++ (b' ++ (c' ++ (d' ++ e'))), by simp [ha', hb', hc', hd', he']⟩, ?_⟩
  have hdrop : ∀ x y : List UInt8, ∀ k m, x.length = k → (x ++ y).drop (k + m) = y.drop m := by
    rintro x y k m rfl
    rw [List.drop_append, Nat.add_sub_cancel_left, List.drop_of_length_le (Nat.le_add_right _ _),
      List.nil_append]
  have hdrop4 : (a' ++ (b' ++ (c' ++ (d' ++ e')))).drop 4 = b' ++ (c' ++ (d' ++ e')) :=
    List.drop_left' ha'
  have hdrop6 : (a' ++ (b' ++ (c' ++ (d' ++ e')))).drop 6 = c' ++ (d' ++ e') :=
    (hdrop a' _ 4 2 ha').trans (List.drop_left' hb')
  have hdrop8 : (a' ++ (b' ++ (c' ++ (d' ++ e')))).drop 8 = d' ++ e' :=
    (hdrop a' _ 4 4 ha').trans ((hdrop b' _ 2 2 hb').trans (List.drop_left' hc'))
  have hdrop10 : (a' ++ (b' ++ (c' ++ (d' ++ e')))).drop 10 = e' :=
    (hdrop a' _ 4 6 ha').trans
      ((hdrop b' _ 2 4 hb').trans ((hdrop c' _ 2 2 hc').trans (List.drop_left' hd')))
  rw [toString]
  dsimp only
  rw [List.take_left' ha', hdrop4, List.take_left' hb', hdrop6, List.take_left' hc', hdrop8,
    List.take_left' hd', hdrop10, ← hat, ← hbt, ← hct, ← hdt, ← het]
  simp only [List.map_append, List.map_cons]
  rfl

theorem length_of_canonical (ht : Canonical t) : t.length = 36 := by
  obtain ⟨a, b, c, d, e, rfl, ha, hb, hc, hd, he⟩ := ht
  simp only [List.length_append, List.length_cons, ha.1, hb.1, hc.1, hd.1, he.1]

theorem head?_of_canonical (ht : Canonical t) : t.head? ≠ some '{' := by
  obtain ⟨a, b, c, d, e, rfl, ha, -⟩ := ht
  obtain ⟨x, a, rfl⟩ := List.exists_cons_of_length_eq_add_one ha.1
  intro hx
  rw [List.cons_append, List.head?_cons, Option.some.injEq] at hx
  have hdigit := ha.2 x List.mem_cons_self
  rw [hx] at hdigit
  exact absurd hdigit (by decide)

/-! ## What is accepted -/

theorem fromString_eq_none (hs : ¬ExpectedSize s) : fromString s = none := by
  cases s with
  | nil => rfl
  | cons front rest =>
    simp only [ExpectedSize, List.head?_cons, Option.some.injEq] at hs
    exact if_pos hs

/-- The text that is read for the bytes. -/
theorem fromString_eq_some (hs : ExpectedSize s) : fromString s =
    some ⟨readBytes 16 (if s.head? = some '{' then s.tail else s), length_readBytes 16 _⟩ := by
  cases s with
  | nil => exact absurd hs (by decide)
  | cons front rest =>
    have hsize := hs
    simp only [ExpectedSize, List.head?_cons, Option.some.injEq] at hsize
    simp only [List.head?_cons, Option.some.injEq, List.tail_cons]
    exact if_neg (not_not.mpr hsize)

/-- The text of a `uuid_t`, in any case. -/
theorem fromString_of_toLower (ht : t.map Char.toLower = u.toString) : fromString t = some u := by
  have hcanonical := canonical_of_toLower ht
  have hhead := head?_of_canonical hcanonical
  have hs : ExpectedSize t := by
    rw [ExpectedSize, if_neg hhead, length_of_canonical hcanonical]
  have hread := readBytes_toString ht []
  rw [List.append_nil] at hread
  rw [fromString_eq_some hs]
  simp only [if_neg hhead, hread]

/-- The same in braces. -/
theorem fromString_braces_of_toLower (ht : t.map Char.toLower = u.toString) :
    fromString ('{' :: (t ++ ['}'])) = some u := by
  have hs : ExpectedSize ('{' :: (t ++ ['}'])) := by
    rw [ExpectedSize, List.head?_cons, if_pos rfl, List.length_cons, List.length_append,
      length_of_canonical (canonical_of_toLower ht)]
    rfl
  have hread := readBytes_toString ht ['}']
  rw [fromString_eq_some hs]
  simp only [List.head?_cons, if_true, List.tail_cons, hread]

/-- The text of a `uuid_t` is read as it, in any case, with or without braces around it. -/
theorem fromString_toString (u : Uuid) (ht : t.map Char.toLower = u.toString) :
    fromString t = some u ∧ fromString ('{' :: (t ++ ['}'])) = some u :=
  ⟨fromString_of_toLower ht, fromString_braces_of_toLower ht⟩

theorem fromString_toString_upperCase :
    fromString "ABababab-abab-abab-abab-abababababaB".toList =
        some ⟨List.replicate 16 0xab, rfl⟩ ∧
      fromString ('{' :: ("ABababab-abab-abab-abab-abababababaB".toList ++ ['}'])) =
        some ⟨List.replicate 16 0xab, rfl⟩ :=
  fromString_toString ⟨List.replicate 16 0xab, rfl⟩ (by decide)

/-- A text in braces, or one that is not. -/
theorem unbraced_cases (s : Str) :
    (∃ t, s = '{' :: (t ++ ['}']) ∧ unbraced s = t) ∨ unbraced s = s := by
  rw [unbraced]
  split_ifs with h
  · obtain ⟨hhead, hlast⟩ := h
    have hne := List.ne_nil_of_mem (List.mem_of_head? hhead)
    obtain ⟨x, rest, rfl⟩ := List.exists_cons_of_ne_nil hne
    obtain rfl : x = '{' := Option.some.inj hhead
    rcases List.eq_nil_or_concat rest with rfl | ⟨t, y, rfl⟩
    · exact absurd hlast (by decide)
    · rw [List.concat_eq_append, ← List.cons_append, List.getLast?_concat,
        Option.some.injEq] at hlast
      refine .inl ⟨t, by rw [List.concat_eq_append, hlast], ?_⟩
      rw [List.concat_eq_append, ← List.cons_append, List.dropLast_concat, List.tail_cons]
  · exact .inr rfl

/-- Only canonical texts are accepted exactly when the text has another size than is expected for
its first character, or is in groups of hex digits. -/
theorem fromString_iff (s : Str) :
    ReadsCanonical s ↔ ¬ExpectedSize s ∨ Canonical (unbraced s) := by
  constructor
  · intro h
    by_cases hs : ExpectedSize s
    · exact .inr (canonical_of_toLower (h _ (fromString_eq_some hs)))
    · exact .inl hs
  · rintro (hs | hcanonical) u hu
    · rw [fromString_eq_none hs] at hu
      exact absurd hu.symm (Option.some_ne_none u)
    · obtain ⟨v, hv⟩ := exists_toString hcanonical
      have hread : fromString s = some v := by
        rcases unbraced_cases s with ⟨t, rfl, ht⟩ | hsame
        · exact fromString_braces_of_toLower (ht ▸ hv)
        · exact fromString_of_toLower (hsame ▸ hv)
      obtain rfl := Option.some.inj (hread.symm.trans hu)
      exact hv

/-- Dashes only, of the size that is expected. -/
theorem fromString_dashes : ¬ReadsCanonical (List.replicate 36 '-') := by
  intro h
  have hlen := h _ (fromString_eq_some (by decide))
  revert hlen
  decide

end Uuid

end WwivBasic
