import Mathlib.Data.List.Basic
import WwivBasic.Core.Strings
import WwivBasic.Foundations.Overwriting

/-!
# Files of records

`core/datafile.h` reads and writes records of a fixed size in a `File` of `core/file.cpp`, at the
position of the file. `WriteVectorAndTruncate` writes at the position the file was left at, the
records the limit allows, and then gives the file the length of all the records.

## Main definitions

* `FileState`: the bytes of a file, and the position of its handle
* `read`, `write`, `seek`, `writeVectorAndTruncate`: the operations of a `DataFile`

## Main results

* `writeVectorAndTruncate_iff`: when the file holds the records, and nothing else
-/

namespace WwivBasic

namespace DataFile

open Overwriting

/-! ## `File` -/

/-- A file: its bytes, and the position of the handle while it is open. -/
structure FileState where
  bytes : List UInt8
  handle : Option ℕ
  deriving DecidableEq

/-- `static_cast<unsigned int>`. -/
def castUnsigned (size : ℕ) : ℕ := size % 4294967296

/-- `File::Read`: what `read` returns, and the bytes. -/
def fileRead (size : ℕ) (f : FileState) : (Int × List UInt8) × FileState :=
  match f.handle with
  | none => ((-1, []), f)
  | some pos =>
    let buffer := (f.bytes.drop pos).take (castUnsigned size)
    ((buffer.length, buffer), { f with handle := some (pos + buffer.length) })

/-- `File::Write`: what `write` returns. -/
def fileWrite (buffer : List UInt8) (size : ℕ) (f : FileState) : Int × FileState :=
  match f.handle with
  | none => (-1, f)
  | some pos =>
    let data := buffer.take (castUnsigned size)
    (data.length, { bytes := overwrite 0 pos data f.bytes, handle := some (pos + data.length) })

/-- `File::Seek` from the beginning: the check of the handle, and what `lseek` returns. -/
def fileSeek (offset : Int) (f : FileState) : Option (Int × FileState) :=
  match f.handle with
  | none => none
  | some _ =>
    if offset < 0 then some (-1, f)
    else some (offset, { f with handle := some offset.toNat })

/-- `File::Close`. -/
def fileClose (f : FileState) : FileState := { f with handle := none }

/-- `File::set_length`, of an open file or of the file with its name. -/
def fileSetLength (l : ℕ) (f : FileState) : FileState := { f with bytes := resize 0 l f.bytes }

/-! ## `DataFile` -/

/-- A record, as its bytes. -/
structure Record (SIZE : ℕ) where
  bytes : List UInt8
  length_bytes : bytes.length = SIZE

/-- The bytes of a vector. -/
def vectorBytes {SIZE : ℕ} (records : List (Record SIZE)) : List UInt8 :=
  records.flatMap Record.bytes

section Operations

variable {SIZE : ℕ}

/-- `DataFile::Read`, with the bytes read. -/
def read (SIZE num_records : ℕ) (f : FileState) : (Bool × List UInt8) × FileState :=
  if num_records = 0 then ((true, []), f)
  else
    let ((ret, buffer), f) := fileRead (num_records * SIZE) f
    ((ret = castInt (num_records * SIZE : ℕ), buffer), f)

/-- `DataFile::Write`. -/
def write (records : List (Record SIZE)) (num_records : ℕ) (f : FileState) : Bool × FileState :=
  let (ret, f) := fileWrite (vectorBytes records) (num_records * SIZE) f
  (ret = (num_records * SIZE : ℕ), f)

/-- A product of two `ssize_t`, unless it overflows. -/
def ssizeMul (m n : Int) : Option Int :=
  if longMin ≤ m * n ∧ m * n ≤ longMax then some (m * n) else none

/-- `DataFile::Seek`. The offset is computed in `ssize_t`, where an overflow is undefined. -/
def seek (SIZE : ℕ) (record_number : Int) (f : FileState) : Option (Bool × FileState) := do
  let offset ← ssizeMul record_number SIZE
  let (ret, f) ← fileSeek offset f
  return (ret = offset, f)

/-- `DataFile::WriteVector`. -/
def writeVector (records : List (Record SIZE)) (max_records : ℕ) (f : FileState) :
    Bool × FileState :=
  if records = [] then (true, f)
  else
    let num := records.length
    let num := if max_records ≠ 0 ∧ max_records < num then max_records else num
    write records num f

/-- `DataFile::WriteVectorAndTruncate`. -/
def writeVectorAndTruncate (records : List (Record SIZE)) (max_records : ℕ) (f : FileState) :
    Bool × FileState :=
  let (written, f) := writeVector records max_records f
  if written then (true, fileSetLength (records.length * SIZE) (fileClose f)) else (false, f)

/-! ## What a file holds afterwards -/

/-- The number of records the limit allows. -/
def limited (records : List (Record SIZE)) (max_records : ℕ) : ℕ :=
  if max_records = 0 then records.length else min max_records records.length

/-- Where the call succeeds, the file holds the records the limit allows, and nothing else. -/
def HoldsVector (records : List (Record SIZE)) (max_records : ℕ) (f : FileState) : Prop :=
  (writeVectorAndTruncate records max_records f).1 = true →
    (writeVectorAndTruncate records max_records f).2.bytes =
      vectorBytes (records.take (limited records max_records))

variable {records : List (Record SIZE)} {max_records pos k : ℕ} {f : FileState}

@[simp] theorem length_vectorBytes (records : List (Record SIZE)) :
    (vectorBytes records).length = records.length * SIZE := by
  induction records with
  | nil => simp [vectorBytes]
  | cons r records ih =>
    rw [vectorBytes] at ih ⊢
    rw [List.flatMap_cons, List.length_append, ih, r.length_bytes, List.length_cons,
      Nat.succ_mul, Nat.add_comm]

/-- The first bytes are those of the first records. -/
theorem take_vectorBytes (records : List (Record SIZE)) (hk : k ≤ records.length) :
    (vectorBytes records).take (k * SIZE) = vectorBytes (records.take k) := by
  have hsplit : vectorBytes records =
      vectorBytes (records.take k) ++ vectorBytes (records.drop k) := by
    rw [vectorBytes, vectorBytes, vectorBytes, ← List.flatMap_append, List.take_append_drop]
  have hlen : (vectorBytes (records.take k)).length = k * SIZE := by
    rw [length_vectorBytes, List.length_take, Nat.min_eq_left hk]
  rw [hsplit, ← hlen, List.take_left]

theorem limited_le (records : List (Record SIZE)) (max_records : ℕ) :
    limited records max_records ≤ records.length := by
  rw [limited]
  split_ifs
  · exact Nat.le_refl _
  · exact Nat.min_le_right _ _

theorem writeVector_eq (hne : records ≠ []) : writeVector records max_records f =
    write records (limited records max_records) f := by
  have hnum : (if max_records ≠ 0 ∧ max_records < records.length then max_records
      else records.length) = limited records max_records := by
    rw [limited]
    grind
  rw [writeVector, if_neg hne]
  exact congrArg (write records · f) hnum

/-- All the bytes are written where their number is an `unsigned int`. -/
theorem write_eq (hk : k ≤ records.length) (hsize : k * SIZE < 4294967296)
    (hpos : f.handle = some pos) : write records k f =
      (true, ⟨overwrite 0 pos (vectorBytes (records.take k)) f.bytes, some (pos + k * SIZE)⟩) := by
  have hcast : castUnsigned (k * SIZE) = k * SIZE := Nat.mod_eq_of_lt hsize
  have hlen : (vectorBytes (records.take k)).length = k * SIZE := by
    rw [length_vectorBytes, List.length_take, Nat.min_eq_left hk]
  rw [write, fileWrite, hpos]
  simp only [hcast, take_vectorBytes records hk, hlen, decide_true]

/-- The call fails where the file is not open, or the size does not fit an `unsigned int`. -/
theorem write_eq_false (h : f.handle = none ∨ 4294967296 ≤ k * SIZE) :
    (write records k f).1 = false := by
  rw [write, fileWrite]
  cases hpos : f.handle with
  | none =>
    have hne : (-1 : Int) ≠ (k * SIZE : ℕ) := by omega
    simp only [hne, decide_false]
  | some pos =>
    have hsize : 4294967296 ≤ k * SIZE := by
      rcases h with h | h
      · rw [hpos] at h
        exact absurd h (Option.some_ne_none pos)
      · exact h
    have hlt : castUnsigned (k * SIZE) < 4294967296 := Nat.mod_lt _ (by decide)
    have hlen := List.length_take_le (castUnsigned (k * SIZE)) (vectorBytes records)
    have hne : (((vectorBytes records).take (castUnsigned (k * SIZE))).length : Int) ≠
        (k * SIZE : ℕ) := by omega
    simp only [hne, decide_false]

theorem writeVectorAndTruncate_eq_false (hne : records ≠ [])
    (h : f.handle = none ∨ 4294967296 ≤ limited records max_records * SIZE) :
    (writeVectorAndTruncate records max_records f).1 = false := by
  have hwrite := @write_eq_false SIZE records _ f h
  rw [writeVectorAndTruncate, writeVector_eq hne]
  generalize write records (limited records max_records) f = result at hwrite ⊢
  obtain ⟨written, f'⟩ := result
  obtain rfl : written = false := hwrite
  rfl

/-- What a call that succeeds leaves: the bytes up to the position, and the records after them. -/
theorem writeVectorAndTruncate_eq_true (hne : records ≠ [])
    (hpos : f.handle = some pos)
    (hsize : limited records max_records * SIZE < 4294967296) :
    (writeVectorAndTruncate records max_records f).1 = true ∧
      (writeVectorAndTruncate records max_records f).2.bytes =
        resize 0 (records.length * SIZE) (overwrite 0 pos
          (vectorBytes (records.take (limited records max_records))) f.bytes) := by
  have hwrite := write_eq (limited_le records max_records) hsize hpos
  rw [writeVectorAndTruncate, writeVector_eq hne, hwrite]
  exact ⟨rfl, rfl⟩

/-- The file holds the records the limit allows exactly when there is nothing to write, the write
fails, or the limit allows all the records and the file up to the position, with the records after
it, begins with the records. -/
theorem writeVectorAndTruncate_iff (hSIZE : 0 < SIZE) (records : List (Record SIZE))
    (max_records : ℕ) (f : FileState) : HoldsVector records max_records f ↔
      records = [] ∨ f.handle = none ∨ 4294967296 ≤ limited records max_records * SIZE ∨
      limited records max_records = records.length ∧ ∀ pos, f.handle = some pos →
        vectorBytes records <+: resize 0 pos f.bytes ++ vectorBytes records := by
  by_cases hne : records = []
  · subst hne
    simp [HoldsVector, writeVectorAndTruncate, writeVector, fileSetLength, vectorBytes]
  cases hpos : f.handle with
  | none => simp [HoldsVector, writeVectorAndTruncate_eq_false hne (.inl hpos)]
  | some pos =>
    by_cases hsize : 4294967296 ≤ limited records max_records * SIZE
    · simp [HoldsVector, writeVectorAndTruncate_eq_false hne (.inr hsize), hsize]
    have hle := limited_le records max_records
    obtain ⟨htrue, hbytes⟩ :=
      writeVectorAndTruncate_eq_true hne hpos (Nat.lt_of_not_le hsize)
    have hholds : HoldsVector records max_records f ↔
        resize 0 (records.length * SIZE) (overwrite 0 pos
          (vectorBytes (records.take (limited records max_records))) f.bytes) =
          vectorBytes (records.take (limited records max_records)) := by
      rw [HoldsVector, hbytes]
      exact ⟨fun h => h htrue, fun h _ => h⟩
    have hwhole : limited records max_records = records.length →
        (HoldsVector records max_records f ↔
          vectorBytes records <+: resize 0 pos f.bytes ++ vectorBytes records) := by
      intro hlimited
      have hdata : vectorBytes records ≠ [] := by
        apply List.ne_nil_of_length_pos
        rw [length_vectorBytes]
        exact Nat.mul_pos (List.length_pos_of_ne_nil hne) hSIZE
      have hend : records.length * SIZE ≤ pos + (vectorBytes records).length := by
        rw [length_vectorBytes]
        exact Nat.le_add_left _ _
      rw [hholds, hlimited, List.take_length, resize_overwrite hdata hend,
        List.prefix_iff_eq_take, length_vectorBytes, eq_comm]
    simp only [hne, hsize, false_or, Option.some.injEq, forall_eq', reduceCtorEq]
    constructor
    · intro h
      have hlen := congrArg List.length (hholds.mp h)
      rw [length_resize, length_vectorBytes, List.length_take, Nat.min_eq_left hle] at hlen
      have hlimited := (Nat.eq_of_mul_eq_mul_right hSIZE hlen).symm
      exact ⟨hlimited, (hwhole hlimited).mp h⟩
    · rintro ⟨hlimited, h⟩
      exact (hwhole hlimited).mpr h

theorem writeVectorAndTruncate_iff_oneByte :
    HoldsVector [⟨[1], rfl⟩] 0 ⟨[2, 3], some 0⟩ ↔
      ([⟨[1], rfl⟩] : List (Record 1)) = [] ∨ (⟨[2, 3], some 0⟩ : FileState).handle = none ∨
      4294967296 ≤ limited ([⟨[1], rfl⟩] : List (Record 1)) 0 * 1 ∨
      limited ([⟨[1], rfl⟩] : List (Record 1)) 0 = 1 ∧
        ∀ pos, (⟨[2, 3], some 0⟩ : FileState).handle = some pos →
          vectorBytes ([⟨[1], rfl⟩] : List (Record 1)) <+:
            resize 0 pos [2, 3] ++ vectorBytes ([⟨[1], rfl⟩] : List (Record 1)) :=
  writeVectorAndTruncate_iff (by decide) [⟨[1], rfl⟩] 0 ⟨[2, 3], some 0⟩

/-- A file of one record, which was read before the other record was written. -/
theorem writeVectorAndTruncate_afterRead :
    ¬HoldsVector [⟨[2], rfl⟩] 0 (read 1 1 ⟨vectorBytes [(⟨[1], rfl⟩ : Record 1)], some 0⟩).2 := by
  intro h
  have hread := h (by decide)
  revert hread
  decide

end Operations

end DataFile

end WwivBasic
