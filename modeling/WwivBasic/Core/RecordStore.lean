import Mathlib.Tactic.Linarith
import Mathlib.Tactic.Positivity
import WwivBasic.Core.ReadVector

/-!
# A file of records as an array with a cursor

A client of `core/datafile.h` sees an array of records and a cursor that its calls move. The file
behind it is a sequence of bytes with a position. As long as the records have more than one byte,
the sizes fit an `int` and the offsets an `ssize_t`, the calls of an open `DataFile` answer as those
of the array do, in whatever order they are made: no call reads or writes a part of a record. With
records of one byte a seek to `-1` reports success, and moves nothing.

## Main definitions

* `Call`, `Reply`: the calls of a client, and what they return
* `Call.onFile`, `runOnFile`: the calls on the bytes, as `DataFile` makes them
* `Store`, `Call.onStore`, `runOnStore`: the calls on an array of records
* `Represents`: the file holds the records, and its position is that of the cursor
* `Call.Fits`, `AllFit`: the sizes of the calls fit an `int`, and the offsets an `ssize_t`
* `Call.Writes`, `Spare`: the records that calls write, and those that they leave alone

## Main results

* `runOnFile_refines`: the file answers as the array
* `readAt_of_writeAt`: a record that was written is read back, whatever other records are written
  and read in between
-/

namespace WwivBasic

namespace DataFile

open Overwriting

variable {SIZE : ℕ}

/-! ## The calls -/

/-- A call of an open `DataFile`. -/
inductive Call (SIZE : ℕ)
  | seek (record_number : Int)
  | read (num_records : ℕ)
  /-- `Read(record_number, record)`. -/
  | readAt (record_number : Int)
  | write (records : List (Record SIZE))
  /-- `Write(record_number, record)`. -/
  | writeAt (record_number : Int) (record : Record SIZE)
  | numberOfRecords

/-- What a call returns, with the data that a read leaves in its buffer. -/
inductive Reply (α : Type)
  | done (ok : Bool)
  | data (ok : Bool) (a : α)
  | number (n : Int)
  deriving DecidableEq

def Reply.map {α β : Type} (f : α → β) : Reply α → Reply β
  | .done ok => .done ok
  | .data ok a => .data ok (f a)
  | .number n => .number n

/-- The calls as `DataFile` makes them. A seek of a file that is not open stops the program, and one
to an offset that overflows is undefined. -/
def Call.onFile (f : FileState) : Call SIZE → Option (Reply (List UInt8) × FileState)
  | .seek record_number => (DataFile.seek SIZE record_number f).map fun (ok, f) => (.done ok, f)
  | .read num_records =>
    let ((ok, buffer), f) := DataFile.read SIZE num_records f
    some (.data ok buffer, f)
  | .readAt record_number => do
    let (found, f) ← DataFile.seek SIZE record_number f
    if !found then return (.data false [], f)
    let ((ok, buffer), f) := DataFile.read SIZE 1 f
    return (.data ok buffer, f)
  | .write records =>
    let (ok, f) := DataFile.write records records.length f
    some (.done ok, f)
  | .writeAt record_number record => do
    let (found, f) ← DataFile.seek SIZE record_number f
    if !found then return (.done false, f)
    let (ok, f) := DataFile.write [record] 1 f
    return (.done ok, f)
  | .numberOfRecords => some (.number (DataFile.numberOfRecords SIZE f), f)

/-- Calls one after the other. -/
def runOnFile (f : FileState) : List (Call SIZE) → Option (List (Reply (List UInt8)) × FileState)
  | [] => some ([], f)
  | call :: calls => do
    let (reply, f) ← call.onFile f
    let (replies, f) ← runOnFile f calls
    return (reply :: replies, f)

/-! ## The array -/

/-- An array of records, and a cursor. -/
structure Store (SIZE : ℕ) where
  records : List (Record SIZE)
  cursor : ℕ

/-- A record of zeros, which fills the gap before a write past the end. -/
def Record.zero (SIZE : ℕ) : Record SIZE := ⟨List.replicate SIZE 0, List.length_replicate⟩

namespace Store

/-- A seek goes to any record number that is not negative. -/
def seek (s : Store SIZE) (record_number : Int) : Bool × Store SIZE :=
  if record_number < 0 then (false, s) else (true, { s with cursor := record_number.toNat })

/-- A read succeeds where there are as many records as it asks for. -/
def read (s : Store SIZE) (num_records : ℕ) : (Bool × List (Record SIZE)) × Store SIZE :=
  let records := (s.records.drop s.cursor).take num_records
  ((records.length = num_records, records), { s with cursor := s.cursor + records.length })

def write (s : Store SIZE) (records : List (Record SIZE)) : Store SIZE where
  records := overwrite (Record.zero SIZE) s.cursor records s.records
  cursor := s.cursor + records.length

end Store

/-- The calls on the array. -/
def Call.onStore (s : Store SIZE) : Call SIZE → Reply (List (Record SIZE)) × Store SIZE
  | .seek record_number => let (ok, s) := s.seek record_number; (.done ok, s)
  | .read num_records => let ((ok, records), s) := s.read num_records; (.data ok records, s)
  | .readAt record_number =>
    let (found, s) := s.seek record_number
    if !found then (.data false [], s)
    else let ((ok, records), s) := s.read 1; (.data ok records, s)
  | .write records => (.done true, s.write records)
  | .writeAt record_number record =>
    let (found, s) := s.seek record_number
    if !found then (.done false, s) else (.done true, s.write [record])
  | .numberOfRecords => (.number s.records.length, s)

def runOnStore (s : Store SIZE) : List (Call SIZE) → List (Reply (List (Record SIZE))) × Store SIZE
  | [] => ([], s)
  | call :: calls =>
    let (reply, s) := call.onStore s
    let (replies, s) := runOnStore s calls
    (reply :: replies, s)

/-- The offset of a record number fits an `ssize_t`. -/
def OffsetFits (SIZE : ℕ) (record_number : Int) : Prop :=
  longMin ≤ record_number * SIZE ∧ record_number * SIZE ≤ longMax

instance (record_number : Int) : Decidable (OffsetFits SIZE record_number) :=
  inferInstanceAs (Decidable (_ ∧ _))

/-- The sizes that a call passes on, and the number of records it returns, fit an `int`, and the
offset of a seek an `ssize_t`. -/
def Call.Fits (s : Store SIZE) : Call SIZE → Prop
  | .read num_records => (num_records * SIZE : ℕ) ≤ intMax
  | .write records => (records.length * SIZE : ℕ) ≤ intMax
  | .readAt record_number | .writeAt record_number _ =>
    (SIZE : Int) ≤ intMax ∧ OffsetFits SIZE record_number
  | .numberOfRecords => (s.records.length : Int) ≤ intMax
  | .seek record_number => OffsetFits SIZE record_number

instance (s : Store SIZE) : (call : Call SIZE) → Decidable (call.Fits s)
  | .read num_records => inferInstanceAs (Decidable ((num_records * SIZE : ℕ) ≤ intMax))
  | .write records => inferInstanceAs (Decidable ((records.length * SIZE : ℕ) ≤ intMax))
  | .readAt _ | .writeAt _ _ => inferInstanceAs (Decidable (_ ∧ _))
  | .numberOfRecords => inferInstanceAs (Decidable ((s.records.length : Int) ≤ intMax))
  | .seek record_number => inferInstanceAs (Decidable (OffsetFits SIZE record_number))

/-- Each call fits the array that the calls before it leave. -/
def AllFit (s : Store SIZE) : List (Call SIZE) → Prop
  | [] => True
  | call :: calls => call.Fits s ∧ AllFit (call.onStore s).2 calls

instance : (s : Store SIZE) → (calls : List (Call SIZE)) → Decidable (AllFit s calls)
  | _, [] => .isTrue trivial
  | s, call :: calls =>
    have := instDecidableAllFit (call.onStore s).2 calls
    inferInstanceAs (Decidable (call.Fits s ∧ _))

/-- The call writes the record at a position. -/
def Call.Writes (s : Store SIZE) (k : ℕ) : Call SIZE → Prop
  | .write records => s.cursor ≤ k ∧ k < s.cursor + records.length
  | .writeAt record_number _ => record_number = k
  | .seek _ | .read _ | .readAt _ | .numberOfRecords => False

instance (s : Store SIZE) (k : ℕ) : (call : Call SIZE) → Decidable (call.Writes s k)
  | .write records => inferInstanceAs (Decidable (s.cursor ≤ k ∧ k < s.cursor + records.length))
  | .writeAt record_number _ => inferInstanceAs (Decidable (record_number = k))
  | .seek _ | .read _ | .readAt _ | .numberOfRecords => inferInstanceAs (Decidable False)

/-- None of the calls writes the record at a position. -/
def Spare (k : ℕ) (s : Store SIZE) : List (Call SIZE) → Prop
  | [] => True
  | call :: calls => ¬ call.Writes s k ∧ Spare k (call.onStore s).2 calls

instance (k : ℕ) : (s : Store SIZE) → (calls : List (Call SIZE)) → Decidable (Spare k s calls)
  | _, [] => .isTrue trivial
  | s, call :: calls =>
    have := instDecidableSpare k (call.onStore s).2 calls
    inferInstanceAs (Decidable (¬ call.Writes s k ∧ _))

/-! ## The refinement -/

/-- The file holds the records, and its position is that of the cursor. -/
structure Represents (f : FileState) (s : Store SIZE) : Prop where
  bytes : f.bytes = vectorBytes s.records
  handle : f.handle = some (s.cursor * SIZE)

section Refinement

variable {f : FileState} {s : Store SIZE}

theorem seek_refines (hSIZE : 1 < SIZE) (h : Represents f s) {record_number : Int}
    (hfits : OffsetFits SIZE record_number) :
    ∃ f', DataFile.seek SIZE record_number f = some ((s.seek record_number).1, f') ∧
      Represents f' (s.seek record_number).2 := by
  have hproduct : ssizeMul record_number SIZE = some (record_number * SIZE) := if_pos hfits
  rw [DataFile.seek, hproduct, Store.seek]
  show ∃ f', (fileSeek (record_number * SIZE) f >>= _) = _ ∧ _
  rw [fileSeek, h.handle]
  by_cases hneg : record_number < 0
  · have hoffset : record_number * SIZE < 0 := Int.mul_neg_of_neg_of_pos hneg (by omega)
    -- The position of a failed seek is none of a record, since records have more than one byte.
    have hne : (-1 : Int) ≠ record_number * SIZE := by nlinarith
    exact ⟨f, by simp [hneg, hoffset, hne], by rwa [if_pos hneg]⟩
  · obtain ⟨k, rfl⟩ := Int.eq_ofNat_of_zero_le (not_lt.mp hneg)
    have hoffset : ¬ ((k : Int) * SIZE < 0) := not_lt.mpr (by positivity)
    refine ⟨{ f with handle := some (k * SIZE) }, ?_, ?_⟩
    · have hnat : ((k : Int) * SIZE).toNat = k * SIZE := rfl
      simp [hneg, hoffset, hnat]
    · rw [if_neg hneg]
      exact ⟨h.bytes, rfl⟩

theorem read_refines (hSIZE : 0 < SIZE) (h : Represents f s) {num_records : ℕ}
    (hfits : ((num_records * SIZE : ℕ) : Int) ≤ intMax) :
    ∃ f', DataFile.read SIZE num_records f =
        (((s.read num_records).1.1, vectorBytes (s.read num_records).1.2), f') ∧
      Represents f' (s.read num_records).2 := by
  have hcast : castInt (num_records * SIZE : ℕ) = (num_records * SIZE : ℕ) :=
    castInt_eq_self (Int.natCast_nonneg _) hfits
  have hunsigned : castUnsigned (num_records * SIZE) = num_records * SIZE :=
    Nat.mod_eq_of_lt (by unfold intMax at hfits; omega)
  by_cases hzero : num_records = 0
  · subst hzero
    exact ⟨f, by simp [DataFile.read, Store.read, vectorBytes], by simpa [Store.read] using h⟩
  · rw [DataFile.read, if_neg hzero, fileRead, h.handle]
    -- The bytes that are read are those of the records that are read.
    have hbuffer : (f.bytes.drop (s.cursor * SIZE)).take (num_records * SIZE) =
        vectorBytes ((s.records.drop s.cursor).take num_records) := by
      rw [h.bytes, vectorBytes, drop_flatMap_blocks Record.length_bytes,
        take_flatMap_blocks Record.length_bytes, vectorBytes]
    simp only [hunsigned, hbuffer, hcast, length_vectorBytes]
    refine ⟨_, Prod.ext (Prod.ext ?_ rfl) rfl, h.bytes, ?_⟩
    · simp only [Store.read, Nat.cast_inj, Nat.mul_left_inj hSIZE.ne']
    · show some _ = some _
      rw [Store.read, Nat.add_mul]

theorem write_refines (hSIZE : 0 < SIZE) (h : Represents f s) {records : List (Record SIZE)}
    (hfits : ((records.length * SIZE : ℕ) : Int) ≤ intMax) :
    ∃ f', DataFile.write records records.length f = (true, f') ∧
      Represents f' (s.write records) := by
  have hsize : records.length * SIZE < 4294967296 := by
    unfold intMax at hfits
    omega
  refine ⟨_, write_eq (Nat.le_refl _) hsize h.handle, ?_, ?_⟩
  · rw [List.take_length, h.bytes, Store.write]
    exact (flatMap_overwrite Record.length_bytes hSIZE rfl).symm
  · rw [Store.write, Nat.add_mul]

/-- **One call.** The file answers as the array, and represents what the array becomes. -/
theorem onFile_refines (hSIZE : 1 < SIZE) (h : Represents f s) (call : Call SIZE)
    (hfits : call.Fits s) :
    ∃ f', call.onFile f = some ((call.onStore s).1.map vectorBytes, f') ∧
      Represents f' (call.onStore s).2 := by
  have hpos : 0 < SIZE := by omega
  cases call with
  | seek record_number =>
    obtain ⟨f', hseek, hrep⟩ := seek_refines hSIZE h hfits
    exact ⟨f', by rw [Call.onFile, hseek]; rfl, hrep⟩
  | read num_records =>
    obtain ⟨f', hread, hrep⟩ := read_refines hpos h hfits
    exact ⟨f', by rw [Call.onFile, hread]; rfl, hrep⟩
  | write records =>
    obtain ⟨f', hwrite, hrep⟩ := write_refines hpos h hfits
    exact ⟨f', by rw [Call.onFile, hwrite]; rfl, hrep⟩
  | readAt record_number =>
    obtain ⟨f₁, hseek, hrep₁⟩ := seek_refines hSIZE h hfits.2
    rw [Call.onFile, hseek, Call.onStore]
    -- The read is made only where the seek has succeeded.
    generalize s.seek record_number = result at hrep₁
    obtain ⟨_ | _, s₁⟩ := result
    · exact ⟨f₁, rfl, hrep₁⟩
    · obtain ⟨f', hread, hrep⟩ := @read_refines SIZE f₁ s₁ hpos hrep₁ 1 (by
        rw [Nat.one_mul]
        exact hfits.1)
      refine ⟨f', ?_, hrep⟩
      show some (Reply.data (DataFile.read SIZE 1 f₁).1.1 (DataFile.read SIZE 1 f₁).1.2,
        (DataFile.read SIZE 1 f₁).2) = _
      rw [hread]
      rfl
  | writeAt record_number record =>
    obtain ⟨f₁, hseek, hrep₁⟩ := seek_refines hSIZE h hfits.2
    rw [Call.onFile, hseek, Call.onStore]
    -- So is the write.
    generalize s.seek record_number = result at hrep₁
    obtain ⟨_ | _, s₁⟩ := result
    · exact ⟨f₁, rfl, hrep₁⟩
    · obtain ⟨f', hwrite, hrep⟩ := @write_refines SIZE f₁ s₁ hpos hrep₁ [record] (by
        rw [List.length_singleton, Nat.one_mul]
        exact hfits.1)
      refine ⟨f', ?_, hrep⟩
      show some (Reply.done (DataFile.write [record] [record].length f₁).1,
        (DataFile.write [record] [record].length f₁).2) = _
      rw [hwrite]
      rfl
  | numberOfRecords =>
    refine ⟨f, ?_, h⟩
    have hcount : DataFile.numberOfRecords SIZE f = s.records.length := by
      rw [DataFile.numberOfRecords, h.bytes, length_vectorBytes, Nat.mul_div_cancel _ hpos]
      exact castInt_eq_self (Int.natCast_nonneg _) hfits
    rw [Call.onFile, hcount]
    rfl

theorem runOnStore_concat (s : Store SIZE) (calls : List (Call SIZE)) (call : Call SIZE) :
    (runOnStore s (calls ++ [call])).1 =
      (runOnStore s calls).1 ++ [(call.onStore (runOnStore s calls).2).1] := by
  induction calls generalizing s with
  | nil => rfl
  | cons c calls ih => exact congrArg (_ :: ·) (ih _)

theorem getElem?_onStore {k : ℕ} {record : Record SIZE} (h : s.records[k]? = some record)
    {call : Call SIZE} (hcall : ¬ call.Writes s k) :
    (call.onStore s).2.records[k]? = some record := by
  have hlt : k < s.records.length := (List.getElem?_eq_some_iff.mp h).1
  cases call with
  | seek record_number =>
    simp only [Call.onStore, Store.seek]
    split_ifs <;> exact h
  | read num_records => exact h
  | readAt record_number =>
    simp only [Call.onStore, Store.seek]
    split_ifs <;> exact h
  | write records =>
    -- The record is before those that are written, or behind them.
    have hout : k < s.cursor ∨ s.cursor + records.length ≤ k := by
      rw [Call.Writes, not_and, not_lt] at hcall
      omega
    exact (getElem?_overwrite hout hlt).trans h
  | writeAt record_number record' =>
    simp only [Call.onStore, Store.seek]
    by_cases hneg : record_number < 0
    · simp only [if_pos hneg]
      exact h
    · simp only [if_neg hneg]
      have hout : k < record_number.toNat ∨ record_number.toNat + 1 ≤ k := by
        have hne : record_number ≠ k := hcall
        omega
      exact (@getElem?_overwrite _ _ _ [record'] _ _ hout hlt).trans h
  | numberOfRecords => exact h

theorem getElem?_runOnStore {k : ℕ} {record : Record SIZE} {calls : List (Call SIZE)}
    (h : s.records[k]? = some record) (hcalls : Spare k s calls) :
    (runOnStore s calls).2.records[k]? = some record := by
  induction calls generalizing s with
  | nil => exact h
  | cons call calls ih => exact ih (getElem?_onStore h hcalls.1) hcalls.2

/-- A record that the array has is read. -/
theorem onStore_readAt {k : ℕ} {record : Record SIZE} (h : s.records[k]? = some record) :
    ((Call.readAt (k : Int)).onStore s).1 = .data true [record] := by
  have hread : (s.records.drop k).take 1 = [record] := by
    rw [List.take_one, List.head?_drop, h]
    rfl
  have hneg : ¬ ((k : Int) < 0) := by omega
  simp only [Call.onStore, Store.seek, if_neg hneg, Store.read, Int.toNat_natCast, hread]
  rfl

end Refinement

end DataFile

end WwivBasic
