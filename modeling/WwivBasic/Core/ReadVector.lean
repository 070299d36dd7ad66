import WwivBasic.Core.DataFile

/-!
# Reading a vector of records

`DataFile::ReadVector` reads over the records that the vector passed to it holds, and makes the
vector longer where there are too few of them. It never makes it shorter.

## Main definitions

* `fill`: bytes that are read over the records of a vector
* `numberOfRecords`, `readVector`: the operations of a `DataFile`
* `ReadsVector`: the vector read is the beginning of the file

## Main results

* `readVector_eq`: what the call leaves in the vector
* `readVector_iff`: when that is the beginning of the file
-/

namespace WwivBasic

namespace DataFile

open Overwriting

variable {SIZE : ℕ}

/-! ## The operations -/

/-- The first bytes of a buffer over those of a record. -/
def Record.readOver (buffer : List UInt8) (r : Record SIZE) : Record SIZE where
  bytes := buffer.take SIZE ++ r.bytes.drop (buffer.take SIZE).length
  length_bytes := by
    rw [List.length_append, List.length_drop, r.length_bytes, List.length_take]
    omega

/-- A buffer over the bytes of a vector, unless it reaches past its end. -/
def fill : List (Record SIZE) → List UInt8 → Option (List (Record SIZE))
  | [], buffer => if buffer = [] then some [] else none
  | r :: records, buffer => (fill records (buffer.drop SIZE)).map (r.readOver buffer :: ·)

/-- `DataFile::number_of_records`. -/
def numberOfRecords (SIZE : ℕ) (f : FileState) : Int := castInt (f.bytes.length / SIZE : ℕ)

/-- `DataFile::Read` into the records of a vector. A negative size is passed on modulo 2^32. -/
def readRecords (records : List (Record SIZE)) (num_records : Int) (f : FileState) :
    Option ((Bool × List (Record SIZE)) × FileState) :=
  if num_records = 0 then some ((true, records), f)
  else
    let ((ret, buffer), f) := fileRead (num_records * SIZE % 4294967296).toNat f
    (fill records buffer).map fun records => ((ret = castInt (num_records * SIZE), records), f)

/-- `DataFile::ReadVector`. It is not defined where it reads past the end of the vector. -/
def readVector (fresh : Record SIZE) (records : List (Record SIZE)) (max_records : ℕ)
    (f : FileState) : Option ((Bool × List (Record SIZE)) × FileState) :=
  let num_to_read := numberOfRecords SIZE f
  if num_to_read = 0 then some ((true, records), f)
  else
    let num_to_read :=
      if max_records ≠ 0 ∧ (max_records : Int) < num_to_read then (max_records : Int)
      else num_to_read
    let records :=
      if (records.length : Int) < num_to_read then resize fresh num_to_read.toNat records
      else records
    -- There is no `records[0]` in an empty vector.
    if records = [] then none else readRecords records num_to_read f

/-! ## What is asked of the file -/

/-- The number of records that is asked for, of a file that holds `k`. -/
def asked (k max_records : ℕ) : Int :=
  if max_records ≠ 0 ∧ (max_records : Int) < castInt k then (max_records : Int) else castInt k

/-- The size that is asked for, as an `unsigned int`. -/
def askedBytes (SIZE k max_records : ℕ) : ℕ := (asked k max_records * SIZE % 4294967296).toNat

/-- The vector, made long enough. -/
def padded (fresh : Record SIZE) (records : List (Record SIZE)) (k max_records : ℕ) :
    List (Record SIZE) :=
  if (records.length : Int) < asked k max_records then
    resize fresh (asked k max_records).toNat records
  else records

/-- A file that holds the records, just opened. -/
def opened (file : List (Record SIZE)) : FileState := ⟨vectorBytes file, some 0⟩

/-- Where the call returns `true`, the vector is the beginning of the file: the records the limit
allows. -/
def ReadsVector (fresh : Record SIZE) (records file : List (Record SIZE)) (max_records : ℕ) :
    Prop :=
  ∃ result, readVector fresh records max_records (opened file) = some result ∧
    (result.1.1 = true → result.1.2 = file.take (limited file max_records))

/-- The vector, made long enough, has room for the bytes that are asked for. Where the size is an
`int`, it has as many records as the limit allows, and after the bytes that are read it holds those
of the file already. -/
def Covered (fresh : Record SIZE) (records file : List (Record SIZE)) (max_records : ℕ) : Prop :=
  let vector := padded fresh records file.length max_records
  let a := askedBytes SIZE file.length max_records
  a ≤ vector.length * SIZE ∧ (a < 2147483648 → vector.length = limited file max_records ∧
    (vectorBytes vector).drop a = (vectorBytes (file.take (limited file max_records))).drop a)

variable {fresh : Record SIZE} {records file : List (Record SIZE)} {buffer : List UInt8}
  {max_records k : ℕ}

/-! ## Bytes over a vector -/

theorem vectorBytes_cons (r : Record SIZE) (records : List (Record SIZE)) :
    vectorBytes (r :: records) = r.bytes ++ vectorBytes records := List.flatMap_cons

/-- A vector is known by its bytes. -/
theorem vectorBytes_injective (hSIZE : 0 < SIZE) :
    Function.Injective (@vectorBytes SIZE) := by
  intro a
  induction a with
  | nil =>
    intro b h
    have hlen := congrArg List.length h
    rw [length_vectorBytes, length_vectorBytes, List.length_nil, Nat.zero_mul, eq_comm,
      Nat.mul_eq_zero] at hlen
    exact (List.length_eq_zero_iff.mp (hlen.resolve_right hSIZE.ne')).symm
  | cons r a ih =>
    intro b h
    rcases b with - | ⟨r', b⟩
    · have hlen := congrArg List.length h
      rw [length_vectorBytes, length_vectorBytes, List.length_nil, Nat.zero_mul,
        Nat.mul_eq_zero] at hlen
      exact absurd (hlen.resolve_right hSIZE.ne') (Nat.succ_ne_zero _)
    · rw [vectorBytes_cons, vectorBytes_cons] at h
      obtain ⟨hr, hrest⟩ := List.append_inj h (r.length_bytes.trans r'.length_bytes.symm)
      obtain ⟨bytes, hbytes⟩ := r
      obtain ⟨bytes', hbytes'⟩ := r'
      obtain rfl : bytes = bytes' := hr
      rw [ih hrest]

@[simp] theorem Record.bytes_readOver (buffer : List UInt8) (r : Record SIZE) :
    (r.readOver buffer).bytes = buffer.take SIZE ++ r.bytes.drop (min SIZE buffer.length) := by
  rw [← List.length_take]
  rfl

/-- Bytes that a vector has room for take the place of its first bytes. -/
theorem fill_eq_some (h : buffer.length ≤ records.length * SIZE) :
    ∃ records', fill records buffer = some records' ∧ records'.length = records.length ∧
      vectorBytes records' = buffer ++ (vectorBytes records).drop buffer.length := by
  induction records generalizing buffer with
  | nil =>
    rw [List.length_nil, Nat.zero_mul, Nat.le_zero, List.length_eq_zero_iff] at h
    subst h
    exact ⟨[], rfl, rfl, rfl⟩
  | cons r records ih =>
    rw [List.length_cons, Nat.succ_mul] at h
    have hdrop : (buffer.drop SIZE).length ≤ records.length * SIZE := by
      rw [List.length_drop]
      omega
    obtain ⟨records', hfill, hlen, hbytes⟩ := ih hdrop
    refine ⟨r.readOver buffer :: records', by rw [fill, hfill]; rfl, by simp [hlen], ?_⟩
    rw [vectorBytes_cons, vectorBytes_cons, hbytes, Record.bytes_readOver, List.drop_append,
      r.length_bytes, List.length_drop]
    rcases Nat.le_total buffer.length SIZE with hle | hle
    · rw [Nat.min_eq_right hle, List.take_of_length_le hle, List.drop_of_length_le hle,
        Nat.sub_eq_zero_of_le hle]
      simp
    · have hnil : r.bytes.drop SIZE = [] := List.drop_of_length_le r.length_bytes.le
      have hnil' : r.bytes.drop buffer.length = [] :=
        List.drop_of_length_le (r.length_bytes.le.trans hle)
      rw [Nat.min_eq_left hle, hnil, hnil', List.append_nil, List.nil_append, ← List.append_assoc,
        List.take_append_drop]

theorem fill_eq_none (h : records.length * SIZE < buffer.length) : fill records buffer = none := by
  induction records generalizing buffer with
  | nil =>
    have hne : buffer ≠ [] := by
      rintro rfl
      simp at h
    rw [fill, if_neg hne]
  | cons r records ih =>
    rw [List.length_cons, Nat.succ_mul] at h
    rw [fill, ih, Option.map_none]
    rw [List.length_drop]
    omega

/-! ## What is left in the vector -/

section Call

variable {num_records : Int} {a : ℕ}

theorem asked_eq_zero_iff : asked k max_records = 0 ↔ castInt k = 0 := by
  rw [asked]
  split_ifs
  all_goals omega

/-- The file holds as many bytes as are asked for. -/
theorem askedBytes_le (SIZE k max_records : ℕ) : askedBytes SIZE k max_records ≤ k * SIZE := by
  have hmod : castInt k * SIZE % 4294967296 = ((k * SIZE : ℕ) : Int) % 4294967296 := by
    have hcast : castInt k % 4294967296 = (k : Int) % 4294967296 := Int.bmod_emod
    rw [Int.mul_emod, hcast, ← Int.mul_emod, Int.natCast_mul]
  rw [askedBytes, asked]
  split_ifs with h
  · have hle : (max_records : Int) ≤ k := by
      have hcast := castInt_eq_ite k
      split_ifs at hcast
      all_goals omega
    have hmul : max_records * SIZE ≤ k * SIZE := Nat.mul_le_mul_right SIZE (by omega)
    omega
  · rw [hmod]
    omega

/-- The first bytes of a file that holds as many. -/
theorem fileRead_opened (hfile : a ≤ file.length * SIZE) (hint : a < 4294967296) :
    fileRead a (opened file) =
      (((a : Int), (vectorBytes file).take a), ⟨vectorBytes file, some a⟩) := by
  have hcast : castUnsigned a = a := by
    rw [castUnsigned]
    omega
  have hlen : ((vectorBytes file).take a).length = a := by
    rw [List.length_take, length_vectorBytes, Nat.min_eq_left hfile]
  simp only [fileRead, opened, hcast, List.drop_zero, hlen, Nat.zero_add]

/-- The bytes that are asked for, which the file and the vector have room for. -/
theorem readRecords_eq_some (hnum : num_records ≠ 0)
    (ha : (num_records * SIZE % 4294967296).toNat = a) (hfile : a ≤ file.length * SIZE)
    (hroom : a ≤ records.length * SIZE) :
    ∃ records' f', readRecords records num_records (opened file) =
        some ((decide (a < 2147483648), records'), f') ∧
      records'.length = records.length ∧
      vectorBytes records' = (vectorBytes file).take a ++ (vectorBytes records).drop a := by
  have hlen : ((vectorBytes file).take a).length = a := by
    rw [List.length_take, length_vectorBytes, Nat.min_eq_left hfile]
  have hret : ((a : Int) = castInt (num_records * SIZE)) ↔ a < 2147483648 := by
    rw [castInt_eq_ite]
    omega
  obtain ⟨records', hfill, hlen', hbytes⟩ :=
    @fill_eq_some SIZE records ((vectorBytes file).take a) (hlen.le.trans hroom)
  rw [hlen] at hbytes
  refine ⟨records', ⟨vectorBytes file, some a⟩, ?_, hlen', hbytes⟩
  rw [readRecords, if_neg hnum, ha, fileRead_opened hfile (by omega)]
  simp only [hfill, Option.map_some, hret]

/-- A vector that has no room for them. -/
theorem readRecords_eq_none (hnum : num_records ≠ 0)
    (ha : (num_records * SIZE % 4294967296).toNat = a) (hfile : a ≤ file.length * SIZE)
    (hroom : records.length * SIZE < a) :
    readRecords records num_records (opened file) = none := by
  have hlen : ((vectorBytes file).take a).length = a := by
    rw [List.length_take, length_vectorBytes, Nat.min_eq_left hfile]
  have hfill := @fill_eq_none SIZE records ((vectorBytes file).take a) (hroom.trans_eq hlen.symm)
  rw [readRecords, if_neg hnum, ha, fileRead_opened hfile (by omega)]
  simp only [hfill, Option.map_none]

theorem readVector_opened (hSIZE : 0 < SIZE) :
    readVector fresh records max_records (opened file) =
      if castInt file.length = 0 then some ((true, records), opened file)
      else if padded fresh records file.length max_records = [] then none
      else readRecords (padded fresh records file.length max_records)
        (asked file.length max_records) (opened file) := by
  have hnumber : numberOfRecords SIZE (opened file) = castInt file.length := by
    rw [numberOfRecords, opened, length_vectorBytes, Nat.mul_div_cancel _ hSIZE]
  rw [readVector, hnumber]
  rfl

theorem padded_of_asked_eq_zero (h : asked k max_records = 0) :
    padded fresh records k max_records = records := by
  have hlen : ¬(records.length : Int) < asked k max_records := by omega
  rw [padded, if_neg hlen]

/-- What the call returns and leaves, where the vector has room for the bytes. -/
theorem readVector_eq_some (hSIZE : 0 < SIZE)
    (hroom : askedBytes SIZE file.length max_records ≤
      (padded fresh records file.length max_records).length * SIZE)
    (hne : castInt file.length ≠ 0 → padded fresh records file.length max_records ≠ []) :
    ∃ records' f', readVector fresh records max_records (opened file) =
        some ((decide (askedBytes SIZE file.length max_records < 2147483648), records'), f') ∧
      records'.length = (padded fresh records file.length max_records).length ∧
      vectorBytes records' = (vectorBytes file).take (askedBytes SIZE file.length max_records) ++
        (vectorBytes (padded fresh records file.length max_records)).drop
          (askedBytes SIZE file.length max_records) := by
  rw [readVector_opened hSIZE]
  by_cases hzero : castInt file.length = 0
  · have hasked : asked file.length max_records = 0 := asked_eq_zero_iff.mpr hzero
    have ha : askedBytes SIZE file.length max_records = 0 := by
      rw [askedBytes, hasked, Int.zero_mul]
      rfl
    rw [if_pos hzero, ha, padded_of_asked_eq_zero hasked]
    exact ⟨records, opened file, rfl, rfl, by simp⟩
  · rw [if_neg hzero, if_neg (hne hzero)]
    exact readRecords_eq_some (mt asked_eq_zero_iff.mp hzero) rfl
      (askedBytes_le SIZE file.length max_records) hroom

/-- The call is not defined where the vector has no room for the bytes. -/
theorem readVector_eq_none (hSIZE : 0 < SIZE)
    (h : (padded fresh records file.length max_records).length * SIZE <
        askedBytes SIZE file.length max_records ∨
      castInt file.length ≠ 0 ∧ padded fresh records file.length max_records = []) :
    readVector fresh records max_records (opened file) = none := by
  have hzero : castInt file.length ≠ 0 := by
    rcases h with h | h
    · intro hzero
      have hasked : asked file.length max_records = 0 := asked_eq_zero_iff.mpr hzero
      rw [askedBytes, hasked, Int.zero_mul] at h
      exact Nat.not_lt_zero _ h
    · exact h.1
  rw [readVector_opened hSIZE, if_neg hzero]
  split_ifs with hnil
  · rfl
  · exact readRecords_eq_none (mt asked_eq_zero_iff.mp hzero) rfl
      (askedBytes_le SIZE file.length max_records) (h.resolve_right fun h => hnil h.2)

theorem length_take_limited (file : List (Record SIZE)) (max_records : ℕ) :
    (file.take (limited file max_records)).length = limited file max_records := by
  rw [List.length_take, Nat.min_eq_left (limited_le file max_records)]

theorem limited_pos (hzero : castInt file.length ≠ 0) : 0 < limited file max_records := by
  have hpos : 0 < file.length := by
    apply Nat.pos_of_ne_zero
    intro h
    rw [h] at hzero
    exact hzero rfl
  rw [limited]
  split_ifs
  · exact hpos
  · omega

/-- The records that the limit allows begin with the bytes that are read. -/
theorem vectorBytes_take_limited (ha : a ≤ limited file max_records * SIZE) :
    vectorBytes (file.take (limited file max_records)) =
      (vectorBytes file).take a ++ (vectorBytes (file.take (limited file max_records))).drop a := by
  have htake := take_vectorBytes file (limited_le file max_records)
  have hmin : (vectorBytes (file.take (limited file max_records))).take a =
      (vectorBytes file).take a := by
    rw [← htake, List.take_take, Nat.min_eq_left ha]
  rw [← hmin, List.take_append_drop]

theorem readsVector_iff_covered (hSIZE : 0 < SIZE) :
    ReadsVector fresh records file max_records ↔ Covered fresh records file max_records := by
  constructor
  · rintro ⟨result, hread, hresult⟩
    have hdefined : ¬((padded fresh records file.length max_records).length * SIZE <
        askedBytes SIZE file.length max_records ∨
        castInt file.length ≠ 0 ∧ padded fresh records file.length max_records = []) := by
      intro h
      rw [readVector_eq_none hSIZE h] at hread
      exact Option.some_ne_none result hread.symm
    push Not at hdefined
    obtain ⟨hroom, hne⟩ := hdefined
    obtain ⟨records', f', hsome, hlen, hbytes⟩ := readVector_eq_some hSIZE hroom hne
    obtain rfl := Option.some.inj (hsome.symm.trans hread)
    refine ⟨hroom, fun hint => ?_⟩
    obtain rfl := hresult (decide_eq_true hint)
    rw [length_take_limited] at hlen
    refine ⟨hlen.symm, ?_⟩
    rw [vectorBytes_take_limited (hroom.trans_eq (congrArg (· * SIZE) hlen.symm))] at hbytes
    exact (List.append_cancel_left hbytes).symm
  · rintro ⟨hroom, hcovered⟩
    have hne : castInt file.length ≠ 0 →
        padded fresh records file.length max_records ≠ [] := by
      intro hzero hnil
      by_cases hint : askedBytes SIZE file.length max_records < 2147483648
      · have hlen := (hcovered hint).1
        rw [hnil] at hlen
        exact (limited_pos hzero).ne hlen
      · rw [hnil, List.length_nil, Nat.zero_mul] at hroom
        omega
    obtain ⟨records', f', hsome, hlen, hbytes⟩ := readVector_eq_some hSIZE hroom hne
    refine ⟨_, hsome, fun hint => ?_⟩
    obtain ⟨hlimited, hdrop⟩ := hcovered (of_decide_eq_true hint)
    apply vectorBytes_injective hSIZE
    rw [hbytes, hdrop]
    exact (vectorBytes_take_limited
      (hroom.trans_eq (congrArg (· * SIZE) hlimited))).symm

/-- Where the sizes are `int`s, the records that the limit allows are asked for. -/
theorem asked_eq_limited (hk : file.length < 2147483648) :
    asked file.length max_records = limited file max_records := by
  have hcast : castInt file.length = file.length :=
    castInt_eq_self (Int.natCast_nonneg _) (by rw [intMax]; omega)
  rw [asked, hcast, limited]
  split_ifs
  all_goals omega

theorem askedBytes_eq_limited (hk : file.length < 2147483648)
    (hsize : limited file max_records * SIZE < 2147483648) :
    askedBytes SIZE file.length max_records = limited file max_records * SIZE := by
  rw [askedBytes, asked_eq_limited hk, ← Int.natCast_mul]
  omega

theorem length_padded (hk : file.length < 2147483648) :
    (padded fresh records file.length max_records).length =
      max records.length (limited file max_records) := by
  rw [padded, asked_eq_limited hk]
  split_ifs with h
  · rw [length_resize, Int.toNat_natCast]
    omega
  · omega

/-- The vector must then not be longer than what the limit allows. -/
theorem covered_iff_length_le (hk : file.length < 2147483648)
    (hsize : limited file max_records * SIZE < 2147483648) :
    Covered fresh records file max_records ↔ records.length ≤ limited file max_records := by
  rw [Covered]
  simp only [askedBytes_eq_limited hk hsize, length_padded hk]
  constructor
  · rintro ⟨-, h⟩
    have hmax := (h hsize).1
    omega
  · intro hle
    have hmax := Nat.max_eq_right hle
    refine ⟨Nat.mul_le_mul_right SIZE (Nat.le_max_right _ _), fun _ => ⟨hmax, ?_⟩⟩
    rw [List.drop_of_length_le, List.drop_of_length_le]
    · rw [length_vectorBytes, length_take_limited]
    · rw [length_vectorBytes, length_padded hk, hmax]

end Call

/-- The vector read is the beginning of the file exactly when it is covered: where the sizes are
`int`s, when the vector passed is no longer than that. -/
theorem readVector_iff (hSIZE : 0 < SIZE) (fresh : Record SIZE) (records file : List (Record SIZE))
    (max_records : ℕ) :
    (ReadsVector fresh records file max_records ↔ Covered fresh records file max_records) ∧
      (file.length < 2147483648 → limited file max_records * SIZE < 2147483648 →
        (ReadsVector fresh records file max_records ↔
          records.length ≤ limited file max_records)) :=
  ⟨readsVector_iff_covered hSIZE, fun hk hsize =>
    (readsVector_iff_covered hSIZE).trans (covered_iff_length_le hk hsize)⟩

theorem readVector_iff_oneByte :
    ReadsVector (⟨[0], rfl⟩ : Record 1) [] [⟨[1], rfl⟩, ⟨[2], rfl⟩] 1 ↔
      ([] : List (Record 1)).length ≤ limited ([⟨[1], rfl⟩, ⟨[2], rfl⟩] : List (Record 1)) 1 :=
  (readVector_iff Nat.one_pos (⟨[0], rfl⟩ : Record 1) [] [⟨[1], rfl⟩, ⟨[2], rfl⟩] 1).2
    (by decide) (by decide)

/-- A file of one record, read over a vector of two. -/
theorem readVector_over_longer :
    ¬ReadsVector (⟨[0], rfl⟩ : Record 1) [⟨[2], rfl⟩, ⟨[3], rfl⟩] [⟨[1], rfl⟩] 0 := by
  rw [readsVector_iff_covered Nat.one_pos, covered_iff_length_le (by decide) (by decide)]
  decide

/-- What `WriteVector` writes to a new file, `ReadVector` reads back into an empty vector. -/
theorem readVector_of_writeVector (hSIZE : 0 < SIZE) (fresh : Record SIZE)
    (hk : records.length < 2147483648) (hsize : records.length * SIZE < 2147483648) :
    ∃ f', readVector fresh [] 0 ⟨(writeVector records 0 ⟨[], some 0⟩).2.bytes, some 0⟩ =
      some ((true, records), f') := by
  have hwritten : (writeVector records 0 ⟨[], some 0⟩).2.bytes = vectorBytes records := by
    by_cases hne : records = []
    · rw [hne]
      rfl
    · rw [writeVector_eq hne, limited, if_pos rfl, write_eq le_rfl (by omega) rfl,
        List.take_length, overwrite]
      simp
  have hlimited : limited records 0 = records.length := if_pos rfl
  have ha : askedBytes SIZE records.length 0 = records.length * SIZE := by
    rw [askedBytes_eq_limited hk (by rwa [hlimited]), hlimited]
  have hlen : (padded fresh [] records.length 0).length = records.length := by
    rw [length_padded hk, hlimited, List.length_nil, Nat.zero_max]
  have hroom : askedBytes SIZE records.length 0 ≤
      (padded fresh [] records.length 0).length * SIZE := by rw [ha, hlen]
  have hne : castInt records.length ≠ 0 → padded fresh [] records.length 0 ≠ [] := by
    intro hzero hnil
    have hpos := @limited_pos SIZE records 0 hzero
    rw [hlimited, ← hlen, hnil] at hpos
    exact Nat.lt_irrefl 0 hpos
  obtain ⟨records', f', hread, -, hbytes⟩ := readVector_eq_some hSIZE hroom hne
  have hall : vectorBytes records' = vectorBytes records := by
    rw [hbytes, ha, List.take_of_length_le (length_vectorBytes records).le,
      List.drop_of_length_le (by rw [length_vectorBytes, hlen]), List.append_nil]
  obtain rfl := vectorBytes_injective hSIZE hall
  rw [hwritten]
  refine ⟨f', hread.trans ?_⟩
  rw [ha, decide_eq_true hsize]

end DataFile

end WwivBasic
