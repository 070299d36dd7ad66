import WwivBasic.Core.ToNumber

/-!
# Time spans

`parse_time_span` of `core/datetime.cpp` tests that a text begins with a digit, and takes its last
character for the quantum. What is before that goes to `to_number`, which reads the digits the text
begins with and passes over what follows them.

## Main definitions

* `parseTimeSpan`: the operation
* `IsTimeSpan`: a positive number and a quantum

## Main results

* `parseTimeSpan_iff`: when a text is read as the time span that it is, or not at all
-/

namespace WwivBasic

/-- A product of `int`s, which is not defined where it overflows. -/
def mulInt (m n : Int) : Option Int :=
  if m * n < intMin ∨ intMax < m * n then none else some (m * n)

/-- `parse_time_span`: the seconds of the duration, and `errno` after the call. -/
def parseTimeSpan (s : Str) (errno : Bool) : Option (Option Int × Bool) :=
  if s.length < 2 then some (none, errno)
  else if !s.head?.any Char.isDigit then some (none, errno)
  else
    let (num, errno) := toNumber intMin intMax s.dropLast errno
    if num = 0 then some (none, errno)
    else
      match s.getLast?.map Char.toLower with
      | some 's' => some (some num, errno)
      | some 'm' => some (some (num * 60), errno)
      | some 'h' => some (some (num * 3600), errno)
      -- Days are multiplied out as an `int`.
      | some 'd' => (mulInt num 24).map fun hours => (some (hours * 3600), errno)
      | _ => some (none, errno)

/-! ## What is a time span -/

/-- The seconds of a quantum. -/
def quantum (q : Char) : Option ℕ :=
  match q.toLower with
  | 's' => some 1
  | 'm' => some 60
  | 'h' => some 3600
  | 'd' => some 86400
  | _ => none

/-- Decimal digits that denote a positive `int`, and a quantum of so many seconds. -/
def IsTimeSpan (s : Str) (n seconds : ℕ) : Prop :=
  ∃ digits q, s = digits ++ [q] ∧ digits ≠ [] ∧ (∀ c ∈ digits, c.isDigit = true) ∧
    digitsValue 0 digits = n ∧ 0 < n ∧ (n : Int) ≤ intMax ∧ quantum q = some seconds

/-- From a clear `errno` the call is defined, and returns the value of a time span and no other. -/
def ReadsTimeSpan (s : Str) : Prop :=
  ∃ result errno, parseTimeSpan s false = some (result, errno) ∧
    ∀ d, result = some d ↔ ∃ n seconds, IsTimeSpan s n seconds ∧ d = (n : Int) * seconds

variable {s body : Str} {q : Char} {n seconds : ℕ} {errno : Bool}

/-! ## The front of a text -/

theorem leadingDigits_append (hq : q.isDigit = false) (body : Str) :
    leadingDigits (body ++ [q]) = leadingDigits body := by
  rw [leadingDigits, leadingDigits, List.takeWhile_append]
  split_ifs with h
  · rw [List.takeWhile_cons_of_neg (by simp [hq]), List.append_nil,
      (List.takeWhile_prefix _).eq_of_length h]
  · rfl

/-- A number that is read is that of the digits, unless it is out of range. -/
theorem toNumber_of_head (h : body.head?.any Char.isDigit = true) :
    (toNumber intMin intMax body false).1 =
      if longMax < (leadingDigits body : Int) then 0
      else if intMax < (leadingDigits body : Int) then intMax else leadingDigits body := by
  rw [toNumber_eq, leadingNumber_eq h]
  simp only [Bool.false_eq_true, false_or, InLongRange, clamp, longMin, longMax, intMin, intMax]
  split_ifs
  all_goals omega

theorem not_isDigit_of_quantum (h : quantum q = some seconds) : q.isDigit = false := by
  by_contra hq
  rw [Bool.not_eq_false] at hq
  have hdigit : '0'.val ≤ q.val ∧ q.val ≤ '9'.val := by simpa [Char.isDigit] using hq
  have hlower : q.toLower = q :=
    (toLower_eq_iff (UInt32.lt_of_le_of_lt hdigit.2 (by decide))).mpr rfl
  unfold quantum at h
  rw [hlower] at h
  split at h
  · exact absurd hq (by decide)
  · exact absurd hq (by decide)
  · exact absurd hq (by decide)
  · exact absurd hq (by decide)
  · cases h

theorem parseTimeSpan_append (h : body.head?.any Char.isDigit = true) (q : Char) (errno : Bool) :
    parseTimeSpan (body ++ [q]) errno =
      let r := toNumber intMin intMax body errno
      if r.1 = 0 then some (none, r.2)
      else match quantum q with
        | none => some (none, r.2)
        | some seconds =>
          if seconds = 86400 then (mulInt r.1 24).map fun hours => (some (hours * 3600), r.2)
          else some (some (r.1 * seconds), r.2) := by
  have hbody : body ≠ [] := by
    rintro rfl
    simp at h
  have hpos := List.length_pos_of_ne_nil hbody
  have hhead : (body ++ [q]).head?.any Char.isDigit = true := by
    rw [List.head?_append_of_ne_nil _ hbody, h]
  rw [parseTimeSpan, if_neg (by rw [List.length_append, List.length_singleton]; omega), hhead,
    List.dropLast_concat, List.getLast?_concat, Option.map_some]
  rw [if_neg (by decide)]
  dsimp only
  congr 1
  split
  · rename_i heq
    simp [quantum, Option.some.inj heq]
  · rename_i heq
    simp [quantum, Option.some.inj heq]
  · rename_i heq
    simp [quantum, Option.some.inj heq]
  · rename_i heq
    simp [quantum, Option.some.inj heq]
  · rename_i hs hm hh hd
    have hnone : quantum q = none := by
      unfold quantum
      split
      · exact absurd (congrArg some ‹_›) hs
      · exact absurd (congrArg some ‹_›) hm
      · exact absurd (congrArg some ‹_›) hh
      · exact absurd (congrArg some ‹_›) hd
      · rfl
    rw [hnone]

/-! ## Time spans -/

/-- Of a text that is a time span. -/
theorem isTimeSpan_append_iff : IsTimeSpan (body ++ [q]) n seconds ↔
    (∀ c ∈ body, c.isDigit = true) ∧ leadingDigits body = n ∧ 0 < n ∧ (n : Int) ≤ intMax ∧
      quantum q = some seconds := by
  constructor
  · rintro ⟨digits, q', heq, -, hdigits, hvalue, hpos, hint, hq⟩
    obtain ⟨rfl, hq'⟩ := List.append_inj' heq rfl
    obtain rfl := (List.cons.inj hq').1
    refine ⟨hdigits, ?_, hpos, hint, hq⟩
    rw [leadingDigits, List.takeWhile_eq_self_iff.mpr hdigits, hvalue]
  · rintro ⟨hdigits, hvalue, hpos, hint, hq⟩
    rw [leadingDigits, List.takeWhile_eq_self_iff.mpr hdigits] at hvalue
    refine ⟨body, q, rfl, ?_, hdigits, hvalue, hpos, hint, hq⟩
    rintro rfl
    exact absurd hvalue hpos.ne

/-- What is not read must be no time span. -/
theorem readsTimeSpan_of_none (hparse : parseTimeSpan s false = some (none, errno))
    (hno : ∀ n seconds, ¬IsTimeSpan s n seconds) : ReadsTimeSpan s := by
  refine ⟨none, errno, hparse, fun d => ⟨fun hd => (nomatch hd), ?_⟩⟩
  rintro ⟨n, seconds, hspan, -⟩
  exact absurd hspan (hno n seconds)

/-- A text with another front or another end is not read, and is no time span. -/
theorem readsTimeSpan_of_not (h : leadingDigits body = 0 ∨ quantum q = none) :
    ReadsTimeSpan (body ++ [q]) := by
  have hno : ∀ n seconds, ¬IsTimeSpan (body ++ [q]) n seconds := by
    intro n seconds hspan
    obtain ⟨-, hvalue, hpos, -, hq⟩ := isTimeSpan_append_iff.mp hspan
    rcases h with h | h
    · omega
    · rw [h] at hq
      cases hq
  have hnone : ∃ errno, parseTimeSpan (body ++ [q]) false = some (none, errno) := by
    by_cases hhead : body.head?.any Char.isDigit = true
    · rw [parseTimeSpan_append hhead]
      dsimp only
      split_ifs with hzero
      · exact ⟨_, rfl⟩
      · rcases h with h | h
        · rw [toNumber_of_head hhead, h] at hzero
          exact absurd rfl hzero
        · rw [h]
          exact ⟨_, rfl⟩
    · refine ⟨false, ?_⟩
      rw [parseTimeSpan]
      split_ifs with hlen hfront
      · rfl
      · rfl
      · rcases body with - | ⟨c, body⟩
        · exact absurd (Nat.lt_succ_self 1) hlen
        · exact absurd (by simpa using hfront) hhead
  obtain ⟨errno, hparse⟩ := hnone
  exact readsTimeSpan_of_none hparse hno

theorem mulInt_of_nonneg {m k : Int} (hm : 0 ≤ m * k) :
    mulInt m k = if intMax < m * k then none else some (m * k) := by
  have hlow : ¬m * k < intMin := by
    rw [intMin]
    omega
  rw [mulInt]
  simp only [hlow, false_or]

theorem head_of_leadingDigits (h : leadingDigits body ≠ 0) :
    body.head?.any Char.isDigit = true := by
  by_contra hhead
  apply h
  rcases body with - | ⟨c, body⟩
  · rfl
  · rw [leadingDigits, List.takeWhile_cons_of_neg (by simpa using hhead)]
    rfl

/-- A number beyond `long` is read as 0, and is no `int` either. -/
theorem readsTimeSpan_of_long (h : longMax < (leadingDigits body : Int)) (q : Char) :
    ReadsTimeSpan (body ++ [q]) := by
  have hhead : body.head?.any Char.isDigit = true := by
    apply head_of_leadingDigits
    intro hzero
    rw [hzero] at h
    exact absurd h (by decide)
  have hparse := parseTimeSpan_append hhead q false
  dsimp only at hparse
  rw [if_pos (by rw [toNumber_of_head hhead, if_pos h])] at hparse
  apply readsTimeSpan_of_none hparse
  intro n seconds hspan
  obtain ⟨-, rfl, -, hint, -⟩ := isTimeSpan_append_iff.mp hspan
  exact absurd h (not_lt.mpr (hint.trans (by decide)))

/-- What is read from a positive number and a quantum: with days the product has to be an `int`. -/
theorem parseTimeSpan_of_pos {num : Int} (hq : quantum q = some seconds)
    (hzero : leadingDigits body ≠ 0) (hlong : ¬longMax < (leadingDigits body : Int))
    (hnum : num = if intMax < (leadingDigits body : Int) then intMax else leadingDigits body) :
    ∃ errno, parseTimeSpan (body ++ [q]) false =
      if seconds = 86400 ∧ intMax < num * 24 then none
      else some (some (num * seconds), errno) := by
  have hhead := head_of_leadingDigits hzero
  have hread := toNumber_of_head hhead
  rw [if_neg hlong, ← hnum] at hread
  have hpos : 0 < num := by
    rw [hnum]
    split_ifs
    · decide
    · omega
  refine ⟨(toNumber intMin intMax body false).2, ?_⟩
  rw [parseTimeSpan_append hhead]
  dsimp only
  rw [hread, hq]
  dsimp only
  rw [if_neg hpos.ne', mulInt_of_nonneg (by omega)]
  by_cases hday : seconds = 86400
  · rw [if_pos hday]
    by_cases hover : intMax < num * 24
    · rw [if_pos hover, if_pos ⟨hday, hover⟩]
      rfl
    · rw [if_neg hover, if_neg fun h => hover h.2, hday, Option.map_some, mul_assoc]
      rfl
  · rw [if_neg hday, if_neg fun h => hday h.1]

/-- A text with a quantum. -/
theorem readsTimeSpan_append_iff (hq : quantum q = some seconds) :
    ReadsTimeSpan (body ++ [q]) ↔ leadingDigits body = 0 ∨ longMax < (leadingDigits body : Int) ∨
      (∀ c ∈ body, c.isDigit = true) ∧ (leadingDigits body : Int) ≤ intMax ∧
        (seconds = 86400 → (leadingDigits body : Int) * 24 ≤ intMax) := by
  by_cases hzero : leadingDigits body = 0
  · exact iff_of_true (readsTimeSpan_of_not (.inl hzero)) (.inl hzero)
  by_cases hlong : longMax < (leadingDigits body : Int)
  · exact iff_of_true (readsTimeSpan_of_long hlong q) (.inr (.inl hlong))
  have hparse := parseTimeSpan_of_pos hq hzero hlong rfl
  generalize hnum : (if intMax < (leadingDigits body : Int) then intMax else _) = num at hparse
  obtain ⟨errno, hparse⟩ := hparse
  constructor
  · rintro ⟨result, errno', hresult, hspan⟩
    rw [hparse] at hresult
    split_ifs at hresult with hover
    obtain ⟨rfl, -⟩ := Prod.mk.inj (Option.some.inj hresult)
    obtain ⟨n, seconds', hn, -⟩ := (hspan _).mp rfl
    obtain ⟨hdigits, rfl, -, hint, -⟩ := isTimeSpan_append_iff.mp hn
    rw [if_neg (not_lt.mpr hint)] at hnum
    subst hnum
    exact .inr (.inr ⟨hdigits, hint, fun hday => not_lt.mp fun hlt => hover ⟨hday, hlt⟩⟩)
  · rintro (h | h | ⟨hdigits, hint, hday⟩)
    · exact absurd h hzero
    · exact absurd h hlong
    · rw [if_neg (not_lt.mpr hint)] at hnum
      subst hnum
      rw [if_neg fun h => not_lt.mpr (hday h.1) h.2] at hparse
      refine ⟨_, errno, hparse, fun d => ?_⟩
      rw [Option.some.injEq]
      constructor
      · rintro rfl
        exact ⟨_, seconds, isTimeSpan_append_iff.mpr
          ⟨hdigits, rfl, Nat.pos_of_ne_zero hzero, hint, hq⟩, rfl⟩
      · rintro ⟨n, seconds', hspan, rfl⟩
        obtain ⟨-, rfl, -, -, hq'⟩ := isTimeSpan_append_iff.mp hspan
        rw [Option.some.inj (hq.symm.trans hq')]

/-- A text is read as the time span it is, or not at all, exactly when it has no quantum at its end,
begins with no positive number in the range of `long`, or is a positive `int` and its quantum; and
with days their hours must be an `int` too. -/
theorem parseTimeSpan_iff (s : Str) : ReadsTimeSpan s ↔
    ∀ q ∈ s.getLast?, ∀ seconds, quantum q = some seconds →
      leadingDigits s = 0 ∨ longMax < (leadingDigits s : Int) ∨
        (∀ c ∈ s.dropLast, c.isDigit = true) ∧ (leadingDigits s : Int) ≤ intMax ∧
          (seconds = 86400 → (leadingDigits s : Int) * 24 ≤ intMax) := by
  rcases List.eq_nil_or_concat s with rfl | ⟨body, q, rfl⟩
  · refine iff_of_true (@readsTimeSpan_of_none [] false rfl ?_) fun q hq => (nomatch hq)
    rintro n seconds ⟨digits, q, heq, -⟩
    exact absurd heq.symm (List.append_ne_nil_of_right_ne_nil _ (List.cons_ne_nil q []))
  · rw [List.concat_eq_append, List.getLast?_concat, List.dropLast_concat]
    cases hq : quantum q with
    | none =>
      refine iff_of_true (readsTimeSpan_of_not (.inr hq)) ?_
      rintro q' ⟨⟩ seconds hq'
      rw [hq] at hq'
      cases hq'
    | some seconds =>
      rw [readsTimeSpan_append_iff hq, leadingDigits_append (not_isDigit_of_quantum hq)]
      constructor
      · rintro h q' ⟨⟩ seconds' hq'
        obtain rfl := Option.some.inj (hq.symm.trans hq')
        exact h
      · intro h
        exact h q rfl seconds hq

/-- What is between the number and the quantum is passed over. -/
theorem parseTimeSpan_between : ¬ReadsTimeSpan ['1', 'x', 's'] := by
  intro h
  have hq : quantum 's' = some 1 := by decide
  rcases (@readsTimeSpan_append_iff ['1', 'x'] 's' 1 hq).mp h with h | h | ⟨h, -⟩
  · revert h
    decide
  · revert h
    decide
  · revert h
    decide

end WwivBasic
