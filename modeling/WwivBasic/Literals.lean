import WwivBasic.Core.ToNumber
import WwivBasic.FunctionDef
import WwivBasic.VisitorRules

/-!
# The numbers that a program reads

A program reads the `INT`s of its expressions and of its `STEP`s with `to_number<int>`, and an
operator that expects a number hands a string to `std::stoi`. All of them share `errno`, which none
clears, so that what a number is worth can depend on the numbers and the strings before it.

## Main definitions

* `NumberRead.Fresh`: a literal has the value it has in a fresh program
* `readFlag`: reads, with `errno` as a sticky flag
* `SteadyReads`: no read after one that is out of range has a value of its own to give
* `Machine.ReadsOn`: the reads of a run, one after the other
* `StepsAdvance`: each `STEP` denotes a number that is more than 0, and is read as this number

## Main results

* `rules_numbers`: each read of a run is made with the `errno` that the reads before it leave
* `toNumbers_fresh_iff`: when the calls of `to_number`, and the reads of a program, do not interact
-/

namespace WwivBasic

open EStateM

/-! ## Reads -/

/-- The value of an `INT` in a fresh program. -/
def literalValue (text : Str) : Int32 := .ofInt (toNumberAs .int text false).1

namespace NumberRead

/-- The value of a literal; that of a string is used elsewhere. -/
def value : NumberRead → Int32
  | int _ value | step _ value => value
  | string _ => 0

/-- A literal has the value it has in a fresh program. -/
def Fresh : NumberRead → Prop
  | int text value | step text value => value = literalValue text
  | string _ => True

/-- The read gives 0 in a fresh program, or it is that of a string. -/
def Zero : NumberRead → Prop
  | int text _ | step text _ => OutOfRange (.int, text) ∨ numeral text = 0
  | string _ => True

end NumberRead

/-- A read of a literal, after one that is out of the range of `long`, is of a text that is out of
range too, or that denotes zero or nothing. -/
def SteadyReads (reads : List NumberRead) : Prop :=
  reads.Pairwise fun c d => c.overflows = true → d.Zero

/-- Reads, with `errno` as the flag. -/
def readFlag : StickyFlag NumberRead Int32 where
  raises := NumberRead.overflows
  value r := match r with
    | .int text _ | .step text _ => .ofInt (clamp intMin intMax (strtol text).value)
    | .string _ => 0
  masked := 0

theorem Machine.intOf_eq (s : Machine) (text : Str) : s.intOf text =
    if s.errno || (strtol text).erange then 0
    else .ofInt (clamp intMin intMax (strtol text).value) := by
  rw [intOf, toNumber]
  split_ifs <;> rfl

theorem literalValue_eq (text : Str) : literalValue text =
    if (strtol text).erange then 0 else .ofInt (clamp intMin intMax (strtol text).value) := by
  rw [literalValue, toNumberAs_eq, Bool.false_or]
  show Int32.ofInt (if (strtol text).erange then _ else _) = _
  split_ifs <;> rfl

theorem toNumberAs_int_mem (text : Str) :
    -2 ^ 31 ≤ (toNumberAs .int text false).1 ∧ (toNumberAs .int text false).1 < 2 ^ 31 := by
  rw [show toNumberAs .int text false = toNumber intMin intMax text false from rfl, toNumber]
  simp only [clamp, intMin, intMax]
  split_ifs <;> omega

/-- A literal is worth zero when its number is. -/
theorem literalValue_eq_zero_iff (text : Str) :
    literalValue text = 0 ↔ OutOfRange (.int, text) ∨ numeral text = 0 := by
  obtain ⟨hlo, hhi⟩ := toNumberAs_int_mem text
  rw [← toNumberAs_eq_zero_iff (.int, text), literalValue]
  constructor
  · intro h
    rw [← Int32.toInt_ofInt_of_le hlo hhi, h]
    rfl
  · intro h
    rw [h]
    rfl

theorem fresh_iff (r : NumberRead) : r.Fresh ↔ r.value = readFlag.fresh r := by
  cases r with
  | int text value | step text value =>
    rw [NumberRead.Fresh, literalValue_eq]
    rfl
  | string text =>
    simp [NumberRead.Fresh, NumberRead.value, StickyFlag.fresh, StickyFlag.step, readFlag]

theorem zero_iff (r : NumberRead) : readFlag.fresh r = readFlag.masked ↔ r.Zero := by
  cases r with
  | int text value | step text value =>
    rw [NumberRead.Zero, ← literalValue_eq_zero_iff, literalValue_eq]
    rfl
  | string text => simp [NumberRead.Zero, StickyFlag.fresh, StickyFlag.step, readFlag]

theorem steady_readFlag_iff (reads : List NumberRead) :
    readFlag.Steady reads ↔ SteadyReads reads :=
  List.Pairwise.iff fun _ d => imp_congr_right fun _ => zero_iff d

/-! ## The reads of a run -/

/-- The second state is reached by reads that share `errno`. -/
def Machine.ReadsOn (s t : Machine) : Prop :=
  ∃ reads, t.numbers = s.numbers ++ reads ∧
    t.errno = (s.errno || reads.any NumberRead.overflows) ∧
    reads.map NumberRead.value = readFlag.run s.errno reads

namespace Machine.ReadsOn

variable {s t u : Machine}

theorem refl : s.ReadsOn s := ⟨[], by simp, by simp, rfl⟩

theorem trans (h : s.ReadsOn t) (h' : t.ReadsOn u) : s.ReadsOn u := by
  obtain ⟨reads, hnumbers, herrno, hvalues⟩ := h
  obtain ⟨reads', hnumbers', herrno', hvalues'⟩ := h'
  refine ⟨reads ++ reads', by rw [hnumbers', hnumbers, List.append_assoc], ?_, ?_⟩
  · rw [herrno', herrno, List.any_append, Bool.or_assoc]
  · rw [List.map_append, hvalues, hvalues', herrno, StickyFlag.run_append]
    rfl

theorem readNumbers {reads : List NumberRead} (h : s.Reads reads) :
    s.ReadsOn (s.readNumbers reads) := by
  refine ⟨reads, rfl, rfl, ?_⟩
  cases h with
  | int text | step text =>
    simp only [List.map_cons, List.map_nil, NumberRead.value, s.intOf_eq]
    rfl
  | strings texts =>
    -- The result of a string is not recorded, whatever `errno` is.
    generalize s.errno = errno
    induction texts generalizing errno with
    | nil => rfl
    | cons text texts ih =>
      have hzero : (readFlag.step errno (.string text)).1 = 0 := by
        simp [StickyFlag.step, readFlag]
      rw [List.map_cons, List.map_cons, ih (readFlag.step errno (.string text)).2,
        StickyFlag.run, hzero]
      rfl

end Machine.ReadsOn

/-- The numbers of a run are read one after the other. -/
def Relations.numbers : Relations where
  expr := Machine.ReadsOn
  call := Machine.ReadsOn
  stmt s _ t := s.ReadsOn t
  loop s _ t := s.ReadsOn t
  stop := Machine.ReadsOn

/-- **Each number is read with the `errno` that the numbers before it leave.** -/
theorem rules_numbers : Rules .trivial .numbers where
  refl _ := .refl
  trans _ _ _ _ _ h h' := h.trans h'
  stop _ _ _ h := h
  trans_stop _ _ _ _ _ h h' := h.trans h'
  note s _ _ := Machine.ReadsOn.refl (s := s)
  read s _ := Machine.ReadsOn.refl (s := s)
  dropTag s := Machine.ReadsOn.refl (s := s)
  readNumbers _ _ h := .readNumbers h
  assign s _ _ := Machine.ReadsOn.refl (s := s)
  assign_stop s _ _ := Machine.ReadsOn.refl (s := s)
  call_refl _ := .refl
  call_clear _ _ _ h := h
  call_body _ _ _ _ _ _ _ _ h := h
  call_print _ _ _ _ _ _ _ _ h := h
  call_stop _ _ _ _ _ _ _ h := h
  native s _ _ _ _ converted _ := Machine.ReadsOn.readNumbers (s := s) (.strings converted)
  native_stop s _ _ _ _ converted := Machine.ReadsOn.readNumbers (s := s) (.strings converted)
  start _ _ _ _ h := h
  start_stop _ _ _ h := h
  simple _ _ _ h := h
  block _ _ _ _ _ _ h h' := h.trans h'
  next _ _ _ _ _ _ _ _ h h' := h.trans h'
  next_stop _ _ _ _ _ _ _ h h' := h.trans h'
  ret _ _ _ _ h := h
  loop_enter s _ _ _ _ := Machine.ReadsOn.refl (s := s)
  loop_set _ _ _ _ _ h := h
  loop_read _ _ _ texts _ h := h.trans (.readNumbers (.strings texts))
  loop_body _ _ _ _ _ _ _ h h' := h.trans h'
  loop_stop _ _ _ _ h := h
  loop_body_stop _ _ _ _ _ _ h h' := h.trans h'
  loop_exit _ _ _ _ h := h

/-- Each `STEP` that is read denotes a number that is more than 0, and no read before it is out of
the range of `long`. -/
def StepsAdvance (reads : List NumberRead) : Prop :=
  ∀ E text k E', reads = E ++ .step text k :: E' →
    0 < (literalValue text).toInt ∧ ∀ r ∈ E, r.overflows = false

/-- Such a `STEP` is read as what it denotes. -/
theorem Machine.ReadsOn.step_pos {s t : Machine} (h : s.ReadsOn t) (hnumbers : s.numbers = [])
    (herrno : s.errno = false) (hsteps : StepsAdvance t.numbers) {text : Str} {k : Int32}
    (hk : .step text k ∈ t.numbers) : 0 < k.toInt := by
  obtain ⟨reads, hreads, -, hvalues⟩ := h
  obtain ⟨E, E', hE⟩ := List.append_of_mem hk
  obtain ⟨hpos, hbefore⟩ := hsteps E text k E' hE
  rw [hnumbers, List.nil_append] at hreads
  rw [← hreads, herrno, hE, List.map_append] at hvalues
  have hread := StickyFlag.head_of_run hvalues (List.length_map _)
  -- The flag is down where the step is read.
  have hany : E.any readFlag.raises = false := by
    rw [List.any_eq_false]
    exact fun r hr => Bool.not_eq_true _ |>.mpr (hbefore r hr)
  rw [hany] at hread
  have hvalue : k = literalValue text := by
    rw [literalValue_eq]
    exact hread
  rwa [hvalue]

/-- The numbers that a program reads. -/
theorem readsOn_runProgram (n : ℕ) (ec : Context) (tags : ℕ → ValueType) (items : List Item) :
    (Machine.start ec tags).ReadsOn (runProgram n ec tags items).final := by
  apply wp_final (m := visitMain (visitor n) items)
  apply wp_visitItems rules_numbers
  · exact fun _ h => h
  · exact fun _ _ _ h h' => h.trans h'
  · exact fun _ _ h h' => h.trans h'
  · exact fun _ _ h => h
  · exact .refl

/-! ## Interaction -/

/-- **Calls of `to_number` do not interact** exactly when no call after one out of range has a
result of its own to give: it is itself out of range, or of a text that denotes zero or nothing.
So it is with the literals that a program reads in whatever run, after literals and after strings
that its operators convert. -/
theorem toNumbers_fresh_iff (calls : List (IntegerType × Str)) (n : ℕ) (ec : Context)
    (tags : ℕ → ValueType) (items : List Item) :
    (toNumbers false calls = calls.map (fun c => (toNumberAs c.1 c.2 false).1) ↔ Steady calls) ∧
      ((∀ r ∈ (runProgram n ec tags items).final.numbers, r.Fresh) ↔
        SteadyReads (runProgram n ec tags items).final.numbers) := by
  refine ⟨toNumbers_eq_map_iff calls, ?_⟩
  obtain ⟨reads, hnumbers, -, hvalues⟩ := readsOn_runProgram n ec tags items
  obtain rfl : (runProgram n ec tags items).final.numbers = reads := hnumbers
  have herrno : (Machine.start ec tags).errno = false := rfl
  rw [herrno] at hvalues
  rw [← steady_readFlag_iff, ← StickyFlag.run_eq_map_fresh_iff, ← hvalues, List.map_inj_left]
  exact forall₂_congr fun r _ => fresh_iff r

/-- A text that does not fit `long`, and then `5`. -/
def overflowThenFive : List (IntegerType × Str) :=
  [(.int, "99999999999999999999".toList), (.int, ['5'])]

/-- After the text that overflows, `5` is read as zero. -/
theorem toNumbers_overflowThenFive :
    toNumbers false overflowThenFive = [0, 0] ∧
      overflowThenFive.map (fun c => (toNumberAs c.1 c.2 false).1) = [0, 5] := by
  decide

/-- `a = 1 + '99999999999999999999'`, and then `b = 5`. -/
def stringThenFive : List Item :=
  [.statement (.assignExpr ['a']
      (.addSub .plus (.int ['1']) (.string "'99999999999999999999'".toList))),
    .statement (.assignExpr ['b'] (.int ['5']))]

-- The string sets `errno` as well, and the literal after it is read as zero.
example : (runProgram 9 Context.init (fun _ => .invalid) stringThenFive).final.numbers =
    [.int ['1'] 1, .string "99999999999999999999".toList, .int ['5'] 0] := by
  decide

end WwivBasic
