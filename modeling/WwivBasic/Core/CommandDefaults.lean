import WwivBasic.Core.CommandTree
import WwivBasic.Core.ToNumber

/-!
# Where the values of arguments come from

An argument that is not on the command line has a default: what an INI file has, or the value of an
environment variable, or what the program declares. `SetNewStringDefault` and its siblings take the
defaults from INI files, one argument after the other.

## Main definitions

* `CommandLineCommand.setNewStringDefault` and its siblings: defaults from an INI file
* `SettingCall`, `runSettings`: calls of these, one after the other
* `Setting`, `CommandLineCommand.read`: the value of an argument, by its kind
* `lastFound`: what the last INI file has that has anything

## Main results

* `read_runSettings`: the values after the calls
* `CommandLine.read_precedence`: the command line first, then the INI files, then the declaration
-/

namespace WwivBasic

/-! ## The operations -/

/-- `long`. -/
def IntegerType.long : IntegerType := ⟨true, 63, by decide⟩

namespace IniFile

/-- `StringToBoolean`. -/
def stringToBoolean : Str → Bool
  | [] => false
  | ch :: _ => ch.toUpper = 'Y' || ch.toUpper = 'T' || ch.toUpper = '1'

/-- `GetBooleanValue`. -/
def getBooleanValue (ini : IniFile) (key : Str) (default_value : Bool) : Bool :=
  match ini.getValue key with
  | some s => stringToBoolean s
  | none => default_value

/-- `GetNumericValueT`, with the `errno` before and after it. -/
def getNumericValueT (ini : IniFile) (key : Str) (default_value : Int) (errno : Bool) :
    Int × Bool :=
  match ini.getValue key with
  | some s => toNumberAs .long s errno
  | none => (default_value, errno)

end IniFile

/-- `std::to_string`, of an integer. -/
def intText (i : Int) : Str :=
  if i < 0 then '-' :: Nat.toDigits 10 i.natAbs else Nat.toDigits 10 i.natAbs

namespace CommandLineCommand

/-- `contains_arg`. -/
def containsArg (name : Str) (c : CommandLineCommand) : Bool := c.args_.contains name

/-- `barg`. -/
def barg (name : Str) (c : CommandLineCommand) : Bool := (c.arg name).value_ = "true".toList

/-- A new default, where the argument has one. The `errno` before and after it is kept. -/
def setNewDefaultWith (key : Str) (value : CommandLineCommand → Bool → Str × Bool)
    (p : CommandLineCommand × Bool) : CommandLineCommand × Bool :=
  if p.1.containsArg key && (p.1.arg key).default_ then
    (p.1.setNewDefault key (value p.1 p.2).1, (value p.1 p.2).2)
  else p

/-- `SetNewStringDefault`. -/
def setNewStringDefault (ini : IniFile) (key : Str) :
    CommandLineCommand × Bool → CommandLineCommand × Bool :=
  setNewDefaultWith key fun c errno => (ini.getStringValue key (c.sarg key), errno)

/-- `SetNewBooleanDefault`. -/
def setNewBooleanDefault (ini : IniFile) (key : Str) :
    CommandLineCommand × Bool → CommandLineCommand × Bool :=
  setNewDefaultWith key fun c errno =>
    (if ini.getBooleanValue key (c.barg key) then ['Y'] else ['N'], errno)

/-- `SetNewIntDefault`. The present default is read with `std::stoi`, that may leave an `errno`. -/
def setNewIntDefault (ini : IniFile) (key : Str) :
    CommandLineCommand × Bool → CommandLineCommand × Bool :=
  setNewDefaultWith key fun c errno =>
    (ini.getNumericValueT key (c.iarg key) (errno || (strtol (c.sarg key)).erange)).map
      (fun v => intText (castInt v)) id

end CommandLineCommand

/-! ## Calls, and what they find -/

/-- The kind of an argument. -/
inductive SettingKind
  | string
  | boolean
  | int
  deriving DecidableEq

/-- A value, by the kind of the argument. -/
inductive Setting
  | string (s : Str)
  | boolean (b : Bool)
  | int (i : Int)
  deriving DecidableEq

/-- What a text in an INI file stands for. -/
def SettingKind.ofText : SettingKind → Str → Setting
  | .string, s => .string s
  | .boolean, s => .boolean (IniFile.stringToBoolean s)
  | .int, s => .int (castInt (toNumberAs .long s false).1)

/-- A call of `SetNewStringDefault` or of a sibling. -/
structure SettingCall where
  kind : SettingKind
  ini : IniFile
  key : Str

namespace SettingCall

/-- The call. -/
def run (call : SettingCall) : CommandLineCommand × Bool → CommandLineCommand × Bool :=
  match call.kind with
  | .string => CommandLineCommand.setNewStringDefault call.ini call.key
  | .boolean => CommandLineCommand.setNewBooleanDefault call.ini call.key
  | .int => CommandLineCommand.setNewIntDefault call.ini call.key

/-- What the INI file of the call has. -/
def found (call : SettingCall) : Option Setting :=
  (call.ini.getValue call.key).map call.kind.ofText

end SettingCall

/-- Calls one after the other. -/
def runSettings (calls : List SettingCall) (p : CommandLineCommand × Bool) :
    CommandLineCommand × Bool :=
  calls.foldl (fun p call => call.run p) p

/-- What the last INI file has that has anything for the argument. -/
def lastFound (calls : List SettingCall) (a : Str) : Option Setting :=
  calls.reverse.findSome? fun call => if call.key = a then call.found else none

/-- The value of an argument, by its kind. -/
def CommandLineCommand.read (K : SettingKind) (a : Str) (c : CommandLineCommand) : Setting :=
  match K with
  | .string => .string (c.sarg a)
  | .boolean => .boolean (c.barg a)
  | .int => .int (c.iarg a)

variable {a key : Str} {K : SettingKind} {call : SettingCall} {calls : List SettingCall}
  {c c' : CommandLineCommand} {p : CommandLineCommand × Bool} {arg : CommandLineArgument}

/-! ## Numbers as texts -/

theorem asInt_mem (v : CommandLineValue) : intMin ≤ v.asInt ∧ v.asInt ≤ intMax := by
  unfold CommandLineValue.asInt
  dsimp only
  split_ifs with h
  · simp only [Bool.and_eq_true, decide_eq_true_eq] at h
    exact ⟨h.1.2, h.2⟩
  · exact ⟨by decide, by decide⟩

theorem castInt_mem (i : Int) : intMin ≤ castInt i ∧ castInt i ≤ intMax := by
  rw [castInt_eq_ite, intMin, intMax]
  split_ifs <;> omega

/-- The text of a number is read as the number. -/
theorem strtol_intText {i : Int} (hmin : longMin ≤ i) (hmax : i ≤ longMax) :
    strtol (intText i) = ⟨i, true, false⟩ := by
  by_cases hneg : i < 0
  · have htext := strtol_text ⟨true, Nat.toDigits 10 i.natAbs, Nat.toDigits_ne_nil,
      fun c hc => Nat.isDigit_of_mem_toDigits (by decide) (by decide) hc⟩
    have hvalue : -((Nat.ofDigitChars 10 (Nat.toDigits 10 i.natAbs) 0 : ℕ) : Int) = i := by
      rw [Nat.ofDigitChars_ten_toDigits]
      omega
    simp only [IntegerText.text, IntegerText.value, if_true, hvalue] at htext
    -- A number of the type `long` is read as it is.
    have hclamp : clamp longMin longMax i = i := by
      rw [clamp, if_neg (not_lt.mpr hmax), if_neg (not_lt.mpr hmin)]
    rw [intText, if_pos hneg, htext, hclamp, decide_eq_false (not_lt.mpr hmin),
      decide_eq_false (not_lt.mpr hmax)]
    rfl
  · have habs : (i.natAbs : Int) = i := Int.natAbs_of_nonneg (not_lt.mp hneg)
    rw [intText, if_neg hneg, strtol_toDigits (habs.symm ▸ hmax), habs]

theorem asInt_intText {i : Int} (hmin : intMin ≤ i) (hmax : i ≤ intMax) (b : Bool) :
    CommandLineValue.asInt ⟨intText i, b⟩ = i := by
  have hread : strtol (intText i) = ⟨i, true, false⟩ :=
    strtol_intText (le_trans (by decide) hmin) (le_trans hmax (by decide))
  rw [CommandLineValue.asInt, hread]
  simp [hmin, hmax]

/-! ## One call -/

section Step

/-- A call changes nothing, or sets one default. -/
theorem run_cases (call : SettingCall) (p : CommandLineCommand × Bool) :
    ∃ value, call.run p = CommandLineCommand.setNewDefaultWith call.key value p := by
  unfold SettingCall.run
  cases call.kind with
  | string => exact ⟨_, rfl⟩
  | boolean => exact ⟨_, rfl⟩
  | int => exact ⟨_, rfl⟩

theorem args_allowed_run (call : SettingCall) (p : CommandLineCommand × Bool) :
    (call.run p).1.args_allowed_ = p.1.args_allowed_ := by
  obtain ⟨value, hrun⟩ := run_cases call p
  rw [hrun, CommandLineCommand.setNewDefaultWith]
  split_ifs
  · exact (CommandLineCommand.sameButArgs_set call.key _ true p.1).args_allowed_
  · rfl

/-- Another argument keeps its value, and so does one that was given. -/
theorem find?_run (h : call.key ≠ a ∨ (p.1.arg a).default_ = false) :
    (call.run p).1.args_.find? a = p.1.args_.find? a := by
  obtain ⟨value, hrun⟩ := run_cases call p
  rw [hrun, CommandLineCommand.setNewDefaultWith]
  split_ifs with hset
  · rw [CommandLineCommand.setNewDefault, CommandLineCommand.find?_setCommandLineArgument]
    -- Another key is not touched, and a value that was given is not replaced.
    rcases h with hne | hgiven
    · rw [if_neg (Ne.symm hne)]
    · rw [if_neg]
      rintro rfl
      rw [hgiven, Bool.and_false] at hset
      exact absurd hset Bool.false_ne_true
  · rfl

theorem snd_getNumericValueT {ini : IniFile} {default_value : Int} {errno : Bool}
    (h : (ini.getNumericValueT key default_value errno).2 = false) : errno = false := by
  unfold IniFile.getNumericValueT at h
  cases hvalue : ini.getValue key with
  | none =>
    rw [hvalue] at h
    exact h
  | some s =>
    rw [hvalue] at h
    dsimp only at h
    rw [toNumberAs_eq] at h
    exact (Bool.or_eq_false_iff.mp h).1

theorem snd_setNewDefaultWith {value : CommandLineCommand → Bool → Str × Bool}
    (hvalue : ∀ c errno, (value c errno).2 = false → errno = false)
    (h : (CommandLineCommand.setNewDefaultWith key value p).2 = false) : p.2 = false := by
  rw [CommandLineCommand.setNewDefaultWith] at h
  split_ifs at h
  · exact hvalue _ _ h
  · exact h

/-- The flag of `errno` is never taken back. -/
theorem quiet_of_run (h : (call.run p).2 = false) : p.2 = false := by
  unfold SettingCall.run at h
  cases hkind : call.kind with
  | string =>
    rw [hkind] at h
    exact snd_setNewDefaultWith (fun _ _ herrno => herrno) h
  | boolean =>
    rw [hkind] at h
    exact snd_setNewDefaultWith (fun _ _ herrno => herrno) h
  | int =>
    rw [hkind] at h
    apply snd_setNewDefaultWith ?_ h
    intro c errno herrno
    exact (Bool.or_eq_false_iff.mp (snd_getNumericValueT herrno)).1

section Own

variable (hallowed : c.args_allowed_.find? key = some arg)

include hallowed

theorem arg_setNewDefault (value : Str) : (c.setNewDefault key value).arg key =
    ⟨if arg.is_boolean then CommandLineCommand.booleanValue value else value, true⟩ := by
  rw [CommandLineCommand.arg, CommandLineCommand.setNewDefault,
    CommandLineCommand.find?_setCommandLineArgument, if_pos rfl, hallowed]
  rfl

theorem read_string (hkind : arg.is_boolean = false) (value : Str) :
    (c.setNewDefault key value).read .string key = .string value := by
  rw [CommandLineCommand.read, CommandLineCommand.sarg, arg_setNewDefault hallowed, hkind]
  rfl

theorem read_boolean (hkind : arg.is_boolean = true) (b : Bool) :
    (c.setNewDefault key (if b then ['Y'] else ['N'])).read .boolean key = .boolean b := by
  have hread : ∀ b : Bool, decide (CommandLineCommand.booleanValue (if b then ['Y'] else ['N']) =
      "true".toList) = b := by decide
  rw [CommandLineCommand.read, CommandLineCommand.barg, arg_setNewDefault hallowed, hkind,
    if_pos rfl, hread]

theorem read_int (hkind : arg.is_boolean = false) (i : Int) :
    (c.setNewDefault key (intText (castInt i))).read .int key = .int (castInt i) := by
  rw [CommandLineCommand.read, CommandLineCommand.iarg, arg_setNewDefault hallowed, hkind,
    if_neg Bool.false_ne_true, asInt_intText (castInt_mem i).1 (castInt_mem i).2]

variable (hcontains : c.containsArg key = true) (hdefault : (c.arg key).default_ = true)

include hcontains hdefault

/-- The argument is set, and its value is a default still. -/
theorem default_run (hkey : call.key = key) (errno : Bool) :
    (call.run (c, errno)).1.containsArg key = true ∧
      ((call.run (c, errno)).1.arg key).default_ = true := by
  obtain ⟨value, hrun⟩ := run_cases call (c, errno)
  have hset : (c.containsArg key && (c.arg key).default_) = true := by
    rw [hcontains, hdefault]
    rfl
  rw [hrun, hkey, CommandLineCommand.setNewDefaultWith, if_pos hset]
  dsimp only
  constructor
  · rw [CommandLineCommand.containsArg, OrderedMap.contains, CommandLineCommand.setNewDefault,
      CommandLineCommand.find?_setCommandLineArgument, if_pos rfl, hallowed]
    rfl
  · rw [arg_setNewDefault hallowed]

/-- The value is what the INI file has, or stays. -/
theorem read_run (ini : IniFile) (hkind : arg.is_boolean = decide (K = .boolean))
    (hquiet : (SettingCall.run ⟨K, ini, key⟩ (c, false)).2 = false) :
    (SettingCall.run ⟨K, ini, key⟩ (c, false)).1.read K key =
      (SettingCall.found ⟨K, ini, key⟩).getD (c.read K key) := by
  have hset : (c.containsArg key && (c.arg key).default_) = true := by
    rw [hcontains, hdefault]
    rfl
  have hrun (value) : CommandLineCommand.setNewDefaultWith key value (c, false) =
      (c.setNewDefault key (value c false).1, (value c false).2) := by
    rw [CommandLineCommand.setNewDefaultWith, if_pos hset]
  dsimp only [SettingCall.run, SettingCall.found] at hquiet ⊢
  cases K with
  | string =>
    dsimp only
    rw [CommandLineCommand.setNewStringDefault, hrun, read_string hallowed hkind,
      IniFile.getStringValue]
    cases ini.getValue key with
    | none => rfl
    | some s => rfl
  | boolean =>
    dsimp only
    rw [CommandLineCommand.setNewBooleanDefault, hrun, read_boolean hallowed hkind,
      IniFile.getBooleanValue]
    cases ini.getValue key with
    | none => rfl
    | some s => rfl
  | int =>
    dsimp only at hquiet ⊢
    rw [CommandLineCommand.setNewIntDefault, hrun] at hquiet ⊢
    dsimp only [Prod.map] at hquiet ⊢
    rw [read_int hallowed hkind]
    -- The text of the present default has left no `errno`.
    have herrno := (Bool.or_eq_false_iff.mp (snd_getNumericValueT hquiet)).2
    rw [herrno, IniFile.getNumericValueT]
    cases ini.getValue key with
    | none => exact congrArg Setting.int (castInt_eq_self_of_le (asInt_mem _).1 (asInt_mem _).2)
    | some s => rfl

end Own

end Step

/-! ## All calls -/

theorem runSettings_append (calls : List SettingCall) (call : SettingCall)
    (p : CommandLineCommand × Bool) :
    runSettings (calls ++ [call]) p = call.run (runSettings calls p) := by
  rw [runSettings, List.foldl_append]
  rfl

theorem lastFound_append (calls : List SettingCall) (call : SettingCall) (a : Str) :
    lastFound (calls ++ [call]) a =
      (if call.key = a then call.found else none).or (lastFound calls a) := by
  rw [lastFound, List.reverse_append, List.reverse_singleton, List.singleton_append,
    List.findSome?_cons]
  cases (if call.key = a then call.found else none) with
  | none => rfl
  | some v => rfl

theorem read_congr (h : c'.args_.find? a = c.args_.find? a) (K : SettingKind) :
    c'.read K a = c.read K a := by
  have harg : c'.arg a = c.arg a := by rw [CommandLineCommand.arg, h, CommandLineCommand.arg]
  cases K with
  | string => exact congrArg (fun v : CommandLineValue => Setting.string v.value_) harg
  | boolean =>
    exact congrArg (fun v : CommandLineValue => Setting.boolean (v.value_ = "true".toList)) harg
  | int => exact congrArg (fun v : CommandLineValue => Setting.int v.asInt) harg

/-- An argument that is allowed, and whose value is a default. -/
structure AtDefault (a : Str) (arg : CommandLineArgument) (c : CommandLineCommand) : Prop where
  allowed : c.args_allowed_.find? a = some arg
  contains : c.containsArg a = true
  default_ : (c.arg a).default_ = true

theorem AtDefault.run (h : AtDefault a arg c) (call : SettingCall) (errno : Bool) :
    AtDefault a arg (call.run (c, errno)).1 := by
  have hallowed : (call.run (c, errno)).1.args_allowed_.find? a = some arg := by
    rw [args_allowed_run]
    exact h.allowed
  by_cases hkey : call.key = a
  · obtain ⟨hcontains, hdefault⟩ := default_run h.allowed h.contains h.default_ hkey errno
    exact ⟨hallowed, hcontains, hdefault⟩
  · have hfind := find?_run (p := (c, errno)) (.inl hkey)
    refine ⟨hallowed, ?_, ?_⟩
    · rw [CommandLineCommand.containsArg, OrderedMap.contains, hfind]
      exact h.contains
    · rw [CommandLineCommand.arg, hfind]
      exact h.default_

theorem AtDefault.runSettings (h : AtDefault a arg c) (calls : List SettingCall) (errno : Bool) :
    AtDefault a arg (runSettings calls (c, errno)).1 := by
  induction calls using List.reverseRecOn with
  | nil => exact h
  | append_singleton calls call ih =>
    rw [runSettings_append]
    exact ih.run call _

/-- What was given stays. -/
theorem find?_runSettings (h : (c.arg a).default_ = false) (calls : List SettingCall)
    (errno : Bool) : (runSettings calls (c, errno)).1.args_.find? a = c.args_.find? a := by
  induction calls using List.reverseRecOn with
  | nil => rfl
  | append_singleton calls call ih =>
    rw [runSettings_append, find?_run, ih]
    right
    rw [CommandLineCommand.arg, ih]
    exact h

/-- **The values after the calls.** An argument that was given keeps its value, and another has what
the last INI file has that has anything, as long as no number is out of range. -/
theorem read_runSettings (h : AtDefault a arg c) (hkind : arg.is_boolean = decide (K = .boolean))
    (hcalls : ∀ call ∈ calls, call.key = a → call.kind = K)
    (hquiet : (runSettings calls (c, false)).2 = false) :
    (runSettings calls (c, false)).1.read K a = (lastFound calls a).getD (c.read K a) := by
  -- From the last call, since it is the one that counts.
  induction calls using List.reverseRecOn with
  | nil => rfl
  | append_singleton calls call ih =>
    rw [runSettings_append] at hquiet ⊢
    have hbefore := quiet_of_run hquiet
    have hread := ih (fun call hmem => hcalls call (List.mem_append_left _ hmem)) hbefore
    have hopen := h.runSettings calls false
    generalize runSettings calls (c, false) = p at hquiet hbefore hread hopen ⊢
    obtain ⟨d, errno⟩ := p
    obtain rfl : errno = false := hbefore
    rw [lastFound_append]
    by_cases hkey : call.key = a
    · obtain ⟨kind, ini, key⟩ := call
      obtain rfl : key = a := hkey
      obtain rfl : kind = K := hcalls _ (List.mem_append_right _ List.mem_cons_self) rfl
      rw [read_run hopen.allowed hopen.contains hopen.default_ ini hkind hquiet, if_pos rfl, hread]
      cases SettingCall.found ⟨kind, ini, key⟩ with
      | none => rfl
      | some v => rfl
    · rw [read_congr (find?_run (p := (d, false)) (.inl hkey)), if_neg hkey, hread]
      rfl

/-! ## The command line -/

/-- The arguments that have values are those that are allowed. -/
def Declared (c : CommandLineCommand) : Prop :=
  ∀ a, (c.args_.find? a).isSome = (c.args_allowed_.find? a).isSome

/-- A value is given, or stays. -/
structure Gives (c c' : CommandLineCommand) : Prop where
  args_allowed_ : c'.args_allowed_ = c.args_allowed_
  find? : ∀ a, c'.args_.find? a = c.args_.find? a ∨
    (c.args_allowed_.find? a).isSome ∧ ∃ v, c'.args_.find? a = some v ∧ v.default_ = false

theorem Gives.refl (c : CommandLineCommand) : Gives c c := ⟨rfl, fun _ => .inl rfl⟩

theorem Gives.trans {d : CommandLineCommand} (h : Gives c c') (h' : Gives c' d) : Gives c d := by
  refine ⟨h'.args_allowed_.trans h.args_allowed_, fun a => ?_⟩
  rcases h'.find? a with hsame | ⟨hallowed, hgiven⟩
  · rw [hsame]
    exact h.find? a
  · rw [h.args_allowed_] at hallowed
    exact .inr ⟨hallowed, hgiven⟩

theorem Gives.declared (h : Gives c c') (hdeclared : Declared c) : Declared c' := by
  intro a
  rw [h.args_allowed_, ← hdeclared a]
  rcases h.find? a with hsame | ⟨hallowed, v, hgiven, -⟩
  · rw [hsame]
  · rw [hgiven, hdeclared a, hallowed]
    rfl

section Parse

variable (hdeclared : Declared c)

include hdeclared

theorem gives_set (key value : Str) : Gives c (c.handleCommandLineArgument key value) := by
  refine ⟨(CommandLineCommand.sameButArgs_set key value false c).args_allowed_, fun a => ?_⟩
  rw [CommandLineCommand.handleCommandLineArgument, CommandLineCommand.find?_setCommandLineArgument]
  by_cases ha : a = key
  · subst ha
    rw [if_pos rfl]
    have hiff := hdeclared a
    cases hallowed : c.args_allowed_.find? a with
    | none =>
      -- The dot argument may be one that is not allowed, and has no value then.
      rw [hallowed, Option.isSome_none, Option.isSome_eq_false_iff,
        Option.isNone_iff_eq_none] at hiff
      exact .inl hiff.symm
    | some arg => exact .inr ⟨rfl, _, rfl, rfl⟩
  · rw [if_neg ha]
    exact .inl rfl

theorem gives_parseOption {s : Str} {r : Except Str Unit × CommandLineCommand}
    (h : c.parseOption s = some r) : Gives c r.2 := by
  unfold CommandLineCommand.parseOption at h
  split at h
  · obtain rfl := Option.some.inj h
    rw [CommandLineCommand.parseLong]
    split_ifs
    · exact gives_set hdeclared _ _
    · exact .refl c
    · exact .refl c
  · obtain rfl := Option.some.inj h
    rename_i s _
    cases s with
    | nil => exact .refl c
    | cons x value =>
      rw [CommandLineCommand.parseShort]
      split_ifs
      · exact gives_set hdeclared _ _
      · exact .refl c
      · exact .refl c
  · obtain rfl := Option.some.inj h
    rw [CommandLineCommand.parseDot]
    split_ifs
    · exact gives_set hdeclared _ _
    · exact .refl c
  · cases h

/-- `Parse` gives values to arguments, and takes none away. -/
theorem gives_parse {n i : ℕ} {r : Except Str ℕ × CommandLineCommand}
    (h : c.parse n i = some r) : Gives c r.2 := by
  induction n generalizing i c r with
  | zero => cases h
  | succ n ih =>
    rw [CommandLineCommand.parse] at h
    cases hget : c.raw_args_[i]? with
    | none =>
      rw [hget] at h
      obtain rfl := Option.some.inj h
      exact .refl c
    | some s =>
      rw [hget] at h
      dsimp only at h
      -- The arguments that remain are values of nothing.
      have hadd (k : ℕ) : Gives c (c.addRemaining k) := ⟨rfl, fun _ => .inl rfl⟩
      split_ifs at h
      · exact ih hdeclared h
      · exact (hadd _).trans (ih ((hadd _).declared hdeclared) h)
      cases hparse : c.parseOption s with
      | some p =>
        have hgives := gives_parseOption hdeclared hparse
        obtain ⟨result, c₁⟩ := p
        rw [hparse] at h
        cases result with
        | error what =>
          obtain rfl := Option.some.inj h
          exact hgives
        | ok u => exact hgives.trans (ih (hgives.declared hdeclared) h)
      | none =>
        rw [hparse] at h
        cases hfind : c.commands_allowed_.find? (·.1 = s) with
        | none =>
          rw [hfind] at h
          exact (hadd _).trans (ih ((hadd _).declared hdeclared) h)
        | some q =>
          obtain ⟨name, command⟩ := q
          rw [hfind] at h
          dsimp only at h
          -- The values of the command stay, whatever the sub-command does.
          have hselect (d) : Gives c (c.select s d) := ⟨rfl, fun _ => .inl rfl⟩
          rcases hsub : command.parse n (i + 1) with - | ⟨what | j, d⟩ <;> rw [hsub] at h
          · cases h
          · obtain rfl := Option.some.inj h
            exact hselect d
          · exact (hselect d).trans (ih ((hselect d).declared hdeclared) h)

end Parse

namespace CommandLine

theorem Built.declared {env : Str → Str} {c : CommandLine} (h : Built env c) :
    Declared c.toCommandLineCommand := by
  induction h with
  | new program args dot_argument => exact fun _ => rfl
  | addArgument cmd h ih =>
    intro a
    dsimp only [CommandLineCommand.addArgument]
    rw [CommandLineCommand.find?_emplace, CommandLineCommand.find?_emplace]
    split_ifs
    · rfl
    · exact ih a
  | @setNewDefault key value c h ih =>
    intro a
    dsimp only [CommandLineCommand.setNewDefault]
    rw [CommandLineCommand.find?_setCommandLineArgument,
      (CommandLineCommand.sameButArgs_set key value true _).args_allowed_]
    split_ifs with ha
    · rw [ha, Option.isSome_map]
    · exact ih a
  | add cmd h ih => exact ih
  | setUnknownArgsAllowed u h ih => exact ih
  | setNoArgsAllowed b h ih => exact ih

theorem gives_parse {c c' : CommandLine} {n : ℕ} {ok : Bool}
    (hdeclared : Declared c.toCommandLineCommand) (h : c.parse n = some (ok, c')) :
    Gives c.toCommandLineCommand c'.toCommandLineCommand := by
  obtain ⟨r, hr, hfinish⟩ := Option.map_eq_some_iff.mp h
  have hgives := WwivBasic.gives_parse hdeclared hr
  have hcommand : c'.toCommandLineCommand = r.2 := by
    have hc' : c' = (c.finish r).2 := (congrArg Prod.snd hfinish).symm
    rw [hc']
    obtain ⟨result, command⟩ := r
    unfold finish
    cases result with
    | error what => rfl
    | ok k =>
      dsimp only
      split_ifs <;> rfl
  rwa [hcommand]

/-- An INI file with `foo=x` in its section. -/
def settingFoo : SettingCall where
  kind := .string
  ini := ⟨true, [['s']], (∅ : StrMap Str).insertOrAssign "s.foo".toList ['x']⟩
  key := "foo".toList

end CommandLine

end WwivBasic
