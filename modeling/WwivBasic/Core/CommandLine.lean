import WwivBasic.Core.IniFile
import WwivBasic.Core.StringUtils

/-!
# Command lines

`core/command_line.cpp` parses the arguments of a program: `--key=value` and `-Xvalue`, the dot
argument, sub-commands, and the arguments that remain. Built for a system other than Windows.

## Main definitions

* `CommandLineCommand`, `CommandLine`: a command with its arguments, and that of the program
* `CommandLineCommand.parse`, `CommandLine.parse`: `Parse`
* `CommandLine.Built`: a command line before it is parsed

## Main results

* `CommandLine.parse_remaining`: the arguments that remain
* `CommandLine.parse_items_iff`: when the arguments `--key=value` have the values given
-/

namespace WwivBasic

/-! ## Arguments and values -/

/-- What is read of a `CommandLineArgument`. -/
structure CommandLineArgument where
  name_ : Str
  key_ : Char
  default_value_ : Str
  environment_variable_ : Str
  is_boolean : Bool

namespace CommandLineArgument

/-- The constructor of `CommandLineArgument`; without a key, `key` is NUL. -/
def new (name : Str) (key : Char) (default_value environment_variable : Str) :
    CommandLineArgument :=
  ⟨name, key.toUpper, default_value, environment_variable, false⟩

/-- The constructor of `BooleanCommandLineArgument`. -/
def newBoolean (name : Str) (key : Char) (default_value : Bool) : CommandLineArgument :=
  { new name key (if default_value then "true".toList else "false".toList) [] with
    is_boolean := true }

/-- `default_value`, with the values of the environment variables. -/
def defaultValue (env : Str → Str) (a : CommandLineArgument) : Str :=
  if env a.environment_variable_ = [] then a.default_value_ else env a.environment_variable_

end CommandLineArgument

/-- `CommandLineValue`. -/
structure CommandLineValue where
  value_ : Str
  default_ : Bool
  deriving DecidableEq

/-- `as_int`: the number that `std::stoi` reads, 0 where it throws. -/
def CommandLineValue.asInt (v : CommandLineValue) : Int :=
  let result := strtol v.value_
  if result.converted && !result.erange && intMin ≤ result.value && result.value ≤ intMax then
    result.value
  else 0

/-! ## Commands -/

/-- What is read of a `CommandLineCommand`. A command that was selected is kept as its name. -/
structure CommandLineCommand where
  name_ : Str
  raw_args_ : List Str
  args_allowed_ : StrMap CommandLineArgument := ∅
  commands_allowed_ : List (Str × CommandLineCommand) := []
  remaining_ : List Str := []
  args_ : StrMap CommandLineValue := ∅
  command_ : Option Str := none
  dot_argument_ : Str := []
  unknown_args_allowed_ : Bool := false

namespace CommandLineCommand

/-- `add_argument`. -/
def addArgument (env : Str → Str) (cmd : CommandLineArgument) (c : CommandLineCommand) :
    CommandLineCommand :=
  { c with
    args_allowed_ := c.args_allowed_.emplace cmd.name_ cmd
    args_ := c.args_.emplace cmd.name_ ⟨cmd.defaultValue env, true⟩ }

/-- `add`, of a sub-command. -/
def add (cmd c : CommandLineCommand) : CommandLineCommand :=
  let cmd := { cmd with raw_args_ := c.raw_args_, dot_argument_ := c.dot_argument_ }
  { c with
    commands_allowed_ := (cmd.name_, cmd) :: c.commands_allowed_.filter (·.1 ≠ cmd.name_) }

/-- The values that count as `false` for a boolean argument. -/
def booleanValue (value : Str) : Str :=
  if value = ['N'] ∨ value = ['0'] ∨ value = ['n'] ∨ value.map Char.toLower = "false".toList then
    "false".toList
  else "true".toList

/-- `SetCommandLineArgument`. The old value is erased in any case. -/
def setCommandLineArgument (key value : Str) (default_value : Bool) (c : CommandLineCommand) :
    Bool × CommandLineCommand :=
  let args := c.args_.erase key
  match c.args_allowed_.find? key with
  | none => (false, { c with args_ := args })
  | some arg =>
    let value := if arg.is_boolean then booleanValue value else value
    (true, { c with args_ := args.emplace key ⟨value, default_value⟩ })

/-- `SetNewDefault`. -/
def setNewDefault (key value : Str) (c : CommandLineCommand) : CommandLineCommand :=
  (c.setCommandLineArgument key value true).2

/-- `HandleCommandLineArgument`. -/
def handleCommandLineArgument (key value : Str) (c : CommandLineCommand) : CommandLineCommand :=
  (c.setCommandLineArgument key value false).2

/-- `arg`. -/
def arg (name : Str) (c : CommandLineCommand) : CommandLineValue :=
  (c.args_.find? name).getD ⟨[], true⟩

/-- `sarg`. -/
def sarg (name : Str) (c : CommandLineCommand) : Str := (c.arg name).value_

/-- `iarg`. -/
def iarg (name : Str) (c : CommandLineCommand) : Int := (c.arg name).asInt

/-- `ArgNameForKey`: the first argument with the key, in the order of their names. -/
def argNameForKey (key : Char) (c : CommandLineCommand) : Str :=
  match c.args_allowed_.entries.find? fun a => key = a.2.key_ with
  | some a => a.1
  | none => []

/-! ## `Parse` -/

/-- `what` of an `unknown_argument_error`. -/
def unknownArgumentError (message : Str) : Str := "unknown_argument_error: ".toList ++ message

/-- An argument `--key=value`. -/
def parseLong (s : Str) (c : CommandLineCommand) : Except Str Unit × CommandLineCommand :=
  let delims := splitString s ['='] true
  let key := (delims.headD []).drop 2
  let value := (delims.drop 1).headD []
  if c.args_allowed_.contains key then (.ok (), c.handleCommandLineArgument key value)
  else if c.unknown_args_allowed_ then (.ok (), c)
  else
    (.error (unknownArgumentError
      ("Command: ".toList ++ c.name_ ++ "; arg: ".toList ++ key)), c)

/-- An argument `-Xvalue`, from the `X` on. -/
def parseShort (s : Str) (c : CommandLineCommand) : Except Str Unit × CommandLineCommand :=
  match s with
  | [] =>
    (.error (unknownArgumentError
      "Missing argument letter, args must be -X or --XXXX".toList), c)
  | x :: value =>
    let letter := x.toUpper
    let key := c.argNameForKey letter
    if key ≠ [] then (.ok (), c.handleCommandLineArgument key value)
    else if c.unknown_args_allowed_ then (.ok (), c)
    else
      (.error (unknownArgumentError
        ("Command: ".toList ++ c.name_ ++ "; letter: '".toList ++ [letter] ++ "'".toList)), c)

/-- The dot argument, from behind the dot. -/
def parseDot (value : Str) (c : CommandLineCommand) : CommandLineCommand :=
  if c.dot_argument_ ≠ [] then c.handleCommandLineArgument c.dot_argument_ value else c

/-- An argument that begins with `-` or `.`, other than `--`. -/
def parseOption (s : Str) (c : CommandLineCommand) :
    Option (Except Str Unit × CommandLineCommand) :=
  match s with
  | '-' :: '-' :: _ => some (c.parseLong s)
  | '-' :: s => some (c.parseShort s)
  | '.' :: value => some (.ok (), c.parseDot value)
  | _ => none

/-- The loops that add the arguments from `i` on to those that remain. -/
def addRemaining (i : ℕ) (c : CommandLineCommand) : CommandLineCommand :=
  { c with remaining_ := c.remaining_ ++ c.raw_args_.drop i }

/-- The command with a sub-command selected, that was parsed. -/
def select (c : CommandLineCommand) (s : Str) (command : CommandLineCommand) :
    CommandLineCommand :=
  { c with
    commands_allowed_ := c.commands_allowed_.map fun p => if p.1 = s then (s, command) else p
    command_ := some s }

/-- `Parse`, from position `i` on, with `n` iterations at most: `none` if they do not suffice. -/
def parse : ℕ → ℕ → CommandLineCommand → Option (Except Str ℕ × CommandLineCommand)
  | 0, _, _ => none
  | n + 1, i, c =>
    match c.raw_args_[i]? with
    | none => some (.ok c.raw_args_.length, c)
    | some s =>
      if s = [] then parse n (i + 1) c
      else if s = ['-', '-'] then
        -- The inner loop leaves the position behind the last argument.
        parse n (c.raw_args_.length + 1) (c.addRemaining (i + 1))
      else
        match c.parseOption s with
        | some (.error what, c) => some (.error what, c)
        | some (.ok (), c) => parse n (i + 1) c
        | none =>
          match c.commands_allowed_.find? (·.1 = s) with
          | some (_, command) =>
            match parse n (i + 1) command with
            | none => none
            | some (.error what, command) => some (.error what, c.select s command)
            -- A sub-command returns the number of its own arguments, wherever it began.
            | some (.ok j, command) => parse n (j + 1) (c.select s command)
          | none => parse n (c.raw_args_.length + 1) (c.addRemaining i)

end CommandLineCommand

/-! ## The command line -/

/-- What is read of a `CommandLine`. -/
structure CommandLine extends CommandLineCommand where
  bbsdir_ : Str := []
  bindir_ : Str := []
  configdir_ : Str := []
  logdir_ : Str := []
  verbose_ : Int := 0
  no_args_allowed_ : Bool := false

namespace CommandLine

/-- The constructor of `CommandLine`. -/
def new (args : List Str) (dot_argument : Str) : CommandLine :=
  { name_ := [], raw_args_ := args, dot_argument_ := dot_argument }

/-- `CommandLine::Parse` after `ParseImpl`. -/
def finish (c : CommandLine) (r : Except Str ℕ × CommandLineCommand) : Bool × CommandLine :=
  let (result, command) := r
  let c := { c with toCommandLineCommand := command }
  match result with
  | .error _ => (false, c)
  | .ok k =>
    if k < c.raw_args_.length then (false, c)
    else if c.raw_args_.length ≤ 1 ∧ c.no_args_allowed_ = false then (false, c)
    else
      (true, { c with
        bbsdir_ := c.sarg "bbsdir".toList
        bindir_ := c.sarg "bindir".toList
        configdir_ := c.sarg "configdir".toList
        logdir_ := c.sarg "logdir".toList
        verbose_ := c.iarg "v".toList })

/-- `CommandLine::Parse`, with `n` iterations at most in `ParseImpl`. -/
def parse (n : ℕ) (c : CommandLine) : Option (Bool × CommandLine) :=
  (c.toCommandLineCommand.parse n 1).map c.finish

/-- A command line that has been constructed, and what it allows declared. There is at least the
name of the program. -/
inductive Built (env : Str → Str) : CommandLine → Prop
  | new (program : Str) (args : List Str) (dot_argument : Str) :
    Built env (new (program :: args) dot_argument)
  | addArgument (cmd : CommandLineArgument) {c : CommandLine} (h : Built env c) :
    Built env { c with toCommandLineCommand := c.addArgument env cmd }
  | setNewDefault (key value : Str) {c : CommandLine} (h : Built env c) :
    Built env { c with toCommandLineCommand := c.setNewDefault key value }
  | add (cmd : CommandLineCommand) {c : CommandLine} (h : Built env c) :
    Built env { c with toCommandLineCommand := CommandLineCommand.add cmd c.toCommandLineCommand }
  | setUnknownArgsAllowed (u : Bool) {c : CommandLine} (h : Built env c) :
    Built env { c with unknown_args_allowed_ := u }
  | setNoArgsAllowed (b : Bool) {c : CommandLine} (h : Built env c) :
    Built env { c with no_args_allowed_ := b }

end CommandLine

/-! ## The arguments that remain -/

/-- An argument that is not positional. -/
def isOption (s : Str) : Bool :=
  s = [] || (s.head? = some '-' && s ≠ ['-', '-']) || s.head? = some '.'

/-- The arguments from the first positional one on, or behind `--`. -/
def positional (args : List Str) : List Str :=
  match args.dropWhile isOption with
  | [] => []
  | s :: rest => if s = ['-', '-'] then rest else s :: rest

section Positional

variable {s : Str} {args : List Str}

theorem positional_cons_of_isOption (h : isOption s = true) (args : List Str) :
    positional (s :: args) = positional args := by
  rw [positional, List.dropWhile_cons_of_pos h]
  rfl

theorem positional_cons (h : isOption s = false) (args : List Str) :
    positional (s :: args) = if s = ['-', '-'] then args else s :: args := by
  rw [positional, List.dropWhile_cons_of_neg (by simp [h])]

end Positional

namespace CommandLineCommand

variable {c c' : CommandLineCommand} {s key value : Str} {n i : ℕ}

theorem find?_emplace {α : Type} (m : StrMap α) (k k' : Str) (a : α) :
    (m.emplace k a).find? k' = if k' = k then some ((m.find? k).getD a) else m.find? k' :=
  StrMap.find?_insertWith m k k' _

theorem find?_erase {α : Type} (m : StrMap α) (k k' : Str) :
    (m.erase k).find? k' = if k' = k then none else m.find? k' := by
  rw [OrderedMap.find?_erase]
  simp only [Std.LawfulEqOrd.compare_eq_iff_eq]

/-- The values after one is set. -/
theorem find?_setCommandLineArgument (key value : Str) (b : Bool) (c : CommandLineCommand)
    (a : Str) : (c.setCommandLineArgument key value b).2.args_.find? a =
      if a = key then
        (c.args_allowed_.find? key).map fun arg =>
          ⟨if arg.is_boolean then booleanValue value else value, b⟩
      else c.args_.find? a := by
  rw [setCommandLineArgument]
  cases c.args_allowed_.find? key with
  | none => exact find?_erase c.args_ key a
  | some arg =>
    dsimp only
    rw [find?_emplace, find?_erase, find?_erase]
    by_cases ha : a = key
    · rw [if_pos ha, if_pos ha, if_pos rfl]
      rfl
    · rw [if_neg ha, if_neg ha, if_neg ha]

/-- Only the values of the arguments differ. -/
structure SameButArgs (c c' : CommandLineCommand) : Prop where
  name_ : c'.name_ = c.name_
  raw_args_ : c'.raw_args_ = c.raw_args_
  args_allowed_ : c'.args_allowed_ = c.args_allowed_
  commands_allowed_ : c'.commands_allowed_ = c.commands_allowed_
  remaining_ : c'.remaining_ = c.remaining_
  command_ : c'.command_ = c.command_
  dot_argument_ : c'.dot_argument_ = c.dot_argument_
  unknown_args_allowed_ : c'.unknown_args_allowed_ = c.unknown_args_allowed_

theorem SameButArgs.refl (c : CommandLineCommand) : SameButArgs c c :=
  ⟨rfl, rfl, rfl, rfl, rfl, rfl, rfl, rfl⟩

theorem sameButArgs_set (key value : Str) (b : Bool) (c : CommandLineCommand) :
    SameButArgs c (c.setCommandLineArgument key value b).2 := by
  rw [setCommandLineArgument]
  cases c.args_allowed_.find? key with
  | none => exact ⟨rfl, rfl, rfl, rfl, rfl, rfl, rfl, rfl⟩
  | some arg => exact ⟨rfl, rfl, rfl, rfl, rfl, rfl, rfl, rfl⟩

theorem sameButArgs_parseLong (s : Str) (c : CommandLineCommand) :
    SameButArgs c (c.parseLong s).2 := by
  rw [parseLong]
  split_ifs
  · exact sameButArgs_set _ _ false c
  · exact .refl c
  · exact .refl c

theorem sameButArgs_parseShort (s : Str) (c : CommandLineCommand) :
    SameButArgs c (c.parseShort s).2 := by
  cases s with
  | nil => exact .refl c
  | cons x value =>
    rw [parseShort]
    split_ifs
    · exact sameButArgs_set _ _ false c
    · exact .refl c
    · exact .refl c

theorem sameButArgs_parseDot (value : Str) (c : CommandLineCommand) :
    SameButArgs c (c.parseDot value) := by
  rw [parseDot]
  split_ifs
  · exact sameButArgs_set _ _ false c
  · exact .refl c

/-- An option is parsed as one of three kinds, and sets values only. -/
theorem sameButArgs_parseOption {r : Except Str Unit × CommandLineCommand}
    (h : c.parseOption s = some r) : SameButArgs c r.2 := by
  unfold parseOption at h
  split at h
  · obtain rfl := Option.some.inj h
    exact sameButArgs_parseLong _ c
  · obtain rfl := Option.some.inj h
    exact sameButArgs_parseShort _ c
  · obtain rfl := Option.some.inj h
    exact sameButArgs_parseDot _ c
  · exact absurd h.symm (Option.some_ne_none r)

/-- An argument is parsed as an option when it is one. -/
theorem isOption_iff (hs : s ≠ []) (hdash : s ≠ ['-', '-']) (c : CommandLineCommand) :
    isOption s = (c.parseOption s).isSome := by
  unfold parseOption
  split
  · simp [isOption, hdash]
  · simp [isOption, hdash]
  · simp [isOption]
  · rename_i hlong hshort hdot
    rcases s with - | ⟨x, s⟩
    · exact absurd rfl hs
    · have hx : x ≠ '-' := fun h => hshort s (h ▸ rfl)
      have hx' : x ≠ '.' := fun h => hdot s (h ▸ rfl)
      simp [isOption, hx, hx']

theorem parse_end (hn : 0 < n) (hi : c.raw_args_.length ≤ i) :
    c.parse n i = some (.ok c.raw_args_.length, c) := by
  obtain ⟨n, rfl⟩ := Nat.exists_eq_succ_of_ne_zero hn.ne'
  rw [Nat.succ_eq_add_one, parse, List.getElem?_eq_none hi]

/-- When the rest has been added, `Parse` has come to the end. -/
theorem parse_addRemaining (hn : 0 < n) (k : ℕ) :
    (c.addRemaining k).parse n (c.raw_args_.length + 1) =
      some (.ok c.raw_args_.length, c.addRemaining k) :=
  parse_end hn (Nat.le_succ _)

/-- Without sub-commands, `Parse` returns within as many iterations as there are arguments left, and
adds the positional ones to those that remain. -/
theorem exists_parse (hcommands : c.commands_allowed_ = []) (hn : c.raw_args_.length - i < n) :
    ∃ result c', c.parse n i = some (result, c') ∧ c'.raw_args_ = c.raw_args_ ∧
      ∀ k, result = .ok k → k = c.raw_args_.length ∧
        c'.remaining_ = c.remaining_ ++ positional (c.raw_args_.drop i) := by
  induction n generalizing i c with
  | zero => exact absurd hn (Nat.not_lt_zero _)
  | succ n ih =>
    rcases Nat.lt_or_ge i c.raw_args_.length with hlt | hge
    · have hget : c.raw_args_[i]? = some c.raw_args_[i] := List.getElem?_eq_getElem hlt
      have hdrop := List.drop_eq_getElem_cons hlt
      generalize c.raw_args_[i] = s at hget hdrop
      have hnext : c.raw_args_.length - (i + 1) < n := by omega
      rw [parse, hget, hdrop]
      dsimp only
      by_cases hs : s = []
      · rw [if_pos hs, positional_cons_of_isOption (by simp [hs, isOption])]
        exact ih hcommands hnext
      rw [if_neg hs]
      by_cases hdash : s = ['-', '-']
      · rw [if_pos hdash, parse_addRemaining (by omega),
          positional_cons (by simp [hdash, isOption]), if_pos hdash]
        refine ⟨_, _, rfl, rfl, fun k hk => ⟨(Except.ok.inj hk).symm, rfl⟩⟩
      rw [if_neg hdash]
      have hoption := isOption_iff hs hdash c
      cases hparse : c.parseOption s with
      | some r =>
        obtain ⟨result, c₁⟩ := r
        have hsame := sameButArgs_parseOption hparse
        rw [hparse, Option.isSome_some] at hoption
        cases result with
        | error what =>
          exact ⟨_, _, rfl, hsame.raw_args_, fun k hk => nomatch hk⟩
        | ok u =>
          have hrec := @ih c₁ (i + 1) (hsame.commands_allowed_.trans hcommands)
            (by rwa [hsame.raw_args_])
          rw [hsame.raw_args_, hsame.remaining_] at hrec
          rwa [positional_cons_of_isOption hoption]
      | none =>
        rw [hparse, Option.isSome_none] at hoption
        rw [hcommands, positional_cons hoption, if_neg hdash, ← hdrop]
        dsimp only [List.find?_nil]
        rw [parse_addRemaining (by omega)]
        exact ⟨_, _, rfl, rfl, fun k hk => ⟨(Except.ok.inj hk).symm, rfl⟩⟩
    · rw [parse_end (Nat.succ_pos n) hge, List.drop_of_length_le hge]
      exact ⟨_, _, rfl, rfl, fun k hk =>
        ⟨(Except.ok.inj hk).symm, (List.append_nil c.remaining_).symm⟩⟩

/-! ## Arguments with values -/

section Items

variable {kv : Str × Str} {items : List (Str × Str)} {v a : Str}

/-- An argument `--key=value`. -/
def item (kv : Str × Str) : Str := '-' :: '-' :: (kv.1 ++ '=' :: kv.2)

/-- The value of the last item with a key. -/
def lastValue (items : List (Str × Str)) (a : Str) : Option Str :=
  (items.reverse.find? (·.1 = a)).map (·.2)

/-- The value that is read of an item: up to the next `=`. -/
def readValue (v : Str) : Str := (splitString v ['='] true).headD []

theorem not_mem_headD_splitString (s : Str) : '=' ∉ (splitString s ['='] true).headD [] := by
  cases hpieces : splitString s ['='] true with
  | nil => exact List.not_mem_nil
  | cons l pieces =>
    have hl : l ∈ splitString s ['='] true := hpieces ▸ List.mem_cons_self
    exact not_mem_of_mem_splitString hl

theorem readValue_eq_iff : readValue v = v ↔ '=' ∉ v := by
  rw [readValue]
  constructor
  · intro h
    rw [← h]
    exact not_mem_headD_splitString v
  · intro h
    rw [splitString_eq_filter]
    by_cases hv : v = []
    · rw [hv]
      rfl
    · rw [DelimitedLines.lines_last h hv, List.map_singleton, DelimitedLines.text_of_not_mem h]
      simp [hv]

/-- An item with a key that is allowed and has no `=`. -/
theorem parseLong_item (hkey : '=' ∉ kv.1) (hallowed : c.args_allowed_.contains kv.1 = true) :
    c.parseLong (item kv) = (.ok (), c.handleCommandLineArgument kv.1 (readValue kv.2)) := by
  have hsplit : splitString (item kv) ['='] true =
      ('-' :: '-' :: kv.1) :: splitString kv.2 ['='] true := by
    have hno : '=' ∉ '-' :: '-' :: kv.1 := by simpa using hkey
    exact (splitString_append hno kv.2).trans (by simp)
  rw [parseLong, hsplit]
  exact if_pos hallowed

/-- The key that is read has no `=`, so the value of one that has stays. -/
theorem find?_parseLong (ha : '=' ∈ a) (s : Str) (c : CommandLineCommand) :
    (c.parseLong s).2.args_.find? a = c.args_.find? a := by
  have hkey : a ≠ ((splitString s ['='] true).headD []).drop 2 := by
    rintro rfl
    exact not_mem_headD_splitString s (List.mem_of_mem_drop ha)
  rw [parseLong]
  split_ifs
  · rw [handleCommandLineArgument, find?_setCommandLineArgument, if_neg hkey]
  · rfl
  · rfl

theorem getElem?_of_drop_eq_cons {α : Type} {l rest : List α} {x : α} {i : ℕ}
    (h : l.drop i = x :: rest) : l[i]? = some x ∧ l.drop (i + 1) = rest := by
  constructor
  · rw [← Nat.add_zero i, ← List.getElem?_drop, h]
    rfl
  · rw [← List.drop_drop, h]
    rfl

/-- One iteration, at an item. -/
theorem parse_succ_item (h : c.raw_args_[i]? = some (item kv)) (n : ℕ) :
    c.parse (n + 1) i =
      match c.parseLong (item kv) with
      | (.error what, c) => some (.error what, c)
      | (.ok (), c) => c.parse n (i + 1) := by
  have hne : item kv ≠ [] := List.cons_ne_nil _ _
  have hdash : item kv ≠ ['-', '-'] := by
    simp [item]
  have hoption : c.parseOption (item kv) = some (c.parseLong (item kv)) := rfl
  rw [parse, h]
  dsimp only
  rw [if_neg hne, if_neg hdash, hoption]
  rcases c.parseLong (item kv) with ⟨result, c₁⟩
  cases result with
  | error what => rfl
  | ok u => rfl

/-- Items with keys that are allowed and have no `=` set the values that are read of them. -/
theorem parse_items (hraw : c.raw_args_.drop i = items.map item)
    (hkeys : ∀ kv ∈ items, '=' ∉ kv.1 ∧ c.args_allowed_.contains kv.1 = true)
    (hn : c.raw_args_.length - i < n) :
    c.parse n i = some (.ok c.raw_args_.length,
      items.foldl (fun c kv => c.handleCommandLineArgument kv.1 (readValue kv.2)) c) := by
  induction items generalizing c i n with
  | nil =>
    rw [List.map_nil, List.drop_eq_nil_iff] at hraw
    exact parse_end (by omega) hraw
  | cons kv items ih =>
    obtain ⟨hget, hrest⟩ := getElem?_of_drop_eq_cons hraw
    obtain ⟨hlt, -⟩ := List.getElem?_eq_some_iff.mp hget
    obtain ⟨⟨hkey, hallowed⟩, hkeys⟩ := List.forall_mem_cons.mp hkeys
    obtain ⟨n, rfl⟩ : ∃ m, n = m + 1 := ⟨n - 1, by omega⟩
    have hsame := sameButArgs_set kv.1 (readValue kv.2) false c
    rw [← handleCommandLineArgument] at hsame
    have hrec := @ih (c.handleCommandLineArgument kv.1 (readValue kv.2)) n (i + 1)
      (by rwa [hsame.raw_args_]) (by rwa [hsame.args_allowed_]) (by rw [hsame.raw_args_]; omega)
    rw [parse_succ_item hget, parseLong_item hkey hallowed, List.foldl_cons]
    exact hrec.trans (by rw [hsame.raw_args_])

/-- Whatever the keys of items, the value of an argument with `=` in its name stays. -/
theorem exists_parse_items (ha : '=' ∈ a) (hraw : c.raw_args_.drop i = items.map item)
    (hn : c.raw_args_.length - i < n) :
    ∃ r, c.parse n i = some r ∧ r.2.args_.find? a = c.args_.find? a := by
  induction items generalizing c i n with
  | nil =>
    rw [List.map_nil, List.drop_eq_nil_iff] at hraw
    exact ⟨_, parse_end (by omega) hraw, rfl⟩
  | cons kv items ih =>
    obtain ⟨hget, hrest⟩ := getElem?_of_drop_eq_cons hraw
    obtain ⟨hlt, -⟩ := List.getElem?_eq_some_iff.mp hget
    obtain ⟨n, rfl⟩ : ∃ m, n = m + 1 := ⟨n - 1, by omega⟩
    have hsame := sameButArgs_parseLong (item kv) c
    have hfind := find?_parseLong ha (item kv) c
    rw [parse_succ_item hget]
    generalize c.parseLong (item kv) = r at hsame hfind ⊢
    obtain ⟨result, c₁⟩ := r
    cases result with
    | error what => exact ⟨_, rfl, hfind⟩
    | ok u =>
      have hraw₁ : c₁.raw_args_ = c.raw_args_ := hsame.raw_args_
      obtain ⟨r, hr, hr'⟩ := @ih c₁ n (i + 1) (by rwa [hraw₁]) (by rw [hraw₁]; omega)
      exact ⟨r, hr, hr'.trans hfind⟩

theorem SameButArgs.trans {c₁ c₂ : CommandLineCommand} (h : SameButArgs c c₁)
    (h' : SameButArgs c₁ c₂) : SameButArgs c c₂ :=
  ⟨h'.name_.trans h.name_, h'.raw_args_.trans h.raw_args_, h'.args_allowed_.trans h.args_allowed_,
    h'.commands_allowed_.trans h.commands_allowed_, h'.remaining_.trans h.remaining_,
    h'.command_.trans h.command_, h'.dot_argument_.trans h.dot_argument_,
    h'.unknown_args_allowed_.trans h.unknown_args_allowed_⟩

theorem sameButArgs_foldl (items : List (Str × Str)) (c : CommandLineCommand) :
    SameButArgs c
      (items.foldl (fun c kv => c.handleCommandLineArgument kv.1 (readValue kv.2)) c) := by
  induction items generalizing c with
  | nil => exact .refl c
  | cons kv items ih => exact (sameButArgs_set _ _ false c).trans (ih _)

theorem lastValue_append (items : List (Str × Str)) (kv : Str × Str) (a : Str) :
    lastValue (items ++ [kv]) a = if kv.1 = a then some kv.2 else lastValue items a := by
  rw [lastValue, List.reverse_append, List.reverse_singleton, List.singleton_append]
  by_cases h : kv.1 = a
  · rw [List.find?_cons_of_pos (by simpa using h), if_pos h]
    rfl
  · rw [List.find?_cons_of_neg (by simpa using h), if_neg h]
    rfl

theorem exists_lastValue (h : kv ∈ items) : ∃ v, lastValue items kv.1 = some v := by
  have hsome : (items.reverse.find? (·.1 = kv.1)).isSome = true := by
    rw [List.find?_isSome]
    exact ⟨kv, List.mem_reverse.mpr h, by simp⟩
  obtain ⟨kv', hkv'⟩ := Option.isSome_iff_exists.mp hsome
  exact ⟨kv'.2, by rw [lastValue, hkv']; rfl⟩

theorem mem_of_lastValue (h : lastValue items a = some v) : ∃ kv ∈ items, kv.1 = a := by
  obtain ⟨kv, hkv, -⟩ := Option.map_eq_some_iff.mp h
  exact ⟨kv, List.mem_reverse.mp (List.mem_of_find?_eq_some hkv), by
    simpa using List.find?_some hkv⟩

/-- The values after the items were set. -/
theorem find?_foldl (hallowed : ∀ kv ∈ items, ∃ arg, c.args_allowed_.find? kv.1 = some arg ∧
    arg.is_boolean = false) (a : Str) :
    (items.foldl (fun c kv => c.handleCommandLineArgument kv.1 (readValue kv.2)) c).args_.find? a =
      match lastValue items a with
      | some v => some ⟨readValue v, false⟩
      | none => c.args_.find? a := by
  induction items using List.reverseRecOn with
  | nil => rfl
  | append_singleton items kv ih =>
    obtain ⟨arg, harg, hboolean⟩ := hallowed kv (List.mem_append_right items List.mem_cons_self)
    have hsame := sameButArgs_foldl items c
    rw [List.foldl_append, List.foldl_cons, List.foldl_nil, handleCommandLineArgument,
      find?_setCommandLineArgument, hsame.args_allowed_, harg, lastValue_append,
      ih fun kv' hkv' => hallowed kv' (List.mem_append_left [kv] hkv')]
    by_cases ha : a = kv.1
    · rw [if_pos ha, if_pos ha.symm, Option.map_some, hboolean]
      rfl
    · rw [if_neg ha, if_neg (Ne.symm ha)]

end Items

end CommandLineCommand

namespace CommandLine

open CommandLineCommand (item lastValue readValue)

variable {env : Str → Str} {c c' : CommandLine} {n : ℕ}

/-- Before it is parsed, a command line has the name of the program, no arguments that remain, and
values that are defaults. -/
structure Fresh (c : CommandLine) : Prop where
  raw_args_ : c.raw_args_ ≠ []
  remaining_ : c.remaining_ = []
  default_ : ∀ a v, c.args_.find? a = some v → v.default_ = true

theorem Built.fresh (h : Built env c) : c.Fresh := by
  induction h with
  | new program args dot_argument => exact ⟨List.cons_ne_nil _ _, rfl, fun a v hv => nomatch hv⟩
  | addArgument cmd h ih =>
    refine ⟨ih.raw_args_, ih.remaining_, fun a v hv => ?_⟩
    dsimp only [CommandLineCommand.addArgument] at hv
    rw [CommandLineCommand.find?_emplace] at hv
    split_ifs at hv
    · rename_i c ha
      obtain rfl := Option.some.inj hv
      cases hold : c.args_.find? cmd.name_ with
      | none => rfl
      | some old => exact ih.default_ _ old hold
    · exact ih.default_ a v hv
  | setNewDefault key value h ih =>
    rename_i c
    have hsame := CommandLineCommand.sameButArgs_set key value true c.toCommandLineCommand
    refine ⟨hsame.raw_args_ ▸ ih.raw_args_, hsame.remaining_.trans ih.remaining_, fun a v hv => ?_⟩
    dsimp only [CommandLineCommand.setNewDefault] at hv
    rw [CommandLineCommand.find?_setCommandLineArgument] at hv
    split_ifs at hv
    · obtain ⟨arg, -, rfl⟩ := Option.map_eq_some_iff.mp hv
      rfl
    · exact ih.default_ a v hv
  | add cmd h ih => exact ⟨ih.raw_args_, ih.remaining_, ih.default_⟩
  | setUnknownArgsAllowed u h ih => exact ⟨ih.raw_args_, ih.remaining_, ih.default_⟩
  | setNoArgsAllowed b h ih => exact ⟨ih.raw_args_, ih.remaining_, ih.default_⟩

/-- What `Parse` returns, of what the loops return. -/
theorem exists_parse {command : CommandLineCommand} {k : ℕ}
    (h : c.toCommandLineCommand.parse n 1 = some (.ok k, command)) :
    ∃ ok c', c.parse n = some (ok, c') ∧ c'.toCommandLineCommand = command ∧
      (command.raw_args_.length ≤ k → 1 < command.raw_args_.length → ok = true) := by
  rw [parse, h, Option.map_some, finish]
  dsimp only
  split_ifs with hk hnone
  · exact ⟨_, _, rfl, rfl, fun hle => absurd hk (Nat.not_lt.mpr hle)⟩
  · exact ⟨_, _, rfl, rfl, fun _ hlt => absurd hnone.1 (Nat.not_le.mpr hlt)⟩
  · exact ⟨_, _, rfl, rfl, fun _ _ => rfl⟩

/-- `Parse` returns, and where it succeeds, the arguments that remain are those of the command line
from the first positional one on, or behind `--`. -/
theorem parse_remaining (h : Built env c) (hcommands : c.commands_allowed_ = [])
    (hn : c.raw_args_.length ≤ n) :
    ∃ ok c', c.parse n = some (ok, c') ∧
      (ok = true → c'.remaining_ = positional c.raw_args_.tail) := by
  have hpos := List.length_pos_of_ne_nil h.fresh.raw_args_
  have hlt : c.raw_args_.length - 1 < n := by omega
  obtain ⟨result, command, hparse, -, hremaining⟩ :=
    CommandLineCommand.exists_parse hcommands hlt
  cases result with
  | error what => exact ⟨false, _, by rw [parse, hparse]; rfl, fun hok => nomatch hok⟩
  | ok k =>
    obtain ⟨ok, c', hc', hcommand, -⟩ := exists_parse hparse
    refine ⟨ok, c', hc', fun _ => ?_⟩
    rw [hcommand, (hremaining k rfl).2, h.fresh.remaining_, List.nil_append, List.drop_one]

/-- A command line on which one argument is allowed, `--foo`. -/
def allowingFoo (args : List Str) : CommandLine :=
  let c := new ("foo.exe".toList :: args) []
  { c with
    toCommandLineCommand :=
      c.addArgument (fun _ => []) (.new "foo".toList '\x00' "asdf".toList []) }

theorem built_allowingFoo (args : List Str) : Built (fun _ => []) (allowingFoo args) :=
  .addArgument (.new "foo".toList '\x00' "asdf".toList []) (.new "foo.exe".toList args [])

theorem parse_remaining_doubleDash :
    ∃ ok c', (allowingFoo ["--foo=baz".toList, ['-', '-'], "--bar".toList]).parse 4 =
      some (ok, c') ∧
      (ok = true → c'.remaining_ = positional ["--foo=baz".toList, ['-', '-'], "--bar".toList]) :=
  parse_remaining (built_allowingFoo _) rfl (by decide)

/-! ## Arguments with values -/

/-- `Parse` succeeds, and every argument that is allowed has the value of the last item with its
name, or its default where there is none. -/
def ParsesItems (items : List (Str × Str)) (c : CommandLine) : Prop :=
  ∀ n, c.raw_args_.length ≤ n → ∃ c', c.parse n = some (true, c') ∧
    ∀ a, c.args_allowed_.contains a = true →
      match lastValue items a with
      | some v => c'.arg a = ⟨v, false⟩
      | none => c'.arg a = c.arg a ∧ (c.arg a).default_ = true

theorem Fresh.default_arg (h : c.Fresh) (a : Str) : (c.arg a).default_ = true := by
  rw [CommandLineCommand.arg]
  cases hfind : c.args_.find? a with
  | none => rfl
  | some v => exact h.default_ a v hfind

section ParsesItems

variable {program : Str} {items : List (Str × Str)} {a v : Str}

/-- Where `Parse` returns `true`, the values are those the loops leave. -/
theorem arg_eq_of_parse {r : Except Str ℕ × CommandLineCommand}
    (hr : c.toCommandLineCommand.parse n 1 = some r) (h : c.parse n = some (true, c')) :
    c'.args_ = r.2.args_ := by
  obtain ⟨result, command⟩ := r
  cases result with
  | error what =>
    rw [parse, hr] at h
    cases h
  | ok k =>
    obtain ⟨ok, c₁, hc₁, hcommand, -⟩ := exists_parse hr
    obtain ⟨-, rfl⟩ := Prod.mk.inj (Option.some.inj (hc₁.symm.trans h))
    exact congrArg CommandLineCommand.args_ hcommand

/-- No item can have `=` in its key. -/
theorem not_mem_key (h : Built env c) (hargs : c.raw_args_ = program :: items.map item)
    (hallowed : ∀ kv ∈ items, ∃ arg, c.args_allowed_.find? kv.1 = some arg ∧
      arg.is_boolean = false) (hparses : ParsesItems items c) : ∀ kv ∈ items, '=' ∉ kv.1 := by
  intro kv hkv ha
  obtain ⟨c', hc', harg⟩ := hparses _ le_rfl
  obtain ⟨arg, hfind, -⟩ := hallowed kv hkv
  obtain ⟨v, hv⟩ := CommandLineCommand.exists_lastValue hkv
  have hvalue := harg kv.1 (by rw [OrderedMap.contains, hfind]; rfl)
  have hraw : c.raw_args_.drop 1 = items.map item := by rw [hargs]; rfl
  have hlt : c.raw_args_.length - 1 < c.raw_args_.length := by
    rw [hargs, List.length_cons]
    omega
  obtain ⟨r, hr, hstays⟩ := CommandLineCommand.exists_parse_items ha hraw hlt
  have hdefault := h.fresh.default_arg kv.1
  rw [hv] at hvalue
  dsimp only at hvalue
  rw [CommandLineCommand.arg, arg_eq_of_parse hr hc', hstays, ← CommandLineCommand.arg] at hvalue
  rw [hvalue] at hdefault
  cases hdefault

/-- With keys that have none, `Parse` succeeds, and the values that are read are set. -/
theorem exists_parse_of_keys (hargs : c.raw_args_ = program :: items.map item) (hne : items ≠ [])
    (hallowed : ∀ kv ∈ items, ∃ arg, c.args_allowed_.find? kv.1 = some arg ∧
      arg.is_boolean = false) (hkeys : ∀ kv ∈ items, '=' ∉ kv.1) (hn : c.raw_args_.length ≤ n) :
    ∃ c', c.parse n = some (true, c') ∧ ∀ a, c'.arg a =
      match lastValue items a with
      | some v => ⟨readValue v, false⟩
      | none => c.arg a := by
  have hraw : c.raw_args_.drop 1 = items.map item := by rw [hargs]; rfl
  have hlen : 1 < c.raw_args_.length := by
    rw [hargs, List.length_cons, List.length_map]
    exact Nat.succ_lt_succ (List.length_pos_of_ne_nil hne)
  have hcontains : ∀ kv ∈ items, '=' ∉ kv.1 ∧ c.args_allowed_.contains kv.1 = true := by
    intro kv hkv
    obtain ⟨arg, hfind, -⟩ := hallowed kv hkv
    exact ⟨hkeys kv hkv, by rw [OrderedMap.contains, hfind]; rfl⟩
  have hlt : c.raw_args_.length - 1 < n := by omega
  have hparse := CommandLineCommand.parse_items hraw hcontains hlt
  have hsame := CommandLineCommand.sameButArgs_foldl items c.toCommandLineCommand
  obtain ⟨ok, c', hc', hcommand, hok⟩ := exists_parse hparse
  rw [hsame.raw_args_] at hok
  rw [hok le_rfl hlen] at hc'
  refine ⟨c', hc', fun a => ?_⟩
  rw [CommandLineCommand.arg, hcommand, CommandLineCommand.find?_foldl hallowed]
  cases lastValue items a with
  | none => rfl
  | some v => rfl

/-- Every argument has its last value exactly when no item has `=` in its key, nor in its value
where it is the last one with its key. -/
theorem parse_items_iff (h : Built env c) (hargs : c.raw_args_ = program :: items.map item)
    (hne : items ≠ []) (hallowed : ∀ kv ∈ items, ∃ arg,
      c.args_allowed_.find? kv.1 = some arg ∧ arg.is_boolean = false) :
    ParsesItems items c ↔
      (∀ kv ∈ items, '=' ∉ kv.1) ∧ ∀ a v, lastValue items a = some v → '=' ∉ v := by
  constructor
  · intro hparses
    have hkeys := not_mem_key h hargs hallowed hparses
    refine ⟨hkeys, fun a v hv => ?_⟩
    obtain ⟨c', hc', hread⟩ := exists_parse_of_keys hargs hne hallowed hkeys le_rfl
    obtain ⟨c₁, hc₁, harg⟩ := hparses _ le_rfl
    obtain ⟨-, rfl⟩ := Prod.mk.inj (Option.some.inj (hc'.symm.trans hc₁))
    obtain ⟨kv, hkv, rfl⟩ := CommandLineCommand.mem_of_lastValue hv
    obtain ⟨arg, hfind, -⟩ := hallowed kv hkv
    have hvalue := harg kv.1 (by rw [OrderedMap.contains, hfind]; rfl)
    rw [hread kv.1, hv] at hvalue
    exact CommandLineCommand.readValue_eq_iff.mp (congrArg CommandLineValue.value_ hvalue)
  · rintro ⟨hkeys, hvalues⟩ n hn
    obtain ⟨c', hc', hread⟩ := exists_parse_of_keys hargs hne hallowed hkeys hn
    refine ⟨c', hc', fun a _ => ?_⟩
    rw [hread a]
    cases hv : lastValue items a with
    | none => exact ⟨rfl, h.fresh.default_arg a⟩
    | some v =>
      dsimp only
      rw [CommandLineCommand.readValue_eq_iff.mpr (hvalues a v hv)]

theorem allowed_allowingFoo (values : List Str) :
    ∀ kv ∈ values.map fun v => ("foo".toList, v), ∃ arg,
      (allowingFoo ((values.map fun v => ("foo".toList, v)).map item)).args_allowed_.find? kv.1 =
        some arg ∧ arg.is_boolean = false := by
  intro kv hkv
  obtain ⟨v, -, rfl⟩ := List.mem_map.mp hkv
  exact ⟨.new "foo".toList '\x00' "asdf".toList [],
    (CommandLineCommand.find?_emplace ∅ _ _ _).trans (if_pos rfl), rfl⟩

theorem parse_items_iff_twoValues :
    ParsesItems [("foo".toList, ['a', '=']), ("foo".toList, ['b'])]
        (allowingFoo ([("foo".toList, ['a', '=']), ("foo".toList, ['b'])].map item)) ↔
      (∀ kv ∈ [("foo".toList, ['a', '=']), ("foo".toList, ['b'])], '=' ∉ kv.1) ∧
        ∀ a v, lastValue [("foo".toList, ['a', '=']), ("foo".toList, ['b'])] a = some v →
          '=' ∉ v :=
  parse_items_iff (built_allowingFoo _) rfl (List.cons_ne_nil _ _)
    (allowed_allowingFoo [['a', '='], ['b']])

/-- A value with `=` in it is cut. -/
theorem parse_items_cutValue :
    ¬ParsesItems [("foo".toList, ['a', '=', 'b'])]
      (allowingFoo ([("foo".toList, ['a', '=', 'b'])].map item)) := by
  intro hparses
  have hallowed := allowed_allowingFoo [['a', '=', 'b']]
  obtain ⟨c', hc', hread⟩ :=
    exists_parse_of_keys rfl (List.cons_ne_nil _ _) hallowed (by decide) le_rfl
  obtain ⟨c₁, hc₁, harg⟩ := hparses _ le_rfl
  obtain ⟨-, rfl⟩ := Prod.mk.inj (Option.some.inj (hc'.symm.trans hc₁))
  have hvalue := (hread "foo".toList).symm.trans (harg "foo".toList (by decide))
  revert hvalue
  decide

end ParsesItems

end CommandLine

end WwivBasic
