import WwivBasic.Core.CommandLine

/-!
# Commands below commands

Where a word names a sub-command, `CommandLineCommand::Parse` has the sub-command parse what comes
after it, and goes on behind the position that this returns. `add` gives a sub-command the arguments
of the command, but nothing to the sub-commands that it has by then.

## Main definitions

* `CommandLineCommand.Whole`: a command below which every command has the same arguments
* `CommandLineCommand.readArgs`: the arguments, read once and from left to right
* `CommandLineCommand.Routed`: which command is given which of the arguments

## Main results

* `CommandLineCommand.parse_eq_readArgs`: `Parse` reads every argument once
* `CommandLine.parse_routed`: what `Parse` makes of a command line
* `CommandLine.parse_stale`: where it never ends
-/

namespace WwivBasic

namespace CommandLineCommand

/-! ## Who is given what -/

/-- Every command below has the same arguments. -/
inductive Whole (raw_args : List Str) : CommandLineCommand → Prop
  | mk (c : CommandLineCommand) (hraw : c.raw_args_ = raw_args)
    (hcommands : ∀ p ∈ c.commands_allowed_, Whole raw_args p.2) : Whole raw_args c

/-- The arguments, read one after the other, by the command that was selected last. -/
def readArgs : List Str → CommandLineCommand → Except Str Unit × CommandLineCommand
  | [], c => (.ok (), c)
  | s :: args, c =>
    if s = [] then readArgs args c
    else if s = ['-', '-'] then (.ok (), { c with remaining_ := c.remaining_ ++ args })
    else
      match c.parseOption s with
      | some (.error what, c) => (.error what, c)
      | some (.ok (), c) => readArgs args c
      | none =>
        match c.commands_allowed_.find? (·.1 = s) with
        | some (_, command) => (readArgs args command).map id (c.select s)
        | none => (.ok (), { c with remaining_ := c.remaining_ ++ s :: args })

/-- An option is one that the command knows, or may pass over. -/
def accepts (c : CommandLineCommand) (s : Str) : Bool :=
  (c.parseOption s).all fun r => r.1.toBool

/-- The command after an option. -/
def applyOption (c : CommandLineCommand) (s : Str) : CommandLineCommand :=
  ((c.parseOption s).map Prod.snd).getD c

/-- The command after options. -/
def applyOptions (options : List Str) (c : CommandLineCommand) : CommandLineCommand :=
  options.foldl applyOption c

/-- **Who is given what.** The options up to a word that names a sub-command are those of the
command, and what comes after the word is for the sub-command. Without such a word, the arguments
from the first positional one on remain. The list is of the commands that are selected. -/
inductive Routed : List Str → CommandLineCommand → List Str → CommandLineCommand → Prop
  | last {c : CommandLineCommand} {options rest : List Str}
    (hoptions : ∀ s ∈ options, isOption s = true ∧ c.accepts s = true)
    (hrest : ∀ s ∈ rest.head?, isOption s = false ∧
      (s = ['-', '-'] ∨ c.commands_allowed_.find? (·.1 = s) = none)) :
    Routed (options ++ rest) c []
      { c.applyOptions options with remaining_ := c.remaining_ ++ positional rest }
  | sub {c command command' : CommandLineCommand} {options args path : List Str} {s name : Str}
    (hoptions : ∀ s ∈ options, isOption s = true ∧ c.accepts s = true)
    (hword : isOption s = false ∧ s ≠ ['-', '-'])
    (hfind : c.commands_allowed_.find? (·.1 = s) = some (name, command))
    (hargs : Routed args command path command') :
    Routed (options ++ s :: args) c (s :: path) ((c.applyOptions options).select s command')

variable {c c' command : CommandLineCommand} {raw_args args path : List Str} {s name : Str}
  {n i : ℕ}

/-! ## Trees -/

theorem Whole.raw_args_eq (h : Whole raw_args c) : c.raw_args_ = raw_args := by
  cases h with
  | mk _ hraw _ => exact hraw

theorem Whole.of_find? (h : Whole raw_args c)
    (hfind : c.commands_allowed_.find? (·.1 = s) = some (name, command)) :
    Whole raw_args command := by
  cases h with
  | mk _ _ hcommands => exact hcommands _ (List.mem_of_find?_eq_some hfind)

theorem Whole.congr (h : Whole raw_args c) (hsame : SameButArgs c c') : Whole raw_args c' := by
  cases h with
  | mk _ hraw hcommands =>
    refine .mk c' (hsame.raw_args_.trans hraw) ?_
    rw [hsame.commands_allowed_]
    exact hcommands

/-- A sub-command that has none of its own is given the arguments. -/
theorem Whole.add (h : Whole raw_args c) {cmd : CommandLineCommand}
    (hcmd : cmd.commands_allowed_ = []) : Whole raw_args (CommandLineCommand.add cmd c) := by
  cases h with
  | mk _ hraw hcommands =>
    refine .mk _ hraw fun p hp => ?_
    rcases List.mem_cons.mp hp with rfl | hp
    · refine .mk _ hraw ?_
      rw [hcmd]
      exact fun q hq => absurd hq List.not_mem_nil
    · exact hcommands p (List.mem_of_mem_filter hp)

/-! ## Every argument is read once -/

/-- **Every argument is read once**, where all the commands have the same arguments. The position
that a sub-command returns is the end then. -/
theorem parse_eq_readArgs (h : Whole raw_args c) (hn : raw_args.length - i < n) :
    c.parse n i = some ((readArgs (raw_args.drop i) c).map
      (Except.map fun _ => raw_args.length) id) := by
  induction n generalizing i c with
  | zero => exact absurd hn (Nat.not_lt_zero _)
  | succ n ih =>
    have hraw := h.raw_args_eq
    -- An iteration for every argument, and one to find the end.
    rcases Nat.lt_or_ge i raw_args.length with hlt | hge
    · have hget : c.raw_args_[i]? = some raw_args[i] := by
        rw [hraw]
        exact List.getElem?_eq_getElem hlt
      have hdrop := List.drop_eq_getElem_cons hlt
      generalize raw_args[i] = s at hget hdrop
      have hnext : raw_args.length - (i + 1) < n := by omega
      rw [parse, hget, hdrop]
      dsimp only
      rw [readArgs]
      by_cases hs : s = []
      · rw [if_pos hs, if_pos hs]
        exact ih h hnext
      rw [if_neg hs, if_neg hs]
      by_cases hdash : s = ['-', '-']
      · rw [if_pos hdash, if_pos hdash, parse_addRemaining (by omega), addRemaining, hraw]
        rfl
      rw [if_neg hdash, if_neg hdash]
      -- An option, the name of a sub-command, or the first argument that remains.
      cases hparse : c.parseOption s with
      | some r =>
        obtain ⟨result, c₁⟩ := r
        cases result with
        | error what => rfl
        | ok u => exact ih (h.congr (sameButArgs_parseOption hparse)) hnext
      | none =>
        cases hfind : c.commands_allowed_.find? (·.1 = s) with
        | none =>
          dsimp only
          rw [parse_addRemaining (by omega), addRemaining, hraw, hdrop]
          rfl
        | some p =>
          obtain ⟨name, command⟩ := p
          dsimp only
          rw [ih (h.of_find? hfind) hnext]
          rcases readArgs (raw_args.drop (i + 1)) command with ⟨result, command'⟩
          cases result with
          | error what => rfl
          | ok u =>
            -- The sub-command has come to the end.
            have hraw' : (c.select s command').raw_args_ = raw_args := hraw
            have hend : (c.select s command').raw_args_.length ≤ raw_args.length + 1 := by
              rw [hraw']
              exact Nat.le_succ _
            show parse n (raw_args.length + 1) (c.select s command') = _
            rw [parse_end (by omega) hend, hraw']
            rfl
    · have hend : c.raw_args_.length ≤ i := by rwa [hraw]
      rw [parse_end (Nat.succ_pos n) hend, List.drop_of_length_le hge, hraw]
      rfl

/-! ## The arguments of each command -/

theorem sameButArgs_applyOption (c : CommandLineCommand) (s : Str) :
    SameButArgs c (c.applyOption s) := by
  rw [applyOption]
  cases hparse : c.parseOption s with
  | none => exact .refl c
  | some r => exact sameButArgs_parseOption hparse

theorem sameButArgs_applyOptions (options : List Str) (c : CommandLineCommand) :
    SameButArgs c (c.applyOptions options) := by
  induction options generalizing c with
  | nil => exact .refl c
  | cons s options ih => exact (sameButArgs_applyOption c s).trans (ih _)

/-- Whether an option is known does not depend on the values. -/
theorem accepts_congr (hsame : SameButArgs c c') (s : Str) : c'.accepts s = c.accepts s := by
  have hallowed := hsame.args_allowed_
  have hunknown := hsame.unknown_args_allowed_
  rw [accepts, accepts]
  unfold parseOption
  split
  · simp only [Option.all_some, parseLong, hallowed, hunknown]
    split_ifs <;> rfl
  · rename_i s _
    cases s with
    | nil => rfl
    | cons x value =>
      have hkey : c'.argNameForKey x.toUpper = c.argNameForKey x.toUpper := by
        rw [argNameForKey, argNameForKey, hallowed]
      simp only [Option.all_some, parseShort, hkey, hunknown]
      split_ifs <;> rfl
  · rfl
  · rfl

/-- An option is read. -/
theorem readArgs_option (hs : isOption s = true) (haccepts : c.accepts s = true)
    (args : List Str) : readArgs (s :: args) c = readArgs args (c.applyOption s) := by
  rw [readArgs]
  by_cases hnil : s = []
  · rw [if_pos hnil, hnil]
    rfl
  have hdash : s ≠ ['-', '-'] := by
    rintro rfl
    exact absurd hs (by decide)
  rw [if_neg hnil, if_neg hdash, applyOption]
  rw [isOption_iff hnil hdash c] at hs
  obtain ⟨⟨result, c₁⟩, hparse⟩ := Option.isSome_iff_exists.mp hs
  rw [accepts, hparse] at haccepts
  cases result with
  | error what => cases haccepts
  | ok u => rw [hparse]; rfl

theorem readArgs_options {options : List Str}
    (hoptions : ∀ s ∈ options, isOption s = true ∧ c.accepts s = true) (args : List Str) :
    readArgs (options ++ args) c = readArgs args (c.applyOptions options) := by
  induction options generalizing c with
  | nil => rfl
  | cons s options ih =>
    obtain ⟨⟨hs, haccepts⟩, hoptions⟩ := List.forall_mem_cons.mp hoptions
    have hsame := sameButArgs_applyOption c s
    rw [List.cons_append, readArgs_option hs haccepts, ih fun s hs => ?_]
    · rfl
    · rw [accepts_congr hsame]
      exact hoptions s hs

theorem Routed.raw_args_eq (h : Routed args c path c') : c'.raw_args_ = c.raw_args_ := by
  cases h with
  | @last _ options => exact (sameButArgs_applyOptions options c).raw_args_
  | @sub _ _ _ options => exact (sameButArgs_applyOptions options c).raw_args_

/-- One option more. -/
theorem Routed.cons (hs : isOption s = true) (haccepts : c.accepts s = true)
    (h : Routed args (c.applyOption s) path c') : Routed (s :: args) c path c' := by
  have hsame := sameButArgs_applyOption c s
  -- What is accepted does not depend on the values.
  have hall {options : List Str}
      (hoptions : ∀ s' ∈ options, isOption s' = true ∧ (c.applyOption s).accepts s' = true) :
      ∀ s' ∈ s :: options, isOption s' = true ∧ c.accepts s' = true := by
    refine List.forall_mem_cons.mpr ⟨⟨hs, haccepts⟩, fun s' hs' => ?_⟩
    rw [← accepts_congr hsame]
    exact hoptions s' hs'
  cases h with
  | @last _ options rest hoptions hrest =>
    rw [hsame.commands_allowed_] at hrest
    rw [hsame.remaining_]
    exact .last (hall hoptions) hrest
  | @sub _ command command' options args path word name hoptions hword hfind hargs =>
    rw [hsame.commands_allowed_] at hfind
    exact .sub (hall hoptions) hword hfind hargs

theorem with_remaining {remaining : List Str} (h : remaining = c.remaining_) :
    { c with remaining_ := remaining } = c := by
  subst h
  cases c
  rfl

/-- No options, and no sub-command. -/
theorem routed_rest (hrest : ∀ s ∈ args.head?, isOption s = false ∧
    (s = ['-', '-'] ∨ c.commands_allowed_.find? (·.1 = s) = none)) :
    Routed args c [] { c with remaining_ := c.remaining_ ++ positional args } :=
  @Routed.last c [] args (fun _ hs => absurd hs List.not_mem_nil) hrest

theorem routed_of_readArgs (h : readArgs args c = (.ok (), c')) :
    ∃ path, Routed args c path c' := by
  induction args generalizing c c' with
  | nil =>
    obtain ⟨-, rfl⟩ := Prod.mk.inj h
    have hrest := @routed_rest c [] (by simp)
    have hremaining : c.remaining_ ++ positional [] = c.remaining_ := List.append_nil _
    rw [with_remaining hremaining] at hrest
    exact ⟨[], hrest⟩
  | cons s args ih =>
    rw [readArgs] at h
    by_cases hnil : s = []
    · rw [if_pos hnil] at h
      -- An empty argument is passed over, like an option.
      obtain ⟨path, hpath⟩ := ih h
      subst hnil
      exact ⟨path, .cons rfl rfl hpath⟩
    rw [if_neg hnil] at h
    by_cases hdash : s = ['-', '-']
    · rw [if_pos hdash] at h
      -- What comes behind the dashes remains.
      obtain ⟨-, rfl⟩ := Prod.mk.inj h
      subst hdash
      exact ⟨[], routed_rest (by simp [isOption])⟩
    rw [if_neg hdash] at h
    have hoption := isOption_iff hnil hdash c
    cases hparse : c.parseOption s with
    | some r =>
      obtain ⟨result, c₁⟩ := r
      rw [hparse] at h hoption
      cases result with
      | error what => cases (Prod.mk.inj h).1
      | ok u =>
        obtain ⟨path, hpath⟩ := ih h
        refine ⟨path, .cons hoption ?_ ?_⟩
        · rw [accepts, hparse]
          rfl
        · rwa [applyOption, hparse]
    | none =>
      rw [hparse] at h hoption
      cases hfind : c.commands_allowed_.find? (·.1 = s) with
      | none =>
        rw [hfind] at h
        obtain ⟨-, rfl⟩ := Prod.mk.inj h
        have hrest := @routed_rest c (s :: args) fun s' hs' => by
          obtain rfl := Option.some.inj hs'
          exact ⟨hoption, .inr hfind⟩
        rw [positional_cons hoption, if_neg hdash] at hrest
        exact ⟨[], hrest⟩
      | some p =>
        obtain ⟨name, command⟩ := p
        rw [hfind] at h
        dsimp only at h
        -- The sub-command is given what comes after its name.
        cases hread : readArgs args command with
        | mk result command' =>
          rw [hread] at h
          obtain ⟨rfl, rfl⟩ := Prod.mk.inj h
          obtain ⟨path, hpath⟩ := ih hread
          exact ⟨s :: path, @Routed.sub c command command' [] args path s name
            (fun _ hs => absurd hs List.not_mem_nil) ⟨hoption, hdash⟩ hfind hpath⟩

theorem readArgs_of_routed (h : Routed args c path c') : readArgs args c = (.ok (), c') := by
  induction h with
  | @last c options rest hoptions hrest =>
    have hsame := sameButArgs_applyOptions options c
    rw [readArgs_options hoptions]
    cases rest with
    | nil =>
      have hremaining : c.remaining_ ++ positional [] = (c.applyOptions options).remaining_ :=
        (List.append_nil c.remaining_).trans hsame.remaining_.symm
      rw [with_remaining hremaining]
      rfl
    | cons s rest =>
      obtain ⟨hoption, hs⟩ := hrest s rfl
      have hnil : s ≠ [] := by
        rintro rfl
        cases hoption
      rw [readArgs, if_neg hnil, positional_cons hoption, ← hsame.remaining_]
      by_cases hdash : s = ['-', '-']
      · rw [if_pos hdash, if_pos hdash]
      · have hparse : (c.applyOptions options).parseOption s = none := by
          rw [← Option.not_isSome_iff_eq_none, ← isOption_iff hnil hdash, hoption]
          exact Bool.false_ne_true
        have hfind : (c.applyOptions options).commands_allowed_.find? (·.1 = s) = none := by
          rw [hsame.commands_allowed_]
          exact hs.resolve_left hdash
        rw [if_neg hdash, if_neg hdash, hparse, hfind]
  | @sub c command command' options args path s name hoptions hword hfind hargs ih =>
    have hsame := sameButArgs_applyOptions options c
    have hnil : s ≠ [] := by
      rintro rfl
      cases hword.1
    have hparse : (c.applyOptions options).parseOption s = none := by
      rw [← Option.not_isSome_iff_eq_none, ← isOption_iff hnil hword.2, hword.1]
      exact Bool.false_ne_true
    rw [← hsame.commands_allowed_] at hfind
    rw [readArgs_options hoptions, readArgs, if_neg hnil, if_neg hword.2, hparse, hfind]
    dsimp only
    rw [ih]
    rfl

/-- The command that is selected is found again. -/
theorem find?_select {d : CommandLineCommand}
    (hfind : c.commands_allowed_.find? (·.1 = s) = some (name, d)) (command : CommandLineCommand) :
    (c.select s command).commands_allowed_.find? (·.1 = s) = some (s, command) := by
  have hkey : ∀ p : Str × CommandLineCommand,
      decide ((if p.1 = s then (s, command) else p).1 = s) = decide (p.1 = s) := by
    intro p
    split_ifs with hp <;> simp [hp]
  have hname : name = s := by simpa using List.find?_some hfind
  rw [select, List.find?_map, Function.comp_def, funext hkey, hfind, Option.map_some, if_pos hname]

section Word

variable (hword : isOption s = false ∧ s ≠ ['-', '-'])
  (hfind : c.commands_allowed_.find? (·.1 = s) = some (name, command))

include hword hfind

/-- One iteration, at a word that names a sub-command. -/
theorem parse_word (hget : c.raw_args_[i]? = some s) (n : ℕ) :
    c.parse (n + 1) i =
      match command.parse n (i + 1) with
      | none => none
      | some (.error what, command) => some (.error what, c.select s command)
      | some (.ok j, command) => (c.select s command).parse n (j + 1) := by
  have hnil : s ≠ [] := by
    rintro rfl
    cases hword.1
  have hparse : c.parseOption s = none := by
    rw [← Option.not_isSome_iff_eq_none, ← isOption_iff hnil hword.2, hword.1]
    exact Bool.false_ne_true
  rcases hsub : command.parse n (i + 1) with - | ⟨what | j, d⟩
  all_goals
    rw [parse, hget]
    dsimp only
    rw [if_neg hnil, if_neg hword.2, hparse, hfind]
    dsimp only
    rw [hsub]

variable (hstale : command.raw_args_ = [])

include hstale

/-- A sub-command without arguments returns 0, so that the command begins again. -/
theorem parse_of_stale (hget : c.raw_args_[i]? = some s) (n : ℕ) :
    c.parse (n + 1) i = (c.select s command).parse n 1 := by
  rw [parse_word hword hfind hget]
  cases n with
  | zero => rfl
  | succ n =>
    have hend : command.raw_args_.length ≤ i + 1 := by simp [hstale]
    rw [parse_end n.succ_pos hend, hstale]
    rfl

/-- Where the first argument is its name, the command comes back to it again and again. -/
theorem parse_eq_none (hget : c.raw_args_[1]? = some s) (n : ℕ) :
    c.parse n 1 = none := by
  induction n generalizing c name with
  | zero => rfl
  | succ n ih =>
    rw [parse_of_stale hword hfind hstale hget]
    exact ih (find?_select hfind command) hget

end Word

end CommandLineCommand

namespace CommandLine

open CommandLineCommand (Whole Routed readArgs)

variable {c : CommandLine} {n : ℕ}

/-- At the end of the command line, it only matters whether there are arguments. -/
theorem exists_finish {d : CommandLineCommand} (hraw : d.raw_args_ = c.raw_args_) :
    ∃ c', c.finish (.ok c.raw_args_.length, d) =
        (decide (1 < c.raw_args_.length ∨ c.no_args_allowed_ = true), c') ∧
      c'.toCommandLineCommand = d := by
  unfold finish
  dsimp only
  rw [hraw, if_neg (Nat.lt_irrefl _)]
  split_ifs with hnone
  · refine ⟨_, Prod.ext ?_ rfl, rfl⟩
    rw [eq_comm, decide_eq_false_iff_not, not_or, Nat.not_lt, Bool.not_eq_true]
    exact hnone
  · refine ⟨_, Prod.ext ?_ rfl, rfl⟩
    rw [not_and_or, Nat.not_le, Bool.not_eq_false] at hnone
    rw [eq_comm, decide_eq_true_eq]
    exact hnone

/-- **What `Parse` makes of a command line**, where each command was added to one that had the
arguments by then. It ends, and succeeds exactly where every option is known to the command it is
for, and there are arguments, or none are needed. Then each command is given its options, and the
last one that is named the arguments that remain. -/
theorem parse_routed (c : CommandLine) (n : ℕ)
    (hwhole : Whole c.raw_args_ c.toCommandLineCommand) (hn : c.raw_args_.length < n) :
    ∃ ok c', c.parse n = some (ok, c') ∧
      (ok = true ↔ (∃ path d, Routed (c.raw_args_.drop 1) c.toCommandLineCommand path d) ∧
        (1 < c.raw_args_.length ∨ c.no_args_allowed_ = true)) ∧
      (ok = true → ∃ path,
        Routed (c.raw_args_.drop 1) c.toCommandLineCommand path c'.toCommandLineCommand) := by
  have hparse := @CommandLineCommand.parse_eq_readArgs c.toCommandLineCommand
    c.raw_args_ n 1 hwhole (by omega)
  rw [parse, hparse]
  rcases hread : readArgs (c.raw_args_.drop 1) c.toCommandLineCommand with ⟨result, d⟩
  cases result with
  | error what =>
    refine ⟨_, _, rfl, ⟨fun hok => absurd hok Bool.false_ne_true, ?_⟩,
      fun hok => absurd hok Bool.false_ne_true⟩
    rintro ⟨⟨path, d', hd'⟩, -⟩
    cases (Prod.mk.inj (hread.symm.trans (CommandLineCommand.readArgs_of_routed hd'))).1
  | ok u =>
    obtain ⟨path, hpath⟩ := CommandLineCommand.routed_of_readArgs hread
    obtain ⟨c', hfinish, hcommand⟩ := exists_finish (c := c) hpath.raw_args_eq
    refine ⟨_, c', congrArg some hfinish, ?_, fun _ => ⟨path, hcommand ▸ hpath⟩⟩
    rw [decide_eq_true_eq]
    exact ⟨fun h => ⟨⟨path, d, hpath⟩, h⟩, And.right⟩

/-- `print` is a sub-command, with `--all`. -/
def printing (args : List Str) : CommandLine :=
  let print := CommandLineCommand.addArgument (fun _ => [])
    (.newBoolean "all".toList '\x00' false) { name_ := "print".toList, raw_args_ := [] }
  { allowingFoo args with
    toCommandLineCommand := .add print (allowingFoo args).toCommandLineCommand }

theorem parse_routed_printing :
    ∃ ok c', (printing ["--foo=bar".toList, "print".toList, "--all".toList, "x".toList]).parse 6
        = some (ok, c') ∧
      (ok = true ↔
        (∃ path d, Routed ["--foo=bar".toList, "print".toList, "--all".toList, "x".toList]
          (printing ["--foo=bar".toList, "print".toList, "--all".toList,
            "x".toList]).toCommandLineCommand path d) ∧
        (1 < 5 ∨ false = true)) ∧
      (ok = true → ∃ path, Routed ["--foo=bar".toList, "print".toList, "--all".toList, "x".toList]
        (printing ["--foo=bar".toList, "print".toList, "--all".toList,
          "x".toList]).toCommandLineCommand path c'.toCommandLineCommand) := by
  refine parse_routed (printing _) 6 ?_ (by decide)
  refine Whole.add (c := (allowingFoo _).toCommandLineCommand) (.mk _ rfl ?_) rfl
  exact fun p hp => absurd hp List.not_mem_nil

/-- **Where `Parse` never ends.** A sub-command that was added to a command before this was added to
the command line has no arguments; with its name twice, for the command and below it, the arguments
are read again and again. -/
theorem parse_stale {program s name name' : Str} {rest : List Str}
    {command nested : CommandLineCommand} (hargs : c.raw_args_ = program :: s :: s :: rest)
    (hword : isOption s = false ∧ s ≠ ['-', '-'])
    (hfind : c.commands_allowed_.find? (·.1 = s) = some (name, command))
    (hraw : command.raw_args_ = c.raw_args_)
    (hnested : command.commands_allowed_.find? (·.1 = s) = some (name', nested))
    (hstale : nested.raw_args_ = []) (n : ℕ) : c.parse n = none := by
  have hget : c.raw_args_[1]? = some s := by
    rw [hargs]
    rfl
  -- The nested command has no arguments and returns the start, so that it is selected again.
  have hnone (n : ℕ) : command.parse n 2 = none := by
    have hget₁ : (command.select s nested).raw_args_[1]? = some s := by
      rw [← hget, ← hraw]
      rfl
    have hget₂ : command.raw_args_[2]? = some s := by
      rw [hraw, hargs]
      rfl
    cases n with
    | zero => rfl
    | succ n =>
      rw [CommandLineCommand.parse_of_stale hword hnested hstale hget₂]
      exact CommandLineCommand.parse_eq_none hword
        (CommandLineCommand.find?_select hnested nested) hstale hget₁ n
  cases n with
  | zero => rfl
  | succ n =>
    rw [parse, CommandLineCommand.parse_word hword hfind hget, hnone]
    rfl

end CommandLine

end WwivBasic
