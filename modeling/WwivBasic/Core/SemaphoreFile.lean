import Mathlib.Tactic.SplitIfs
import WwivBasic.Core.Strings
import WwivBasic.Foundations.Ownership

/-!
# Semaphore files

`core/semaphore_file.cpp` holds a semaphore by a file: `try_acquire` creates it with `O_EXCL`, which
fails while it is there, and tries again until the time is over; the destructor closes and removes
it. Each call of the system is a step of its own here, and the steps of any number of activities,
in any processes, come in any order. A process may be killed at any of them. An object that was
moved from still has its path and its descriptor, and its destructor removes the file: what holds
here holds of runs without moves.

## Main definitions

* `SemaphoreFile`, `Activity`: a semaphore that is held, and where an activity is in the code
* `Semaphores.step`, `Semaphores.run`: one call of the system, and calls one after the other
* `Activity.held`: the path whose file an activity has created and not removed

## Main results

* `run_exclusive`: no two activities hold one semaphore at a time, while none is moved
* `exists_two_owners`: after a move two of them can
* `acquirable_iff`: when an activity that waits can get the semaphore
-/

namespace WwivBasic

/-! ## The code -/

/-- `SemaphoreFile`. Its path is `const`. -/
structure SemaphoreFile (P : Type) where
  path_ : P
  fd_ : Int

/-- Where an activity is, from the call of `try_acquire` to the end of the destructor. -/
inductive Activity (P : Type)
  | idle
  /-- At the top of the loop. -/
  | attempt (filepath : P) (text : Str) (end_ : Option ℕ)
  /-- The file could not be created. -/
  | failed (filepath : P) (text : Str) (end_ : Option ℕ)
  /-- The file is created, and the text not yet written. -/
  | opened (filepath : P) (text : Str) (fd : Int)
  /-- `try_acquire` has returned, after it was given the text. -/
  | acquired (file : SemaphoreFile P) (text : Str)
  /-- The destructor has closed the file. -/
  | closed (file : SemaphoreFile P)
  /-- `File::Remove` has seen the file. -/
  | found (file : SemaphoreFile P)
  /-- `semaphore_not_acquired` -/
  | thrown (filepath : P)
  /-- The activity has ended, and may have left a file behind. -/
  | gone (left : Option P)

/-- The path whose file an activity has created and not removed. -/
def Activity.held {P : Type} : Activity P → Option P
  | .opened filepath _ _ => some filepath
  | .acquired file _ | .closed file | .found file => some file.path_
  | .gone left => left
  | .idle | .attempt .. | .failed .. | .thrown _ => none

/-- An activity that has not ended holds the semaphore. -/
def Activity.Owns {P : Type} (p : P) (a : Activity P) : Prop :=
  a.held = some p ∧ ∀ left, a ≠ .gone left

/-- The descriptor is one that `open` has returned, and the file of a semaphore holds the text of
the call that acquired it, or a first part of it. -/
def Activity.Sound {P : Type} (files : P → Option Str) : Activity P → Prop
  | .opened _ _ fd => 0 ≤ fd
  | .acquired file text =>
    0 ≤ file.fd_ ∧ ∃ n, files file.path_ = some (text.take n)
  | _ => True

/-- The files, the activities and the clock. -/
structure Semaphores (P ι : Type) where
  now : ℕ
  files : P → Option Str
  activity : ι → Activity P

/-- A call of the system by an activity, or what happens to it. -/
inductive SemaphoreEvent (P ι : Type)
  | tick
  /-- `try_acquire`, or `acquire` where there is no timeout. -/
  | call (i : ι) (filepath : P) (text : Str) (timeout : Option ℕ)
  /-- `open` with `O_CREAT | O_EXCL`, which may also fail for another reason. -/
  | open_ (i : ι) (fd : Option ℕ)
  | write (i : ι) (written : ℕ)
  /-- The clock is looked at. -/
  | look (i : ι)
  /-- `SemaphoreFile(SemaphoreFile&&)`, of the object of the first activity. -/
  | move (i j : ι)
  /-- `close` -/
  | destroy (i : ι)
  /-- `File::Exists` -/
  | exists_ (i : ι)
  /-- `std::filesystem::remove`, and whether it does. -/
  | remove (i : ι) (removed : Bool)
  | kill (i : ι)

/-- The event is the move of an object. -/
def SemaphoreEvent.isMove {P ι : Type} : SemaphoreEvent P ι → Bool
  | .move _ _ => true
  | _ => false

namespace Semaphores

section Operations

variable {P ι : Type} [DecidableEq P] [DecidableEq ι]

/-- The activity is somewhere else. -/
def goto (s : Semaphores P ι) (i : ι) (a : Activity P) : Semaphores P ι :=
  { s with activity := Function.update s.activity i a }

/-- One call. There is no such call where the activity is not at it. -/
def step (s : Semaphores P ι) : SemaphoreEvent P ι → Option (Semaphores P ι)
  | .tick => some { s with now := s.now + 1 }
  | .call i filepath text timeout =>
    match s.activity i with
    | .idle => some (s.goto i (.attempt filepath text (timeout.map (s.now + ·))))
    | _ => none
  | .open_ i fd =>
    match s.activity i with
    | .attempt filepath text end_ =>
      match fd, s.files filepath with
      | some fd, none =>
        some ({ s with files := Function.update s.files filepath (some []) }.goto i
          (.opened filepath text fd))
      | _, _ => some (s.goto i (.failed filepath text end_))
    | _ => none
  | .write i written =>
    match s.activity i with
    | .opened filepath text fd =>
      let file := (s.files filepath).map fun _ => text.take written
      some ({ s with files := Function.update s.files filepath file }.goto i
        (.acquired ⟨filepath, fd⟩ text))
    | _ => none
  | .look i =>
    match s.activity i with
    | .failed filepath text end_ =>
      some (s.goto i (if end_.any (· < s.now) then .thrown filepath
        else .attempt filepath text end_))
    | _ => none
  | .move i j =>
    match s.activity i, s.activity j with
    -- The path is copied, since it is `const`, and so is the descriptor.
    | .acquired file text, .idle => some (s.goto j (.acquired file text))
    | _, _ => none
  | .destroy i =>
    match s.activity i with
    | .acquired file _ =>
      some (s.goto i (if file.fd_ < 0 then .gone (some file.path_) else .closed file))
    | _ => none
  | .exists_ i =>
    match s.activity i with
    | .closed file =>
      some (s.goto i (if (s.files file.path_).isSome then .found file else .gone none))
    | _ => none
  | .remove i removed =>
    match s.activity i with
    | .found file =>
      if removed then
        some ({ s with files := Function.update s.files file.path_ none }.goto i (.gone none))
      else some (s.goto i (.gone (some file.path_)))
    | _ => none
  | .kill i =>
    match s.activity i with
    | .idle => none
    | a => some (s.goto i (.gone a.held))

/-- Calls one after the other. -/
def run (s : Semaphores P ι) : List (SemaphoreEvent P ι) → Option (Semaphores P ι)
  | [] => some s
  | e :: events => (s.step e).bind fun s => s.run events

end Operations

/-! ## What a call does -/

open Ownership

variable {P ι : Type} {s s' : Semaphores P ι} {stale : P → Prop}

/-- What each activity holds. -/
def held (s : Semaphores P ι) (i : ι) : Option P := (s.activity i).held

/-- The file is there. -/
def taken (s : Semaphores P ι) (p : P) : Prop := (s.files p).isSome

theorem held_eq {i : ι} {a : Activity P} (h : s.activity i = a) : s.held i = a.held :=
  congrArg Activity.held h

/-- What an activity and the files become by a call, for what is held and the files that are there:
nothing changes, or a file is created, or one is given up that is not there then. -/
inductive Change (s : Semaphores P ι) (i : ι) (files : P → Option Str) (a : Activity P) : Prop
  | keep (ha : a.held = s.held i) (htaken : ∀ q, (files q).isSome ↔ s.taken q)
  | acquire (p : P) (hi : s.held i = none) (hp : ¬ s.taken p) (ha : a.held = some p)
    (htaken : ∀ q, (files q).isSome ↔ q = p ∨ s.taken q)
  | release (p : P) (hi : s.held i = some p) (ha : a.held = none)
    (htaken : ∀ q, (files q).isSome ↔ q ≠ p ∧ s.taken q)

variable [DecidableEq ι]

/-- **What a call does** that moves no object. The clock ticks, or one activity goes on, and changes
no file but the one that it holds or creates. -/
inductive Steps (s : Semaphores P ι) : Semaphores P ι → Prop
  | tick : Steps s { s with now := s.now + 1 }
  | goto {i : ι} {files : P → Option Str} {a : Activity P} (hchange : Change s i files a)
    (hfiles : ∀ q, files q = s.files q ∨ s.held i = some q ∨ ¬ s.taken q)
    (hsound : (s.activity i).Sound s.files → (∀ q, s.held i = some q → s.taken q) → a.Sound files)
    (hgone : ∀ left, s.activity i = .gone left → a = .gone left) :
    Steps s ({ s with files := files }.goto i a)

/-- An activity goes on that changes no file. -/
theorem Steps.walk {i : ι} {a a' : Activity P} (hi : s.activity i = a) (ha : a'.held = a.held)
    (hsound : a.Sound s.files → a'.Sound s.files)
    (hgone : ∀ left, a = .gone left → a' = .gone left) :
    Steps s (s.goto i a') := by
  refine .goto (.keep (ha.trans (held_eq hi).symm) fun _ => Iff.rfl) (fun _ => .inl rfl) ?_ ?_
  · rw [hi]
    exact fun h _ => hsound h
  · rwa [hi]

variable [DecidableEq P]

theorem steps_of_step {e : SemaphoreEvent P ι} (he : e.isMove = false) (h : s.step e = some s') :
    Steps s s' := by
  cases e with
  | tick =>
    obtain rfl := Option.some.inj h
    exact .tick
  | call i filepath text timeout =>
    cases hi : s.activity i with
    | idle =>
      simp only [step, hi, Option.some.injEq] at h
      exact h ▸ .walk hi rfl (fun _ => trivial) nofun
    | _ => simp [step, hi] at h
  | open_ i fd =>
    cases hi : s.activity i with
    | attempt filepath text end_ =>
      cases fd with
      | none =>
        simp only [step, hi, Option.some.injEq] at h
        exact h ▸ .walk hi rfl (fun _ => trivial) nofun
      | some fd =>
        cases hfile : s.files filepath with
        | some file =>
          simp only [step, hi, hfile, Option.some.injEq] at h
          exact h ▸ .walk hi rfl (fun _ => trivial) nofun
        | none =>
          simp only [step, hi, hfile, Option.some.injEq] at h
          -- The file is created, so that it was not there.
          have hfree : ¬ s.taken filepath := by simp [taken, hfile]
          refine h ▸ .goto (.acquire filepath (held_eq hi) hfree rfl fun q => ?_) (fun q => ?_)
            (fun _ _ => Int.natCast_nonneg fd) (by rw [hi]; exact nofun)
          · by_cases hq : q = filepath <;> simp [taken, hq]
          · by_cases hq : q = filepath
            · exact .inr (.inr (hq ▸ hfree))
            · exact .inl (Function.update_of_ne hq ..)
    | _ => simp [step, hi] at h
  | write i written =>
    cases hi : s.activity i with
    | opened filepath text fd =>
      simp only [step, hi, Option.some.injEq] at h
      -- The text goes to the file that is held.
      refine h ▸ .goto (.keep (held_eq hi).symm fun q => ?_) (fun q => ?_) (fun hfd htaken => ?_)
        (by rw [hi]; exact nofun)
      · by_cases hq : q = filepath <;> simp [taken, hq]
      · by_cases hq : q = filepath
        · exact .inr (.inl (hq ▸ held_eq hi))
        · exact .inl (Function.update_of_ne hq ..)
      · rw [hi] at hfd
        refine ⟨hfd, ?_⟩
        obtain ⟨file, hfile⟩ := Option.isSome_iff_exists.mp (htaken filepath (held_eq hi))
        exact ⟨written, by rw [Function.update_self, hfile]; rfl⟩
    | _ => simp [step, hi] at h
  | look i =>
    cases hi : s.activity i with
    | failed filepath text end_ =>
      simp only [step, hi, Option.some.injEq] at h
      refine h ▸ .walk hi ?_ (fun _ => ?_) nofun
      · split_ifs <;> rfl
      · split_ifs <;> trivial
    | _ => simp [step, hi] at h
  | move i j => cases he
  | destroy i =>
    cases hi : s.activity i with
    | acquired file text =>
      simp only [step, hi, Option.some.injEq] at h
      refine h ▸ .walk hi ?_ (fun _ => ?_) nofun
      · split_ifs <;> rfl
      · split_ifs <;> trivial
    | _ => simp [step, hi] at h
  | exists_ i =>
    cases hi : s.activity i with
    | closed file =>
      simp only [step, hi, Option.some.injEq] at h
      by_cases hfile : (s.files file.path_).isSome
      · rw [if_pos hfile] at h
        exact h ▸ .walk hi rfl (fun _ => trivial) nofun
      · rw [if_neg hfile] at h
        -- The file is not there, so that nothing is left of it.
        refine h ▸ .goto (.release file.path_ (held_eq hi) rfl fun q => ?_) (fun _ => .inl rfl)
          (fun _ _ => trivial) (by rw [hi]; exact nofun)
        refine ⟨fun hq => ⟨?_, hq⟩, fun hq => hq.2⟩
        rintro rfl
        exact hfile hq
    | _ => simp [step, hi] at h
  | remove i removed =>
    cases hi : s.activity i with
    | found file =>
      cases removed with
      | false =>
        simp only [step, hi, Bool.false_eq_true, if_false, Option.some.injEq] at h
        exact h ▸ .walk hi rfl (fun _ => trivial) nofun
      | true =>
        simp only [step, hi, if_true, Option.some.injEq] at h
        -- The file that is held is removed.
        refine h ▸ .goto (.release file.path_ (held_eq hi) rfl fun q => ?_) (fun q => ?_)
          (fun _ _ => trivial) (by rw [hi]; exact nofun)
        · by_cases hq : q = file.path_ <;> simp [taken, hq]
        · by_cases hq : q = file.path_
          · exact .inr (.inl (hq ▸ held_eq hi))
          · exact .inl (Function.update_of_ne hq ..)
    | _ => simp [step, hi] at h
  | kill i =>
    cases hi : s.activity i with
    | idle => simp [step, hi] at h
    | gone left =>
      simp only [step, hi, Option.some.injEq] at h
      exact h ▸ .walk hi rfl (fun _ => trivial) fun left' hleft => hleft
    | _ =>
      simp only [step, hi, Option.some.injEq] at h
      exact h ▸ .walk hi rfl (fun _ => trivial) nofun

/-! ## What is kept -/

omit [DecidableEq P] in
theorem held_goto (s : Semaphores P ι) (i : ι) (a : Activity P) :
    (s.goto i a).held = Function.update s.held i a.held :=
  funext fun j => Function.apply_update (fun _ => Activity.held) s.activity i a j

/-- The files that were there at the beginning stay, and the others are held by one activity each,
that is at work in a sound way. -/
structure Valid (stale : P → Prop) (s : Semaphores P ι) : Prop where
  accounts : Accounts stale s.held s.taken
  sound : ∀ i, (s.activity i).Sound s.files

namespace Valid

variable (hs : Valid stale s)

include hs

omit [DecidableEq ι] [DecidableEq P] in
theorem taken_of_held {i : ι} {p : P} (hi : s.held i = some p) : s.taken p :=
  (hs.accounts.taken_iff p).mpr (.inr ⟨i, hi⟩)

omit [DecidableEq P] in
theorem accounts_steps (h : Steps s s') : Accounts stale s'.held s'.taken := by
  cases h with
  | tick => exact hs.accounts
  | @goto i files a hchange =>
    have hheld := held_goto { s with files := files } i a
    cases hchange with
    | keep ha htaken =>
      refine hs.accounts.congr (fun j => ?_) htaken
      rw [hheld, ha]
      exact congrFun (Function.update_eq_self i s.held) j
    | acquire p hi hp ha htaken =>
      rw [hheld, ha]
      exact hs.accounts.acquire hi hp htaken
    | release p hi ha htaken =>
      rw [hheld, ha]
      exact hs.accounts.release hi htaken

omit [DecidableEq P] in
theorem sound_steps (h : Steps s s') (k : ι) : (s'.activity k).Sound s'.files := by
  have hk := hs.sound k
  cases h with
  | tick => exact hk
  | @goto i files a _ hfiles hsound =>
    show (Function.update s.activity i a k).Sound files
    by_cases hki : k = i
    · rw [hki, Function.update_self]
      exact hsound (hs.sound i) fun _ => hs.taken_of_held
    · rw [Function.update_of_ne hki]
      -- The file of another activity is not changed.
      cases hact : s.activity k with
      | acquired file text =>
        rw [hact] at hk
        refine ⟨hk.1, ?_⟩
        have hheld : s.held k = some file.path_ := held_eq hact
        rcases hfiles file.path_ with heq | hi | hp
        · rw [heq]
          exact hk.2
        · exact absurd (hs.accounts.unique k i _ hheld hi) hki
        · exact absurd (hs.taken_of_held hheld) hp
      | opened filepath text fd => rwa [hact] at hk
      | _ => trivial

theorem step {e : SemaphoreEvent P ι} (he : e.isMove = false) (h : s.step e = some s') :
    Valid stale s' :=
  ⟨hs.accounts_steps (steps_of_step he h), hs.sound_steps (steps_of_step he h)⟩

theorem run {events : List (SemaphoreEvent P ι)} (hmove : ∀ e ∈ events, e.isMove = false)
    (h : s.run events = some s') : Valid stale s' := by
  induction events generalizing s with
  | nil =>
    obtain rfl := Option.some.inj h
    exact hs
  | cons e events ih =>
    rw [List.forall_mem_cons] at hmove
    obtain ⟨s₁, hstep, hrun⟩ := Option.bind_eq_some_iff.mp h
    exact ih (hs.step hmove.1 hstep) hmove.2 hrun

end Valid

omit [DecidableEq ι] [DecidableEq P] in
/-- Before any activity begins, the files that are there are stale. -/
theorem valid_idle (h : ∀ i, s.activity i = .idle) : Valid s.taken s := by
  have hheld (i : ι) : s.held i = none := held_eq (h i)
  refine ⟨⟨fun i j p hi => ?_, fun p => ?_, fun i p hi => ?_⟩, fun i => ?_⟩
  · rw [hheld] at hi
    cases hi
  · simp [hheld]
  · rw [hheld] at hi
    cases hi
  · rw [h]
    trivial

/-- **One semaphore, one holder.** In whatever order the calls of the activities come, also where
some are killed, while no object is moved: no two activities hold one semaphore, a file is there
exactly when it was there at the beginning or an activity holds it or has left it behind, and the
file of a semaphore that is held has the text of its holder, or a first part of it. -/
theorem run_exclusive (s s' : Semaphores P ι) (events : List (SemaphoreEvent P ι))
    (hidle : ∀ i, s.activity i = .idle) (hmove : ∀ e ∈ events, e.isMove = false)
    (h : s.run events = some s') :
    (∀ p i j, (s'.activity i).Owns p → (s'.activity j).Owns p → i = j) ∧
      (∀ p, (s'.files p).isSome ↔
        (s.files p).isSome ∨ ∃ i, (s'.activity i).Owns p ∨ s'.activity i = .gone (some p)) ∧
      ∀ i file text, s'.activity i = .acquired file text →
        ∃ n, s'.files file.path_ = some (text.take n) := by
  have hs : Valid s.taken s' := (valid_idle hidle).run hmove h
  refine ⟨fun p i j hi hj => hs.accounts.unique i j p hi.1 hj.1, fun p => ?_, ?_⟩
  · refine (hs.accounts.taken_iff p).trans (or_congr_right (exists_congr fun i => ?_))
    constructor
    · intro hheld
      -- What was held by an activity that is gone is left behind.
      by_cases hgone : ∃ left, s'.activity i = .gone left
      · obtain ⟨left, hleft⟩ := hgone
        obtain rfl : left = some p := (held_eq hleft).symm.trans hheld
        exact .inr hleft
      · exact .inl ⟨hheld, not_exists.mp hgone⟩
    · rintro (howns | hgone)
      · exact howns.1
      · exact held_eq hgone
  · intro i file text hi
    have hsound := hs.sound i
    rw [hi] at hsound
    exact hsound.2

/-- The first activity is killed while it holds the semaphore that the second waits for. -/
def killedHolder : List (SemaphoreEvent Str ℕ) :=
  [.call 0 ['x'] ['a', 'b'] (some 5), .call 1 ['x'] ['c'] none, .open_ 0 (some 3),
    .open_ 1 (some 4), .write 0 1, .look 1, .kill 0]

theorem run_exclusive_killedHolder : ∃ s' : Semaphores Str ℕ,
    run ⟨0, fun _ => none, fun _ => .idle⟩ killedHolder = some s' ∧
      (∀ p i j, (s'.activity i).Owns p → (s'.activity j).Owns p → i = j) ∧
      (∀ p, (s'.files p).isSome ↔
        (none : Option Str).isSome ∨ ∃ i, (s'.activity i).Owns p ∨ s'.activity i = .gone (some p)) ∧
      ∀ i file text, s'.activity i = .acquired file text →
        ∃ n, s'.files file.path_ = some (text.take n) :=
  ⟨_, rfl, run_exclusive ⟨0, fun _ => none, fun _ => .idle⟩ _ killedHolder (fun _ => rfl)
    (by decide) rfl⟩

/-! ## Objects that are moved -/

/-- **A move breaks it.** From any state in which the file of a semaphore that is held is there, its
object can be moved, the one that was moved from destroyed, and the semaphore acquired by whoever
waits for it, while the object that was moved to still holds it. -/
theorem exists_two_owners {i j k : ι} {file : SemaphoreFile P} {text text' : Str}
    {end_ : Option ℕ} (hi : s.activity i = .acquired file text) (hfd : 0 ≤ file.fd_)
    (hfile : (s.files file.path_).isSome) (hj : s.activity j = .idle)
    (hk : s.activity k = .attempt file.path_ text' end_) : ∃ s',
      s.run [.move i j, .destroy i, .exists_ i, .remove i true, .open_ k (some 0)] = some s' ∧
        (s'.activity j).Owns file.path_ ∧ (s'.activity k).Owns file.path_ := by
  have hji : j ≠ i := by
    rintro rfl
    rw [hi] at hj
    cases hj
  have hki : k ≠ i := by
    rintro rfl
    rw [hi] at hk
    cases hk
  have hkj : k ≠ j := by
    rintro rfl
    rw [hj] at hk
    cases hk
  refine ⟨_, by
    simp only [run, step, goto, hi, hj, hk, Function.update_self, Function.update_of_ne hki,
      Function.update_of_ne hkj, Function.update_of_ne hji.symm, Option.bind_some,
      if_neg (Int.not_lt.mpr hfd), if_pos hfile, if_true]
    rfl, ?_, ?_⟩
  · dsimp only
    rw [Function.update_of_ne hkj.symm, Function.update_of_ne hji, Function.update_of_ne hji,
      Function.update_of_ne hji, Function.update_self]
    exact ⟨rfl, nofun⟩
  · dsimp only
    rw [Function.update_self]
    exact ⟨rfl, nofun⟩

/-! ## Waiting for a semaphore -/

omit [DecidableEq P] in
theorem gone_steps (h : Steps s s') {k : ι} {left : Option P} (hk : s.activity k = .gone left) :
    s'.activity k = .gone left := by
  cases h with
  | tick => exact hk
  | @goto i files a _ _ _ hgone =>
    show Function.update s.activity i a k = _
    by_cases hki : k = i
    · subst hki
      rw [Function.update_self]
      exact hgone left hk
    · rwa [Function.update_of_ne hki]

theorem gone_run {events : List (SemaphoreEvent P ι)} (hmove : ∀ e ∈ events, e.isMove = false)
    (h : s.run events = some s') {k : ι} {left : Option P} (hk : s.activity k = .gone left) :
    s'.activity k = .gone left := by
  induction events generalizing s with
  | nil =>
    obtain rfl := Option.some.inj h
    exact hk
  | cons e events ih =>
    rw [List.forall_mem_cons] at hmove
    obtain ⟨s₁, hstep, hrun⟩ := Option.bind_eq_some_iff.mp h
    exact ih hmove.2 hrun (gone_steps (steps_of_step hmove.1 hstep) hk)

theorem run_append {events more : List (SemaphoreEvent P ι)} {s₁ : Semaphores P ι}
    (h : s.run events = some s₁) (h' : s₁.run more = some s') :
    s.run (events ++ more) = some s' := by
  induction events generalizing s with
  | nil =>
    obtain rfl := Option.some.inj h
    exact h'
  | cons e events ih =>
    obtain ⟨s₂, hstep, hrun⟩ := Option.bind_eq_some_iff.mp h
    exact Option.bind_eq_some_iff.mpr ⟨s₂, hstep, ih hrun⟩

/-- Some calls, after which the file is not there, and the activity `i` is where it was. -/
def Frees (i : ι) (p : P) (s : Semaphores P ι) : Prop :=
  ∃ events s', (∀ e ∈ events, e.isMove = false) ∧ s.run events = some s' ∧ s'.files p = none ∧
    s'.activity i = s.activity i

theorem Frees.cons {i : ι} {p : P} {e : SemaphoreEvent P ι} (he : e.isMove = false)
    (h : s.step e = some s') (hi : s'.activity i = s.activity i) (hfrees : Frees i p s') :
    Frees i p s := by
  obtain ⟨events, s₁, hmove, hrun, hfile, hact⟩ := hfrees
  exact ⟨e :: events, s₁, List.forall_mem_cons.mpr ⟨he, hmove⟩,
    Option.bind_eq_some_iff.mpr ⟨s', h, hrun⟩, hfile, hact.trans hi⟩

section Frees

variable {i j : ι} {p : P} (hij : i ≠ j)

include hij

theorem frees_found {file : SemaphoreFile P} (hj : s.activity j = .found file) :
    Frees i file.path_ s := by
  refine ⟨[.remove j true], _, by simp [SemaphoreEvent.isMove],
    by simp only [run, step, hj, if_true]; rfl, ?_, ?_⟩
  · exact Function.update_self ..
  · exact Function.update_of_ne hij ..

theorem frees_closed {file : SemaphoreFile P} (hs : Valid stale s)
    (hj : s.activity j = .closed file) : Frees i file.path_ s := by
  have hfile : (s.files file.path_).isSome := hs.taken_of_held (held_eq hj)
  have hstep : s.step (.exists_ j) = some (s.goto j (.found file)) := by
    simp only [step, hj, if_pos hfile]
  refine .cons rfl hstep (Function.update_of_ne hij ..) ?_
  exact frees_found hij (Function.update_self ..)

theorem frees_acquired {file : SemaphoreFile P} {text : Str} (hs : Valid stale s)
    (hj : s.activity j = .acquired file text) : Frees i file.path_ s := by
  have hfd : ¬ file.fd_ < 0 := by
    have hsound := hs.sound j
    rw [hj] at hsound
    exact Int.not_lt.mpr hsound.1
  have hstep : s.step (.destroy j) = some (s.goto j (.closed file)) := by
    simp only [step, hj, if_neg hfd]
  refine .cons rfl hstep (Function.update_of_ne hij ..) ?_
  exact frees_closed hij (hs.step rfl hstep) (Function.update_self ..)

theorem frees_opened {text : Str} {fd : Int} (hs : Valid stale s)
    (hj : s.activity j = .opened p text fd) : Frees i p s := by
  have hstep : s.step (.write j 0) = some ({ s with
      files := Function.update s.files p ((s.files p).map fun _ => text.take 0) }.goto j
        (.acquired ⟨p, fd⟩ text)) := by
    simp only [step, hj]
  refine .cons rfl hstep (Function.update_of_ne hij ..) ?_
  exact frees_acquired hij (hs.step rfl hstep) (Function.update_self ..)

/-- Whoever holds a semaphore can give it up. -/
theorem frees_of_held (hs : Valid stale s) (hheld : s.held j = some p)
    (hgone : s.activity j ≠ .gone (some p)) : Frees i p s := by
  cases hj : s.activity j with
  | opened filepath text fd =>
    obtain rfl : filepath = p := Option.some.inj ((held_eq hj).symm.trans hheld)
    exact frees_opened hij hs hj
  | acquired file text =>
    obtain rfl : file.path_ = p := Option.some.inj ((held_eq hj).symm.trans hheld)
    exact frees_acquired hij hs hj
  | closed file =>
    obtain rfl : file.path_ = p := Option.some.inj ((held_eq hj).symm.trans hheld)
    exact frees_closed hij hs hj
  | found file =>
    obtain rfl : file.path_ = p := Option.some.inj ((held_eq hj).symm.trans hheld)
    exact frees_found hij hj
  | gone left =>
    obtain rfl : left = some p := (held_eq hj).symm.trans hheld
    exact absurd hj hgone
  | _ =>
    rw [held_eq hj] at hheld
    cases hheld

end Frees

/-- **Who waits can get in.** From any state that is reached, while no object is moved, calls can
follow after which an activity that waits for a semaphore holds it, exactly when its file was not
there at the beginning, and nobody has left it behind: a process that is killed between the
creation of the file and its removal keeps everybody out for ever. -/
theorem acquirable_iff (s s' : Semaphores P ι) (events : List (SemaphoreEvent P ι))
    (hidle : ∀ i, s.activity i = .idle) (hmove : ∀ e ∈ events, e.isMove = false)
    (h : s.run events = some s') (i : ι) (p : P) (text : Str) (end_ : Option ℕ)
    (hi : s'.activity i = .attempt p text end_) :
    (∃ more s'', (∀ e ∈ more, e.isMove = false) ∧ s'.run more = some s'' ∧
        (s''.activity i).Owns p) ↔
      s.files p = none ∧ ∀ j, s'.activity j ≠ .gone (some p) := by
  have hs : Valid s.taken s' := (valid_idle hidle).run hmove h
  constructor
  · -- a file that was there before, or is left behind, stays
    rintro ⟨more, s'', hmore, hrun, hheld, hnot⟩
    have hs'' := hs.run hmore hrun
    refine ⟨?_, fun j hj => ?_⟩
    · exact Option.not_isSome_iff_eq_none.mp (hs''.accounts.not_stale i p hheld)
    · have hgone := gone_run hmore hrun hj
      obtain rfl := hs''.accounts.unique i j p hheld (held_eq hgone)
      exact hnot _ hgone
  · rintro ⟨hfile, hnot⟩
    -- The holder gives the semaphore up, where there is one.
    have hfrees : Frees i p s' := by
      by_cases hholder : ∃ j, s'.held j = some p
      · obtain ⟨j, hj⟩ := hholder
        have hij : i ≠ j := by
          rintro rfl
          rw [held_eq hi] at hj
          cases hj
        exact frees_of_held hij hs hj (hnot j)
      · have htaken : ¬ s'.taken p := by
          rw [hs.accounts.taken_iff, not_or]
          exact ⟨by simp [taken, hfile], hholder⟩
        exact ⟨[], s', nofun, rfl, Option.not_isSome_iff_eq_none.mp htaken, rfl⟩
    obtain ⟨more, s₁, hmore, hrun, hfree, hact⟩ := hfrees
    rw [hi] at hact
    -- Then the file can be created.
    have hopen : s₁.run [.open_ i (some 0)] =
        some ({ s₁ with files := Function.update s₁.files p (some []) }.goto i
          (.opened p text 0)) := by
      simp only [run, step, hact, hfree]
      rfl
    refine ⟨more ++ [.open_ i (some 0)], _, ?_, run_append hrun hopen, ?_⟩
    · exact List.forall_mem_append.mpr ⟨hmore, by simp [SemaphoreEvent.isMove]⟩
    show (Function.update s₁.activity i _ i).Owns p
    rw [Function.update_self]
    exact ⟨rfl, nofun⟩

theorem acquirable_iff_killedHolder : ∃ s' : Semaphores Str ℕ,
    run ⟨0, fun _ => none, fun _ => .idle⟩ killedHolder = some s' ∧
      ((∃ more s'', (∀ e ∈ more, e.isMove = false) ∧ s'.run more = some s'' ∧
          (s''.activity 1).Owns ['x']) ↔
        (none : Option Str) = none ∧ ∀ j, s'.activity j ≠ .gone (some ['x'])) :=
  ⟨_, rfl, acquirable_iff ⟨0, fun _ => none, fun _ => .idle⟩ _ killedHolder (fun _ => rfl)
    (by decide) rfl 1 ['x'] ['c'] none rfl⟩

end Semaphores

end WwivBasic
