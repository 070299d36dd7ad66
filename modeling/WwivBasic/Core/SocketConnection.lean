import Mathlib.Data.List.Forall2
import Mathlib.Tactic.Set
import Mathlib.Tactic.SplitIfs
import WwivBasic.Core.Strings

/-!
# Socket connections

`core/socket_connection.cpp` reads from a nonblocking socket with `recv` until it has what it asks
for, the time is over, or the connection ends. What a `recv` returns depends on when the bytes of
the peer arrive, which is given here as a schedule of turns, one for each call of `recv`.

## Main definitions

* `Turn`, `SocketConnection`: a schedule, and a connection with the bytes that have arrived
* `readType`: `read_TYPE`, which all reads go through
* `receive`, `receiveUpto`, `readLine`, `send`, `sendLine`: the operations
* `SocketConnection.unread`: the bytes that have not been read, now and later
* `firstLine`: the first line of a text, of at most so many bytes

## Main results

* `runReads_unread`: over any reads, each byte is returned once and in order, unless a `receive`
  times out
* `readLine_sendLine`: lines that are sent are read as they were sent, however they are cut up on
  the way
-/

namespace WwivBasic

/-! ## The schedule -/

/-- One call of `recv`, and the time before it. -/
structure Turn where
  /-- What arrives before the call. -/
  arrived : Str
  /-- The time is over, where it is looked at before the call. -/
  late : Bool
  /-- The peer has shut the connection down. -/
  closed : Bool
  /-- The call fails, and not because it would block. -/
  failed : Bool
  deriving DecidableEq

/-- A turn that does not end a read. -/
structure Turn.Prompt (turn : Turn) : Prop where
  late : turn.late = false
  closed : turn.closed = false
  failed : turn.failed = false

/-- A turn that ends the reads: nothing comes, and the time is over or the peer has shut the
connection down. -/
structure Turn.Final (turn : Turn) : Prop where
  arrived : turn.arrived = []
  ends : turn.late = true ∨ turn.closed = true

/-- A turn in which nothing arrives. -/
def Turn.idle : Turn := ⟨[], false, false, false⟩

/-- What `recv` returns. -/
inductive Received
  | error
  | wouldBlock
  | bytes (bytes : Str)

/-- `recv` of at most `len` bytes, with the bytes that it leaves. It would block where there is
nothing to read, unless nothing is asked for. -/
def Turn.recv (turn : Turn) (len : ℕ) (buffer : Str) : Received × Str :=
  let buffer := buffer ++ turn.arrived
  if turn.failed then (.error, buffer)
  else if buffer = [] ∧ turn.closed = false ∧ 0 < len then (.wouldBlock, buffer)
  else (.bytes (buffer.take len), buffer.drop len)

/-- A turn in which nothing ends the read takes what it can. -/
theorem Turn.Prompt.recv {turn : Turn} (h : turn.Prompt) {len : ℕ} (hlen : 0 < len)
    (buffer : Str) : turn.recv len buffer =
      if buffer ++ turn.arrived = [] then (.wouldBlock, [])
      else (.bytes ((buffer ++ turn.arrived).take len), (buffer ++ turn.arrived).drop len) := by
  unfold Turn.recv
  by_cases hnil : buffer ++ turn.arrived = []
  · simp [h.failed, h.closed, hnil, hlen]
  · simp [h.failed, hnil]

theorem Turn.prompt_idle : Turn.idle.Prompt := ⟨rfl, rfl, rfl⟩

/-- The exceptions of `socket_exceptions.h` that a read may throw. -/
inductive SocketFault
  | timeout
  | closed
  deriving DecidableEq

/-- `SocketConnection`, with what has arrived at its socket and the calls of `recv` to come. -/
structure SocketConnection where
  open_ : Bool
  buffer : Str
  turns : List Turn
  deriving DecidableEq

namespace SocketConnection

/-! ## The operations -/

/-- The loop of `read_TYPE`, with the bytes that it has read. It waits where the schedule ends. -/
def readLoop (throw_on_timeout : Bool) (size : ℕ) (first : Bool) (data buffer : Str) :
    List Turn → Option (Except SocketFault Str × Str × List Turn)
  | [] => none
  | turn :: turns =>
    if !first && turn.late then
      some (if throw_on_timeout then .error .timeout else .ok data, buffer, turn :: turns)
    else
      match turn.recv (size - data.length) buffer with
      | (.error, buffer) => some (.ok data, buffer, turns)
      | (.wouldBlock, buffer) => readLoop throw_on_timeout size false data buffer turns
      | (.bytes bytes, buffer) =>
        if bytes = [] then some (.ok data, buffer, turns)
        else
          let data := data ++ bytes
          if data.length < size then readLoop throw_on_timeout size false data buffer turns
          else some (.ok data, buffer, turns)

/-- `read_TYPE`. -/
def readType (size : ℕ) (throw_on_timeout : Bool) (c : SocketConnection) :
    Option (Except SocketFault Str × SocketConnection) :=
  (readLoop throw_on_timeout size true [] c.buffer c.turns).map fun (data, buffer, turns) =>
    (data, { c with buffer := buffer, turns := turns })

/-- `receive`. -/
def receive (size : ℕ) (c : SocketConnection) :
    Option (Except SocketFault Str × SocketConnection) :=
  (readType size true c).map fun (data, c) =>
    match data with
    | .ok data => (if c.open_ ∧ data = [] then .error .closed else .ok data, c)
    | .error e => (.error e, c)

/-- `receive_upto`. -/
def receiveUpto (size : ℕ) (c : SocketConnection) :
    Option (Except SocketFault Str × SocketConnection) :=
  readType size false c

/-- The loop of `read_line`, for at most `n` more bytes. A timeout is caught. -/
def readLineLoop : ℕ → Str → SocketConnection → Option (Except SocketFault Str × SocketConnection)
  | 0, s, c => some (.ok s, c)
  | n + 1, s, c =>
    (readType 1 true c).bind fun (data, c) =>
      match data with
      | .error _ => some (.ok s, c)
      | .ok data =>
        if c.open_ = false then some (.error .closed, c)
        else
          match data with
          | [] => some (.ok s, c)
          | ch :: _ => if ch = '\n' then some (.ok (s ++ [ch]), c) else readLineLoop n (s ++ [ch]) c

/-- `read_line`: the size is compared after a byte was added. -/
def readLine (max_size : ℕ) (c : SocketConnection) :
    Option (Except SocketFault Str × SocketConnection) :=
  readLineLoop (max_size + 1) [] c

/-- `send`, where the system accepts so many bytes or fails, with the bytes that go out. A part that
is not accepted is reported and dropped. -/
def send (s : Str) (accepted : Option ℕ) (c : SocketConnection) : Except SocketFault Int × Str :=
  match accepted with
  | none => (if c.open_ then .error .closed else .ok s.length, [])
  | some sent => (.ok s.length, s.take sent)

/-- `send_line`. -/
def sendLine (s : Str) (accepted : Option ℕ) (c : SocketConnection) :
    Except SocketFault Int × Str :=
  c.send (s ++ ['\r', '\n']) accepted

/-! ## What is read -/

/-- The bytes that have not been read: those that have arrived, and those of the schedule. -/
def unread (c : SocketConnection) : Str := c.buffer ++ c.turns.flatMap Turn.arrived

/-- What `recv` does: it takes nothing, or the first of the bytes that there are. -/
theorem recv_cases (turn : Turn) (len : ℕ) (buffer : Str) :
    turn.recv len buffer = (.error, buffer ++ turn.arrived) ∨
      turn.recv len buffer = (.wouldBlock, buffer ++ turn.arrived) ∧ 0 < len ∨
      turn.recv len buffer = (.bytes ((buffer ++ turn.arrived).take len),
        (buffer ++ turn.arrived).drop len) := by
  unfold Turn.recv
  dsimp only
  split_ifs with hfailed hblock
  · exact .inl rfl
  · exact .inr (.inl ⟨rfl, hblock.2.2⟩)
  · exact .inr (.inr rfl)

/-- **The bytes of a read.** They are the first ones that had not been read, and fewer than it asks
for where it times out. -/
theorem readLoop_unread {throw_on_timeout first : Bool} {size : ℕ} {data buffer buffer' : Str}
    {turns turns' : List Turn} {r : Except SocketFault Str}
    (h : readLoop throw_on_timeout size first data buffer turns = some (r, buffer', turns'))
    (hlen : data.length ≤ size) (hfirst : first = false → data.length < size) :
    ∃ taken, buffer ++ turns.flatMap Turn.arrived =
        taken ++ (buffer' ++ turns'.flatMap Turn.arrived) ∧
      (data ++ taken).length ≤ size ∧
      (r = .ok (data ++ taken) ∨
        r = .error .timeout ∧ throw_on_timeout = true ∧ (data ++ taken).length < size) := by
  induction turns generalizing first data buffer with
  | nil => cases h
  | cons turn turns ih =>
    rw [readLoop] at h
    by_cases hlate : (!first && turn.late) = true
    · -- the time is over: what was read is given back, or lost with the timeout
      rw [if_pos hlate] at h
      have hlt : data.length < size := hfirst (by simpa using (Bool.and_eq_true_iff.mp hlate).1)
      obtain ⟨rfl, rfl, rfl⟩ : _ ∧ _ ∧ _ := by simpa using h
      refine ⟨[], rfl, by simpa using hlen, ?_⟩
      cases throw_on_timeout with
      | true => exact .inr ⟨rfl, rfl, by simpa using hlt⟩
      | false => exact .inl (by simp)
    · rw [if_neg hlate] at h
      rw [List.flatMap_cons, ← List.append_assoc]
      rcases recv_cases turn (size - data.length) buffer with hrecv | ⟨hrecv, hpos⟩ | hrecv
      · -- an error ends the read
        rw [hrecv] at h
        obtain ⟨rfl, rfl, rfl⟩ : _ ∧ _ ∧ _ := by simpa using h
        exact ⟨[], rfl, by simpa using hlen, .inl (by simp)⟩
      · -- nothing has arrived
        rw [hrecv] at h
        exact ih h hlen fun _ => by omega
      · -- bytes have arrived, or the end of the stream
        rw [hrecv] at h
        set avail := buffer ++ turn.arrived
        dsimp only at h
        have hsplit := List.take_append_drop (size - data.length) avail
        have htaken : (data ++ avail.take (size - data.length)).length ≤ size := by
          rw [List.length_append, List.length_take]
          omega
        split_ifs at h with hnil hmore
        · obtain ⟨rfl, rfl, rfl⟩ : _ ∧ _ ∧ _ := by simpa using h
          rw [hnil, List.nil_append] at hsplit
          exact ⟨[], by rw [hsplit, List.nil_append], by simpa using hlen, .inl (by simp)⟩
        · -- the read goes on with what is missing
          obtain ⟨taken, hunread, hsize, hr⟩ := ih h htaken fun _ => hmore
          refine ⟨avail.take (size - data.length) ++ taken, ?_, ?_, ?_⟩
          · rw [List.append_assoc (avail.take _), ← hunread, ← List.append_assoc (avail.take _),
              hsplit]
          · rwa [← List.append_assoc]
          · rwa [← List.append_assoc]
        · obtain ⟨rfl, rfl, rfl⟩ : _ ∧ _ ∧ _ := by simpa using h
          exact ⟨_, by rw [← List.append_assoc, hsplit], htaken, .inl rfl⟩

theorem readType_unread {throw_on_timeout : Bool} {size : ℕ} {c c' : SocketConnection}
    {r : Except SocketFault Str} (h : readType size throw_on_timeout c = some (r, c')) :
    ∃ taken, c.unread = taken ++ c'.unread ∧ taken.length ≤ size ∧ c'.open_ = c.open_ ∧
      (r = .ok taken ∨ r = .error .timeout ∧ throw_on_timeout = true ∧ taken.length < size) := by
  rw [readType, Option.map_eq_some_iff] at h
  obtain ⟨⟨r', buffer', turns'⟩, hloop, heq⟩ := h
  obtain ⟨rfl, rfl⟩ := Prod.mk.inj heq
  obtain ⟨taken, hunread, hsize, hr⟩ := readLoop_unread hloop (Nat.zero_le size) nofun
  exact ⟨taken, hunread, hsize, rfl, hr⟩

/-! ## Lines -/

/-- The first line of a text with its end, or the first `n` bytes of a longer one. -/
def firstLine : ℕ → Str → Str
  | 0, _ => []
  | _ + 1, [] => []
  | n + 1, ch :: p => if ch = '\n' then [ch] else ch :: firstLine n p

theorem length_firstLine_le (n : ℕ) (p : Str) : (firstLine n p).length ≤ n := by
  induction p generalizing n with
  | nil => cases n <;> simp [firstLine]
  | cons ch p ih =>
    cases n with
    | zero => simp [firstLine]
    | succ n =>
      rw [firstLine]
      split_ifs
      · simp
      · exact Nat.succ_le_succ (ih n)

theorem not_mem_dropLast_firstLine (n : ℕ) (p : Str) :
    '\n' ∉ (firstLine n p).dropLast := by
  induction p generalizing n with
  | nil => cases n <;> simp [firstLine]
  | cons ch p ih =>
    cases n with
    | zero => simp [firstLine]
    | succ n =>
      rw [firstLine]
      split_ifs with hch
      · simp
      · cases hrest : firstLine n p with
        | nil => simp
        | cons ch' rest =>
          rw [List.dropLast_cons_cons, List.mem_cons, not_or, ← hrest]
          exact ⟨Ne.symm hch, ih n⟩

/-- **The bytes of a line.** No byte after the end of the line is taken, and none is lost when the
time is over. -/
theorem readLineLoop_unread {n : ℕ} {s : Str} {c c' : SocketConnection}
    {r : Except SocketFault Str} (h : readLineLoop n s c = some (r, c')) (hopen : c.open_ = true) :
    ∃ taken, c.unread = taken ++ c'.unread ∧ r = .ok (s ++ taken) ∧
      taken <+: firstLine n c.unread ∧ c'.open_ = true := by
  induction n generalizing s c with
  | zero =>
    obtain ⟨rfl, rfl⟩ := Prod.mk.inj (Option.some.inj h)
    exact ⟨[], rfl, by rw [List.append_nil], List.prefix_rfl, hopen⟩
  | succ n ih =>
    rw [readLineLoop, Option.bind_eq_some_iff] at h
    obtain ⟨⟨r₁, c₁⟩, hread, hrest⟩ := h
    obtain ⟨taken, hunread, hsize, hopen₁, rfl | ⟨rfl, -, hlt⟩⟩ := readType_unread hread
    · have hnot : ¬ c₁.open_ = false := by
        rw [hopen₁, hopen]
        exact nofun
      simp only [if_neg hnot] at hrest
      -- A read of one byte gives that byte, or nothing.
      rcases taken with - | ⟨ch, rest⟩
      · obtain ⟨rfl, rfl⟩ := Prod.mk.inj (Option.some.inj hrest)
        exact ⟨[], hunread, by rw [List.append_nil], List.nil_prefix, hopen₁.trans hopen⟩
      · obtain rfl : rest = [] := List.eq_nil_of_length_eq_zero (by simpa using hsize)
        rw [hunread, List.singleton_append, firstLine]
        dsimp only at hrest
        by_cases hch : ch = '\n'
        · rw [if_pos hch] at hrest ⊢
          obtain ⟨rfl, rfl⟩ := Prod.mk.inj (Option.some.inj hrest)
          exact ⟨[ch], rfl, rfl, List.prefix_rfl, hopen₁.trans hopen⟩
        · rw [if_neg hch] at hrest ⊢
          obtain ⟨rest, hrest₁, hr, hprefix, hopen'⟩ := ih hrest (hopen₁.trans hopen)
          refine ⟨ch :: rest, by rw [hrest₁, List.cons_append], ?_,
            (List.prefix_cons_inj ch).mpr hprefix, hopen'⟩
          rw [hr, List.append_assoc, List.singleton_append]
    · -- The timeout is caught. It has taken nothing, since one byte ends the read.
      obtain ⟨rfl, rfl⟩ := Prod.mk.inj (Option.some.inj hrest)
      obtain rfl : taken = [] := List.eq_nil_of_length_eq_zero (Nat.lt_one_iff.mp hlt)
      exact ⟨[], hunread, by rw [List.append_nil], List.nil_prefix, hopen₁.trans hopen⟩

theorem readLine_unread {max_size : ℕ} {c c' : SocketConnection} {r : Except SocketFault Str}
    (h : readLine max_size c = some (r, c')) (hopen : c.open_ = true) :
    ∃ taken, c.unread = taken ++ c'.unread ∧ r = .ok taken ∧
      taken <+: firstLine (max_size + 1) c.unread ∧ c'.open_ = true :=
  readLineLoop_unread h hopen

/-! ## Reads one after the other -/

/-- A call that reads. -/
inductive ReadCall
  | line (max_size : ℕ)
  | upto (size : ℕ)
  | exactly (size : ℕ)
  deriving DecidableEq

def ReadCall.exec (c : SocketConnection) :
    ReadCall → Option (Except SocketFault Str × SocketConnection)
  | .line max_size => readLine max_size c
  | .upto size => receiveUpto size c
  | .exactly size => receive size c

/-- The calls, with what each returns. An exception of one does not keep the next one from being
made. -/
def runReads (c : SocketConnection) :
    List ReadCall → Option (List (ReadCall × Except SocketFault Str) × SocketConnection)
  | [] => some ([], c)
  | call :: calls => do
    let (r, c) ← call.exec c
    let (rs, c) ← runReads c calls
    return ((call, r) :: rs, c)

theorem runReads_append {calls calls' : List ReadCall} {c c₁ c₂ : SocketConnection}
    {results results' : List (ReadCall × Except SocketFault Str)}
    (h : runReads c calls = some (results, c₁)) (h' : runReads c₁ calls' = some (results', c₂)) :
    runReads c (calls ++ calls') = some (results ++ results', c₂) := by
  induction calls generalizing c results with
  | nil =>
    obtain ⟨rfl, rfl⟩ := Prod.mk.inj (Option.some.inj h)
    exact h'
  | cons call calls ih =>
    obtain ⟨⟨r, c'⟩, hcall, hrest⟩ := Option.bind_eq_some_iff.mp h
    obtain ⟨⟨rs, c''⟩, hcalls, heq⟩ := Option.bind_eq_some_iff.mp hrest
    obtain ⟨rfl, rfl⟩ := Prod.mk.inj (Option.some.inj heq)
    exact Option.bind_eq_some_iff.mpr ⟨_, hcall, Option.bind_eq_some_iff.mpr ⟨_, ih hcalls, rfl⟩⟩

/-- The bytes that a call has taken from the connection: those that it returns, or the few that a
`receive` had read when it timed out. -/
def ReadCall.Takes (call : ReadCall × Except SocketFault Str) (taken : Str) : Prop :=
  call.2 = .ok taken ∨ call.2 = .error .closed ∧ taken = [] ∨
    ∃ size, call = (.exactly size, .error .timeout) ∧ taken.length < size

theorem exec_unread {call : ReadCall} {c c' : SocketConnection} {r : Except SocketFault Str}
    (h : call.exec c = some (r, c')) (hopen : c.open_ = true) :
    ∃ taken, c.unread = taken ++ c'.unread ∧ ReadCall.Takes (call, r) taken ∧ c'.open_ = true := by
  cases call with
  | line max_size =>
    obtain ⟨taken, hunread, hr, -, hopen'⟩ := readLine_unread h hopen
    exact ⟨taken, hunread, .inl hr, hopen'⟩
  | upto size =>
    obtain ⟨taken, hunread, -, hopen', hr | ⟨-, hthrow, -⟩⟩ := readType_unread h
    · exact ⟨taken, hunread, .inl hr, hopen'.trans hopen⟩
    · cases hthrow
  | exactly size =>
    obtain ⟨⟨r', c₁⟩, hread, heq⟩ := Option.map_eq_some_iff.mp h
    obtain ⟨taken, hunread, -, hopen', rfl | ⟨rfl, -, hsize⟩⟩ := readType_unread hread
    · obtain ⟨rfl, rfl⟩ := Prod.mk.inj heq
      refine ⟨taken, hunread, ?_, hopen'.trans hopen⟩
      split_ifs with hempty
      · exact .inr (.inl ⟨rfl, hempty.2⟩)
      · exact .inl rfl
    · obtain ⟨rfl, rfl⟩ := Prod.mk.inj heq
      exact ⟨taken, hunread, .inr (.inr ⟨size, rfl, hsize⟩), hopen'.trans hopen⟩

/-- **Each byte is taken once, and in order**, by whatever reads one after the other, and whenever
the bytes arrive. What `read_line` and `receive_upto` take they return, also where the time is over;
only a `receive` that times out keeps what it has read. -/
theorem runReads_unread (calls : List ReadCall) (c c' : SocketConnection)
    (results : List (ReadCall × Except SocketFault Str)) (hopen : c.open_ = true)
    (h : runReads c calls = some (results, c')) :
    ∃ pieces : List Str, c.unread = pieces.flatten ++ c'.unread ∧
      List.Forall₂ ReadCall.Takes results pieces := by
  induction calls generalizing c results with
  | nil =>
    obtain ⟨rfl, rfl⟩ := Prod.mk.inj (Option.some.inj h)
    exact ⟨[], rfl, .nil⟩
  | cons call calls ih =>
    obtain ⟨⟨r, c₁⟩, hcall, hrest⟩ := Option.bind_eq_some_iff.mp h
    obtain ⟨⟨rs, c₂⟩, hcalls, heq⟩ := Option.bind_eq_some_iff.mp hrest
    obtain ⟨rfl, rfl⟩ := Prod.mk.inj (Option.some.inj heq)
    obtain ⟨taken, hunread, htakes, hopen₁⟩ := exec_unread hcall hopen
    obtain ⟨pieces, hpieces, hall⟩ := ih c₁ rs hopen₁ hcalls
    exact ⟨taken :: pieces, by rw [hunread, hpieces, List.flatten_cons, List.append_assoc],
      .cons htakes hall⟩

/-- The connection of a peer that sends `ab`, a line break and `cd`, with a pause after each part
and a longer one at the end. -/
def pausing : SocketConnection :=
  ⟨true, [], [⟨['a', 'b'], false, false, false⟩, Turn.idle, Turn.idle, ⟨['\n'], true, false, false⟩,
    ⟨['c'], false, false, false⟩, ⟨['d'], false, false, false⟩, ⟨[], true, false, false⟩]⟩

/-- The line comes in two parts, and what follows it is lost in a `receive` that times out. -/
theorem runReads_unread_pausing : ∃ pieces : List Str,
    pausing.unread = pieces.flatten ++ ({ pausing with turns := [⟨[], true, false, false⟩] } :
      SocketConnection).unread ∧
    List.Forall₂ ReadCall.Takes
      [(.line 9, .ok ['a', 'b']), (.line 9, .ok ['\n']), (.exactly 3, .error .timeout)] pieces :=
  runReads_unread [.line 9, .line 9, .exactly 3] pausing _ _ rfl rfl

/-! ## Turns that a read does not come to -/

/-- The connection with more turns to come. -/
def later (more : List Turn) (c : SocketConnection) : SocketConnection :=
  { c with turns := c.turns ++ more }

theorem readLoop_later {throw_on_timeout first : Bool} {size : ℕ} {data buffer buffer' : Str}
    {turns turns' : List Turn} {r : Except SocketFault Str}
    (h : readLoop throw_on_timeout size first data buffer turns = some (r, buffer', turns'))
    (more : List Turn) : readLoop throw_on_timeout size first data buffer (turns ++ more) =
      some (r, buffer', turns' ++ more) := by
  -- The loop looks at no turn behind the one that ends it.
  induction turns generalizing first data buffer with
  | nil => cases h
  | cons turn turns ih =>
    rw [List.cons_append, readLoop]
    rw [readLoop] at h
    by_cases hlate : (!first && turn.late) = true
    · rw [if_pos hlate] at h ⊢
      obtain ⟨rfl, rfl, rfl⟩ : _ ∧ _ ∧ _ := by simpa using h
      rfl
    · rw [if_neg hlate] at h ⊢
      rcases hrecv : turn.recv (size - data.length) buffer with ⟨received, left⟩
      rw [hrecv] at h
      cases received with
      | error =>
        obtain ⟨rfl, rfl, rfl⟩ : _ ∧ _ ∧ _ := by simpa using h
        rfl
      | wouldBlock => exact ih h
      | bytes bytes =>
        dsimp only at h ⊢
        split_ifs at h ⊢ with hnil hmore
        · obtain ⟨rfl, rfl, rfl⟩ : _ ∧ _ ∧ _ := by simpa using h
          rfl
        · exact ih h
        · obtain ⟨rfl, rfl, rfl⟩ : _ ∧ _ ∧ _ := by simpa using h
          rfl

theorem readType_later {throw_on_timeout : Bool} {size : ℕ} {c c' : SocketConnection}
    {r : Except SocketFault Str} (h : readType size throw_on_timeout c = some (r, c'))
    (more : List Turn) :
    readType size throw_on_timeout (c.later more) = some (r, c'.later more) := by
  obtain ⟨⟨r', buffer', turns'⟩, hloop, heq⟩ := Option.map_eq_some_iff.mp h
  obtain ⟨rfl, rfl⟩ := Prod.mk.inj heq
  exact Option.map_eq_some_iff.mpr ⟨_, readLoop_later hloop more, rfl⟩

theorem readLineLoop_later {n : ℕ} {s : Str} {c c' : SocketConnection}
    {r : Except SocketFault Str} (h : readLineLoop n s c = some (r, c')) (more : List Turn) :
    readLineLoop n s (c.later more) = some (r, c'.later more) := by
  induction n generalizing s c with
  | zero =>
    obtain ⟨rfl, rfl⟩ := Prod.mk.inj (Option.some.inj h)
    rfl
  | succ n ih =>
    obtain ⟨⟨r₁, c₁⟩, hread, hrest⟩ := Option.bind_eq_some_iff.mp h
    refine Option.bind_eq_some_iff.mpr ⟨_, readType_later hread more, ?_⟩
    cases r₁ with
    | error e =>
      obtain ⟨rfl, rfl⟩ := Prod.mk.inj (Option.some.inj hrest)
      rfl
    | ok data =>
      have hopen : (c₁.later more).open_ = c₁.open_ := rfl
      dsimp only at hrest ⊢
      rw [hopen]
      by_cases hclosed : c₁.open_ = false
      · rw [if_pos hclosed] at hrest ⊢
        obtain ⟨rfl, rfl⟩ := Prod.mk.inj (Option.some.inj hrest)
        rfl
      · rw [if_neg hclosed] at hrest ⊢
        cases data with
        | nil =>
          obtain ⟨rfl, rfl⟩ := Prod.mk.inj (Option.some.inj hrest)
          rfl
        | cons ch data =>
          by_cases hch : ch = '\n'
          · simp only [if_pos hch] at hrest ⊢
            obtain ⟨rfl, rfl⟩ := Prod.mk.inj (Option.some.inj hrest)
            rfl
          · simp only [if_neg hch] at hrest ⊢
            exact ih hrest


theorem exec_later {call : ReadCall} {c c' : SocketConnection} {r : Except SocketFault Str}
    (h : call.exec c = some (r, c')) (more : List Turn) :
    call.exec (c.later more) = some (r, c'.later more) := by
  cases call with
  | line max_size => exact readLineLoop_later h more
  | upto size => exact readType_later h more
  | exactly size =>
    obtain ⟨⟨r', c₁⟩, hread, heq⟩ := Option.map_eq_some_iff.mp h
    refine Option.map_eq_some_iff.mpr ⟨_, readType_later hread more, ?_⟩
    obtain ⟨rfl, rfl⟩ := Prod.mk.inj heq
    cases r' <;> rfl

theorem runReads_later {calls : List ReadCall} {c c' : SocketConnection}
    {results : List (ReadCall × Except SocketFault Str)} (h : runReads c calls = some (results, c'))
    (more : List Turn) : runReads (c.later more) calls = some (results, c'.later more) := by
  induction calls generalizing c results with
  | nil =>
    obtain ⟨rfl, rfl⟩ := Prod.mk.inj (Option.some.inj h)
    rfl
  | cons call calls ih =>
    obtain ⟨⟨r, c₁⟩, hcall, hrest⟩ := Option.bind_eq_some_iff.mp h
    obtain ⟨⟨rs, c₂⟩, hcalls, heq⟩ := Option.bind_eq_some_iff.mp hrest
    obtain ⟨rfl, rfl⟩ := Prod.mk.inj (Option.some.inj heq)
    exact Option.bind_eq_some_iff.mpr ⟨_, exec_later hcall more,
      Option.bind_eq_some_iff.mpr ⟨_, ih hcalls, rfl⟩⟩

/-! ## A peer that sends -/

/-- Nothing ends the reads but what they ask for: the connection is open, no turn is late, closed or
failed, and after the last byte has arrived there are turns for `n` more reads of a byte. -/
structure Prompt (n : ℕ) (c : SocketConnection) : Prop where
  open_ : c.open_ = true
  turns : ∃ T k, c.turns = T ++ List.replicate k Turn.idle ∧ n ≤ k ∧ ∀ turn ∈ T, turn.Prompt

/-- What a read asks for comes, whatever the parts it comes in. -/
theorem readLoop_prompt {throw_on_timeout first : Bool} {data more buffer p : Str}
    {T : List Turn} {k : ℕ} (hT : ∀ turn ∈ T, turn.Prompt) (hmore : more ≠ [])
    (hunread : buffer ++ T.flatMap Turn.arrived = more ++ p) :
    ∃ buffer' T' k', readLoop throw_on_timeout (data ++ more).length first data buffer
        (T ++ List.replicate (k + more.length) Turn.idle) =
          some (.ok (data ++ more), buffer', T' ++ List.replicate k' Turn.idle) ∧
      buffer' ++ T'.flatMap Turn.arrived = p ∧ k ≤ k' ∧ ∀ turn ∈ T', turn.Prompt := by
  have hpos {more : Str} (h : more ≠ []) : 0 < more.length := List.length_pos_of_ne_nil h
  have hleft (data more : Str) : (data ++ more).length - data.length = more.length := by simp
  induction T generalizing first data more buffer k with
  | nil =>
    rw [List.flatMap_nil, List.append_nil] at hunread
    -- All that was sent is in the buffer already.
    subst hunread
    obtain ⟨m, hm⟩ : ∃ m, more.length = m + 1 := ⟨more.length - 1, by have := hpos hmore; omega⟩
    refine ⟨p, [], k + m, ?_, List.append_nil p, Nat.le_add_right k m, nofun⟩
    rw [hm, ← Nat.add_assoc, List.nil_append, List.replicate_succ, readLoop, hleft,
      Turn.prompt_idle.recv (hpos hmore)]
    simp [Turn.idle, hmore]
  | cons turn T ih =>
    obtain ⟨hturn, hT⟩ := List.forall_mem_cons.mp hT
    rw [List.flatMap_cons, ← List.append_assoc] at hunread
    rw [List.cons_append, readLoop, hleft, hturn.recv (hpos hmore), hturn.late, Bool.and_false]
    simp only [Bool.false_eq_true, if_false]
    by_cases hnil : buffer ++ turn.arrived = []
    · -- Nothing has arrived yet.
      rw [hnil, List.nil_append] at hunread
      simp only [if_pos hnil]
      exact ih hT hmore hunread
    · simp only [if_neg hnil]
      generalize buffer ++ turn.arrived = avail at hunread hnil ⊢
      by_cases hlen : more.length ≤ avail.length
      · -- All that is asked for has arrived.
        have hmore' : avail.take more.length = more := by
          have h := congrArg (List.take more.length) hunread
          rwa [List.take_append_of_le_length hlen, List.take_left] at h
        have hp : avail.drop more.length ++ T.flatMap Turn.arrived = p := by
          have h := congrArg (List.drop more.length) hunread
          rwa [List.drop_append_of_le_length hlen, List.drop_left] at h
        rw [hmore', if_neg hmore, if_neg (Nat.lt_irrefl _)]
        exact ⟨_, T, k + more.length, rfl, hp, Nat.le_add_right .., hT⟩
      · -- A part of it has arrived, and the read goes on with the rest.
        have hle : avail.length ≤ more.length := Nat.le_of_not_le hlen
        obtain ⟨rest, rfl⟩ : avail <+: more :=
          List.prefix_of_prefix_length_le ⟨_, hunread⟩ ⟨p, rfl⟩ hle
        have hrest : rest ≠ [] := by
          rintro rfl
          simp at hlen
        rw [List.append_assoc avail rest, List.append_cancel_left_eq] at hunread
        have hsize : data ++ (avail ++ rest) = (data ++ avail) ++ rest := by
          rw [List.append_assoc]
        have hfuel : k + (avail ++ rest).length = (k + avail.length) + rest.length := by
          rw [List.length_append, Nat.add_assoc]
        have hlt : (data ++ avail).length < (data ++ (avail ++ rest)).length := by
          have := hpos hrest
          simp
          omega
        obtain ⟨buffer', T', k', hloop, hp, hk, hT'⟩ :=
          @ih false (data ++ avail) rest [] (k + avail.length) hT hrest hunread
        rw [List.take_of_length_le hle, if_neg hnil, if_pos hlt, List.drop_of_length_le hle, hfuel,
          hsize]
        exact ⟨buffer', T', k', hloop, hp, by omega, hT'⟩

/-- So many bytes are read. -/
theorem readType_prompt {n : ℕ} {c : SocketConnection} {data p : Str}
    (hc : c.Prompt (n + data.length)) (hdata : data ≠ []) (hunread : c.unread = data ++ p)
    (throw_on_timeout : Bool) :
    ∃ c', readType data.length throw_on_timeout c = some (.ok data, c') ∧
      c'.unread = p ∧ c'.Prompt n := by
  have hidle (k : ℕ) : (List.replicate k Turn.idle).flatMap Turn.arrived = [] := by
    simp [Turn.idle]
  obtain ⟨hopen, T, k, hturns, hk, hT⟩ := hc
  obtain ⟨k, rfl⟩ : ∃ m, k = m + data.length := ⟨k - data.length, by omega⟩
  rw [unread, hturns, List.flatMap_append, hidle, List.append_nil] at hunread
  obtain ⟨buffer', T', k', hloop, hrest, hk', hT'⟩ :=
    @readLoop_prompt throw_on_timeout true [] _ _ _ _ k hT hdata hunread
  refine ⟨{ c with buffer := buffer', turns := T' ++ List.replicate k' Turn.idle }, ?_, ?_,
    hopen, T', k', rfl, by omega, hT'⟩
  · rw [List.nil_append] at hloop
    rw [readType, hturns, hloop]
    rfl
  · rw [unread, List.flatMap_append, hidle, List.append_nil, hrest]

theorem readByte_prompt {n : ℕ} {c : SocketConnection} {ch : Char} {p : Str}
    (hc : c.Prompt (n + 1)) (hunread : c.unread = ch :: p) :
    ∃ c', readType 1 true c = some (.ok [ch], c') ∧ c'.unread = p ∧ c'.Prompt n :=
  @readType_prompt n c [ch] p hc (List.cons_ne_nil _ _) hunread true

/-- A whole line is read. -/
theorem readLineLoop_prompt {n m : ℕ} {c : SocketConnection} {t p s : Str}
    (hc : c.Prompt (m + (t.length + 1))) (ht : '\n' ∉ t) (hn : t.length < n)
    (hunread : c.unread = t ++ '\n' :: p) :
    ∃ c', readLineLoop n s c = some (.ok (s ++ t ++ ['\n']), c') ∧ c'.unread = p ∧
      c'.Prompt m := by
  induction t generalizing n s c with
  | nil =>
    obtain ⟨n, rfl⟩ : ∃ k, n = k + 1 := ⟨n - 1, by omega⟩
    obtain ⟨c', hread, hp, hc'⟩ := readByte_prompt hc hunread
    refine ⟨c', ?_, hp, hc'⟩
    rw [readLineLoop, hread]
    simp [hc'.open_]
  | cons ch t ih =>
    obtain ⟨n, rfl⟩ : ∃ k, n = k + 1 := ⟨n - 1, by omega⟩
    rw [List.mem_cons, not_or] at ht
    obtain ⟨c₁, hread, hp, hc₁⟩ := readByte_prompt hc hunread
    obtain ⟨c', hline, hrest⟩ := @ih n c₁ (s ++ [ch]) hc₁ ht.2 (Nat.lt_of_succ_lt_succ hn) hp
    refine ⟨c', ?_, hrest⟩
    rw [readLineLoop, hread]
    simp [hc₁.open_, Ne.symm ht.1, hline]

/-- Lines one after the other, and what comes after them. -/
theorem runReads_lines {max_size n : ℕ} {texts : List Str} {p : Str} {c : SocketConnection}
    (hnewline : ∀ t ∈ texts, '\n' ∉ t) (hsize : ∀ t ∈ texts, t.length + 2 ≤ max_size + 1)
    (hunread : c.unread = (texts.flatMap fun t => t ++ ['\r', '\n']) ++ p)
    (hprompt : c.Prompt (n + (texts.flatMap fun t => t ++ ['\r', '\n']).length)) :
    ∃ c', runReads c (texts.map fun _ => .line max_size) =
      some (texts.map fun t => (.line max_size, .ok (t ++ ['\r', '\n'])), c') ∧
        c'.unread = p ∧ c'.Prompt n := by
  induction texts generalizing c with
  | nil => exact ⟨c, rfl, hunread, hprompt⟩
  | cons t texts ih =>
    obtain ⟨hnewline, hnewline'⟩ := List.forall_mem_cons.mp hnewline
    obtain ⟨hsize, hsize'⟩ := List.forall_mem_cons.mp hsize
    rw [List.flatMap_cons] at hunread hprompt
    generalize (texts.flatMap fun t => t ++ ['\r', '\n']) = rest at ih hunread hprompt
    -- Up to its newline, a line is its text and the carriage return.
    have hline : c.unread = (t ++ ['\r']) ++ '\n' :: (rest ++ p) := by simpa using hunread
    have hlen : n + (t ++ ['\r', '\n'] ++ rest).length =
        n + rest.length + ((t ++ ['\r']).length + 1) := by
      simp
      omega
    rw [hlen] at hprompt
    obtain ⟨c₁, hread, hunread₁, hprompt₁⟩ := @readLineLoop_prompt (max_size + 1) _ _ _ _ []
      hprompt (by simpa using hnewline) (by simp; omega) hline
    obtain ⟨c', hreads, hrest⟩ := ih hnewline' hsize' hunread₁ hprompt₁
    refine ⟨c', ?_, hrest⟩
    have hexec : (ReadCall.line max_size).exec c = some (.ok (t ++ ['\r', '\n']), c₁) := by
      rw [ReadCall.exec, readLine, hread]
      simp
    rw [List.map_cons, runReads, hexec]
    show (runReads c₁ _ >>= _) = _
    rw [hreads]
    rfl

/-- **Lines that are sent are read as they were sent**, in order and once each, however the bytes
are cut up on the way and however long they take: where the system accepts each line whole, none is
longer than what `read_line` reads, and no time is over. -/
theorem readLine_sendLine (max_size : ℕ) (texts : List Str) (accepted : Str → ℕ)
    (sender c : SocketConnection) (hnewline : ∀ t ∈ texts, '\n' ∉ t)
    (hsize : ∀ t ∈ texts, t.length + 2 ≤ max_size + 1)
    (haccepted : ∀ t ∈ texts, t.length + 2 ≤ accepted t)
    (hunread : c.unread = texts.flatMap fun t => (sender.sendLine t (some (accepted t))).2)
    (hprompt : c.Prompt c.unread.length) :
    ∃ c', runReads c (texts.map fun _ => .line max_size) =
      some (texts.map fun t => (.line max_size, .ok (t ++ ['\r', '\n'])), c') ∧
        c'.unread = [] := by
  have hsent : (texts.flatMap fun t => (sender.sendLine t (some (accepted t))).2) =
      texts.flatMap fun t => t ++ ['\r', '\n'] := by
    refine List.flatMap_congr fun t ht => List.take_of_length_le ?_
    simpa using haccepted t ht
  rw [hsent] at hunread
  obtain ⟨c', hreads, hnil, -⟩ := @runReads_lines max_size 0 texts [] c hnewline hsize
    (by rw [hunread, List.append_nil]) (by rwa [Nat.zero_add, ← hunread])
  exact ⟨c', hreads, hnil⟩

theorem readLine_sendLine_fragments :
    let c : SocketConnection := ⟨true, ['h'], [⟨['i', '\r'], false, false, false⟩, Turn.idle,
      ⟨['\n', 'x', '\r', '\n'], false, false, false⟩] ++ List.replicate 7 Turn.idle⟩
    ∃ c', runReads c [.line 1024, .line 1024] = some ([(.line 1024, .ok ['h', 'i', '\r', '\n']),
      (.line 1024, .ok ['x', '\r', '\n'])], c') ∧ c'.unread = [] :=
  readLine_sendLine 1024 [['h', 'i'], ['x']] (fun t => t.length + 2) ⟨true, [], []⟩ _
    (by decide) (by decide) (by decide) rfl
    ⟨rfl, _, 7, rfl, by decide, fun turn hturn => by
      simp only [List.mem_cons, List.not_mem_nil, or_false] at hturn
      rcases hturn with rfl | rfl | rfl <;> exact ⟨rfl, rfl, rfl⟩⟩

/-! ## The end of what is sent -/

theorem readLoop_final {size : ℕ} {first : Bool} {T : List Turn} {last : Turn} (hsize : 0 < size)
    (hT : ∀ turn ∈ T, turn.Prompt) (hnone : T.flatMap Turn.arrived = []) (hlast : Turn.Final last)
    (hfirst : T = [] → first = false) :
    ∃ r turns', readLoop true size first [] [] (T ++ [last]) = some (r, [], turns') ∧
      (r = .ok [] ∨ r = .error .timeout) ∧ turns'.flatMap Turn.arrived = [] := by
  induction T generalizing first with
  | nil =>
    obtain rfl := hfirst rfl
    rw [List.nil_append, readLoop]
    -- The last turn is late, or it fails, or it finds the stream ended.
    by_cases hlate : last.late = true
    · exact ⟨.error .timeout, [last], by simp [hlate], .inr rfl, by simp [hlast.arrived]⟩
    · have hclosed := hlast.ends.resolve_left hlate
      by_cases hfailed : last.failed = true
      · exact ⟨.ok [], [], by simp [Turn.recv, hlate, hlast.arrived, hfailed], .inl rfl, rfl⟩
      · exact ⟨.ok [], [], by simp [Turn.recv, hlate, hlast.arrived, hclosed, hfailed], .inl rfl,
          rfl⟩
  | cons turn T ih =>
    obtain ⟨hturn, hT⟩ := List.forall_mem_cons.mp hT
    rw [List.flatMap_cons, List.append_eq_nil_iff] at hnone
    obtain ⟨r, turns', hloop, hrest⟩ := @ih false hT hnone.2 fun _ => rfl
    refine ⟨r, turns', ?_, hrest⟩
    rw [List.cons_append, readLoop, List.length_nil, Nat.sub_zero, hturn.recv hsize, hnone.1,
      hturn.late]
    simpa using hloop

theorem readLine_final {max_size n : ℕ} {c : SocketConnection} {last : Turn}
    (hc : c.Prompt (n + 1)) (hunread : c.unread = []) (hlast : Turn.Final last) :
    ∃ c', readLine max_size (c.later [last]) = some (.ok [], c') ∧ c'.unread = [] := by
  obtain ⟨hopen, T, k, hturns, hk, hT⟩ := hc
  rw [unread, List.append_eq_nil_iff] at hunread
  have hprompt : ∀ turn ∈ c.turns, turn.Prompt := by
    intro turn hturn
    rw [hturns, List.mem_append, List.mem_replicate] at hturn
    rcases hturn with hturn | ⟨-, rfl⟩
    · exact hT turn hturn
    · exact Turn.prompt_idle
  -- There is a turn before the last one, so that the last one can be late.
  have hsome : c.turns ≠ [] := by
    rw [hturns]
    refine List.append_ne_nil_of_right_ne_nil _ ?_
    rw [Ne, List.replicate_eq_nil_iff]
    omega
  obtain ⟨r, turns', hloop, hr, hnone⟩ :=
    @readLoop_final 1 true _ _ Nat.one_pos hprompt hunread.2 hlast fun h => absurd h hsome
  have hread : readType 1 true (c.later [last]) =
      some (r, { c with buffer := [], turns := turns' }) := by
    rw [readType, later, hunread.1, hloop]
    rfl
  refine ⟨{ c with buffer := [], turns := turns' }, ?_, by rw [unread, hnone]; rfl⟩
  rw [readLine, readLineLoop, hread]
  rcases hr with rfl | rfl
  · simp [hopen]
  · rfl

end SocketConnection

end WwivBasic
