import WwivBasic.Core.Parser.Lexer
import WwivBasic.Foundations.RunLogic

/-!
# The lexer on its cursor

`core/parser/lexer.cpp` once more, with what `Lexer` leaves out: the iterator `it_` that five
functions move, and loops that may not end. A cursor that would leave the text stops a run.
`Lexer` is what the runs compute.

## Main definitions

* `Stop`: what ends a run
* `State`, `Scan`: the cursor and the tokens, and the runs on them
* `comment`, `string`, `character`, `word`, `iterate`, `construct`: the functions of the source
* `Reaches`: the states at the head of the constructor's loop

## Main results

* `mirrors_iterate`, `mirrors_construct`: `Lexer.step` and `Lexer.ofSource` are what is computed
* `construct_spec`: where the cursor goes, and where the tokens stand
-/

namespace WwivBasic.Parser.Cursor

open EStateM (Mirrors)

/-- What ends a run of the constructor before it returns. -/
inductive Stop
  /-- A `fmt::format_error` is thrown. -/
  | thrown (e : FormatError)
  /-- The end iterator is dereferenced or advanced. -/
  | endIterator
  /-- The start iterator is moved back. -/
  | startIterator
  /-- A loop has not ended within its bound. -/
  | outOfFuel

/-- The cursor, as an index of `source_`, and what is filled in. -/
structure State where
  it_ : ℕ
  lexer : Lexer

/-- A run of the constructor. -/
abbrev Scan := EStateM Stop State

section Scan

variable (source : Str) (fuel : ℕ)

/-! ## The cursor -/

/-- `it_ == end`. -/
def atEnd : Scan Bool := return (← get).it_ = source.length

/-- `it_ == start`. -/
def atStart : Scan Bool := return (← get).it_ = 0

/-- `*it_`. -/
def current : Scan Char := do
  match source[(← get).it_]? with
  | some c => return c
  | none => throw .endIterator

/-- `++it_`. -/
def advance : Scan Unit := do
  if (← get).it_ < source.length then modify fun σ => { σ with it_ := σ.it_ + 1 }
  else throw .endIterator

/-- `--it_`. -/
def putBack : Scan Unit := do
  if (← get).it_ = 0 then throw .startIterator
  else modify fun σ => { σ with it_ := σ.it_ - 1 }

/-- `it_ + 1 == end`. -/
def nextAtEnd : Scan Bool := do
  if (← get).it_ < source.length then return (← get).it_ + 1 = source.length
  else throw .endIterator

/-- `peek(it_, end)`. -/
def peek : Scan (Option Char) := do
  if ← atEnd source then return none
  else if ← nextAtEnd source then return none
  else
    match source[(← get).it_ + 1]? with
    | some c => return some c
    | none => throw .endIterator

/-- `emit`. -/
def emit (t : TokenType) (lexeme : Str) : Scan Unit :=
  modify fun σ => { σ with lexer := σ.lexer.emit t lexeme σ.it_ }

/-- `error`. -/
def error (message : Str) : Scan Unit :=
  modify fun σ => { σ with lexer := σ.lexer.error message σ.it_ }

/-! ## The functions of the lexer -/

/-- `comment()`. -/
def comment : ℕ → Str → Scan Unit
  | 0, _ => throw .outOfFuel
  | n + 1, tx => do
    if ← atEnd source then return
    else
      let c ← current source
      if c = '*' ∧ (← peek source) = some '/' then
        advance source
        emit .comment tx
      else
        advance source
        comment n (tx ++ [c])

/-- `string()`. -/
def string : ℕ → Str → Scan Unit
  | 0, _ => throw .outOfFuel
  | n + 1, tx => do
    if ← atEnd source then
      if tx = [] then return else error "EOF before end of string".toList
    else
      let c ← current source
      if c = '"' then emit .string tx
      else
        advance source
        string n (tx ++ [c])

/-- `character()`. -/
def character : ℕ → Str → Scan Unit
  | 0, _ => throw .outOfFuel
  | n + 1, tx => do
    if ← atEnd source then
      if tx = [] then return else error "EOF before end of character".toList
    else
      let c ← current source
      if c = '\'' then
        if tx.length = 1 then emit .character tx else throw (.thrown .argumentNotFound)
      else
        advance source
        character n (tx ++ [c])

/-- What `identifier()` and `number()` share. -/
def word (p : Char → Bool) (t : TokenType) : ℕ → Str → Scan Unit
  | 0, _ => throw .outOfFuel
  | n + 1, tx => do
    if ← atEnd source then
      if tx = [] then return else emit t tx
    else
      let c ← current source
      if p c then
        advance source
        word p t n (tx ++ [c])
      else
        unless ← atStart do putBack
        emit t tx

/-- `identifier()`. -/
def identifier : Scan Unit := word source Lexer.isIdentifier .identifier fuel []

/-- `number()`. -/
def number : Scan Unit := word source Char.isDigit .number fuel []

/-- A character that makes a token of its own, or another one with the character after it. -/
def pair (second : Char) (both single : TokenType) : Scan Unit := do
  if (← peek source) = some second then
    emit both []
    advance source
  else emit single []

/-- A character that is an error on its own, and makes a token when it is doubled. -/
def double (c : Char) (t : TokenType) (message : Str) : Scan Unit := do
  if (← peek source) = some c then
    emit t []
    advance source
  else error message

/-- A slash, which begins a comment when a star follows it. -/
def slash : Scan Unit := do
  if (← peek source) = some '*' then
    advance source
    advance source
    comment source fuel []
  else emit .div []

/-- The `switch`, at the character `c`. -/
def dispatch (c : Char) : Scan Unit :=
  if c = '(' then emit .lparen []
  else if c = ')' then emit .rparen []
  else if c = '=' then pair source '=' .eq .assign
  else if c = '!' then pair source '=' .ne .negate
  else if c = '>' then pair source '=' .ge .gt
  else if c = '<' then pair source '=' .le .lt
  else if c = '+' then emit .add []
  else if c = '-' then emit .sub []
  else if c = '*' then emit .mul []
  else if c = '/' then slash source fuel
  else if c = '\'' then do
    advance source
    character source fuel []
  else if c = '"' then do
    advance source
    string source fuel []
  else if c = ';' then emit .semicolon []
  else if c = '&' then double source '&' .logicalAnd Lexer.andText
  else if c = '|' then double source '|' .logicalOr Lexer.orText
  else if Lexer.isWs c then return
  else if c.isAlpha then identifier source fuel
  else if c.isDigit then number source fuel
  else return

/-- `if (it_ == end) break; ++it_;` After the `break` the loop's condition does not hold either. -/
def next : Scan Unit := do
  if ← atEnd source then return
  else advance source

/-- One iteration of the loop. -/
def iterate : Scan Unit := do
  dispatch source fuel (← current source)
  next source

/-- The loop, for fewer than `n` iterations. -/
def runFrom : ℕ → Scan Unit
  | 0 => throw .outOfFuel
  | n + 1 => do
    if ← atEnd source then return
    else
      iterate source fuel
      runFrom n

/-- `Lexer(source)`, with each loop held to the bound. -/
def construct : EStateM.Result Stop State Unit := runFrom source fuel fuel ⟨0, {}⟩

/-- The states at the head of the loop. -/
inductive Reaches : State → Prop
  | start : Reaches ⟨0, {}⟩
  | step {σ σ' : State} : Reaches σ → σ.it_ ≠ source.length →
      iterate source fuel σ = .ok ⟨⟩ σ' → Reaches σ'

end Scan

/-- The field `pos` of a token, an `int`. -/
def intPos (t : Token) : Int := castInt t.pos

variable {source s tx : Str} {c : Char} {l : Lexer} {pos n fuel : ℕ} {σ : State}

/-! ## At a place of the text -/

/-- The text goes on with `s` at `pos`. -/
structure At (source : Str) (pos : ℕ) (s : Str) : Prop where
  drop_eq : source.drop pos = s
  le : pos ≤ source.length

namespace At

theorem zero (source : Str) : At source 0 source := ⟨rfl, Nat.zero_le _⟩

theorem add_length (h : At source pos s) : pos + s.length = source.length := by
  rw [← h.drop_eq, List.length_drop]
  exact Nat.add_sub_of_le h.le

theorem pos_eq (h : At source pos []) : pos = source.length := h.add_length

theorem lt (h : At source pos (c :: s)) : pos < source.length := by
  rw [← h.add_length, List.length_cons]
  omega

theorem getElem? (h : At source pos (c :: s)) : source[pos]? = some c := by
  rw [← List.head?_drop, h.drop_eq, List.head?_cons]

theorem tail (h : At source pos (c :: s)) : At source (pos + 1) s where
  drop_eq := by rw [← List.drop_drop, h.drop_eq, List.drop_succ_cons, List.drop_zero]
  le := h.lt

theorem getElem?_succ (h : At source pos (c :: s)) : source[pos + 1]? = s.head? := by
  rw [← List.head?_drop, h.tail.drop_eq]

theorem ne_nil_iff (h : At source pos s) : s ≠ [] ↔ pos ≠ source.length := by
  rw [← h.add_length, ← List.length_pos_iff]
  omega

end At

theorem atEnd_nil (h : At source pos []) : atEnd source ⟨pos, l⟩ = .ok true ⟨pos, l⟩ := by
  show EStateM.Result.ok (decide (pos = source.length)) _ = _
  rw [decide_eq_true h.pos_eq]

theorem atEnd_cons (h : At source pos (c :: s)) :
    atEnd source ⟨pos, l⟩ = .ok false ⟨pos, l⟩ := by
  show EStateM.Result.ok (decide (pos = source.length)) _ = _
  rw [decide_eq_false h.lt.ne]

theorem current_cons (h : At source pos (c :: s)) :
    current source ⟨pos, l⟩ = .ok c ⟨pos, l⟩ := by
  show (match source[pos]? with
    | some c => return c
    | none => throw .endIterator : Scan Char) _ = _
  rw [h.getElem?]
  rfl

theorem advance_cons (h : At source pos (c :: s)) :
    advance source ⟨pos, l⟩ = .ok () ⟨pos + 1, l⟩ := by
  show (if pos < source.length then modify fun σ => { σ with it_ := σ.it_ + 1 }
    else throw .endIterator : Scan Unit) _ = _
  rw [if_pos h.lt]
  rfl

theorem peek_cons (h : At source pos (c :: s)) :
    peek source ⟨pos, l⟩ = .ok s.head? ⟨pos, l⟩ := by
  have hnext : nextAtEnd source ⟨pos, l⟩ = .ok (decide (pos + 1 = source.length)) ⟨pos, l⟩ := by
    show (if pos < source.length then return (← get).it_ + 1 = source.length
      else throw .endIterator : Scan Bool) _ = _
    rw [if_pos h.lt]
    rfl
  rw [peek, EStateM.bind_of_ok (atEnd_cons h), if_neg Bool.false_ne_true,
    EStateM.bind_of_ok hnext]
  cases s with
  | nil =>
    rw [if_pos (decide_eq_true h.tail.pos_eq)]
    rfl
  | cons d s =>
    rw [if_neg (by simpa using h.tail.lt.ne)]
    show (match source[pos + 1]? with
      | some c => return some c
      | none => throw .endIterator : Scan (Option Char)) _ = _
    rw [h.getElem?_succ]
    rfl

/-- The head of a loop, at the end of the text. -/
theorem loop_nil {a b : Scan Unit} (h : At source pos []) :
    (do if ← atEnd source then a else b : Scan Unit) ⟨pos, l⟩ = a ⟨pos, l⟩ := by
  rw [EStateM.bind_of_ok (atEnd_nil h), if_pos rfl]

/-- The head of a loop, at a character. -/
theorem loop_cons {a : Scan Unit} {b : Char → Scan Unit} (h : At source pos (c :: s)) :
    (do if ← atEnd source then a else b (← current source) : Scan Unit) ⟨pos, l⟩ =
      b c ⟨pos, l⟩ := by
  rw [EStateM.bind_of_ok (atEnd_cons h), if_neg Bool.false_ne_true,
    EStateM.bind_of_ok (current_cons h)]

theorem emit_eq (t : TokenType) (lexeme : Str) :
    emit t lexeme ⟨pos, l⟩ = .ok () ⟨pos, l.emit t lexeme pos⟩ := rfl

/-- From where a function leaves the cursor, the end of the iteration goes to where `Lexer` says. -/
def Lands (source : Str) (p : Lexer × ℕ × Str) (_ : Unit) (σ : State) : Prop :=
  next source σ = .ok ⟨⟩ ⟨p.2.1, p.1⟩ ∧ At source p.2.1 p.2.2

theorem lands_nil (h : At source pos []) : Lands source (l, pos, []) ⟨⟩ ⟨pos, l⟩ :=
  ⟨EStateM.bind_of_ok (atEnd_nil h), h⟩

theorem lands_cons (h : At source pos (c :: s)) : Lands source (l, pos + 1, s) ⟨⟩ ⟨pos, l⟩ :=
  ⟨(EStateM.bind_of_ok (atEnd_cons h)).trans (advance_cons h), h.tail⟩

/-! ## The functions -/

theorem mirrors_comment (h : At source pos s) (hn : s.length < n) :
    Mirrors Stop.thrown (Lands source) (.ok (Lexer.comment l tx pos s))
      (comment source n tx ⟨pos, l⟩) := by
  induction s generalizing n tx pos with
  | nil =>
    obtain ⟨n, rfl⟩ := Nat.exists_eq_add_one.mpr hn
    rw [comment, loop_nil h]
    exact .ok (lands_nil h)
  | cons c s ih =>
    obtain ⟨n, rfl⟩ := Nat.exists_eq_add_one.mpr (Nat.zero_lt_of_lt hn)
    rw [comment, loop_cons h, EStateM.bind_of_ok (peek_cons h), Lexer.comment]
    by_cases hend : c = '*' ∧ s.head? = some '/'
    · obtain ⟨s, rfl⟩ := List.head?_eq_some_iff.mp hend.2
      rw [if_pos hend, if_pos hend, EStateM.bind_of_ok (advance_cons h)]
      exact .ok (lands_cons h.tail)
    · rw [if_neg hend, if_neg hend, EStateM.bind_of_ok (advance_cons h)]
      exact ih h.tail (Nat.lt_of_succ_lt_succ hn)

/-- What a string and a character report that do not end. -/
theorem mirrors_open (message : Str) (h : At source pos []) :
    Mirrors Stop.thrown (Lands source) (.ok (if tx = [] then l else l.error message pos, pos, []))
      ((if tx = [] then return else error message : Scan Unit) ⟨pos, l⟩) := by
  by_cases htx : tx = []
  · rw [if_pos htx, if_pos htx]
    exact .ok (lands_nil h)
  · rw [if_neg htx, if_neg htx]
    exact .ok (lands_nil h)

theorem mirrors_string (h : At source pos s) (hn : s.length < n) :
    Mirrors Stop.thrown (Lands source) (.ok (Lexer.string l tx pos s))
      (string source n tx ⟨pos, l⟩) := by
  induction s generalizing n tx pos with
  | nil =>
    obtain ⟨n, rfl⟩ := Nat.exists_eq_add_one.mpr hn
    rw [string, loop_nil h, Lexer.string]
    exact mirrors_open _ h
  | cons c s ih =>
    obtain ⟨n, rfl⟩ := Nat.exists_eq_add_one.mpr (Nat.zero_lt_of_lt hn)
    rw [string, loop_cons h, Lexer.string]
    by_cases hend : c = '"'
    · rw [if_pos hend, if_pos hend]
      exact .ok (lands_cons h)
    · rw [if_neg hend, if_neg hend, EStateM.bind_of_ok (advance_cons h)]
      exact ih h.tail (Nat.lt_of_succ_lt_succ hn)

theorem mirrors_character (h : At source pos s) (hn : s.length < n) :
    Mirrors Stop.thrown (Lands source) (Lexer.character l tx pos s)
      (character source n tx ⟨pos, l⟩) := by
  induction s generalizing n tx pos with
  | nil =>
    obtain ⟨n, rfl⟩ := Nat.exists_eq_add_one.mpr hn
    rw [character, loop_nil h, Lexer.character]
    exact mirrors_open _ h
  | cons c s ih =>
    obtain ⟨n, rfl⟩ := Nat.exists_eq_add_one.mpr (Nat.zero_lt_of_lt hn)
    rw [character, loop_cons h, Lexer.character]
    by_cases hend : c = '\''
    · rw [if_pos hend, if_pos hend]
      by_cases hlen : tx.length = 1
      · rw [if_pos hlen, if_pos hlen]
        exact .ok (lands_cons h)
      · rw [if_neg hlen, if_neg hlen]
        exact .error
    · rw [if_neg hend, if_neg hend, EStateM.bind_of_ok (advance_cons h)]
      exact ih h.tail (Nat.lt_of_succ_lt_succ hn)

/-- After the character `d` of the run, to which the cursor goes back from the end of the run. -/
theorem mirrors_word {p : Char → Bool} {t : TokenType} {d : Char} (h : At source pos (d :: s))
    (htx : tx ≠ []) (hn : s.length < n) :
    Mirrors Stop.thrown (Lands source) (.ok (Lexer.word p t l tx (pos + 1) s))
      (word source p t n tx ⟨pos + 1, l⟩) := by
  induction s generalizing n tx pos d with
  | nil =>
    obtain ⟨n, rfl⟩ := Nat.exists_eq_add_one.mpr hn
    rw [word, loop_nil h.tail, Lexer.word, if_neg htx, if_neg htx]
    exact .ok (lands_nil h.tail)
  | cons c s ih =>
    obtain ⟨n, rfl⟩ := Nat.exists_eq_add_one.mpr (Nat.zero_lt_of_lt hn)
    rw [word, loop_cons h.tail, Lexer.word]
    by_cases hc : p c = true
    · rw [if_pos hc, if_pos hc, EStateM.bind_of_ok (advance_cons h.tail)]
      exact ih h.tail (List.append_ne_nil_of_right_ne_nil _ (List.cons_ne_nil _ _))
        (Nat.lt_of_succ_lt_succ hn)
    · rw [if_neg hc, if_neg hc]
      exact .ok (lands_cons h)

theorem mirrors_word_nil {p : Char → Bool} {t : TokenType} (h : At source pos (c :: s))
    (hc : p c = true) (hn : (c :: s).length < n) :
    Mirrors Stop.thrown (Lands source) (.ok (Lexer.word p t l [] pos (c :: s)))
      (word source p t n [] ⟨pos, l⟩) := by
  obtain ⟨n, rfl⟩ := Nat.exists_eq_add_one.mpr (Nat.zero_lt_of_lt hn)
  rw [word, loop_cons h, Lexer.word, if_pos hc, if_pos hc, EStateM.bind_of_ok (advance_cons h)]
  exact mirrors_word h (List.cons_ne_nil _ _) (Nat.lt_of_succ_lt_succ hn)

/-- A token of two characters where the second one follows. -/
theorem mirrors_lookahead {d : Char} {t : TokenType} {l' : Lexer} {m : Scan Unit}
    (h : At source pos (c :: s)) (hm : m ⟨pos, l⟩ = .ok ⟨⟩ ⟨pos, l'⟩) :
    Mirrors Stop.thrown (Lands source)
      (.ok (if s.head? = some d then (l.emit t [] pos, pos + 2, s.tail) else (l', pos + 1, s)))
      ((do
        if (← peek source) = some d then
          emit t []
          advance source
        else m : Scan Unit) ⟨pos, l⟩) := by
  rw [EStateM.bind_of_ok (peek_cons h)]
  by_cases hs : s.head? = some d
  · obtain ⟨s, rfl⟩ := List.head?_eq_some_iff.mp hs
    rw [if_pos hs, if_pos hs, EStateM.bind_of_ok (emit_eq t []), advance_cons h]
    exact .ok (lands_cons h.tail)
  · rw [if_neg hs, if_neg hs, hm]
    exact .ok (lands_cons h)

theorem mirrors_pair {second : Char} {both single : TokenType} (h : At source pos (c :: s)) :
    Mirrors Stop.thrown (Lands source) (.ok (Lexer.pair l second both single pos s))
      (pair source second both single ⟨pos, l⟩) :=
  mirrors_lookahead h rfl

theorem mirrors_double {d : Char} {t : TokenType} {message : Str} (h : At source pos (c :: s)) :
    Mirrors Stop.thrown (Lands source) (.ok (Lexer.double l d t message pos s))
      (double source d t message ⟨pos, l⟩) :=
  mirrors_lookahead h rfl

theorem mirrors_slash (h : At source pos (c :: s)) (hn : s.length < n) :
    Mirrors Stop.thrown (Lands source)
      (if s.head? = some '*' then .ok (l.comment [] (pos + 2) s.tail)
        else .ok (l.emit .div [] pos, pos + 1, s))
      (slash source n ⟨pos, l⟩) := by
  rw [slash, EStateM.bind_of_ok (peek_cons h)]
  by_cases hs : s.head? = some '*'
  · obtain ⟨s, rfl⟩ := List.head?_eq_some_iff.mp hs
    rw [if_pos hs, if_pos hs, EStateM.bind_of_ok (advance_cons h),
      EStateM.bind_of_ok (advance_cons h.tail)]
    exact mirrors_comment h.tail.tail (Nat.lt_of_succ_lt hn)
  · rw [if_neg hs, if_neg hs]
    exact .ok (lands_cons h)

/-- The `switch` does what an iteration of `Lexer` does, but for the end of the iteration. -/
theorem mirrors_dispatch (h : At source pos (c :: s)) (hn : (c :: s).length < n) :
    Mirrors Stop.thrown (Lands source) (l.step pos c s) (dispatch source n c ⟨pos, l⟩) := by
  have htail : s.length < n := Nat.lt_of_succ_lt hn
  have hemit (t : TokenType) : Mirrors Stop.thrown (Lands source)
      (.ok (l.emit t [] pos, pos + 1, s)) (emit t [] ⟨pos, l⟩) := .ok (lands_cons h)
  rw [Lexer.step, dispatch]
  refine .ite (fun _ => hemit _) fun _ => ?_
  refine .ite (fun _ => hemit _) fun _ => ?_
  refine .ite (fun _ => mirrors_pair h) fun _ => ?_
  refine .ite (fun _ => mirrors_pair h) fun _ => ?_
  refine .ite (fun _ => mirrors_pair h) fun _ => ?_
  refine .ite (fun _ => mirrors_pair h) fun _ => ?_
  refine .ite (fun _ => hemit _) fun _ => ?_
  refine .ite (fun _ => hemit _) fun _ => ?_
  refine .ite (fun _ => hemit _) fun _ => ?_
  refine .ite (fun _ => mirrors_slash h htail) fun _ => ?_
  refine .ite (fun _ => (mirrors_character h.tail htail).bind_ok (advance_cons h)) fun _ => ?_
  refine .ite (fun _ => (mirrors_string h.tail htail).bind_ok (advance_cons h)) fun _ => ?_
  refine .ite (fun _ => hemit _) fun _ => ?_
  refine .ite (fun _ => mirrors_double h) fun _ => ?_
  refine .ite (fun _ => mirrors_double h) fun _ => ?_
  refine .ite (fun _ => .ok (lands_cons h)) fun _ => ?_
  refine .ite (fun halpha => mirrors_word_nil h ?_ hn) fun _ => ?_
  · rw [Lexer.isIdentifier, Char.isAlphanum, halpha]
    rfl
  · exact .ite (fun hdigit => mirrors_word_nil h hdigit hn) fun _ => .ok (lands_cons h)

/-! ## The loop -/

/-- The cursor and the tokens are those of the three values of `Lexer`. -/
def Meets (source : Str) (p : Lexer × ℕ × Str) (_ : Unit) (σ : State) : Prop :=
  σ = ⟨p.2.1, p.1⟩ ∧ At source p.2.1 p.2.2

/-- An iteration is `Lexer.step`. -/
theorem mirrors_iterate (h : At source pos (c :: s)) (hfuel : source.length < fuel) :
    Mirrors Stop.thrown (Meets source) (l.step pos c s) (iterate source fuel ⟨pos, l⟩) := by
  have hn : (c :: s).length < fuel := by
    have hlen := h.add_length
    omega
  rw [iterate, EStateM.bind_of_ok (current_cons h), ← bind_pure (l.step pos c s)]
  apply (mirrors_dispatch h hn).bind
  rintro p _ _ - hlands
  rw [hlands.1]
  exact .ok ⟨rfl, hlands.2⟩

/-- The loop does what that of `Lexer` does. -/
theorem mirrors_runFrom {k : ℕ} (h : At source pos s) (hfuel : source.length < fuel)
    (hn : s.length < n) (hk : s.length ≤ k) :
    Mirrors Stop.thrown (fun l' _ σ => σ = ⟨source.length, l'⟩) (Lexer.run k l pos s)
      (runFrom source fuel n ⟨pos, l⟩) := by
  induction n generalizing k l pos s with
  | zero => exact absurd hn (Nat.not_lt_zero _)
  | succ n ih =>
    rw [runFrom]
    rcases s with - | ⟨c, s⟩
    · rw [EStateM.bind_of_ok (atEnd_nil h), Lexer.run_nil, if_pos rfl]
      obtain rfl := h.pos_eq
      exact .ok rfl
    · obtain ⟨k, rfl⟩ := Nat.exists_eq_add_one.mpr (Nat.zero_lt_of_lt hk)
      rw [EStateM.bind_of_ok (atEnd_cons h), if_neg Bool.false_ne_true, Lexer.run]
      apply (mirrors_iterate h hfuel).bind
      rintro ⟨l', pos', s'⟩ _ _ hstep ⟨rfl, hat⟩
      have hlen : s'.length ≤ s.length := Lexer.length_step hstep
      rw [List.length_cons] at hn hk
      exact ih hat (by omega) (by omega)

/-- The constructor does what `Lexer.ofSource` says. -/
theorem mirrors_construct (hfuel : source.length < fuel) :
    Mirrors Stop.thrown (fun l _ σ => σ = ⟨source.length, l⟩) (Lexer.ofSource source)
      (construct source fuel) :=
  mirrors_runFrom (At.zero source) hfuel hfuel le_rfl

/-! ## Where the tokens stand -/

section Positions

variable {start : ℕ} {l' : Lexer} {t : Token}

/-- At most one token is new. It stands from `start` on and before the place where the text goes
on, or at the end of the text. -/
structure Emits (l : Lexer) (start : ℕ) (p : Lexer × ℕ × Str) : Prop where
  le : start ≤ p.2.1
  tokens : p.1.tokens_ = l.tokens_ ∨ ∃ t, p.1.tokens_ = l.tokens_ ++ [t] ∧ start ≤ t.pos ∧
    (t.pos < p.2.1 ∨ p.2.2 = [] ∧ t.pos = p.2.1)

theorem emits_nothing (h : start ≤ pos) : Emits l start (l, pos, s) := ⟨h, Or.inl rfl⟩

theorem emits_before (hl : l'.tokens_ = l.tokens_ ++ [t]) (h : start ≤ t.pos) (hlt : t.pos < pos) :
    Emits l start (l', pos, s) :=
  ⟨h.trans hlt.le, Or.inr ⟨t, hl, h, Or.inl hlt⟩⟩

theorem emits_atEnd (hl : l'.tokens_ = l.tokens_ ++ [t]) (ht : t.pos = pos) (h : start ≤ pos) :
    Emits l start (l', pos, []) :=
  ⟨h, Or.inr ⟨t, hl, h.trans_eq ht.symm, Or.inr ⟨rfl, ht⟩⟩⟩

theorem emits_comment (h : start ≤ pos) : Emits l start (Lexer.comment l tx pos s) := by
  induction s generalizing tx pos with
  | nil => exact emits_nothing h
  | cons c s ih =>
    rw [Lexer.comment]
    split_ifs
    · exact emits_before rfl (Nat.le_succ_of_le h) (Nat.lt_succ_self _)
    · exact ih (Nat.le_succ_of_le h)

theorem emits_string (h : start ≤ pos) : Emits l start (Lexer.string l tx pos s) := by
  induction s generalizing tx pos with
  | nil =>
    rw [Lexer.string]
    split_ifs
    · exact emits_nothing h
    · exact emits_atEnd rfl rfl h
  | cons c s ih =>
    rw [Lexer.string]
    split_ifs
    · exact emits_before rfl h (Nat.lt_succ_self _)
    · exact ih (Nat.le_succ_of_le h)

theorem emits_character (h : start ≤ pos) :
    (Lexer.character l tx pos s).wp (Emits l start) fun _ => True := by
  induction s generalizing tx pos with
  | nil =>
    rw [Lexer.character, Except.wp_ok]
    split_ifs
    · exact emits_nothing h
    · exact emits_atEnd rfl rfl h
  | cons c s ih =>
    rw [Lexer.character]
    split_ifs
    · exact emits_before rfl h (Nat.lt_succ_self _)
    · trivial
    · exact ih (Nat.le_succ_of_le h)

theorem emits_word {p : Char → Bool} {t : TokenType} (h : start < pos) :
    Emits l start (Lexer.word p t l tx pos s) := by
  induction s generalizing tx pos with
  | nil =>
    rw [Lexer.word]
    split_ifs
    · exact emits_nothing h.le
    · exact emits_atEnd rfl rfl h.le
  | cons c s ih =>
    rw [Lexer.word]
    split_ifs
    · exact ih (Nat.lt_succ_of_lt h)
    · exact emits_before rfl (Nat.le_sub_one_of_lt h) (Nat.sub_one_lt_of_lt h)

theorem emits_word_nil {p : Char → Bool} {t : TokenType} (hc : p c = true) :
    Emits l pos (Lexer.word p t l [] pos (c :: s)) := by
  rw [Lexer.word, if_pos hc]
  exact emits_word (Nat.lt_succ_self _)

theorem emits_lookahead {d : Char} {both : TokenType} (hl : l'.tokens_ = l.tokens_ ++ [t])
    (ht : t.pos = pos) : Emits l pos
      (if s.head? = some d then (l.emit both [] pos, pos + 2, s.tail) else (l', pos + 1, s)) := by
  split_ifs
  · exact emits_before rfl le_rfl (Nat.lt_add_of_pos_right Nat.two_pos)
  · exact emits_before hl ht.ge (Nat.lt_succ_of_le ht.le)

theorem emits_step (l : Lexer) (pos : ℕ) (c : Char) (s : Str) :
    (l.step pos c s).wp (Emits l pos) fun _ => True := by
  have hnothing : Emits l pos (l, pos + 1, s) := emits_nothing (Nat.le_succ _)
  have hemit (t : TokenType) : Emits l pos (l.emit t [] pos, pos + 1, s) :=
    emits_before rfl le_rfl (Nat.lt_succ_self _)
  rw [Lexer.step]
  refine Except.wp_ite (fun _ => hemit _) fun _ => ?_
  refine Except.wp_ite (fun _ => hemit _) fun _ => ?_
  refine Except.wp_ite (fun _ => emits_lookahead rfl rfl) fun _ => ?_
  refine Except.wp_ite (fun _ => emits_lookahead rfl rfl) fun _ => ?_
  refine Except.wp_ite (fun _ => emits_lookahead rfl rfl) fun _ => ?_
  refine Except.wp_ite (fun _ => emits_lookahead rfl rfl) fun _ => ?_
  refine Except.wp_ite (fun _ => hemit _) fun _ => ?_
  refine Except.wp_ite (fun _ => hemit _) fun _ => ?_
  refine Except.wp_ite (fun _ => hemit _) fun _ => ?_
  refine Except.wp_ite (fun _ => ?_) fun _ => ?_
  · exact Except.wp_ite (fun _ => emits_comment (Nat.le_add_right _ _)) fun _ => hemit _
  refine Except.wp_ite (fun _ => emits_character (Nat.le_succ _)) fun _ => ?_
  refine Except.wp_ite (fun _ => emits_string (Nat.le_succ _)) fun _ => ?_
  refine Except.wp_ite (fun _ => hemit _) fun _ => ?_
  refine Except.wp_ite (fun _ => emits_lookahead rfl rfl) fun _ => ?_
  refine Except.wp_ite (fun _ => emits_lookahead rfl rfl) fun _ => ?_
  refine Except.wp_ite (fun _ => hnothing) fun _ => ?_
  refine Except.wp_ite (fun halpha => emits_word_nil ?_) fun _ => ?_
  · rw [Lexer.isIdentifier, Char.isAlphanum, halpha]
    rfl
  · exact Except.wp_ite (fun hdigit => emits_word_nil hdigit) fun _ => hnothing

/-- The tokens so far stand in order, before where the text goes on or at its end. -/
def Ordered (p : Lexer × ℕ × Str) : Prop :=
  p.1.tokens_.Pairwise (·.pos < ·.pos) ∧
    ∀ t ∈ p.1.tokens_, t.pos < p.2.1 ∨ p.2.2 = [] ∧ t.pos = p.2.1

theorem Ordered.step {p : Lexer × ℕ × Str} (h : Ordered (l, pos, c :: s)) (hlt : pos < p.2.1)
    (hp : Emits l pos p) : Ordered p := by
  have hbefore : ∀ t ∈ l.tokens_, t.pos < pos := by
    intro t ht
    rcases h.2 t ht with hpos | ⟨hnil, -⟩
    · exact hpos
    · cases hnil
  rcases hp.tokens with htokens | ⟨t, htokens, hle, hpos⟩
  · rw [Ordered, htokens]
    exact ⟨h.1, fun t ht => Or.inl ((hbefore t ht).trans hlt)⟩
  · rw [Ordered, htokens]
    constructor
    · rw [List.pairwise_append]
      refine ⟨h.1, List.pairwise_singleton _ _, fun u hu v hv => ?_⟩
      rw [List.mem_singleton.mp hv]
      exact (hbefore u hu).trans_le hle
    · intro u hu
      rcases List.mem_append.mp hu with hu | hu
      · exact Or.inl ((hbefore u hu).trans hlt)
      · rw [List.mem_singleton.mp hu]
        exact hpos

end Positions

/-! ## Runs -/

/-- The cursor is in the text, and the tokens stand in order before it. -/
def Inv (source : Str) (σ : State) : Prop :=
  ∃ s, At source σ.it_ s ∧ Ordered (σ.lexer, σ.it_, s)

/-- The construction ends with a `fmt::format_error`. -/
def Throws (source : Str) (fuel : ℕ) : Prop := ∃ e σ, construct source fuel = .error (.thrown e) σ

/-- The construction throws only where `Lexer` does. -/
theorem not_throws (hfuel : source.length < fuel) (h : Lexer.ofSource source = .ok l) :
    ¬Throws source fuel := by
  rintro ⟨e, σ, hconstruct⟩
  have hmirrors := mirrors_construct hfuel
  rw [h, hconstruct] at hmirrors
  cases hmirrors

theorem inv_start (source : Str) : Inv source ⟨0, {}⟩ :=
  ⟨source, At.zero source, List.Pairwise.nil, fun _ ht => absurd ht List.not_mem_nil⟩

/-- An iteration goes on by at least one character. -/
theorem wp_iterate (hfuel : source.length < fuel) (h : Inv source σ)
    (hend : σ.it_ ≠ source.length) :
    EStateM.wp (iterate source fuel) (fun _ σ' => Inv source σ' ∧ σ.it_ < σ'.it_)
      (fun stop _ => ∃ e, stop = .thrown e) σ := by
  obtain ⟨s, hat, hord⟩ := h
  obtain ⟨c, s, rfl⟩ := List.exists_cons_of_ne_nil (hat.ne_nil_iff.mpr hend)
  apply (mirrors_iterate hat hfuel).wp
  · rintro p _ _ hstep ⟨rfl, hat'⟩
    have hlt : σ.it_ < p.2.1 := by
      have hlen := Lexer.length_step hstep
      have hpos := hat.add_length
      have hpos' := hat'.add_length
      rw [List.length_cons] at hpos
      omega
    have hemits := emits_step σ.lexer σ.it_ c s
    rw [hstep, Except.wp_ok] at hemits
    exact ⟨⟨p.2.2, hat', hord.step hlt hemits⟩, hlt⟩
  · exact fun e _ => ⟨e, rfl⟩

theorem runFrom_of_ne (hend : σ.it_ ≠ source.length) : runFrom source fuel (n + 1) σ =
    (iterate source fuel >>= fun _ => runFrom source fuel n) σ := by
  rw [runFrom]
  show (if decide (σ.it_ = source.length) = true then return
    else do iterate source fuel; runFrom source fuel n : Scan Unit) σ = _
  rw [if_neg (by simpa using hend)]

theorem wp_runFrom (hfuel : source.length < fuel) (h : Inv source σ)
    (hn : source.length - σ.it_ < n) :
    EStateM.wp (runFrom source fuel n)
      (fun _ σ' => Inv source σ' ∧ σ'.it_ = source.length) (fun stop _ => ∃ e, stop = .thrown e)
      σ := by
  induction n generalizing σ with
  | zero => exact absurd hn (Nat.not_lt_zero _)
  | succ n ih =>
    rw [runFrom, EStateM.wp_bind]
    show EStateM.wp (if decide (σ.it_ = source.length) = true then return
      else do iterate source fuel; runFrom source fuel n) _ _ σ
    by_cases hend : σ.it_ = source.length
    · rw [if_pos (decide_eq_true hend)]
      exact ⟨h, hend⟩
    · rw [if_neg (by simpa using hend), EStateM.wp_bind]
      apply EStateM.wp_mono (wp_iterate hfuel h hend)
      · rintro _ σ' ⟨h', hlt⟩
        obtain ⟨s, hat, -⟩ := h
        have hle := hat.le
        exact ih h' (by omega)
      · exact fun _ _ hstop => hstop

theorem Reaches.inv (hfuel : source.length < fuel) (h : Reaches source fuel σ) :
    Inv source σ := by
  induction h with
  | start => exact inv_start source
  | step _ hend hstep ih => exact (EStateM.wp_ok (wp_iterate hfuel ih hend) hstep).1

/-- The construction goes through every state that it reaches. -/
theorem Reaches.construct_eq (hfuel : source.length < fuel) (h : Reaches source fuel σ) :
    ∃ n, source.length - σ.it_ < n ∧ construct source fuel = runFrom source fuel n σ := by
  induction h with
  | start => exact ⟨fuel, hfuel, rfl⟩
  | @step σ σ' hσ hend hstep ih =>
    obtain ⟨n, hn, heq⟩ := ih
    obtain ⟨n, rfl⟩ := Nat.exists_eq_add_one.mpr (Nat.zero_lt_of_lt hn)
    obtain ⟨-, hlt⟩ := EStateM.wp_ok (wp_iterate hfuel (hσ.inv hfuel) hend) hstep
    obtain ⟨s, hat, -⟩ := hσ.inv hfuel
    have hle := hat.le
    refine ⟨n, by omega, heq.trans ?_⟩
    rw [runFrom_of_ne hend, EStateM.bind_of_ok hstep]

/-- Where nothing is thrown, every iteration is completed. -/
theorem Reaches.iterate_ok (hfuel : source.length < fuel) (hthrow : ¬Throws source fuel)
    (h : Reaches source fuel σ) (hend : σ.it_ ≠ source.length) :
    ∃ σ', iterate source fuel σ = .ok ⟨⟩ σ' := by
  cases hstep : iterate source fuel σ with
  | ok _ σ' => exact ⟨σ', rfl⟩
  | error stop σ' =>
    obtain ⟨e, rfl⟩ := EStateM.wp_error (wp_iterate hfuel (h.inv hfuel) hend) hstep
    obtain ⟨n, hn, heq⟩ := h.construct_eq hfuel
    obtain ⟨n, rfl⟩ := Nat.exists_eq_add_one.mpr (Nat.zero_lt_of_lt hn)
    refine absurd ⟨e, σ', heq.trans ?_⟩ hthrow
    rw [runFrom_of_ne hend, EStateM.bind_of_error hstep]

theorem construct_ok (hfuel : source.length < fuel) (hthrow : ¬Throws source fuel) :
    ∃ σ, construct source fuel = .ok ⟨⟩ σ ∧ Inv source σ ∧ σ.it_ = source.length := by
  have hrun := wp_runFrom hfuel (inv_start source) ((Nat.sub_le _ _).trans_lt hfuel)
  cases hconstruct : construct source fuel with
  | ok _ σ => exact ⟨σ, rfl, EStateM.wp_ok hrun hconstruct⟩
  | error stop σ =>
    obtain ⟨e, rfl⟩ := EStateM.wp_error hrun hconstruct
    exact absurd ⟨e, σ, hconstruct⟩ hthrow

/-- Up to the greatest `int`, the positions are the distances. -/
theorem Inv.positions (h : Inv source σ) (hend : σ.it_ = source.length)
    (hlen : (source.length : Int) ≤ intMax) :
    σ.lexer.tokens_.Pairwise (fun t u => intPos t < intPos u) ∧
      ∀ t ∈ σ.lexer.tokens_, 0 ≤ intPos t ∧ intPos t ≤ source.length := by
  obtain ⟨s, -, hpairwise, hpos⟩ := h
  have hle : ∀ t ∈ σ.lexer.tokens_, t.pos ≤ source.length := by
    intro t ht
    rw [← hend]
    rcases hpos t ht with hlt | ⟨-, heq⟩
    · exact hlt.le
    · exact heq.le
  have heq : ∀ t ∈ σ.lexer.tokens_, intPos t = t.pos := by
    intro t ht
    apply castInt_eq_self (Int.natCast_nonneg _)
    exact Int.le_trans (Int.ofNat_le.mpr (hle t ht)) hlen
  constructor
  · apply hpairwise.imp_of_mem
    intro t u ht hu hlt
    rw [heq t ht, heq u hu]
    exact Int.ofNat_lt.mpr hlt
  · intro t ht
    rw [heq t ht]
    exact ⟨Int.natCast_nonneg _, Int.ofNat_le.mpr (hle t ht)⟩

/-- **The cursor stays in the text**: where the construction does not throw, it is completed
with the cursor at the end, every iteration is completed and goes on by at least one character,
and up to the greatest `int` the positions of the tokens increase and are in the text. -/
theorem construct_spec (hfuel : source.length < fuel) (hthrow : ¬Throws source fuel) :
    (∃ σ, construct source fuel = .ok ⟨⟩ σ ∧ σ.it_ = source.length ∧
      ((source.length : Int) ≤ intMax →
        σ.lexer.tokens_.Pairwise (fun t u => intPos t < intPos u) ∧
          ∀ t ∈ σ.lexer.tokens_, 0 ≤ intPos t ∧ intPos t ≤ source.length)) ∧
    ∀ σ, Reaches source fuel σ → σ.it_ ≤ source.length ∧ (σ.it_ ≠ source.length →
      ∃ σ', iterate source fuel σ = .ok ⟨⟩ σ' ∧ σ.it_ < σ'.it_ ∧ σ'.it_ ≤ source.length) := by
  constructor
  · obtain ⟨σ, hconstruct, hinv, hend⟩ := construct_ok hfuel hthrow
    exact ⟨σ, hconstruct, hend, hinv.positions hend⟩
  · intro σ hσ
    obtain ⟨s, hat, -⟩ := hσ.inv hfuel
    refine ⟨hat.le, fun hend => ?_⟩
    obtain ⟨σ', hstep⟩ := hσ.iterate_ok hfuel hthrow hend
    obtain ⟨⟨s', hat', -⟩, hlt⟩ := EStateM.wp_ok (wp_iterate hfuel (hσ.inv hfuel) hend) hstep
    exact ⟨σ', hstep, hlt, hat'.le⟩

/-- A number, a comment and a word that ends with the text. -/
theorem construct_spec_comment :
    ∃ σ, construct ['1', '/', '*', '*', '/', 'a'] 7 = .ok ⟨⟩ σ ∧ σ.it_ = 6 ∧
      σ.lexer.tokens_.Pairwise fun t u => intPos t < intPos u := by
  have hthrow : ¬Throws ['1', '/', '*', '*', '/', 'a'] 7 := not_throws (by decide) rfl
  obtain ⟨⟨σ, hconstruct, hend, hpos⟩, -⟩ := construct_spec (by decide) hthrow
  exact ⟨σ, hconstruct, hend, (hpos (by decide)).1⟩

/-! ## Long texts -/

theorem run_blanks (k : ℕ) (l : Lexer) (pos : ℕ) (s : Str) :
    Lexer.run (k + n) l pos (List.replicate k ' ' ++ s) = Lexer.run n l (pos + k) s := by
  induction k generalizing pos with
  | zero => rw [Nat.zero_add, List.replicate_zero, List.nil_append, Nat.add_zero]
  | succ k ih =>
    rw [Nat.add_right_comm, List.replicate_succ, List.cons_append, Lexer.run]
    show Lexer.run (k + n) l (pos + 1) _ = _
    rw [ih, Nat.add_assoc, Nat.add_comm 1]

theorem ofSource_blanks (k : ℕ) : Lexer.ofSource (List.replicate k ' ' ++ ['(']) =
    .ok { tokens_ := [⟨.lparen, [], k⟩] } := by
  rw [Lexer.ofSource, List.length_append, List.length_replicate, run_blanks, Nat.zero_add]
  rfl

/-- A parenthesis after `k` blanks is at `k`, as an `int`. -/
theorem construct_blanks (k : ℕ) : ∃ σ t,
    construct (List.replicate k ' ' ++ ['(']) (k + 2) = .ok ⟨⟩ σ ∧ t ∈ σ.lexer.tokens_ ∧
      intPos t = castInt k := by
  have hlen : (List.replicate k ' ' ++ ['(']).length < k + 2 := by
    rw [List.length_append, List.length_replicate]
    exact Nat.lt_succ_self _
  have hmirrors := mirrors_construct hlen
  rw [ofSource_blanks] at hmirrors
  generalize construct (List.replicate k ' ' ++ ['(']) (k + 2) = r at hmirrors
  cases hmirrors with
  | @ok _ _ σ hσ =>
    obtain rfl := hσ
    exact ⟨_, ⟨.lparen, [], k⟩, rfl, List.mem_singleton_self _, rfl⟩

/-- After 2^31 blanks the position of a token is negative. -/
theorem construct_overflow : ∃ σ t,
    construct (List.replicate 2147483648 ' ' ++ ['(']) 2147483650 = .ok ⟨⟩ σ ∧
      t ∈ σ.lexer.tokens_ ∧ intPos t < 0 := by
  obtain ⟨σ, t, hconstruct, ht, hpos⟩ := construct_blanks 2147483648
  refine ⟨σ, t, hconstruct, ht, ?_⟩
  rw [hpos]
  decide

end WwivBasic.Parser.Cursor
