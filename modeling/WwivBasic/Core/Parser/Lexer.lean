import Mathlib.Data.List.Infix
import Mathlib.Data.Nat.Basic
import WwivBasic.Core.Strings

/-!
# The lexer of conditions

`core/parser/token.h` and `core/parser/lexer.cpp`: the lexer that access conditions such as
`user.sl > 200` go through. The iterator `it_` is the text from it on, with its distance from
`start`; an iteration of the constructor's loop is followed by the `++it_` at its end.

## Main definitions

* `TokenType`, `Token`: the tokens
* `Lexer`, `Lexer.step`, `Lexer.ofSource`: what the constructor fills in, one iteration of its
  loop, and the constructor
* `Spelling`: a token type with its lexeme; `Spelling.text`, `Spelling.Legal`: how it is written,
  and which lexemes its type admits

## Main results

* `run_eq_of_le`: the loop ends within one iteration for each character
* `ofSource_spaced`: the lexer reads spellings with spaces between them back
-/

namespace WwivBasic.Parser

/-- `TokenType`. -/
inductive TokenType
  | lparen | rparen | eq | assign | ne | negate | gt | ge | lt | le | add | sub | mul | div
  | semicolon | comment | character | string | eof | identifier | number | logicalAnd | logicalOr
  | error
  deriving DecidableEq

/-- `Token`. -/
structure Token where
  type : TokenType
  lexeme : Str
  pos : ℕ
  deriving DecidableEq

/-- `fmt::format_error`, thrown for a format string that names an argument it was not given. -/
inductive FormatError
  | argumentNotFound
  deriving DecidableEq

/-- `LexerState`. -/
structure LexerState where
  ok : Bool := true
  err : Str := []
  deriving DecidableEq

/-- `Lexer`: the tokens so far, and the state. -/
structure Lexer where
  tokens_ : List Token := []
  state_ : LexerState := {}
  deriving DecidableEq

namespace Lexer

/-- `ok()`. -/
def ok (l : Lexer) : Bool := l.state_.ok

/-- `emit`. -/
def emit (l : Lexer) (t : TokenType) (lexeme : Str) (pos : ℕ) : Lexer :=
  { l with tokens_ := l.tokens_ ++ [⟨t, lexeme, pos⟩] }

/-- `fmt::format("Error at pos: '{}', {}", pos, message)`. -/
def errorText (message : Str) (pos : ℕ) : Str :=
  "Error at pos: '".toList ++ Nat.toDigits 10 pos ++ "', ".toList ++ message

/-- `error`. -/
def error (l : Lexer) (message : Str) (pos : ℕ) : Lexer where
  tokens_ := (l.emit .error (errorText message pos) pos).tokens_
  state_ := ⟨false, errorText message pos⟩

/-- The set `WS`. -/
def isWs (c : Char) : Bool := c = ' ' || c = '\r' || c = '\n' || c = '\t'

/-- The characters an identifier goes on with. -/
def isIdentifier (c : Char) : Bool := c.isAlphanum || c = '.' || c = '_' || c = '-'

/-- `comment()`, after the `/*`. A comment that does not end emits nothing. -/
def comment (l : Lexer) (tx : Str) (pos : ℕ) : Str → Lexer × ℕ × Str
  | [] => (l, pos, [])
  | c :: s =>
    if c = '*' ∧ s.head? = some '/' then (l.emit .comment tx (pos + 1), pos + 2, s.tail)
    else comment l (tx ++ [c]) (pos + 1) s

/-- `string()`, after the opening quote. -/
def string (l : Lexer) (tx : Str) (pos : ℕ) : Str → Lexer × ℕ × Str
  | [] => (if tx = [] then l else l.error "EOF before end of string".toList pos, pos, [])
  | c :: s =>
    if c = '"' then (l.emit .string tx pos, pos + 1, s) else string l (tx ++ [c]) (pos + 1) s

/-- `character()`, after the opening apostrophe. The message about a text of another length
names an argument that is not passed. -/
def character (l : Lexer) (tx : Str) (pos : ℕ) : Str → Except FormatError (Lexer × ℕ × Str)
  | [] => .ok (if tx = [] then l else l.error "EOF before end of character".toList pos, pos, [])
  | c :: s =>
    if c = '\'' then
      if tx.length = 1 then .ok (l.emit .character tx pos, pos + 1, s)
      else .error .argumentNotFound
    else character l (tx ++ [c]) (pos + 1) s

/-- What `identifier()` and `number()` share: the longest run of characters with `p`. At the
character after the run, which is put back, the iterator is on the last one of the run. -/
def word (p : Char → Bool) (t : TokenType) (l : Lexer) (tx : Str) (pos : ℕ) :
    Str → Lexer × ℕ × Str
  | [] => (if tx = [] then l else l.emit t tx pos, pos, [])
  | c :: s =>
    if p c then word p t l (tx ++ [c]) (pos + 1) s else (l.emit t tx (pos - 1), pos, c :: s)

/-- `identifier()`. -/
def identifier (l : Lexer) (pos : ℕ) (s : Str) : Lexer × ℕ × Str :=
  word isIdentifier .identifier l [] pos s

/-- `number()`. -/
def number (l : Lexer) (pos : ℕ) (s : Str) : Lexer × ℕ × Str :=
  word Char.isDigit .number l [] pos s

/-- A character that makes a token of its own, or another one with the character after it. -/
def pair (l : Lexer) (second : Char) (both single : TokenType) (pos : ℕ) (s : Str) :
    Lexer × ℕ × Str :=
  if s.head? = some second then (l.emit both [] pos, pos + 2, s.tail)
  else (l.emit single [] pos, pos + 1, s)

/-- A character that is an error on its own, and makes a token when it is doubled. -/
def double (l : Lexer) (c : Char) (t : TokenType) (message : Str) (pos : ℕ) (s : Str) :
    Lexer × ℕ × Str :=
  if s.head? = some c then (l.emit t [] pos, pos + 2, s.tail)
  else (l.error message pos, pos + 1, s)

/-- The message about a single `&`. -/
def andText : Str := "& is not a valid token; did you mean '&&'?".toList

/-- The message about a single `|`. -/
def orText : Str := "| is not a valid token; did you mean '||'?".toList

/-- One iteration of the loop, at the character `c`, with the `++it_` at its end. -/
def step (l : Lexer) (pos : ℕ) (c : Char) (s : Str) : Except FormatError (Lexer × ℕ × Str) :=
  if c = '(' then .ok (l.emit .lparen [] pos, pos + 1, s)
  else if c = ')' then .ok (l.emit .rparen [] pos, pos + 1, s)
  else if c = '=' then .ok (l.pair '=' .eq .assign pos s)
  else if c = '!' then .ok (l.pair '=' .ne .negate pos s)
  else if c = '>' then .ok (l.pair '=' .ge .gt pos s)
  else if c = '<' then .ok (l.pair '=' .le .lt pos s)
  else if c = '+' then .ok (l.emit .add [] pos, pos + 1, s)
  else if c = '-' then .ok (l.emit .sub [] pos, pos + 1, s)
  else if c = '*' then .ok (l.emit .mul [] pos, pos + 1, s)
  else if c = '/' then
    if s.head? = some '*' then .ok (l.comment [] (pos + 2) s.tail)
    else .ok (l.emit .div [] pos, pos + 1, s)
  else if c = '\'' then l.character [] (pos + 1) s
  else if c = '"' then .ok (l.string [] (pos + 1) s)
  else if c = ';' then .ok (l.emit .semicolon [] pos, pos + 1, s)
  else if c = '&' then .ok (l.double '&' .logicalAnd andText pos s)
  else if c = '|' then .ok (l.double '|' .logicalOr orText pos s)
  else if isWs c then .ok (l, pos + 1, s)
  else if c.isAlpha then .ok (l.identifier pos (c :: s))
  else if c.isDigit then .ok (l.number pos (c :: s))
  -- Any other character is skipped.
  else .ok (l, pos + 1, s)

/-- The loop, for at most `n` iterations. -/
def run : ℕ → Lexer → ℕ → Str → Except FormatError Lexer
  | _, l, _, [] => .ok l
  | 0, l, _, _ :: _ => .ok l
  | n + 1, l, pos, c :: s => do
    let (l, pos, s) ← l.step pos c s
    run n l pos s

/-- `Lexer(source)`. -/
def ofSource (source : Str) : Except FormatError Lexer := run source.length {} 0 source

end Lexer

/-! ## Spellings -/

/-- A token type with a lexeme. -/
abbrev Spelling := TokenType × Str

/-- What a token says, apart from where it stands. -/
def Token.spelling (t : Token) : Spelling := (t.type, t.lexeme)

namespace Spelling

/-- How the token is written. The end of the input and errors have no spelling. -/
def text : Spelling → Str
  | (.lparen, _) => ['(']
  | (.rparen, _) => [')']
  | (.eq, _) => ['=', '=']
  | (.assign, _) => ['=']
  | (.ne, _) => ['!', '=']
  | (.negate, _) => ['!']
  | (.gt, _) => ['>']
  | (.ge, _) => ['>', '=']
  | (.lt, _) => ['<']
  | (.le, _) => ['<', '=']
  | (.add, _) => ['+']
  | (.sub, _) => ['-']
  | (.mul, _) => ['*']
  | (.div, _) => ['/']
  | (.semicolon, _) => [';']
  | (.comment, lexeme) => '/' :: '*' :: lexeme ++ ['*', '/']
  | (.character, lexeme) => '\'' :: lexeme ++ ['\'']
  | (.string, lexeme) => '"' :: lexeme ++ ['"']
  | (.identifier, lexeme) | (.number, lexeme) => lexeme
  | (.logicalAnd, _) => ['&', '&']
  | (.logicalOr, _) => ['|', '|']
  | (.eof, _) | (.error, _) => []

/-- The lexemes that a type admits: a letter followed by letters, digits, `.`, `_` and `-` for an
identifier, digits for a number, a text without a quote for a string, one character other than an
apostrophe for a character, a text without `*/` for a comment, and none for an operator. -/
def Legal : Spelling → Prop
  | (.identifier, lexeme) =>
    lexeme.head?.any Char.isAlpha = true ∧ ∀ c ∈ lexeme, Lexer.isIdentifier c = true
  | (.number, lexeme) => lexeme ≠ [] ∧ ∀ c ∈ lexeme, c.isDigit = true
  | (.string, lexeme) => '"' ∉ lexeme
  | (.character, lexeme) => lexeme.length = 1 ∧ '\'' ∉ lexeme
  | (.comment, lexeme) => ¬ ['*', '/'] <:+: lexeme
  | (.eof, _) | (.error, _) => False
  | (_, lexeme) => lexeme = []

instance : DecidablePred Legal := fun ⟨t, lexeme⟩ => by
  unfold Legal
  cases t <;> infer_instance

/-- A token is read to its end: the text after it does not go on with an identifier or a number,
and makes no other token of an operator. -/
def Ends (rest : Str) : Spelling → Prop
  | (.identifier, _) => ∀ c ∈ rest.head?, Lexer.isIdentifier c = false
  | (.number, _) => ∀ c ∈ rest.head?, c.isDigit = false
  | (.assign, _) | (.negate, _) | (.gt, _) | (.lt, _) => rest.head? ≠ some '='
  | (.div, _) => rest.head? ≠ some '*'
  | _ => True

/-- A space ends every token. -/
theorem ends_of_space {rest : Str} (h : rest = [] ∨ ∃ s, rest = ' ' :: s) (u : Spelling) :
    u.Ends rest := by
  have hhead : ∀ c, c ≠ ' ' → rest.head? ≠ some c := by
    rintro c hc
    rcases h with rfl | ⟨s, rfl⟩
    · simp
    · simpa using Ne.symm hc
  have hspace : ∀ p : Char → Bool, p ' ' = false → ∀ c ∈ rest.head?, p c = false := by
    intro p hp c hc
    rcases h with rfl | ⟨s, rfl⟩
    · simp at hc
    · obtain rfl : ' ' = c := by simpa using hc
      exact hp
  obtain ⟨t, lexeme⟩ := u
  cases t with
  | identifier => exact hspace _ (by decide)
  | number => exact hspace _ (by decide)
  | assign | negate | gt | lt => exact hhead '=' (by decide)
  | div => exact hhead '*' (by decide)
  | _ => trivial

end Spelling

/-! ## One token -/

namespace Lexer

variable {l : Lexer} {tx w r : Str} {pos : ℕ}

theorem word_append {p : Char → Bool} {t : TokenType} (tx : Str) (pos : ℕ)
    (hw : ∀ c ∈ w, p c = true) (hr : ∀ c ∈ r.head?, p c = false) (hne : tx ++ w ≠ []) :
    ∃ i, word p t l tx pos (w ++ r) = (l.emit t (tx ++ w) i, pos + w.length, r) := by
  induction w generalizing tx pos with
  | nil =>
    rcases r with - | ⟨c, s⟩
    · exact ⟨pos, by simp_all [word]⟩
    · exact ⟨pos - 1, by simp_all [word]⟩
  | cons c w ih =>
    obtain ⟨hc, hw⟩ := List.forall_mem_cons.mp hw
    obtain ⟨i, hi⟩ := ih (tx ++ [c]) (pos + 1) hw (by simp)
    exact ⟨i, by simp [word, hc, hi, Nat.add_assoc, Nat.add_comm 1]⟩

theorem string_append (tx : Str) (pos : ℕ) (hw : '"' ∉ w) :
    ∃ i, string l tx pos (w ++ '"' :: r) = (l.emit .string (tx ++ w) i, i + 1, r) := by
  induction w generalizing tx pos with
  | nil => exact ⟨pos, by simp [string]⟩
  | cons c w ih =>
    obtain ⟨hc, hw⟩ := not_or.mp (mt List.mem_cons.mpr hw)
    obtain ⟨i, hi⟩ := ih (tx ++ [c]) (pos + 1) hw
    exact ⟨i, by simp [string, Ne.symm hc, hi]⟩

/-- The end of a comment is the first one in its text. -/
theorem comment_append (tx : Str) (pos : ℕ) (hw : ¬ ['*', '/'] <:+: w) :
    ∃ i, comment l tx pos (w ++ '*' :: '/' :: r) = (l.emit .comment (tx ++ w) i, i + 1, r) := by
  induction w generalizing tx pos with
  | nil => exact ⟨pos + 1, by simp [comment]⟩
  | cons c w ih =>
    have hw' : ¬ ['*', '/'] <:+: w := fun h => hw (h.trans (List.suffix_cons c w).isInfix)
    obtain ⟨i, hi⟩ := ih (tx ++ [c]) (pos + 1) hw'
    -- A star of the text has no slash after it, and neither does one before the final star.
    have hend : ¬ (c = '*' ∧ (w ++ '*' :: '/' :: r).head? = some '/') := by
      rintro ⟨rfl, hh⟩
      rcases w with - | ⟨d, w⟩
      · simp at hh
      · obtain rfl : d = '/' := by simpa using hh
        exact hw ⟨[], w, rfl⟩
    exact ⟨i, by simp only [List.cons_append, comment, if_neg hend, hi]; simp⟩

/-- The characters that an iteration looks for before letters and digits. -/
def specials : Str :=
  ['(', ')', '=', '!', '>', '<', '+', '-', '*', '/', '\'', '"', ';', '&', '|', ' ', '\r', '\n',
    '\t']

/-- An iteration at any other character. -/
theorem step_of_not_mem {c : Char} {s : Str} (hc : c ∉ specials) :
    step l pos c s = .ok (if c.isAlpha then l.identifier pos (c :: s)
      else if c.isDigit then l.number pos (c :: s) else (l, pos + 1, s)) := by
  simp only [specials, List.mem_cons, List.not_mem_nil, not_or] at hc
  simp only [step, isWs, hc, if_false, decide_false, Bool.or_false, Bool.false_eq_true]
  split_ifs <;> rfl

/-- No special character is a letter or a digit. -/
theorem isAlphanum_of_mem_specials : ∀ c ∈ specials, c.isAlphanum = false := by decide

/-- One iteration reads a run of characters that starts with a letter or a digit. -/
theorem step_of_isAlphanum {c : Char} {s : Str} (hc : c.isAlphanum = true) :
    step l pos c s =
      .ok (if c.isAlpha then l.identifier pos (c :: s) else l.number pos (c :: s)) := by
  have hns : c ∉ specials := fun h => by simp [isAlphanum_of_mem_specials c h] at hc
  rw [step_of_not_mem hns]
  by_cases ha : c.isAlpha = true
  · rw [if_pos ha, if_pos ha]
  · have hd : c.isDigit = true := by simpa [Char.isAlphanum, ha] using hc
    rw [if_neg ha, if_neg ha, if_pos hd]

/-- One iteration reads a token up to where it ends. -/
theorem step_text {u : Spelling} (pos : ℕ) (hu : u.Legal) (hr : u.Ends r) :
    ∃ c s i j, u.text ++ r = c :: s ∧ step l pos c s = .ok (l.emit u.1 u.2 i, j, r) := by
  obtain ⟨t, lexeme⟩ := u
  cases t with
  | eof | error => exact hu.elim
  | comment =>
    obtain ⟨i, hi⟩ := comment_append (l := l) (r := r) [] (pos + 2) hu
    exact ⟨'/', '*' :: (lexeme ++ '*' :: '/' :: r), i, i + 1, by simp [Spelling.text],
      by simpa [step] using hi⟩
  | string =>
    obtain ⟨i, hi⟩ := string_append (l := l) (r := r) [] (pos + 1) hu
    exact ⟨'"', lexeme ++ '"' :: r, i, i + 1, by simp [Spelling.text], by simpa [step] using hi⟩
  | character =>
    obtain ⟨hlen, hq⟩ := hu
    obtain ⟨c, rfl⟩ := List.length_eq_one_iff.mp hlen
    have hc : c ≠ '\'' := by simpa [eq_comm] using hq
    exact ⟨'\'', c :: '\'' :: r, pos + 1 + 1, pos + 1 + 1 + 1, by simp [Spelling.text],
      by simp [step, character, hc]⟩
  | identifier =>
    obtain ⟨hfirst, hall⟩ := hu
    rcases lexeme with - | ⟨c, w⟩
    · simp at hfirst
    · have ha : c.isAlpha = true := by simpa using hfirst
      obtain ⟨i, hi⟩ := word_append (l := l) (t := .identifier) [] pos hall hr (by simp)
      refine ⟨c, w ++ r, i, pos + (c :: w).length, rfl, ?_⟩
      rw [step_of_isAlphanum (by simp [Char.isAlphanum, ha]), if_pos ha]
      exact congrArg Except.ok hi
  | number =>
    obtain ⟨hne, hall⟩ := hu
    rcases lexeme with - | ⟨c, w⟩
    · simp at hne
    · have hd : c.isDigit = true := hall c List.mem_cons_self
      obtain ⟨i, hi⟩ := word_append (l := l) (t := .number) [] pos hall hr (by simp)
      refine ⟨c, w ++ r, i, pos + (c :: w).length, rfl, ?_⟩
      rw [step_of_isAlphanum (by simp [Char.isAlphanum, hd]), if_neg (not_isAlpha_of_isDigit hd)]
      exact congrArg Except.ok hi
  | eq | ne | ge | le | logicalAnd | logicalOr =>
    obtain rfl : lexeme = [] := hu
    exact ⟨_, _, pos, pos + 2, rfl, by simp [step, pair, double]⟩
  | assign | negate | gt | lt | div =>
    obtain rfl : lexeme = [] := hu
    have hhead : r.head? ≠ some _ := hr
    exact ⟨_, _, pos, pos + 1, rfl, by simp [step, pair, hhead]⟩
  | _ =>
    obtain rfl : lexeme = [] := hu
    exact ⟨_, _, pos, pos + 1, rfl, by simp [step]⟩

/-! ## The loop -/

theorem length_comment (s : Str) : (comment l tx pos s).2.2.length ≤ s.length := by
  fun_induction comment l tx pos s with
  | case1 => simp
  | case2 => simp; omega
  | case3 tx pos c s h ih => simpa using Nat.le_succ_of_le ih

theorem length_string (s : Str) : (string l tx pos s).2.2.length ≤ s.length := by
  fun_induction string l tx pos s with
  | case1 => simp
  | case2 => simp
  | case3 tx pos c s h ih => simpa using Nat.le_succ_of_le ih

theorem length_character {p : Lexer × ℕ × Str} (s : Str) (h : character l tx pos s = .ok p) :
    p.2.2.length ≤ s.length := by
  fun_induction character l tx pos s with
  | case1 => cases h; simp
  | case2 => cases h; simp
  | case3 => cases h
  | case4 tx pos c s hc ih => simpa using Nat.le_succ_of_le (ih h)

theorem length_word {p : Char → Bool} {t : TokenType} (s : Str) :
    (word p t l tx pos s).2.2.length ≤ s.length := by
  fun_induction word p t l tx pos s with
  | case1 => simp
  | case2 tx pos c s h ih => simpa using Nat.le_succ_of_le ih
  | case3 => simp

theorem length_pair {c : Char} {t t' : TokenType} (s : Str) :
    (pair l c t t' pos s).2.2.length ≤ s.length := by
  unfold pair
  split_ifs <;> simp

theorem length_double {c : Char} {t : TokenType} {message : Str} (s : Str) :
    (double l c t message pos s).2.2.length ≤ s.length := by
  unfold double
  split_ifs <;> simp

theorem length_word_cons {p : Char → Bool} {t : TokenType} {c : Char} (s : Str) (hc : p c = true) :
    (word p t l tx pos (c :: s)).2.2.length ≤ s.length := by
  rw [word, if_pos hc]
  exact length_word s

/-- An iteration consumes the character it is at. -/
theorem length_step {c : Char} {s : Str} {p : Lexer × ℕ × Str} (h : step l pos c s = .ok p) :
    p.2.2.length ≤ s.length := by
  by_cases hc : c ∈ specials
  · simp only [specials, List.mem_cons, List.not_mem_nil, or_false] at hc
    rcases hc with rfl | rfl | rfl | rfl | rfl | rfl | rfl | rfl | rfl | rfl | rfl | rfl | rfl |
      rfl | rfl | rfl | rfl | rfl | rfl <;> simp [step, isWs] at h
    all_goals first
      | exact length_character s h
      | (subst h
         first
          | exact le_rfl
          | exact length_pair s
          | exact length_double s
          | exact length_string s)
      | skip
    -- A slash begins a comment when a star follows it.
    split_ifs at h with hs <;> obtain rfl := Except.ok.inj h
    · exact Nat.le_trans (length_comment _) (by simp)
    · exact le_rfl
  · rw [step_of_not_mem hc] at h
    obtain rfl := Except.ok.inj h
    split_ifs with ha hd
    · exact length_word_cons s (by simp [isIdentifier, Char.isAlphanum, ha])
    · exact length_word_cons s hd
    · exact le_rfl

/-- The loop ends within one iteration for each character: more of them change nothing. -/
theorem run_eq_of_le {n m : ℕ} {s : Str} (hn : s.length ≤ n) (hm : s.length ≤ m) :
    run n l pos s = run m l pos s := by
  induction n generalizing m l pos s with
  | zero =>
    obtain rfl := List.length_eq_zero_iff.mp (Nat.le_zero.mp hn)
    simp [run]
  | succ n ih =>
    rcases s with - | ⟨c, s⟩
    · simp [run]
    · obtain ⟨m, rfl⟩ : ∃ k, m = k + 1 := ⟨m - 1, by simp at hm; omega⟩
      rw [run, run]
      cases hstep : step l pos c s with
      | error e => rfl
      | ok p =>
        have hlen := length_step hstep
        simp only [List.length_cons, Nat.add_le_add_iff_right] at hn hm
        exact ih (Nat.le_trans hlen hn) (Nat.le_trans hlen hm)

/-- The spellings of a list of tokens, one space between any two. -/
def spaced (us : List Spelling) : Str := [' '].intercalate (us.map Spelling.text)

theorem spaced_cons_cons (u v : Spelling) (us : List Spelling) :
    spaced (u :: v :: us) = u.text ++ ' ' :: spaced (v :: us) := by
  simp [spaced, List.intercalate]

theorem run_nil {n : ℕ} : run n l pos [] = .ok l := by
  cases n <;> rfl

/-- The loop reads spellings with single spaces between them, whatever it has read before. -/
theorem run_spaced {us : List Spelling} (pos : ℕ) (hus : ∀ u ∈ us, u.Legal) {n : ℕ}
    (hn : (spaced us).length ≤ n) :
    ∃ l', run n l pos (spaced us) = .ok l' ∧ l'.state_ = l.state_ ∧
      l'.tokens_.map Token.spelling = l.tokens_.map Token.spelling ++ us := by
  induction us generalizing l pos n with
  | nil => exact ⟨l, by simp [spaced, run], rfl, by simp⟩
  | cons u us ih =>
    obtain ⟨hu, hus⟩ := List.forall_mem_cons.mp hus
    rcases us with - | ⟨v, us⟩
    · obtain ⟨c, s, i, j, htext, hstep⟩ := step_text (l := l) pos hu (u.ends_of_space (.inl rfl))
      have hs : spaced [u] = c :: s := by simpa [spaced, List.intercalate] using htext
      rw [hs] at hn ⊢
      obtain ⟨m, rfl⟩ : ∃ m, n = m + 1 := ⟨n - 1, by simp at hn; omega⟩
      refine ⟨l.emit u.1 u.2 i, ?_, rfl, by simp [emit, Token.spelling]⟩
      rw [run, hstep]
      exact run_nil
    · obtain ⟨c, s, i, j, htext, hstep⟩ := step_text (l := l) pos hu
        (u.ends_of_space (.inr ⟨spaced (v :: us), rfl⟩))
      rw [spaced_cons_cons, htext] at hn ⊢
      have hlen := length_step hstep
      simp only [List.length_cons] at hn hlen
      obtain ⟨m, rfl⟩ : ∃ m, n = m + 1 + 1 := ⟨n - 2, by omega⟩
      obtain ⟨l', hrun, hstate, htokens⟩ := ih (l := l.emit u.1 u.2 i) (n := m) (j + 1) hus
        (by omega)
      refine ⟨l', ?_, hstate, by rw [htokens]; simp [emit, Token.spelling]⟩
      rw [run, hstep]
      exact hrun

/-- **The lexer reads spellings back**: on the spellings of any tokens with legal lexemes, one
space between any two of them, it reports no error and finds exactly these tokens. -/
theorem ofSource_spaced {us : List Spelling} (hus : ∀ u ∈ us, u.Legal) :
    ∃ l, ofSource (spaced us) = .ok l ∧ l.ok = true ∧ l.tokens_.map Token.spelling = us := by
  obtain ⟨l, hrun, hstate, htokens⟩ := run_spaced (l := {}) 0 hus le_rfl
  exact ⟨l, hrun, congrArg LexerState.ok hstate, by simpa using htokens⟩

/-- Lexemes that hold the delimiters of other tokens. -/
theorem ofSource_spaced_delimiters :
    ∃ l, ofSource (spaced [(.comment, ['*', ' ', '"']), (.string, ['/', '*', '\'']), (.ne, []),
        (.character, ['"']), (.identifier, ['a', '-', '1'])]) = .ok l ∧ l.ok = true ∧
      l.tokens_.map Token.spelling = [(.comment, ['*', ' ', '"']), (.string, ['/', '*', '\'']),
        (.ne, []), (.character, ['"']), (.identifier, ['a', '-', '1'])] :=
  ofSource_spaced (by decide)

end Lexer

end WwivBasic.Parser
