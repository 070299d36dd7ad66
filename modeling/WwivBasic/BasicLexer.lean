import WwivBasic.Foundations.MaximalMunch
import WwivBasic.Core.Strings

/-!
# The lexer of the interpreter

The rules of `BasicLexer.g4`, in their order, and the tokens a text has on the default channel. A
rule matches the longest text it can, and the first of the rules that match the longest text makes
the token. ANTLR drops what it has read of a token it cannot finish, with the character it stops at.

## Main definitions

* `Rule`, `Rule.accepts`, `Rule.onDefaultChannel`: the rules
* `basicLexer`, `defaultTokens`: the lexer, and what the parser sees
* `Shape`: what the matched texts look like

## Main results

* `shape_of_accepts`: every matched text has a shape
* `isToken_of_ahead`, `isDropped_of_ahead`: a piece depends on little of what comes after it
-/

namespace WwivBasic.BasicLexer

open MaximalMunch (Lexer Piece)

/-! ## The rules -/

/-- The rules of the grammar that make tokens. -/
inductive Rule
  | INT | Digit | TRUE | FALSE
  | LT | LE | GT | GE | EQ | NE | AND | OR | NOT | LET | MOD
  | COLON | SEMICOLON | PLUS | MINUS | STAR | SLASH | LPAREN | RPAREN | COMMA | DOT | AT
  | DEF | ENDDEF | RETURN
  | IF | THEN | ELSE | ELSEIF | ENDIF
  | FOR | NEXT | STEP | TO
  | MODULE | IMPORT
  | STRING | ID | Comment | WS | NEWLINE
  deriving DecidableEq

/-- `[ \t]`. -/
def isBlank (c : Char) : Bool := c = ' ' || c = '\t'

/-- `LETTER | '.' | '0'..'9'`. -/
def isIdChar (c : Char) : Bool := c.isAlpha || c = '.' || c.isDigit

/-- `~[\r\n]`. -/
def inLine (c : Char) : Bool := c ≠ '\r' && c ≠ '\n'

/-- A text in quotes without quotes in it: `.*?` ends at the first one. -/
def isString : Str → Bool
  | '"' :: s => s.getLast? = some '"' && '"' ∉ s.dropLast
  | _ => false

/-- `LETTER (LETTER | '.' | '0'..'9')*`. -/
def isId : Str → Bool
  | c :: s => c.isAlpha && s.all isIdChar
  | [] => false

/-- `'\'' ~[\r\n]* '\r'? '\n'`. -/
def isComment : Str → Bool
  | '\'' :: s => s.dropWhile inLine = ['\n'] || s.dropWhile inLine = ['\r', '\n']
  | _ => false

/-- `WS? ('\r'? '\n') WS?`. -/
def isNewline (s : Str) : Bool :=
  match s.dropWhile isBlank with
  | '\n' :: s => s.all isBlank
  | '\r' :: '\n' :: s => s.all isBlank
  | _ => false

namespace Rule

/-- A text in quotes in the grammar, in any letter case. -/
def literal (w : String) (s : Str) : Bool := s.map Char.toUpper = w.toList

/-- The texts the rule matches. -/
def accepts : Rule → Str → Bool
  | INT, s => s ≠ [] && s.all Char.isDigit
  | Digit, s => s.length = 1 && s.all Char.isDigit
  | TRUE, s => literal "TRUE" s
  | FALSE, s => literal "FALSE" s
  | LT, s => literal "<" s
  | LE, s => literal "<=" s
  | GT, s => literal ">" s
  | GE, s => literal ">=" s
  | EQ, s => literal "=" s
  | NE, s => literal "<>" s
  | AND, s => literal "AND" s
  | OR, s => literal "OR" s
  | NOT, s => literal "NOT" s
  | LET, s => literal "LET" s
  | MOD, s => literal "MOD" s
  | COLON, s => literal ":" s
  | SEMICOLON, s => literal ";" s
  | PLUS, s => literal "+" s
  | MINUS, s => literal "-" s
  | STAR, s => literal "*" s
  | SLASH, s => literal "/" s
  | LPAREN, s => literal "(" s
  | RPAREN, s => literal ")" s
  | COMMA, s => literal "," s
  | DOT, s => literal "." s
  | AT, s => literal "@" s
  | DEF, s => literal "DEF" s
  | ENDDEF, s => literal "ENDDEF" s
  | RETURN, s => literal "RETURN" s
  | IF, s => literal "IF" s
  | THEN, s => literal "THEN" s
  | ELSE, s => literal "ELSE" s
  | ELSEIF, s => literal "ELSEIF" s
  | ENDIF, s => literal "ENDIF" s
  | FOR, s => literal "FOR" s
  | NEXT, s => literal "NEXT" s
  | STEP, s => literal "STEP" s
  | TO, s => literal "TO" s
  | MODULE, s => literal "MODULE" s
  | IMPORT, s => literal "IMPORT" s
  | STRING, s => isString s
  | ID, s => isId s
  | Comment, s => isComment s
  | WS, s => s ≠ [] && s.all isBlank
  | NEWLINE, s => isNewline s

/-- The rules in the order of the grammar. -/
def all : List Rule :=
  [INT, Digit, TRUE, FALSE, LT, LE, GT, GE, EQ, NE, AND, OR, NOT, LET, MOD, COLON, SEMICOLON, PLUS,
    MINUS, STAR, SLASH, LPAREN, RPAREN, COMMA, DOT, AT, DEF, ENDDEF, RETURN, IF, THEN, ELSE, ELSEIF,
    ENDIF, FOR, NEXT, STEP, TO, MODULE, IMPORT, STRING, ID, Comment, WS, NEWLINE]

theorem mem_all (r : Rule) : r ∈ all := by cases r <;> decide

/-- A token is on the default channel. -/
def onDefaultChannel : Rule → Bool
  | Comment | WS => false
  | _ => true

end Rule

/-- How much ANTLR drops where no rule matches. -/
def recover : Str → ℕ
  -- The quote is not closed, and the text is read to its end.
  | '"' :: s => s.length + 1
  -- A comment without a line break after it stops after a carriage return.
  | '\'' :: s => (s.takeWhile inLine).length + 3
  | '\r' :: _ => 2
  | _ => 1

/-- `BasicLexer`. -/
def basicLexer : Lexer Rule Char := ⟨Rule.all, Rule.accepts, recover⟩

/-- The piece as a token on the default channel. -/
def defaultToken (p : Piece Rule Char) : Option (Rule × Str) :=
  match p.rule with
  | some r => if r.onDefaultChannel then some (r, p.text) else none
  | none => none

/-- The tokens on the default channel. -/
def defaultTokens (s : Str) : List (Rule × Str) := (basicLexer.lex s).filterMap defaultToken

example : defaultTokens ['x', '=', '1', '0', ' ', '\n'] =
    [(.ID, ['x']), (.EQ, ['=']), (.INT, ['1', '0']), (.NEWLINE, [' ', '\n'])] := by decide

/-! ## What matched texts look like -/

/-- The characters of operators and punctuation. -/
def isOperator (c : Char) : Bool := c ∈ "<>=:;+-*/(),.@".toList

/-- A line break. -/
def IsLineBreak (s : Str) : Prop := s = ['\n'] ∨ s = ['\r', '\n']

/-- The matched texts, their first character apart. -/
inductive Shape : Char → Str → Prop
  | digits {c : Char} {s : Str} : c.isDigit = true → (∀ d ∈ s, d.isDigit = true) → Shape c s
  | word {c : Char} {s : Str} : c.isAlpha = true → (∀ d ∈ s, isIdChar d = true) → Shape c s
  | operator {c : Char} {s : Str} : isOperator c = true → (∀ d ∈ s, isOperator d = true) →
    s.length ≤ 1 → Shape c s
  | string {s : Str} : '"' ∉ s → Shape '"' (s ++ ['"'])
  | comment {s b : Str} : (∀ c ∈ s, inLine c = true) → IsLineBreak b → Shape '\'' (s ++ b)
  | blank {c : Char} {s : Str} : isBlank c = true → (∀ d ∈ s, isBlank d = true) → Shape c s
  | newline {c : Char} {s : Str} : isBlank c = true ∨ inLine c = false → isNewline (c :: s) = true →
    Shape c s

/-- A character that is a letter in upper case is a letter. -/
theorem isAlpha_of_toUpper {c : Char} (h : c.toUpper.isAlpha = true) : c.isAlpha = true := by
  unfold Char.toUpper at h
  split at h
  · rename_i hc
    have hlower : c.isLower = true :=
      Bool.and_eq_true_iff.mpr ⟨decide_eq_true hc.1, decide_eq_true hc.2⟩
    show (c.isUpper || c.isLower) = true
    rw [hlower, Bool.or_true]
  · exact h

/-- Upper case makes no character below the letters. -/
theorem eq_of_toUpper {c d : Char} (hd : d.val < 'A'.val) (h : c.toUpper = d) : c = d := by
  unfold Char.toUpper at h
  split at h
  · rename_i hc
    have hlo : 97 ≤ c.val.toNat := hc.1
    have hhi : c.val.toNat ≤ 122 := hc.2
    have hd' : d.val.toNat < 65 := hd
    have hsum : (c.val + ('A'.val - 'a'.val)).toNat = c.val.toNat - 32 := by
      rw [UInt32.toNat_add, show ('A'.val - 'a'.val).toNat = 4294967264 from rfl]
      omega
    rw [← h] at hd'
    dsimp only at hd'
    omega
  · exact h

section Shapes

variable {w : String} {c : Char} {s t : Str}

/-- A keyword. -/
theorem shape_word (h : Rule.literal w (c :: s) = true)
    (hw : ∀ d ∈ w.toList, d.isAlpha = true) : Shape c s := by
  have hs : (c :: s).map Char.toUpper = w.toList := by simpa [Rule.literal] using h
  have halpha : ∀ d ∈ c :: s, d.isAlpha = true := fun d hd =>
    isAlpha_of_toUpper (hw _ (hs ▸ List.mem_map_of_mem hd))
  obtain ⟨hc, hall⟩ := List.forall_mem_cons.mp halpha
  exact .word hc fun d hd => by simp [isIdChar, hall d hd]

/-- An operator. -/
theorem shape_operator (h : Rule.literal w (c :: s) = true)
    (hw : w.toList.length ≤ 2 ∧ ∀ d ∈ w.toList, isOperator d = true ∧ d.val < 'A'.val) :
    Shape c s := by
  have hs : (c :: s).map Char.toUpper = w.toList := by simpa [Rule.literal] using h
  have hop : ∀ d ∈ c :: s, isOperator d = true := by
    intro d hd
    obtain ⟨hop, hlt⟩ := hw.2 d.toUpper (hs ▸ List.mem_map_of_mem hd)
    rwa [eq_of_toUpper hlt rfl]
  obtain ⟨hc, hall⟩ := List.forall_mem_cons.mp hop
  rw [← hs, List.length_map, List.length_cons] at hw
  exact .operator hc hall (by omega)

theorem isString_iff : isString ('"' :: s) = true ↔ ∃ x, '"' ∉ x ∧ s = x ++ ['"'] := by
  constructor
  · intro h
    rcases List.eq_nil_or_concat s with rfl | ⟨x, d, rfl⟩
    · cases h
    · simp only [isString, List.concat_eq_append, List.getLast?_concat, List.dropLast_concat,
        Bool.and_eq_true, decide_eq_true_eq, Option.some.injEq] at h
      exact ⟨x, h.2, by rw [h.1, List.concat_eq_append]⟩
  · rintro ⟨x, hx, rfl⟩
    simp [isString, hx]

theorem isComment_iff : isComment ('\'' :: s) = true ↔
    ∃ x b, (∀ c ∈ x, inLine c = true) ∧ IsLineBreak b ∧ s = x ++ b := by
  constructor
  · intro h
    have hb : IsLineBreak (s.dropWhile inLine) := by simpa [isComment, IsLineBreak] using h
    exact ⟨s.takeWhile inLine, _, fun c hc => List.mem_takeWhile_imp hc, hb, by simp⟩
  · rintro ⟨x, b, hx, hb, rfl⟩
    rw [isComment, List.dropWhile_append_of_pos hx]
    rcases hb with rfl | rfl <;> rfl

theorem isNewline_iff : isNewline s = true ↔
    ∃ x b t, (∀ c ∈ x, isBlank c = true) ∧ IsLineBreak b ∧ (∀ c ∈ t, isBlank c = true) ∧
      s = x ++ (b ++ t) := by
  constructor
  · intro h
    have hx : ∀ c ∈ s.takeWhile isBlank, isBlank c = true := fun c hc => List.mem_takeWhile_imp hc
    have hs : s = s.takeWhile isBlank ++ s.dropWhile isBlank := by simp
    unfold isNewline at h
    split at h
    · rename_i t heq
      rw [heq] at hs
      exact ⟨_, ['\n'], t, hx, .inl rfl, by simpa using h, hs⟩
    · rename_i t heq
      rw [heq] at hs
      exact ⟨_, ['\r', '\n'], t, hx, .inr rfl, by simpa using h, hs⟩
    · cases h
  · rintro ⟨x, b, t, hx, hb, ht, rfl⟩
    rw [isNewline, List.dropWhile_append_of_pos hx]
    rcases hb with rfl | rfl <;> simpa [isBlank] using ht

theorem head_of_isNewline (h : isNewline (c :: s) = true) :
    isBlank c = true ∨ inLine c = false := by
  obtain ⟨x, b, t, hx, hb, -, hs⟩ := isNewline_iff.mp h
  rcases x with - | ⟨d, x⟩
  · rcases hb with rfl | rfl <;> rw [(List.cons.inj hs).1] <;> exact .inr rfl
  · rw [(List.cons.inj hs).1]
    exact .inl (hx d (by simp))

/-- Every matched text has a shape. -/
theorem shape_of_accepts {r : Rule} (h : r.accepts (c :: s) = true) : Shape c s := by
  cases r with
  | INT | Digit =>
    have hall : ∀ d ∈ c :: s, d.isDigit = true := by
      simp only [Rule.accepts, Bool.and_eq_true, List.all_eq_true] at h
      exact h.2
    obtain ⟨hc, hall⟩ := List.forall_mem_cons.mp hall
    exact .digits hc hall
  | STRING =>
    have hc : c = '"' := by
      by_contra hc
      simp [Rule.accepts, isString, hc] at h
    rw [hc] at h ⊢
    obtain ⟨x, hx, rfl⟩ := isString_iff.mp h
    exact .string hx
  | ID =>
    simp only [Rule.accepts, isId, Bool.and_eq_true, List.all_eq_true] at h
    exact .word h.1 h.2
  | Comment =>
    have hc : c = '\'' := by
      by_contra hc
      simp [Rule.accepts, isComment, hc] at h
    rw [hc] at h ⊢
    obtain ⟨x, b, hx, hb, rfl⟩ := isComment_iff.mp h
    exact .comment hx hb
  | WS =>
    have hall : ∀ d ∈ c :: s, isBlank d = true := by
      simp only [Rule.accepts, Bool.and_eq_true, List.all_eq_true] at h
      exact h.2
    obtain ⟨hc, hall⟩ := List.forall_mem_cons.mp hall
    exact .blank hc hall
  | NEWLINE => exact .newline (head_of_isNewline h) h
  | LT | LE | GT | GE | EQ | NE | COLON | SEMICOLON | PLUS | MINUS | STAR | SLASH | LPAREN | RPAREN
  | COMMA | DOT | AT => exact shape_operator h (by decide)
  | _ => exact shape_word h (by decide)

/-- Some rule matches the text. -/
def Matched (s : Str) : Prop := ∃ r : Rule, r.accepts s = true

theorem ruleOf_eq_none_iff : basicLexer.ruleOf s = none ↔ ¬ Matched s := by
  simp only [Lexer.ruleOf, basicLexer, List.find?_eq_none, Matched, not_exists]
  exact ⟨fun h r => h r r.mem_all, fun h r _ => h r⟩

theorem accepts_of_ruleOf {r : Rule} (h : basicLexer.ruleOf s = some r) : r.accepts s = true := by
  have hfind : Rule.all.find? (Rule.accepts · s) = some r := h
  simpa only using List.find?_some hfind

theorem matched_of_ruleOf {r : Rule} (h : basicLexer.ruleOf s = some r) : Matched s :=
  ⟨r, accepts_of_ruleOf h⟩

theorem Matched.shape (h : Matched (c :: s)) : Shape c s := h.elim fun _ hr => shape_of_accepts hr

theorem matched_digits (hc : c.isDigit = true) (h : ∀ d ∈ s, d.isDigit = true) : Matched (c :: s) :=
  ⟨.INT, by simpa [Rule.accepts, hc] using h⟩

theorem matched_word (hc : c.isAlpha = true) (h : ∀ d ∈ s, isIdChar d = true) : Matched (c :: s) :=
  ⟨.ID, by simpa [Rule.accepts, isId, hc] using h⟩

theorem matched_blank (hc : isBlank c = true) (h : ∀ d ∈ s, isBlank d = true) : Matched (c :: s) :=
  ⟨.WS, by simpa [Rule.accepts, hc] using h⟩

theorem matched_newline {b : Str} (hs : ∀ c ∈ s, isBlank c = true) (hb : IsLineBreak b)
    (ht : ∀ c ∈ t, isBlank c = true) : Matched (s ++ (b ++ t)) :=
  ⟨.NEWLINE, isNewline_iff.mpr ⟨s, b, t, hs, hb, ht, rfl⟩⟩

theorem matched_operator (h : isOperator c = true) : Matched [c] := by
  have hops : ∀ c ∈ "<>=:;+-*/(),.@".toList, (basicLexer.ruleOf [c]).isSome = true := by decide
  obtain ⟨r, hr⟩ := Option.isSome_iff_exists.mp (hops c (by simpa [isOperator] using h))
  exact matched_of_ruleOf hr

/-- A matched text that begins with a quote is a string. -/
theorem Matched.string (h : Matched ('"' :: s)) : ∃ x, '"' ∉ x ∧ s = x ++ ['"'] := by
  cases h.shape with
  | string hx => exact ⟨_, hx, rfl⟩
  | digits hc | word hc | operator hc | blank hc | newline hc => exact absurd hc (by decide)

/-- A matched text that begins with an apostrophe is a comment. -/
theorem Matched.comment (h : Matched ('\'' :: s)) :
    ∃ x b, (∀ c ∈ x, inLine c = true) ∧ IsLineBreak b ∧ s = x ++ b := by
  cases h.shape with
  | comment hx hb => exact ⟨_, _, hx, hb, rfl⟩
  | digits hc | word hc | operator hc | blank hc | newline hc => exact absurd hc (by decide)

theorem not_matched_nil : ¬ Matched [] := by
  rintro ⟨r, hr⟩
  cases r <;> cases hr

/-- A newline begins with white space. -/
theorem mem_of_newline (hc : isBlank c = true ∨ inLine c = false) :
    c ∈ [' ', '\t', '\r', '\n'] := by
  simp only [isBlank, inLine, Bool.or_eq_true, Bool.and_eq_false_iff, decide_eq_true_eq,
    decide_eq_false_iff_not, not_not] at hc
  simp only [List.mem_cons, List.not_mem_nil, or_false]
  tauto

/-- A matched text that begins with white space is blank or a newline. -/
theorem Matched.newline (hc : isBlank c = true ∨ inLine c = false) (h : Matched (c :: s)) :
    (∀ d ∈ c :: s, isBlank d = true) ∨ isNewline (c :: s) = true := by
  have hmem := mem_of_newline hc
  have hnot : ∀ d ∈ [' ', '\t', '\r', '\n'],
      d.isDigit = false ∧ d.isAlpha = false ∧ isOperator d = false := by decide
  obtain ⟨hdigit, halpha, hoperator⟩ := hnot c hmem
  cases h.shape with
  | digits hd => simp [hd] at hdigit
  | word ha => simp [ha] at halpha
  | operator ho => simp [ho] at hoperator
  | string | comment => simp at hmem
  | blank hb hall => exact .inl (List.forall_mem_cons.mpr ⟨hb, hall⟩)
  | newline _ hn => exact .inr hn

theorem isNewline_blank_append (ht : ∀ d ∈ t, isBlank d = true) :
    isNewline (t ++ s) = isNewline s := by
  rw [isNewline, isNewline, List.dropWhile_append_of_pos ht]

theorem isNewline_append (ht : isNewline t = true) : isNewline (t ++ s) = s.all isBlank := by
  obtain ⟨x, b, y, hx, hb, hy, rfl⟩ := isNewline_iff.mp ht
  have hall : (y ++ s).all isBlank = s.all isBlank := by
    rw [List.all_append, List.all_eq_true.mpr hy, Bool.true_and]
  rw [List.append_assoc, isNewline_blank_append hx, List.append_assoc]
  rcases hb with rfl | rfl <;> exact hall

/-- A comment is no part of a longer one. -/
theorem Matched.not_comment_append (ht : Matched ('\'' :: t)) (hs : s ≠ []) :
    ¬ Matched ('\'' :: (t ++ s)) := by
  intro h
  obtain ⟨y, b', -, hb', rfl⟩ := ht.comment
  obtain ⟨x, b, hline, hb, hx⟩ := Matched.comment h
  have hmem : '\n' ∈ b' := by rcases hb' with rfl | rfl <;> simp
  have hlast := congrArg List.dropLast hx
  rw [List.dropLast_append_of_ne_nil hs] at hlast
  have hnot : '\n' ∉ (x ++ b).dropLast := by
    intro hd
    have hx' : '\n' ∉ x := fun h => by simpa [inLine] using hline _ h
    rcases hb with rfl | rfl <;> simp [hx'] at hd
  exact hnot (by simp [← hlast, hmem])

/-- A longer match has a match that is one character longer, except for the two characters of a line
break. -/
theorem Matched.append {q : Str} (ht : Matched t) (h : Matched (t ++ c :: q)) :
    Matched (t ++ [c]) ∨ c = '\r' ∧ q.head? = some '\n' ∧ Matched (t ++ ['\r', '\n']) := by
  rcases t with - | ⟨a, t⟩
  · exact absurd ht not_matched_nil
  have hshape : Shape a (t ++ c :: q) := h.shape
  generalize hx : t ++ c :: q = x at hshape
  have hsub : ∀ d ∈ t ++ [c], d ∈ x := by
    intro d hd
    rw [← hx]
    simp only [List.mem_append, List.mem_cons, List.not_mem_nil, or_false] at hd ⊢
    tauto
  cases hshape with
  | digits ha hall => exact .inl (matched_digits ha fun d hd => hall d (hsub d hd))
  | word ha hall => exact .inl (matched_word ha fun d hd => hall d (hsub d hd))
  | blank ha hall => exact .inl (matched_blank ha fun d hd => hall d (hsub d hd))
  | operator ha hall hlen =>
    rw [← hx, List.length_append, List.length_cons] at hlen
    obtain rfl : q = [] := List.length_eq_zero_iff.mp (by omega)
    exact .inl h
  -- A string and a comment end where they first can.
  | string hquote =>
    obtain ⟨y, -, rfl⟩ := ht.string
    have hlast := congrArg List.dropLast hx
    rw [List.dropLast_append_of_ne_nil (List.cons_ne_nil c q), List.dropLast_concat] at hlast
    exact absurd (by simp [← hlast]) hquote
  | comment => exact absurd h (ht.not_comment_append (List.cons_ne_nil c q))
  | newline ha hn =>
    rw [← hx, ← List.cons_append] at hn
    rcases ht.newline ha with hblank | hnewline
    · rw [isNewline_blank_append hblank] at hn
      obtain ⟨x, b, y, hx, hb, hy, heq⟩ := isNewline_iff.mp hn
      rcases x with - | ⟨d, x⟩
      · rcases hb with rfl | rfl
        · obtain ⟨rfl, -⟩ := List.cons.inj heq
          exact .inl (matched_newline (t := []) hblank (.inl rfl) (by simp))
        · obtain ⟨rfl, rfl⟩ := List.cons.inj heq
          exact .inr ⟨rfl, rfl, matched_newline (t := []) hblank (.inr rfl) (by simp)⟩
      · obtain ⟨rfl, -⟩ := List.cons.inj heq
        obtain ⟨ha, hall⟩ := List.forall_mem_cons.mp hblank
        refine .inl (matched_blank ha fun d hd => ?_)
        rcases List.mem_append.mp hd with hd | hd
        · exact hall d hd
        · obtain rfl := List.mem_singleton.mp hd
          exact hx _ (by simp)
    · rw [isNewline_append hnewline, List.all_cons, Bool.and_eq_true] at hn
      refine .inl ⟨.NEWLINE, ?_⟩
      show isNewline (a :: t ++ [c]) = true
      rw [isNewline_append hnewline]
      simp [hn.1]

/-! ## What comes after a piece -/

/-- A text that can take the place of the rest after a piece: it begins alike, or with a comment. -/
inductive Ahead : Str → Str → Prop
  | nil : Ahead [] []
  | comment {c : Char} {s s' : Str} : Ahead (c :: s) ('\'' :: s')
  | same {c : Char} {s s' : Str} :
    (c = '\r' → s'.head? = some '\n' → s.head? = some '\n') → Ahead (c :: s) (c :: s')

theorem not_matched_concat_apostrophe : ¬ Matched (s ++ ['\'']) := by
  intro h
  rcases s with - | ⟨a, s⟩
  · obtain ⟨x, b, -, hb, hx⟩ := Matched.comment h
    rcases hb with rfl | rfl <;> simp at hx
  · have hshape : Shape a (s ++ ['\'']) := h.shape
    generalize hx : s ++ ['\''] = x at hshape
    have hmem : '\'' ∈ x := by simp [← hx]
    cases hshape with
    | digits _ hall => exact absurd (hall _ hmem) (by decide)
    | word _ hall => exact absurd (hall _ hmem) (by decide)
    | blank _ hall => exact absurd (hall _ hmem) (by decide)
    | operator _ hall => exact absurd (hall _ hmem) (by decide)
    | string =>
      have hlast := congrArg List.getLast? hx
      simp at hlast
    | comment _ hb =>
      have hlast := congrArg List.getLast? hx
      rcases hb with rfl | rfl <;> simp at hlast
    | newline _ hn =>
      rw [← hx, ← List.cons_append] at hn
      obtain ⟨x, b, y, hx, hb, hy, heq⟩ := isNewline_iff.mp hn
      have hin : '\'' ∈ x ++ (b ++ y) := by simp [← heq]
      simp only [List.mem_append] at hin
      rcases hin with hin | hin | hin
      · exact absurd (hx _ hin) (by decide)
      · rcases hb with rfl | rfl <;> simp at hin
      · exact absurd (hy _ hin) (by decide)

/-- A token is the same before a text that can take the place of the rest. -/
theorem isToken_of_ahead {r : Rule} {u u' : Str} (h : basicLexer.IsToken r t u) (hu : Ahead u u') :
    basicLexer.IsToken r t u' := by
  have ht := matched_of_ruleOf h.rule
  refine ⟨h.ne_nil, h.rule, fun q hq hprefix => ?_⟩
  rw [ruleOf_eq_none_iff]
  intro hmatched
  obtain ⟨d, q, rfl⟩ := List.exists_cons_of_ne_nil hq
  have hlonger : ∀ {p}, p ≠ [] → p <+: u → ¬ Matched (t ++ p) := fun hp hpre =>
    ruleOf_eq_none_iff.mp (h.longest _ hp hpre)
  rcases ht.append hmatched with hone | ⟨rfl, hq, htwo⟩
  · cases hu with
    | nil => simp at hprefix
    | comment =>
      obtain ⟨rfl, -⟩ := List.cons_prefix_cons.mp hprefix
      exact not_matched_concat_apostrophe hone
    | same =>
      obtain ⟨rfl, -⟩ := List.cons_prefix_cons.mp hprefix
      exact hlonger (by simp) (by simp) hone
  · cases hu with
    | nil => simp at hprefix
    | comment => exact absurd (List.cons_prefix_cons.mp hprefix).1 (by decide)
    | @same c s s' hsame =>
      obtain ⟨rfl, hpre⟩ := List.cons_prefix_cons.mp hprefix
      obtain ⟨q, rfl⟩ := List.head?_eq_some_iff.mp hq
      obtain ⟨x, rfl⟩ := hpre
      obtain ⟨y, rfl⟩ := List.head?_eq_some_iff.mp (hsame rfl rfl)
      exact hlonger (by simp) (by simp) htwo

/-- What is dropped before the end of a text. -/
inductive Unmatched : Str → Prop
  | comment {s : Str} {e : Char} : (∀ c ∈ s, inLine c = true) → e ≠ '\n' →
    Unmatched ('\'' :: (s ++ ['\r', e]))
  | carriageReturn {e : Char} : e ≠ '\n' → Unmatched ['\r', e]
  | other {c : Char} : ¬ Matched [c] → c ∉ ['"', '\'', '\r'] → Unmatched [c]

theorem recover_other (hc : c ∉ ['"', '\'', '\r']) : recover (c :: s) = 1 := by
  simp only [List.mem_cons, List.not_mem_nil, or_false, not_or] at hc
  unfold recover
  split <;> simp_all

theorem takeWhile_inLine (hs : ∀ d ∈ s, inLine d = true) (hc : inLine c = false) :
    (s ++ c :: t).takeWhile inLine = s := by
  rw [List.takeWhile_append_of_pos hs]
  simp [hc]

/-- A comment that is dropped stops after a carriage return. -/
theorem unmatched_comment {u : Str} (hu : 0 < u.length)
    (hnone : ∀ q, q <+: s ++ u → ¬ Matched ('\'' :: q))
    (hlen : s.length = ((s ++ u).takeWhile inLine).length + 2) : Unmatched ('\'' :: s) := by
  have hsplit : s ++ u = (s ++ u).takeWhile inLine ++ (s ++ u).dropWhile inLine := by simp
  have hhead := List.head?_dropWhile_not inLine (s ++ u)
  have hx : ∀ c ∈ (s ++ u).takeWhile inLine, inLine c = true := fun c hc =>
    List.mem_takeWhile_imp hc
  generalize (s ++ u).takeWhile inLine = x at hsplit hx hlen
  generalize (s ++ u).dropWhile inLine = y at hsplit hhead
  have hlong : 3 ≤ y.length := by
    have hlength := congrArg List.length hsplit
    rw [List.length_append, List.length_append] at hlength
    omega
  rcases y with - | ⟨d, - | ⟨e, y⟩⟩
  · simp at hlong
  · simp at hlong
  have hd : d = '\r' ∨ d = '\n' := by
    have hd : inLine d = false := hhead
    simpa [inLine, or_iff_not_imp_left] using hd
  have hmatched : ∀ b, IsLineBreak b → ¬ x ++ b <+: s ++ u := fun b hb hpre =>
    hnone _ hpre ⟨.Comment, isComment_iff.mpr ⟨x, b, hx, hb, rfl⟩⟩
  rcases hd with rfl | rfl
  · have he : e ≠ '\n' := by
      rintro rfl
      exact hmatched ['\r', '\n'] (.inr rfl) ⟨y, by simp [hsplit]⟩
    have hs : s = x ++ ['\r', e] := by
      have happend : s ++ u = (x ++ ['\r', e]) ++ y := by simp [hsplit]
      exact (List.append_inj happend (by simp [hlen])).1
    rw [hs]
    exact .comment hx he
  · exact absurd ⟨e :: y, by simp [hsplit]⟩ (hmatched ['\n'] (.inl rfl))

/-- No rule matches a beginning, and the recovery ends with the text. -/
theorem isDropped_cons_iff {u : Str} : basicLexer.IsDropped (c :: s) u ↔
    (∀ q, q <+: s ++ u → ¬ Matched (c :: q)) ∧
      c :: s = (c :: (s ++ u)).take (max 1 (recover (c :: (s ++ u)))) := by
  constructor
  · intro h
    exact ⟨fun q hq => ruleOf_eq_none_iff.mp (h.none (c :: q) (by simp) (by simpa using hq)),
      h.text⟩
  · rintro ⟨hnone, htext⟩
    refine ⟨by simp, fun q hq hprefix => ?_, htext⟩
    obtain ⟨d, q, rfl⟩ := List.exists_cons_of_ne_nil hq
    obtain ⟨rfl, hrest⟩ := List.cons_prefix_cons.mp hprefix
    exact ruleOf_eq_none_iff.mpr (hnone q hrest)

theorem unmatched_of_isDropped {u : Str} (h : basicLexer.IsDropped t u) (hu : u ≠ []) :
    Unmatched t := by
  obtain ⟨c, s, rfl⟩ := List.exists_cons_of_ne_nil h.ne_nil
  obtain ⟨hnone, htext⟩ := isDropped_cons_iff.mp h
  have hpos := List.length_pos_iff.mpr hu
  have hlen : s.length + 1 = max 1 (recover (c :: (s ++ u))) := by
    have htext := congrArg List.length htext
    rw [List.length_take, List.length_cons, List.length_cons, List.length_append] at htext
    omega
  by_cases hc : c ∈ ['"', '\'', '\r']
  · simp only [List.mem_cons, List.not_mem_nil, or_false] at hc
    rcases hc with rfl | rfl | rfl
    · rw [show recover ('"' :: (s ++ u)) = (s ++ u).length + 1 from rfl, List.length_append] at hlen
      omega
    · have hrecover : recover ('\'' :: (s ++ u)) = ((s ++ u).takeWhile inLine).length + 3 := rfl
      rw [hrecover] at hlen
      exact unmatched_comment (u := u) hpos hnone (by omega)
    · rw [show recover ('\r' :: (s ++ u)) = 2 from rfl] at hlen
      obtain ⟨e, rfl⟩ := List.length_eq_one_iff.mp (by omega : s.length = 1)
      refine .carriageReturn ?_
      rintro rfl
      have hbreak : Matched ['\r', '\n'] :=
        matched_newline (s := []) (t := []) (by simp) (.inr rfl) (by simp)
      exact hnone ['\n'] (by simp) hbreak
  · rw [recover_other hc, max_self] at hlen
    obtain rfl : s = [] := List.length_eq_zero_iff.mp (by omega)
    exact .other (hnone [] (by simp)) hc

theorem isDropped_comment {e : Char} (hs : ∀ c ∈ s, inLine c = true) (he : e ≠ '\n') (u : Str) :
    basicLexer.IsDropped ('\'' :: (s ++ ['\r', e])) u := by
  rw [isDropped_cons_iff]
  constructor
  · rintro q ⟨z, hz⟩ hmatched
    obtain ⟨x, b, hx, hb, rfl⟩ := hmatched.comment
    -- The line of the comment ends where the line of the text does.
    have htake := congrArg (List.takeWhile inLine) hz
    rw [List.append_assoc, List.append_assoc, List.cons_append,
      takeWhile_inLine hs (by decide)] at htake
    rcases hb with rfl | rfl
    · rw [List.singleton_append, takeWhile_inLine hx (by decide)] at htake
      simp [htake] at hz
    · rw [List.cons_append, takeWhile_inLine hx (by decide)] at htake
      simp only [htake, List.append_assoc, List.append_cancel_left_eq, List.cons_append,
        List.cons.injEq, true_and] at hz
      exact he hz.1.symm
  · have hrecover : recover ('\'' :: (s ++ ['\r', e] ++ u)) = s.length + 3 := by
      show (List.takeWhile inLine (s ++ ['\r', e] ++ u)).length + 3 = s.length + 3
      rw [List.append_assoc, List.cons_append, takeWhile_inLine hs (by decide)]
    rw [hrecover, Nat.max_eq_right (by omega)]
    show _ = ('\'' :: (s ++ ['\r', e]) ++ u).take (s.length + 3)
    rw [List.take_left' (by simp)]

theorem isDropped_carriageReturn {e : Char} (he : e ≠ '\n') (u : Str) :
    basicLexer.IsDropped ['\r', e] u := by
  rw [isDropped_cons_iff]
  refine ⟨?_, rfl⟩
  rintro q ⟨z, hz⟩ hmatched
  rcases hmatched.newline (.inr rfl) with hblank | hnewline
  · exact absurd (hblank '\r' (by simp)) (by decide)
  · rcases q with - | ⟨f, q⟩
    · cases hnewline
    · obtain ⟨rfl, -⟩ := List.cons.inj hz
      have hf : f = '\n' := by
        by_contra hf
        simp [isNewline, isBlank, hf] at hnewline
      exact he hf

theorem isDropped_other (hc : ¬ Matched [c]) (hmem : c ∉ ['"', '\'', '\r']) (u : Str) :
    basicLexer.IsDropped [c] u := by
  rw [isDropped_cons_iff, recover_other hmem]
  refine ⟨fun q _ hmatched => ?_, rfl⟩
  simp only [List.mem_cons, List.not_mem_nil, or_false, not_or] at hmem
  -- Whatever else begins with the character, it is matched alone.
  cases hmatched.shape with
  | digits hd => exact hc (matched_digits hd (by simp))
  | word ha => exact hc (matched_word ha (by simp))
  | operator ho => exact hc (matched_operator ho)
  | string => exact hmem.1 rfl
  | comment => exact hmem.2.1 rfl
  | blank hb => exact hc (matched_blank hb (by simp))
  | newline hd hn =>
    have hspace := mem_of_newline hd
    simp only [List.mem_cons, List.not_mem_nil, or_false] at hspace
    rcases hspace with rfl | rfl | rfl | rfl
    · exact hc (matched_blank rfl (by simp))
    · exact hc (matched_blank rfl (by simp))
    · exact hmem.2.2 rfl
    · exact hc (matched_newline (s := []) (t := []) (by simp) (.inl rfl) (by simp))

theorem isDropped_of_unmatched (h : Unmatched t) (u : Str) : basicLexer.IsDropped t u := by
  cases h with
  | comment hs he => exact isDropped_comment hs he u
  | carriageReturn he => exact isDropped_carriageReturn he u
  | other hc hmem => exact isDropped_other hc hmem u

/-- What is dropped is the same before a text that can take the place of the rest. -/
theorem isDropped_of_ahead {u u' : Str} (h : basicLexer.IsDropped t u) (hu : Ahead u u') :
    basicLexer.IsDropped t u' := by
  cases hu with
  | nil => exact h
  | comment => exact isDropped_of_unmatched (unmatched_of_isDropped h (by simp)) _
  | same => exact isDropped_of_unmatched (unmatched_of_isDropped h (by simp)) _

end Shapes

end WwivBasic.BasicLexer
