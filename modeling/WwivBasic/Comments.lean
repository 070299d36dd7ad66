import WwivBasic.BasicLexer

/-!
# Comments at the end of lines

A comment is hidden from the parser, but the rule for comments also takes the line break after the
comment: the line loses the `NEWLINE` that ends its statement.

## Main definitions

* `withComments`: a text with comments before the line breaks of some of its lines
* `comments`: the comments that are put into the text

## Main results

* `defaultTokens_commentLines`: the tokens that are left
* `defaultTokens_withComments_iff`: they are those of the text only without any comment
-/

namespace WwivBasic.BasicLexer

open MaximalMunch (Lexer Piece)

section Hidden

variable {w : String} {c : Char} {s t : Str}

/-! ## Hidden tokens and line breaks -/

/-- The characters comments and white space begin with. -/
def special : Str := ['\'', ' ', '\t', '\r', '\n']

theorem not_literal (hw : ∀ d ∈ special, w.toList.head? ≠ some d.toUpper) (hc : c ∈ special) :
    ¬ Rule.literal w (c :: s) = true := by
  intro h
  have hs : (c :: s).map Char.toUpper = w.toList := by simpa [Rule.literal] using h
  exact hw c hc (by simp [← hs])

/-- What a rule matches that begins with an apostrophe or white space. -/
theorem rule_of_special {r : Rule} (hc : c ∈ special) (h : r.accepts (c :: s) = true) :
    r = .Comment ∨ r = .WS ∨ r = .NEWLINE := by
  have hnot : ∀ d ∈ special, d.isDigit = false ∧ d.isAlpha = false ∧ d ≠ '"' := by decide
  obtain ⟨hdigit, halpha, hquote⟩ := hnot c hc
  cases r with
  | Comment => exact .inl rfl
  | WS => exact .inr (.inl rfl)
  | NEWLINE => exact .inr (.inr rfl)
  | INT | Digit => simp [Rule.accepts, hdigit] at h
  | STRING => simp [Rule.accepts, isString, hquote] at h
  | ID => simp [Rule.accepts, isId, halpha] at h
  | _ => exact absurd h (not_literal (by decide) hc)

theorem ruleOf_eq {r : Rule} (h : r.accepts s = true) (huniq : ∀ r', r'.accepts s = true → r' = r) :
    basicLexer.ruleOf s = some r := by
  cases hr : basicLexer.ruleOf s with
  | none => exact absurd ⟨r, h⟩ (ruleOf_eq_none_iff.mp hr)
  | some r' => rw [huniq r' (accepts_of_ruleOf hr)]

theorem ruleOf_comment {b : Str} (hs : ∀ d ∈ s, inLine d = true) (hb : IsLineBreak b) :
    basicLexer.ruleOf ('\'' :: (s ++ b)) = some .Comment := by
  refine ruleOf_eq (isComment_iff.mpr ⟨s, b, hs, hb, rfl⟩) fun r hr => ?_
  rcases rule_of_special (by decide) hr with rfl | rfl | rfl
  · rfl
  · simp [Rule.accepts, isBlank] at hr
  · simp [Rule.accepts, isNewline, isBlank] at hr

theorem ruleOf_blank (hs : s ≠ []) (hblank : ∀ d ∈ s, isBlank d = true) :
    basicLexer.ruleOf s = some .WS := by
  refine ruleOf_eq (by simpa [Rule.accepts, hs] using hblank) fun r hr => ?_
  obtain ⟨c, s, rfl⟩ := List.exists_cons_of_ne_nil hs
  have hc : c = ' ' ∨ c = '\t' := by simpa [isBlank] using hblank c (by simp)
  rcases rule_of_special (by rcases hc with rfl | rfl <;> decide) hr with rfl | rfl | rfl
  · rcases hc with rfl | rfl <;> cases hr
  · rfl
  · have hnewline : isNewline (c :: s) = true := hr
    rw [isNewline, List.dropWhile_eq_nil_iff.mpr hblank] at hnewline
    cases hnewline

theorem ruleOf_newline {x b : Str} (hx : ∀ d ∈ x, isBlank d = true) (hb : IsLineBreak b)
    (hs : ∀ d ∈ s, isBlank d = true) : basicLexer.ruleOf (x ++ (b ++ s)) = some .NEWLINE := by
  have hnewline := isNewline_iff.mpr ⟨x, b, s, hx, hb, hs, rfl⟩
  refine ruleOf_eq hnewline fun r hr => ?_
  have hbreak : '\n' ∈ x ++ (b ++ s) := by rcases hb with rfl | rfl <;> simp
  obtain ⟨c, t, ht⟩ := List.exists_cons_of_ne_nil (List.ne_nil_of_mem hbreak)
  rw [ht] at hr hbreak hnewline
  have hmem := mem_of_newline (head_of_isNewline hnewline)
  have hspecial : ∀ d ∈ [' ', '\t', '\r', '\n'], d ∈ special ∧ d ≠ '\'' := by decide
  obtain ⟨hc, hapostrophe⟩ := hspecial c hmem
  rcases rule_of_special hc hr with rfl | rfl | rfl
  · simp [Rule.accepts, isComment, hapostrophe] at hr
  · simp only [Rule.accepts, Bool.and_eq_true, List.all_eq_true] at hr
    exact absurd (hr.2 _ hbreak) (by decide)
  · rfl

/-! ## Tokens and what comes after them -/

theorem isToken_comment {b u : Str} (hs : ∀ d ∈ s, inLine d = true) (hb : IsLineBreak b) :
    basicLexer.IsToken .Comment ('\'' :: (s ++ b)) u := by
  refine ⟨by simp, ruleOf_comment hs hb, fun q hq _ => ?_⟩
  rw [ruleOf_eq_none_iff]
  exact (matched_of_ruleOf (ruleOf_comment hs hb)).not_comment_append hq

/-- White space before a text that neither goes on with it nor begins with a line break. -/
theorem isToken_blank {u : Str} (hs : s ≠ []) (hblank : ∀ d ∈ s, isBlank d = true)
    (hu : ∀ q, q ≠ [] → q <+: u → ¬ Matched (s ++ q)) : basicLexer.IsToken .WS s u :=
  ⟨hs, ruleOf_blank hs hblank, fun q hq hprefix => ruleOf_eq_none_iff.mpr (hu q hq hprefix)⟩

theorem isToken_newline {x b u : Str} (hx : ∀ d ∈ x, isBlank d = true) (hb : IsLineBreak b)
    (hs : ∀ d ∈ s, isBlank d = true) (hu : ∀ d, u.head? = some d → isBlank d = false) :
    basicLexer.IsToken .NEWLINE (x ++ (b ++ s)) u := by
  have hnewline := isNewline_iff.mpr ⟨x, b, s, hx, hb, hs, rfl⟩
  refine ⟨?_, ruleOf_newline hx hb hs, fun q hq hprefix => ?_⟩
  · rcases hb with rfl | rfl <;> simp
  · rw [ruleOf_eq_none_iff]
    intro hmatched
    obtain ⟨d, q, rfl⟩ := List.exists_cons_of_ne_nil hq
    have hd : isBlank d = false := by
      obtain ⟨v, rfl⟩ := hprefix
      exact hu d rfl
    have hbreak : '\n' ∈ x ++ (b ++ s) := by rcases hb with rfl | rfl <;> simp
    obtain ⟨c, t, ht⟩ := List.exists_cons_of_ne_nil (List.ne_nil_of_mem hbreak)
    rw [ht] at hmatched hbreak hnewline
    rw [List.cons_append] at hmatched
    rcases hmatched.newline (head_of_isNewline hnewline) with hblank | hlonger
    · rw [← List.cons_append] at hblank
      exact absurd (hblank '\n' (List.mem_append_left _ hbreak)) (by decide)
    · rw [← List.cons_append, isNewline_append hnewline, List.all_cons, hd] at hlonger
      cases hlonger

theorem defaultTokens_token {r : Rule} {u : Str} (h : basicLexer.IsToken r t u) :
    defaultTokens (t ++ u) = (defaultToken ⟨some r, t⟩).toList ++ defaultTokens u := by
  rw [defaultTokens, Lexer.lex_token h, List.filterMap_cons]
  cases defaultToken ⟨some r, t⟩ <;> rfl

theorem defaultTokens_dropped {u : Str} (h : basicLexer.IsDropped t u) :
    defaultTokens (t ++ u) = defaultTokens u := by
  rw [defaultTokens, Lexer.lex_dropped h, List.filterMap_cons]
  rfl

/-- White space before a text is hidden, or makes part of its first token. -/
theorem defaultTokens_blank_append {u : Str} (hs : ∀ d ∈ s, isBlank d = true)
    (hu : ∀ d, u.head? = some d → isBlank d = false) :
    (defaultTokens (s ++ u)).map Prod.fst = (defaultTokens u).map Prod.fst := by
  rcases s with - | ⟨a, s⟩
  · rfl
  by_cases hlonger : ∃ q, q ≠ [] ∧ q <+: u ∧ Matched (a :: s ++ q)
  -- The white space goes into a newline, which is one without it as well.
  · obtain ⟨q, hq, ⟨z, rfl⟩, hmatched⟩ := hlonger
    obtain ⟨d, q, rfl⟩ := List.exists_cons_of_ne_nil hq
    have hd : isBlank d = false := hu d rfl
    have hnewline : isNewline (d :: q) = true := by
      rw [List.cons_append] at hmatched
      rcases hmatched.newline (.inl (hs a (by simp))) with hblank | hnewline
      · simp [hblank d (by simp)] at hd
      · rwa [← List.cons_append, isNewline_blank_append hs] at hnewline
    obtain ⟨x, b, y, hx, hb, hy, heq⟩ := isNewline_iff.mp hnewline
    obtain rfl : x = [] := by
      rcases x with - | ⟨e, x⟩
      · rfl
      · obtain ⟨rfl, -⟩ := List.cons.inj heq
        simp [hx d (by simp)] at hd
    have hyz : ∀ e ∈ (y ++ z).takeWhile isBlank, isBlank e = true := fun e he =>
      List.mem_takeWhile_imp he
    have hrest : ∀ e, ((y ++ z).dropWhile isBlank).head? = some e → isBlank e = false := by
      intro e he
      have hhead := List.head?_dropWhile_not isBlank (y ++ z)
      rw [he] at hhead
      exact hhead
    have hsplit : d :: q ++ z =
        (b ++ (y ++ z).takeWhile isBlank) ++ (y ++ z).dropWhile isBlank := by
      rw [heq]
      simp
    have hbare := defaultTokens_token (isToken_newline (x := []) (by simp) hb hyz hrest)
    have hfull := defaultTokens_token (isToken_newline hs hb hyz hrest)
    rw [List.nil_append] at hbare
    rw [hsplit, hbare, ← List.append_assoc, hfull]
    rfl
  · have htoken : basicLexer.IsToken .WS (a :: s) u := by
      refine isToken_blank (by simp) hs fun q hq hprefix hmatched => ?_
      exact hlonger ⟨q, hq, hprefix, hmatched⟩
    rw [defaultTokens_token htoken]
    rfl

end Hidden

/-! ## Comments before line breaks -/

/-- The text of a comment. -/
structure CommentText where
  text : Str
  inLine : ∀ c ∈ text, inLine c = true

/-- A comment just before the line break of a newline. -/
def insertComment (c : CommentText) (t : Str) : Str :=
  t.takeWhile isBlank ++ '\'' :: (c.text ++ t.dropWhile isBlank)

/-- The comment before the line break of a piece, if it ends the line in a `NEWLINE`: other line
breaks are in a string or end a comment. -/
def commentOf (choice : ℕ → Option CommentText) (line : ℕ) (p : Piece Rule Char) :
    Option CommentText :=
  if p.rule = some .NEWLINE then choice line else none

/-- The text of the pieces from a line on, with comments at the end of the lines chosen. -/
def commentLines (choice : ℕ → Option CommentText) : ℕ → List (Piece Rule Char) → Str
  | _, [] => []
  | line, p :: ps =>
    (match commentOf choice line p with
      | some c => insertComment c p.text
      | none => p.text) ++ commentLines choice (line + p.text.count '\n') ps

/-- A text with comments at the end of the lines chosen. -/
def withComments (choice : ℕ → Option CommentText) (s : Str) : Str :=
  commentLines choice 0 (basicLexer.lex s)

/-- The tokens on the default channel, but for the newlines that got a comment. -/
def keptTokens (choice : ℕ → Option CommentText) : ℕ → List (Piece Rule Char) → List (Rule × Str)
  | _, [] => []
  | line, p :: ps =>
    (match commentOf choice line p with
      | some _ => []
      | none => (defaultToken p).toList) ++ keptTokens choice (line + p.text.count '\n') ps

/-- The comments that are put into the text. -/
def comments (choice : ℕ → Option CommentText) : ℕ → List (Piece Rule Char) → List CommentText
  | _, [] => []
  | line, p :: ps =>
    (commentOf choice line p).toList ++ comments choice (line + p.text.count '\n') ps

section Lines

variable {choice : ℕ → Option CommentText} {line : ℕ} {c : CommentText} {s t u u' : Str}

theorem Ahead.append (h : Ahead u u') (ht : t ≠ []) (hcr : t = ['\r'] → u = []) :
    Ahead (t ++ u) (t ++ u') := by
  obtain ⟨a, t, rfl⟩ := List.exists_cons_of_ne_nil ht
  refine .same ?_
  rintro rfl hhead
  rcases t with - | ⟨d, t⟩
  · obtain rfl := hcr rfl
    cases h
    cases hhead
  · exact hhead

/-- A carriage return alone is no token. -/
theorem not_matched_carriageReturn : ¬ Matched ['\r'] := by
  intro h
  rcases h.newline (.inr rfl) with hblank | hnewline
  · exact absurd (hblank '\r' (by simp)) (by decide)
  · cases hnewline

theorem eq_nil_of_isDropped_carriageReturn (h : basicLexer.IsDropped ['\r'] u) : u = [] := by
  by_contra hu
  generalize ht : ['\r'] = t at h
  cases unmatched_of_isDropped h hu with
  | comment => cases ht
  | carriageReturn => cases ht
  | other _ hc =>
    obtain ⟨rfl, -⟩ := List.cons.inj ht
    simp at hc

/-- After a newline there is no white space. -/
theorem isBlank_head_of_newline (h : basicLexer.IsToken .NEWLINE t u) (ht : isNewline t = true)
    (d : Char) (hd : u.head? = some d) : isBlank d = false := by
  obtain ⟨u, rfl⟩ := List.head?_eq_some_iff.mp hd
  by_contra hblank
  refine ruleOf_eq_none_iff.mp (h.longest [d] (by simp) (by simp)) ⟨.NEWLINE, ?_⟩
  show isNewline (t ++ [d]) = true
  rw [isNewline_append ht]
  simpa using hblank

/-- A comment takes the place of the line break. -/
theorem defaultTokens_insertComment (ht : isNewline t = true)
    (hu : ∀ d, u.head? = some d → isBlank d = false) :
    (defaultTokens (insertComment c t ++ u)).map Prod.fst = (defaultTokens u).map Prod.fst := by
  obtain ⟨x, b, y, hx, hb, hy, rfl⟩ := isNewline_iff.mp ht
  have hdrop : (b ++ y).dropWhile isBlank = b ++ y := by rcases hb with rfl | rfl <;> rfl
  have htake : (b ++ y).takeWhile isBlank = [] := by rcases hb with rfl | rfl <;> rfl
  have hinsert : insertComment c (x ++ (b ++ y)) ++ u =
      x ++ ('\'' :: (c.text ++ b) ++ (y ++ u)) := by
    rw [insertComment, List.dropWhile_append_of_pos hx, List.takeWhile_append_of_pos hx, hdrop,
      htake]
    simp
  rw [hinsert, defaultTokens_blank_append hx (by simp [isBlank]),
    defaultTokens_token (isToken_comment c.inLine hb)]
  exact defaultTokens_blank_append hy hu

theorem ahead_insertComment (ht : isNewline t = true) :
    Ahead (t ++ u) (insertComment c t ++ u') := by
  rcases t with - | ⟨a, t⟩
  · cases ht
  by_cases ha : isBlank a = true
  · rw [insertComment, List.takeWhile_cons_of_pos ha]
    refine .same ?_
    rintro rfl
    cases ha
  · rw [insertComment, List.takeWhile_cons_of_neg ha]
    exact .comment

theorem Ahead.head (h : Ahead u u') (hu : ∀ d, u.head? = some d → isBlank d = false) (d : Char)
    (hd : u'.head? = some d) : isBlank d = false := by
  cases h with
  | nil => cases hd
  | comment =>
    obtain rfl := Option.some.inj hd
    rfl
  | same => exact hu d hd

/-- What is left of the tokens: a comment before the line break of a line takes away its `NEWLINE`,
and nothing else. -/
theorem defaultTokens_commentLines (choice : ℕ → Option CommentText) (s : Str) (line : ℕ) :
    Ahead s (commentLines choice line (basicLexer.lex s)) ∧
      (defaultTokens (commentLines choice line (basicLexer.lex s))).map Prod.fst =
        (keptTokens choice line (basicLexer.lex s)).map Prod.fst := by
  induction s using basicLexer.lex_induction generalizing line with
  | nil => exact ⟨.nil, rfl⟩
  | token r t u h ih =>
    obtain ⟨hahead, htypes⟩ := ih (line + t.count '\n')
    rw [Lexer.lex_token h, commentLines, keptTokens]
    cases hcomment : commentOf choice line ⟨some r, t⟩ with
    | none =>
      refine ⟨hahead.append h.ne_nil ?_, ?_⟩
      · rintro rfl
        exact absurd (matched_of_ruleOf h.rule) not_matched_carriageReturn
      · rw [defaultTokens_token (isToken_of_ahead h hahead), List.map_append, List.map_append,
          htypes]
    | some c =>
      obtain rfl : r = .NEWLINE := by
        by_contra hr
        simp [commentOf, hr] at hcomment
      have ht : isNewline t = true := accepts_of_ruleOf h.rule
      refine ⟨ahead_insertComment ht, ?_⟩
      rw [defaultTokens_insertComment ht (hahead.head (isBlank_head_of_newline h ht)), htypes]
      rfl
  | dropped t u h ih =>
    obtain ⟨hahead, htypes⟩ := ih (line + t.count '\n')
    rw [Lexer.lex_dropped h, commentLines, keptTokens]
    refine ⟨hahead.append h.ne_nil ?_, ?_⟩
    · rintro rfl
      exact eq_nil_of_isDropped_carriageReturn h
    · have hdropped := defaultTokens_dropped (isDropped_of_ahead h hahead)
      exact (congrArg (List.map Prod.fst) hdropped).trans htypes

/-- A comment costs a token. -/
theorem length_keptTokens (choice : ℕ → Option CommentText) (line : ℕ)
    (ps : List (Piece Rule Char)) :
    (keptTokens choice line ps).length + (comments choice line ps).length =
      (ps.filterMap defaultToken).length := by
  induction ps generalizing line with
  | nil => rfl
  | cons p ps ih =>
    have hrest := ih (line + p.text.count '\n')
    have hcons : ((p :: ps).filterMap defaultToken).length =
        (defaultToken p).toList.length + (ps.filterMap defaultToken).length := by
      rw [List.filterMap_cons]
      cases defaultToken p <;> simp [Nat.add_comm]
    rw [keptTokens, comments, hcons, ← hrest]
    cases hcomment : commentOf choice line p with
    | none => simp [Nat.add_assoc]
    | some c =>
      have hrule : p.rule = some .NEWLINE := by
        by_contra hr
        simp [commentOf, hr] at hcomment
      simp [defaultToken, hrule, Rule.onDefaultChannel]
      omega

theorem commentLines_eq_text (ps : List (Piece Rule Char)) (h : comments choice line ps = []) :
    commentLines choice line ps = ps.flatMap (·.text) := by
  induction ps generalizing line with
  | nil => rfl
  | cons p ps ih =>
    rw [comments, List.append_eq_nil_iff] at h
    obtain ⟨hcomment, hrest⟩ := h
    have hnone : commentOf choice line p = none := by simpa using hcomment
    rw [commentLines, hnone, ih hrest, List.flatMap_cons]

/-- **The tokens are unchanged only without comments**: comments put before the line breaks of lines
leave the tokens on the default channel as they were if and only if there are none. -/
theorem defaultTokens_withComments_iff (choice : ℕ → Option CommentText) (s : Str) :
    defaultTokens (withComments choice s) = defaultTokens s ↔
      comments choice 0 (basicLexer.lex s) = [] := by
  constructor
  · intro h
    have htypes := (defaultTokens_commentLines choice s 0).2
    rw [show commentLines choice 0 (basicLexer.lex s) = withComments choice s from rfl, h] at htypes
    have hlength := congrArg List.length htypes
    have hkept := length_keptTokens choice 0 (basicLexer.lex s)
    rw [List.length_map, List.length_map, defaultTokens] at hlength
    exact List.length_eq_zero_iff.mp (by omega)
  · intro h
    rw [withComments, commentLines_eq_text _ h, Lexer.flatMap_lex]

/-- `a=1` and a comment after it. -/
theorem defaultTokens_ne_afterAssignment :
    defaultTokens (withComments (fun _ => some ⟨['c'], by decide⟩) ['a', '=', '1', '\n']) ≠
      defaultTokens ['a', '=', '1', '\n'] := by decide

end Lines

end WwivBasic.BasicLexer
