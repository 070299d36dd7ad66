import Mathlib.Algebra.GroupWithZero.Nat
import Mathlib.Data.List.TakeWhile
import Mathlib.Tactic.ByContra
import WwivBasic.Core.Parser.Lexer
import WwivBasic.Foundations.RunLogic

/-!
# What the lexer of conditions reports

The constructor of the lexer reads a text piece by piece. A piece that is no token is passed over
in silence when it is white space, a character that begins nothing, or a literal that has only its
opening and that the end of the text cuts off; a comment that does not end is silent as well. Other
defects leave an error token, but for a character literal of the wrong size, whose message cannot
be formatted.

## Main definitions

* `Piece`, `Piece.Fits`: the pieces, and what the lexer finds at the front of a text
* `Pieces`: a text, piece by piece
* `Tiles`: every character is white space or belongs to a token
* `Accounted`, `Reports`: what an error state is for

## Main results

* `exists_pieces`: every text has pieces
* `run_pieces`: the lexer, piece by piece
* `accounted_iff`, `reports_iff`: when the lexer reports what is wrong with a text
-/

namespace WwivBasic.Parser

open List (Forall₂)

/-- What the lexer finds at the front of a text. -/
inductive Piece
  | blank (c : Char)
  | token (u : Spelling)
  /-- A character that begins nothing. -/
  | unknown (c : Char)
  /-- `&` or `|`, where no second one follows. -/
  | stray (c : Char)
  /-- A character literal that is closed, and has another length than one. -/
  | wrongSize (tx : Str)
  /-- A comment, a string or a character literal that the end of the text cuts off. -/
  | openComment (tx : Str)
  | openString (tx : Str)
  | openCharacter (tx : Str)

namespace Piece

def text : Piece → Str
  | blank c | unknown c | stray c => [c]
  | token u => u.text
  | wrongSize tx => '\'' :: tx ++ ['\'']
  | openComment tx => '/' :: '*' :: tx
  | openString tx => '"' :: tx
  | openCharacter tx => '\'' :: tx

/-- The piece is at the front of a text that goes on with `rest`. -/
def Fits (rest : Str) : Piece → Prop
  | blank c => Lexer.isWs c = true
  | token u => u.Legal ∧ u.Ends rest
  | unknown c => c ∉ Lexer.specials ∧ c.isAlphanum = false
  | stray c => (c = '&' ∨ c = '|') ∧ rest.head? ≠ some c
  | wrongSize tx => '\'' ∉ tx ∧ tx.length ≠ 1
  | openComment tx => rest = [] ∧ ¬ ['*', '/'] <:+: tx
  | openString tx => rest = [] ∧ '"' ∉ tx
  | openCharacter tx => rest = [] ∧ '\'' ∉ tx

/-- The constructor throws. -/
def throws : Piece → Bool
  | wrongSize _ => true
  | _ => false

/-- An error token is emitted. -/
def reported : Piece → Bool
  | stray _ => true
  | openString tx | openCharacter tx => tx ≠ []
  | _ => false

/-- A literal that does not end, of which nothing is said. -/
def silentlyOpen : Piece → Bool
  | openComment _ => true
  | openString tx | openCharacter tx => tx = []
  | _ => false

/-- A piece other than white space that leaves nothing behind. -/
def silent : Piece → Bool
  | unknown _ => true
  | p => p.silentlyOpen

/-- A comment or a literal that does not end. -/
def isOpen : Piece → Bool
  | openComment _ | openString _ | openCharacter _ => true
  | _ => false

/-- A literal without an end or of the wrong size, or a stray operator character. -/
def malformed (p : Piece) : Bool :=
  match p with
  | stray _ | wrongSize _ => true
  | p => p.isOpen

/-- The tokens that are emitted for the piece. -/
def Emits : Piece → List Token → Prop
  | token u, ts => ∃ i, ts = [⟨u.1, u.2, i⟩]
  | p, ts => if p.reported then ∃ lexeme i, ts = [⟨.error, lexeme, i⟩] else ts = []

end Piece

/-- A text, piece by piece. -/
inductive Pieces : Str → List Piece → Prop
  | nil : Pieces [] []
  | cons {p : Piece} {rest : Str} {ps : List Piece} : p.Fits rest → Pieces rest ps →
    Pieces (p.text ++ rest) (p :: ps)

/-- Every character is white space or belongs to one of the tokens, which come in order and with
their delimiters. -/
inductive Tiles : Str → List Token → Prop
  | nil : Tiles [] []
  | blank {c : Char} {s : Str} {ts : List Token} : Lexer.isWs c = true → Tiles s ts →
    Tiles (c :: s) ts
  | token {t : Token} {s : Str} {ts : List Token} : Tiles s ts →
    Tiles (t.spelling.text ++ s) (t :: ts)

/-- A lexer that is `ok()` has made tokens of all of the text but its white space, and the text
closes what it opens. -/
def Accounted (source : Str) (ps : List Piece) : Prop :=
  ∀ l, Lexer.ofSource source = .ok l → l.ok = true →
    Tiles source l.tokens_ ∧ ∀ p ∈ ps, p.isOpen = false

/-- The lexer is constructed, and what is malformed makes an error token and an error state. -/
def Reports (source : Str) (ps : List Piece) : Prop :=
  ∃ l, Lexer.ofSource source = .ok l ∧
    ((∃ p ∈ ps, p.malformed = true) → l.ok = false ∧ ∃ t ∈ l.tokens_, t.type = .error)

/-! ## The pieces of a text -/

section Pieces

variable {s : Str}

/-- A text up to the first mark, if it has one. -/
theorem exists_first (mark : Char) (s : Str) : mark ∉ s ∨ ∃ tx rest, mark ∉ tx ∧
    s = tx ++ mark :: rest := by
  induction s with
  | nil => exact .inl (by simp)
  | cons c s ih =>
    by_cases hc : c = mark
    · exact .inr ⟨[], s, by simp, by rw [hc, List.nil_append]⟩
    · rcases ih with hs | ⟨tx, rest, htx, rfl⟩
      · exact .inl (by simp [hs, Ne.symm hc])
      · exact .inr ⟨c :: tx, rest, by simp [htx, Ne.symm hc], rfl⟩

/-- A text up to the first end of a comment, if it has one. -/
theorem exists_first_end (s : Str) : ¬ ['*', '/'] <:+: s ∨ ∃ tx rest, ¬ ['*', '/'] <:+: tx ∧
    s = tx ++ '*' :: '/' :: rest := by
  induction s with
  | nil => exact .inl (by simp)
  | cons c s ih =>
    by_cases hend : c = '*' ∧ s.head? = some '/'
    · obtain ⟨rfl, hs⟩ := hend
      obtain ⟨rest, rfl⟩ : ∃ rest, s = '/' :: rest := ⟨s.tail, List.eq_cons_of_mem_head? hs⟩
      exact .inr ⟨[], rest, by simp, rfl⟩
    · -- The first two characters are no end, and so an end lies in the rest.
      have hcons : ∀ t : Str, t <+: s → ¬ ['*', '/'] <:+: t → ¬ ['*', '/'] <:+: c :: t := by
        intro t ht hnot hin
        rcases List.infix_cons_iff.mp hin with hpre | hin
        · obtain ⟨hstar, hslash⟩ := List.cons_prefix_cons.mp hpre
          obtain ⟨x, rfl⟩ := hslash.trans ht
          exact hend ⟨hstar.symm, rfl⟩
        · exact hnot hin
      rcases ih with hs | ⟨tx, rest, htx, rfl⟩
      · exact .inl (hcons s (List.prefix_refl s) hs)
      · exact .inr ⟨c :: tx, rest, hcons tx (List.prefix_append _ _) htx, rfl⟩

/-- An operator, which a second character may belong to. -/
theorem exists_pair (c second : Char) (both single : Spelling) (hboth : both.text = [c, second])
    (hsingle : single.text = [c]) (hlegal : both.Legal ∧ single.Legal)
    (hends : ∀ rest, both.Ends rest ∧ (rest.head? ≠ some second → single.Ends rest)) (s : Str) :
    ∃ (p : Piece) (rest : Str), p.text ++ rest = c :: s ∧ p.Fits rest := by
  by_cases hs : s.head? = some second
  · obtain ⟨rest, rfl⟩ : ∃ rest, s = second :: rest := ⟨s.tail, List.eq_cons_of_mem_head? hs⟩
    exact ⟨.token both, rest, by simp [Piece.text, hboth], hlegal.1, (hends rest).1⟩
  · exact ⟨.token single, s, by simp [Piece.text, hsingle], hlegal.2, (hends s).2 hs⟩

/-- Every text but the empty one begins with a piece. -/
theorem exists_fits (c : Char) (s : Str) :
    ∃ (p : Piece) (rest : Str), p.text ++ rest = c :: s ∧ p.Fits rest := by
  by_cases hc : c ∈ Lexer.specials
  · simp only [Lexer.specials, List.mem_cons, List.not_mem_nil, or_false] at hc
    rcases hc with rfl | rfl | rfl | rfl | rfl | rfl | rfl | rfl | rfl | rfl | rfl | rfl | rfl |
      rfl | rfl | rfl | rfl | rfl | rfl
    · exact ⟨.token (.lparen, []), s, rfl, rfl, trivial⟩
    · exact ⟨.token (.rparen, []), s, rfl, rfl, trivial⟩
    · exact exists_pair '=' '=' (.eq, []) (.assign, []) rfl rfl ⟨rfl, rfl⟩
        (fun _ => ⟨trivial, id⟩) s
    · exact exists_pair '!' '=' (.ne, []) (.negate, []) rfl rfl ⟨rfl, rfl⟩
        (fun _ => ⟨trivial, id⟩) s
    · exact exists_pair '>' '=' (.ge, []) (.gt, []) rfl rfl ⟨rfl, rfl⟩
        (fun _ => ⟨trivial, id⟩) s
    · exact exists_pair '<' '=' (.le, []) (.lt, []) rfl rfl ⟨rfl, rfl⟩
        (fun _ => ⟨trivial, id⟩) s
    · exact ⟨.token (.add, []), s, rfl, rfl, trivial⟩
    · exact ⟨.token (.sub, []), s, rfl, rfl, trivial⟩
    · exact ⟨.token (.mul, []), s, rfl, rfl, trivial⟩
    -- A slash begins a comment when a star follows it.
    · by_cases hs : s.head? = some '*'
      · obtain ⟨s, rfl⟩ : ∃ rest, s = '*' :: rest := ⟨s.tail, List.eq_cons_of_mem_head? hs⟩
        rcases exists_first_end s with hopen | ⟨tx, rest, htx, rfl⟩
        · exact ⟨.openComment s, [], by simp [Piece.text], rfl, hopen⟩
        · exact ⟨.token (.comment, tx), rest, by simp [Piece.text, Spelling.text], htx, trivial⟩
      · exact ⟨.token (.div, []), s, rfl, rfl, hs⟩
    · rcases exists_first '\'' s with hopen | ⟨tx, rest, htx, rfl⟩
      · exact ⟨.openCharacter s, [], by simp [Piece.text], rfl, hopen⟩
      · by_cases hlen : tx.length = 1
        · exact ⟨.token (.character, tx), rest, by simp [Piece.text, Spelling.text],
            ⟨hlen, htx⟩, trivial⟩
        · exact ⟨.wrongSize tx, rest, by simp [Piece.text], htx, hlen⟩
    · rcases exists_first '"' s with hopen | ⟨tx, rest, htx, rfl⟩
      · exact ⟨.openString s, [], by simp [Piece.text], rfl, hopen⟩
      · exact ⟨.token (.string, tx), rest, by simp [Piece.text, Spelling.text], htx, trivial⟩
    · exact ⟨.token (.semicolon, []), s, rfl, rfl, trivial⟩
    · by_cases hs : s.head? = some '&'
      · obtain ⟨s, rfl⟩ : ∃ rest, s = '&' :: rest := ⟨s.tail, List.eq_cons_of_mem_head? hs⟩
        exact ⟨.token (.logicalAnd, []), s, rfl, rfl, trivial⟩
      · exact ⟨.stray '&', s, rfl, .inl rfl, hs⟩
    · by_cases hs : s.head? = some '|'
      · obtain ⟨s, rfl⟩ : ∃ rest, s = '|' :: rest := ⟨s.tail, List.eq_cons_of_mem_head? hs⟩
        exact ⟨.token (.logicalOr, []), s, rfl, rfl, trivial⟩
      · exact ⟨.stray '|', s, rfl, .inr rfl, hs⟩
    all_goals exact ⟨.blank _, s, rfl, rfl⟩
  · have hword : ∀ p : Char → Bool, ∀ d ∈ (s.dropWhile p).head?, p d = false := by
      intro p d hd
      exact by_contra fun hp => absurd (List.head?_dropWhile_not p s) (by simp_all)
    by_cases ha : c.isAlpha = true
    · refine ⟨.token (.identifier, c :: s.takeWhile Lexer.isIdentifier),
        s.dropWhile Lexer.isIdentifier, by simp [Piece.text, Spelling.text], ⟨by simp [ha], ?_⟩,
        hword _⟩
      refine List.forall_mem_cons.mpr ⟨by simp [Lexer.isIdentifier, Char.isAlphanum, ha], ?_⟩
      exact fun d hd => List.mem_takeWhile_imp hd
    by_cases hd : c.isDigit = true
    · refine ⟨.token (.number, c :: s.takeWhile Char.isDigit), s.dropWhile Char.isDigit,
        by simp [Piece.text, Spelling.text], ⟨by simp, ?_⟩, hword _⟩
      exact List.forall_mem_cons.mpr ⟨hd, fun d hd => List.mem_takeWhile_imp hd⟩
    · exact ⟨.unknown c, s, rfl, hc, by simp [Char.isAlphanum, ha, hd]⟩

theorem Piece.Fits.length_pos {p : Piece} {rest : Str} (h : p.Fits rest) : 0 < p.text.length := by
  cases p with
  | token u =>
    obtain ⟨t, lexeme⟩ := u
    cases t with
    | eof | error => exact h.1.elim
    | identifier =>
      rcases lexeme with - | ⟨c, lexeme⟩
      · cases h.1.1
      · exact Nat.succ_pos _
    | number => exact List.length_pos_iff.mpr h.1.1
    | _ => exact Nat.succ_pos _
  | _ => exact Nat.succ_pos _

/-- Every text has pieces. -/
theorem exists_pieces (s : Str) : ∃ ps, Pieces s ps := by
  induction hn : s.length using Nat.strong_induction_on generalizing s with
  | _ n ih =>
    rcases s with - | ⟨c, s⟩
    · exact ⟨[], .nil⟩
    · obtain ⟨p, rest, heq, hfits⟩ := exists_fits c s
      have hpos := hfits.length_pos
      have hlen := congrArg List.length heq
      rw [List.length_append] at hlen
      obtain ⟨ps, hps⟩ := ih rest.length (by omega) rest rfl
      rw [← heq]
      exact ⟨p :: ps, .cons hfits hps⟩

end Pieces

/-! ## The lexer on a piece -/

section Steps

variable {l : Lexer} {p : Piece} {w r s rest : Str} {pos : ℕ}

theorem comment_of_not_infix (tx : Str) (pos : ℕ) (hw : ¬ ['*', '/'] <:+: w) :
    ∃ i, Lexer.comment l tx pos w = (l, i, []) := by
  induction w generalizing tx pos with
  | nil => exact ⟨pos, rfl⟩
  | cons c w ih =>
    have hend : ¬ (c = '*' ∧ w.head? = some '/') := by
      rintro ⟨rfl, hh⟩
      rw [List.eq_cons_of_mem_head? hh] at hw
      exact hw ⟨[], w.tail, rfl⟩
    obtain ⟨i, hi⟩ := ih (tx ++ [c]) (pos + 1)
      fun h => hw (h.trans (List.suffix_cons c w).isInfix)
    exact ⟨i, by rw [Lexer.comment, if_neg hend, hi]⟩

theorem string_of_not_mem (tx : Str) (pos : ℕ) (hw : '"' ∉ w) :
    ∃ i message, Lexer.string l tx pos w =
      (if tx ++ w = [] then l else l.error message i, i, []) := by
  induction w generalizing tx pos with
  | nil => exact ⟨pos, _, by rw [List.append_nil]; rfl⟩
  | cons c w ih =>
    obtain ⟨hc, hw⟩ := not_or.mp (mt List.mem_cons.mpr hw)
    obtain ⟨i, message, hi⟩ := ih (tx ++ [c]) (pos + 1) hw
    exact ⟨i, message, by rw [Lexer.string, if_neg (Ne.symm hc), hi]; simp⟩

theorem character_of_not_mem (tx : Str) (pos : ℕ) (hw : '\'' ∉ w) :
    ∃ i message, Lexer.character l tx pos w =
      .ok (if tx ++ w = [] then l else l.error message i, i, []) := by
  induction w generalizing tx pos with
  | nil => exact ⟨pos, _, by rw [List.append_nil]; rfl⟩
  | cons c w ih =>
    obtain ⟨hc, hw⟩ := not_or.mp (mt List.mem_cons.mpr hw)
    obtain ⟨i, message, hi⟩ := ih (tx ++ [c]) (pos + 1) hw
    exact ⟨i, message, by rw [Lexer.character, if_neg (Ne.symm hc), hi]; simp⟩

/-- The message about a closed literal of the wrong size is never made. -/
theorem character_wrongSize (tx : Str) (pos : ℕ) (hw : '\'' ∉ w) (hlen : (tx ++ w).length ≠ 1) :
    Lexer.character l tx pos (w ++ '\'' :: r) = .error .argumentNotFound := by
  induction w generalizing tx pos with
  | nil =>
    rw [List.append_nil] at hlen
    rw [List.nil_append, Lexer.character, if_pos rfl, if_neg hlen]
  | cons c w ih =>
    obtain ⟨hc, hw⟩ := not_or.mp (mt List.mem_cons.mpr hw)
    rw [List.cons_append, Lexer.character, if_neg (Ne.symm hc)]
    exact ih (tx ++ [c]) (pos + 1) hw (by simpa using hlen)

/-- What one iteration of the constructor's loop does with a piece. -/
structure Reads (l : Lexer) (p : Piece) (result : Lexer) (ts : List Token) : Prop where
  emits : p.Emits ts
  tokens : result.tokens_ = l.tokens_ ++ ts
  ok : result.ok = (l.ok && !p.reported)

theorem reads_silent (hp : ∀ ts, p.Emits ts ↔ ts = []) (hr : p.reported = false) :
    Reads l p l [] where
  emits := (hp []).mpr rfl
  tokens := (List.append_nil _).symm
  ok := by rw [hr, Bool.not_false, Bool.and_true]

theorem reads_error (message : Str) (i : ℕ)
    (hp : ∀ ts, p.Emits ts ↔ ∃ lexeme i, ts = [⟨.error, lexeme, i⟩]) (hr : p.reported = true) :
    Reads l p (l.error message i) [⟨.error, Lexer.errorText message i, i⟩] where
  emits := (hp _).mpr ⟨_, i, rfl⟩
  tokens := rfl
  ok := by rw [hr, Bool.not_true, Bool.and_false]; rfl

/-- An iteration reads a piece, unless it throws. -/
theorem step_piece (l : Lexer) (pos : ℕ) (h : p.Fits rest) :
    ∃ c s, p.text ++ rest = c :: s ∧
      (p.throws = true → l.step pos c s = .error .argumentNotFound) ∧
      (p.throws = false → ∃ l' i ts, l.step pos c s = .ok (l', i, rest) ∧ Reads l p l' ts) := by
  have hnever : ∀ {P : Prop}, false = true → P := fun h => absurd h Bool.false_ne_true
  cases p with
  | blank c =>
    refine ⟨c, rest, rfl, hnever, fun _ =>
      ⟨l, pos + 1, [], ?_, reads_silent (fun _ => Iff.rfl) rfl⟩⟩
    have hws : c = ' ' ∨ c = '\r' ∨ c = '\n' ∨ c = '\t' := by
      simpa [Piece.Fits, Lexer.isWs, or_assoc] using h
    rcases hws with rfl | rfl | rfl | rfl <;> rfl
  | token u =>
    obtain ⟨c, s, i, j, htext, hstep⟩ := Lexer.step_text (l := l) pos h.1 h.2
    exact ⟨c, s, htext, hnever, fun _ =>
      ⟨_, j, [⟨u.1, u.2, i⟩], hstep, ⟨i, rfl⟩, rfl, (Bool.and_true _).symm⟩⟩
  | unknown c =>
    refine ⟨c, rest, rfl, hnever, fun _ =>
      ⟨l, pos + 1, [], ?_, reads_silent (fun _ => Iff.rfl) rfl⟩⟩
    have hnot : ¬ c.isAlpha = true ∧ ¬ c.isDigit = true := by
      simpa [Char.isAlphanum] using h.2
    rw [Lexer.step_of_not_mem h.1, if_neg hnot.1, if_neg hnot.2]
  | stray c =>
    obtain ⟨hc, hrest⟩ := h
    have hstep : ∃ message, l.step pos c rest = .ok (l.error message pos, pos + 1, rest) := by
      rcases hc with rfl | rfl
      · exact ⟨_, congrArg Except.ok (if_neg hrest)⟩
      · exact ⟨_, congrArg Except.ok (if_neg hrest)⟩
    obtain ⟨message, hstep⟩ := hstep
    exact ⟨c, rest, rfl, hnever, fun _ =>
      ⟨_, _, _, hstep, reads_error message pos (fun _ => Iff.rfl) rfl⟩⟩
  | wrongSize tx =>
    refine ⟨'\'', tx ++ '\'' :: rest, by simp [Piece.text], fun _ => ?_, hnever ∘ Eq.symm⟩
    exact character_wrongSize [] (pos + 1) h.1 h.2
  | openComment tx =>
    obtain ⟨rfl, htx⟩ := h
    obtain ⟨i, hi⟩ := comment_of_not_infix (l := l) [] (pos + 2) htx
    exact ⟨'/', '*' :: tx, by simp [Piece.text], hnever, fun _ =>
      ⟨l, i, [], congrArg Except.ok hi, reads_silent (fun _ => Iff.rfl) rfl⟩⟩
  | openString tx =>
    obtain ⟨rfl, htx⟩ := h
    obtain ⟨i, message, hi⟩ := string_of_not_mem (l := l) [] (pos + 1) htx
    refine ⟨'"', tx, by simp [Piece.text], hnever, fun _ => ?_⟩
    have hstep : l.step pos '"' tx = .ok _ := congrArg Except.ok hi
    by_cases hnil : tx = []
    · obtain rfl := hnil
      exact ⟨_, _, _, hstep, reads_silent (fun _ => Iff.rfl) rfl⟩
    · rw [List.nil_append, if_neg hnil] at hstep
      have hr : (Piece.openString tx).reported = true := decide_eq_true hnil
      exact ⟨_, _, _, hstep, reads_error message i (fun _ => by simp [Piece.Emits, hr]) hr⟩
  | openCharacter tx =>
    obtain ⟨rfl, htx⟩ := h
    obtain ⟨i, message, hstep⟩ := character_of_not_mem (l := l) [] (pos + 1) htx
    refine ⟨'\'', tx, by simp [Piece.text], hnever, fun _ => ?_⟩
    by_cases hnil : tx = []
    · obtain rfl := hnil
      exact ⟨_, _, _, hstep, reads_silent (fun _ => Iff.rfl) rfl⟩
    · rw [List.nil_append, if_neg hnil] at hstep
      have hr : (Piece.openCharacter tx).reported = true := decide_eq_true hnil
      exact ⟨_, _, _, hstep, reads_error message i (fun _ => by simp [Piece.Emits, hr]) hr⟩

end Steps

/-! ## The lexer on a text -/

section Runs

variable {l : Lexer} {s : Str} {ps : List Piece} {pos n : ℕ}

/-- What the constructor's loop does with a text. -/
structure ReadsAll (l : Lexer) (ps : List Piece) (result : Lexer) (tss : List (List Token)) :
    Prop where
  emits : Forall₂ Piece.Emits ps tss
  tokens : result.tokens_ = l.tokens_ ++ tss.flatten
  ok : result.ok = (l.ok && !ps.any Piece.reported)

/-- The loop reads the pieces one after the other, until one throws. -/
theorem run_pieces (h : Pieces s ps) (hn : s.length ≤ n) :
    (ps.any Piece.throws = true → Lexer.run n l pos s = .error .argumentNotFound) ∧
    (ps.any Piece.throws = false → ∃ l' tss, Lexer.run n l pos s = .ok l' ∧
      ReadsAll l ps l' tss) := by
  induction h generalizing l pos n with
  | nil =>
    refine ⟨fun h => absurd h Bool.false_ne_true, fun _ => ⟨l, [], Lexer.run_nil, .nil, ?_, ?_⟩⟩
    · exact (List.append_nil _).symm
    · exact (Bool.and_true _).symm
  | @cons p rest ps hfits _ ih =>
    obtain ⟨c, s, htext, hthrows, hok⟩ := step_piece l pos hfits
    have hpos := hfits.length_pos
    have hlen := congrArg List.length htext
    rw [List.length_append, List.length_cons] at hlen
    rw [htext, List.length_cons] at hn
    obtain ⟨n, rfl⟩ : ∃ m, n = m + 1 := ⟨n - 1, by omega⟩
    rw [htext, Lexer.run, List.any_cons]
    cases hp : p.throws with
    | true =>
      rw [hthrows hp]
      exact ⟨fun _ => rfl, fun h => absurd h.symm Bool.false_ne_true⟩
    | false =>
      obtain ⟨l', i, ts, hstep, hreads⟩ := hok hp
      obtain ⟨herror, hrest⟩ := @ih l' i n (by omega)
      rw [hstep, Bool.false_or]
      refine ⟨herror, fun h => ?_⟩
      obtain ⟨result, tss, hrun, hall⟩ := hrest h
      refine ⟨result, ts :: tss, hrun, .cons hreads.emits hall.emits, ?_, ?_⟩
      · rw [hall.tokens, hreads.tokens, List.flatten_cons, List.append_assoc]
      · rw [hall.ok, hreads.ok, List.any_cons, Bool.not_or, Bool.and_assoc]

/-- The constructor, by the pieces of its text. -/
theorem ofSource_pieces (h : Pieces s ps) :
    (ps.any Piece.throws = true → Lexer.ofSource s = .error .argumentNotFound) ∧
    (ps.any Piece.throws = false → ∃ l tss, Lexer.ofSource s = .ok l ∧
      Forall₂ Piece.Emits ps tss ∧ l.tokens_ = tss.flatten ∧ l.ok = !ps.any Piece.reported) := by
  obtain ⟨herror, hok⟩ :
      _ ∧ (_ → ∃ l tss, Lexer.run s.length {} 0 s = .ok l ∧ ReadsAll {} ps l tss) :=
    run_pieces h le_rfl
  refine ⟨herror, fun hthrows => ?_⟩
  obtain ⟨l, tss, hrun, hall⟩ := hok hthrows
  exact ⟨l, tss, hrun, hall.emits, hall.tokens, hall.ok⟩

end Runs

/-! ## Characters without a token -/

section Solid

/-- The characters of a text that are no white space. -/
def solid (s : Str) : ℕ := s.countP fun c => !Lexer.isWs c

theorem solid_append (s t : Str) : solid (s ++ t) = solid s + solid t := List.countP_append

/-- The characters of the tokens. -/
def solidTokens (ts : List Token) : ℕ := (ts.map fun t => solid t.spelling.text).sum

theorem Tiles.solid_eq {s : Str} {ts : List Token} (h : Tiles s ts) : solid s = solidTokens ts := by
  induction h with
  | nil => rfl
  | @blank c s ts hc _ ih =>
    have hcons : solid (c :: s) = solid s := by simp [solid, hc]
    rw [hcons, ih]
  | token _ ih => rw [solid_append, ih, solidTokens, solidTokens, List.map_cons, List.sum_cons]

/-- A piece has at least the characters of its tokens, and more if it is silent. -/
theorem Piece.Emits.solid_le {p : Piece} {ts : List Token} {rest : Str} (hfits : p.Fits rest)
    (h : p.Emits ts) : solidTokens ts + (if p.silent then 1 else 0) ≤ solid p.text := by
  have hfirst : ∀ (c : Char) (tx : Str), Lexer.isWs c = false → 1 ≤ solid (c :: tx) := by
    intro c tx hc
    simp [solid, hc]
  have herror : (∃ lexeme i, ts = [⟨.error, lexeme, i⟩]) → solidTokens ts = 0 := by
    rintro ⟨lexeme, i, rfl⟩
    rfl
  have hopen : ∀ {q : Piece} (c : Char) (tx : Str), Lexer.isWs c = false →
      (if q.reported = true then ∃ lexeme i, ts = [⟨.error, lexeme, i⟩] else ts = []) →
        solidTokens ts + (if q.silent then 1 else 0) ≤ solid (c :: tx) := by
    intro q c tx hc hts
    have hone := hfirst c tx hc
    have hzero : solidTokens ts = 0 := by
      split_ifs at hts
      · exact herror hts
      · rw [hts]
        rfl
    split_ifs <;> omega
  cases p with
  | blank c =>
    obtain rfl : ts = [] := h
    exact Nat.zero_le _
  | token u =>
    obtain ⟨i, rfl⟩ := h
    exact le_rfl
  | unknown c =>
    have hws : Lexer.isWs c = false := by
      have hnot := hfits.1
      simp only [Lexer.specials, List.mem_cons, not_or] at hnot
      simp [Lexer.isWs, hnot]
    exact hopen (q := .unknown c) c [] hws h
  | stray c =>
    have hzero : solidTokens ts = 0 := herror h
    rw [hzero]
    exact Nat.zero_le _
  | wrongSize tx =>
    obtain rfl : ts = [] := h
    exact Nat.zero_le _
  | openComment tx => exact hopen (q := .openComment tx) '/' ('*' :: tx) rfl h
  | openString tx => exact hopen (q := .openString tx) '"' tx rfl h
  | openCharacter tx => exact hopen (q := .openCharacter tx) '\'' tx rfl h

variable {s : Str} {ps : List Piece} {tss : List (List Token)}

theorem solid_le_of_pieces (h : Pieces s ps) (he : Forall₂ Piece.Emits ps tss) :
    solidTokens tss.flatten + ps.countP Piece.silent ≤ solid s := by
  induction h generalizing tss with
  | nil =>
    cases he
    exact le_rfl
  | @cons p rest ps hfits _ ih =>
    obtain ⟨ts, tss, hts, htss, rfl⟩ := List.forall₂_cons_left_iff.mp he
    have hfirst := hts.solid_le hfits
    have hrest := ih htss
    have happend : solidTokens (ts ++ tss.flatten) = solidTokens ts + solidTokens tss.flatten := by
      simp [solidTokens]
    rw [List.flatten_cons, happend, List.countP_cons, solid_append]
    omega

/-- A piece that is neither reported nor silent is white space or a token. -/
theorem tiles_of_pieces (h : Pieces s ps) (he : Forall₂ Piece.Emits ps tss)
    (hps : ∀ p ∈ ps, p.throws = false ∧ p.reported = false ∧ p.silent = false) :
    Tiles s tss.flatten := by
  induction h generalizing tss with
  | nil =>
    cases he
    exact .nil
  | @cons p rest ps hfits _ ih =>
    obtain ⟨ts, tss, hts, htss, rfl⟩ := List.forall₂_cons_left_iff.mp he
    obtain ⟨hp, hps⟩ := List.forall_mem_cons.mp hps
    have hrest := ih htss hps
    cases p with
    | blank c =>
      obtain rfl : ts = [] := hts
      exact .blank hfits hrest
    | token u =>
      obtain ⟨i, rfl⟩ := hts
      exact .token (t := ⟨u.1, u.2, i⟩) hrest
    | unknown | openComment => exact absurd hp.2.2.symm Bool.false_ne_true
    | stray => exact absurd hp.2.1.symm Bool.false_ne_true
    | wrongSize => exact absurd hp.1.symm Bool.false_ne_true
    | openString tx | openCharacter tx =>
      by_cases htx : tx = []
      · exact absurd htx (of_decide_eq_false hp.2.2)
      · exact absurd htx (by simpa [Piece.reported] using hp.2.1)

/-- If nothing is reported, the tokens make up the text exactly when no piece is silent. -/
theorem tiles_iff_of_pieces (h : Pieces s ps) (he : Forall₂ Piece.Emits ps tss)
    (hps : ∀ p ∈ ps, p.throws = false ∧ p.reported = false) :
    Tiles s tss.flatten ↔ ∀ p ∈ ps, p.silent = false := by
  constructor
  · intro htiles p hp
    by_contra hsilent
    have hle := solid_le_of_pieces h he
    have hpos : 0 < ps.countP Piece.silent :=
      List.countP_pos_iff.mpr ⟨p, hp, by simpa using hsilent⟩
    rw [htiles.solid_eq] at hle
    omega
  · intro hsilent
    exact tiles_of_pieces h he fun p hp => ⟨(hps p hp).1, (hps p hp).2, hsilent p hp⟩

/-- Defects are thrown, reported or silent. -/
theorem Piece.malformed_iff (p : Piece) : p.malformed = true ↔
    p.throws = true ∨ p.reported = true ∨ p.silentlyOpen = true := by
  cases p with
  | openString tx | openCharacter tx =>
    by_cases htx : tx = [] <;> simp [malformed, isOpen, throws, reported, silentlyOpen, htx]
  | _ => simp [malformed, isOpen, throws, reported, silentlyOpen]

theorem Piece.isOpen_eq_false {p : Piece} (hr : p.reported = false) (hs : p.silent = false) :
    p.isOpen = false := by
  cases p with
  | openComment tx => exact absurd hs.symm Bool.false_ne_true
  | openString tx | openCharacter tx =>
    by_cases htx : tx = []
    · exact absurd htx (of_decide_eq_false hs)
    · exact absurd htx (by simpa [reported] using hr)
  | _ => rfl

end Solid

/-! ## What is reported -/

section Reports

variable {source : Str} {ps : List Piece}

theorem eq_false_of_any {f : Piece → Bool} (h : ps.any f = false) : ∀ p ∈ ps, f p = false :=
  fun p hp => Bool.eq_false_iff.mpr (List.any_eq_false.mp h p hp)

/-- **A lexer without an error state has made tokens of its text**, and the text closes what it
opens, exactly when a piece throws or is reported, or none is silent. -/
theorem accounted_iff (source : Str) : (∃ ps, Pieces source ps) ∧
    ∀ ps, Pieces source ps → (Accounted source ps ↔
      (∃ p ∈ ps, p.throws = true ∨ p.reported = true) ∨ ∀ p ∈ ps, p.silent = false) := by
  refine ⟨exists_pieces source, fun ps h => ?_⟩
  obtain ⟨herror, hok⟩ := ofSource_pieces h
  cases hthrows : ps.any Piece.throws with
  | true =>
    -- Nothing is constructed.
    obtain ⟨p, hp, hpt⟩ := List.any_eq_true.mp hthrows
    refine iff_of_true (fun l hl => ?_) (.inl ⟨p, hp, .inl hpt⟩)
    cases (herror hthrows).symm.trans hl
  | false =>
    obtain ⟨l, tss, hl, hemits, htokens, hstate⟩ := hok hthrows
    cases hreported : ps.any Piece.reported with
    | true =>
      obtain ⟨p, hp, hpr⟩ := List.any_eq_true.mp hreported
      refine iff_of_true (fun l' hl' hok' => ?_) (.inl ⟨p, hp, .inr hpr⟩)
      obtain rfl := Except.ok.inj (hl.symm.trans hl')
      rw [hstate, hreported] at hok'
      cases hok'
    | false =>
      have hclean : ∀ p ∈ ps, p.throws = false ∧ p.reported = false := fun p hp =>
        ⟨eq_false_of_any hthrows p hp, eq_false_of_any hreported p hp⟩
      have htiles := tiles_iff_of_pieces h hemits hclean
      rw [← htokens] at htiles
      constructor
      · intro hall
        exact .inr (htiles.mp (hall l hl (by rw [hstate, hreported]; rfl)).1)
      · rintro (⟨p, hp, hpt | hpr⟩ | hsilent) l' hl' -
        · rw [(hclean p hp).1] at hpt
          cases hpt
        · rw [(hclean p hp).2] at hpr
          cases hpr
        · obtain rfl := Except.ok.inj (hl.symm.trans hl')
          exact ⟨htiles.mpr hsilent,
            fun p hp => Piece.isOpen_eq_false (hclean p hp).2 (hsilent p hp)⟩

/-- The pieces of `("a")`. -/
theorem pieces_parenthesised : Pieces ['(', '"', 'a', '"', ')']
    [.token (.lparen, []), .token (.string, ['a']), .token (.rparen, [])] :=
  .cons (p := .token (.lparen, [])) ⟨rfl, trivial⟩
    (.cons (p := .token (.string, ['a'])) ⟨by decide, trivial⟩
      (.cons (p := .token (.rparen, [])) ⟨rfl, trivial⟩ .nil))

theorem accounted_parenthesised : Accounted ['(', '"', 'a', '"', ')']
    [.token (.lparen, []), .token (.string, ['a']), .token (.rparen, [])] :=
  ((accounted_iff _).2 _ pieces_parenthesised).mpr (.inr (by decide))

/-- `#` is passed over, and so are a comment that does not end and a quote at the end. -/
theorem not_accounted_silent :
    (∃ l, Lexer.ofSource ['#'] = .ok l ∧ l.ok = true ∧ ¬ Tiles ['#'] l.tokens_) ∧
    (∃ l, Lexer.ofSource ['/', '*', 'a'] = .ok l ∧ l.ok = true ∧
      ¬ Tiles ['/', '*', 'a'] l.tokens_) ∧
    ∃ l, Lexer.ofSource ['"'] = .ok l ∧ l.ok = true ∧ ¬ Tiles ['"'] l.tokens_ := by
  refine ⟨⟨{}, rfl, rfl, fun h => ?_⟩, ⟨{}, rfl, rfl, fun h => ?_⟩, ⟨{}, rfl, rfl, fun h => ?_⟩⟩
  · exact absurd h.solid_eq (by decide)
  · exact absurd h.solid_eq (by decide)
  · exact absurd h.solid_eq (by decide)

/-- An error token is emitted for a piece that is reported. -/
theorem exists_error_of_reported {tss : List (List Token)} (he : Forall₂ Piece.Emits ps tss)
    {p : Piece} (hp : p ∈ ps) (hr : p.reported = true) : ∃ t ∈ tss.flatten, t.type = .error := by
  induction he with
  | nil => cases hp
  | @cons q ts ps tss hemits _ ih =>
    rcases List.mem_cons.mp hp with rfl | hp
    · have herror : ∃ lexeme i, ts = [⟨.error, lexeme, i⟩] := by
        cases p with
        | token u => exact absurd hr Bool.false_ne_true
        | stray c => exact hemits
        | openString tx | openCharacter tx => exact (if_pos hr).mp hemits
        | _ => exact absurd hr Bool.false_ne_true
      obtain ⟨lexeme, i, rfl⟩ := herror
      exact ⟨⟨.error, lexeme, i⟩, List.mem_cons_self, rfl⟩
    · obtain ⟨t, ht, htype⟩ := ih hp
      exact ⟨t, List.mem_append_right ts ht, htype⟩

/-- **The lexer is constructed and reports what is malformed** exactly when no character literal
that is closed has the wrong size, and a piece is reported if one is cut off in silence. -/
theorem reports_iff (source : Str) : (∃ ps, Pieces source ps) ∧
    ∀ ps, Pieces source ps → (Reports source ps ↔ (∀ p ∈ ps, p.throws = false) ∧
      ((∃ p ∈ ps, p.silentlyOpen = true) → ∃ p ∈ ps, p.reported = true)) := by
  refine ⟨exists_pieces source, fun ps h => ?_⟩
  obtain ⟨herror, hok⟩ := ofSource_pieces h
  cases hthrows : ps.any Piece.throws with
  | true =>
    obtain ⟨p, hp, hpt⟩ := List.any_eq_true.mp hthrows
    constructor
    · rintro ⟨l, hl, -⟩
      cases (herror hthrows).symm.trans hl
    · rintro ⟨hnone, -⟩
      rw [hnone p hp] at hpt
      cases hpt
  | false =>
    have hnone := eq_false_of_any hthrows
    obtain ⟨l, tss, hl, hemits, htokens, hstate⟩ := hok hthrows
    constructor
    · rintro ⟨l', hl', hall⟩
      obtain rfl := Except.ok.inj (hl.symm.trans hl')
      refine ⟨hnone, ?_⟩
      rintro ⟨p, hp, hopen⟩
      have hstate' := (hall ⟨p, hp, p.malformed_iff.mpr (.inr (.inr hopen))⟩).1
      rw [hstate, Bool.not_eq_false'] at hstate'
      exact List.any_eq_true.mp hstate'
    · rintro ⟨-, hreported⟩
      refine ⟨l, hl, ?_⟩
      rintro ⟨p, hp, hmal⟩
      obtain ⟨q, hq, hqr⟩ : ∃ q ∈ ps, q.reported = true := by
        rcases p.malformed_iff.mp hmal with ht | hr | hopen
        · rw [hnone p hp] at ht
          cases ht
        · exact ⟨p, hp, hr⟩
        · exact hreported ⟨p, hp, hopen⟩
      rw [hstate, htokens, List.any_eq_true.mpr ⟨q, hq, hqr⟩]
      exact ⟨rfl, exists_error_of_reported hemits hq hqr⟩

theorem reports_parenthesised : Reports ['(', '"', 'a', '"', ')']
    [.token (.lparen, []), .token (.string, ['a']), .token (.rparen, [])] :=
  ((reports_iff _).2 _ pieces_parenthesised).mpr ⟨by decide, by decide⟩

/-- Two apostrophes make the constructor throw, and `/*` is not reported. -/
theorem not_reports :
    Lexer.ofSource ['\'', '\''] = .error .argumentNotFound ∧
    ∃ l, Lexer.ofSource ['/', '*'] = .ok l ∧ l.ok = true ∧ ∀ t ∈ l.tokens_, t.type ≠ .error :=
  ⟨rfl, {}, rfl, rfl, by decide⟩

end Reports

end WwivBasic.Parser
