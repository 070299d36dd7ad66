import Mathlib.Data.List.Chain
import Mathlib.Data.List.TakeWhile
import WwivBasic.Core.Strings
import WwivBasic.Foundations.Consuming

/-!
# Texts with color codes

`stripcolors` of `core/strings.cpp` takes pipe codes, heart codes and ANSI sequences out of a text.
After an ANSI sequence the loop goes on to the tests for the other codes with the character that
follows, so that a second ANSI sequence is not seen there.

## Main definitions

* `stripcolors`: the loop, by its iterations
* `Segment`: a plain text, or one of the three kinds of codes
* `Piece`, `IsReading`: a text as the loop reads it
* `Scattered`: the characters of a code, with other codes between them

## Main results

* `stripFrom_segments`, `stripFrom_isReading`: what is left of a text
* `stripcolors_segments_iff`: when the plain segments of a text are what is left
* `stripcolors_stripcolors_iff`: when the result holds no code any more
-/

namespace WwivBasic

namespace ColorCodes

open Consuming (Consumes)

/-- ESC. -/
def esc : Char := '\x1b'

/-- The character of a heart code. -/
def heart : Char := '\x03'

/-- `IsColorCode`. -/
def isColorCode (c : Char) : Bool := c = '#' || c.isDigit

/-- The test for a pipe code. -/
def pipeCode : Str → Bool
  | c :: a :: b :: _ => c = '|' && isColorCode a && isColorCode b
  | _ => false

/-- The test for a heart code. -/
def heartCode : Str → Bool
  | c :: d :: _ => c = heart && d.isDigit
  | _ => false

/-- `is_ansi_seq_start`, at an ESC: `left` is the text from there on. -/
def isAnsiSeqStart (left : Str) : Bool :=
  3 ≤ left.length && left[1]? = some '[' && decide ('m' ∈ left)

/-- The tests for a pipe code and a heart code: what is put out, and where the loop goes on. At the
end of the text it ends. -/
def stripCode (s : Str) : Str × Str :=
  if pipeCode s then ([], s.drop 3)
  else if heartCode s then ([], s.drop 2)
  else (s.take 1, s.drop 1)

/-- An iteration of `stripcolors`. An ANSI sequence is passed over, up to its first letter, before
the other tests. -/
def stripStep (s : Str) : Str × Str :=
  if s.head? = some esc ∧ 1 < s.length then
    if isAnsiSeqStart s then stripCode ((s.dropWhile fun c => !c.isAlpha).drop 1)
    else (s.take 1, s.drop 1)
  else stripCode s

/-- `stripcolors`. -/
def stripcolors (s : Str) : Str := Consuming.run stripStep s

/-! ## Iterations -/

/-- The text begins with an ANSI sequence. -/
def ansiCode (s : Str) : Bool := s.head? = some esc && isAnsiSeqStart s

/-- The text after its first letter. -/
def afterLetter (s : Str) : Str := (s.dropWhile fun c => !c.isAlpha).drop 1

/-- The loop from the tests for a pipe code and a heart code on. -/
def stripRest (s : Str) : Str := (stripCode s).1 ++ stripcolors (stripCode s).2

/-- The loop at the start of an iteration, or after the ANSI sequence an iteration passed over. -/
def stripFrom (after : Bool) (s : Str) : Str := if after then stripRest s else stripcolors s

section Iterations

variable {c a b d : Char} {s r body : Str}

theorem pipeCode_eq_true_iff : pipeCode s = true ↔
    ∃ a b r, s = '|' :: a :: b :: r ∧ isColorCode a = true ∧ isColorCode b = true := by
  rcases s with - | ⟨c, - | ⟨a, - | ⟨b, r⟩⟩⟩ <;> simp [pipeCode, and_assoc]

theorem heartCode_eq_true_iff :
    heartCode s = true ↔ ∃ d r, s = heart :: d :: r ∧ d.isDigit = true := by
  rcases s with - | ⟨c, - | ⟨d, r⟩⟩ <;> simp [heartCode]

theorem ansiCode_eq_true_iff : ansiCode s = true ↔ ∃ r, s = esc :: '[' :: r ∧ 'm' ∈ r := by
  rcases s with - | ⟨c, - | ⟨a, r⟩⟩
  · simp [ansiCode]
  · simp [ansiCode, isAnsiSeqStart]
  · simp only [ansiCode, isAnsiSeqStart, esc]
    grind

/-- The first letter of a text. -/
theorem exists_first_letter (h : ∃ a ∈ r, a.isAlpha = true) : ∃ body a t, r = body ++ a :: t ∧
    (∀ c ∈ body, c.isAlpha = false) ∧ a.isAlpha = true := by
  obtain ⟨a, hfind⟩ := Option.isSome_iff_exists.mp (List.find?_isSome.mpr h)
  obtain ⟨ha, body, t, rfl, hbody⟩ := List.find?_eq_some_iff_append.mp hfind
  exact ⟨body, a, t, rfl, fun c hc => by simpa using hbody c hc, ha⟩

/-- An ANSI sequence with its first letter. -/
theorem exists_of_ansiCode (h : ansiCode s = true) : ∃ body a t,
    s = esc :: '[' :: (body ++ a :: t) ∧ (∀ c ∈ body, c.isAlpha = false) ∧ a.isAlpha = true ∧
      'm' ∈ a :: t := by
  obtain ⟨r, rfl, hm⟩ := ansiCode_eq_true_iff.mp h
  obtain ⟨body, a, t, rfl, hbody, ha⟩ := exists_first_letter ⟨'m', hm, rfl⟩
  refine ⟨body, a, t, rfl, hbody, ha, ?_⟩
  rcases List.mem_append.mp hm with hm | hm
  · exact absurd (hbody 'm' hm) (by decide)
  · exact hm

/-- No pipe code and no heart code begins with any other character. -/
theorem stripCode_other (hp : c ≠ '|') (hh : c ≠ heart) : stripCode (c :: r) = ([c], r) := by
  have hpipe : pipeCode (c :: r) = false := by
    rw [Bool.eq_false_iff, Ne, pipeCode_eq_true_iff]
    rintro ⟨a, b, t, heq, -⟩
    exact hp (List.cons.inj heq).1
  have hheart : heartCode (c :: r) = false := by
    rw [Bool.eq_false_iff, Ne, heartCode_eq_true_iff]
    rintro ⟨d, t, heq, -⟩
    exact hh (List.cons.inj heq).1
  simp [stripCode, hpipe, hheart]

theorem stripStep_eq (s : Str) :
    stripStep s = if ansiCode s then stripCode (afterLetter s) else stripCode s := by
  rw [stripStep, ansiCode]
  by_cases hs : s.head? = some esc
  · obtain ⟨r, rfl⟩ := List.head?_eq_some_iff.mp hs
    have hother : stripCode (esc :: r) = ([esc], r) := stripCode_other (by decide) (by decide)
    rw [hother]
    by_cases hansi : isAnsiSeqStart (esc :: r) = true
    · have hlen : 1 < (esc :: r).length := by
        simp only [isAnsiSeqStart, Bool.and_eq_true, decide_eq_true_eq] at hansi
        omega
      rw [if_pos ⟨rfl, hlen⟩, if_pos hansi, if_pos (by simp [hansi])]
      rfl
    · simp [hansi]
  · simp [hs]

theorem length_stripCode (s : Str) : (stripCode s).2.length ≤ s.length - 1 := by
  rw [stripCode]
  split_ifs <;> simp only [List.length_drop] <;> omega

theorem length_afterLetter (s : Str) : (afterLetter s).length ≤ s.length - 1 := by
  have hle := (List.dropWhile_suffix (l := s) fun c : Char => !c.isAlpha).length_le
  rw [afterLetter, List.length_drop]
  omega

theorem consumes_stripStep : Consumes stripStep := by
  intro s hs
  have hpos := List.length_pos_of_ne_nil hs
  rw [stripStep_eq]
  split_ifs
  · have hcode := length_stripCode (afterLetter s)
    have hletter := length_afterLetter s
    omega
  · have hcode := length_stripCode s
    omega

/-- One iteration. -/
theorem stripcolors_eq (s : Str) :
    stripcolors s = if ansiCode s then stripRest (afterLetter s) else stripRest s := by
  by_cases hs : s = []
  · subst hs
    rfl
  · rw [stripcolors, Consuming.run_of_ne_nil consumes_stripStep hs, stripStep_eq]
    split_ifs <;> rfl

theorem stripcolors_of_not_ansi (h : ansiCode s = false) : stripcolors s = stripRest s := by
  rw [stripcolors_eq, if_neg (by simp [h])]

/-- An ANSI sequence, up to its first letter. -/
theorem stripcolors_ansi (hbody : ∀ c ∈ body, c.isAlpha = false) (ha : a.isAlpha = true)
    (hm : 'm' ∈ a :: r) : stripcolors (esc :: '[' :: (body ++ a :: r)) = stripRest r := by
  have hansi : ansiCode (esc :: '[' :: (body ++ a :: r)) = true :=
    ansiCode_eq_true_iff.mpr ⟨body ++ a :: r, rfl, List.mem_append_right body hm⟩
  have hletter : afterLetter (esc :: '[' :: (body ++ a :: r)) = r := by
    have hskip : ∀ c ∈ esc :: '[' :: body, (!c.isAlpha) = true := by
      intro c hc
      rcases List.mem_cons.mp hc with rfl | hc
      · rfl
      rcases List.mem_cons.mp hc with rfl | hc
      · rfl
      · simp [hbody c hc]
    have hassoc : esc :: '[' :: (body ++ a :: r) = (esc :: '[' :: body) ++ a :: r := rfl
    rw [afterLetter, hassoc, List.dropWhile_append_of_pos hskip]
    simp [ha]
  rw [stripcolors_eq, if_pos hansi, hletter]

theorem stripRest_pipe (ha : isColorCode a = true) (hb : isColorCode b = true) :
    stripRest ('|' :: a :: b :: r) = stripcolors r := by
  simp [stripRest, stripCode, pipeCode, ha, hb]

theorem stripRest_heart (hd : d.isDigit = true) : stripRest (heart :: d :: r) = stripcolors r := by
  have hpipe : pipeCode (heart :: d :: r) = false := by
    cases r <;> rfl
  have hheart : heartCode (heart :: d :: r) = true := by simp [heartCode, hd]
  simp [stripRest, stripCode, hpipe, hheart]

/-- A character with which no code begins. -/
theorem stripRest_other (hp : pipeCode (c :: r) = false) (hh : heartCode (c :: r) = false) :
    stripRest (c :: r) = c :: stripcolors r := by
  simp [stripRest, stripCode, hp, hh]

end Iterations

/-! ## Texts of segments -/

/-- A text without the characters with which codes begin. -/
def IsPlain (s : Str) : Prop := ∀ c ∈ s, c ≠ esc ∧ c ≠ '|' ∧ c ≠ heart

/-- A plain text, or a code. -/
inductive Segment
  | plain (text : Str) (h : IsPlain text)
  | pipe (a b : Char) (ha : isColorCode a = true) (hb : isColorCode b = true)
  | heart (d : Char) (hd : d.isDigit = true)
  /-- An ANSI sequence, with digits and semicolons before the final `m`. -/
  | ansi (body : Str) (h : ∀ c ∈ body, c.isDigit = true ∨ c = ';')

namespace Segment

/-- How the segment is written. -/
def text : Segment → Str
  | plain text _ => text
  | pipe a b _ _ => ['|', a, b]
  | heart d _ => [ColorCodes.heart, d]
  | ansi body _ => esc :: '[' :: (body ++ ['m'])

/-- The text of a plain segment. -/
def plainText : Segment → Str
  | plain text _ => text
  | _ => []

/-- Whether the segment is an ANSI sequence. -/
def isAnsi : Segment → Bool
  | ansi _ _ => true
  | _ => false

end Segment

/-- What is left of the segments, of which the first may come right after an ANSI sequence that was
passed over. -/
def left : Bool → List Segment → Str
  | _, [] => []
  | after, .plain [] _ :: segs => left after segs
  | _, .plain (c :: t) _ :: segs => c :: t ++ left false segs
  | _, .pipe _ _ _ _ :: segs => left false segs
  | _, .heart _ _ :: segs => left false segs
  | false, .ansi _ _ :: segs => left true segs
  | true, .ansi body h :: segs => (Segment.ansi body h).text ++ left false segs

section Segments

variable {s r t body : Str}

theorem stripcolors_cons_plain {c : Char} (hc : c ≠ esc ∧ c ≠ '|' ∧ c ≠ heart) (r : Str) :
    stripcolors (c :: r) = c :: stripcolors r := by
  have hansi : ansiCode (c :: r) = false := by simp [ansiCode, hc.1]
  rw [stripcolors_of_not_ansi hansi, stripRest, stripCode_other hc.2.1 hc.2.2]
  rfl

theorem stripcolors_plain_append (ht : IsPlain t) (r : Str) :
    stripcolors (t ++ r) = t ++ stripcolors r := by
  induction t with
  | nil => rfl
  | cons c t ih =>
    obtain ⟨hc, ht⟩ := List.forall_mem_cons.mp ht
    rw [List.cons_append, stripcolors_cons_plain hc, ih ht, List.cons_append]

theorem stripFrom_pipe {a b : Char} (ha : isColorCode a = true) (hb : isColorCode b = true)
    (after : Bool) : stripFrom after ('|' :: a :: b :: r) = stripcolors r := by
  cases after with
  | true => exact stripRest_pipe ha hb
  | false => exact (stripcolors_of_not_ansi rfl).trans (stripRest_pipe ha hb)

theorem stripFrom_heart {d : Char} (hd : d.isDigit = true) (after : Bool) :
    stripFrom after (heart :: d :: r) = stripcolors r := by
  cases after with
  | true => exact stripRest_heart hd
  | false => exact (stripcolors_of_not_ansi rfl).trans (stripRest_heart hd)

theorem stripFrom_plain_append (ht : IsPlain t) (hne : t ≠ []) (after : Bool) :
    stripFrom after (t ++ r) = t ++ stripcolors r := by
  cases after with
  | false => exact stripcolors_plain_append ht r
  | true =>
    obtain ⟨c, t, rfl⟩ := List.exists_cons_of_ne_nil hne
    obtain ⟨hc, ht⟩ := List.forall_mem_cons.mp ht
    have hcode : stripRest (c :: (t ++ r)) = c :: stripcolors (t ++ r) := by
      rw [stripRest, stripCode_other hc.2.1 hc.2.2]
      rfl
    rw [stripcolors_plain_append ht] at hcode
    exact hcode

/-- A digit or a semicolon is no letter, and no code begins with it. -/
theorem not_isAlpha_of_body {c : Char} (hc : c.isDigit = true ∨ c = ';') :
    c.isAlpha = false ∧ c ≠ esc ∧ c ≠ '|' ∧ c ≠ heart := by
  rcases hc with hc | rfl
  · refine ⟨Bool.eq_false_iff.mpr (not_isAlpha_of_isDigit hc), ?_, ?_, ?_⟩
    all_goals
      rintro rfl
      exact absurd hc (by decide)
  · decide

theorem stripRest_ansi (hbody : ∀ c ∈ body, c.isDigit = true ∨ c = ';') (r : Str) :
    stripRest (esc :: '[' :: (body ++ ['m']) ++ r) =
      esc :: '[' :: (body ++ ['m']) ++ stripcolors r := by
  have hplain : IsPlain ('[' :: (body ++ ['m'])) := by
    intro c hc
    rcases List.mem_cons.mp hc with rfl | hc
    · decide
    rcases List.mem_append.mp hc with hc | hc
    · exact (not_isAlpha_of_body (hbody c hc)).2
    · rw [List.mem_singleton.mp hc]
      decide
  have hesc : stripRest (esc :: ('[' :: (body ++ ['m']) ++ r)) =
      esc :: stripcolors ('[' :: (body ++ ['m']) ++ r) := by
    rw [stripRest, stripCode_other (by decide) (by decide)]
    rfl
  rw [stripcolors_plain_append hplain] at hesc
  exact hesc

theorem stripcolors_ansi_segment (hbody : ∀ c ∈ body, c.isDigit = true ∨ c = ';') (r : Str) :
    stripcolors (esc :: '[' :: (body ++ ['m']) ++ r) = stripRest r := by
  have hassoc : esc :: '[' :: (body ++ ['m']) ++ r = esc :: '[' :: (body ++ 'm' :: r) := by simp
  have halpha : ∀ c ∈ body, c.isAlpha = false := fun c hc => (not_isAlpha_of_body (hbody c hc)).1
  rw [hassoc, stripcolors_ansi halpha rfl (List.mem_cons_self ..)]

/-- What is left of a text of segments. -/
theorem stripFrom_segments (after : Bool) (segs : List Segment) :
    stripFrom after (segs.flatMap Segment.text) = left after segs := by
  induction segs generalizing after with
  | nil => cases after <;> rfl
  | cons seg segs ih =>
    have hnext : stripcolors (segs.flatMap Segment.text) = left false segs := ih false
    rw [List.flatMap_cons]
    cases seg with
    | plain t ht =>
      cases t with
      | nil => exact ih after
      | cons c t =>
        have hstep := stripFrom_plain_append (r := segs.flatMap Segment.text) ht
          (List.cons_ne_nil c t) after
        rw [hnext] at hstep
        exact hstep
    | pipe a b ha hb => exact (stripFrom_pipe ha hb after).trans hnext
    | heart d hd => exact (stripFrom_heart hd after).trans hnext
    | ansi body h =>
      cases after with
      | false => exact (stripcolors_ansi_segment h _).trans (ih true)
      | true =>
        have hstep := stripRest_ansi h (segs.flatMap Segment.text)
        rw [hnext] at hstep
        exact hstep

/-- The plain segments are always left. -/
theorem plainText_sublist_left (after : Bool) (segs : List Segment) :
    (segs.flatMap Segment.plainText).Sublist (left after segs) := by
  fun_induction left after segs with
  | case1 => exact List.Sublist.refl _
  | case2 after h segs ih => exact ih
  | case3 after c t h segs ih => exact List.Sublist.append (List.Sublist.refl _) ih
  | case4 after a b ha hb segs ih => exact ih
  | case5 after d hd segs ih => exact ih
  | case6 body h segs ih => exact ih
  | case7 body h segs ih => exact ih.trans (List.sublist_append_right _ _)

/-- The segments that hold a character. -/
def written (segs : List Segment) : List Segment := segs.filter fun seg => seg.text ≠ []

/-- After a segment that is no ANSI sequence, any segment may come. -/
theorem apart_cons_other {seg : Segment} (hseg : seg.isAnsi = false) (after : Bool)
    (l : List Segment) :
    ((after = true → ∀ x ∈ (seg :: l).head?, ¬x.isAnsi) ∧
        (seg :: l).IsChain fun a b => ¬(a.isAnsi ∧ b.isAnsi)) ↔
      (false = true → ∀ x ∈ l.head?, ¬x.isAnsi) ∧ l.IsChain fun a b => ¬(a.isAnsi ∧ b.isAnsi) := by
  have hne : ¬seg.isAnsi = true := Bool.eq_false_iff.mp hseg
  rw [List.isChain_cons]
  constructor
  · rintro ⟨-, -, hl⟩
    exact ⟨fun h => absurd h Bool.false_ne_true, hl⟩
  · rintro ⟨-, hl⟩
    refine ⟨fun _ x hx => ?_, fun x _ h => hne h.1, hl⟩
    obtain rfl := Option.some.inj hx
    exact hne

/-- After an ANSI sequence, no other one may come. -/
theorem apart_cons_ansi {seg : Segment} (hseg : seg.isAnsi = true) (l : List Segment) :
    ((false = true → ∀ x ∈ (seg :: l).head?, ¬x.isAnsi) ∧
        (seg :: l).IsChain fun a b => ¬(a.isAnsi ∧ b.isAnsi)) ↔
      (true = true → ∀ x ∈ l.head?, ¬x.isAnsi) ∧ l.IsChain fun a b => ¬(a.isAnsi ∧ b.isAnsi) := by
  rw [List.isChain_cons]
  constructor
  · rintro ⟨-, hhead, hl⟩
    exact ⟨fun _ x hx h => hhead x hx ⟨hseg, h⟩, hl⟩
  · rintro ⟨hhead, hl⟩
    exact ⟨fun h => absurd h Bool.false_ne_true, fun x hx h => hhead rfl x hx h.2, hl⟩

/-- The plain segments are all that is left exactly when no ANSI sequence comes right after
another. -/
theorem left_eq_plainText_iff (after : Bool) (segs : List Segment) :
    left after segs = segs.flatMap Segment.plainText ↔
      (after = true → ∀ seg ∈ (written segs).head?, ¬seg.isAnsi) ∧
      (written segs).IsChain fun a b => ¬(a.isAnsi ∧ b.isAnsi) := by
  fun_induction left after segs with
  | case1 after => simp [written]
  | case2 after h segs ih => exact ih
  | case3 after c t h segs ih =>
    have hwritten : written (.plain (c :: t) h :: segs) = .plain (c :: t) h :: written segs := rfl
    have hplain : left false segs = segs.flatMap Segment.plainText ↔
        c :: t ++ left false segs =
          (Segment.plain (c :: t) h :: segs).flatMap Segment.plainText := by
      rw [List.flatMap_cons, Segment.plainText, List.append_cancel_left_eq]
    rw [← hplain, ih, hwritten, apart_cons_other rfl]
  | case4 after a b ha hb segs ih =>
    have hwritten : written (.pipe a b ha hb :: segs) = .pipe a b ha hb :: written segs := rfl
    rw [hwritten, apart_cons_other rfl]
    exact ih
  | case5 after d hd segs ih =>
    have hwritten : written (.heart d hd :: segs) = .heart d hd :: written segs := rfl
    rw [hwritten, apart_cons_other rfl]
    exact ih
  | case6 body h segs ih =>
    have hwritten : written (.ansi body h :: segs) = .ansi body h :: written segs := rfl
    rw [hwritten, apart_cons_ansi rfl]
    exact ih
  | case7 body h segs ih =>
    have hwritten : written (.ansi body h :: segs) = .ansi body h :: written segs := rfl
    rw [hwritten]
    constructor
    · -- The second sequence stays, and the plain segments after it as well.
      intro heq
      have hle := (plainText_sublist_left false segs).length_le
      have hlen := congrArg List.length heq
      simp only [Segment.text, Segment.plainText, List.flatMap_cons, List.length_append,
        List.length_cons, List.length_nil] at hlen
      omega
    · rintro ⟨hhead, -⟩
      exact absurd rfl (hhead rfl _ rfl)

/-- The plain segments of a text are what `stripcolors` leaves, exactly when no ANSI sequence comes
right after another. -/
theorem stripcolors_segments_iff (segs : List Segment) :
    stripcolors (segs.flatMap Segment.text) = segs.flatMap Segment.plainText ↔
      (written segs).IsChain fun a b => ¬(a.isAnsi ∧ b.isAnsi) := by
  have hleft : stripcolors (segs.flatMap Segment.text) = left false segs :=
    stripFrom_segments false segs
  rw [hleft, left_eq_plainText_iff]
  simp

/-- `ESC[0m` and `ESC[1m`: the second one is left. -/
theorem stripcolors_two_ansi :
    ¬ ∀ segs : List Segment,
      stripcolors (segs.flatMap Segment.text) = segs.flatMap Segment.plainText := by
  intro h
  have htwo := h [.ansi ['0'] (by decide), .ansi ['1'] (by decide)]
  revert htwo
  decide

end Segments

/-! ## Pieces of a text -/

/-- A character that belongs to no code, or a code. An ANSI sequence ends with its first letter,
whichever it is. -/
inductive Piece
  | char (c : Char)
  | pipe (a b : Char) (ha : isColorCode a = true) (hb : isColorCode b = true)
  | heart (d : Char) (hd : d.isDigit = true)
  | ansi (body : Str) (a : Char) (hbody : ∀ c ∈ body, c.isAlpha = false) (ha : a.isAlpha = true)

namespace Piece

/-- How the piece is written. -/
def text : Piece → Str
  | char c => [c]
  | pipe a b _ _ => ['|', a, b]
  | heart d _ => [ColorCodes.heart, d]
  | ansi body a _ _ => esc :: '[' :: (body ++ [a])

/-- The character that belongs to no code. -/
def char? : Piece → Option Char
  | char c => some c
  | _ => none

end Piece

/-- The text of the pieces. -/
def spelling (ps : List Piece) : Str := ps.flatMap Piece.text

/-- The pieces are what `stripcolors` reads: a character is one where no code begins. No ANSI
sequence is read right after another. -/
def IsReading : Bool → List Piece → Prop
  | _, [] => True
  | after, .char c :: ps =>
    (pipeCode (c :: spelling ps) = false ∧ heartCode (c :: spelling ps) = false ∧
      (after = true ∨ ansiCode (c :: spelling ps) = false)) ∧ IsReading false ps
  | _, .pipe _ _ _ _ :: ps => IsReading false ps
  | _, .heart _ _ :: ps => IsReading false ps
  | after, .ansi _ a _ _ :: ps => (after = false ∧ 'm' ∈ a :: spelling ps) ∧ IsReading true ps

/-- `c` is the next character that belongs to no code, with `qs` after it. -/
def NextChar (c : Char) (ps qs : List Piece) : Prop :=
  ∃ codes, ps = codes ++ .char c :: qs ∧ ∀ p ∈ codes, p.char? = none

/-- The characters of a code, with other codes between them. -/
inductive Scattered : List Piece → Prop
  | pipe {a b : Char} {ps qs rs : List Piece} (ha : isColorCode a = true)
      (hb : isColorCode b = true) (hqs : NextChar a ps qs) (hrs : NextChar b qs rs) :
      Scattered (.char '|' :: ps)
  | heart {d : Char} {ps qs : List Piece} (hd : d.isDigit = true) (hqs : NextChar d ps qs) :
      Scattered (.char ColorCodes.heart :: ps)
  | ansi {ps qs : List Piece} (hqs : NextChar '[' ps qs) (hm : .char 'm' ∈ qs) :
      Scattered (.char esc :: ps)

section Pieces

variable {c : Char} {s r t : Str} {ps qs : List Piece}

/-- Every text has a reading. -/
theorem exists_isReading (after : Bool) (s : Str) : ∃ ps, IsReading after ps ∧ spelling ps = s := by
  induction hn : s.length using Nat.strongRecOn generalizing after s with
  | ind n ih =>
    subst hn
    by_cases hansi : after = false ∧ ansiCode s = true
    · obtain ⟨rfl, hansi⟩ := hansi
      obtain ⟨body, a, t, rfl, hbody, ha, hmt⟩ := exists_of_ansiCode hansi
      have hlt : t.length < (esc :: '[' :: (body ++ a :: t)).length := by
        simp only [List.length_append, List.length_cons]
        omega
      obtain ⟨ps, hps, rfl⟩ := ih t.length hlt true t rfl
      refine ⟨.ansi body a hbody ha :: ps, ⟨⟨rfl, hmt⟩, hps⟩, ?_⟩
      simp [spelling, Piece.text]
    by_cases hpipe : pipeCode s = true
    · obtain ⟨a, b, t, rfl, ha, hb⟩ := pipeCode_eq_true_iff.mp hpipe
      obtain ⟨ps, hps, rfl⟩ := ih t.length (by simp only [List.length_cons]; omega) false t rfl
      exact ⟨.pipe a b ha hb :: ps, hps, rfl⟩
    by_cases hheart : heartCode s = true
    · obtain ⟨d, t, rfl, hd⟩ := heartCode_eq_true_iff.mp hheart
      obtain ⟨ps, hps, rfl⟩ := ih t.length (by simp only [List.length_cons]; omega) false t rfl
      exact ⟨.heart d hd :: ps, hps, rfl⟩
    cases s with
    | nil => exact ⟨[], trivial, rfl⟩
    | cons c t =>
      obtain ⟨ps, hps, rfl⟩ := ih t.length (by simp) false t rfl
      refine ⟨.char c :: ps, ⟨⟨?_, ?_, ?_⟩, hps⟩, rfl⟩
      · exact Bool.eq_false_iff.mpr hpipe
      · exact Bool.eq_false_iff.mpr hheart
      · cases after with
        | true => exact .inl rfl
        | false => exact .inr (Bool.eq_false_iff.mpr fun h => hansi ⟨rfl, h⟩)

/-- `stripcolors` leaves the characters that belong to no code. -/
theorem stripFrom_isReading {after : Bool} (h : IsReading after ps) :
    stripFrom after (spelling ps) = ps.filterMap Piece.char? := by
  induction ps generalizing after with
  | nil => cases after <;> rfl
  | cons p ps ih =>
    cases p with
    | char c =>
      obtain ⟨⟨hpipe, hheart, hansi⟩, hrest⟩ := h
      have hnext : stripcolors (spelling ps) = ps.filterMap Piece.char? := ih hrest
      have hchar : stripRest (c :: spelling ps) = c :: ps.filterMap Piece.char? := by
        rw [stripRest_other hpipe hheart, hnext]
      cases after with
      | true => exact hchar
      | false =>
        have hno : ansiCode (c :: spelling ps) = false := by simpa using hansi
        exact (stripcolors_of_not_ansi hno).trans hchar
    | pipe a b ha hb => exact (stripFrom_pipe ha hb after).trans (ih h)
    | heart d hd => exact (stripFrom_heart hd after).trans (ih h)
    | ansi body a hbody ha =>
      obtain ⟨⟨rfl, hm⟩, hrest⟩ := h
      have htext : spelling (.ansi body a hbody ha :: ps) =
          esc :: '[' :: (body ++ a :: spelling ps) := by
        simp [spelling, Piece.text]
      have hstep : stripFrom false (spelling (.ansi body a hbody ha :: ps)) =
          stripRest (spelling ps) := by
        rw [htext]
        exact stripcolors_ansi hbody ha hm
      exact hstep.trans (ih hrest)

theorem filterMap_char?_sublist (ps : List Piece) :
    (ps.filterMap Piece.char?).Sublist (spelling ps) := by
  induction ps with
  | nil => exact List.Sublist.refl _
  | cons p ps ih =>
    cases p with
    | char c => exact ih.cons_cons c
    | _ => exact ih.trans (List.sublist_append_right _ _)

/-- Nothing new is put out. -/
theorem stripcolors_sublist (s : Str) : (stripcolors s).Sublist s := by
  obtain ⟨ps, hps, rfl⟩ := exists_isReading false s
  have hstrip : stripcolors (spelling ps) = ps.filterMap Piece.char? := stripFrom_isReading hps
  rw [hstrip]
  exact filterMap_char?_sublist ps

/-- A code begins here. -/
def beginsCode (s : Str) : Bool := pipeCode s || heartCode s || ansiCode s

/-- A code at the start is taken out. -/
theorem length_stripcolors_lt (h : beginsCode s = true) : (stripcolors s).length < s.length := by
  obtain ⟨ps, hps, rfl⟩ := exists_isReading false s
  have hstrip : stripcolors (spelling ps) = ps.filterMap Piece.char? := stripFrom_isReading hps
  rw [hstrip]
  cases ps with
  | nil => exact absurd h (by decide)
  | cons p ps =>
    have hle := (filterMap_char?_sublist ps).length_le
    have htext : (spelling (p :: ps)).length = p.text.length + (spelling ps).length := by
      simp [spelling]
    cases p with
    | char c =>
      obtain ⟨⟨hpipe, hheart, hansi⟩, -⟩ := hps
      have hcode : beginsCode (spelling (.char c :: ps)) = false := by
        have hno : ansiCode (c :: spelling ps) = false := by simpa using hansi
        exact Bool.or_eq_false_iff.mpr ⟨Bool.or_eq_false_iff.mpr ⟨hpipe, hheart⟩, hno⟩
      exact absurd h (Bool.eq_false_iff.mp hcode)
    | _ =>
      rw [htext]
      refine Nat.lt_of_le_of_lt hle ?_
      simp [Piece.text]

theorem stripcolors_cons_of_not_beginsCode (h : beginsCode (c :: r) = false) :
    stripcolors (c :: r) = c :: stripcolors r := by
  simp only [beginsCode, Bool.or_eq_false_iff] at h
  obtain ⟨⟨hpipe, hheart⟩, hansi⟩ := h
  rw [stripcolors_of_not_ansi hansi, stripRest_other hpipe hheart]

/-- A text stays as it is exactly when it holds no code. -/
theorem stripcolors_eq_self_iff :
    stripcolors s = s ↔ ∀ t, t <:+ s → beginsCode t = false := by
  induction s with
  | nil =>
    refine ⟨fun _ t ht => ?_, fun _ => rfl⟩
    rw [List.suffix_nil.mp ht]
    rfl
  | cons c r ih =>
    by_cases hcode : beginsCode (c :: r) = true
    · constructor
      · intro heq
        have hlt := length_stripcolors_lt hcode
        rw [heq] at hlt
        exact absurd hlt (Nat.lt_irrefl _)
      · intro h
        exact absurd hcode (Bool.eq_false_iff.mp (h _ List.suffix_rfl))
    · have hcode := Bool.eq_false_iff.mpr hcode
      rw [stripcolors_cons_of_not_beginsCode hcode, List.cons.injEq, ih]
      constructor
      · rintro ⟨-, h⟩ t ht
        rcases List.suffix_cons_iff.mp ht with rfl | ht
        · exact hcode
        · exact h t ht
      · intro h
        exact ⟨rfl, fun t ht => h t (ht.trans (List.suffix_cons c r))⟩

theorem filterMap_char?_eq_cons_iff : ps.filterMap Piece.char? = c :: t ↔
    ∃ qs, NextChar c ps qs ∧ qs.filterMap Piece.char? = t := by
  rw [List.filterMap_eq_cons_iff]
  constructor
  · rintro ⟨codes, p, qs, rfl, hcodes, hp, hqs⟩
    cases p with
    | char d =>
      obtain rfl := Option.some.inj hp
      exact ⟨qs, ⟨codes, rfl, hcodes⟩, hqs⟩
    | _ => exact absurd hp.symm (Option.some_ne_none c)
  · rintro ⟨qs, ⟨codes, rfl, hcodes⟩, hqs⟩
    exact ⟨codes, .char c, qs, rfl, hcodes, rfl, hqs⟩

theorem mem_filterMap_char?_iff : c ∈ ps.filterMap Piece.char? ↔ .char c ∈ ps := by
  rw [List.mem_filterMap]
  constructor
  · rintro ⟨p, hp, hc⟩
    cases p with
    | char d =>
      obtain rfl := Option.some.inj hc
      exact hp
    | _ => exact absurd hc.symm (Option.some_ne_none c)
  · intro h
    exact ⟨.char c, h, rfl⟩

/-- The characters that belong to no code begin a code together. -/
theorem beginsCode_filterMap_iff :
    beginsCode (c :: ps.filterMap Piece.char?) = true ↔ Scattered (.char c :: ps) := by
  rw [beginsCode, Bool.or_eq_true, Bool.or_eq_true, pipeCode_eq_true_iff, heartCode_eq_true_iff,
    ansiCode_eq_true_iff]
  constructor
  · rintro ((⟨a, b, r, heq, ha, hb⟩ | ⟨d, r, heq, hd⟩) | ⟨r, heq, hm⟩)
    · obtain ⟨rfl, hkept⟩ := List.cons.inj heq
      obtain ⟨qs, hqs, hkept⟩ := filterMap_char?_eq_cons_iff.mp hkept
      obtain ⟨rs, hrs, -⟩ := filterMap_char?_eq_cons_iff.mp hkept
      exact .pipe ha hb hqs hrs
    · obtain ⟨rfl, hkept⟩ := List.cons.inj heq
      obtain ⟨qs, hqs, -⟩ := filterMap_char?_eq_cons_iff.mp hkept
      exact .heart hd hqs
    · obtain ⟨rfl, hkept⟩ := List.cons.inj heq
      obtain ⟨qs, hqs, rfl⟩ := filterMap_char?_eq_cons_iff.mp hkept
      exact .ansi hqs (mem_filterMap_char?_iff.mp hm)
  · intro h
    cases h with
    | @pipe a b _ qs rs ha hb hqs hrs =>
      have hb' := filterMap_char?_eq_cons_iff.mpr ⟨rs, hrs, rfl⟩
      have ha' := filterMap_char?_eq_cons_iff.mpr ⟨qs, hqs, hb'⟩
      exact .inl (.inl ⟨a, b, _, congrArg _ ha', ha, hb⟩)
    | @heart d _ qs hd hqs =>
      have hd' := filterMap_char?_eq_cons_iff.mpr ⟨qs, hqs, rfl⟩
      exact .inl (.inr ⟨d, _, congrArg _ hd', hd⟩)
    | @ansi _ qs hqs hm =>
      have hqs' := filterMap_char?_eq_cons_iff.mpr ⟨qs, hqs, rfl⟩
      exact .inr ⟨_, congrArg _ hqs', mem_filterMap_char?_iff.mpr hm⟩

theorem Scattered.exists_char (h : Scattered ps) : ∃ c qs, ps = .char c :: qs := by
  cases h <;> exact ⟨_, _, rfl⟩

theorem exists_suffix_beginsCode_iff :
    (∃ t, t <:+ ps.filterMap Piece.char? ∧ beginsCode t = true) ↔
      ∃ qs, qs <:+ ps ∧ Scattered qs := by
  constructor
  · rintro ⟨t, ⟨u, hu⟩, hcode⟩
    obtain ⟨front, rest, rfl, -, hrest⟩ := List.filterMap_eq_append_iff.mp hu.symm
    cases t with
    | nil => exact absurd hcode (by decide)
    | cons c t =>
      obtain ⟨qs, ⟨codes, rfl, -⟩, rfl⟩ := filterMap_char?_eq_cons_iff.mp hrest
      refine ⟨.char c :: qs, ?_, beginsCode_filterMap_iff.mp hcode⟩
      exact (List.suffix_append codes _).trans (List.suffix_append front _)
  · rintro ⟨qs, hqs, hscattered⟩
    obtain ⟨c, qs, rfl⟩ := hscattered.exists_char
    exact ⟨_, hqs.filterMap Piece.char?, beginsCode_filterMap_iff.mpr hscattered⟩

/-- The result holds no code any more exactly when no code has others between its characters. -/
theorem stripcolors_stripcolors_iff (s : Str) : stripcolors (stripcolors s) = stripcolors s ↔
    ∃ ps, IsReading false ps ∧ spelling ps = s ∧ ∀ qs, qs <:+ ps → ¬Scattered qs := by
  have hreading : ∀ ps, IsReading false ps →
      (stripcolors (stripcolors (spelling ps)) = stripcolors (spelling ps) ↔
        ∀ qs, qs <:+ ps → ¬Scattered qs) := by
    intro ps hps
    have hstrip : stripcolors (spelling ps) = ps.filterMap Piece.char? := stripFrom_isReading hps
    have hsuffix := not_congr (@exists_suffix_beginsCode_iff ps)
    simp only [not_exists, not_and, Bool.not_eq_true] at hsuffix
    rw [hstrip, stripcolors_eq_self_iff, hsuffix]
  constructor
  · intro h
    obtain ⟨ps, hps, rfl⟩ := exists_isReading false s
    exact ⟨ps, hps, rfl, (hreading ps hps).mp h⟩
  · rintro ⟨ps, hps, rfl, h⟩
    exact (hreading ps hps).mpr h

/-- `||1212` becomes the pipe code `|12`. -/
theorem stripcolors_pipe_in_pipe :
    ¬ ∀ s, stripcolors (stripcolors s) = stripcolors s := by
  intro h
  have hpipe := h ['|', '|', '1', '2', '1', '2']
  revert hpipe
  decide

end Pieces

end ColorCodes

end WwivBasic
