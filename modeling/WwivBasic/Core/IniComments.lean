import WwivBasic.Core.IniFile

/-!
# Comments in INI files

`ParseIniFile` looks for the brackets of a section header before it takes the comment off a line. A
header with a comment is no header any more, and a line that begins with a bracket becomes one by a
comment that ends with the other bracket: either moves the keys of the lines below to another
section. And a comment that does not fit in the buffer of `ReadLine` goes on in a line of its own.
On all other lines a comment plays no part.

## Main definitions

* `CommentedText`: a text, and the comments at the end of some of its lines
* `CommentedText.Inert`: `ParseIniFile` makes the same of the text with the comments and without
* `TakenForHeader`: the brackets of a header are seen with the comment, or without it

## Main results

* `IniParser.step_commented`: a comment on any other line plays no part
* `CommentedText.inert_iff`: when the comments of a text play no part
-/

namespace WwivBasic

/-- A line with a comment. -/
def commented (line comment : Str) : Str := line ++ ' ' :: ';' :: comment

/-- A line, with the comment if there is one. -/
def withComment : Str × Option Str → Str
  | (line, none) => line
  | (line, some comment) => commented line comment

/-- A line of the file, as `ReadLine` returns it. -/
abbrev IniParser.read (p : IniParser) (line : Str) : IniParser := readBy IniParser.step p line

/-- The lines with comments are outside of multi-line strings. -/
def OutsideStrings : IniParser → List (Str × Option Str) → Prop
  | _, [] => True
  | p, (line, comment) :: lines =>
    (∀ c, comment = some c → p.in_multiline_string = false) ∧ OutsideStrings (p.read line) lines

/-- The line begins with a bracket, and the line or the comment ends with one. -/
def TakenForHeader (line comment : Str) : Prop :=
  (stringTrim line).head? = some '[' ∧
    ((stringTrim line).getLast? = some ']' ∨ (stringTrim comment).getLast? = some ']')

/-- A text, with comments at the end of some of its lines. -/
structure CommentedText where
  lines : List (Str × Option Str)
  no_break : ∀ line ∈ lines, '\n' ∉ withComment line

namespace CommentedText

/-- The text. -/
def plain (t : CommentedText) : Str := ['\n'].intercalate (t.lines.map Prod.fst)

/-- The text with the comments. -/
def text (t : CommentedText) : Str := ['\n'].intercalate (t.lines.map withComment)

/-- The comments, with their lines. -/
def comments (t : CommentedText) : List (Str × Str) :=
  t.lines.filterMap fun line => line.2.map (line.1, ·)

/-- In the text, the lines with comments are outside of multi-line strings. -/
def Outside (t : CommentedText) : Prop := OutsideStrings {} t.lines

/-- `ParseIniFile` makes the same of the text with the comments and without. -/
def Inert (t : CommentedText) : Prop :=
  parseIniFile (.opened t.text) ∅ = parseIniFile (.opened t.plain) ∅

/-- Of the lines as they are read, the last one that assigns to a spelling assigns the same with the
comments and without. -/
def SameAssignments (t : CommentedText) : Prop :=
  ∀ f, ((IniLog.ofLines (linesOf t.text)).find? (·.Spells f)).map (·.value) =
    ((IniLog.ofLines (linesOf t.plain)).find? (·.Spells f)).map (·.value)

/-- The lines with comments fit in the buffer, and none is taken for a header. -/
def Untaken (t : CommentedText) : Prop :=
  ∀ x ∈ t.comments, ReadWhole (commented x.1 x.2) ∧ ¬TakenForHeader x.1 x.2

end CommentedText

section Comments

variable {p : IniParser} {l c s r w σ : Str}

/-! ## A commented line -/

theorem isHeader_iff : isHeader s = true ↔ s.head? = some '[' ∧ s.getLast? = some ']' := by
  simp [isHeader]

/-- The brackets of a header are two characters. -/
theorem two_le_length_of_isHeader (h : isHeader s = true) : 2 ≤ s.length := by
  obtain ⟨hhead, hlast⟩ := isHeader_iff.mp h
  rcases s with - | ⟨x, - | ⟨y, s⟩⟩
  · exact absurd hhead.symm (Option.some_ne_none _)
  · exact absurd (hhead.symm.trans hlast) (by decide)
  · exact Nat.le_add_left 2 s.length

/-- The trimmed line is followed by white space and the comment. -/
theorem stringTrim_commented (l c : Str) : ∃ w, (∀ d ∈ w, isWhite d = true) ∧
    (stringTrim l = [] → w = []) ∧
    stringTrim (commented l c) = stringTrim l ++ w ++ ';' :: c.rdropWhile isWhite := by
  have hassoc : commented l c = (l ++ [' ']) ++ ';' :: c := by simp [commented]
  rw [hassoc, stringTrim_append rfl]
  rcases forall_isWhite_or l with hl | ⟨x, d, y, rfl, hd⟩
  · have hblank : ∀ d ∈ l ++ [' '], isWhite d = true := by
      intro d hd
      rcases List.mem_append.mp hd with hd | hd
      · exact hl d hd
      · rw [List.mem_singleton.mp hd]
        rfl
    refine ⟨[], by simp, fun _ => rfl, ?_⟩
    rw [List.dropWhile_eq_nil_iff.mpr hblank, stringTrim_of_forall hl]
    rfl
  · have hline : x ++ d :: y ++ [' '] = x ++ d :: (y ++ [' ']) := by simp
    rw [hline, dropWhile_append_cons hd, stringTrim_append hd]
    refine ⟨y.rtakeWhile isWhite ++ [' '], ?_, ?_, ?_⟩
    · intro e he
      rcases List.mem_append.mp he with he | he
      · exact List.mem_rtakeWhile_imp he
      · rw [List.mem_singleton.mp he]
        rfl
    · intro htrim
      exact absurd htrim (List.append_ne_nil_of_right_ne_nil _ (List.cons_ne_nil _ _))
    · have hy : y.rdropWhile isWhite ++ y.rtakeWhile isWhite = y :=
        List.rdropWhile_append_rtakeWhile
      nth_rewrite 1 [← hy]
      simp only [List.append_assoc, List.cons_append]

/-- With the comment, a line is a header by a bracket of the comment. -/
theorem isHeader_commented : isHeader (stringTrim (commented l c)) = true ↔
    (stringTrim l).head? = some '[' ∧ (stringTrim c).getLast? = some ']' := by
  obtain ⟨w, -, hempty, htrim⟩ := stringTrim_commented l c
  rw [isHeader_iff, htrim, List.getLast?_append_cons, getLast?_stringTrim c]
  have hhead : (stringTrim l ++ w ++ ';' :: c.rdropWhile isWhite).head? = some '[' ↔
      (stringTrim l).head? = some '[' := by
    cases hl : stringTrim l with
    | nil => simp [hempty hl]
    | cons d t => simp
  have hlast : (';' :: c.rdropWhile isWhite).getLast? = some ']' ↔
      (c.rdropWhile isWhite).getLast? = some ']' := by
    cases c.rdropWhile isWhite with
    | nil => simp
    | cons d t => rw [List.getLast?_cons_cons]
  rw [hhead, hlast]

theorem parseAssignment_congr (h : s.takeWhile (· ≠ ';') = r.takeWhile (· ≠ ';')) :
    parseAssignment s = parseAssignment r := by
  rw [parseAssignment, parseAssignment, h]

theorem parseAssignment_eq_none (h : '=' ∉ s) : parseAssignment s = none := by
  have hno : '=' ∉ s.takeWhile (· ≠ ';') := fun hmem => h ((List.takeWhile_sublist _).mem hmem)
  rw [parseAssignment]
  exact if_neg hno

/-- White space at the end plays no part in an assignment. -/
theorem parseAssignment_append_blanks (hw : ∀ d ∈ w, isWhite d = true) :
    parseAssignment (s ++ w) = parseAssignment s := by
  have hno : ∀ d, isWhite d = false → d ∉ w := by
    intro d hd hmem
    rw [hw d hmem] at hd
    exact Bool.false_ne_true hd.symm
  by_cases hcomment : ';' ∈ s
  · -- The white space is in the comment.
    obtain ⟨a, b, rfl, ha⟩ := List.eq_append_cons_of_mem hcomment
    apply parseAssignment_congr
    rw [List.append_assoc, List.cons_append, takeWhile_append_cons (by simp),
      takeWhile_append_cons (by simp)]
  by_cases hequals : '=' ∈ s
  · obtain ⟨a, b, rfl, ha⟩ := List.eq_append_cons_of_mem hequals
    rw [List.mem_append, List.mem_cons, not_or, not_or] at hcomment
    have hkey : ∀ d ∈ a, d ≠ '=' ∧ d ≠ ';' := by
      intro d hd
      constructor
      · rintro rfl
        exact ha hd
      · rintro rfl
        exact hcomment.1 hd
    have hvalue : ';' ∉ b ++ w := by
      rw [List.mem_append, not_or]
      exact ⟨hcomment.2.2, hno ';' rfl⟩
    have htrim : stringTrim (b ++ w) = stringTrim b := @stringTrim_blanks b [] w (by simp) hw
    have hparse : parseValue (b ++ w) = parseValue b := by rw [parseValue, parseValue, htrim]
    rw [List.append_assoc, List.cons_append, parseAssignment_append hkey hvalue,
      parseAssignment_append hkey hcomment.2.2, hparse]
  · have hequals' : '=' ∉ s ++ w := by
      rw [List.mem_append, not_or]
      exact ⟨hequals, hno '=' rfl⟩
    rw [parseAssignment_eq_none hequals, parseAssignment_eq_none hequals']

theorem parseAssignment_commented :
    parseAssignment (stringTrim (commented l c)) = parseAssignment (stringTrim l) := by
  obtain ⟨w, hw, -, htrim⟩ := stringTrim_commented l c
  rw [htrim, ← parseAssignment_append_blanks (s := stringTrim l) hw]
  apply parseAssignment_congr
  rw [takeWhile_append_cons (by simp)]

/-- A comment on a line that is not taken for a header plays no part. -/
theorem IniParser.step_commented (hp : p.in_multiline_string = false) (h : ¬TakenForHeader l c) :
    p.step (commented l c) = p.step l := by
  have hline : isHeader (stringTrim l) = false := by
    rw [Bool.eq_false_iff, Ne, isHeader_iff]
    exact fun hl => h ⟨hl.1, .inl hl.2⟩
  have hcommented : isHeader (stringTrim (commented l c)) = false := by
    rw [Bool.eq_false_iff, Ne, isHeader_commented]
    exact fun hc => h ⟨hc.1, .inr hc.2⟩
  have hne : stringTrim (commented l c) ≠ [] := by
    obtain ⟨w, -, -, htrim⟩ := stringTrim_commented l c
    rw [htrim]
    exact List.append_ne_nil_of_right_ne_nil _ (List.cons_ne_nil _ _)
  rw [IniParser.step, IniParser.step]
  dsimp only
  rw [if_neg hne, hp, hcommented, hline, parseAssignment_commented]
  simp only [Bool.false_eq_true, if_false]
  by_cases hl : stringTrim l = []
  · rw [hl]
    rfl
  · rw [if_neg hl]

theorem IniParser.step_congr (p : IniParser) (s l : Str) (h : stringTrim s = stringTrim l) :
    p.step s = p.step l := by
  unfold IniParser.step
  rw [h]

/-- A line that fits in the buffer is parsed as it is. -/
theorem IniParser.read_eq_step (hl : ReadWhole l) (p : IniParser) : p.read l = p.step l :=
  readBy_of_readWhole step_congr (fun _ => rfl) hl p

theorem IniParser.foldl_read {ls : List Str} (hls : ∀ l ∈ ls, ReadWhole l) (p : IniParser) :
    ls.foldl IniParser.read p = ls.foldl IniParser.step p :=
  foldl_readBy step_congr (fun _ => rfl) hls p

theorem IniParser.read_commented (hp : p.in_multiline_string = false)
    (hc : ReadWhole (commented l c)) (h : ¬TakenForHeader l c) :
    p.read (commented l c) = p.read l := by
  have hl : ReadWhole l := hc.of_sublist (List.sublist_append_left l _)
  rw [read_eq_step hc, read_eq_step hl, step_commented hp h]

/-- Comments on lines that are not taken for headers play no part. -/
theorem foldl_withComment {lines : List (Str × Option Str)} (houtside : OutsideStrings p lines)
    (h : ∀ l c, (l, some c) ∈ lines → ReadWhole (commented l c) ∧ ¬TakenForHeader l c) :
    (lines.map withComment).foldl IniParser.read p =
      (lines.map Prod.fst).foldl IniParser.read p := by
  induction lines generalizing p with
  | nil => rfl
  | cons x lines ih =>
    obtain ⟨l, comment⟩ := x
    obtain ⟨hp, hrest⟩ := houtside
    have ih := ih hrest fun l c hmem => h l c (List.mem_cons_of_mem _ hmem)
    rw [List.map_cons, List.map_cons, List.foldl_cons, List.foldl_cons]
    cases comment with
    | none => exact ih
    | some c =>
      obtain ⟨hwhole, hline⟩ := h l c (List.mem_cons_self ..)
      rw [withComment, IniParser.read_commented (hp c rfl) hwhole hline]
      exact ih

/-! ## A line taken for a header -/

/-- The keys of the data are in one section. -/
structure InSection (σ : Str) (p : IniParser) : Prop where
  section_ : p.section_ = σ
  keys : ∀ f v, p.data.find? f = some v → ∃ key, f = fullKey σ key
  full_key : p.in_multiline_string = true → ∃ key, p.full_key = fullKey σ key

theorem InSection.step (h : InSection σ p) (hl : isHeader (stringTrim l) = false) :
    InSection σ (p.step l) := by
  have hinsert : ∀ (key : Str) (f : Option Str → Str) g v,
      (p.data.insertWith (fullKey σ key) f).find? g = some v → ∃ key, g = fullKey σ key := by
    intro key f g v hg
    rw [StrMap.find?_insertWith] at hg
    split_ifs at hg with hkey
    · exact ⟨key, hkey⟩
    · exact h.keys g v hg
  obtain ⟨rfl, hkeys, hfull⟩ := h
  rw [IniParser.step]
  dsimp only
  split_ifs with hblank hmulti hheader
  · exact ⟨rfl, hkeys, hfull⟩
  · obtain ⟨key, hkey⟩ := hfull hmulti
    refine ⟨rfl, ?_, fun _ => ⟨key, hkey⟩⟩
    rw [hkey]
    exact hinsert key _
  · exact absurd hheader (Bool.eq_false_iff.mp hl)
  · cases parseAssignment (stringTrim l) with
    | none => exact ⟨rfl, hkeys, hfull⟩
    | some a => exact ⟨rfl, hinsert a.1 _, fun _ => ⟨a.1, rfl⟩⟩

/-- A header, as it is read. -/
theorem IniParser.step_header (hp : p.in_multiline_string = false)
    (hl : isHeader (stringTrim l) = true) :
    p.step l = { p with section_ := ((stringTrim l).drop 1).dropLast } := by
  have hne : stringTrim l ≠ [] := by
    intro hempty
    rw [hempty] at hl
    exact Bool.false_ne_true hl
  rw [IniParser.step]
  dsimp only
  rw [if_neg hne, hp, if_neg Bool.false_ne_true, if_pos hl]

/-- The header of a section, the line, and an assignment to `k`. -/
def belowHeader (a : Char) (line : Str) : List Str := [['[', a, ']'], line, ['k', '=', 'v']]

theorem step_sectionLine {a : Char} : IniParser.step {} ['[', a, ']'] = { section_ := [a] } := by
  have htrim : stringTrim ['[', a, ']'] = ['[', a, ']'] := rfl
  rw [IniParser.step_header rfl (by rw [htrim]; rfl), htrim]
  rfl

theorem step_keyLine (hp : p.in_multiline_string = false) : p.step ['k', '=', 'v'] =
    { p with
      full_key := fullKey p.section_ ['k']
      data := p.data.insertOrAssign (fullKey p.section_ ['k']) ['v'] } := by
  obtain ⟨multiline, full_key, σ, data⟩ := p
  obtain rfl : multiline = false := hp
  rfl

/-- Below a line that is a header, `k` is in the section of the header. -/
theorem find?_below_header {a : Char} (hl : isHeader (stringTrim l) = true) (f : Str) :
    ((belowHeader a l).foldl IniParser.step {}).data.find? f =
      if f = fullKey ((stringTrim l).drop 1).dropLast ['k'] then some ['v'] else none := by
  rw [belowHeader, List.foldl_cons, List.foldl_cons, List.foldl_cons, step_sectionLine,
    IniParser.step_header rfl hl, step_keyLine rfl]
  exact StrMap.find?_insertWith ∅ _ f _

/-- Below a line that is no header, all keys are in the section of the header above. -/
theorem find?_below_other {a : Char} (hl : isHeader (stringTrim l) = false) {f : Str}
    (hf : f.head? ≠ some a) : ((belowHeader a l).foldl IniParser.step {}).data.find? f = none := by
  have hinitial : InSection [a] { section_ := [a] } :=
    ⟨rfl, fun f v hv => absurd hv.symm (Option.some_ne_none v),
      fun h => absurd h Bool.false_ne_true⟩
  have hin := (hinitial.step hl).step (l := ['k', '=', 'v']) rfl
  rw [belowHeader, List.foldl_cons, List.foldl_cons, List.foldl_cons, step_sectionLine]
  apply Option.eq_none_iff_forall_ne_some.mpr
  intro v hv
  obtain ⟨key, rfl⟩ := hin.keys f v hv
  exact hf rfl

/-- Some section has another first character than a key. -/
theorem exists_section (f : Str) : ∃ a, ReadWhole ['[', a, ']'] ∧ f.head? ≠ some a := by
  by_cases hf : f.head? = some 'x'
  · exact ⟨'y', by decide, by rw [hf]; decide⟩
  · exact ⟨'x', by decide, hf⟩

/-- The data tells a line taken for a header from the line without the comment. -/
theorem exists_moved (h : TakenForHeader l c) : ∃ a, ReadWhole ['[', a, ']'] ∧
    ((belowHeader a (commented l c)).foldl IniParser.step {}).data ≠
      ((belowHeader a l).foldl IniParser.step {}).data := by
  by_cases hl : isHeader (stringTrim l) = true
  · obtain ⟨a, ha, hhead⟩ := exists_section (fullKey ((stringTrim l).drop 1).dropLast ['k'])
    refine ⟨a, ha, fun heq => ?_⟩
    have hfound := find?_below_header (a := a) hl (fullKey ((stringTrim l).drop 1).dropLast ['k'])
    rw [← heq, if_pos rfl] at hfound
    by_cases hc : isHeader (stringTrim (commented l c)) = true
    · -- The name ends with the comment.
      obtain ⟨w, -, -, htrim⟩ := stringTrim_commented l c
      have hlen := congrArg List.length htrim
      have htwo := two_le_length_of_isHeader hl
      rw [find?_below_header hc, if_neg] at hfound
      · exact absurd hfound.symm (Option.some_ne_none _)
      · intro hkeys
        have hkeys := congrArg List.length hkeys
        simp only [fullKey, List.length_append, List.length_cons, List.length_dropLast,
          List.length_drop] at hkeys hlen
        omega
    · rw [find?_below_other (Bool.eq_false_iff.mpr hc) hhead] at hfound
      exact absurd hfound.symm (Option.some_ne_none _)
  · have hc : isHeader (stringTrim (commented l c)) = true := by
      rw [isHeader_iff] at hl
      exact isHeader_commented.mpr ⟨h.1, h.2.resolve_left fun hlast => hl ⟨h.1, hlast⟩⟩
    obtain ⟨a, ha, hhead⟩ :=
      exists_section (fullKey ((stringTrim (commented l c)).drop 1).dropLast ['k'])
    refine ⟨a, ha, fun heq => ?_⟩
    have hfound := find?_below_header (a := a) hc
      (fullKey ((stringTrim (commented l c)).drop 1).dropLast ['k'])
    rw [heq, if_pos rfl, find?_below_other (Bool.eq_false_iff.mpr hl) hhead] at hfound
    exact absurd hfound.symm (Option.some_ne_none _)

/-! ## Which comments play no part -/

/-- The lines of a file, one after the other. -/
theorem parseIniFile_intercalate {lines : List Str} (h : ∀ l ∈ lines, '\n' ∉ l) :
    parseIniFile (.opened (['\n'].intercalate lines)) ∅ =
      (true, (lines.foldl IniParser.read {}).data) := by
  rw [parseIniFile, foldl_linesOf_intercalate (fun _ => rfl) h]

end Comments

namespace CommentedText

variable {t : CommentedText} {l c : Str}

theorem mem_comments : (l, c) ∈ t.comments ↔ (l, some c) ∈ t.lines := by
  simp only [comments, List.mem_filterMap, Option.map_eq_some_iff]
  constructor
  · rintro ⟨⟨l', comment⟩, hmem, c', hc, heq⟩
    obtain ⟨rfl, rfl⟩ := Prod.mk.inj heq
    obtain rfl : comment = some c' := hc
    exact hmem
  · exact fun hmem => ⟨(l, some c), hmem, c, rfl, rfl⟩

theorem parse_text (t : CommentedText) : parseIniFile (.opened t.text) ∅ =
    (true, ((t.lines.map withComment).foldl IniParser.read {}).data) :=
  parseIniFile_intercalate (List.forall_mem_map.mpr t.no_break)

theorem parse_plain (t : CommentedText) : parseIniFile (.opened t.plain) ∅ =
    (true, ((t.lines.map Prod.fst).foldl IniParser.read {}).data) := by
  apply parseIniFile_intercalate
  rw [List.forall_mem_map]
  rintro ⟨l, comment⟩ hmem hbreak
  apply t.no_break _ hmem
  cases comment with
  | none => exact hbreak
  | some c => exact List.mem_append_left _ hbreak

/-- The map is the last assignment to each spelling. -/
theorem inert_iff_sameAssignments : t.Inert ↔ t.SameAssignments := by
  constructor
  · intro h f
    rw [← find?_parse, ← find?_parse, h]
  · intro h
    have hdata : (parseIniFile (.opened t.text) ∅).2 = (parseIniFile (.opened t.plain) ∅).2 := by
      apply OrderedMap.ext_find?
      intro f
      rw [find?_parse, find?_parse, h f]
    exact Prod.ext rfl hdata

theorem inert_of_untaken (houtside : t.Outside) (h : t.Untaken) : t.Inert := by
  rw [Inert, parse_text, parse_plain,
    foldl_withComment houtside fun l c hmem => h (l, c) (mem_comments.mpr hmem)]

/-- The header of a section, the line with the comment, and an assignment to `k`. -/
def belowHeader (a : Char) (ha : ReadWhole ['[', a, ']']) (hwhole : ReadWhole (commented l c)) :
    CommentedText where
  lines := [(['[', a, ']'], none), (l, some c), (['k', '=', 'v'], none)]
  no_break := by
    simp only [List.forall_mem_cons]
    exact ⟨ha.no_break, hwhole.no_break, by decide, by simp⟩

theorem outside_belowHeader {a : Char} (ha : ReadWhole ['[', a, ']'])
    (hwhole : ReadWhole (commented l c)) : (belowHeader a ha hwhole).Outside := by
  have hp : (IniParser.read {} ['[', a, ']']).in_multiline_string = false := by
    rw [IniParser.read_eq_step ha, step_sectionLine]
  exact ⟨fun _ _ => rfl, fun _ _ => hp, fun c hc => absurd hc.symm (Option.some_ne_none c), trivial⟩

/-- A line taken for a header moves the keys of some text. -/
theorem exists_not_inert (hwhole : ReadWhole (commented l c)) (h : TakenForHeader l c) :
    ∃ t : CommentedText, t.comments = [(l, c)] ∧ t.Outside ∧ ¬t.Inert := by
  obtain ⟨a, ha, hne⟩ := exists_moved h
  refine ⟨belowHeader a ha hwhole, rfl, outside_belowHeader ha hwhole, fun hinert => hne ?_⟩
  have hline : ReadWhole l := hwhole.of_sublist (List.sublist_append_left l _)
  have hkey : ReadWhole ['k', '=', 'v'] := by decide
  rw [Inert, parse_text, parse_plain] at hinert
  simpa only [belowHeader, WwivBasic.belowHeader, withComment, List.map_cons, List.map_nil,
    List.foldl_cons, List.foldl_nil, IniParser.read_eq_step, ha, hline, hkey, hwhole]
    using congrArg Prod.snd hinert

/-- **When the comments of a text play no part**: exactly if the last lines, as lines are read, that
assign to each spelling assign the same. That is so where the lines with comments fit in the buffer
and none is taken for a header; with one that is, the comment by itself moves a key of some text. -/
theorem inert_iff (t : CommentedText) :
    (t.Inert ↔ t.SameAssignments) ∧ (t.Outside → t.Untaken → t.Inert) ∧
      ∀ x ∈ t.comments, ReadWhole (commented x.1 x.2) → TakenForHeader x.1 x.2 →
        ∃ u : CommentedText, u.comments = [x] ∧ u.Outside ∧ ¬u.Inert :=
  ⟨inert_iff_sameAssignments, inert_of_untaken, fun _ _ => exists_not_inert⟩

/-- `k=v ;c`. -/
def assigned : CommentedText where
  lines := [(['k', '=', 'v'], some ['c'])]
  no_break := by decide

theorem inert_iff_assigned : assigned.Inert := by
  refine (inert_iff assigned).2.1 ⟨fun _ _ => rfl, trivial⟩ fun x hx => ?_
  obtain rfl := List.mem_singleton.mp hx
  exact ⟨by decide, by rw [TakenForHeader]; decide⟩

-- The condition on the lines is not necessary: below `[a]`, the line `[a] ;` moves nothing.
example : Inert ⟨[(['[', 'a', ']'], none), (['[', 'a', ']'], some []), (['k', '=', 'v'], none)],
    by decide⟩ :=
  Prod.ext rfl (OrderedMap.ext (by decide))

/-- `[a] ;` and `k=v`. -/
def bracketed : CommentedText where
  lines := [(['[', 'a', ']'], some []), (['k', '=', 'v'], none)]
  no_break := by decide

/-- `[a] ;` is no header: `k` is in no section. -/
theorem not_inert_bracketed : bracketed.Outside ∧ ¬bracketed.Inert := by
  refine ⟨⟨fun _ _ => rfl, fun c hc => absurd hc.symm (Option.some_ne_none c), trivial⟩, ?_⟩
  intro h
  have hfind := congrArg (fun r => r.2.find? ['a', '.', 'k']) h
  revert hfind
  decide

end CommentedText

end WwivBasic
