import WwivBasic.Core.IniComments

/-!
# Multi-line strings in INI files

`ParseIniFile` looks for the quotes that close a multi-line string on the lines below the one that
opens it, takes a comment off the line that opens it, and passes over blank lines before it looks at
what it is reading. A line that does not fit in the buffer of `ReadLine` comes in pieces, with line
breaks between them.

## Main definitions

* `MultilineBlock`: an assignment of lines between triple quotes
* `MultilineBlock.Reads`, `MultilineBlock.FileReads`: it is read as its lines, and closed
* `MultilineBlock.Readable`: none of the lines is in the way of that
* `MultilineBlock.Fits`: the lines fit in the buffer as they are written

## Main results

* `Delivered.step`: a value is made of lines that fit in the buffer
* `MultilineBlock.reads_iff`: when a multi-line string is read as its lines
-/

namespace WwivBasic

/-- The lines below the one that opens a multi-line string, the last one with the closing quotes. -/
def closeLast : List Str → List Str
  | [] => []
  | [l] => [l ++ tripleQuote]
  | l :: lines => l :: closeLast lines

theorem closeLast_cons_cons (l l' : Str) (lines : List Str) :
    closeLast (l :: l' :: lines) = l :: closeLast (l' :: lines) := rfl

/-- An assignment of lines between triple quotes: the text before the `=`, and the lines. -/
structure MultilineBlock where
  key : Str
  first : Str
  rest : List Str
  key_plain : ∀ c ∈ key, c ≠ '=' ∧ c ≠ ';' ∧ c ≠ '\n'
  lines_plain : ∀ l ∈ first :: rest, stringTrim l = l ∧ ¬tripleQuote <:+: l ∧ '\n' ∉ l

namespace MultilineBlock

/-- How the block is written. -/
def lines (b : MultilineBlock) : List Str :=
  if b.rest = [] then [b.key ++ '=' :: (tripleQuote ++ (b.first ++ tripleQuote))]
  else (b.key ++ '=' :: (tripleQuote ++ b.first)) :: closeLast b.rest

/-- The lines, with CRLF between them, an empty first line dropped. -/
def value (b : MultilineBlock) : Str :=
  ['\r', '\n'].intercalate (if b.first = [] then b.rest else b.first :: b.rest)

/-- The block assigns its value and is closed. -/
structure IsRead (b : MultilineBlock) (p q : IniParser) : Prop where
  closed : q.in_multiline_string = false
  section_ : q.section_ = p.section_
  data : ∀ f, q.data.find? f =
    if f = fullKey p.section_ (stringTrim b.key) then some b.value else p.data.find? f

/-- The loop of `ParseIniFile` reads the block as its lines, after all lines before it. -/
def Reads (b : MultilineBlock) : Prop :=
  ∀ before : List Str, (before.foldl IniParser.step {}).in_multiline_string = false →
    b.IsRead (before.foldl IniParser.step {}) ((before ++ b.lines).foldl IniParser.step {})

/-- `ParseIniFile` reads the block in a file as its lines, and goes on with the line below it. -/
def FileReads (b : MultilineBlock) : Prop :=
  ∀ before after : List Str, (∀ l ∈ before ++ after, '\n' ∉ l) →
    (before.foldl IniParser.read {}).in_multiline_string = false →
      ∃ q, b.IsRead (before.foldl IniParser.read {}) q ∧
        (linesOf (['\n'].intercalate (before ++ b.lines ++ after))).foldl IniParser.step {} =
          after.foldl IniParser.read q

/-- The lines as they are written, with the key and the quotes, fit in the buffer. -/
def Fits (b : MultilineBlock) : Prop := ∀ l ∈ b.lines, ReadWhole l

/-- The lines by themselves do, and the key has no NUL. -/
structure LinesFit (b : MultilineBlock) : Prop where
  key_no_nul : '\x00' ∉ b.key
  lines : ∀ l ∈ b.first :: b.rest, ReadWhole l

/-- The quotes are not closed on the line that opens them, on which no comment begins; the lines
between are not blank, no quote stands before the closing ones, and the first line is no header. -/
structure Readable (b : MultilineBlock) : Prop where
  rest_ne_nil : b.rest ≠ []
  no_comment : ';' ∉ b.first
  no_blank : ∀ l ∈ b.rest.dropLast, l ≠ []
  no_quote : ∀ l, b.rest.getLast? = some l → l.getLast? ≠ some '"'
  no_header : ¬((stringTrim b.key).head? = some '[' ∧ b.first.getLast? = some ']')

end MultilineBlock

section Multiline

variable {p : IniParser} {l s t v : Str} {lines : List Str}

/-! ## The line that opens a multi-line string -/

theorem rdropWhile_tripleQuote (t : Str) :
    (tripleQuote ++ t).rdropWhile isWhite = tripleQuote ++ t.rdropWhile isWhite :=
  rdropWhile_append_cons (c := '"') rfl ['"', '"'] t

/-- The text after the opening quotes, without white space at its end. -/
theorem parseValue_tripleQuote (t : Str) :
    parseValue (tripleQuote ++ t) = (t.rdropWhile isWhite, true) := by
  have htrim : stringTrim (tripleQuote ++ t) = tripleQuote ++ t.rdropWhile isWhite := by
    rw [← rdropWhile_tripleQuote]
    rfl
  have hfind : findText tripleQuote (tripleQuote ++ t.rdropWhile isWhite) = some 0 :=
    findText_eq_some_iff.mpr (Occurrences.firstAt_zero (List.prefix_append _ _))
  rw [parseValue, htrim, hfind]
  rfl

/-- What the line that opens a multi-line string assigns, up to a comment. -/
theorem parseAssignment_open {key : Str} (hkey : ∀ c ∈ key, c ≠ '=' ∧ c ≠ ';') (t : Str) :
    parseAssignment (key ++ '=' :: (tripleQuote ++ t)) =
      some (stringTrim key, (t.takeWhile (· ≠ ';')).rdropWhile isWhite, true) := by
  have hkey' : ∀ c ∈ key, decide (c ≠ ';') = true := fun c hc => by simpa using (hkey c hc).2
  have htake : (key ++ '=' :: (tripleQuote ++ t)).takeWhile (· ≠ ';') =
      key ++ '=' :: (tripleQuote ++ t.takeWhile (· ≠ ';')) := by
    rw [List.takeWhile_append_of_pos hkey']
    rfl
  have hno : ';' ∉ tripleQuote ++ t.takeWhile (· ≠ ';') := by
    rw [List.mem_append, not_or]
    exact ⟨by decide, fun hmem => by simpa using List.mem_takeWhile_imp hmem⟩
  rw [← parseValue_tripleQuote, ← parseAssignment_append hkey hno, ← htake]
  apply parseAssignment_congr
  symm
  rw [List.takeWhile_eq_self_iff]
  exact fun c hc => List.mem_takeWhile_imp (p := fun c => decide (c ≠ ';')) hc

/-- The line that opens a multi-line string, without the white space it begins with. -/
theorem stringTrim_open (key : Str) (ht : t.rdropWhile isWhite = t) :
    stringTrim (key ++ '=' :: (tripleQuote ++ t)) =
      key.dropWhile isWhite ++ '=' :: (tripleQuote ++ t) := by
  rw [stringTrim_append rfl, rdropWhile_tripleQuote, ht]

theorem isHeader_open {key : Str} (ht : t.rdropWhile isWhite = t) :
    isHeader (stringTrim (key ++ '=' :: (tripleQuote ++ t))) = true ↔
      (stringTrim key).head? = some '[' ∧ t.getLast? = some ']' := by
  have hhead : (key.dropWhile isWhite ++ '=' :: (tripleQuote ++ t)).head? = some '[' ↔
      (key.dropWhile isWhite).head? = some '[' := by
    cases key.dropWhile isWhite <;> simp
  have hlast : (key.dropWhile isWhite ++ '=' :: (tripleQuote ++ t)).getLast? = some ']' ↔
      t.getLast? = some ']' := by
    rw [List.getLast?_append_cons]
    cases t with
    | nil => simp [tripleQuote]
    | cons c t =>
      have hassoc : '=' :: (tripleQuote ++ c :: t) = ('=' :: tripleQuote) ++ c :: t := rfl
      rw [hassoc, List.getLast?_append_cons]
  rw [stringTrim_open key ht, head?_stringTrim, isHeader_iff, hhead, hlast]

/-- The line that opens a multi-line string, unless it is a header. -/
theorem IniParser.step_open {key : Str} (hp : p.in_multiline_string = false)
    (hkey : ∀ c ∈ key, c ≠ '=' ∧ c ≠ ';' ∧ c ≠ '\n') (ht : t.rdropWhile isWhite = t)
    (hheader : ¬((stringTrim key).head? = some '[' ∧ t.getLast? = some ']')) :
    p.step (key ++ '=' :: (tripleQuote ++ t)) =
      { p with
        in_multiline_string := true
        full_key := fullKey p.section_ (stringTrim key)
        data := p.data.insertOrAssign (fullKey p.section_ (stringTrim key))
          ((t.takeWhile (· ≠ ';')).rdropWhile isWhite) } := by
  have hkey' : ∀ c ∈ key.dropWhile isWhite, c ≠ '=' ∧ c ≠ ';' := by
    intro c hc
    have hplain := hkey c ((List.dropWhile_sublist _).mem hc)
    exact ⟨hplain.1, hplain.2.1⟩
  have hparse := parseAssignment_open hkey' t
  rw [stringTrim_dropWhile] at hparse
  have hne : key.dropWhile isWhite ++ '=' :: (tripleQuote ++ t) ≠ [] :=
    List.append_ne_nil_of_right_ne_nil _ (List.cons_ne_nil _ _)
  rw [← isHeader_open ht] at hheader
  rw [IniParser.step]
  dsimp only
  rw [if_neg (stringTrim_open key ht ▸ hne), hp, if_neg Bool.false_ne_true, if_neg hheader,
    stringTrim_open key ht, hparse]

/-! ## The lines below it -/

theorem dropWhile_of_trimmed (hl : stringTrim l = l) : l.dropWhile isWhite = l := by
  have hle := (List.rdropWhile_prefix isWhite (l.dropWhile isWhite)).length_le
  have hlen : (stringTrim l).length = l.length := congrArg List.length hl
  exact (List.dropWhile_suffix isWhite).eq_of_length_le (hlen ▸ hle)

theorem rdropWhile_of_trimmed (hl : stringTrim l = l) : l.rdropWhile isWhite = l := by
  rwa [stringTrim, dropWhile_of_trimmed hl] at hl

theorem rdropWhile_close (l : Str) :
    (l ++ tripleQuote).rdropWhile isWhite = l ++ tripleQuote := by
  have hassoc : l ++ tripleQuote = (l ++ ['"', '"']) ++ '"' :: [] := by simp [tripleQuote]
  rw [hassoc, rdropWhile_append_cons rfl]
  rfl

/-- A line with the closing quotes. -/
theorem stringTrim_close (hl : stringTrim l = l) :
    stringTrim (l ++ tripleQuote) = l ++ tripleQuote := by
  have hdrop : (l ++ tripleQuote).dropWhile isWhite = l ++ tripleQuote := by
    rw [List.dropWhile_append, dropWhile_of_trimmed hl]
    cases l <;> rfl
  rw [stringTrim, hdrop, rdropWhile_close]

/-- The quotes are found where they are put, unless a quote stands before them. -/
theorem firstAt_close (hl : ¬tripleQuote <:+: l) :
    Occurrences.FirstAt tripleQuote (l ++ tripleQuote) l.length ↔ l.getLast? ≠ some '"' := by
  constructor
  · intro hfirst hlast
    obtain ⟨l, rfl⟩ := List.getLast?_eq_some_iff.mp hlast
    apply hfirst.2 l.length (by simp)
    have hassoc : l ++ ['"'] ++ tripleQuote = l ++ '"' :: tripleQuote := by simp
    rw [hassoc, List.drop_left]
    exact ⟨['"'], rfl⟩
  · intro hlast
    refine ⟨by rw [List.drop_left], fun j hj hprefix => ?_⟩
    rw [List.drop_append_of_le_length (Nat.le_of_lt hj)] at hprefix
    have hsuffix := List.drop_suffix j l
    have hne : l.drop j ≠ [] := List.ne_nil_of_length_pos (by rw [List.length_drop]; omega)
    generalize l.drop j = u at hprefix hsuffix hne
    obtain ⟨front, rfl⟩ := hsuffix
    -- An occurrence before the closing quotes takes in the last character of the line.
    rcases u with - | ⟨x, - | ⟨y, - | ⟨z, u⟩⟩⟩
    · exact hne rfl
    · obtain rfl := (List.cons_prefix_cons.mp hprefix).1
      exact hlast (by simp)
    · obtain rfl := (List.cons_prefix_cons.mp (List.cons_prefix_cons.mp hprefix).2).1
      exact hlast (by simp)
    · obtain ⟨hx, htwo⟩ := List.cons_prefix_cons.mp hprefix
      obtain ⟨hy, hone⟩ := List.cons_prefix_cons.mp htwo
      obtain ⟨hz, -⟩ := List.cons_prefix_cons.mp hone
      exact hl ⟨front, u, by simp [tripleQuote, ← hx, ← hy, ← hz]⟩

/-- What is left of the line with the closing quotes. -/
def closed (l : Str) : Str := (parseContinuation (l ++ tripleQuote)).1

theorem exists_close (l : Str) : ∃ k, k ≤ l.length ∧
    Occurrences.FirstAt tripleQuote (l ++ tripleQuote) k ∧
      parseContinuation (l ++ tripleQuote) = (l.take k, false) := by
  cases hfind : findText tripleQuote (l ++ tripleQuote) with
  | none => exact absurd (List.suffix_append l _).isInfix (not_isInfix_of_findText hfind)
  | some k =>
    have hfirst := firstAt_of_findText hfind
    have hk : k ≤ l.length := by
      apply Nat.le_of_not_lt
      intro hlt
      exact hfirst.2 l.length hlt (by rw [List.drop_left])
    refine ⟨k, hk, hfirst, ?_⟩
    rw [parseContinuation, hfind]
    exact congrArg (·, false) (List.take_append_of_le_length hk)

theorem length_closed_le (l : Str) : (closed l).length ≤ l.length := by
  obtain ⟨k, -, -, hclose⟩ := exists_close l
  rw [closed, hclose]
  exact List.length_take_le' k l

theorem closed_eq_self_iff (hl : ¬tripleQuote <:+: l) : closed l = l ↔ l.getLast? ≠ some '"' := by
  obtain ⟨k, hk, hfirst, hclose⟩ := exists_close l
  rw [closed, hclose, ← firstAt_close hl, List.take_eq_self_iff]
  constructor
  · intro hle
    rwa [Nat.le_antisymm hle hk]
  · intro hlast
    exact Nat.le_of_eq (hlast.unique hfirst)

/-- What the lines below make of the string read so far. -/
def continued : Str → List Str → Str
  | v, [] => v
  | v, [l] => appendLine v (closed l)
  | v, l :: lines => continued (if l = [] then v else appendLine v l) lines

theorem continued_cons_cons (v l l' : Str) (lines : List Str) : continued v (l :: l' :: lines) =
    continued (if l = [] then v else appendLine v l) (l' :: lines) := rfl

theorem length_appendLine (v l : Str) :
    (appendLine v l).length = (if v = [] then 0 else v.length + 2) + l.length := by
  rw [appendLine, List.length_append]
  split_ifs <;> simp

theorem appendLine_ne_nil (hl : l ≠ []) (v : Str) : appendLine v l ≠ [] :=
  List.append_ne_nil_of_right_ne_nil _ hl

/-- Two lines, one after the other. -/
theorem appendLine_append (hl : l ≠ []) (v r : Str) :
    appendLine v (l ++ ['\r', '\n'] ++ r) = appendLine (appendLine v l) r := by
  rw [appendLine.eq_1 (appendLine v l), if_neg (appendLine_ne_nil hl v), appendLine, appendLine]
  simp only [List.append_assoc]

theorem length_continued_le (hne : lines ≠ []) (v : Str) :
    (continued v lines).length ≤ (appendLine v (['\r', '\n'].intercalate lines)).length := by
  fun_induction continued v lines with
  | case1 v => exact absurd rfl hne
  | case2 v l =>
    have hle := length_closed_le l
    rw [List.intercalate_singleton, length_appendLine, length_appendLine]
    omega
  | case3 v l lines hlines ih =>
    have hrest : lines ≠ [] := hlines
    have hle := ih hrest
    rw [List.intercalate_cons_of_ne_nil hrest]
    by_cases hl : l = []
    · rw [if_pos hl] at hle ⊢
      rw [length_appendLine] at hle ⊢
      simp only [List.length_append]
      omega
    · rw [if_neg hl] at hle ⊢
      rwa [appendLine_append hl]

/-- The lines are kept exactly when those between are not blank, and no quote stands before the
closing ones. -/
theorem continued_eq_iff (hne : lines ≠ []) (hlines : ∀ l ∈ lines, ¬tripleQuote <:+: l) (v : Str) :
    continued v lines = appendLine v (['\r', '\n'].intercalate lines) ↔
      (∀ l ∈ lines.dropLast, l ≠ []) ∧ ∀ l, lines.getLast? = some l → l.getLast? ≠ some '"' := by
  fun_induction continued v lines with
  | case1 v => exact absurd rfl hne
  | case2 v l =>
    rw [List.intercalate_singleton, appendLine, appendLine, List.append_cancel_left_eq,
      closed_eq_self_iff (hlines l (List.mem_singleton_self l))]
    simp
  | case3 v l lines hlast ih =>
    have hrest : lines ≠ [] := hlast
    obtain ⟨-, hlines⟩ := List.forall_mem_cons.mp hlines
    rw [List.intercalate_cons_of_ne_nil hrest, List.dropLast_cons_of_ne_nil hrest,
      List.getLast?_cons_of_ne_nil hrest, List.forall_mem_cons]
    by_cases hl : l = []
    · -- The blank line and its line break are missing.
      have hle := length_continued_le hrest v
      constructor
      · intro heq
        have hlen := congrArg List.length heq
        rw [if_pos hl] at hlen
        rw [length_appendLine] at hle hlen
        simp only [List.length_append, List.length_cons] at hlen
        omega
      · rintro ⟨⟨hnot, -⟩, -⟩
        exact absurd hl hnot
    · rw [appendLine_append hl]
      have ih := ih hrest hlines
      rw [if_neg hl] at ih ⊢
      rw [ih]
      exact ⟨fun h => ⟨⟨hl, h.1⟩, h.2⟩, fun h => ⟨h.1.2, h.2⟩⟩

/-- A line between the quotes. -/
theorem IniParser.step_between (hp : p.in_multiline_string = true) (hl : l ≠ [])
    (htrim : stringTrim l = l) (hquote : ¬tripleQuote <:+: l) :
    p.step l = { p with
      data := p.data.insertWith p.full_key fun existing_value =>
        appendLine (existing_value.getD []) l } := by
  have hcontinue : parseContinuation l = (l, true) := by
    rw [parseContinuation, findText_eq_none_iff.mpr hquote]
  rw [IniParser.step, htrim]
  dsimp only
  rw [if_neg hl, hp, if_pos rfl, hcontinue]

/-- The line with the closing quotes. -/
theorem IniParser.step_close (hp : p.in_multiline_string = true) (htrim : stringTrim l = l) :
    p.step (l ++ tripleQuote) = { p with
      in_multiline_string := false
      data := p.data.insertWith p.full_key fun existing_value =>
        appendLine (existing_value.getD []) (closed l) } := by
  obtain ⟨k, -, -, hclose⟩ := exists_close l
  have hne : l ++ tripleQuote ≠ [] :=
    List.append_ne_nil_of_right_ne_nil l (List.cons_ne_nil '"' ['"', '"'])
  rw [IniParser.step, stringTrim_close htrim]
  dsimp only
  rw [if_neg hne, hp, if_pos rfl, closed, hclose]

/-- The lines below, up to the closing quotes. -/
theorem foldl_closeLast (hp : p.in_multiline_string = true) (hv : p.data.find? p.full_key = some v)
    (hne : lines ≠ []) (hlines : ∀ l ∈ lines, stringTrim l = l ∧ ¬tripleQuote <:+: l) :
    ∃ data, (closeLast lines).foldl IniParser.step p =
        { p with in_multiline_string := false, data := data } ∧
      ∀ f, data.find? f =
        if f = p.full_key then some (continued v lines) else p.data.find? f := by
  induction lines generalizing p v with
  | nil => exact absurd rfl hne
  | cons l lines ih =>
    obtain ⟨⟨htrim, hquote⟩, hrest⟩ := List.forall_mem_cons.mp hlines
    cases lines with
    | nil =>
      refine ⟨_, IniParser.step_close hp htrim, fun f => ?_⟩
      rw [StrMap.find?_insertWith, hv]
      rfl
    | cons l' lines =>
      rw [closeLast_cons_cons, List.foldl_cons]
      by_cases hl : l = []
      · subst hl
        exact ih hp hv (List.cons_ne_nil l' lines) hrest
      · rw [IniParser.step_between hp hl htrim hquote]
        have hv' : (p.data.insertWith p.full_key fun existing_value =>
            appendLine (existing_value.getD []) l).find? p.full_key = some (appendLine v l) := by
          rw [StrMap.find?_insertWith, if_pos rfl, hv]
          rfl
        obtain ⟨data, hdata, hfind⟩ := @ih
          { p with
            data := p.data.insertWith p.full_key fun existing_value =>
              appendLine (existing_value.getD []) l } _ hp hv' (List.cons_ne_nil l' lines) hrest
        have hnext : continued v (l :: l' :: lines) = continued (appendLine v l) (l' :: lines) := by
          rw [continued_cons_cons, if_neg hl]
        refine ⟨data, hdata, fun f => ?_⟩
        rw [hfind f, StrMap.find?_insertWith, hnext]
        split_ifs <;> rfl

/-! ## A block taken for a header -/

theorem parseValue_spec (s : Str) :
    (parseValue s).1.Sublist s ∧ ((parseValue s).2 = true → tripleQuote <:+: s) := by
  have htrim := stringTrim_isInfix s
  rw [parseValue]
  cases hfind : findText tripleQuote (stringTrim s) with
  | some k =>
    have hquote := (firstAt_of_findText hfind).isInfix
    exact ⟨(List.drop_sublist _ _).trans htrim.sublist, fun _ => hquote.trans htrim⟩
  | none =>
    dsimp only
    split_ifs
    · refine ⟨?_, fun h => h.elim⟩
      exact ((List.dropLast_sublist _).trans (List.drop_sublist _ _)).trans htrim.sublist
    · exact ⟨htrim.sublist, fun h => h.elim⟩

theorem parseAssignment_spec {key value : Str} {multiline : Bool}
    (h : parseAssignment l = some (key, value, multiline)) :
    key.Sublist l ∧ value.Sublist l ∧ (multiline = true → tripleQuote <:+: l) := by
  rw [parseAssignment] at h
  dsimp only at h
  split_ifs at h
  obtain ⟨hkey, hvalue⟩ := Prod.mk.inj (Option.some.inj h)
  have hspec := parseValue_spec
    ((l.takeWhile (· ≠ ';')).drop (((l.takeWhile (· ≠ ';')).takeWhile (· ≠ '=')).length + 1))
  have hinfix : (l.takeWhile (· ≠ ';')).drop
      (((l.takeWhile (· ≠ ';')).takeWhile (· ≠ '=')).length + 1) <:+: l :=
    (List.drop_suffix _ _).isInfix.trans (List.takeWhile_prefix _).isInfix
  rw [hvalue] at hspec
  refine ⟨?_, hspec.1.trans hinfix.sublist, fun hm => (hspec.2 hm).trans hinfix⟩
  rw [← hkey]
  exact ((stringTrim_isInfix _).sublist.trans (List.takeWhile_sublist _)).trans
    (List.takeWhile_sublist _)

/-- No multi-line string is being read, and no value has a line break. -/
structure NoBreaks (p : IniParser) : Prop where
  outside : p.in_multiline_string = false
  values : ∀ f v, p.data.find? f = some v → '\n' ∉ v

/-- A line keeps the values without line breaks, and opens a multi-line string only by its
quotes. -/
theorem NoBreaks.step (h : NoBreaks p) (hl : '\n' ∉ l) :
    (∀ f v, (p.step l).data.find? f = some v → '\n' ∉ v) ∧
      ((p.step l).in_multiline_string = true → tripleQuote <:+: l) := by
  obtain ⟨hp, hvalues⟩ := h
  have hnot : ¬p.in_multiline_string = true := Bool.eq_false_iff.mp hp
  have houtside : p.in_multiline_string = true → tripleQuote <:+: l := fun hm => absurd hm hnot
  rw [IniParser.step]
  dsimp only
  rw [if_neg hnot]
  split_ifs
  · exact ⟨hvalues, houtside⟩
  · exact ⟨hvalues, houtside⟩
  · have htrim := stringTrim_isInfix l
    cases hparse : parseAssignment (stringTrim l) with
    | none => exact ⟨hvalues, houtside⟩
    | some a =>
      obtain ⟨key, value, multiline⟩ := a
      obtain ⟨-, hsub, hquote⟩ := parseAssignment_spec hparse
      refine ⟨fun f v hv => ?_, fun hm => (hquote hm).trans htrim⟩
      have hinsert : (p.data.insertWith (fullKey p.section_ key) fun _ => value).find? f =
          some v := hv
      rw [StrMap.find?_insertWith] at hinsert
      split_ifs at hinsert
      · obtain rfl := Option.some.inj hinsert
        exact fun hmem => hl (htrim.sublist.mem (hsub.mem hmem))
      · exact hvalues f v hinsert

theorem NoBreaks.foldl_closeLast (h : NoBreaks p)
    (hlines : ∀ l ∈ lines, ¬tripleQuote <:+: l ∧ '\n' ∉ l) (f v : Str) :
    ((closeLast lines).foldl IniParser.step p).data.find? f = some v → '\n' ∉ v := by
  induction lines generalizing p with
  | nil => exact h.values f v
  | cons l lines ih =>
    obtain ⟨⟨hquote, hbreak⟩, hrest⟩ := List.forall_mem_cons.mp hlines
    cases lines with
    | nil =>
      have hbreak' : '\n' ∉ l ++ tripleQuote := by
        rw [List.mem_append, not_or]
        exact ⟨hbreak, by decide⟩
      exact (h.step hbreak').1 f v
    | cons l' lines =>
      rw [closeLast_cons_cons, List.foldl_cons]
      obtain ⟨hvalues, hopens⟩ := h.step hbreak
      exact ih ⟨Bool.eq_false_iff.mpr fun hm => hquote (hopens hm), hvalues⟩ hrest

/-! ## What the values are made of -/

theorem intercalate_concat {ls : List Str} (hne : ls ≠ []) (sep x : Str) :
    sep.intercalate (ls ++ [x]) = sep.intercalate ls ++ sep ++ x := by
  induction ls with
  | nil => exact absurd rfl hne
  | cons l ls ih =>
    by_cases hnil : ls = []
    · rw [hnil, List.intercalate_singleton]
      exact List.intercalate_cons_cons.trans (by rw [List.intercalate_singleton])
    · rw [List.cons_append, List.intercalate_cons_of_ne_nil (by simp), ih hnil,
        List.intercalate_cons_of_ne_nil hnil]
      simp only [List.append_assoc]

/-- Lines that fit in the buffer, with CRLF between them. -/
def IsDelivered (v : Str) : Prop :=
  ∃ ls, ls ≠ [] ∧ (∀ l ∈ ls, ReadWhole l) ∧ v = ['\r', '\n'].intercalate ls

theorem ReadWhole.isDelivered (hl : ReadWhole l) : IsDelivered l :=
  ⟨[l], List.cons_ne_nil _ _, by simpa using hl, (List.intercalate_singleton ..).symm⟩

/-- One more line. -/
theorem IsDelivered.appendLine (h : IsDelivered v) (hl : ReadWhole l) :
    IsDelivered (appendLine v l) := by
  obtain ⟨ls, hne, hls, rfl⟩ := h
  by_cases hempty : ['\r', '\n'].intercalate ls = []
  · rw [hempty]
    exact hl.isDelivered
  · refine ⟨ls ++ [l], by simp, ?_, ?_⟩
    · intro x hx
      rcases List.mem_append.mp hx with hx | hx
      · exact hls x hx
      · exact List.mem_singleton.mp hx ▸ hl
    · rw [WwivBasic.appendLine, if_neg hempty, intercalate_concat hne]

/-- The keys and the values are of lines that fit in the buffer. -/
structure Delivered (p : IniParser) : Prop where
  section_ : '\x00' ∉ p.section_
  full_key : '\x00' ∉ p.full_key
  data : ∀ f v, p.data.find? f = some v → '\x00' ∉ f ∧ IsDelivered v

theorem Delivered.initial : Delivered {} :=
  ⟨by decide, by decide, fun _ _ h => absurd h.symm (Option.some_ne_none _)⟩

theorem Delivered.insertWith (h : Delivered p) {key f : Str} {value : Option Str → Str}
    (hkey : '\x00' ∉ key) (hvalue : IsDelivered (value (p.data.find? key)))
    (hfind : (p.data.insertWith key value).find? f = some v) : '\x00' ∉ f ∧ IsDelivered v := by
  rw [StrMap.find?_insertWith] at hfind
  split_ifs at hfind with hf
  · obtain rfl := Option.some.inj hfind
    exact ⟨hf ▸ hkey, hvalue⟩
  · exact h.data f v hfind

theorem readWhole_parseContinuation (hl : ReadWhole l) : ReadWhole (parseContinuation l).1 := by
  rw [parseContinuation]
  cases findText tripleQuote l with
  | none => exact hl
  | some e => exact hl.of_sublist (List.take_sublist e l)

theorem Delivered.step (h : Delivered p) (hl : ReadWhole l) : Delivered (p.step l) := by
  have htrim := hl.of_sublist (stringTrim_isInfix l).sublist
  rw [IniParser.step]
  dsimp only
  split_ifs
  · exact h
  · refine ⟨h.section_, h.full_key, fun f v => h.insertWith h.full_key ?_⟩
    have hline := readWhole_parseContinuation htrim
    cases hfind : p.data.find? p.full_key with
    | none => exact hline.isDelivered
    | some v => exact (h.data _ v hfind).2.appendLine hline
  · refine ⟨fun hmem => htrim.no_nul ?_, h.full_key, h.data⟩
    exact (List.drop_subset 1 _) ((List.dropLast_subset _) hmem)
  · cases hparse : parseAssignment (stringTrim l) with
    | none => exact h
    | some a =>
      obtain ⟨key, value, multiline⟩ := a
      obtain ⟨hsub, hvalue, -⟩ := parseAssignment_spec hparse
      have hkey : '\x00' ∉ fullKey p.section_ key := by
        rw [fullKey, List.mem_append, List.mem_cons, not_or, not_or]
        exact ⟨h.section_, by decide, (htrim.of_sublist hsub).no_nul⟩
      exact ⟨h.section_, hkey,
        fun f v => h.insertWith hkey (htrim.of_sublist hvalue).isDelivered⟩

theorem Delivered.foldl (h : Delivered p) {ls : List Str} (hls : ∀ l ∈ ls, ReadWhole l) :
    Delivered (ls.foldl IniParser.step p) := by
  induction ls generalizing p with
  | nil => exact h
  | cons l ls ih =>
    obtain ⟨hl, hls⟩ := List.forall_mem_cons.mp hls
    exact ih (h.step hl) hls

/-- Lines with CRLF between them are told apart. -/
theorem intercalate_inj {ls ls' : List Str} (hne : ls ≠ []) (hne' : ls' ≠ [])
    (hls : ∀ l ∈ ls, '\n' ∉ l) (hls' : ∀ l ∈ ls', '\n' ∉ l)
    (h : ['\r', '\n'].intercalate ls = ['\r', '\n'].intercalate ls') : ls = ls' := by
  induction ls generalizing ls' with
  | nil => exact absurd rfl hne
  | cons l ls ih =>
    obtain ⟨l', ls', rfl⟩ := List.exists_cons_of_ne_nil hne'
    obtain ⟨hl, hls⟩ := List.forall_mem_cons.mp hls
    obtain ⟨hl', hls'⟩ := List.forall_mem_cons.mp hls'
    have hbreak : ∀ {x y : Str}, x ++ (['\r', '\n'] ++ y) = (x ++ ['\r']) ++ '\n' :: y := by simp
    by_cases hnil : ls = [] <;> by_cases hnil' : ls' = []
    · rw [hnil, hnil', List.intercalate_singleton, List.intercalate_singleton] at h
      rw [hnil, hnil', h]
    · rw [hnil, List.intercalate_singleton, List.intercalate_cons_of_ne_nil hnil'] at h
      exact absurd (h ▸ by simp) hl
    · rw [hnil', List.intercalate_singleton, List.intercalate_cons_of_ne_nil hnil] at h
      exact absurd (h ▸ by simp) hl'
    · rw [List.intercalate_cons_of_ne_nil hnil, List.intercalate_cons_of_ne_nil hnil',
        List.append_assoc, List.append_assoc, hbreak, hbreak] at h
      have hfront : l ++ ['\r'] = l' ++ ['\r'] := by
        have htake : ∀ {x y : Str}, '\n' ∉ x →
            ((x ++ ['\r']) ++ '\n' :: y).takeWhile (· ≠ '\n') = x ++ ['\r'] := by
          intro x y hx
          rw [takeWhile_append_cons (by simp), List.takeWhile_eq_self_iff]
          intro c hc
          rw [decide_eq_true_eq]
          rintro rfl
          simp [hx] at hc
        rw [← htake hl, h, htake hl']
      rw [hfront, List.append_cancel_left_eq, List.cons.injEq] at h
      rw [List.append_cancel_right_eq] at hfront
      rw [hfront, ih hnil hnil' hls hls' h.2]

end Multiline

namespace MultilineBlock

variable {b : MultilineBlock} {p : IniParser}

/-- The value, as the lines after the first one make it of the first. -/
theorem value_eq (h : b.rest ≠ []) :
    b.value = appendLine b.first (['\r', '\n'].intercalate b.rest) := by
  rw [value, appendLine]
  split_ifs with hfirst
  · rfl
  · rw [List.intercalate_cons_of_ne_nil h]

theorem mem_value (h : b.rest ≠ []) (hfirst : b.first ≠ []) : '\n' ∈ b.value := by
  rw [value_eq h, appendLine, if_neg hfirst]
  simp

theorem rdropWhile_first (b : MultilineBlock) : b.first.rdropWhile isWhite = b.first :=
  rdropWhile_of_trimmed (b.lines_plain b.first (List.mem_cons_self ..)).1

theorem rest_plain (b : MultilineBlock) {l : Str} (hl : l ∈ b.rest) :
    stringTrim l = l ∧ ¬tripleQuote <:+: l ∧ '\n' ∉ l :=
  b.lines_plain l (List.mem_cons_of_mem _ hl)

/-- What is read of the first line. -/
def opened (b : MultilineBlock) : Str := (b.first.takeWhile (· ≠ ';')).rdropWhile isWhite

theorem length_opened_lt (h : ';' ∈ b.first) : b.opened.length < b.first.length := by
  obtain ⟨a, r, heq, -⟩ := List.eq_append_cons_of_mem h
  have htake : b.first.takeWhile (· ≠ ';') = a.takeWhile (· ≠ ';') := by
    rw [heq, takeWhile_append_cons (by simp)]
  have hle := (List.rdropWhile_prefix isWhite (a.takeWhile (· ≠ ';'))).length_le
  have hle' := (List.takeWhile_prefix (l := a) (p := fun c => decide (c ≠ ';'))).length_le
  have hlen := congrArg List.length heq
  rw [List.length_append, List.length_cons] at hlen
  rw [opened, htake]
  omega

theorem opened_eq_first (h : ';' ∉ b.first) : b.opened = b.first := by
  have htake : b.first.takeWhile (· ≠ ';') = b.first := by
    rw [List.takeWhile_eq_self_iff]
    intro c hc
    rw [decide_eq_true_eq]
    rintro rfl
    exact h hc
  rw [opened, htake, b.rdropWhile_first]

/-- The lines of the block, unless the first one is a header. -/
theorem foldl_lines (hp : p.in_multiline_string = false) (hrest : b.rest ≠ [])
    (hheader : ¬((stringTrim b.key).head? = some '[' ∧ b.first.getLast? = some ']')) :
    (b.lines.foldl IniParser.step p).in_multiline_string = false ∧
      (b.lines.foldl IniParser.step p).section_ = p.section_ ∧
        ∀ f, (b.lines.foldl IniParser.step p).data.find? f =
          if f = fullKey p.section_ (stringTrim b.key) then some (continued b.opened b.rest)
          else p.data.find? f := by
  have hplain : ∀ l ∈ b.rest, stringTrim l = l ∧ ¬tripleQuote <:+: l := by
    intro l hl
    obtain ⟨htrim, hquote, -⟩ := b.rest_plain hl
    exact ⟨htrim, hquote⟩
  have hfound : (p.data.insertWith (fullKey p.section_ (stringTrim b.key))
      fun _ => b.opened).find? (fullKey p.section_ (stringTrim b.key)) = some b.opened := by
    rw [StrMap.find?_insertWith, if_pos rfl]
  rw [lines, if_neg hrest, List.foldl_cons,
    IniParser.step_open hp b.key_plain b.rdropWhile_first hheader]
  obtain ⟨data, hdata, hfind⟩ := @foldl_closeLast
    { p with
      in_multiline_string := true
      full_key := fullKey p.section_ (stringTrim b.key)
      data := p.data.insertOrAssign (fullKey p.section_ (stringTrim b.key)) b.opened }
    b.opened b.rest rfl hfound hrest hplain
  have hrun := hdata
  rw [opened] at hrun
  rw [hrun]
  refine ⟨rfl, rfl, fun f => ?_⟩
  have hfind := hfind f
  rw [OrderedMap.insertOrAssign, StrMap.find?_insertWith] at hfind
  rw [hfind]
  split_ifs <;> rfl

/-- The block after any state outside of multi-line strings. -/
theorem isRead_foldl (h : b.Readable) (hp : p.in_multiline_string = false) :
    b.IsRead p (b.lines.foldl IniParser.step p) := by
  have hquotes : ∀ l ∈ b.rest, ¬tripleQuote <:+: l := fun l hl => (b.rest_plain hl).2.1
  obtain ⟨hclosed, hsection, hdata⟩ := foldl_lines hp h.rest_ne_nil h.no_header
  refine ⟨hclosed, hsection, ?_⟩
  rwa [opened_eq_first h.no_comment,
    (continued_eq_iff h.rest_ne_nil hquotes b.first).mpr ⟨h.no_blank, h.no_quote⟩,
    ← value_eq h.rest_ne_nil] at hdata

theorem readable_of_isRead (h : b.IsRead {} (b.lines.foldl IniParser.step {})) : b.Readable := by
  have hquotes : ∀ l ∈ b.rest, ¬tripleQuote <:+: l := fun l hl => (b.rest_plain hl).2.1
  have hrest : b.rest ≠ [] := by
    -- The quotes on the line that opens the string are not taken for the closing ones.
    intro hrest
    have hclosed := h.closed
    rw [lines, if_pos hrest, List.foldl_cons, List.foldl_nil,
      IniParser.step_open rfl b.key_plain (rdropWhile_close b.first)] at hclosed
    · exact Bool.false_ne_true hclosed.symm
    · rintro ⟨-, hlast⟩
      simp [tripleQuote] at hlast
  have hfound := h.data (fullKey [] (stringTrim b.key))
  rw [if_pos rfl] at hfound
  have hheader : ¬((stringTrim b.key).head? = some '[' ∧ b.first.getLast? = some ']') := by
    -- No value below a header has a line break.
    intro hheader
    have hopen : isHeader (stringTrim (b.key ++ '=' :: (tripleQuote ++ b.first))) = true :=
      (isHeader_open b.rdropWhile_first).mpr hheader
    have hstep := IniParser.step_header (p := {}) rfl hopen
    have hnone : NoBreaks (IniParser.step {} (b.key ++ '=' :: (tripleQuote ++ b.first))) := by
      rw [hstep]
      exact ⟨rfl, fun f v hv => absurd hv.symm (Option.some_ne_none v)⟩
    have hplain : ∀ l ∈ b.rest, ¬tripleQuote <:+: l ∧ '\n' ∉ l := fun l hl => (b.rest_plain hl).2
    have hfirst : b.first ≠ [] := by
      intro hempty
      rw [hempty] at hheader
      exact absurd hheader.2.symm (Option.some_ne_none _)
    rw [lines, if_neg hrest, List.foldl_cons] at hfound
    exact hnone.foldl_closeLast hplain _ _ hfound (mem_value hrest hfirst)
  obtain ⟨-, -, hdata⟩ := foldl_lines (b := b) (p := {}) rfl hrest hheader
  rw [hdata, if_pos rfl, Option.some.injEq, value_eq hrest] at hfound
  have hcomment : ';' ∉ b.first := by
    intro hcomment
    have hlt := length_opened_lt hcomment
    have hle := length_continued_le hrest b.opened
    rw [hfound, length_appendLine, length_appendLine, if_neg (List.ne_nil_of_mem hcomment)] at hle
    split_ifs at hle <;> omega
  rw [opened_eq_first hcomment, continued_eq_iff hrest hquotes] at hfound
  exact ⟨hrest, hcomment, hfound.1, hfound.2, hheader⟩

/-! ## The block in a file -/

theorem mem_closeLast {ls : List Str} {l : Str} (h : l ∈ closeLast ls) :
    ∃ x ∈ ls, l = x ∨ l = x ++ tripleQuote := by
  fun_induction closeLast ls with
  | case1 => cases h
  | case2 x => exact ⟨x, List.mem_singleton_self x, .inr (List.mem_singleton.mp h)⟩
  | case3 x ls hne ih =>
    rcases List.mem_cons.mp h with rfl | h
    · exact ⟨l, List.mem_cons_self .., .inl rfl⟩
    · obtain ⟨y, hy, heq⟩ := ih h
      exact ⟨y, List.mem_cons_of_mem _ hy, heq⟩

theorem not_mem_lines (b : MultilineBlock) : ∀ l ∈ b.lines, '\n' ∉ l := by
  have hquotes : '\n' ∉ tripleQuote := by decide
  have hkey : '\n' ∉ b.key := fun h => (b.key_plain _ h).2.2 rfl
  have hfirst : '\n' ∉ b.first := (b.lines_plain _ (List.mem_cons_self ..)).2.2
  intro l hl
  rw [lines] at hl
  split_ifs at hl
  · obtain rfl := List.mem_singleton.mp hl
    simp [hkey, hfirst, hquotes]
  · rcases List.mem_cons.mp hl with rfl | hl
    · simp [hkey, hfirst, hquotes]
    · obtain ⟨x, hx, rfl | rfl⟩ := mem_closeLast hl
      · exact (b.rest_plain hx).2.2
      · simp [(b.rest_plain hx).2.2, hquotes]

/-- The lines before the block, its own and the ones below it. -/
theorem foldl_file (b : MultilineBlock) {before after : List Str}
    (h : ∀ l ∈ before ++ after, '\n' ∉ l) :
    (linesOf (['\n'].intercalate (before ++ b.lines ++ after))).foldl IniParser.step {} =
      after.foldl IniParser.read
        (b.lines.foldl IniParser.read (before.foldl IniParser.read {})) := by
  have hall : ∀ l ∈ before ++ b.lines ++ after, '\n' ∉ l := by
    intro l hl
    simp only [List.mem_append] at hl h
    rcases hl with (hl | hl) | hl
    · exact h l (.inl hl)
    · exact b.not_mem_lines l hl
    · exact h l (.inr hl)
  rw [foldl_linesOf_intercalate (fun _ => rfl) hall, List.foldl_append, List.foldl_append]

theorem fileReads_of_readable (hfits : b.Fits) (h : b.Readable) : b.FileReads := by
  intro before after hlines hp
  refine ⟨_, isRead_foldl h hp, ?_⟩
  rw [foldl_file b hlines, IniParser.foldl_read hfits]

/-- A file with nothing but the block. -/
theorem FileReads.isRead (h : b.FileReads) :
    b.IsRead {} ((linesOf (['\n'].intercalate b.lines)).foldl IniParser.step {}) := by
  obtain ⟨q, hq, hfile⟩ := h [] [] (fun _ hl => absurd hl List.not_mem_nil) rfl
  rw [List.append_nil] at hfile
  exact hfile.symm ▸ hq

theorem readable_of_fileReads (hfits : b.Fits) (h : b.FileReads) : b.Readable := by
  have hread := h.isRead
  rw [foldl_linesOf_intercalate (fun _ => rfl) b.not_mem_lines, IniParser.foldl_read hfits] at hread
  exact readable_of_isRead hread

theorem linesFit_of_fileReads (h : b.FileReads) : b.LinesFit := by
  have hlines : ∀ l ∈ linesOf (['\n'].intercalate b.lines), ReadWhole l :=
    fun _ => readWhole_of_mem_linesOf
  have hdelivered := Delivered.initial.foldl hlines
  have hfound := h.isRead.data (fullKey [] (stringTrim b.key))
  rw [if_pos rfl] at hfound
  obtain ⟨hnul, ls, hne, hls, hvalue⟩ := hdelivered.data _ _ hfound
  refine ⟨fun hkey => hnul ?_, ?_⟩
  · -- White space is all that is trimmed off the key.
    have hkey : '\x00' ∈ stringTrim b.key := by
      obtain ⟨x, y, heq⟩ := List.append_of_mem hkey
      rw [heq, stringTrim_append rfl]
      simp
    exact List.mem_append_right _ (List.mem_cons_of_mem _ hkey)
  rw [value] at hvalue
  split_ifs at hvalue with hfirst
  · rw [List.forall_mem_cons, hfirst]
    refine ⟨by decide, ?_⟩
    by_cases hrest : b.rest = []
    · rw [hrest]
      exact fun _ hl => absurd hl List.not_mem_nil
    · have heq := intercalate_inj hrest hne (fun l hl => (b.rest_plain hl).2.2)
        (fun l hl => (hls l hl).no_break) hvalue
      exact heq ▸ hls
  · have heq := intercalate_inj (List.cons_ne_nil _ _) hne (fun l hl => (b.lines_plain l hl).2.2)
      (fun l hl => (hls l hl).no_break) hvalue
    exact heq ▸ hls

/-- **When a multi-line string is read as its lines**: for the lines as the loop reads them, and in
a file, if they fit in the buffer as they are written. No line that does not fit by itself is read
back. -/
theorem reads_iff (b : MultilineBlock) :
    (b.Reads ↔ b.Readable) ∧ (b.Fits → (b.FileReads ↔ b.Readable)) ∧
      (b.FileReads → b.LinesFit) := by
  refine ⟨⟨fun h => readable_of_isRead (h [] rfl), fun h before hp => ?_⟩, ?_,
    linesFit_of_fileReads⟩
  · rw [List.foldl_append]
    exact isRead_foldl h hp
  · exact fun hfits => ⟨readable_of_fileReads hfits, fileReads_of_readable hfits⟩

/-- `k="""a` and `b"""`. -/
def twoLines : MultilineBlock where
  key := ['k']
  first := ['a']
  rest := [['b']]
  key_plain := by decide
  lines_plain := by decide

theorem reads_iff_twoLines : twoLines.FileReads := by
  have hfits : ∀ l ∈ twoLines.lines, ReadWhole l := by decide
  exact ((reads_iff twoLines).2.1 hfits).mpr
    ⟨by decide, by decide, by decide, by decide, by decide⟩

/-- `k="""a"""`. -/
def oneLine : MultilineBlock where
  key := ['k']
  first := ['a']
  rest := []
  key_plain := by decide
  lines_plain := by decide

/-- The string of one line is not closed. -/
theorem not_fileReads_oneLine : ¬oneLine.FileReads := by
  intro h
  have hclosed := h.isRead.closed
  revert hclosed
  decide

end MultilineBlock

end WwivBasic
