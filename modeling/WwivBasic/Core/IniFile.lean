import WwivBasic.Core.TextLines
import Mathlib.Data.List.Basic

/-!
# INI files

`ParseIniFile` stores the value of a key in a section under one string, the section and the key with
a dot between them, and `IniFile::GetValue` looks values up under such strings. The parser is
followed by a log of its assignments that keeps the two names apart: the map holds the last value
assigned to each spelling, so a value is that of the last assignment to the pair unless another pair
with the same spelling comes after it.

## Main definitions

* `parseIniFile`, `IniFile.getStringValue`: the parser and the lookup
* `IniLog`: the assignments of a text, section and key kept apart
* `IniText`: texts of section headers, assignments and blank lines
* `IniText.Returns`: the lookup finds the last value assigned to a pair

## Main results

* `find?_parse`: the map holds the last value the log assigns to a spelling
* `IniLog.ofLines_text`: the log of a text is what its lines assign
* `IniText.returns_iff`: when the lookup finds the last value assigned to a pair
-/

namespace WwivBasic

/-- `std::map<std::string, V>`. -/
abbrev StrMap (α : Type) := OrderedMap Str compare α

/-! ## Parsing -/

/-- `"""`. -/
def tripleQuote : Str := ['"', '"', '"']

/-- `StrCat(section, ".", key)`. -/
def fullKey (section_ key : Str) : Str := section_ ++ '.' :: key

/-- A line in brackets. -/
def isHeader (line : Str) : Bool := line.head? = some '[' && line.getLast? = some ']'

/-- The value of an assignment, and whether the lines after it continue it. -/
def parseValue (s : Str) : Str × Bool :=
  let value := stringTrim s
  match findText tripleQuote value with
  | some mlstart => (value.drop (mlstart + 3), true)
  | none =>
    if 2 ≤ value.length ∧ value.head? = some '"' ∧ value.getLast? = some '"' then
      ((value.drop 1).dropLast, false)
    else (value, false)

/-- A line of the form `key = value [; comment]`. -/
def parseAssignment (line : Str) : Option (Str × Str × Bool) :=
  let line := line.takeWhile (· ≠ ';')
  if '=' ∈ line then
    let equals := line.takeWhile (· ≠ '=')
    some (stringTrim equals, parseValue (line.drop (equals.length + 1)))
  else none

/-- The text a line adds to a multi-line string, and whether the string goes on after it. -/
def parseContinuation (line : Str) : Str × Bool :=
  match findText tripleQuote line with
  | some e => (line.take e, false)
  | none => (line, true)

/-- A multi-line string with one more line. -/
def appendLine (existing_value line : Str) : Str :=
  (if existing_value = [] then [] else existing_value ++ ['\r', '\n']) ++ line

/-- The variables of `ParseIniFile`. -/
structure IniParser where
  in_multiline_string : Bool := false
  full_key : Str := []
  section_ : Str := []
  data : StrMap Str := ∅

/-- One iteration of the loop of `ParseIniFile`. -/
def IniParser.step (p : IniParser) (line : Str) : IniParser :=
  let line := stringTrim line
  if line = [] then p
  else if p.in_multiline_string then
    let (line, more) := parseContinuation line
    { p with
      in_multiline_string := more
      data := p.data.insertWith p.full_key fun existing_value =>
        appendLine (existing_value.getD []) line }
  else if isHeader line then { p with section_ := (line.drop 1).dropLast }
  else
    match parseAssignment line with
    | none => p
    | some (partial_key, value, multiline) =>
      { p with
        in_multiline_string := multiline
        full_key := fullKey p.section_ partial_key
        data := p.data.insertOrAssign (fullKey p.section_ partial_key) value }

/-- A file as `ParseIniFile` finds it. -/
inductive File
  | missing
  | closed
  | opened (contents : Str)

/-- `ParseIniFile`: whether the file was read, and the data. -/
def parseIniFile (file : File) (data : StrMap Str) : Bool × StrMap Str :=
  match file with
  | .missing => (false, data)
  | .closed => (false, ∅)
  | .opened contents => (true, ((linesOf contents).foldl IniParser.step {}).data)

/-- `IniFile`. -/
structure IniFile where
  open_ : Bool
  sections_ : List Str
  data_ : StrMap Str

namespace IniFile

/-- `IniFile::IniFile`. -/
def ofFile (file : File) (sections : List Str) : IniFile where
  open_ := (parseIniFile file ∅).1
  sections_ := sections
  data_ := (parseIniFile file ∅).2

/-- `GetValue`. -/
def getValue (ini : IniFile) (raw_key : Str) : Option Str :=
  ini.sections_.findSome? fun section_ => ini.data_.find? (fullKey section_ raw_key)

/-- `GetStringValue`. -/
def getStringValue (ini : IniFile) (key default_value : Str) : Str :=
  match ini.getValue key with
  | some s => s
  | none => default_value

end IniFile

/-! ## The assignments of a text -/

/-- A value assigned to a key inside a section. -/
structure IniAssignment where
  section_ : Str
  key : Str
  value : Str
  deriving DecidableEq

namespace IniAssignment

/-- The assignment is to the pair. -/
def IsOf (a : IniAssignment) (section_ key : Str) : Prop := a.section_ = section_ ∧ a.key = key

/-- The assignment is to the spelling. -/
def Spells (a : IniAssignment) (full_key : Str) : Prop := fullKey a.section_ a.key = full_key

instance (a : IniAssignment) (s k : Str) : Decidable (a.IsOf s k) :=
  inferInstanceAs (Decidable (_ ∧ _))

instance (a : IniAssignment) (f : Str) : Decidable (a.Spells f) :=
  inferInstanceAs (Decidable (_ = _))

theorem IsOf.spells {a : IniAssignment} {section_ key : Str} (h : a.IsOf section_ key) :
    a.Spells (fullKey section_ key) := by
  obtain ⟨rfl, rfl⟩ := h
  rfl

end IniAssignment

/-- The parser with its assignments in place of the map, the last one first. -/
structure IniLog where
  in_multiline_string : Bool := false
  section_ : Str := []
  assigned : List IniAssignment := []

namespace IniLog

/-- What a line does to the assignments. -/
def step (g : IniLog) (line : Str) : IniLog :=
  let line := stringTrim line
  if line = [] then g
  else if g.in_multiline_string then
    let (line, more) := parseContinuation line
    { g with
      in_multiline_string := more
      assigned := g.assigned.modifyHead fun a => { a with value := appendLine a.value line } }
  else if isHeader line then { g with section_ := (line.drop 1).dropLast }
  else
    match parseAssignment line with
    | none => g
    | some (key, value, multiline) =>
      { g with
        in_multiline_string := multiline
        assigned := ⟨g.section_, key, value⟩ :: g.assigned }

/-- The assignments of the lines. -/
def ofLines (lines : List Str) : List IniAssignment := (lines.foldl step {}).assigned

end IniLog

/-- The map holds the last value assigned to each spelling, and a multi-line string continues the
last assignment. -/
structure Follows (p : IniParser) (g : IniLog) : Prop where
  in_multiline_string : p.in_multiline_string = g.in_multiline_string
  section_ : p.section_ = g.section_
  find? : ∀ f, p.data.find? f = (g.assigned.find? (·.Spells f)).map (·.value)
  full_key : g.in_multiline_string = true → ∃ a l, g.assigned = a :: l ∧ a.Spells p.full_key

theorem StrMap.find?_insertWith {α : Type} (m : StrMap α) (k k' : Str) (f : Option α → α) :
    (m.insertWith k f).find? k' = if k' = k then some (f (m.find? k)) else m.find? k' := by
  rw [OrderedMap.find?_insertWith]
  simp only [Std.LawfulEqOrd.compare_eq_iff_eq]

namespace Follows

variable {p : IniParser} {g : IniLog}

/-- The map after an assignment, or after the last assignment is changed. -/
theorem find?_cons {data : StrMap Str} {l : List IniAssignment} {value : Option Str → Str}
    (hfind : ∀ f, data.find? f = (l.find? (·.Spells f)).map (·.value)) (a : IniAssignment)
    (l' : List IniAssignment)
    (hl : ∀ f, ¬ a.Spells f → l.find? (·.Spells f) = l'.find? (·.Spells f))
    (hvalue : value (data.find? (fullKey a.section_ a.key)) = a.value) (f : Str) :
    (data.insertWith (fullKey a.section_ a.key) value).find? f =
      ((a :: l').find? (·.Spells f)).map (·.value) := by
  rw [StrMap.find?_insertWith, hfind f]
  by_cases h : a.Spells f
  · rw [List.find?_cons_of_pos (by simpa using h), if_pos h.symm, hvalue]
    rfl
  · rw [List.find?_cons_of_neg (by simpa using h), if_neg (Ne.symm h), hl f h]

theorem initial : Follows {} {} :=
  ⟨rfl, rfl, fun _ => rfl, fun h => nomatch h⟩

theorem step (h : Follows p g) (line : Str) : Follows (p.step line) (g.step line) := by
  obtain ⟨hmulti, hsection, hfind, hkey⟩ := h
  unfold IniParser.step IniLog.step
  rw [hmulti]
  dsimp only
  split_ifs with hline hm hheader
  · exact ⟨hmulti, hsection, hfind, hkey⟩
  -- The assignment that is continued is the last one: its value is the one in the map.
  · obtain ⟨a, l, hassigned, hspells⟩ := hkey hm
    have hspells : p.full_key = fullKey a.section_ a.key := hspells.symm
    have ha : p.data.find? (fullKey a.section_ a.key) = some a.value := by
      rw [hfind, hassigned, List.find?_cons_of_pos (by simp [IniAssignment.Spells])]
      rfl
    generalize parseContinuation (stringTrim line) = c
    have hfind' : ∀ f,
        (p.data.insertWith (fullKey a.section_ a.key) fun old =>
            appendLine (old.getD []) c.1).find? f =
          (({ a with value := appendLine a.value c.1 } :: l).find? (·.Spells f)).map (·.value) :=
      find?_cons hfind { a with value := appendLine a.value c.1 } l
        (fun f hf => by
          have hf : ¬ a.Spells f := hf
          simp [hassigned, hf])
        (by rw [ha]; rfl)
    rw [hassigned, hspells]
    exact ⟨rfl, hsection, hfind', fun _ => ⟨_, l, rfl, rfl⟩⟩
  · exact ⟨rfl, rfl, hfind, fun h => absurd h hm⟩
  · rw [hsection]
    cases parseAssignment (stringTrim line) with
    | none => exact ⟨hmulti, hsection, hfind, hkey⟩
    | some a =>
      obtain ⟨key, value, multiline⟩ := a
      exact ⟨rfl, rfl, find?_cons hfind ⟨g.section_, key, value⟩ g.assigned (fun _ _ => rfl) rfl,
        fun _ => ⟨_, _, rfl, rfl⟩⟩

theorem run (h : Follows p g) (lines : List Str) :
    Follows (lines.foldl IniParser.step p) (lines.foldl IniLog.step g) := by
  induction lines generalizing p g with
  | nil => exact h
  | cons line lines ih => exact ih (h.step line)

end Follows

/-- The map holds the last value assigned to each spelling. -/
theorem find?_parse (contents f : Str) :
    (parseIniFile (.opened contents) ∅).2.find? f =
      ((IniLog.ofLines (linesOf contents)).find? (·.Spells f)).map (·.value) :=
  (Follows.initial.run (linesOf contents)).find? f

/-! ## Texts of headers, assignments and blank lines -/

/-- White space within a line. -/
def IsBlank (s : Str) : Prop := ∀ c ∈ s, isWhite c = true ∧ c ≠ '\n'

/-- A key or a value: no white space around it, no comment, no quote, no line break. -/
def IsPlain (s : Str) : Prop :=
  (∀ c, s.head? = some c ∨ s.getLast? = some c → isWhite c = false) ∧
    ∀ c ∈ s, c ≠ ';' ∧ c ≠ '"' ∧ c ≠ '\n'

/-- A line, with the white space it is written with. -/
inductive IniLine
  | blank (space : Str)
  | header (before name after : Str)
  | assignment (before key space space' value after : Str)
  deriving DecidableEq

namespace IniLine

/-- How the line is written. -/
def text : IniLine → Str
  | blank space => space
  | header before name after => before ++ ('[' :: (name ++ [']']) ++ after)
  | assignment before key space space' value after =>
    before ++ (key ++ (space ++ '=' :: (space' ++ (value ++ after))))

/-- The parts of the line are what they are meant to be, and an assignment is no header. -/
def Valid : IniLine → Prop
  | blank space => IsBlank space
  | header before name after => IsBlank before ∧ '\n' ∉ name ∧ IsBlank after
  | assignment before key space space' value after =>
    (IsBlank before ∧ IsBlank space ∧ IsBlank space' ∧ IsBlank after) ∧
      IsPlain key ∧ '=' ∉ key ∧ IsPlain value ∧
        ¬ (key.head? = some '[' ∧ value.getLast? = some ']')

/-- The line is read whole, up to white space at its end. -/
def Fits (l : IniLine) : Prop := l.text.length < 4095 ∧ '\x00' ∉ l.text

/-- What the lines assign, the section they begin in given. -/
def assigned (section_ : Str) : List IniLine → List IniAssignment
  | [] => []
  | blank _ :: ls => assigned section_ ls
  | header _ name _ :: ls => assigned name ls
  | assignment _ key _ _ value _ :: ls => ⟨section_, key, value⟩ :: assigned section_ ls

end IniLine

/-- An INI text: its lines are blank, section headers or assignments. -/
structure IniText where
  lines : List IniLine
  valid : ∀ l ∈ lines, l.Valid

namespace IniText

/-- The text, with line breaks between the lines. -/
def text (t : IniText) : Str := ['\n'].intercalate (t.lines.map IniLine.text)

/-- The assignments of the text, the last one first. -/
def assigned (t : IniText) : List IniAssignment := (IniLine.assigned [] t.lines).reverse

/-- The last value assigned to the key inside the section. -/
def value? (t : IniText) (section_ key : Str) : Option Str :=
  (t.assigned.find? (·.IsOf section_ key)).map (·.value)

/-- What a file with the text, opened on the section, returns for the key is the last value assigned
to it, and the default if there is none. -/
def Returns (t : IniText) (section_ key : Str) : Prop :=
  let ini := IniFile.ofFile (.opened t.text) [section_]
  ini.open_ = true ∧ ∀ default_value,
    ini.getStringValue key default_value = (t.value? section_ key).getD default_value

/-- Of the lines as they are read, the last one that assigns to the spelling of the pair assigns
what the text last assigns to the pair. -/
def Kept (t : IniText) (section_ key : Str) : Prop :=
  ((IniLog.ofLines (linesOf t.text)).find? (·.Spells (fullKey section_ key))).map (·.value) =
    t.value? section_ key

/-- The last assignment to the spelling of the pair is to the pair, or assigns what the text last
assigns to the pair. -/
def Unmixed (t : IniText) (section_ key : Str) : Prop :=
  ∀ a, t.assigned.find? (·.Spells (fullKey section_ key)) = some a →
    a.IsOf section_ key ∨ t.value? section_ key = some a.value

end IniText

section Lines

variable {g : IniLog} {s l r : Str}

theorem IsBlank.isWhite (h : IsBlank s) : ∀ c ∈ s, isWhite c = true := fun c hc => (h c hc).1

theorem IsBlank.not_mem {c : Char} (h : IsBlank s) (hc : WwivBasic.isWhite c = false) : c ∉ s :=
  fun hs => by simp [h.isWhite c hs] at hc

theorem dropWhile_eq_self (h : ∀ c, s.head? = some c → isWhite c = false) :
    s.dropWhile isWhite = s := by
  cases s with
  | nil => rfl
  | cons c s => simp [h c rfl]

theorem rdropWhile_eq_self (h : ∀ c, s.getLast? = some c → isWhite c = false) :
    s.rdropWhile isWhite = s := by
  refine List.rdropWhile_eq_self_iff.mpr fun hl => ?_
  simp [h _ (List.getLast?_eq_some_getLast hl)]

theorem IsPlain.stringTrim (h : IsPlain s) : stringTrim s = s := by
  rw [WwivBasic.stringTrim, dropWhile_eq_self fun c hc => h.1 c (.inl hc),
    rdropWhile_eq_self fun c hc => h.1 c (.inr hc)]

/-- A value without quotes is the trimmed text. -/
theorem parseValue_of_plain (h : '"' ∉ stringTrim s) : parseValue s = (stringTrim s, false) := by
  have hhead : (stringTrim s).head? ≠ some '"' := fun hc => h (List.mem_of_mem_head? hc)
  simp [parseValue, tripleQuote, findText_eq_none h, hhead]

theorem parseAssignment_append (hl : ∀ c ∈ l, c ≠ '=' ∧ c ≠ ';') (hr : ';' ∉ r) :
    parseAssignment (l ++ '=' :: r) = some (stringTrim l, parseValue r) := by
  have hcomment : (l ++ '=' :: r).takeWhile (· ≠ ';') = l ++ '=' :: r := by
    refine List.takeWhile_eq_self_iff.mpr fun c hc => ?_
    simp only [List.mem_append, List.mem_cons] at hc
    rcases hc with hc | rfl | hc
    · simpa using (hl c hc).2
    · rfl
    · simpa using fun h : c = ';' => hr (h ▸ hc)
  have hequals : (l ++ '=' :: r).takeWhile (· ≠ '=') = l := by
    rw [List.takeWhile_append_of_pos fun c hc => by simpa using (hl c hc).1]
    simp
  rw [parseAssignment, hcomment]
  dsimp only
  rw [if_pos (by simp), hequals]
  simp

/-- A line with a `=` that is a header begins and ends with the brackets. -/
theorem isHeader_append (h : isHeader (l ++ '=' :: r) = true) :
    l.head? = some '[' ∧ r.getLast? = some ']' := by
  simp only [isHeader, Bool.and_eq_true, decide_eq_true_eq] at h
  obtain ⟨hhead, hlast⟩ := h
  constructor
  · cases l with
    | nil => simp at hhead
    | cons c l => exact hhead
  · rcases List.eq_nil_or_concat r with rfl | ⟨r, c, rfl⟩
    · simp at hlast
    · rw [List.concat_eq_append, ← List.cons_append, ← List.append_assoc,
        List.getLast?_concat] at hlast
      rwa [List.concat_eq_append, List.getLast?_concat]

/-- The text before the `=` of a line, without the white space it begins with. -/
theorem dropWhile_key {before key space : Str} (hb : IsBlank before) (hk : IsPlain key)
    (hs : IsBlank space) : (before ++ (key ++ space)).dropWhile isWhite =
      if key = [] then [] else key ++ space := by
  rw [List.dropWhile_append_of_pos hb.isWhite]
  cases key with
  | nil => simpa using hs.isWhite
  | cons c key => simp [hk.1 c (.inl rfl)]

/-- The text after it, without the white space it ends with. -/
theorem rdropWhile_value {space value after : Str} (hs : IsBlank space) (hv : IsPlain value)
    (ha : IsBlank after) : (space ++ (value ++ after)).rdropWhile isWhite =
      if value = [] then [] else space ++ value := by
  rw [← List.append_assoc, rdropWhile_append_of_forall ha.isWhite]
  rcases List.eq_nil_or_concat value with rfl | ⟨v, c, rfl⟩
  · simpa [List.rdropWhile_eq_nil_iff] using hs.isWhite
  · have hc : isWhite c = false := hv.1 c (by simp)
    rw [List.concat_eq_append, ← List.append_assoc, List.rdropWhile_concat_neg _ _ _ (by simp [hc])]
    simp

theorem step_congr (h : stringTrim s = stringTrim l) : g.step s = g.step l := by
  unfold IniLog.step
  rw [h]

namespace IniLine

theorem step_blank {space : Str} (h : (blank space).Valid) : g.step (blank space).text = g := by
  rw [IniLog.step, text, stringTrim_of_forall (IsBlank.isWhite h)]
  rfl

theorem step_header {before name after : Str} (h : (header before name after).Valid)
    (hg : g.in_multiline_string = false) :
    g.step (header before name after).text = { g with section_ := name } := by
  have htrim : stringTrim (header before name after).text = '[' :: (name ++ [']']) := by
    rw [text, stringTrim_blanks h.1.isWhite h.2.2.isWhite]
    have hbrackets : '[' :: (name ++ [']']) = [] ++ '[' :: (name ++ [']']) := rfl
    rw [hbrackets, stringTrim_append rfl, List.rdropWhile_concat_neg _ _ _ (by decide)]
    rfl
  have hheader : isHeader ('[' :: (name ++ [']'])) = true := by
    rw [isHeader, ← List.cons_append, List.getLast?_concat]
    rfl
  rw [IniLog.step, htrim]
  dsimp only
  rw [if_neg (by simp), hg, if_neg (by simp), if_pos hheader]
  simp

theorem step_assignment {before key space space' value after : Str}
    (h : (assignment before key space space' value after).Valid)
    (hg : g.in_multiline_string = false) :
    g.step (assignment before key space space' value after).text =
      { g with assigned := ⟨g.section_, key, value⟩ :: g.assigned } := by
  obtain ⟨⟨hb, hs, hs', ha⟩, hk, hequals, hv, hheader⟩ := h
  have htext : (assignment before key space space' value after).text =
      (before ++ (key ++ space)) ++ '=' :: (space' ++ (value ++ after)) := by simp [text]
  have htrim := stringTrim_append (c := '=') rfl (before ++ (key ++ space))
    (space' ++ (value ++ after))
  have hkey : stringTrim ((before ++ (key ++ space)).dropWhile isWhite) = key := by
    rw [stringTrim_dropWhile, stringTrim_blanks hb.isWhite hs.isWhite, hk.stringTrim]
  have hvalue : stringTrim ((space' ++ (value ++ after)).rdropWhile isWhite) = value := by
    rw [stringTrim_rdropWhile (fun _ => id), stringTrim_blanks hs'.isWhite ha.isWhite,
      hv.stringTrim]
  have hparse : parseValue ((space' ++ (value ++ after)).rdropWhile isWhite) = (value, false) := by
    rw [parseValue_of_plain, hvalue]
    rw [hvalue]
    exact fun hc => (hv.2 _ hc).2.1 rfl
  rw [rdropWhile_value hs' hv ha] at htrim hparse
  rw [dropWhile_key hb hk hs] at htrim hkey
  rw [IniLog.step, htext, htrim]
  dsimp only
  rw [if_neg (by simp), hg, if_neg (by simp), if_neg, parseAssignment_append, hkey, hparse]
  -- No comment begins in the line, and its first `=` is the one after the key.
  · intro c hc
    split_ifs at hc
    · cases hc
    · rcases List.mem_append.mp hc with hc | hc
      · exact ⟨fun h => hequals (h ▸ hc), (hk.2 c hc).1⟩
      · exact ⟨fun h => hs.not_mem rfl (h ▸ hc), fun h => hs.not_mem rfl (h ▸ hc)⟩
  · intro hc
    split_ifs at hc
    · cases hc
    · rcases List.mem_append.mp hc with hc | hc
      · exact hs'.not_mem rfl hc
      · exact (hv.2 _ hc).1 rfl
  -- An empty key or value leaves the `=` at an end of the line.
  · intro hline
    obtain ⟨hhead, hlast⟩ := isHeader_append hline
    apply hheader
    constructor
    · split_ifs at hhead with hempty
      · cases hhead
      · obtain ⟨c, k, rfl⟩ := List.exists_cons_of_ne_nil hempty
        exact hhead
    · split_ifs at hlast with hempty
      · cases hlast
      · rwa [List.getLast?_append_of_ne_nil _ hempty] at hlast

theorem Valid.not_mem_text {l : IniLine} (h : l.Valid) : '\n' ∉ l.text := by
  have hblank : ∀ {s : Str}, IsBlank s → '\n' ∉ s := fun hs hc => (hs _ hc).2 rfl
  have hplain : ∀ {s : Str}, IsPlain s → '\n' ∉ s := fun hs hc => (hs.2 _ hc).2.2 rfl
  cases l with
  | blank space => exact hblank h
  | header before name after => simp [text, hblank h.1, h.2.1, hblank h.2.2]
  | assignment before key space space' value after =>
    obtain ⟨⟨hb, hs, hs', ha⟩, hk, -, hv, -⟩ := h
    simp [text, hblank hb, hblank hs, hblank hs', hblank ha, hplain hk, hplain hv]

/-- A line is logged as what it assigns. -/
theorem step_text {l : IniLine} (h : l.Valid) (hg : g.in_multiline_string = false) :
    (g.step l.text).in_multiline_string = false ∧
      ∀ ls, (assigned (g.step l.text).section_ ls).reverse ++ (g.step l.text).assigned =
        (assigned g.section_ (l :: ls)).reverse ++ g.assigned := by
  cases l with
  | blank space => simp [step_blank h, hg, assigned]
  | header before name after => simp [step_header h hg, hg, assigned]
  | assignment before key space space' value after => simp [step_assignment h hg, hg, assigned]

end IniLine

/-- The log of a text whose lines fit is what its lines assign. -/
theorem IniLog.foldl_text {ls : List IniLine} (hvalid : ∀ l ∈ ls, l.Valid)
    (hfits : ∀ l ∈ ls, l.Fits) (hg : g.in_multiline_string = false) :
    ((linesOf (['\n'].intercalate (ls.map IniLine.text))).foldl IniLog.step g).assigned =
      (IniLine.assigned g.section_ ls).reverse ++ g.assigned := by
  have hwhole : ∀ s ∈ ls.map IniLine.text, ReadWhole s := by
    intro s hs
    obtain ⟨l, hl, rfl⟩ := List.mem_map.mp hs
    obtain ⟨hlen, hnul⟩ := hfits l hl
    exact ⟨hlen.le, (hvalid l hl).not_mem_text, hnul⟩
  rw [foldl_linesOf_readWhole (f := IniLog.step) (fun _ _ _ hl => step_congr hl) (fun _ => rfl)
    hwhole]
  clear hwhole hfits
  induction ls generalizing g with
  | nil => rfl
  | cons l ls ih =>
    obtain ⟨hl, hvalid⟩ := List.forall_mem_cons.mp hvalid
    obtain ⟨hmulti, hassigned⟩ := IniLine.step_text hl hg
    rw [List.map_cons, List.foldl_cons, ih hvalid hmulti, hassigned]

end Lines

namespace IniText

variable {t : IniText} {section_ key : Str}

/-- All lines are read whole. -/
def Fits (t : IniText) : Prop := ∀ l ∈ t.lines, l.Fits

theorem ofLines_text (h : t.Fits) : IniLog.ofLines (linesOf t.text) = t.assigned := by
  have hlog := IniLog.foldl_text (g := {}) t.valid h rfl
  rwa [List.append_nil] at hlog

theorem getD_eq_iff {o o' : Option Str} : (∀ d, o.getD d = o'.getD d) ↔ o = o' := by
  constructor
  · intro h
    cases o with
    | none =>
      cases o' with
      | none => rfl
      | some s => simpa using congrArg List.length (h ('x' :: s))
    | some s =>
      cases o' with
      | none => simpa using congrArg List.length (h ('x' :: s))
      | some s' => simpa using h []
  · rintro rfl _
    rfl

theorem returns_iff_kept : t.Returns section_ key ↔ t.Kept section_ key := by
  have hvalue : ∀ d, (IniFile.ofFile (.opened t.text) [section_]).getStringValue key d =
      (((IniLog.ofLines (linesOf t.text)).find? (·.Spells (fullKey section_ key))).map
        (·.value)).getD d := by
    intro d
    have hget : (IniFile.ofFile (.opened t.text) [section_]).getValue key =
        (parseIniFile (.opened t.text) ∅).2.find? (fullKey section_ key) := by
      simp [IniFile.getValue, IniFile.ofFile]
    rw [IniFile.getStringValue, hget, find?_parse]
    cases Option.map _ _ <;> rfl
  simp only [Returns, hvalue]
  exact (and_iff_right rfl).trans getD_eq_iff

theorem kept_iff_unmixed (h : t.Fits) : t.Kept section_ key ↔ t.Unmixed section_ key := by
  rw [Kept, Unmixed, ofLines_text h]
  cases hfind : t.assigned.find? (·.Spells (fullKey section_ key)) with
  | none =>
    -- What is never spelled is never assigned.
    have hnone : t.value? section_ key = none := by
      simp only [value?, Option.map_eq_none_iff, List.find?_eq_none, decide_eq_true_eq] at hfind ⊢
      exact fun a ha hof => hfind a ha (IniAssignment.IsOf.spells hof)
    simp [hnone]
  | some a =>
    obtain ⟨hspells, l, r, hassigned, hbefore⟩ := List.find?_eq_some_iff_append.mp hfind
    have hof : a.IsOf section_ key → t.value? section_ key = some a.value := by
      intro hof
      have ha : t.assigned.find? (·.IsOf section_ key) = some a := by
        refine List.find?_eq_some_iff_append.mpr ⟨by simpa using hof, l, r, hassigned, ?_⟩
        intro b hb
        have hnot : ¬ b.Spells (fullKey section_ key) := by simpa using hbefore b hb
        simpa using fun h : b.IsOf section_ key => hnot (IniAssignment.IsOf.spells h)
      rw [value?, ha]
      rfl
    simp only [Option.map_some, Option.some.injEq, forall_eq']
    rw [or_iff_right_of_imp hof, eq_comm]

/-- Section names without dots are found back in the spellings. -/
theorem unmixed_of_dotless (hsection : '.' ∉ section_) (ht : ∀ a ∈ t.assigned, '.' ∉ a.section_) :
    t.Unmixed section_ key := by
  intro a ha
  have hfound : a.Spells (fullKey section_ key) := by simpa using List.find?_some ha
  have hspells : a.section_ ++ '.' :: a.key = section_ ++ '.' :: key := hfound
  have htake : ∀ {s : Str} (k : Str), '.' ∉ s → (s ++ '.' :: k).takeWhile (· ≠ '.') = s := by
    intro s k hs
    rw [List.takeWhile_append_of_pos fun c hc => by simpa using fun h : c = '.' => hs (h ▸ hc)]
    simp
  have hs : a.section_ = section_ := by
    rw [← htake a.key (ht a (List.mem_of_find?_eq_some ha)), hspells, htake key hsection]
  rw [hs] at hspells
  exact .inl ⟨hs, by simpa using hspells⟩

/-- **When the lookup finds the last value assigned to a pair**: exactly if the last line, as lines
are read, that assigns to the spelling of the pair assigns that value. In a text whose lines fit in
the buffer, this says that no other pair with the same spelling is assigned another value later. -/
theorem returns_iff (t : IniText) (section_ key : Str) :
    (t.Returns section_ key ↔ t.Kept section_ key) ∧
      (t.Fits → (t.Returns section_ key ↔ t.Unmixed section_ key)) :=
  ⟨returns_iff_kept, fun h => returns_iff_kept.trans (kept_iff_unmixed h)⟩

/-- `[a.b]` and `c=1`. -/
def dotted : IniText where
  lines := [.header [] ['a', '.', 'b'] [], .assignment [] ['c'] [] [] ['1'] []]
  valid := by simp [IniLine.Valid, IsBlank, IsPlain, isWhite]

/-- The value shows up under `b.c` in the section `a`. -/
theorem not_returns_dotted : ¬ dotted.Returns ['a'] ['b', '.', 'c'] := by
  rintro ⟨-, h⟩
  exact absurd (h []) (by decide)

theorem returns_iff_dotted :
    (dotted.Returns ['a', '.', 'b'] ['c'] ↔ dotted.Kept ['a', '.', 'b'] ['c']) ∧
      (dotted.Returns ['a', '.', 'b'] ['c'] ↔ dotted.Unmixed ['a', '.', 'b'] ['c']) :=
  have h := returns_iff dotted ['a', '.', 'b'] ['c']
  ⟨h.1, h.2 (by simp [Fits, IniLine.Fits, dotted, IniLine.text])⟩

end IniText

end WwivBasic
