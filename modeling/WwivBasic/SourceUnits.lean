import WwivBasic.BasicLexer
import WwivBasic.FunctionDef

/-!
# Source units and their errors

`SourceUnit` of `src/context.h` reads a text with two recognizers of ANTLR, a lexer and a parser.
Each reports its errors to the listeners registered on it, where ANTLR itself registers the
console. The unit replaces the listeners of its parser by its own, which keeps the errors, and
leaves those of its lexer alone: what the lexer reports goes to the console only, and
`Context::parseTree` does not hear of it.

What ANTLR does beyond the finding of tokens is an argument: the text of an error of the lexer, and
the tree and the errors that the generated parser makes of the tokens.

## Main definitions

* `Antlr`: the parser, and the errors of the lexer
* `SourceUnit`, `SourceUnit.make`: a source unit, and its constructor
* `SourceTable.addSource`, `SourceTable.parseTree`: the functions of `Context`
* `basicrunMain`: `main` of `src/basicrun.cpp`, from the text of the file on

## Main results

* `errors_make`: a source unit keeps the errors of its parser
* `parseTree_addSource_iff`: when a text with an error has no tree
-/

namespace WwivBasic

open BasicLexer MaximalMunch

/-- An error, as `syntaxError` receives it. -/
structure SyntaxError where
  line : ℕ
  charPositionInLine : ℕ
  msg : Str

/-- A listener for errors. -/
inductive ErrorListener
  /-- `ConsoleErrorListener`, which only prints. -/
  | console
  /-- `BasicParserErrorListener`. -/
  | parserError_

/-- What ANTLR makes of the dropped texts and of the tokens. -/
structure Antlr (τ : Type) where
  /-- The error for a text the lexer drops, which follows another text. -/
  tokenError : Str → Str → SyntaxError
  /-- `BasicParser::main()`: a tree, and the errors that were reported on the way to it. -/
  main : List (Rule × Str) → τ × List SyntaxError

/-! ## Recognizers -/

/-- The listeners with which a recognizer is constructed. -/
def defaultListeners : List ErrorListener := [.console]

/-- `removeErrorListeners()`. -/
def removeErrorListeners (_listeners : List ErrorListener) : List ErrorListener := []

/-- `addErrorListener(listener)`. -/
def addErrorListener (listeners : List ErrorListener) (listener : ErrorListener) :
    List ErrorListener :=
  listeners ++ [listener]

/-- `{}({}:{}) {}`, of the file, the position and the message. -/
def errorText (filename : Str) (e : SyntaxError) : Str :=
  filename ++ ['('] ++ Nat.toDigits 10 e.line ++ [':'] ++ Nat.toDigits 10 e.charPositionInLine ++
    [')', ' '] ++ e.msg

/-- `BasicParserErrorListener::syntaxError`. -/
def syntaxError (filename : Str) (errors : List Str) (e : SyntaxError) : List Str :=
  errors ++ [errorText filename e]

/-- An error is reported to the listeners of a recognizer, one after the other. -/
def report (filename : Str) (listeners : List ErrorListener) (errors : List Str)
    (e : SyntaxError) : List Str :=
  listeners.foldl (fun errors listener =>
    match listener with
    | .console => errors
    | .parserError_ => syntaxError filename errors e) errors

/-- The errors of the lexer, one for each piece that is no token. -/
def tokenErrors {τ : Type} (antlr : Antlr τ) (before : Str) :
    List (Piece Rule Char) → List SyntaxError
  | [] => []
  | p :: pieces =>
    (if p.rule = none then [antlr.tokenError before p.text] else []) ++
      tokenErrors antlr (before ++ p.text) pieces

/-! ## Source units -/

/-- `SourceUnit`. -/
structure SourceUnit (τ : Type) where
  filename_ : Str
  text_ : Str
  tree_ : τ
  errors : List Str

/-- `SourceUnit(filename, text)`. The parser calls the lexer for one token after another; here all
errors of the lexer are reported before those of the parser. -/
def SourceUnit.make {τ : Type} (antlr : Antlr τ) (filename text : Str) : SourceUnit τ :=
  let lexer_ := defaultListeners
  let parser_ := addErrorListener (removeErrorListeners defaultListeners) .parserError_
  let errors := (tokenErrors antlr [] (basicLexer.lex text)).foldl (report filename lexer_) []
  let main := antlr.main (defaultTokens text)
  { filename_ := filename
    text_ := text
    tree_ := main.1
    errors := main.2.foldl (report filename parser_) errors }

/-- `has_root_directory`. -/
def hasRootDirectory (path : Str) : Bool := path.head? = some '/'

/-- The elements of a path below its root: the names between its slashes, with an empty last one
after a slash at the end. -/
def relativeElements (path : Str) : List Str :=
  let names := path.splitOn '/'
  names.dropLast.filter (· ≠ []) ++ names.getLast?.toList

/-- `compare` of `std::filesystem::path`: a path without a root directory comes first, and then the
elements decide. -/
def comparePath : Str → Str → Ordering :=
  compareLex (compareOn hasRootDirectory) (compareOn relativeElements)

instance : Std.TransCmp comparePath := inferInstanceAs
  (Std.TransCmp (compareLex (compareOn hasRootDirectory) (compareOn relativeElements)))

/-- The source units of a `Context`, with its errors. -/
structure SourceTable (τ : Type) where
  sources : OrderedMap Str comparePath (SourceUnit τ)
  errors : List Str

namespace SourceTable

variable {τ : Type}

/-- `Context::add_source(path, text)`. -/
def addSource (ec : SourceTable τ) (antlr : Antlr τ) (path text : Str) : SourceTable τ × Bool :=
  let su := SourceUnit.make antlr path text
  ({ sources := ec.sources.insertOrAssign path su
     errors := if su.errors ≠ [] then ec.errors ++ su.errors else ec.errors }, true)

/-- `Unable to open file: `, before the path. -/
def unableToOpenText : Str := "Unable to open file: ".toList

/-- `Context::add_source(path)`, with what the file holds when it can be opened. -/
def addSourceFile (ec : SourceTable τ) (antlr : Antlr τ) (path : Str) :
    Option Str → SourceTable τ × Bool
  | none => ({ ec with errors := ec.errors ++ [unableToOpenText ++ path] }, false)
  | some text => ec.addSource antlr path text

/-- `Context::parseTree`. -/
def parseTree (ec : SourceTable τ) (filename : Str) : Option τ :=
  match ec.sources.find? filename with
  | none => none
  | some su => if su.errors ≠ [] then none else some su.tree_

end SourceTable

/-- `main` of `src/basicrun.cpp`: without a tree nothing is executed. -/
def basicrunMain (antlr : Antlr (List Item)) (n : ℕ) (host : Context → Context)
    (tags : ℕ → ValueType) (filename : Str) (file : Option Str) :
    Option (EStateM.Result Fault Machine Unit) :=
  let ec := (SourceTable.addSourceFile ⟨∅, []⟩ antlr filename file).1
  (ec.parseTree filename).map (basicrun n host Context.init tags)

/-! ## Which errors are kept -/

section Errors

variable {τ : Type} (antlr : Antlr τ) (filename path text : Str)

/-- The console keeps no error. -/
theorem foldl_report_defaultListeners (es : List SyntaxError) (errors : List Str) :
    es.foldl (report filename defaultListeners) errors = errors := by
  induction es with
  | nil => rfl
  | cons e es ih => exact ih

/-- The listener of the unit keeps every error. -/
theorem foldl_report_parserError (es : List SyntaxError) (errors : List Str) :
    es.foldl (report filename [.parserError_]) errors = errors ++ es.map (errorText filename) := by
  induction es generalizing errors with
  | nil =>
    rw [List.map_nil, List.append_nil]
    rfl
  | cons e es ih =>
    change es.foldl (report filename [.parserError_]) (errors ++ [errorText filename e]) = _
    rw [ih, List.append_assoc, List.map_cons, List.singleton_append]

/-- A source unit keeps the errors of its parser, and no other. -/
theorem errors_make : (SourceUnit.make antlr filename text).errors =
    (antlr.main (defaultTokens text)).2.map (errorText filename) := by
  change List.foldl (report filename [.parserError_]) (List.foldl _ [] _) _ = _
  rw [foldl_report_defaultListeners, foldl_report_parserError, List.nil_append]

theorem comparePath_self (path : Str) : comparePath path path = .eq :=
  Std.ReflCmp.compare_self

/-- After `add_source` a path has a tree exactly when the parser has reported no error. -/
theorem parseTree_addSource (ec : SourceTable τ) :
    (ec.addSource antlr path text).1.parseTree path =
      if (antlr.main (defaultTokens text)).2 = [] then some (antlr.main (defaultTokens text)).1
      else none := by
  simp only [SourceTable.addSource, SourceTable.parseTree, OrderedMap.find?_insertOrAssign,
    comparePath_self, if_true, errors_make, ne_eq, List.map_eq_nil_iff, ite_not]
  rfl

/-- Some of the text is no token, and is dropped. -/
def HasLexicalError : Prop := ∃ p ∈ basicLexer.lex text, p.rule = none

/-- The parser reports an error for the tokens of the text. -/
def HasSyntaxError : Prop := (antlr.main (defaultTokens text)).2 ≠ []

/-- **A text with an error has no tree** exactly when nothing of it was dropped, or the parser
reports an error for the tokens that are left. -/
theorem parseTree_addSource_iff (ec : SourceTable τ) :
    (HasLexicalError text ∨ HasSyntaxError antlr text →
      (ec.addSource antlr path text).1.parseTree path = none) ↔
    ¬ HasLexicalError text ∨ HasSyntaxError antlr text := by
  have hnone : (ec.addSource antlr path text).1.parseTree path = none ↔
      HasSyntaxError antlr text := by
    rw [parseTree_addSource, HasSyntaxError]
    split_ifs with h <;> simp [h]
  rw [hnone]
  constructor
  · intro h
    by_cases hlex : HasLexicalError text
    · exact .inr (h (.inl hlex))
    · exact .inl hlex
  · rintro (hlex | hsyntax) herror
    · exact herror.resolve_left hlex
    · exact hsyntax

end Errors

/-- A file is executed exactly when the parser has reported no error. -/
theorem basicrunMain_eq_none_iff (antlr : Antlr (List Item)) (n : ℕ) (host : Context → Context)
    (tags : ℕ → ValueType) (filename text : Str) :
    basicrunMain antlr n host tags filename (some text) = none ↔ HasSyntaxError antlr text := by
  change ((SourceTable.addSource ⟨∅, []⟩ antlr filename text).1.parseTree filename).map _ = _ ↔ _
  rw [Option.map_eq_none_iff, parseTree_addSource, HasSyntaxError]
  split_ifs with h <;> simp [h]

/-- `x=#1` and a line break. -/
def straySign : Str := ['x', '=', '#', '1', '\n']

/-- A parser that reads the tokens of `x=1` as that assignment, and reports all others. -/
def assignmentParser : Antlr (List Item) where
  tokenError before t :=
    ⟨1, before.length, "token recognition error at: '".toList ++ t ++ ['\'']⟩
  main tokens :=
    if tokens = [(.ID, ['x']), (.EQ, ['=']), (.INT, ['1']), (.NEWLINE, ['\n'])] then
      ([.statement (.assignExpr ['x'] (.int ['1']))], [])
    else ([], [⟨1, 0, "mismatched input".toList⟩])

/-- The sign is dropped, and `x=1` is executed. -/
theorem straySign_executed :
    HasLexicalError straySign ∧
    (SourceTable.addSource ⟨∅, []⟩ assignmentParser ['a'] straySign).1.parseTree ['a'] =
      some [.statement (.assignExpr ['x'] (.int ['1']))] ∧
    basicrunMain assignmentParser 2 id (fun _ => .invalid) ['a'] (some straySign) ≠ none := by
  have htokens : defaultTokens straySign =
      [(.ID, ['x']), (.EQ, ['=']), (.INT, ['1']), (.NEWLINE, ['\n'])] := by
    decide
  have hmain : assignmentParser.main (defaultTokens straySign) =
      ([.statement (.assignExpr ['x'] (.int ['1']))], []) := by
    rw [htokens]
    rfl
  refine ⟨⟨⟨none, ['#']⟩, by decide, rfl⟩, ?_, ?_⟩
  · rw [parseTree_addSource, hmain]
    rfl
  · rw [Ne, basicrunMain_eq_none_iff, HasSyntaxError, hmain]
    exact fun h => h rfl

end WwivBasic
