import WwivBasic.Core.Parser.InOrder

/-!
# Roots and trees that are complete

`reduce` moves a node into a child only when it is a factor or an expression, and leaves the child
null when it is an operator or an error; a stack of nothing but one operator makes that operator
the root. Every gap of this kind comes from an operator too many or from a factor without a lexeme,
so that counting the tokens tells whether a tree has one.

## Main definitions

* `Expression.Complete`: a tree in which no child is null
* `OneFactorMore`: each factor has a lexeme, and there is one more of them than operators
* `parseLexer`: `Ast::parse(const Lexer&)`

## Main results

* `kept_gapless`: a stack without a gap has lost none of its tokens
* `complete_root_iff`: when a root that is no error is a complete tree
* `parseLexer_iff`: when the result of `parse` tells whether there was an error
-/

namespace WwivBasic.Parser

/-- No child is null. -/
def Expression.Complete : Expression → Prop
  | null => False
  | factor _ => True
  | binary left _ right => left.Complete ∧ right.Complete

/-- The token is an operator. -/
def Token.isOperator (t : Token) : Bool :=
  match t.kind with
  | .binary _ | .logical _ => true
  | _ => false

/-- Each factor has a lexeme, and there is one factor more than operators. -/
structure OneFactorMore (tokens : List Token) : Prop where
  lexeme_ne_nil : ∀ t ∈ tokens, t.kind = .factor → t.lexeme ≠ []
  count : tokens.countP Token.isFactor = tokens.countP Token.isOperator + 1

/-- A node is a tree in which no child is null. -/
def AstNode.IsComplete (n : AstNode) : Prop := ∃ e : Expression, n = .expression e ∧ e.Complete

/-! ## Gaps -/

section Gaps

variable {tokens done : List Token} {nodes nodes' inner outer : List AstNode} {n : AstNode}
  {t : Token} {x : Symbol} {errno : Bool}

theorem Expression.complete_iff (e : Expression) : e.Complete ↔ e.nulls = 0 := by
  induction e with
  | null => simp [Complete, nulls]
  | factor f => simp [Complete, nulls]
  | binary left op right ihl ihr => simp [Complete, nulls, ihl, ihr]

theorem countP_isSymbol (tokens : List Token) :
    tokens.countP Token.isSymbol =
      tokens.countP Token.isFactor + tokens.countP Token.isOperator := by
  induction tokens with
  | nil => rfl
  | cons t tokens ih =>
    have hone : (if t.isSymbol = true then 1 else 0) =
        (if t.isFactor = true then 1 else 0) + if t.isOperator = true then 1 else 0 := by
      unfold Token.isSymbol Token.isFactor Token.isOperator
      cases t.kind <;> rfl
    rw [List.countP_cons, List.countP_cons, List.countP_cons, ih, hone]
    omega

theorem length_symbols_le_weight (n : AstNode) : n.symbols.length ≤ n.weight := by
  cases n with
  | expression e => exact Nat.le_add_right _ _
  | binaryOperator | logicalOperator => exact le_rfl
  | error => exact Nat.zero_le _

theorem length_stackSymbols_le (nodes : List AstNode) :
    (stackSymbols nodes).length ≤ stackWeight nodes := by
  induction nodes with
  | nil => exact le_rfl
  | cons n nodes ih =>
    have hn := length_symbols_le_weight n
    simp only [stackWeight, stackSymbols, List.map_cons, List.sum_cons, List.length_append] at ih ⊢
    omega

/-- A stack that weighs as much as it has symbols has no gap, and then there is a symbol for every
token that stands for one. -/
def Gapless (done : List Token) (nodes : List AstNode) : Prop :=
  stackWeight nodes ≤ (stackSymbols nodes).length →
    (∀ t ∈ done, t.stops = true → t.kind = .rparen) ∧
      stackWeight nodes = done.countP Token.isSymbol

/-- The tokens that end an expression, apart from a closing parenthesis. -/
theorem stops_iff : t.stops = true ↔ t.kind = .rparen ∨ t.kind = .factor ∧ t.lexeme = [] := by
  simp [Token.stops]

theorem Gapless.shrink (h : Gapless done nodes) (hs : Shrinks nodes nodes') :
    Gapless done nodes' := by
  intro hle
  rw [hs.weight] at hle ⊢
  exact h (hle.trans hs.symbols.length_le)

theorem Gapless.skip (h : Gapless done nodes) (ht : t.isSymbol = false) :
    Gapless (done ++ [t]) nodes := by
  intro hle
  obtain ⟨hstops, hweight⟩ := h hle
  refine ⟨fun u hu hstop => ?_, by simpa [ht] using hweight⟩
  rcases List.mem_append.mp hu with hu | hu
  · exact hstops u hu hstop
  · obtain rfl := List.mem_singleton.mp hu
    rcases stops_iff.mp hstop with hk | ⟨hk, -⟩
    · exact hk
    · simp [Token.isSymbol, hk] at ht

theorem Gapless.push (h : Gapless done nodes) (hn : n.symbols = [x]) (hw : n.weight = 1)
    (hx : x.ReadsAt errno t) :
    Gapless (done ++ [t]) (n :: nodes) := by
  intro hle
  simp only [stackWeight, stackSymbols, List.map_cons, List.sum_cons, List.length_append, hn, hw,
    List.length_singleton] at hle
  obtain ⟨hstops, hweight⟩ := h (by simp only [stackWeight]; omega)
  constructor
  · intro u hu hstop
    rcases List.mem_append.mp hu with hu | hu
    · exact hstops u hu hstop
    · obtain rfl := List.mem_singleton.mp hu
      rw [hx.not_stops] at hstop
      cases hstop
  · simp only [stackWeight, List.map_cons, List.sum_cons, hw, List.countP_append,
      List.countP_singleton, hx.isSymbol, if_true] at hweight ⊢
    omega

/-- The node of an expression that is given up is a gap. -/
theorem Gapless.fail (message : Message) : Gapless done (.error message :: outer) := by
  intro hle
  have houter := length_stackSymbols_le outer
  simp only [stackWeight, stackSymbols, List.map_cons, List.sum_cons, List.length_append,
    AstNode.symbols, AstNode.weight, List.length_nil] at hle houter
  omega

theorem kept_gapless : Kept fun _ => Gapless where
  shrink := Gapless.shrink
  skip := Gapless.skip
  push h hn hw _ hx := h.push hn hw hx
  fail message _ _ _ := Gapless.fail message

/-- A tree is complete exactly when nothing is missing among its tokens. -/
theorem isComplete_iff {errno : Bool} (hn : parse errno tokens = .node n)
    (he : n.isError = false) : n.IsComplete ↔ OneFactorMore tokens := by
  have haccounts := accounts_parse hn he
  obtain ⟨-, hgapless⟩ := kept_gapless.parse (fun _ => ⟨by simp, rfl⟩) hn he
  have hsymbols := countP_isSymbol tokens
  have hweight : n.weight ≤ tokens.countP Token.isSymbol := by
    simpa [stackWeight] using haccounts.weight
  constructor
  · rintro ⟨e, rfl, hcomplete⟩
    have hnulls := e.complete_iff.mp hcomplete
    have hlength := e.length_symbols
    have hle : stackWeight [.expression e] ≤ (stackSymbols [.expression e]).length := by
      simp [stackWeight, stackSymbols, hnulls]
    obtain ⟨hstops, hexact⟩ := hgapless hle
    have hfactors := haccounts.factors hstops
    refine ⟨fun t ht hk hl => ?_, ?_⟩
    · have hparen := hstops t ht (stops_iff.mpr (.inr ⟨hk, hl⟩))
      rw [hk] at hparen
      cases hparen
    · simp only [stackWeight, stackSymbols, List.map_cons, List.map_nil, List.sum_cons,
        List.sum_nil, List.nil_append, AstNode.weight_expression,
        AstNode.symbols_expression] at hexact hfactors
      omega
  · intro hmore
    have hfactors := haccounts.factors fun t ht hstop => by
      rcases stops_iff.mp hstop with hk | ⟨hk, hl⟩
      · exact hk
      · exact absurd hl (hmore.lexeme_ne_nil t ht hk)
    have hcount := hmore.count
    simp only [stackSymbols, List.nil_append] at hfactors
    cases n with
    | expression e =>
      have hlength := e.length_symbols
      simp only [AstNode.weight_expression] at hweight
      simp only [AstNode.symbols_expression] at hfactors
      exact ⟨e, rfl, e.complete_iff.mpr (by omega)⟩
    | binaryOperator op | logicalOperator op =>
      simp only [AstNode.symbols, List.countP_singleton, Symbol.isFactor] at hfactors
      simp only [Bool.false_eq_true, if_false] at hfactors
      omega
    | error => cases he

end Gaps

/-! ## The root -/

/-- **A root that is no error is a complete tree** exactly when the tokens are not let through, or
each factor has a lexeme and there is one more of them than operators. -/
theorem complete_root_iff (errno : Bool) (tokens : List Token) :
    (∀ n, parse errno tokens = .node n → n.isError = false → n.IsComplete) ↔
      ((Recognizer.main .empty).accepts tokens = true → OneFactorMore tokens) := by
  rw [← isError_parse errno tokens]
  constructor
  · intro h herror
    obtain ⟨n, hparse, hn⟩ := RootNode.isError_eq_false_iff.mp herror
    exact (isComplete_iff hparse hn).mp (h n hparse hn)
  · intro h n hparse hn
    exact (isComplete_iff hparse hn).mpr (h (RootNode.isError_eq_false_iff.mpr ⟨n, hparse, hn⟩))

/-- `&&`. -/
def loneOperator : List Token := [⟨.logicalAnd, [], 0⟩]

/-- `a && && && b`. -/
def operatorAsOperand : List Token :=
  [⟨.identifier, ['a'], 0⟩, ⟨.logicalAnd, [], 2⟩, ⟨.logicalAnd, [], 5⟩, ⟨.logicalAnd, [], 8⟩,
    ⟨.identifier, ['b'], 11⟩]

/-- One operator is the root itself, and another is an operand that becomes null. -/
theorem not_complete_root :
    parse false loneOperator = .node (.logicalOperator .logicalAnd) ∧
    ¬ (AstNode.logicalOperator .logicalAnd).IsComplete ∧
    parse false operatorAsOperand = .node (.expression (.binary (.factor (.var ['a'])) .logicalAnd
      (.binary .null .logicalAnd (.factor (.var ['b']))))) := by
  refine ⟨by decide, ?_, by decide⟩
  rintro ⟨e, he, -⟩
  cases he

/-! ## The result of `parse` -/

/-- `Ast::parse(const Lexer&)`: what it returns, and `root_`, which `make_unique` never leaves
null. -/
def parseLexer (errno : Bool) (l : Lexer) : Bool × Option RootNode :=
  let root_ := some (parse errno l.tokens_)
  (root_.isSome, root_)

/-- `root()->ast_type() == AstType::AST_ERROR`. -/
def rootIsError (root_ : Option RootNode) : Bool := root_.any RootNode.isError

/-- **The result of `parse` says whether there was an error** exactly when there was none, since
it is always true. -/
theorem parseLexer_iff (errno : Bool) (l : Lexer) :
    ((parseLexer errno l).1 = true ↔ l.ok = true ∧ rootIsError (parseLexer errno l).2 = false) ↔
      l.ok = true ∧ (Recognizer.main .empty).accepts l.tokens_ = true := by
  have htrue : (parseLexer errno l).1 = true := rfl
  have hroot : rootIsError (parseLexer errno l).2 = false ↔
      (Recognizer.main .empty).accepts l.tokens_ = true := isError_parse errno l.tokens_
  rw [htrue, hroot]
  simp only [true_iff]

/-- `a &`, which the lexer does not accept, and `(`, which the parser does not. -/
theorem parseLexer_true :
    (∃ l, Lexer.ofSource ['a', ' ', '&'] = .ok l ∧ (parseLexer false l).1 = true ∧
      l.ok = false) ∧
    ∃ l, Lexer.ofSource ['('] = .ok l ∧ (parseLexer false l).1 = true ∧ l.ok = true ∧
      rootIsError (parseLexer false l).2 = true :=
  ⟨⟨_, rfl, rfl, by decide⟩, ⟨_, rfl, rfl, by decide, by decide⟩⟩

end WwivBasic.Parser
