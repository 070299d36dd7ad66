import WwivBasic.Core.Parser.Lexer
import WwivBasic.Foundations.RunLogic

/-!
# The syntax trees of conditions

`core/parser/ast.h` and `core/parser/ast.cpp`. A stack is listed from its top. The iterator that
the three parsing functions share is the list of the tokens from it on. The `errno` that
`to_number` reads and writes is passed along; `true` stands for `ERANGE`. The counter behind
`Expression::id` is left out, and a message of an `ErrorNode` or a `parse_error` is kept as what
it is made of.

## Main definitions

* `Operator`, `Factor`, `Expression`, `AstNode`, `RootNode`: the nodes
* `needReduce`, `reduce`, `flatten`: the operations on a stack
* `parseExpression`, `parseGroup`, `parseLoop`, `parse`: the parser

## Main results

* `suffix_parseExpression`: a call leaves a suffix of its tokens
* `parseLoop_eq_of_le`: the loop of `parse` ends within one iteration for each token
-/

namespace WwivBasic.Parser

/-- `Operator`. The value `UNKNOWN`, from which `reduce` starts, is never kept. -/
inductive Operator
  | add | sub | mul | div | gt | ge | lt | le | eq | ne | logicalOr | logicalAnd
  deriving DecidableEq

/-- `Factor`, by its subclasses `Number`, `String` and `Variable`. -/
inductive Factor
  | number (val : Int32)
  | string (sval : Str)
  | var (sval : Str)
  deriving DecidableEq

/-- `Expression*`: null, a `Factor`, or an expression of its own. -/
inductive Expression
  | null
  | factor (f : Factor)
  | binary (left : Expression) (op : Operator) (right : Expression)
  deriving DecidableEq

/-- The messages of the `ErrorNode`s that are made while parsing goes on. -/
inductive Message
  /-- `Unable to parse expression starting at:` a lexeme. -/
  | startingAt (lexeme : Str)
  /-- `Unable to parse expression starting at:` a token. -/
  | startingAtToken (t : Token)
  /-- `Missing right parens at:` a lexeme, or `end`. -/
  | missingRightParens (pos : Str)
  deriving DecidableEq

/-- The nodes that stand on a stack. -/
inductive AstNode
  /-- A `Factor` or an `Expression`, of the types `FACTOR` and `EXPR`. -/
  | expression (e : Expression)
  /-- `BinaryOperatorNode`, of the type `BINOP`. -/
  | binaryOperator (oper : Operator)
  /-- `LogicalOperatorNode`, of the type `LOGICAL_OP`. -/
  | logicalOperator (oper : Operator)
  /-- `ErrorNode`, of the type `AST_ERROR`. -/
  | error (message : Message)
  deriving DecidableEq

/-- `parse_error`, by the places that throw it. -/
inductive ParseError
  /-- `Assignment operators are not allowed.` -/
  | assignment
  /-- `Unexpected token found trying to create logical operator:` -/
  | unexpectedToken (t : Token)
  /-- `[CNTREDUCE3] Invalid expression provided:`, with the nodes of the stack. -/
  | cannotReduce (understood : List AstNode)
  /-- `Expected BINOP at:` a node. -/
  | expectedBinop (n : AstNode)
  /-- `The Stack size should be one at the root, we have:` a size. -/
  | stackSize (size : ℕ)
  deriving DecidableEq

/-- `RootNode`. -/
inductive RootNode
  | node (n : AstNode)
  /-- An `ErrorNode` with the text of a caught `parse_error`. -/
  | thrown (e : ParseError)
  deriving DecidableEq

/-- The node below the root has the type `AST_ERROR`. -/
def RootNode.isError : RootNode → Bool
  | .node (.error _) | .thrown _ => true
  | .node _ => false

/-- `createFactor`, with the `errno` it leaves behind. -/
def createFactor (errno : Bool) (t : Token) : Factor × Bool :=
  if t.type = .string ∨ t.type = .character then (.string t.lexeme, errno)
  else if t.lexeme.head?.any Char.isDigit then
    let result := toNumber intMin intMax t.lexeme errno
    (.number (.ofInt result.1), result.2)
  else (.var t.lexeme, errno)

/-- `createLogicalOperator`. -/
def createLogicalOperator (t : Token) : Except ParseError AstNode :=
  match t.type with
  | .logicalOr => .ok (.logicalOperator .logicalOr)
  | .logicalAnd => .ok (.logicalOperator .logicalAnd)
  | _ => .error (.unexpectedToken t)

/-- `createBinaryOperator`. -/
def createBinaryOperator (t : Token) : Except ParseError AstNode :=
  match t.type with
  | .add => .ok (.binaryOperator .add)
  | .assign => .error .assignment
  | .div => .ok (.binaryOperator .div)
  | .eq => .ok (.binaryOperator .eq)
  | .ge => .ok (.binaryOperator .ge)
  | .gt => .ok (.binaryOperator .gt)
  | .le => .ok (.binaryOperator .le)
  | .lt => .ok (.binaryOperator .lt)
  | .mul => .ok (.binaryOperator .mul)
  | .ne => .ok (.binaryOperator .ne)
  | .sub => .ok (.binaryOperator .sub)
  | _ => .error (.unexpectedToken t)

/-! ## The stack -/

namespace AstNode

/-- The operator of an `OperatorNode`. -/
def oper? : AstNode → Option Operator
  | binaryOperator oper | logicalOperator oper => some oper
  | _ => none

/-- The child that `reduce` makes of a node: null, unless the node is a factor or an expression. -/
def child : AstNode → Expression
  | expression e => e
  | _ => .null

end AstNode

/-- The node that `reduce` makes of the three it pops. -/
def combine (left op right : AstNode) : Except ParseError AstNode :=
  match op.oper? with
  | some oper => .ok (.expression (.binary left.child oper right.child))
  | none => .error (.expectedBinop op)

/-- `reduce`. -/
def reduce : List AstNode → Except ParseError (List AstNode)
  | right :: op :: left :: stack => do return (← combine left op right) :: stack
  | stack => .error (.cannotReduce stack)

/-- `need_reduce`. -/
def needReduce (stack : List AstNode) (allowLogical : Bool) : Bool :=
  match stack with
  | .binaryOperator _ :: _ => true
  | .logicalOperator _ :: _ => allowLogical
  | _ => false

/-- `while (stack.size() > 1) reduce(stack);` on a stack with the given top. -/
def flattenTop (top : AstNode) : List AstNode → Except ParseError AstNode
  | [] => .ok top
  | [n] => .error (.cannotReduce [top, n])
  | op :: left :: stack => do flattenTop (← combine left op top) stack

/-- The end of `parseExpression`: the stack is reduced to one node, which is returned. -/
def flatten : List AstNode → Except ParseError AstNode
  | [] => .error (.stackSize 0)
  | top :: stack => flattenTop top stack

/-! ## The parser -/

/-- `parseExpression`, with the stack so far. The result is the node, the iterator and `errno`. -/
def parseExpression (errno : Bool) (stack : List AstNode) :
    List Token → Except ParseError (AstNode × List Token × Bool)
  | [] => do return (← flatten stack, [], errno)
  | t :: ts =>
    match t.type with
    -- A closing parenthesis is left to the caller.
    | .rparen => do return (← flatten stack, t :: ts, errno)
    | .comment => parseExpression errno stack ts
    | .string | .character | .number | .identifier =>
      if t.lexeme = [] then .ok (.error (.startingAt t.lexeme), t :: ts, errno)
      else
        let factor := createFactor errno t
        let stack' := .expression (.factor factor.1) :: stack
        if needReduce stack false then do parseExpression factor.2 (← reduce stack') ts
        else parseExpression factor.2 stack' ts
    | .add | .assign | .div | .eq | .ge | .gt | .le | .lt | .mul | .ne | .sub => do
      parseExpression errno ((← createBinaryOperator t) :: stack) ts
    | .logicalOr | .logicalAnd => do
      parseExpression errno ((← createLogicalOperator t) :: stack) ts
    -- Unexpected tokens, an opening parenthesis among them, are ignored.
    | .lparen | .negate | .semicolon | .eof | .error => parseExpression errno stack ts

/-- What `parseGroup` makes of its expression: an `ErrorNode`, unless the iterator is at a closing
parenthesis. -/
def closeGroup : AstNode × List Token × Bool → AstNode × List Token × Bool
  | (_, [], errno) => (.error (.missingRightParens "end".toList), [], errno)
  | (expr, t :: it, errno) =>
    if t.type = .rparen then (expr, t :: it, errno)
    else (.error (.missingRightParens t.lexeme), t :: it, errno)

/-- `parseGroup`, at the opening parenthesis `t`. Its loop ends after one expression, whose
iterator is at a closing parenthesis or leads to an error. -/
def parseGroup (errno : Bool) (t : Token) :
    List Token → Except ParseError (AstNode × List Token × Bool)
  | [] => .ok (.error (.startingAt t.lexeme), [t], errno)
  | t' :: ts =>
    -- Nothing stands between the parentheses, and the stack of the group is empty.
    if t'.type = .rparen then .error (.stackSize 0)
    else (parseExpression errno [] (t' :: ts)).map closeGroup

/-- The loop of `parse`, for at most `n` iterations. -/
def parseLoop : ℕ → Bool → List AstNode → List Token → Except ParseError RootNode
  | _, _, [n], [] => .ok (.node n)
  | _, _, stack, [] => .error (.stackSize stack.length)
  | 0, _, stack, _ :: _ => .error (.stackSize stack.length)
  | n + 1, errno, stack, t :: ts =>
    match t.type with
    | .lparen => do
      let (expr, it, errno) ← parseGroup errno t ts
      match it with
      | [] => return .node (.error (.startingAtToken t))
      | _ :: it => parseLoop n errno (expr :: stack) it
    | .logicalAnd | .logicalOr => do
      parseLoop n errno ((← createLogicalOperator t) :: stack) ts
    | _ => do
      let (expr, it, errno) ← parseExpression errno [] (t :: ts)
      if needReduce stack true then do parseLoop n errno (← reduce (expr :: stack)) it.tail
      else parseLoop n errno (expr :: stack) it.tail

/-- `parse` of a vector of tokens. A `parse_error` is caught. -/
def parse (errno : Bool) (tokens : List Token) : RootNode :=
  match parseLoop tokens.length errno [] tokens with
  | .ok root => root
  | .error e => .thrown e

/-! ## Tokens by what the parser does with them -/

/-- What the parser does with a token. -/
inductive Kind
  | factor
  | binary (op : Operator)
  | logical (op : Operator)
  /-- An assignment operator, which is an error. -/
  | assign
  | comment
  | lparen
  | rparen
  /-- A token that `parseExpression` ignores. -/
  | unexpected
  deriving DecidableEq

/-- The kind of the tokens of a type. -/
def TokenType.kind : TokenType → Kind
  | .string | .character | .number | .identifier => .factor
  | .add => .binary .add
  | .sub => .binary .sub
  | .mul => .binary .mul
  | .div => .binary .div
  | .gt => .binary .gt
  | .ge => .binary .ge
  | .lt => .binary .lt
  | .le => .binary .le
  | .eq => .binary .eq
  | .ne => .binary .ne
  | .logicalOr => .logical .logicalOr
  | .logicalAnd => .logical .logicalAnd
  | .assign => .assign
  | .comment => .comment
  | .lparen => .lparen
  | .rparen => .rparen
  | .negate | .semicolon | .eof | .error => .unexpected

/-- The kind of a token. -/
def Token.kind (t : Token) : Kind := t.type.kind

section Kinds

variable {errno : Bool} {stack : List AstNode} {t : Token} {ts : List Token} {op : Operator}

theorem parseExpression_nil :
    parseExpression errno stack [] = (flatten stack).map fun n => (n, [], errno) := by
  show (do return (← flatten stack, [], errno)) = _
  cases flatten stack <;> rfl

/-- An iteration of `parseExpression`, by the kind of the token. -/
theorem parseExpression_of_kind :
    parseExpression errno stack (t :: ts) =
      match t.kind with
      | .rparen => (flatten stack).map fun n => (n, t :: ts, errno)
      | .comment | .unexpected | .lparen => parseExpression errno stack ts
      | .assign => .error .assignment
      | .binary op => parseExpression errno (.binaryOperator op :: stack) ts
      | .logical op => parseExpression errno (.logicalOperator op :: stack) ts
      | .factor =>
        if t.lexeme = [] then .ok (.error (.startingAt t.lexeme), t :: ts, errno)
        else
          (if needReduce stack false then
            reduce (.expression (.factor (createFactor errno t).1) :: stack)
          else .ok (.expression (.factor (createFactor errno t).1) :: stack)) >>= fun s =>
            parseExpression (createFactor errno t).2 s ts := by
  obtain ⟨type, lexeme, pos⟩ := t
  rw [parseExpression]
  cases type with
  | rparen => cases flatten stack <;> rfl
  | string | character | number | identifier =>
    dsimp only [Token.kind, TokenType.kind]
    split_ifs <;> rfl
  | _ => rfl

theorem parseExpression_rparen (h : t.kind = .rparen) :
    parseExpression errno stack (t :: ts) =
      (flatten stack).map fun n => (n, t :: ts, errno) := by
  rw [parseExpression_of_kind, h]

/-- Comments, unexpected tokens and opening parentheses are skipped. -/
theorem parseExpression_skip (h : t.kind = .comment ∨ t.kind = .unexpected ∨ t.kind = .lparen) :
    parseExpression errno stack (t :: ts) = parseExpression errno stack ts := by
  rw [parseExpression_of_kind]
  rcases h with h | h | h <;> rw [h]

theorem parseExpression_assign (h : t.kind = .assign) :
    parseExpression errno stack (t :: ts) = .error .assignment := by
  rw [parseExpression_of_kind, h]

theorem parseExpression_binary (h : t.kind = .binary op) :
    parseExpression errno stack (t :: ts) =
      parseExpression errno (.binaryOperator op :: stack) ts := by
  rw [parseExpression_of_kind, h]

theorem parseExpression_logical (h : t.kind = .logical op) :
    parseExpression errno stack (t :: ts) =
      parseExpression errno (.logicalOperator op :: stack) ts := by
  rw [parseExpression_of_kind, h]

/-- A factor token without a lexeme ends the expression with an `ErrorNode`. -/
theorem parseExpression_empty (h : t.kind = .factor) (hl : t.lexeme = []) :
    parseExpression errno stack (t :: ts) = .ok (.error (.startingAt []), t :: ts, errno) := by
  rw [parseExpression_of_kind, h]
  dsimp only
  rw [if_pos hl, hl]

/-- A factor is pushed, and completes a binary operator that waits for it. -/
theorem parseExpression_factor (h : t.kind = .factor) (hl : t.lexeme ≠ []) :
    parseExpression errno stack (t :: ts) =
      (if needReduce stack false then
        reduce (.expression (.factor (createFactor errno t).1) :: stack)
      else .ok (.expression (.factor (createFactor errno t).1) :: stack)) >>= fun s =>
        parseExpression (createFactor errno t).2 s ts := by
  rw [parseExpression_of_kind, h]
  dsimp only
  rw [if_neg hl]

theorem parseExpression_push (h : t.kind = .factor) (hl : t.lexeme ≠ [])
    (hs : needReduce stack false = false) :
    parseExpression errno stack (t :: ts) = parseExpression (createFactor errno t).2
      (.expression (.factor (createFactor errno t).1) :: stack) ts := by
  rw [parseExpression_factor h hl, if_neg (by simp [hs])]
  rfl

theorem parseExpression_complete {left : AstNode} (h : t.kind = .factor) (hl : t.lexeme ≠ []) :
    parseExpression errno (.binaryOperator op :: left :: stack) (t :: ts) =
      parseExpression (createFactor errno t).2
        (.expression (.binary left.child op (.factor (createFactor errno t).1)) :: stack) ts := by
  rw [parseExpression_factor h hl]
  rfl

/-- An iteration of the loop of `parse`, by the kind of the token. -/
theorem parseLoop_of_kind {n : ℕ} :
    parseLoop (n + 1) errno stack (t :: ts) =
      match t.kind with
      | .logical op => parseLoop n errno (.logicalOperator op :: stack) ts
      | .lparen => (do
        let r ← parseGroup errno t ts
        match r.2.1 with
        | [] => return .node (.error (.startingAtToken t))
        | _ :: it => parseLoop n r.2.2 (r.1 :: stack) it)
      | _ => (do
        let r ← parseExpression errno [] (t :: ts)
        if needReduce stack true then do parseLoop n r.2.2 (← reduce (r.1 :: stack)) r.2.1.tail
        else parseLoop n r.2.2 (r.1 :: stack) r.2.1.tail) := by
  obtain ⟨type, lexeme, pos⟩ := t
  rw [parseLoop]
  cases type <;> rfl

theorem parseLoop_logical {n : ℕ} (h : t.kind = .logical op) :
    parseLoop (n + 1) errno stack (t :: ts) =
      parseLoop n errno (.logicalOperator op :: stack) ts := by
  rw [parseLoop_of_kind, h]

theorem parseLoop_lparen {n : ℕ} (h : t.kind = .lparen) :
    parseLoop (n + 1) errno stack (t :: ts) = (do
      let r ← parseGroup errno t ts
      match r.2.1 with
      | [] => return .node (.error (.startingAtToken t))
      | _ :: it => parseLoop n r.2.2 (r.1 :: stack) it) := by
  rw [parseLoop_of_kind, h]

theorem parseLoop_expression {n : ℕ} (h : t.kind ≠ .lparen) (h' : ∀ op, t.kind ≠ .logical op) :
    parseLoop (n + 1) errno stack (t :: ts) = (do
      let r ← parseExpression errno [] (t :: ts)
      if needReduce stack true then do parseLoop n r.2.2 (← reduce (r.1 :: stack)) r.2.1.tail
      else parseLoop n r.2.2 (r.1 :: stack) r.2.1.tail) := by
  rw [parseLoop_of_kind]
  cases hk : t.kind with
  | lparen => exact absurd hk h
  | logical op => exact absurd hk (h' op)
  | _ => rfl

end Kinds

/-! ## Iterators -/

/-- A call leaves a suffix of its tokens. -/
theorem suffix_parseExpression {errno : Bool} {stack : List AstNode} {ts : List Token}
    {r : AstNode × List Token × Bool} (h : parseExpression errno stack ts = .ok r) :
    r.2.1 <:+ ts := by
  induction ts generalizing errno stack with
  | nil =>
    rw [parseExpression_nil] at h
    obtain ⟨n, -, rfl⟩ := Except.map_eq_ok.mp h
    exact List.suffix_rfl
  | cons t ts ih =>
    cases hk : t.kind with
    | rparen =>
      rw [parseExpression_rparen hk] at h
      obtain ⟨n, -, rfl⟩ := Except.map_eq_ok.mp h
      exact List.suffix_rfl
    | assign =>
      rw [parseExpression_assign hk] at h
      cases h
    | comment | unexpected | lparen =>
      rw [parseExpression_skip (by simp [hk])] at h
      exact (ih h).trans (List.suffix_cons t ts)
    | binary op =>
      rw [parseExpression_binary hk] at h
      exact (ih h).trans (List.suffix_cons t ts)
    | logical op =>
      rw [parseExpression_logical hk] at h
      exact (ih h).trans (List.suffix_cons t ts)
    | factor =>
      by_cases hl : t.lexeme = []
      · rw [parseExpression_empty hk hl] at h
        cases h
        exact List.suffix_rfl
      · rw [parseExpression_factor hk hl] at h
        obtain ⟨s, -, h⟩ := Except.bind_eq_ok.mp h
        exact (ih h).trans (List.suffix_cons t ts)

/-- In `parse`, where the next token is skipped, fewer tokens are left than before. -/
theorem length_tail_parseExpression {errno : Bool} {stack : List AstNode} {t : Token}
    {ts : List Token} {r : AstNode × List Token × Bool}
    (h : parseExpression errno stack (t :: ts) = .ok r) : r.2.1.tail.length ≤ ts.length := by
  simpa using Nat.sub_le_sub_right (suffix_parseExpression h).length_le 1

@[simp] theorem closeGroup_snd (r : AstNode × List Token × Bool) : (closeGroup r).2 = r.2 := by
  obtain ⟨n, - | ⟨t, it⟩, errno⟩ := r
  · rfl
  · rw [closeGroup]
    split_ifs <;> rfl

theorem suffix_parseGroup {errno : Bool} {t : Token} {ts : List Token}
    {r : AstNode × List Token × Bool} (h : parseGroup errno t ts = .ok r) : r.2.1 <:+ t :: ts := by
  rcases ts with - | ⟨t', ts⟩
  · cases h
    exact List.suffix_rfl
  · rw [parseGroup] at h
    split_ifs at h
    obtain ⟨r, hr, rfl⟩ := Except.map_eq_ok.mp h
    rw [closeGroup_snd]
    exact (suffix_parseExpression hr).trans (List.suffix_cons t _)

theorem length_parseGroup {errno : Bool} {t : Token} {ts : List Token}
    {r : AstNode × List Token × Bool} (h : parseGroup errno t ts = .ok r) :
    r.2.1.length ≤ ts.length + 1 :=
  (suffix_parseGroup h).length_le

/-- The loop ends within one iteration for each token: more of them change nothing. -/
theorem parseLoop_eq_of_le {n m : ℕ} {errno : Bool} {stack : List AstNode} {ts : List Token}
    (hn : ts.length ≤ n) (hm : ts.length ≤ m) :
    parseLoop n errno stack ts = parseLoop m errno stack ts := by
  induction n generalizing m errno stack ts with
  | zero =>
    obtain rfl := List.length_eq_zero_iff.mp (Nat.le_zero.mp hn)
    rcases stack with - | ⟨x, - | ⟨y, stack⟩⟩ <;> simp [parseLoop]
  | succ n ih =>
    rcases ts with - | ⟨t, ts⟩
    · rcases stack with - | ⟨x, - | ⟨y, stack⟩⟩ <;> simp [parseLoop]
    obtain ⟨m, rfl⟩ : ∃ k, m = k + 1 := ⟨m - 1, by simp at hm; omega⟩
    simp only [List.length_cons, Nat.add_le_add_iff_right] at hn hm
    by_cases hl : t.kind = .lparen
    · rw [parseLoop_lparen hl, parseLoop_lparen hl]
      cases hr : parseGroup errno t ts with
      | error e => rfl
      | ok r =>
        have hlen := length_parseGroup hr
        obtain ⟨n', - | ⟨t', it⟩, e⟩ := r
        · rfl
        · simp only [List.length_cons, Nat.add_le_add_iff_right] at hlen
          exact ih (Nat.le_trans hlen hn) (Nat.le_trans hlen hm)
    by_cases hop : ∃ op, t.kind = .logical op
    · obtain ⟨op, hop⟩ := hop
      rw [parseLoop_logical hop, parseLoop_logical hop]
      exact ih hn hm
    · have hop' := not_exists.mp hop
      rw [parseLoop_expression hl hop', parseLoop_expression hl hop']
      cases hr : parseExpression errno [] (t :: ts) with
      | error e => rfl
      | ok r =>
        have hlen := length_tail_parseExpression hr
        have hrest : ∀ s, parseLoop n r.2.2 s r.2.1.tail = parseLoop m r.2.2 s r.2.1.tail :=
          fun s => ih (Nat.le_trans hlen hn) (Nat.le_trans hlen hm)
        show (if _ then _ else _) = (if _ then _ else _)
        simp only [hrest]

/-- The loop of `parse`, for as many iterations as it needs. -/
def parseFrom (errno : Bool) (stack : List AstNode) (ts : List Token) :
    Except ParseError RootNode :=
  parseLoop ts.length errno stack ts

section ParseFrom

variable {errno : Bool} {stack : List AstNode} {t : Token} {ts : List Token} {op : Operator}

theorem parse_eq (tokens : List Token) : parse errno tokens =
    match parseFrom errno [] tokens with
    | .ok root => root
    | .error e => .thrown e := rfl

theorem parseFrom_logical (h : t.kind = .logical op) :
    parseFrom errno stack (t :: ts) = parseFrom errno (.logicalOperator op :: stack) ts := by
  rw [parseFrom, List.length_cons, parseLoop_logical h, parseFrom]

theorem parseFrom_lparen (h : t.kind = .lparen) :
    parseFrom errno stack (t :: ts) = (do
      let r ← parseGroup errno t ts
      match r.2.1 with
      | [] => return .node (.error (.startingAtToken t))
      | _ :: it => parseFrom r.2.2 (r.1 :: stack) it) := by
  rw [parseFrom, List.length_cons, parseLoop_lparen h]
  cases hr : parseGroup errno t ts with
  | error e => rfl
  | ok r =>
    have hlen := length_parseGroup hr
    obtain ⟨n, - | ⟨t', it⟩, e⟩ := r
    · rfl
    · exact parseLoop_eq_of_le (by simpa using hlen) le_rfl

theorem parseFrom_expression (h : t.kind ≠ .lparen) (h' : ∀ op, t.kind ≠ .logical op) :
    parseFrom errno stack (t :: ts) = (do
      let r ← parseExpression errno [] (t :: ts)
      if needReduce stack true then do parseFrom r.2.2 (← reduce (r.1 :: stack)) r.2.1.tail
      else parseFrom r.2.2 (r.1 :: stack) r.2.1.tail) := by
  rw [parseFrom, List.length_cons, parseLoop_expression h h']
  cases hr : parseExpression errno [] (t :: ts) with
  | error e => rfl
  | ok r =>
    have hlen := length_tail_parseExpression hr
    have hrest : ∀ s, parseLoop ts.length r.2.2 s r.2.1.tail = parseFrom r.2.2 s r.2.1.tail :=
      fun s => parseLoop_eq_of_le hlen le_rfl
    show (if _ then _ else _) = (if _ then _ else _)
    simp only [hrest]

end ParseFrom

end WwivBasic.Parser
