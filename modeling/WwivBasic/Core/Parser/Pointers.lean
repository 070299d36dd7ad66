import WwivBasic.Core.Parser.Ast

/-!
# The parser on iterators and pointers

`core/parser/ast.cpp` once more, with what `Ast` leaves out: an iterator that may leave its
vector, a stack that may be empty, a pointer that may be null, and loops that may not end. Each
of them stops a run. `Ast` is what the runs that do not stop compute, and no run stops.

## Main definitions

* `Stop`: what ends a run
* `Cursor`, `Parse`: the iterator and `errno`, and the runs on them
* `reduce`, `flatten`, `parseExpression`, `parseGroup`, `parse`: the functions of the source

## Main results

* `mirrors_reduce`, `mirrors_flatten`: on a stack without null nodes
* `mirrors_parseExpression`, `mirrors_parseGroup`, `mirrors_parseFrom`: at an iterator of the vector
* `parse_eq_root`: `parse` ends, with a root that holds a node
-/

namespace WwivBasic.Parser.Pointers

open EStateM (Mirrors)

/-- What ends a run of the parser before it returns. -/
inductive Stop
  /-- A `parse_error` is thrown. -/
  | thrown (e : ParseError)
  /-- The end iterator is dereferenced or advanced. -/
  | endIterator
  /-- The top of an empty stack is read or popped. -/
  | emptyStack
  /-- A null node is dereferenced. -/
  | nullNode
  /-- The front of an empty lexeme is read. -/
  | emptyLexeme
  /-- A loop has not ended within its bound. -/
  | outOfFuel

/-- The iterator, as an index of its vector, and `errno`. -/
structure Cursor where
  it : ℕ
  errno : Bool

/-- A run of the parser. -/
abbrev Parse := EStateM Stop Cursor

/-- `std::unique_ptr<AstNode>`. -/
abbrev Pointer := Option AstNode

/-- `RootNode`, by the node it points to. -/
inductive Root
  | node (n : Pointer)
  /-- An `ErrorNode` with the text of a caught `parse_error`. -/
  | thrown (e : ParseError)

/-! ## Nodes and stacks -/

/-- `*p`. -/
def deref : Pointer → Parse AstNode
  | some n => return n
  | none => throw .nullNode

/-- `stack.top()`. -/
def top : List Pointer → Parse Pointer
  | p :: _ => return p
  | [] => throw .emptyStack

/-- `auto p = std::move(stack.top()); stack.pop();` -/
def pop : List Pointer → Parse (Pointer × List Pointer)
  | p :: stack => return (p, stack)
  | [] => throw .emptyStack

/-- A computation that may throw. -/
def check {α : Type} : Except ParseError α → Parse α
  | .ok a => return a
  | .error e => throw (.thrown e)

/-- The operator of the node that is cast to an `OperatorNode`. -/
def operator (p : Pointer) : Parse Operator :=
  match p.bind AstNode.oper? with
  | some oper => return oper
  | none => do throw (.thrown (.expectedBinop (← deref p)))

/-- `reduce`, which returns `true`. -/
def reduce (stack : List Pointer) : Parse (List Pointer) :=
  if stack.length < 3 then do throw (.thrown (.cannotReduce (← stack.mapM deref)))
  else do
    let (right, stack) ← pop stack
    let (op, stack) ← pop stack
    let (left, stack) ← pop stack
    let op ← operator op
    let left ← deref left
    let right ← deref right
    return some (.expression (.binary left.child op right.child)) :: stack

/-- `if (nr) reduce(stack);` -/
def reduceIf (nr : Bool) (stack : List Pointer) : Parse (List Pointer) :=
  if nr then reduce stack else return stack

/-- `need_reduce`. -/
def needReduce (stack : List Pointer) (allowLogical : Bool) : Parse Bool :=
  if stack.isEmpty then return false
  else do
    match ← deref (← top stack) with
    | .logicalOperator _ => return allowLogical
    | .binaryOperator _ => return true
    | _ => return false

/-- The end of the three parsing functions, from `while (stack.size() > 1)` on. -/
def flatten : ℕ → List Pointer → Parse Pointer
  | 0, _ => throw .outOfFuel
  | n + 1, stack =>
    if 1 < stack.length then do flatten n (← reduce stack)
    else if stack.length ≠ 1 then throw (.thrown (.stackSize stack.length))
    else top stack

/-! ## The iterator -/

section Parse

variable (fuel : ℕ) (tokens : List Token)

/-- `it == end`. -/
def atEnd : Parse Bool := return (← get).it = tokens.length

/-- `*it`. -/
def current : Parse Token := do
  match tokens[(← get).it]? with
  | some t => return t
  | none => throw .endIterator

/-- `++it`. -/
def advance : Parse Unit := do
  if (← get).it < tokens.length then modify fun c => { c with it := c.it + 1 }
  else throw .endIterator

/-- `it + 1 == end`. -/
def nextAtEnd : Parse Bool := do
  if (← get).it < tokens.length then return (← get).it + 1 = tokens.length
  else throw .endIterator

/-! ## The parser -/

/-- `createFactor`. The lexeme of a string is not looked at. -/
def createFactor (t : Token) : Parse Pointer :=
  if t.type = .string ∨ t.type = .character then
    return some (.expression (.factor (.string t.lexeme)))
  else
    match t.lexeme with
    | [] => throw .emptyLexeme
    | c :: _ =>
      if c.isDigit then do
        let result := toNumber intMin intMax t.lexeme (← get).errno
        modify fun c => { c with errno := result.2 }
        return some (.expression (.factor (.number (.ofInt result.1))))
      else return some (.expression (.factor (.var t.lexeme)))

/-- The loop of `parseExpression`, for fewer than `n` tokens. -/
def parseExpressionFrom : ℕ → List Pointer → Parse Pointer
  | 0, _ => throw .outOfFuel
  | n + 1, stack => do
    if ← atEnd tokens then flatten fuel stack
    else
      let t ← current tokens
      match t.type with
      | .rparen => flatten fuel stack
      | .comment => do
        advance tokens
        parseExpressionFrom n stack
      | .string | .character | .number | .identifier =>
        if t.lexeme = [] then return some (.error (.startingAt t.lexeme))
        else do
          let nr ← needReduce stack false
          let factor ← createFactor t
          let stack ← reduceIf nr (factor :: stack)
          advance tokens
          parseExpressionFrom n stack
      | .add | .assign | .div | .eq | .ge | .gt | .le | .lt | .mul | .ne | .sub => do
        let op ← check (createBinaryOperator t)
        advance tokens
        parseExpressionFrom n (some op :: stack)
      | .logicalOr | .logicalAnd => do
        let op ← check (createLogicalOperator t)
        advance tokens
        parseExpressionFrom n (some op :: stack)
      | .lparen | .negate | .semicolon | .eof | .error => do
        advance tokens
        parseExpressionFrom n stack

/-- `parseExpression`. -/
def parseExpression : Parse Pointer := parseExpressionFrom fuel tokens fuel []

/-- `it == end || it->type == TokenType::rparen`, the negation of which guards the loop of
`parseGroup`. -/
def groupEnds : Parse Bool := do
  if ← atEnd tokens then return true
  else return (← current tokens).type = .rparen

/-- The loop of `parseGroup`, for fewer than `n` expressions. -/
def parseGroupFrom : ℕ → List Pointer → Parse Pointer
  | 0, _ => throw .outOfFuel
  | n + 1, stack => do
    if ← groupEnds tokens then flatten fuel stack
    else
      match ← parseExpression fuel tokens with
      | none => return some (.error (.startingAt (← current tokens).lexeme))
      | some expr =>
        if ← atEnd tokens then return some (.error (.missingRightParens "end".toList))
        else
          let t ← current tokens
          if t.type = .rparen then parseGroupFrom n (some expr :: stack)
          else return some (.error (.missingRightParens t.lexeme))

/-- `parseGroup`. -/
def parseGroup : Parse Pointer := do
  if ← nextAtEnd tokens then return some (.error (.startingAt (← current tokens).lexeme))
  else do
    advance tokens
    parseGroupFrom fuel tokens fuel []

/-- `if (it != end) ++it;` -/
def skip : Parse Unit := do
  if ← atEnd tokens then return ()
  else advance tokens

/-- The loop of `parse`, for fewer than `n` iterations, and what follows it. -/
def parseFrom : ℕ → List Pointer → Parse (Option Root)
  | 0, _ => throw .outOfFuel
  | n + 1, stack => do
    if ← atEnd tokens then
      if stack.length ≠ 1 then throw (.thrown (.stackSize stack.length))
      else return some (.node (← top stack))
    else
      let t ← current tokens
      match t.type with
      | .lparen => do
        let expr ← parseGroup fuel tokens
        if ← (if expr.isNone then return true else atEnd tokens) then
          return some (.node (some (.error (.startingAtToken t))))
        else do
          skip tokens
          parseFrom n (expr :: stack)
      | .logicalAnd | .logicalOr => do
        let op ← check (createLogicalOperator t)
        skip tokens
        parseFrom n (some op :: stack)
      | _ => do
        let nr ← needReduce stack true
        let expr ← parseExpression fuel tokens
        if expr.isNone then return some (.node (some (.error (.startingAtToken t))))
        else do
          let stack ← reduceIf nr (expr :: stack)
          skip tokens
          parseFrom n stack

/-- `Ast::parse` from the beginning of the vector, with each loop held to the bound. A `parse_error`
is caught. -/
def parse (errno : Bool) : Except Stop (Option Root) :=
  match parseFrom fuel tokens fuel [] ⟨0, errno⟩ with
  | .ok root _ => .ok root
  | .error (.thrown e) _ => .ok (some (.thrown e))
  | .error stop _ => .error stop

end Parse

/-! ## On a stack without null nodes -/

section Stack

variable {s : List AstNode} {c : Cursor}

theorem mirrors_reduce (s : List AstNode) (c : Cursor) :
    Mirrors Stop.thrown (fun s' p t => p = s'.map some ∧ t = c) (Parser.reduce s)
      (reduce (s.map some) c) := by
  rcases s with - | ⟨right, - | ⟨op, - | ⟨left, s⟩⟩⟩
  · exact .error
  · exact .error
  · exact .error
  · rw [reduce, if_neg (by simp)]
    cases op with
    | expression | error => exact .error
    | binaryOperator | logicalOperator => exact .ok ⟨rfl, rfl⟩

theorem needReduce_map (s : List AstNode) (allowLogical : Bool) (c : Cursor) :
    needReduce (s.map some) allowLogical c = .ok (Parser.needReduce s allowLogical) c := by
  rcases s with - | ⟨n, s⟩
  · rfl
  · cases n <;> rfl

theorem length_reduce {s' : List AstNode} (h : Parser.reduce s = .ok s') :
    s'.length + 2 = s.length := by
  rcases s with - | ⟨right, - | ⟨op, - | ⟨left, s⟩⟩⟩
  · cases h
  · cases h
  · cases h
  · obtain ⟨n, -, hs⟩ := Except.bind_eq_ok.mp h
    cases hs
    rfl

/-- The loop that reduces a stack ends within one round for each node. -/
theorem mirrors_flatten {fuel : ℕ} (h : s.length < fuel) :
    Mirrors Stop.thrown (fun n p t => p = some n ∧ t = c) (Parser.flatten s)
      (flatten fuel (s.map some) c) := by
  induction fuel generalizing s with
  | zero => exact absurd h (Nat.not_lt_zero _)
  | succ fuel ih =>
    rcases s with - | ⟨top, - | ⟨op, s⟩⟩
    · exact .error
    · exact .ok ⟨rfl, rfl⟩
    · rw [flatten, if_pos (by simp)]
      have hflatten : Parser.flatten (top :: op :: s) =
          Parser.reduce (top :: op :: s) >>= Parser.flatten := by
        rcases s with - | ⟨left, s⟩
        · rfl
        · show Parser.flattenTop top (op :: left :: s) = _
          rw [Parser.flattenTop, Parser.reduce]
          cases combine left op top <;> rfl
      rw [hflatten]
      apply (mirrors_reduce (top :: op :: s) c).bind
      rintro s' _ _ hs ⟨rfl, rfl⟩
      apply ih
      have hlen := length_reduce hs
      omega

theorem mirrors_reduceIf (nr : Bool) (s : List AstNode) (c : Cursor) :
    Mirrors Stop.thrown (fun s' p t => p = s'.map some ∧ t = c)
      (if nr then Parser.reduce s else .ok s) (reduceIf nr (s.map some) c) := by
  cases nr with
  | true => exact mirrors_reduce s c
  | false => exact .ok ⟨rfl, rfl⟩

theorem length_reduceIf {nr : Bool} {s' : List AstNode}
    (h : (if nr then Parser.reduce s else .ok s) = .ok s') : s'.length ≤ s.length := by
  cases nr with
  | true => exact (length_reduce h).symm ▸ Nat.le_add_right _ 2
  | false =>
    cases h
    exact le_rfl

end Stack

/-! ## At an iterator of the vector -/

section Iterator

variable {tokens ts : List Token} {t : Token} {errno : Bool}

/-- The iterator at which the vector goes on with `ts`. -/
def cursor (tokens ts : List Token) (errno : Bool) : Cursor :=
  ⟨tokens.length - ts.length, errno⟩

theorem cursor_self : cursor tokens tokens errno = ⟨0, errno⟩ := by
  rw [cursor, Nat.sub_self]

theorem atEnd_nil :
    atEnd tokens (cursor tokens [] errno) = .ok true (cursor tokens [] errno) := by
  show EStateM.Result.ok (decide (tokens.length - 0 = tokens.length)) _ = _
  rw [Nat.sub_zero, decide_eq_true rfl]

theorem cursor_lt (h : t :: ts <:+ tokens) :
    (cursor tokens (t :: ts) errno).it < tokens.length := by
  have hlen := h.length_le
  simp only [List.length_cons] at hlen
  show tokens.length - (ts.length + 1) < _
  omega

theorem atEnd_cons (h : t :: ts <:+ tokens) :
    atEnd tokens (cursor tokens (t :: ts) errno) = .ok false (cursor tokens (t :: ts) errno) := by
  show EStateM.Result.ok (decide (_ = tokens.length)) _ = _
  rw [decide_eq_false (cursor_lt h).ne]

theorem current_cons (h : t :: ts <:+ tokens) :
    current tokens (cursor tokens (t :: ts) errno) = .ok t (cursor tokens (t :: ts) errno) := by
  obtain ⟨pre, rfl⟩ := h
  have hget : (pre ++ t :: ts)[(pre ++ t :: ts).length - (t :: ts).length]? = some t := by
    rw [List.length_append, Nat.add_sub_cancel]
    simp
  show (match (pre ++ t :: ts)[(pre ++ t :: ts).length - (t :: ts).length]? with
    | some t => return t
    | none => throw .endIterator : Parse Token) _ = _
  rw [hget]
  rfl

theorem advance_cons (h : t :: ts <:+ tokens) :
    advance tokens (cursor tokens (t :: ts) errno) = .ok () (cursor tokens ts errno) := by
  have hnext : tokens.length - (ts.length + 1) + 1 = tokens.length - ts.length := by
    have hlen := h.length_le
    simp only [List.length_cons] at hlen
    omega
  show (if (cursor tokens (t :: ts) errno).it < tokens.length then
    modify fun c => { c with it := c.it + 1 } else throw .endIterator : Parse Unit) _ = _
  rw [if_pos (cursor_lt h)]
  exact congrArg (fun i => (.ok () ⟨i, errno⟩ : EStateM.Result Stop Cursor Unit)) hnext

theorem nextAtEnd_cons (h : t :: ts <:+ tokens) :
    nextAtEnd tokens (cursor tokens (t :: ts) errno) =
      .ok (decide (ts = [])) (cursor tokens (t :: ts) errno) := by
  have hlen := h.length_le
  simp only [List.length_cons] at hlen
  have hend : tokens.length - (ts.length + 1) + 1 = tokens.length ↔ ts = [] := by
    rw [← List.length_eq_zero_iff]
    omega
  show (if (cursor tokens (t :: ts) errno).it < tokens.length then
    return (← get).it + 1 = tokens.length else throw .endIterator : Parse Bool) _ = _
  rw [if_pos (cursor_lt h)]
  show EStateM.Result.ok (decide (tokens.length - (ts.length + 1) + 1 = tokens.length)) _ = _
  rw [decide_eq_decide.mpr hend]

theorem skip_of_suffix (h : ts <:+ tokens) :
    skip tokens (cursor tokens ts errno) = .ok () (cursor tokens ts.tail errno) := by
  cases ts with
  | nil => exact EStateM.bind_of_ok atEnd_nil
  | cons t ts => exact (EStateM.bind_of_ok (atEnd_cons h)).trans (advance_cons h)

/-- A factor is made of a lexeme that is not empty. -/
theorem createFactor_eq (h : t.lexeme ≠ []) :
    createFactor t (cursor tokens ts errno) =
      .ok (some (.expression (.factor (Parser.createFactor errno t).1)))
        (cursor tokens ts (Parser.createFactor errno t).2) := by
  rw [createFactor, Parser.createFactor]
  by_cases ht : t.type = .string ∨ t.type = .character
  · rw [if_pos ht, if_pos ht]
    rfl
  · rw [if_neg ht, if_neg ht]
    obtain ⟨a, l, hl⟩ := List.exists_cons_of_ne_nil h
    rw [hl]
    by_cases ha : a.isDigit = true
    · simp only [List.head?_cons, Option.any_some, ha, if_true]
      rfl
    · simp only [List.head?_cons, Option.any_some, ha]
      rfl

end Iterator

/-! ## The functions of the parser -/

section Mirrors

variable {fuel : ℕ} {tokens ts : List Token} {t : Token} {errno : Bool} {s : List AstNode}

/-- The pointer is that of the node, and the iterator is where the vector goes on. -/
def Points (tokens : List Token) (r : AstNode × List Token × Bool) (p : Pointer) (c : Cursor) :
    Prop :=
  p = some r.1 ∧ c = cursor tokens r.2.1 r.2.2

/-- The `switch` of `parseExpression`, by the kind of the token. -/
theorem parseExpressionFrom_cons {n : ℕ} {stack : List Pointer} (h : t :: ts <:+ tokens) :
    parseExpressionFrom fuel tokens (n + 1) stack (cursor tokens (t :: ts) errno) =
      (match t.kind with
      | .rparen => flatten fuel stack
      | .comment | .unexpected | .lparen => do
        advance tokens
        parseExpressionFrom fuel tokens n stack
      | .assign => throw (.thrown .assignment)
      | .binary op => do
        advance tokens
        parseExpressionFrom fuel tokens n (some (.binaryOperator op) :: stack)
      | .logical op => do
        advance tokens
        parseExpressionFrom fuel tokens n (some (.logicalOperator op) :: stack)
      | .factor =>
        if t.lexeme = [] then return some (.error (.startingAt t.lexeme))
        else do
          let nr ← needReduce stack false
          let factor ← createFactor t
          let stack ← reduceIf nr (factor :: stack)
          advance tokens
          parseExpressionFrom fuel tokens n stack : Parse Pointer)
        (cursor tokens (t :: ts) errno) := by
  refine (EStateM.bind_of_ok (atEnd_cons h)).trans ?_
  refine (EStateM.bind_of_ok (current_cons h)).trans ?_
  obtain ⟨type, lexeme, pos⟩ := t
  cases type <;> rfl

theorem mirrors_parseExpressionFrom {n : ℕ} (h : ts <:+ tokens) (hn : ts.length < n)
    (hs : s.length + ts.length < fuel) :
    Mirrors Stop.thrown (Points tokens) (Parser.parseExpression errno s ts)
      (parseExpressionFrom fuel tokens n (s.map some) (cursor tokens ts errno)) := by
  induction ts generalizing n errno s with
  | nil =>
    obtain ⟨n, rfl⟩ := Nat.exists_eq_succ_of_ne_zero (Nat.ne_zero_of_lt hn)
    rw [parseExpression_nil]
    apply Mirrors.bind_ok atEnd_nil
    apply (mirrors_flatten hs).map
    rintro _ _ _ ⟨rfl, rfl⟩
    exact ⟨rfl, rfl⟩
  | cons t ts ih =>
    obtain ⟨n, rfl⟩ := Nat.exists_eq_succ_of_ne_zero (Nat.ne_zero_of_lt hn)
    simp only [List.length_cons] at hn hs
    have h' : ts <:+ tokens := (List.suffix_cons t ts).trans h
    -- The loop goes on with the next token, and a stack that has grown by one node at most.
    have hnext : ∀ (errno : Bool) (s' : List AstNode), s'.length ≤ s.length + 1 →
        Mirrors Stop.thrown (Points tokens) (Parser.parseExpression errno s' ts)
          ((do
            advance tokens
            parseExpressionFrom fuel tokens n (s'.map some) : Parse Pointer)
            (cursor tokens (t :: ts) errno)) := fun _ _ hs' =>
      Mirrors.bind_ok (advance_cons h) (ih h' (by omega) (by omega))
    rw [parseExpressionFrom_cons h]
    cases hk : t.kind with
    | rparen =>
      rw [parseExpression_rparen hk]
      apply (mirrors_flatten (by omega)).map
      rintro _ _ _ ⟨rfl, rfl⟩
      exact ⟨rfl, rfl⟩
    | assign =>
      rw [parseExpression_assign hk]
      exact .error
    | comment | unexpected | lparen =>
      rw [parseExpression_skip (by simp [hk])]
      exact hnext errno s (Nat.le_succ _)
    | binary op =>
      rw [parseExpression_binary hk]
      exact hnext errno (.binaryOperator op :: s) le_rfl
    | logical op =>
      rw [parseExpression_logical hk]
      exact hnext errno (.logicalOperator op :: s) le_rfl
    | factor =>
      dsimp only
      by_cases hl : t.lexeme = []
      · rw [parseExpression_empty hk hl, if_pos hl, hl]
        exact .ok ⟨rfl, rfl⟩
      · rw [parseExpression_factor hk hl, if_neg hl]
        apply Mirrors.bind_ok (needReduce_map s false _)
        apply Mirrors.bind_ok (createFactor_eq hl)
        apply (mirrors_reduceIf (Parser.needReduce s false)
          (.expression (.factor (Parser.createFactor errno t).1) :: s) _).bind
        rintro s' _ _ hs' ⟨rfl, rfl⟩
        exact hnext _ s' (length_reduceIf hs')

theorem mirrors_parseExpression (h : ts <:+ tokens) (hf : ts.length < fuel) :
    Mirrors Stop.thrown (Points tokens) (Parser.parseExpression errno [] ts)
      (parseExpression fuel tokens (cursor tokens ts errno)) := by
  apply mirrors_parseExpressionFrom h hf
  rwa [List.length_nil, Nat.zero_add]

theorem groupEnds_cons (h : t :: ts <:+ tokens) :
    groupEnds tokens (cursor tokens (t :: ts) errno) =
      .ok (decide (t.type = .rparen)) (cursor tokens (t :: ts) errno) := by
  refine (EStateM.bind_of_ok (atEnd_cons h)).trans ?_
  exact EStateM.bind_of_ok (current_cons h)

/-- The loop of a group ends where it begins, at a parenthesis. -/
theorem mirrors_parseGroupFrom_rparen {n : ℕ} (h : t :: ts <:+ tokens) (ht : t.type = .rparen)
    (hf : s.length < fuel) :
    Mirrors Stop.thrown (Points tokens) ((Parser.flatten s).map fun n => (n, t :: ts, errno))
      (parseGroupFrom fuel tokens (n + 1) (s.map some) (cursor tokens (t :: ts) errno)) := by
  apply Mirrors.bind_ok (groupEnds_cons h)
  rw [decide_eq_true ht]
  apply (mirrors_flatten hf).map
  rintro _ _ _ ⟨rfl, rfl⟩
  exact ⟨rfl, rfl⟩

theorem mirrors_parseGroup (h : t :: ts <:+ tokens) (hf : ts.length + 1 < fuel) :
    Mirrors Stop.thrown (Points tokens) (Parser.parseGroup errno t ts)
      (parseGroup fuel tokens (cursor tokens (t :: ts) errno)) := by
  have h' : ts <:+ tokens := (List.suffix_cons t ts).trans h
  apply Mirrors.bind_ok (nextAtEnd_cons h)
  rcases ts with - | ⟨t', ts⟩
  · exact Mirrors.bind_ok (current_cons h) (.ok ⟨rfl, rfl⟩)
  apply Mirrors.bind_ok (advance_cons h)
  obtain ⟨n, rfl⟩ : ∃ n, fuel = n + 2 := ⟨fuel - 2, by omega⟩
  by_cases ht : t'.type = .rparen
  · rw [Parser.parseGroup, if_pos ht]
    exact mirrors_parseGroupFrom_rparen (s := []) h' ht (by simp)
  rw [Parser.parseGroup, if_neg ht]
  apply Mirrors.bind_ok (groupEnds_cons h')
  rw [decide_eq_false ht]
  have hmap : (Parser.parseExpression errno [] (t' :: ts)).map closeGroup =
      Parser.parseExpression errno [] (t' :: ts) >>= fun r => .ok (closeGroup r) := rfl
  rw [hmap]
  apply (mirrors_parseExpression h' (Nat.lt_of_succ_lt hf)).bind
  rintro ⟨n', it, errno'⟩ _ _ hr ⟨rfl, rfl⟩
  have hit : it <:+ tokens := (suffix_parseExpression hr).trans h'
  rcases it with - | ⟨t'', it⟩
  · exact Mirrors.bind_ok atEnd_nil (.ok ⟨rfl, rfl⟩)
  apply Mirrors.bind_ok (atEnd_cons hit)
  apply Mirrors.bind_ok (current_cons hit)
  rw [closeGroup]
  by_cases ht' : t''.type = .rparen
  · rw [if_pos ht', if_pos ht']
    exact mirrors_parseGroupFrom_rparen (s := [n']) hit ht' (by simp)
  · rw [if_neg ht', if_neg ht']
    exact .ok ⟨rfl, rfl⟩

/-- The root with the pointer it holds. -/
def root : RootNode → Root
  | .node n => .node (some n)
  | .thrown e => .thrown e

/-- The `switch` of `parse`, by the kind of the token. -/
theorem parseFrom_cons {n : ℕ} {stack : List Pointer} (h : t :: ts <:+ tokens) :
    parseFrom fuel tokens (n + 1) stack (cursor tokens (t :: ts) errno) =
      (match t.kind with
      | .lparen => do
        let expr ← parseGroup fuel tokens
        if ← (if expr.isNone then return true else atEnd tokens) then
          return some (.node (some (.error (.startingAtToken t))))
        else do
          skip tokens
          parseFrom fuel tokens n (expr :: stack)
      | .logical op => do
        skip tokens
        parseFrom fuel tokens n (some (.logicalOperator op) :: stack)
      | _ => do
        let nr ← needReduce stack true
        let expr ← parseExpression fuel tokens
        if expr.isNone then return some (.node (some (.error (.startingAtToken t))))
        else do
          let stack ← reduceIf nr (expr :: stack)
          skip tokens
          parseFrom fuel tokens n stack : Parse (Option Root))
        (cursor tokens (t :: ts) errno) := by
  refine (EStateM.bind_of_ok (atEnd_cons h)).trans ?_
  refine (EStateM.bind_of_ok (current_cons h)).trans ?_
  obtain ⟨type, lexeme, pos⟩ := t
  cases type <;> rfl

theorem parseFrom_default (hl : t.kind ≠ .lparen) (hop : ∀ op, t.kind ≠ .logical op) :
    Parser.parseFrom errno s (t :: ts) =
      Parser.parseExpression errno [] (t :: ts) >>= fun r =>
        (if Parser.needReduce s true then Parser.reduce (r.1 :: s) else .ok (r.1 :: s)) >>=
          fun s' => Parser.parseFrom r.2.2 s' r.2.1.tail := by
  rw [parseFrom_expression hl hop]
  cases Parser.needReduce s true <;> rfl

/-- What follows the loop of `parse`. -/
theorem mirrors_parseFrom_nil {n : ℕ} :
    Mirrors Stop.thrown (fun r p _ => p = some (root r)) (Parser.parseFrom errno s [])
      (parseFrom fuel tokens (n + 1) (s.map some) (cursor tokens [] errno)) := by
  apply Mirrors.bind_ok atEnd_nil
  rcases s with - | ⟨x, - | ⟨y, s⟩⟩
  · exact .error
  · exact .ok rfl
  · rw [if_pos rfl, if_pos (by simp), List.length_map]
    exact .error

theorem mirrors_parseFrom {n : ℕ} (h : ts <:+ tokens) (hn : ts.length < n)
    (hf : ts.length < fuel) :
    Mirrors Stop.thrown (fun r p _ => p = some (root r)) (Parser.parseFrom errno s ts)
      (parseFrom fuel tokens n (s.map some) (cursor tokens ts errno)) := by
  induction n generalizing ts errno s with
  | zero => exact absurd hn (Nat.not_lt_zero _)
  | succ n ih =>
    rcases ts with - | ⟨t, ts⟩
    · exact mirrors_parseFrom_nil
    simp only [List.length_cons] at hn hf
    -- The loop goes on after the tokens that were used, and the one that is skipped.
    have hnext : ∀ (errno : Bool) (s' : List AstNode) (it : List Token), it <:+ tokens →
        it.tail.length ≤ ts.length →
        Mirrors Stop.thrown (fun r p _ => p = some (root r)) (Parser.parseFrom errno s' it.tail)
          ((do
            skip tokens
            parseFrom fuel tokens n (s'.map some) : Parse (Option Root))
            (cursor tokens it errno)) := fun _ _ it hit hlen =>
      Mirrors.bind_ok (skip_of_suffix hit)
        (ih ((List.tail_suffix it).trans hit) (by omega) (by omega))
    rw [parseFrom_cons h]
    cases hk : t.kind with
    | lparen =>
      rw [parseFrom_lparen hk]
      apply (mirrors_parseGroup h hf).bind
      rintro ⟨n', it, errno'⟩ _ _ hr ⟨rfl, rfl⟩
      have hit : it <:+ tokens := (suffix_parseGroup hr).trans h
      rcases it with - | ⟨t', it⟩
      · exact Mirrors.bind_ok atEnd_nil (.ok rfl)
      apply Mirrors.bind_ok (atEnd_cons hit)
      exact hnext _ (n' :: s) _ hit (Nat.le_of_succ_le_succ (length_parseGroup hr))
    | logical op =>
      rw [parseFrom_logical hk]
      exact hnext errno (.logicalOperator op :: s) _ h le_rfl
    | factor | binary | assign | comment | rparen | unexpected =>
      rw [parseFrom_default (by simp [hk]) (by simp [hk])]
      apply Mirrors.bind_ok (needReduce_map s true _)
      apply (mirrors_parseExpression h hf).bind
      rintro ⟨n', it, errno'⟩ _ _ hr ⟨rfl, rfl⟩
      have hit : it <:+ tokens := (suffix_parseExpression hr).trans h
      apply (mirrors_reduceIf _ (n' :: s) _).bind
      rintro s' _ _ - ⟨rfl, rfl⟩
      exact hnext _ s' it hit (length_tail_parseExpression hr)

/-- `parse` ends, whatever the tokens are: nothing stops it, and its root holds a node. -/
theorem parse_eq_root (errno : Bool) (tokens : List Token) (k : ℕ) :
    parse (tokens.length + 1 + k) tokens errno = .ok (some (root (Parser.parse errno tokens))) := by
  have hlt : tokens.length < tokens.length + 1 + k := by omega
  have h : Mirrors Stop.thrown (fun r p _ => p = some (root r)) (Parser.parseFrom errno [] tokens)
      (parseFrom (tokens.length + 1 + k) tokens (tokens.length + 1 + k) [] ⟨0, errno⟩) := by
    rw [← @cursor_self tokens errno]
    exact mirrors_parseFrom (s := []) List.suffix_rfl hlt hlt
  rw [parse, parse_eq]
  generalize Parser.parseFrom errno [] tokens = x at h ⊢
  generalize parseFrom _ tokens _ _ _ = r at h ⊢
  cases h with
  | ok hp => rw [hp]
  | error => rfl

end Mirrors

end WwivBasic.Parser.Pointers
