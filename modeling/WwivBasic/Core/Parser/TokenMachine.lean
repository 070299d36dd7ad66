import WwivBasic.Core.Parser.Ast

/-!
# The parser, one token at a time

`parse`, `parseGroup` and `parseExpression` hand one iterator to each other. Between two tokens
the parser is in one of the three loops, with the stack of `parse` and, inside an expression, the
stack of that expression: a machine that consumes one token in each step. Its result is the root
that is not an error.

## Main definitions

* `pushToken`: what `parseExpression` does with a token it goes on after
* `Config`, `Config.step`, `Config.result`: the machine
* `accepted`: the root of a parse, unless it is an error

## Main results

* `accepted_parse`: the machine finds the root
-/

namespace WwivBasic.Parser

/-- The node has the type `AST_ERROR`. -/
def AstNode.isError : AstNode → Bool
  | .error _ => true
  | _ => false

theorem RootNode.isError_eq_false_iff {r : RootNode} :
    r.isError = false ↔ ∃ n, r = .node n ∧ n.isError = false := by
  cases r with
  | thrown e => simp [isError]
  | node n => cases n <;> simp [isError, AstNode.isError]

/-- A token at which `parseExpression` ends: a closing parenthesis, or a factor without a
lexeme. -/
def Token.stops (t : Token) : Bool := t.kind = .rparen || (t.kind = .factor && t.lexeme = [])

/-- What `parseExpression` does with any other token. -/
def pushToken (errno : Bool) (stack : List AstNode) (t : Token) :
    Except ParseError (List AstNode × Bool) :=
  match t.kind with
  | .factor =>
    let factor := createFactor errno t
    let stack' := .expression (.factor factor.1) :: stack
    (if needReduce stack false then reduce stack' else .ok stack').map (·, factor.2)
  | .binary op => .ok (.binaryOperator op :: stack, errno)
  | .logical op => .ok (.logicalOperator op :: stack, errno)
  | .assign => .error .assignment
  | .comment | .lparen | .rparen | .unexpected => .ok (stack, errno)

/-- The node that `parseExpression` returns at a token that ends it. -/
def stopNode (stack : List AstNode) (t : Token) : Except ParseError AstNode :=
  if t.kind = .rparen then flatten stack else .ok (.error (.startingAt []))

section ParseExpression

variable {errno : Bool} {stack : List AstNode} {t : Token} {ts : List Token}

theorem parseExpression_cons (h : t.stops = false) : parseExpression errno stack (t :: ts) =
    pushToken errno stack t >>= fun p => parseExpression p.2 p.1 ts := by
  rw [pushToken]
  cases hk : t.kind with
  | rparen => simp [Token.stops, hk] at h
  | factor =>
    have hl : t.lexeme ≠ [] := by simpa [Token.stops, hk] using h
    rw [parseExpression_factor hk hl]
    dsimp only
    generalize (if needReduce stack false then
      reduce (.expression (.factor (createFactor errno t).1) :: stack)
      else .ok (.expression (.factor (createFactor errno t).1) :: stack)) = r
    cases r <;> rfl
  | binary op => exact parseExpression_binary hk
  | logical op => exact parseExpression_logical hk
  | assign => exact parseExpression_assign hk
  | comment | lparen | unexpected => exact parseExpression_skip (by simp [hk])

theorem parseExpression_stop (h : t.stops = true) : parseExpression errno stack (t :: ts) =
    (stopNode stack t).map fun n => (n, t :: ts, errno) := by
  rw [stopNode]
  split_ifs with hk
  · exact parseExpression_rparen hk
  · have hstop : t.kind = .factor ∧ t.lexeme = [] := by simpa [Token.stops, hk] using h
    exact parseExpression_empty hstop.1 hstop.2

end ParseExpression

/-! ## The machine -/

/-- Where the parser is between two tokens. -/
inductive Config
  /-- In the loop of `parse`. -/
  | main (stack : List AstNode)
  /-- In the expression of a group. -/
  | group (stack inner : List AstNode)
  /-- In any other expression. -/
  | expression (stack inner : List AstNode)

/-- The stack of `parse` after an expression that is not in a group. -/
def complete (stack : List AstNode) (n : AstNode) : Except ParseError (List AstNode) :=
  if needReduce stack true then reduce (n :: stack) else .ok (n :: stack)

/-- The node of a group that ends at a token. -/
def groupNode (inner : List AstNode) (t : Token) : Except ParseError AstNode :=
  if t.kind = .rparen then flatten inner else .ok (.error (.missingRightParens t.lexeme))

namespace Config

/-- A token inside a group. -/
def stepGroup (errno : Bool) (stack inner : List AstNode) (t : Token) : Option (Config × Bool) :=
  if t.stops then (groupNode inner t).toOption.map fun n => (.main (n :: stack), errno)
  else (pushToken errno inner t).toOption.map fun p => (.group stack p.1, p.2)

/-- A token inside any other expression. -/
def stepExpression (errno : Bool) (stack inner : List AstNode) (t : Token) :
    Option (Config × Bool) :=
  if t.stops then (stopNode inner t >>= complete stack).toOption.map fun s => (.main s, errno)
  else (pushToken errno inner t).toOption.map fun p => (.expression stack p.1, p.2)

/-- One token, with the `errno` before and after it. -/
def step (errno : Bool) : Config → Token → Option (Config × Bool)
  | main stack, t =>
    match t.kind with
    | .logical op => some (.main (.logicalOperator op :: stack), errno)
    | .lparen => some (.group stack [], errno)
    | _ => stepExpression errno stack [] t
  | group stack inner, t => stepGroup errno stack inner t
  | expression stack inner, t => stepExpression errno stack inner t

/-- The single node of a stack, unless it is an error. -/
def root? : List AstNode → Option AstNode
  | [n] => if n.isError then none else some n
  | _ => none

/-- The root at the end of the tokens. A group that is not closed makes an error of it. -/
def finish : Config → Option AstNode
  | main stack => root? stack
  | group _ _ => none
  | expression stack inner => (flatten inner >>= complete stack).toOption.bind root?

/-- The root after the tokens that are left. -/
def result (errno : Bool) (c : Config) : List Token → Option AstNode
  | [] => c.finish
  | t :: ts => (c.step errno t).bind fun p => result p.2 p.1 ts

/-- The configuration after tokens. -/
def run (errno : Bool) (c : Config) : List Token → Option (Config × Bool)
  | [] => some (c, errno)
  | t :: ts => (c.step errno t).bind fun p => run p.2 p.1 ts

theorem run_append (errno : Bool) (c : Config) (ts us : List Token) :
    c.run errno (ts ++ us) = (c.run errno ts).bind fun p => p.1.run p.2 us := by
  induction ts generalizing errno c with
  | nil => rfl
  | cons t ts ih =>
    simp only [List.cons_append, run, Option.bind_assoc]
    exact Option.bind_congr fun p _ => ih p.2 p.1

theorem result_eq_run (errno : Bool) (c : Config) (ts : List Token) :
    c.result errno ts = (c.run errno ts).bind fun p => p.1.finish := by
  induction ts generalizing errno c with
  | nil => rfl
  | cons t ts ih =>
    simp only [result, run, Option.bind_assoc]
    exact Option.bind_congr fun p _ => ih p.2 p.1

/-- Where a token stands plays no part. -/
theorem result_congr (errno : Bool) (c : Config) {ts us : List Token}
    (h : ts.map Token.spelling = us.map Token.spelling) :
    c.result errno ts = c.result errno us := by
  induction ts generalizing errno c us with
  | nil =>
    obtain rfl := List.map_eq_nil_iff.mp h.symm
    rfl
  | cons t ts ih =>
    obtain ⟨u, us, rfl, hu, hus⟩ := List.map_eq_cons_iff.mp h.symm
    have hstep : c.step errno t = c.step errno u := by
      obtain ⟨type, lexeme, pos⟩ := t
      obtain ⟨type', lexeme', pos'⟩ := u
      obtain ⟨rfl, rfl⟩ : type' = type ∧ lexeme' = lexeme := Prod.mk.inj hu
      cases c with
      | main stack => cases type' <;> rfl
      | group stack inner => cases type' <;> rfl
      | expression stack inner => cases type' <;> rfl
    rw [result, result, hstep]
    exact Option.bind_congr fun p _ => ih p.2 p.1 hus.symm

end Config

/-- The root of a parse that is not an error. -/
def accepted : Except ParseError RootNode → Option AstNode
  | .ok (.node n) => if n.isError then none else some n
  | _ => none

/-! ## The machine is the parser -/

section Agreement

variable {errno : Bool} {stack inner : List AstNode} {t : Token} {ts : List Token}

theorem type_eq_rparen_iff : t.type = .rparen ↔ t.kind = .rparen := by
  obtain ⟨type, lexeme, pos⟩ := t
  cases type <;> simp [Token.kind, TokenType.kind]

/-- The machine inside a group, by the call of `parseExpression`. -/
theorem result_group : Config.result errno (.group stack inner) ts =
    ((parseExpression errno inner ts).map closeGroup).toOption.bind fun r =>
      match r.2.1 with
      | [] => none
      | _ :: it => Config.result r.2.2 (.main (r.1 :: stack)) it := by
  induction ts generalizing errno inner with
  | nil =>
    rw [parseExpression_nil]
    cases flatten inner <;> rfl
  | cons t ts ih =>
    rw [Config.result, Config.step, Config.stepGroup]
    split_ifs with hstop
    · rw [parseExpression_stop hstop, groupNode, stopNode]
      split_ifs with hk
      · cases flatten inner with
        | error e => rfl
        | ok n => simp [Except.map, Except.toOption, closeGroup, type_eq_rparen_iff.mpr hk]
      · simp [Except.map, Except.toOption, closeGroup, type_eq_rparen_iff, hk]
    · rw [parseExpression_cons (by simpa using hstop)]
      cases pushToken errno inner t with
      | error e => rfl
      | ok p => exact ih

/-- The machine inside any other expression. -/
theorem result_expression : Config.result errno (.expression stack inner) ts =
    (parseExpression errno inner ts).toOption.bind fun r =>
      (complete stack r.1).toOption.bind fun s => Config.result r.2.2 (.main s) r.2.1.tail := by
  induction ts generalizing errno inner with
  | nil =>
    rw [parseExpression_nil, Config.result, Config.finish]
    cases flatten inner with
    | error e => rfl
    | ok n => cases complete stack n <;> rfl
  | cons t ts ih =>
    rw [Config.result, Config.step, Config.stepExpression]
    split_ifs with hstop
    · rw [parseExpression_stop hstop]
      cases stopNode inner t with
      | error e => rfl
      | ok n =>
        cases hc : complete stack n <;>
          simp [hc, Except.map, Except.toOption, bind, Except.bind]
    · rw [parseExpression_cons (by simpa using hstop)]
      cases pushToken errno inner t with
      | error e => rfl
      | ok p => exact ih

theorem result_lparen (h : t.kind = .lparen) :
    Config.result errno (.main stack) (t :: ts) = Config.result errno (.group stack []) ts := by
  rw [Config.result, Config.step, h]
  rfl

theorem result_logical {op : Operator} (h : t.kind = .logical op) :
    Config.result errno (.main stack) (t :: ts) =
      Config.result errno (.main (.logicalOperator op :: stack)) ts := by
  rw [Config.result, Config.step, h]
  rfl

theorem result_other (h : t.kind ≠ .lparen) (h' : ∀ op, t.kind ≠ .logical op) :
    Config.result errno (.main stack) (t :: ts) =
      Config.result errno (.expression stack []) (t :: ts) := by
  rw [Config.result, Config.result, Config.step, Config.step]
  cases hk : t.kind with
  | lparen => exact absurd hk h
  | logical op => exact absurd hk (h' op)
  | _ => rfl

/-- From any stack, the machine finds the root that a parse of the tokens ends with. -/
def Finds (ts : List Token) : Prop := ∀ errno stack,
  accepted (parseFrom errno stack ts) = Config.result errno (.main stack) ts

/-- An iteration at an opening parenthesis. -/
theorem finds_lparen (h : t.kind = .lparen) (ih : ∀ it, it.length ≤ ts.length → Finds it) :
    Finds (t :: ts) := by
  intro errno stack
  rw [result_lparen h, parseFrom_lparen h, result_group]
  rcases ts with - | ⟨t', ts⟩
  -- A parenthesis at the end leaves an error on the stack.
  · rcases stack with - | ⟨x, stack⟩ <;> rfl
  · rw [parseGroup]
    split_ifs with hr
    -- There is nothing between the parentheses.
    · rw [parseExpression_rparen (type_eq_rparen_iff.mp hr)]
      rfl
    · cases hexpr : parseExpression errno [] (t' :: ts) with
      | error e => rfl
      | ok r =>
        have hlen := (suffix_parseExpression hexpr).length_le
        rw [← closeGroup_snd r] at hlen
        show accepted (match (closeGroup r).2.1 with
          | [] => _
          | _ :: it => parseFrom (closeGroup r).2.2 ((closeGroup r).1 :: stack) it) =
            match (closeGroup r).2.1 with
            | [] => none
            | _ :: it => Config.result (closeGroup r).2.2 (.main ((closeGroup r).1 :: stack)) it
        generalize closeGroup r = r' at hlen
        obtain ⟨n', - | ⟨t'', it⟩, e⟩ := r'
        · rfl
        · exact ih it (by simpa using Nat.le_of_succ_le hlen) _ _

/-- An iteration at the first token of any other expression. -/
theorem finds_other (h : t.kind ≠ .lparen) (h' : ∀ op, t.kind ≠ .logical op)
    (ih : ∀ it, it.length ≤ ts.length → Finds it) : Finds (t :: ts) := by
  intro errno stack
  rw [result_other h h', parseFrom_expression h h', result_expression]
  cases hexpr : parseExpression errno [] (t :: ts) with
  | error e => rfl
  | ok r =>
    have hlen : r.2.1.tail.length ≤ ts.length := by
      simpa using Nat.sub_le_sub_right (suffix_parseExpression hexpr).length_le 1
    show accepted (if needReduce stack true then _ else _) =
      (complete stack r.1).toOption.bind _
    rw [complete]
    split_ifs
    · cases hred : reduce (r.1 :: stack) with
      | error e => rfl
      | ok s => exact ih _ hlen _ _
    · exact ih _ hlen _ _

theorem finds (ts : List Token) : Finds ts := by
  induction hn : ts.length using Nat.strong_induction_on generalizing ts with
  | _ n ih =>
    rcases ts with - | ⟨t, ts⟩
    · rintro errno (- | ⟨x, - | ⟨y, stack⟩⟩) <;> rfl
    · have ih' : ∀ it : List Token, it.length ≤ ts.length → Finds it := fun it hlen =>
        ih it.length (by simp at hn; omega) it rfl
      by_cases hl : t.kind = .lparen
      · exact finds_lparen hl ih'
      by_cases hop : ∃ op, t.kind = .logical op
      · obtain ⟨op, hop⟩ := hop
        intro errno stack
        rw [result_logical hop, parseFrom_logical hop]
        exact ih' ts le_rfl errno _
      · exact finds_other hl (not_exists.mp hop) ih'

/-- The machine finds the root of a parse. -/
theorem accepted_parse (tokens : List Token) (n : AstNode) :
    parse errno tokens = .node n ∧ n.isError = false ↔
      Config.result errno (.main []) tokens = some n := by
  rw [← finds tokens errno [], parse_eq]
  cases parseFrom errno [] tokens with
  | error e => simp [accepted]
  | ok root =>
    cases root with
    | thrown e => simp [accepted]
    | node m => cases hm : m.isError <;> simp [accepted, hm] <;> rintro rfl <;> simp [hm]

end Agreement

end WwivBasic.Parser
