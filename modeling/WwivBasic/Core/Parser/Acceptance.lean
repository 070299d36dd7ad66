import WwivBasic.Core.Parser.TokenMachine

/-!
# What the parser accepts

Which vectors of tokens lead to a root that is not an error: a finite automaton over the kinds of
the tokens says so. An expression is flattened to one node when every second node on its stack is
an operator, whatever the others are, and the stack of `parse` comes down to one node only if it
never holds more than an operator and a node below it.

## Main definitions

* `Open`, `Closed`: stacks of an expression that wait for an operand, and that can be flattened
* `Progress`: how far an expression has come
* `Shape`: the stacks of `parse` that can still be accepted
* `Recognizer`: the automaton

## Main results

* `flatten_of_closed`, `flatten_of_not_closed`: when an expression is flattened
* `isError_parse`: the automaton accepts what the parser accepts
-/

namespace WwivBasic.Parser

/-! ## The stack of an expression -/

/-- From the top, every second node is an operator, the topmost one included. -/
def Open : List AstNode → Prop
  | [] => True
  | [_] => False
  | op :: _ :: stack => op.oper?.isSome ∧ Open stack

/-- A node on top of a stack that waits for it. -/
def Closed : List AstNode → Prop
  | [] => False
  | _ :: stack => Open stack

section Stacks

variable {n : AstNode} {stack : List AstNode}

theorem open_cons : Open (n :: stack) ↔ n.oper?.isSome ∧ Closed stack := by
  rcases stack with - | ⟨x, stack⟩ <;> simp [Open, Closed]

/-- The two have different parities. -/
theorem Open.not_closed (h : Open stack) : ¬ Closed stack := by
  induction stack with
  | nil => exact id
  | cons n stack ih => exact fun hc => ih hc (open_cons.mp h).2

theorem flattenTop_of_open (h : Open stack) (top : AstNode) :
    ∃ n, flattenTop top stack = .ok n ∧ (stack = [] ∧ n = top ∨ ∃ e, n = .expression e) := by
  induction hk : stack.length using Nat.strong_induction_on generalizing top stack with
  | _ k ih =>
    rcases stack with - | ⟨op, - | ⟨left, stack⟩⟩
    · exact ⟨top, rfl, .inl ⟨rfl, rfl⟩⟩
    · exact h.elim
    · obtain ⟨oper, hoper⟩ := Option.isSome_iff_exists.mp h.1
      obtain ⟨n, hn, hnode⟩ := ih stack.length (by simp at hk; omega) h.2
        (.expression (.binary left.child oper top.child)) rfl
      refine ⟨n, ?_, .inr ?_⟩
      · rw [flattenTop, combine, hoper]
        exact hn
      · rcases hnode with ⟨-, rfl⟩ | h
        · exact ⟨_, rfl⟩
        · exact h

theorem flattenTop_of_not_open (h : ¬ Open stack) (top n : AstNode) :
    flattenTop top stack ≠ .ok n := by
  induction hk : stack.length using Nat.strong_induction_on generalizing top stack with
  | _ k ih =>
    rcases stack with - | ⟨op, - | ⟨left, stack⟩⟩
    · exact absurd trivial h
    · simp [flattenTop]
    · rw [flattenTop, combine]
      cases hoper : op.oper? with
      | none => simp [bind, Except.bind]
      | some oper =>
        have hopen : ¬ Open stack := fun ho => h ⟨by simp [hoper], ho⟩
        exact ih stack.length (by simp at hk; omega) hopen _ rfl

/-- A closed stack comes down to its only node, or to an expression. -/
theorem flatten_of_closed (h : Closed stack) :
    ∃ n, flatten stack = .ok n ∧ (stack = [n] ∨ ∃ e, n = .expression e) := by
  rcases stack with - | ⟨top, stack⟩
  · exact h.elim
  · obtain ⟨n, hn, hnode⟩ := flattenTop_of_open h top
    refine ⟨n, hn, hnode.imp_left ?_⟩
    rintro ⟨rfl, rfl⟩
    rfl

/-- No other stack comes down to a node. -/
theorem flatten_of_not_closed (h : ¬ Closed stack) : (flatten stack).toOption = none := by
  have hne : ∀ n, flatten stack ≠ .ok n := by
    intro n
    rcases stack with - | ⟨top, stack⟩
    · simp [flatten]
    · exact flattenTop_of_not_open h top n
  cases hf : flatten stack with
  | error e => rfl
  | ok n => exact absurd hf (hne n)

/-- A factor on a stack: pushed, or combined with the binary operator that waits for it. -/
theorem pushToken_factor (errno : Bool) (stack : List AstNode) {t : Token}
    (ht : t.kind = .factor) :
    (∃ op, stack = [.binaryOperator op]) ∧ (pushToken errno stack t).toOption = none ∨
      ∃ e rest, (pushToken errno stack t).toOption =
          some (.expression e :: rest, (createFactor errno t).2) ∧
        (¬ ∃ op, stack = [.binaryOperator op]) ∧ (Open rest ↔ Open stack) := by
  rw [pushToken, ht]
  dsimp only
  rcases stack with - | ⟨top, - | ⟨left, stack⟩⟩
  · exact .inr ⟨_, [], rfl, by simp, Iff.rfl⟩
  · cases top with
    | binaryOperator op => exact .inl ⟨⟨op, rfl⟩, rfl⟩
    | expression | logicalOperator | error =>
      exact .inr ⟨_, [_], rfl, by simp, Iff.rfl⟩
  · cases top with
    | binaryOperator op =>
      exact .inr ⟨_, stack, rfl, by simp, by simp [Open, AstNode.oper?]⟩
    | expression | logicalOperator | error =>
      exact .inr ⟨_, _ :: left :: stack, rfl, by simp, Iff.rfl⟩

end Stacks

/-! ## The automaton -/

/-- What a node is to the stack it is pushed on. -/
inductive Role
  | operand
  | operator
  /-- An error in the place of an operand. -/
  | failed
  deriving DecidableEq

/-- The role of a node. -/
def AstNode.role : AstNode → Role
  | .expression _ => .operand
  | .binaryOperator _ | .logicalOperator _ => .operator
  | .error _ => .failed

/-- How far an expression has come. -/
inductive Progress
  | fresh
  /-- Nothing but a binary operator. -/
  | binary
  /-- Nothing but a logical operator. -/
  | logical
  /-- The next factor or operator is an operand. -/
  | waiting
  /-- The expression can end. -/
  | complete
  /-- A factor stood in the place of an operator. -/
  | broken
  deriving DecidableEq

namespace Progress

/-- After a factor. A binary operator that has nothing to its left throws. -/
def factor : Progress → Option Progress
  | .fresh | .waiting => some .complete
  | .binary => none
  | .logical | .complete | .broken => some .broken

/-- After an operator, which alone makes the progress `alone`. -/
def operator : Progress → Progress → Progress
  | .fresh, alone => alone
  | .binary, _ | .logical, _ | .complete, _ => .waiting
  | .waiting, _ => .complete
  | .broken, _ => .broken

/-- After a token that does not end the expression. -/
def next (p : Progress) : Kind → Option Progress
  | .factor => p.factor
  | .binary _ => some (p.operator .binary)
  | .logical _ => some (p.operator .logical)
  | .assign => none
  | .comment | .lparen | .rparen | .unexpected => some p

/-- The node of an expression that ends. -/
def role : Progress → Option Role
  | .complete => some .operand
  | .binary | .logical => some .operator
  | .fresh | .waiting | .broken => none

/-- The node of an expression that ends at a token. -/
def stop (p : Progress) (t : Token) : Option Role :=
  if t.kind = .rparen then p.role else some .failed

end Progress

/-- The stacks of `parse` from which it can still accept. -/
inductive Shape
  | empty
  | operand
  | operator
  | failed
  /-- An operator on any node. -/
  | pair
  deriving DecidableEq

namespace Shape

/-- A node is pushed. -/
def push : Shape → Role → Option Shape
  | .empty, .operand => some .operand
  | .empty, .operator => some .operator
  | .empty, .failed => some .failed
  | .operand, .operator | .operator, .operator | .failed, .operator => some .pair
  | _, _ => none

/-- An expression that is not in a group follows: an operator on top takes it. -/
def complete : Shape → Role → Option Shape
  | .pair, _ => some .operand
  | .operator, _ => none
  | s, r => s.push r

/-- The single node of the stack is a root. -/
def accepting : Shape → Bool
  | .operand | .operator => true
  | _ => false

end Shape

/-- The states of the automaton: the loop that the parser is in, with what its stacks are like. -/
inductive Recognizer
  | main (s : Shape)
  | group (s : Shape) (p : Progress)
  | expression (s : Shape) (p : Progress)
  deriving DecidableEq

namespace Recognizer

/-- A token inside a group. -/
def stepGroup (s : Shape) (p : Progress) (t : Token) : Option Recognizer :=
  if t.stops then (p.stop t).bind s.push |>.map .main else (p.next t.kind).map (.group s)

/-- A token inside any other expression. -/
def stepExpression (s : Shape) (p : Progress) (t : Token) : Option Recognizer :=
  if t.stops then (p.stop t).bind s.complete |>.map .main
  else (p.next t.kind).map (.expression s)

/-- One token. -/
def step : Recognizer → Token → Option Recognizer
  | main s, t =>
    match t.kind with
    | .logical _ => (s.push .operator).map .main
    | .lparen => some (.group s .fresh)
    | _ => stepExpression s .fresh t
  | group s p, t => stepGroup s p t
  | expression s p, t => stepExpression s p t

/-- The tokens can end here. -/
def accepting : Recognizer → Bool
  | main s => s.accepting
  | group _ _ => false
  | expression s p => (p.role.bind s.complete).any Shape.accepting

/-- The automaton accepts the tokens from a state on. -/
def accepts : Recognizer → List Token → Bool
  | r, [] => r.accepting
  | r, t :: ts => (r.step t).any fun r => accepts r ts

end Recognizer

/-! ## The automaton follows the parser -/

/-- The progress of an expression with the given stack. -/
def Progress.Of : Progress → List AstNode → Prop
  | .fresh, stack => stack = []
  | .binary, stack => ∃ op, stack = [.binaryOperator op]
  | .logical, stack => ∃ op, stack = [.logicalOperator op]
  | .waiting, stack => Open stack ∧ stack ≠ []
  | .complete, stack => Closed stack ∧ ∀ n, stack = [n] → n.role = .operand
  | .broken, stack => ¬ Open stack ∧ ¬ Closed stack

/-- The shape of a stack of `parse`. -/
def Shape.Of : Shape → List AstNode → Prop
  | .empty, stack => stack = []
  | .operand, stack => ∃ n, stack = [n] ∧ n.role = .operand
  | .operator, stack => ∃ n, stack = [n] ∧ n.role = .operator
  | .failed, stack => ∃ n, stack = [n] ∧ n.role = .failed
  | .pair, stack => ∃ op n, stack = [op, n] ∧ op.role = .operator

section Expressions

variable {p alone : Progress} {n : AstNode} {stack : List AstNode} {errno : Bool} {t : Token}

theorem AstNode.oper?_isSome : n.oper?.isSome ↔ n.role = .operator := by
  cases n <;> simp [oper?, role]

/-- An operator is pushed on the stack of an expression. -/
theorem Progress.Of.operator (h : p.Of stack) (hn : n.role = .operator) (halone : alone.Of [n]) :
    (p.operator alone).Of (n :: stack) := by
  have hop := AstNode.oper?_isSome.mpr hn
  cases p with
  | fresh =>
    obtain rfl := h
    exact halone
  | binary | logical =>
    obtain ⟨op, rfl⟩ := h
    exact ⟨open_cons.mpr ⟨hop, trivial⟩, by simp⟩
  | waiting => exact ⟨h.1, fun m hm => absurd (List.cons.inj hm).2 h.2⟩
  | complete => exact ⟨open_cons.mpr ⟨hop, h.1⟩, by simp⟩
  | broken => exact ⟨fun ho => h.2 (open_cons.mp ho).2, h.1⟩

/-- A token that does not end an expression. -/
theorem Progress.Of.next (h : p.Of stack) :
    Option.Rel (fun q p' => p'.Of q.1) (pushToken errno stack t).toOption (p.next t.kind) := by
  cases hk : t.kind with
  | factor =>
    rcases pushToken_factor errno stack hk with
      ⟨⟨op, rfl⟩, hnone⟩ | ⟨e, rest, hsome, hbinary, hrest⟩
    -- Only a lone binary operator throws.
    · rw [hnone]
      cases p with
      | fresh => cases h
      | binary => exact .none
      | logical =>
        obtain ⟨op', h⟩ := h
        cases h
      | waiting => exact h.1.elim
      | complete => cases h.2 _ rfl
      | broken => exact absurd trivial h.2
    · rw [hsome]
      have hnotOpen : ¬ Open (.expression e :: rest) := fun ho => by
        simpa [AstNode.oper?] using (open_cons.mp ho).1
      have hrole : ∀ n, .expression e :: rest = [n] → n.role = .operand := by
        rintro n hn
        cases hn
        rfl
      cases p with
      | fresh =>
        obtain rfl := h
        exact .some ⟨hrest.mpr trivial, hrole⟩
      | binary => exact absurd h hbinary
      | logical =>
        obtain ⟨op, rfl⟩ := h
        exact .some ⟨hnotOpen, fun hc => hrest.mp hc⟩
      | waiting => exact .some ⟨hrest.mpr h.1, hrole⟩
      | complete => exact .some ⟨hnotOpen, fun hc => (hrest.mp hc).not_closed h.1⟩
      | broken => exact .some ⟨hnotOpen, fun hc => h.1 (hrest.mp hc)⟩
  | binary op =>
    rw [pushToken, hk]
    exact .some (h.operator rfl ⟨op, rfl⟩)
  | logical op =>
    rw [pushToken, hk]
    exact .some (h.operator rfl ⟨op, rfl⟩)
  | assign =>
    rw [pushToken, hk]
    exact .none
  | comment | lparen | rparen | unexpected =>
    rw [pushToken, hk]
    exact .some h

/-- The end of an expression. -/
theorem Progress.Of.role (h : p.Of stack) :
    Option.Rel (fun n r => n.role = r) (flatten stack).toOption p.role := by
  cases p with
  | fresh =>
    obtain rfl := h
    exact .none
  | binary | logical =>
    obtain ⟨op, rfl⟩ := h
    exact .some rfl
  | waiting =>
    rw [flatten_of_not_closed h.1.not_closed]
    exact .none
  | complete =>
    obtain ⟨n, hn, hnode⟩ := flatten_of_closed h.1
    rw [hn]
    rcases hnode with hstack | ⟨e, rfl⟩
    · exact .some (h.2 n hstack)
    · exact .some rfl
  | broken =>
    rw [flatten_of_not_closed h.2]
    exact .none

theorem Progress.Of.stop (h : p.Of stack) :
    Option.Rel (fun n r => n.role = r) (stopNode stack t).toOption (p.stop t) := by
  rw [stopNode, Progress.stop]
  split_ifs
  · exact h.role
  · exact .some rfl

theorem Progress.Of.stop_group (h : p.Of stack) :
    Option.Rel (fun n r => n.role = r) (groupNode stack t).toOption (p.stop t) := by
  rw [groupNode, Progress.stop]
  split_ifs
  · exact h.role
  · exact .some rfl

end Expressions

/-! ### The stack of `parse` -/

/-- The stack holds more than an operator and a node below it, and never comes down to one. -/
def Dead : List AstNode → Prop
  | [] => False
  | n :: stack => 2 ≤ stack.length + if n.role = .operator then 0 else 1

section Shapes

variable {s : Shape} {stack stack' : List AstNode} {n : AstNode} {r : Role}

theorem dead_cons :
    Dead (n :: stack) ↔ 2 ≤ stack.length + if n.role = .operator then 0 else 1 := Iff.rfl

theorem needReduce_cons : needReduce (n :: stack) true = decide (n.role = .operator) := by
  cases n <;> rfl

theorem combine_of_role (left right : AstNode) (hn : n.role = .operator) :
    ∃ e, combine left n right = .ok (.expression e) := by
  cases n <;> cases hn <;> exact ⟨_, rfl⟩

theorem Dead.push (h : Dead stack) (n : AstNode) : Dead (n :: stack) := by
  rcases stack with - | ⟨x, stack⟩
  · exact h.elim
  · rw [dead_cons] at h ⊢
    rw [List.length_cons]
    split_ifs at h ⊢ <;> omega

theorem Dead.complete (h : Dead stack) (hn : complete stack n = .ok stack') : Dead stack' := by
  rcases stack with - | ⟨op, stack⟩
  · exact h.elim
  rw [Parser.complete, needReduce_cons] at hn
  by_cases hop : op.role = .operator
  -- The operator on top takes a node from below, and there are more.
  · rw [decide_eq_true hop, if_pos rfl] at hn
    rcases stack with - | ⟨left, stack⟩
    · cases hn
    obtain ⟨e, he⟩ := combine_of_role left n hop
    rw [reduce, he] at hn
    obtain rfl : .expression e :: stack = stack' := Except.ok.inj hn
    rw [dead_cons, if_pos hop] at h
    rw [dead_cons, if_neg (by simp [AstNode.role])]
    simpa using h
  · rw [decide_eq_false hop, if_neg (by simp)] at hn
    obtain rfl := Except.ok.inj hn
    exact h.push n

theorem Dead.root? (h : Dead stack) : Config.root? stack = none := by
  rcases stack with - | ⟨n, - | ⟨x, stack⟩⟩
  · rfl
  · rw [dead_cons] at h
    split_ifs at h <;> simp at h
  · rfl

theorem Shape.Of.push (h : s.Of stack) (hr : n.role = r) :
    (∃ s', s.push r = some s' ∧ s'.Of (n :: stack)) ∨ s.push r = none ∧ Dead (n :: stack) := by
  have hdead : ∀ {x}, n.role ≠ .operator → Dead [n, x] := fun hne => by simp [Dead, hne]
  subst hr
  cases s with
  | empty =>
    obtain rfl := h
    refine .inl ?_
    cases hr : n.role <;> exact ⟨_, rfl, n, rfl, hr⟩
  | operand | operator | failed =>
    obtain ⟨x, rfl, -⟩ := h
    cases hr : n.role with
    | operator => exact .inl ⟨_, rfl, n, x, rfl, hr⟩
    | operand | failed => exact .inr ⟨rfl, hdead (by simp [hr])⟩
  | pair =>
    obtain ⟨op, x, rfl, -⟩ := h
    refine .inr ⟨rfl, ?_⟩
    simp [Dead]

theorem Shape.Of.complete (h : s.Of stack) (hr : n.role = r) :
    (∃ s' stack', s.complete r = some s' ∧ Parser.complete stack n = .ok stack' ∧ s'.Of stack') ∨
      s.complete r = none ∧ ∀ stack', Parser.complete stack n = .ok stack' → Dead stack' := by
  -- Without an operator on top, the node is pushed.
  have hpush : needReduce stack true = false → s.complete r = s.push r →
      (∃ s' stack', s.complete r = some s' ∧ Parser.complete stack n = .ok stack' ∧
        s'.Of stack') ∨
      s.complete r = none ∧ ∀ stack', Parser.complete stack n = .ok stack' → Dead stack' := by
    intro hneed hs
    rw [hs, Parser.complete, hneed]
    rcases h.push hr with ⟨s', hs', hof⟩ | ⟨hnone, hdead⟩
    · exact .inl ⟨s', _, hs', rfl, hof⟩
    · refine .inr ⟨hnone, fun stack' hstack => ?_⟩
      obtain rfl := Except.ok.inj hstack
      exact hdead
  cases s with
  | empty =>
    obtain rfl := h
    exact hpush rfl rfl
  | operand | failed =>
    obtain ⟨x, rfl, hx⟩ := h
    exact hpush (by rw [needReduce_cons, hx]; rfl) rfl
  -- An operator alone has nothing to its left.
  | operator =>
    obtain ⟨x, rfl, hx⟩ := h
    refine .inr ⟨rfl, fun stack' hstack => ?_⟩
    rw [Parser.complete, needReduce_cons, decide_eq_true hx, if_pos rfl] at hstack
    cases hstack
  | pair =>
    obtain ⟨op, x, rfl, hop⟩ := h
    obtain ⟨e, he⟩ := combine_of_role x n hop
    refine .inl ⟨.operand, [.expression e], rfl, ?_, _, rfl, rfl⟩
    rw [Parser.complete, needReduce_cons, decide_eq_true hop, if_pos rfl, reduce, he]
    rfl

theorem Shape.Of.accepting (h : s.Of stack) : (Config.root? stack).isSome = s.accepting := by
  have hsingle : ∀ n, (Config.root? [n]).isSome = decide (n.role ≠ .failed) := by
    intro n
    cases n <;> rfl
  cases s with
  | empty =>
    obtain rfl := h
    rfl
  | operand | operator | failed =>
    obtain ⟨n, rfl, hn⟩ := h
    rw [hsingle, hn]
    rfl
  | pair =>
    obtain ⟨op, n, rfl, -⟩ := h
    rfl

end Shapes

/-! ### The machine -/

/-- The stack of `parse`. -/
def Config.stack : Config → List AstNode
  | main stack | group stack _ | expression stack _ => stack

/-- The state of the automaton fits the stacks of the parser. -/
def Recognizer.Of : Recognizer → Config → Prop
  | .main s, .main stack => s.Of stack
  | .group s p, .group stack inner => s.Of stack ∧ p.Of inner
  | .expression s p, .expression stack inner => s.Of stack ∧ p.Of inner
  | _, _ => False

section Machine

variable {s : Shape} {p : Progress} {r : Recognizer} {c c' : Config} {stack inner : List AstNode}
  {errno errno' : Bool} {t : Token}

theorem dead_stepExpression (h : Dead stack)
    (hstep : Config.stepExpression errno stack inner t = some (c', errno')) : Dead c'.stack := by
  rw [Config.stepExpression] at hstep
  split_ifs at hstep
  · cases hs : stopNode inner t >>= complete stack with
    | error e => simp [hs, Except.toOption] at hstep
    | ok stack' =>
      obtain ⟨n, -, hn⟩ := Except.bind_eq_ok.mp hs
      simp only [hs, Except.toOption, Option.map_some, Option.some.injEq, Prod.mk.injEq] at hstep
      obtain ⟨rfl, -⟩ := hstep
      exact h.complete hn
  · obtain ⟨q, -, hq⟩ := Option.map_eq_some_iff.mp hstep
    cases hq
    exact h

theorem dead_stepGroup (h : Dead stack)
    (hstep : Config.stepGroup errno stack inner t = some (c', errno')) : Dead c'.stack := by
  rw [Config.stepGroup] at hstep
  split_ifs at hstep
  · obtain ⟨n, -, hn⟩ := Option.map_eq_some_iff.mp hstep
    cases hn
    exact h.push n
  · obtain ⟨q, -, hq⟩ := Option.map_eq_some_iff.mp hstep
    cases hq
    exact h

theorem Dead.step (h : Dead c.stack) (hstep : c.step errno t = some (c', errno')) :
    Dead c'.stack := by
  cases c with
  | main stack =>
    rw [Config.step] at hstep
    split at hstep
    · cases hstep
      exact h.push _
    · cases hstep
      exact h
    · exact dead_stepExpression h hstep
  | group stack inner => exact dead_stepGroup h hstep
  | expression stack inner => exact dead_stepExpression h hstep

theorem Dead.result {ts : List Token} (h : Dead c.stack) : c.result errno ts = none := by
  induction ts generalizing c errno with
  | nil =>
    cases c with
    | main stack => exact h.root?
    | group stack inner => rfl
    | expression stack inner =>
      rw [Config.result, Config.finish]
      cases hs : flatten inner >>= Parser.complete stack with
      | error e => rfl
      | ok stack' =>
        obtain ⟨n, -, hn⟩ := Except.bind_eq_ok.mp hs
        exact (h.complete hn).root?
  | cons t ts ih =>
    rw [Config.result]
    cases hstep : c.step errno t with
    | none => rfl
    | some q => exact ih (h.step hstep)

/-- Both go on to states that fit, or both stop, or the automaton stops and the stack is dead. -/
def Follows (r : Option Recognizer) (c : Option (Config × Bool)) : Prop :=
  (∃ r' c' errno', r = some r' ∧ c = some (c', errno') ∧ r'.Of c') ∨
    r = none ∧ ∀ c' errno', c = some (c', errno') → Dead c'.stack

theorem follows_push {f : Progress → Recognizer} {g : List AstNode → Config} (h : p.Of inner)
    (hfg : ∀ p' inner', p'.Of inner' → (f p').Of (g inner')) :
    Follows ((p.next t.kind).map f)
      ((pushToken errno inner t).toOption.map fun q => (g q.1, q.2)) := by
  have hnext : Option.Rel (fun q p' => p'.Of q.1) (pushToken errno inner t).toOption
      (p.next t.kind) := h.next
  revert hnext
  cases (pushToken errno inner t).toOption <;> cases p.next t.kind <;> rintro ⟨⟩
  · exact .inr ⟨rfl, nofun⟩
  · rename_i q p' hof
    exact .inl ⟨_, _, _, rfl, rfl, hfg _ _ hof⟩

/-- A node takes its place on the stack of `parse`. -/
theorem follows_complete (hs : s.Of stack) {x : Except ParseError AstNode} {r : Option Role}
    (hx : Option.Rel (fun n r => n.role = r) x.toOption r) :
    Follows ((r.bind s.complete).map .main)
      ((x >>= complete stack).toOption.map fun stack' => (.main stack', errno)) := by
  cases x with
  | error e =>
    cases hx
    exact .inr ⟨rfl, nofun⟩
  | ok n =>
    rcases hx with ⟨hrole⟩ | -
    show Follows ((s.complete _).map _) ((complete stack n).toOption.map _)
    rcases hs.complete hrole with ⟨s', stack', hs', hstack, hof⟩ | ⟨hnone, hdead⟩
    · rw [hs', hstack]
      exact .inl ⟨_, _, _, rfl, rfl, hof⟩
    · refine .inr ⟨by rw [hnone]; rfl, fun c' errno' hc => ?_⟩
      cases hn : complete stack n with
      | error e => simp [hn, Except.toOption] at hc
      | ok stack' =>
        rw [hn] at hc
        cases hc
        exact hdead stack' hn

theorem follows_push_main (hs : s.Of stack) {x : Except ParseError AstNode} {r : Option Role}
    (hx : Option.Rel (fun n r => n.role = r) x.toOption r) :
    Follows ((r.bind s.push).map .main)
      (x.toOption.map fun n => (.main (n :: stack), errno)) := by
  cases x with
  | error e =>
    cases hx
    exact .inr ⟨rfl, nofun⟩
  | ok n =>
    rcases hx with ⟨hrole⟩ | -
    show Follows ((s.push _).map _) _
    rcases hs.push hrole with ⟨s', hs', hof⟩ | ⟨hnone, hdead⟩
    · rw [hs']
      exact .inl ⟨_, _, _, rfl, rfl, hof⟩
    · refine .inr ⟨by rw [hnone]; rfl, fun c' errno' hc => ?_⟩
      cases hc
      exact hdead

theorem follows_stepExpression (hs : s.Of stack) (hp : p.Of inner) :
    Follows (Recognizer.stepExpression s p t) (Config.stepExpression errno stack inner t) := by
  rw [Recognizer.stepExpression, Config.stepExpression]
  split_ifs
  · exact follows_complete hs hp.stop
  · exact follows_push hp fun _ _ h => ⟨hs, h⟩

theorem follows_stepGroup (hs : s.Of stack) (hp : p.Of inner) :
    Follows (Recognizer.stepGroup s p t) (Config.stepGroup errno stack inner t) := by
  rw [Recognizer.stepGroup, Config.stepGroup]
  split_ifs
  · exact follows_push_main hs hp.stop_group
  · exact follows_push hp fun _ _ h => ⟨hs, h⟩

/-- One token. -/
theorem Recognizer.Of.step (h : r.Of c) : Follows (r.step t) (c.step errno t) := by
  cases r <;> cases c <;> first | exact h.elim | skip
  · rename_i s stack
    rw [Recognizer.step, Config.step]
    cases hk : t.kind with
    | logical op =>
      have hop : Option.Rel (fun n r => n.role = r)
          (Except.ok (.logicalOperator op) : Except ParseError AstNode).toOption (some .operator) :=
        .some rfl
      exact follows_push_main h hop
    | lparen => exact .inl ⟨_, _, _, rfl, rfl, h, rfl⟩
    | _ => exact follows_stepExpression h rfl
  · exact follows_stepGroup h.1 h.2
  · exact follows_stepExpression h.1 h.2

theorem Recognizer.Of.accepting (h : r.Of c) : c.finish.isSome = r.accepting := by
  cases r <;> cases c <;> first | exact h.elim | skip
  · exact Shape.Of.accepting h
  · rfl
  · rename_i s p stack inner
    -- The end of the tokens is the end of the expression.
    have hend : Follows ((p.role.bind s.complete).map .main)
        ((flatten inner >>= complete stack).toOption.map fun stack' => (.main stack', false)) :=
      follows_complete h.1 h.2.role
    rw [Config.finish, Recognizer.accepting]
    rcases hend with ⟨r', c', e, hr, hc, hof⟩ | ⟨hnone, hdead⟩
    · obtain ⟨s', hs', rfl⟩ := Option.map_eq_some_iff.mp hr
      obtain ⟨stack', hstack, heq⟩ := Option.map_eq_some_iff.mp hc
      cases heq
      rw [hs', hstack]
      exact Shape.Of.accepting hof
    · rw [Option.map_eq_none_iff.mp hnone]
      cases hstack : (flatten inner >>= complete stack).toOption with
      | none => rfl
      | some stack' =>
        rw [hstack] at hdead
        have hroot : Config.root? stack' = none := (hdead (.main stack') false rfl).root?
        rw [Option.bind_some, hroot]
        rfl

/-- The tokens that are left. -/
theorem Recognizer.Of.accepts (h : r.Of c) (ts : List Token) :
    (c.result errno ts).isSome = r.accepts ts := by
  induction ts generalizing r c errno with
  | nil => exact h.accepting
  | cons t ts ih =>
    rw [Config.result, Recognizer.accepts]
    have hfollows : Follows (r.step t) (c.step errno t) := h.step
    rcases hfollows with ⟨r', c', e, hr, hc, hof⟩ | ⟨hnone, hdead⟩
    · rw [hr, hc]
      exact ih hof
    · rw [hnone]
      cases hc : c.step errno t with
      | none => rfl
      | some q => simp [(hdead q.1 q.2 hc).result]

/-- **The automaton accepts what the parser accepts.** -/
theorem isError_parse (errno : Bool) (tokens : List Token) :
    (parse errno tokens).isError = false ↔ (Recognizer.main .empty).accepts tokens = true := by
  have hof : (Recognizer.main .empty).Of (.main []) := rfl
  have haccepts : (Config.result errno (.main []) tokens).isSome =
      (Recognizer.main .empty).accepts tokens := hof.accepts tokens
  rw [← haccepts, Option.isSome_iff_exists, RootNode.isError_eq_false_iff]
  exact exists_congr fun n => accepted_parse tokens n

end Machine

end WwivBasic.Parser
