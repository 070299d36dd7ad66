import Mathlib.Data.Nat.Basic
import WwivBasic.Core.Parser.Ast
import WwivBasic.Foundations.InfixTree

/-!
# Chains of factors

A condition without parentheses, `x₀ op₁ x₁ … opₙ xₙ`. The parser reduces an arithmetic operator
or a comparison as soon as a factor follows it, and the logical operators from the right at the
end: there are two levels, the first associating to the left and the second to the right. C has
five or six levels, all associating to the left.

## Main definitions

* `Chain`, `Chain.tokens`, `Chain.first`, `Chain.rest`: a chain, its tokens, and its factors and
  operators as they are read
* `groupFrom`, `TwoLevels`: the tree of the parser, and what it looks like
* `conventionalLevel`: the precedence of C

## Main results

* `parse_chain`: the tree of a chain, and when it is the one of C
-/

namespace WwivBasic.Parser

/-- `&&` and `||`. -/
def Operator.isLogical : Operator → Bool
  | .logicalAnd | .logicalOr => true
  | _ => false

theorem TokenType.isLogical_of_binary {t : TokenType} {op : Operator} (h : t.kind = .binary op) :
    op.isLogical = false := by
  cases t <;> cases h <;> rfl

theorem TokenType.isLogical_of_logical {t : TokenType} {op : Operator} (h : t.kind = .logical op) :
    op.isLogical = true := by
  cases t <;> cases h <;> rfl

/-- A token of a factor that is not empty. -/
structure Operand where
  token : Token
  isFactor : token.kind = .factor
  nonempty : token.lexeme ≠ []

/-- A token of an operator other than the assignment. -/
structure Infix where
  token : Token
  op : Operator
  isOperator : token.kind = .binary op ∨ token.kind = .logical op

/-- `x₀ op₁ x₁ … opₙ xₙ`. -/
structure Chain where
  head : Operand
  tail : List (Infix × Operand)

namespace Chain

/-- The tokens after the first factor. -/
def tailTokens (tail : List (Infix × Operand)) : List Token :=
  tail.flatMap fun p => [p.1.token, p.2.token]

/-- The tokens of a chain. -/
def tokens (c : Chain) : List Token := c.head.token :: tailTokens c.tail

/-- The operators and factors that are created after the first factor, from an `errno` on. -/
def readTail (errno : Bool) : List (Infix × Operand) → List (Operator × Factor)
  | [] => []
  | p :: tail =>
    let factor := createFactor errno p.2.token
    (p.1.op, factor.1) :: readTail factor.2 tail

/-- The first factor. -/
def first (c : Chain) (errno : Bool) : Factor := (createFactor errno c.head.token).1

/-- The operators, each with the factor after it. -/
def rest (c : Chain) (errno : Bool) : List (Operator × Factor) :=
  readTail (createFactor errno c.head.token).2 c.tail

/-- The operators. -/
def ops (c : Chain) : List Operator := c.tail.map fun p => p.1.op

theorem map_fst_readTail (errno : Bool) (tail : List (Infix × Operand)) :
    (readTail errno tail).map Prod.fst = tail.map fun p => p.1.op := by
  induction tail generalizing errno with
  | nil => rfl
  | cons p tail ih => simp [readTail, ih]

theorem map_fst_rest (c : Chain) (errno : Bool) : (c.rest errno).map Prod.fst = c.ops :=
  map_fst_readTail _ _

end Chain

/-- The expression of a tree. -/
def treeExpression : InfixTree Operator Factor → Expression
  | .operand f => .factor f
  | .node op left right => .binary (treeExpression left) op (treeExpression right)

/-- The tree of the rest of a chain after a tree without logical operators. -/
def groupFrom (cur : InfixTree Operator Factor) :
    List (Operator × Factor) → InfixTree Operator Factor
  | [] => cur
  | (op, x) :: rest =>
    if op.isLogical then .node op cur (groupFrom (.operand x) rest)
    else groupFrom (.node op cur (.operand x)) rest

/-! ## What the parser builds -/

/-- Logical operators that wait for the expression after them, innermost first, each with the
expression before it. -/
def pendingStack (ps : List (Operator × Expression)) : List AstNode :=
  ps.flatMap fun p => [.logicalOperator p.1, .expression p.2]

/-- The expression that the waiting operators make of the last one. -/
def close (ps : List (Operator × Expression)) (e : Expression) : Expression :=
  ps.foldl (fun e p => .binary p.2 p.1 e) e

theorem flattenTop_pendingStack (ps : List (Operator × Expression)) (e : Expression) :
    flattenTop (.expression e) (pendingStack ps) = .ok (.expression (close ps e)) := by
  induction ps generalizing e with
  | nil => rfl
  | cons p ps ih => exact ih (.binary p.2 p.1 e)

/-- The rest of a chain is read after a tree and the operators that wait for it. -/
theorem parseExpression_tail (errno : Bool) (cur : InfixTree Operator Factor)
    (ps : List (Operator × Expression)) (tail : List (Infix × Operand)) :
    ∃ errno', parseExpression errno (.expression (treeExpression cur) :: pendingStack ps)
        (Chain.tailTokens tail) =
      .ok (.expression (close ps (treeExpression (groupFrom cur (Chain.readTail errno tail)))),
        [], errno') := by
  induction tail generalizing errno cur ps with
  | nil =>
    refine ⟨errno, ?_⟩
    rw [Chain.tailTokens, List.flatMap_nil, parseExpression_nil, flatten, flattenTop_pendingStack]
    rfl
  | cons p tail ih =>
    obtain ⟨⟨o, op, hop⟩, ⟨x, hx, hne⟩⟩ := p
    simp only [Chain.tailTokens, List.flatMap_cons, List.cons_append, List.nil_append,
      Chain.readTail, groupFrom]
    rcases hop with hop | hop
    -- The factor completes a comparison or an arithmetic operator.
    · obtain ⟨errno', h⟩ := ih (createFactor errno x).2
        (.node op cur (.operand (createFactor errno x).1)) ps
      refine ⟨errno', ?_⟩
      rw [parseExpression_binary hop, parseExpression_complete hx hne,
        if_neg (by simp [TokenType.isLogical_of_binary hop])]
      exact h
    -- A logical operator waits until the end.
    · obtain ⟨errno', h⟩ := ih (createFactor errno x).2 (.operand (createFactor errno x).1)
        ((op, treeExpression cur) :: ps)
      refine ⟨errno', ?_⟩
      rw [parseExpression_logical hop, parseExpression_push hx hne rfl,
        if_pos (TokenType.isLogical_of_logical hop)]
      exact h

theorem parse_tokens (c : Chain) (errno : Bool) : parse errno c.tokens =
    .node (.expression (treeExpression (groupFrom (.operand (c.first errno)) (c.rest errno)))) := by
  have hk := c.head.isFactor
  obtain ⟨errno', h⟩ := parseExpression_tail (createFactor errno c.head.token).2
    (.operand (c.first errno)) [] c.tail
  have hexpr : parseExpression errno [] c.tokens = .ok (.expression
      (treeExpression (groupFrom (.operand (c.first errno)) (c.rest errno))), [], errno') := by
    rw [Chain.tokens, parseExpression_push hk c.head.nonempty rfl]
    exact h
  unfold parse
  rw [Chain.tokens] at hexpr ⊢
  rw [List.length_cons, parseLoop_expression (by simp [hk]) (by simp [hk]), hexpr]
  cases hn : (Chain.tailTokens c.tail).length <;> rfl

/-! ## Two levels, and the levels of C -/

/-- An arithmetic operator or a comparison has a factor to the right, and no logical operator to
the left; a logical operator has no logical operator to the left. -/
def TwoLevels : InfixTree Operator Factor → Prop
  | .operand _ => True
  | .node op left right =>
    (∀ x ∈ left.ops, x.isLogical = false) ∧ (op.isLogical = false → right.ops = []) ∧
      TwoLevels left ∧ TwoLevels right

/-- The precedence of C, in which `<`, `<=`, `>` and `>=` bind tighter than `==` and `!=` when
`split` is set, and as tight when it is not. -/
def conventionalLevel (split : Bool) : Operator → ℕ
  | .mul | .div => 6
  | .add | .sub => 5
  | .lt | .le | .gt | .ge => if split then 4 else 3
  | .eq | .ne => 3
  | .logicalAnd => 2
  | .logicalOr => 1

variable {split : Bool} {op : Operator} {cur : InfixTree Operator Factor}

theorem conventionalLevel_of_isLogical (split : Bool) (h : op.isLogical = true) :
    conventionalLevel split op ≤ 2 := by
  cases op <;> simp_all [Operator.isLogical, conventionalLevel]

theorem le_conventionalLevel (split : Bool) (h : op.isLogical = false) :
    3 ≤ conventionalLevel split op := by
  cases op <;> cases split <;> simp_all [Operator.isLogical, conventionalLevel]

/-- In every run of operators without a logical one, none binds tighter than one before it; and
every logical operator binds looser than those after it. -/
def Conventional (split : Bool) (ops : List Operator) : Prop :=
  (∀ run ∈ ops.splitOnP Operator.isLogical,
    run.Pairwise fun x y => conventionalLevel split y ≤ conventionalLevel split x) ∧
  (ops.filter Operator.isLogical).Pairwise fun x y =>
    conventionalLevel split x < conventionalLevel split y

@[simp] theorem first_groupFrom (rest : List (Operator × Factor)) :
    (groupFrom cur rest).first = cur.first := by
  induction rest generalizing cur with
  | nil => rfl
  | cons p rest ih =>
    rw [groupFrom]
    split_ifs
    · rfl
    · exact ih

@[simp] theorem rest_groupFrom (rest : List (Operator × Factor)) :
    (groupFrom cur rest).rest = cur.rest ++ rest := by
  induction rest generalizing cur with
  | nil => simp [groupFrom]
  | cons p rest ih =>
    rw [groupFrom]
    split_ifs <;> simp [InfixTree.rest, InfixTree.first, ih]

theorem ops_groupFrom (rest : List (Operator × Factor)) :
    (groupFrom cur rest).ops = cur.ops ++ rest.map Prod.fst := by
  simp [InfixTree.ops_eq]

theorem twoLevels_groupFrom (rest : List (Operator × Factor)) (h : TwoLevels cur)
    (hcur : ∀ x ∈ cur.ops, x.isLogical = false) : TwoLevels (groupFrom cur rest) := by
  induction rest generalizing cur with
  | nil => exact h
  | cons p rest ih =>
    rw [groupFrom]
    split_ifs with hop
    · exact ⟨hcur, by simp [hop], h, ih trivial (by simp [InfixTree.ops])⟩
    · refine ih ⟨hcur, fun _ => rfl, h, trivial⟩ ?_
      simpa [InfixTree.ops, or_imp, forall_and, hop] using hcur

/-- Operators without a logical one are a single run. -/
theorem conventional_run {ops : List Operator} (h : ∀ x ∈ ops, x.isLogical = false) :
    Conventional split ops ↔
      ops.Pairwise fun x y => conventionalLevel split y ≤ conventionalLevel split x := by
  have hfilter : ops.filter Operator.isLogical = [] := by simpa using h
  simp [Conventional, List.splitOnP_eq_singleton h, hfilter]

/-- The first logical operator ends the first run. -/
theorem conventional_append {run ops : List Operator} (h : ∀ x ∈ run, x.isLogical = false)
    (hop : op.isLogical = true) : Conventional split (run ++ op :: ops) ↔
      Conventional split run ∧
        (∀ y ∈ ops, conventionalLevel split op < conventionalLevel split y) ∧
        Conventional split ops := by
  have hfilter : run.filter Operator.isLogical = [] := by simpa using h
  -- Only the logical operators can be as loose as a logical one.
  have hops : (∀ y ∈ ops.filter Operator.isLogical,
      conventionalLevel split op < conventionalLevel split y) ↔
        ∀ y ∈ ops, conventionalLevel split op < conventionalLevel split y := by
    refine ⟨fun hlt y hy => ?_, fun hlt y hy => hlt y (List.mem_of_mem_filter hy)⟩
    by_cases hl : y.isLogical = true
    · exact hlt y (List.mem_filter.mpr ⟨hy, hl⟩)
    · have h3 := le_conventionalLevel split (Bool.not_eq_true _ ▸ hl)
      have h2 := conventionalLevel_of_isLogical split hop
      omega
  rw [conventional_run h]
  simp only [Conventional, List.splitOnP_append_cons_of_forall_mem h op hop, List.filter_append,
    hfilter, List.nil_append, List.filter_cons_of_pos hop, List.pairwise_cons, hops,
    List.forall_mem_cons]
  tauto

/-- The tree of the parser respects the levels of C exactly when its operators are conventional. -/
theorem respects_groupFrom (cur : InfixTree Operator Factor) (rest : List (Operator × Factor))
    (hcur : ∀ x ∈ cur.ops, x.isLogical = false)
    (hrun : cur.Respects (conventionalLevel split) ↔ Conventional split cur.ops) :
    (groupFrom cur rest).Respects (conventionalLevel split) ↔
      Conventional split (cur.ops ++ rest.map Prod.fst) := by
  induction rest generalizing cur with
  | nil => simpa [groupFrom] using hrun
  | cons p rest ih =>
    obtain ⟨op, x⟩ := p
    rw [groupFrom, List.map_cons]
    split_ifs with hop
    -- A logical operator: the run before it is its left operand.
    · have hright := ih (.operand x) (by simp [InfixTree.ops])
        (by simp [InfixTree.Respects, InfixTree.ops, conventional_run])
      have hleft : ∀ y ∈ cur.ops, conventionalLevel split op ≤ conventionalLevel split y := by
        intro y hy
        have h3 := le_conventionalLevel split (hcur y hy)
        have h2 := conventionalLevel_of_isLogical split hop
        omega
      rw [InfixTree.Respects, hright, hrun, ops_groupFrom, conventional_append hcur hop]
      simp only [InfixTree.ops, List.nil_append]
      exact and_iff_right hleft |>.trans and_left_comm
    -- Any other operator goes on with the run.
    · have hcur' : ∀ y ∈ cur.ops ++ [op], y.isLogical = false := by
        simpa [or_imp, forall_and, hop] using hcur
      have hnode := ih (.node op cur (.operand x)) hcur' (by
        rw [InfixTree.Respects, hrun, conventional_run hcur]
        simp only [InfixTree.ops, InfixTree.Respects, conventional_run hcur', List.pairwise_append,
          List.pairwise_singleton, List.forall_mem_singleton, List.not_mem_nil, false_imp_iff,
          implies_true, true_and, and_true]
        exact and_comm)
      simpa [InfixTree.ops] using hnode

/-- **The tree of a chain.** It has two levels: the arithmetic operators and the comparisons
associate to the left, and the logical operators, which bind looser, to the right. It is the tree
of C exactly when the operators are conventional. -/
theorem parse_chain (c : Chain) (errno split : Bool) :
    ∃ t, parse errno c.tokens = .node (.expression (treeExpression t)) ∧
      t.first = c.first errno ∧ t.rest = c.rest errno ∧ TwoLevels t ∧
      (t = .parse (conventionalLevel split) (c.first errno) (c.rest errno) ↔
        Conventional split c.ops) := by
  refine ⟨groupFrom (.operand (c.first errno)) (c.rest errno), parse_tokens c errno,
    first_groupFrom _, rest_groupFrom _, twoLevels_groupFrom _ trivial (by simp [InfixTree.ops]),
    ?_⟩
  rw [InfixTree.eq_parse_iff, respects_groupFrom _ _ (by simp [InfixTree.ops])
    (by simp [InfixTree.Respects, InfixTree.ops, conventional_run]), Chain.map_fst_rest]
  exact and_iff_left ⟨first_groupFrom _, rest_groupFrom _⟩

/-- `1 + 2 * 3`. -/
def sumThenProduct : Chain where
  head := ⟨⟨.number, ['1'], 0⟩, rfl, by simp⟩
  tail := [(⟨⟨.add, [], 2⟩, .add, .inl rfl⟩, ⟨⟨.number, ['2'], 4⟩, rfl, by simp⟩),
    (⟨⟨.mul, [], 6⟩, .mul, .inl rfl⟩, ⟨⟨.number, ['3'], 8⟩, rfl, by simp⟩)]

/-- The parser makes `(1 + 2) * 3` of `1 + 2 * 3`, and the tree of C is `1 + (2 * 3)`. -/
theorem parse_sumThenProduct :
    parse false sumThenProduct.tokens =
        .node (.expression (.binary (.binary (.factor (.number 1)) .add (.factor (.number 2))) .mul
          (.factor (.number 3)))) ∧
      treeExpression (.parse (conventionalLevel false) (sumThenProduct.first false)
          (sumThenProduct.rest false)) =
        .binary (.factor (.number 1)) .add
          (.binary (.factor (.number 2)) .mul (.factor (.number 3))) ∧
      treeExpression (.parse (conventionalLevel true) (sumThenProduct.first false)
          (sumThenProduct.rest false)) =
        .binary (.factor (.number 1)) .add
          (.binary (.factor (.number 2)) .mul (.factor (.number 3))) := by
  decide

end WwivBasic.Parser
