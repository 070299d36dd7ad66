import Mathlib.Data.Nat.Basic
import WwivBasic.Executor
import WwivBasic.Foundations.InfixTree

/-!
# Precedence

The first three alternatives of `expr` in `BasicParser.g4` are left-recursive, with a binary
operator. ANTLR lets the alternative that is listed first bind tightest, and associates each to
the left. `Relation` is listed before `MulDiv`, which has `AND` among its operators, and
`AddSub`, which has `OR`; conventional BASIC has the arithmetic above the relational operators,
and `AND` and `OR` below them.

## Main definitions

* `BinaryOperator`, `Operand`: the tokens of an expression without parentheses and calls
* `grammarLevel`, `basicLevel`: the precedence of the grammar, and that of conventional BASIC
* `exprOf level`: the `expr` of a chain of operands

## Main results

* `exprOf_eq_iff`: the expressions on which the two agree
-/

namespace WwivBasic

/-- The operators of the alternatives of `expr` that have one. -/
inductive BinaryOperator
  | relation (op : RelationalOperator)
  | mulDiv (op : MultiplicativeOperator)
  | addSub (op : AdditiveOperator)
  deriving DecidableEq

/-- The operands of an expression without parentheses, calls and `TRUE` or `FALSE`. -/
inductive Operand
  | int (text : Str)
  | string (text : Str)
  | ident (rvalue : Str)
  deriving DecidableEq

/-- The position of the alternative in `expr`. -/
def BinaryOperator.alternative : BinaryOperator → ℕ
  | .relation _ => 1
  | .mulDiv _ => 2
  | .addSub _ => 3

/-- The precedence that ANTLR gives to the operators, from the nine alternatives of `expr`. -/
def grammarLevel (op : BinaryOperator) : ℕ := 9 + 1 - op.alternative

/-- The precedence of conventional BASIC: `*`, `/`, `MOD`, then `+`, `-`, then the relational
operators, then `AND`, then `OR`. -/
def basicLevel : BinaryOperator → ℕ
  | .mulDiv .star | .mulDiv .slash | .mulDiv .mod => 5
  | .addSub .plus | .addSub .minus => 4
  | .relation _ => 3
  | .mulDiv .and => 2
  | .addSub .or => 1

def Operand.toExpr : Operand → Expr
  | .int text => .int text
  | .string text => .string text
  | .ident rvalue => .ident rvalue

def BinaryOperator.toExpr (left right : Expr) : BinaryOperator → Expr
  | .relation op => .relation op left right
  | .mulDiv op => .mulDiv op left right
  | .addSub op => .addSub op left right

/-- The `expr` node of a tree. -/
def treeExpr : InfixTree BinaryOperator Operand → Expr
  | .operand a => a.toExpr
  | .node op left right => op.toExpr (treeExpr left) (treeExpr right)

/-- The `expr` that a precedence makes of a chain of operands. -/
def exprOf (level : BinaryOperator → ℕ) (first : Operand)
    (rest : List (BinaryOperator × Operand)) : Expr :=
  treeExpr (.parse level first rest)

/-- An `expr` node shows the tree it was made from. -/
theorem treeExpr_injective : Function.Injective treeExpr := by
  intro t t' h
  induction t generalizing t' with
  | operand a =>
    cases t' with
    | operand a' =>
      cases a <;> cases a' <;> simp_all [treeExpr, Operand.toExpr]
    | node op' left' right' =>
      cases a <;> cases op' <;> cases h
  | node op left right ihl ihr =>
    cases t' with
    | operand a' =>
      cases op <;> cases a' <;> cases h
    | node op' left' right' =>
      -- The kind of the node and its operator tell the operator of the tree.
      have hroot : op = op' ∧ treeExpr left = treeExpr left' ∧
          treeExpr right = treeExpr right' := by
        cases op <;> cases op' <;> simp_all [treeExpr, BinaryOperator.toExpr]
      obtain ⟨rfl, hl, hr⟩ := hroot
      rw [ihl hl, ihr hr]

/-- **The grammar groups an expression as conventional BASIC does exactly when any two operators
that the two orders compare differently are kept apart by one between them**: one that is, in
BASIC, not tighter than the first and looser than the second. -/
theorem exprOf_eq_iff (first : Operand) (rest : List (BinaryOperator × Operand)) :
    exprOf grammarLevel first rest = exprOf basicLevel first rest ↔
      InfixTree.Agree basicLevel grammarLevel (rest.map Prod.fst) :=
  treeExpr_injective.eq_iff.trans InfixTree.parse_eq_iff

/-- The condition of `bas/if.bas`: `a = 20 and 1 = 1`. -/
example : exprOf grammarLevel (.ident ['a']) [(.relation .eq, .int ['2', '0']),
      (.mulDiv .and, .int ['1']), (.relation .eq, .int ['1'])] =
    .mulDiv .and (.relation .eq (.ident ['a']) (.int ['2', '0']))
      (.relation .eq (.int ['1']) (.int ['1'])) := rfl

/-- `a + b = c` adds a comparison, and `1 + 2 = 3` is the number 1. -/
theorem sum_not_compared :
    exprOf grammarLevel (.ident ['a'])
        [(.addSub .plus, .ident ['b']), (.relation .eq, .ident ['c'])] ≠
      exprOf basicLevel (.ident ['a'])
        [(.addSub .plus, .ident ['b']), (.relation .eq, .ident ['c'])] ∧
    (exprOf basicLevel (.ident ['a'])
        [(.addSub .plus, .ident ['b']), (.relation .eq, .ident ['c'])] =
      .relation .eq (.addSub .plus (.ident ['a']) (.ident ['b'])) (.ident ['c'])) := by
  constructor
  · exact fun h => nomatch h
  · rfl

end WwivBasic
