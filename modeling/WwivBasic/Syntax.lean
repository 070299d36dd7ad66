import WwivBasic.Core.Strings

/-!
# Parse trees of `BasicParser.g4`

The trees the two visitors walk, one constructor for each alternative of the grammar. A tree
keeps the text of the `ID`, `INT` and `STRING` tokens that a visitor reads; keywords, line
breaks and punctuation are not kept. An optional list of the grammar is the empty list when
it is absent, since a list that is present has at least one element.

## Main definitions

* `Expr`, `Stmt`: the alternatives of `expr` and `statement`
* `ProcedureDefinition`, `Item`: the alternatives of `main`
-/

namespace WwivBasic

/-- `relationaloperator`. -/
inductive RelationalOperator
  | eq | ne | lt | le | ge | gt
  deriving DecidableEq

/-- `multiplicativeoperator`. -/
inductive MultiplicativeOperator
  | star | slash | mod | and
  deriving DecidableEq

/-- `additiveoperator`. -/
inductive AdditiveOperator
  | plus | minus | or
  deriving DecidableEq

/-- `expr`. -/
inductive Expr
  | relation (op : RelationalOperator) (left right : Expr)
  | mulDiv (op : MultiplicativeOperator) (left right : Expr)
  | addSub (op : AdditiveOperator) (left right : Expr)
  /-- `procedureCall`, with the expressions of its `parameterList`. -/
  | procCall (procedureName : Str) (parameterList : List Expr)
  | parens (expr : Expr)
  | ident (rvalue : Str)
  | int (text : Str)
  /-- The text of a `STRING` token has its quotes. -/
  | string (text : Str)
  | boolean (value : Bool)

/-- `statement`, with the alternatives of `assignmentStatement` and `ifStatement`. -/
inductive Stmt
  /-- `lvalue EQ rvalue NEWLINE`, the alternative chosen for a bare name on the right. -/
  | assignRvalue (lvalue rvalue : Str)
  | assignExpr (lvalue : Str) (expr : Expr)
  | ifThen (cond : Expr) (statements : List Stmt)
  | ifThenElse (cond : Expr) (statements otherwise : List Stmt)
  /-- The `ELSEIF` clauses, each with its condition, and the mandatory `ELSE`. -/
  | ifThenElseIfElse (cond : Expr) (statements : List Stmt) (elseIfs : List (Expr × List Stmt))
      (otherwise : List Stmt)
  | forStatement (id : Str) (start stop : Expr) (step : Option Str) (statements : List Stmt)
  | procedureCall (procedureName : Str) (parameterList : List Expr)
  | returnStatement (expr : Expr)
  | emptyStatement

/-- `procedureDefinition`, with the names of its `parameterDefinitionList`. -/
structure ProcedureDefinition where
  procedureName : Str
  parameterDefinitionList : List Str
  statements : List Stmt

/-- The items of `main`. -/
inductive Item
  | statement (stmt : Stmt)
  | procedureDefinition (definition : ProcedureDefinition)
  /-- `IMPORT AT ID NEWLINE`. -/
  | importModule (id : Str)
  /-- `IMPORT STRING NEWLINE`. -/
  | importFile (text : Str)
  | moduleDefinition (text : Str)

end WwivBasic
