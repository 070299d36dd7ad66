import WwivBasic.Machine

/-!
# `ExecutionVisitor`

`src/executor.cpp`, with `Module::call` and `Context::call` of `src/context.cpp`. The visitor
methods call each other through `visit`, on the subtrees of the program and, at a call, on the
statements of the procedure; they take that `visit` as an argument of type `Visitor`, as
`Module::call` takes the `ExecutionVisitor*`. `visitor n` ties the knot, for runs whose
nested visits and loop iterations are at most `n` deep.

A method that the generated base class supplies visits the children of a node in order and
returns what the last of them returned; a terminal returns an empty `any`.

## Main definitions

* `Visitor`, `visitor`: the recursive visits, and the visitor itself
* `visitExpr`, `visitStatement`, `visitStatements`: the methods by the node they visit
* `Module.call`, `Context.call`: calls
* `visitMain`: a whole program
-/

namespace WwivBasic

/-- What is fixed while a `FOR` iterates: where its variable lives, its last value, the step and
the body. -/
structure ForLoop where
  /-- The module and the position of the scope that holds the variable. -/
  owner : Str
  position : ℕ
  varname : Str
  stop : Value
  step : Int32
  statements : List Stmt

/-- The visits a visitor method makes. -/
structure Visitor where
  expr : Expr → Eval AnyVal
  statements : List Stmt → Eval AnyVal
  /-- The iterations of a `FOR` from a current value on. -/
  iterate : ForLoop → Int32 → Eval Unit

/-! ## Calls -/

/-- The scope of a call, with the parameters bound to the arguments. -/
def bindParams (fnscope : Scope) : List Str → List Value → Scope
  | n :: ns, v :: vs => bindParams (fnscope.insertOrAssign n v) ns vs
  | _, _ => fnscope

/-- `scopes.push_back(fnscope)`. -/
def pushScope (owner : Str) (fnscope : Scope) : Eval Unit :=
  modify (Machine.pushScope · owner fnscope)

/-- `scopes.pop_back()`. -/
def popScope (owner : Str) : Eval Unit :=
  modify (Machine.popScope · owner)

/-- The body of a BASIC procedure is visited, and its result made a `Value`. -/
def runBody (visitor : Visitor) (self functionName : Str) (defFn : ProcedureDefinition)
    (params : List Value) : Eval Value := do
  modify (Machine.openBlock · (.call self functionName))
  note (.enter functionName params)
  let a ← visitor.statements defFn.statements
  note .bodyEnd
  modify Machine.closeBlock
  makeValue a

/-- A native function is run. -/
def runNative (functionName : Str) (cppFn : NativeFn) (params : List Value) : Eval Value := do
  note (.native functionName params)
  readStrings (cppFn.converted params)
  lift ((cppFn params).mapError .native)

/-- `Module::call` of the module at a key. -/
def Module.call (visitor : Visitor) (self functionName : Str) (params : List Value) :
    Eval Value := do
  match ((← get).ec.moduleAt self).functions.find? functionName with
  -- An unknown function is reported, and has the value `false`.
  | none => return Value.ofBool false
  | some fn =>
    match fn.body with
    | .basic defFn =>
      -- Arguments are counted for BASIC procedures only.
      if params.length ≠ fn.params.length then return Value.ofBool false
      pushScope self (bindParams ⟨functionName, ∅⟩ fn.params params)
      let result ← runBody visitor self functionName defFn params
      print result
      popScope self
      note (.leave result)
      return result
    | .native cppFn =>
      pushScope self ⟨functionName, ∅⟩
      let result ← runNative functionName cppFn params
      print result
      popScope self
      note (.leave result)
      return result

/-- `Context::call`. -/
def Context.call (visitor : Visitor) (functionName : Str) (params : List Value) :
    Eval Value := do
  let ec := (← get).ec
  let split := splitPackageFromId functionName
  if split.1 ≠ [] then
    if ec.modules.contains split.1 then Module.call visitor split.1 split.2 params
    -- A call into a package that is not there has the value `false` as well.
    else return Value.ofBool false
  else if !(ec.moduleAt ec.module).hasFn functionName &&
      (ec.moduleAt ec.root).hasFn functionName then
    Module.call visitor ec.root functionName params
  else Module.call visitor ec.module functionName params

/-! ## Expressions -/

/-- The operand `Value(visit(expr))`. -/
def visitOperand (v : Visitor) (e : Expr) : Eval Value := do
  makeValue (← v.expr e)

def visitParameterList (v : Visitor) : List Expr → Eval (List Value)
  | [] => return []
  | e :: es => do
    let value ← visitOperand v e
    let values ← visitParameterList v es
    return value :: values

def visitProcedureCall (v : Visitor) (procedureName : Str) (parameterList : List Expr) :
    Eval AnyVal := do
  let params ← visitParameterList v parameterList
  let val ← Context.call v procedureName params
  -- Whether or not the procedure has executed a `RETURN`.
  modify (Machine.setReturn · false)
  lift val.toAny

/-- The `switch` of `visitRelation`. -/
def evalRelation (left right : Value) : RelationalOperator → Except Fault Bool
  | .gt => left.gt right
  | .ge => do
    if ← left.beq right then return true
    left.gt right
  | .lt => left.lt right
  | .le => do
    if ← left.beq right then return true
    left.lt right
  | .ne => left.bne right
  | .eq => left.beq right

def visitRelation (v : Visitor) (op : RelationalOperator) (e₀ e₁ : Expr) : Eval AnyVal := do
  let left ← visitOperand v e₀
  let right ← visitOperand v e₁
  readStrings (left.convertedWith right)
  let result ← lift (evalRelation left right op)
  print left
  print right
  return .bool result

/-- The `switch` of `visitMulDiv`. -/
def evalMulDiv (left right : Value) : MultiplicativeOperator → Except Fault Value
  | .star => left.mul right
  | .slash => left.div right
  | .mod => left.mod right
  | .and => left.land right

/-- The texts that it converts. -/
def convertedByMulDiv (left right : Value) : MultiplicativeOperator → List Str
  | .star | .slash | .mod => left.convertedWith right
  | .and => left.convertedByLand right

/-- The `switch` of `visitAddSub`. -/
def evalAddSub (left right : Value) : AdditiveOperator → Except Fault Value
  | .plus => left.add right
  | .minus => left.sub right
  | .or => left.lor right

/-- The texts that it converts. -/
def convertedByAddSub (left right : Value) : AdditiveOperator → List Str
  | .plus | .minus => left.convertedWith right
  | .or => left.convertedByLor right

/-- What `visitMulDiv` and `visitAddSub` share: two operands, a `switch` on the operator, the
printed trace and the result as an `any`. -/
def visitBinary (v : Visitor) (eval : Value → Value → Except Fault Value)
    (converted : Value → Value → List Str) (e₀ e₁ : Expr) : Eval AnyVal := do
  let left ← visitOperand v e₀
  let right ← visitOperand v e₁
  readStrings (converted left right)
  let result ← lift (eval left right)
  print left
  print right
  print result
  lift result.toAny

def visitMulDiv (v : Visitor) (op : MultiplicativeOperator) (e₀ e₁ : Expr) : Eval AnyVal :=
  visitBinary v (fun left right => evalMulDiv left right op)
    (fun left right => convertedByMulDiv left right op) e₀ e₁

def visitAddSub (v : Visitor) (op : AdditiveOperator) (e₀ e₁ : Expr) : Eval AnyVal :=
  visitBinary v (fun left right => evalAddSub left right op)
    (fun left right => convertedByAddSub left right op) e₀ e₁

/-- `visitRvalue`, which `visitIdent` calls. -/
def visitRvalue (name : Str) : Eval AnyVal := do
  note (.ident name)
  match ← readVar name with
  | some var => lift var.value_.toAny
  | none => return .empty

/-- `visitParens` visits the first child of the node, which is the parenthesis itself. -/
def visitParens (_expr : Expr) : Eval AnyVal := do
  note .parens
  return .empty

def visitInt (text : Str) : Eval AnyVal := do
  return .int (← toNumberInt .int text)

def visitExpr (v : Visitor) : Expr → Eval AnyVal
  | .relation op e₀ e₁ => visitRelation v op e₀ e₁
  | .mulDiv op e₀ e₁ => visitMulDiv v op e₀ e₁
  | .addSub op e₀ e₁ => visitAddSub v op e₀ e₁
  | .procCall procedureName parameterList => visitProcedureCall v procedureName parameterList
  | .parens e => visitParens e
  | .ident name => visitRvalue name
  | .int text => visitInt text
  | .string text => return .string (removeQuotes text)
  | .boolean b => return .bool b

/-! ## Statements -/

/-- `std::any_cast<bool>(visit(expr))`. -/
def visitCondition (v : Visitor) (e : Expr) : Eval Bool := do
  match ← v.expr e with
  | .bool b => return b
  | _ => throw .badAnyCast

/-- The `expr` alternative of `visitAssignmentStatement`. -/
def visitAssignExpr (v : Visitor) (lvalue : Str) (e : Expr) : Eval AnyVal := do
  let value ← visitOperand v e
  print value
  note (.assign lvalue value)
  Context.upsert lvalue value
  return .empty

/-- The `rvalue` alternative of `visitAssignmentStatement`. -/
def visitAssignRvalue (lvalue rvalue : Str) : Eval AnyVal := do
  match ← readVar rvalue with
  | some var => do
    print var.value_
    note (.assign lvalue var.value_)
    Context.upsert lvalue var.value_
    return .empty
  -- A name that is not bound assigns nothing.
  | none => return .empty

def visitIfThenStatement (v : Visitor) (e : Expr) (statements : List Stmt) : Eval AnyVal := do
  if ← visitCondition v e then v.statements statements else return .empty

def visitIfThenElseStatement (v : Visitor) (e : Expr) (statements otherwise : List Stmt) :
    Eval AnyVal := do
  if ← visitCondition v e then v.statements statements else v.statements otherwise

/-- The conditions of the `IF` and its `ELSEIF`s in order, then the `ELSE`. -/
def visitIfThenElseIfElseStatement (v : Visitor) (otherwise : List Stmt) :
    List (Expr × List Stmt) → Eval AnyVal
  | [] => v.statements otherwise
  | (e, statements) :: clauses => do
    if ← visitCondition v e then v.statements statements
    else visitIfThenElseIfElseStatement v otherwise clauses

/-- `var.value().set(i)` through the reference `var` into the `FOR` scope. -/
def setLoopVar (loop : ForLoop) (i : Int32) : Eval Unit :=
  modify (Machine.setVarAt · loop.owner loop.position loop.varname i)

/-- `var.value()`. -/
def getLoopVar (loop : ForLoop) : Eval Value := do
  let sc := ((← get).ec.scopes loop.owner)[loop.position]?
  return (sc.bind fun sc => sc.value? loop.varname).getD Value.default

/-- `for (int current = ...; current != end.toInt(); current += step) { ... }`. -/
def iterateFor (v : Visitor) (loop : ForLoop) (current : Int32) : Eval Unit := do
  let stop ← toIntOf loop.stop
  if current = stop then return
  setLoopVar loop current
  let _ ← v.statements loop.statements
  -- The body may have assigned the variable.
  let current ← toIntOf (← getLoopVar loop)
  let next ← lift (Value.checkedInt (current.toInt + loop.step.toInt))
  v.iterate loop next

/-- The text `FOR `, before the variable in the name of the scope of a `FOR`. -/
def forText : Str := ['F', 'O', 'R', ' ']

/-- The iterations of a `FOR`, and its last visit of the body, at `end`. -/
def runLoop (v : Visitor) (loop : ForLoop) (start : Value) : Eval Unit := do
  iterateFor v loop (← toIntOf start)
  setLoopVar loop (← toIntOf loop.stop)
  let _ ← v.statements loop.statements
  return

/-- `steptoken ? to_number<int>(ctx->INT()->getText()) : 1`. -/
def forStep : Option Str → Eval Int32
  | some text => toNumberInt .step text
  | none => return 1

def visitForStatement (v : Visitor) (id : Str) (e₀ e₁ : Expr) (step : Option Str)
    (statements : List Stmt) : Eval AnyVal := do
  let step ← forStep step
  let start ← visitOperand v e₀
  let stop ← visitOperand v e₁
  let ec := (← get).ec
  -- The scope of the variable is the next one of the current module.
  let loop : ForLoop := ⟨ec.module, (ec.scopes ec.module).length, id, stop, step, statements⟩
  note (.loopVar id)
  pushScope loop.owner (Scope.insertOrAssign ⟨forText ++ id, ∅⟩ id start)
  modify (Machine.openBlock · (.loop id))
  runLoop v loop start
  modify Machine.closeBlock
  popScope loop.owner
  return .empty

def visitReturnStatement (v : Visitor) (e : Expr) : Eval AnyVal := do
  let result ← v.expr e
  print (← makeValue result)
  note (.ret result)
  modify (Machine.setReturn · true)
  return result

/-- The children of a `statement`; the `procedureCall` alternative ends with a terminal. -/
def visitAlternative (v : Visitor) : Stmt → Eval AnyVal
  | .assignRvalue lvalue rvalue => visitAssignRvalue lvalue rvalue
  | .assignExpr lvalue e => visitAssignExpr v lvalue e
  | .ifThen e statements => visitIfThenStatement v e statements
  | .ifThenElse e statements otherwise => visitIfThenElseStatement v e statements otherwise
  | .ifThenElseIfElse e statements elseIfs otherwise =>
    visitIfThenElseIfElseStatement v otherwise ((e, statements) :: elseIfs)
  | .forStatement id e₀ e₁ step statements => visitForStatement v id e₀ e₁ step statements
  | .procedureCall procedureName parameterList => do
    let _ ← visitProcedureCall v procedureName parameterList
    return .empty
  | .returnStatement e => visitReturnStatement v e
  | .emptyStatement => return .empty

def visitStatement (v : Visitor) (stmt : Stmt) : Eval AnyVal := do
  note .statement
  visitAlternative v stmt

/-- `visitStatements`, with the result of the statements visited so far. -/
def visitStatements (v : Visitor) (result : AnyVal) : List Stmt → Eval AnyVal
  | [] => return result
  | stmt :: stmts => do
    let result ← visitStatement v stmt
    if (← get).return_ then return result
    visitStatements v result stmts

/-! ## The visitor -/

/-- The visitor, for visits nested at most `n` deep. -/
def visitor : ℕ → Visitor
  | 0 =>
    { expr := fun _ => throw .outOfFuel
      statements := fun _ => throw .outOfFuel
      iterate := fun _ _ => throw .outOfFuel }
  | n + 1 =>
    { expr := visitExpr (visitor n)
      statements := visitStatements (visitor n) .empty
      iterate := iterateFor (visitor n) }

/-- `module->imported_modules.emplace(id)`. -/
def Context.importModule (ec : Context) (id : Str) : Context :=
  ec.mapModule ec.module fun m => { m with importedModules := m.importedModules.emplace id () }

/-- `visitImportModule`, for `IMPORT @id`. -/
def visitImportModule (id : Str) : Eval Unit :=
  modify (Machine.mapContext · (Context.importModule · id))

/-- A child of `main`. A procedure definition is ignored, and a module definition has only
terminals below it. -/
def visitItem (v : Visitor) : Item → Eval Unit
  | .statement stmt => do
    let _ ← visitStatement v stmt
    return
  | .procedureDefinition _ => return
  | .importModule id => visitImportModule id
  | .importFile _ => return
  | .moduleDefinition _ => return

/-- The children of `main`, in order. -/
def visitItems (v : Visitor) : List Item → Eval Unit
  | [] => return
  | item :: items => do
    note .item
    visitItem v item
    visitItems v items

def visitMain (v : Visitor) (items : List Item) : Eval Unit := do
  modify (Machine.mapContext · Context.toRoot)
  visitItems v items

end WwivBasic
