import WwivBasic.Executor
import WwivBasic.Stdlib

/-!
# `FunctionDefVisitor`, and the run of a program

`src/function_def_visitor.cpp`: the pass before execution, which registers the procedures of a
program in the modules that its `MODULE` items open. `src/basicrun.cpp` runs this pass, lets
the host register its functions, and executes the same tree.

## Main definitions

* `FunctionDefVisitor.visitMain`: the definition pass
* `Machine.start`, `runProgram`: the execution of a program from a context
* `basicrun`: the two passes over a program
-/

namespace WwivBasic

namespace FunctionDefVisitor

/-- `visitParameterDefinitionList`: it reads the `id`s of a child that may be absent. -/
def visitParameterDefinitionList : List Str → Except Fault (List Str)
  | [] => .error .nullDereference
  | id :: ids => .ok (id :: ids)

def visitProcedureDefinition (ec : Context) (definition : ProcedureDefinition) :
    Except Fault Context := do
  let params ← visitParameterDefinitionList definition.parameterDefinitionList
  let name := definition.procedureName
  return ec.mapModule ec.module fun m =>
    { m with functions := m.functions.insertOrAssign name ⟨name, .basic definition, params⟩ }

/-- The current module changes only when the module is new. -/
def visitModuleDefinition (ec : Context) (text : Str) : Context :=
  let module := removeQuotes text
  if ec.modules.contains module then ec
  else
    { modules := ec.modules.emplace module {}
      root := ec.root
      module := module
      root_mem := by simp [ec.root_mem]
      module_mem := by simp }

def visitItem (ec : Context) : Item → Except Fault Context
  | .procedureDefinition definition => visitProcedureDefinition ec definition
  | .moduleDefinition text => .ok (visitModuleDefinition ec text)
  | .statement _ | .importModule _ | .importFile _ => .ok ec

/-- The pass over the children of `main`. -/
def visitMain (ec : Context) : List Item → Except Fault Context
  | [] => .ok ec
  | item :: items => do visitMain (← visitItem ec item) items

end FunctionDefVisitor

/-- The context with the procedures of a program, when the definition pass completes. -/
def Context.withProgram (ec : Context) (items : List Item) : Context :=
  ((FunctionDefVisitor.visitMain ec items).toOption).getD ec

/-- The state in which `ExecutionVisitor` begins, with the tags that unwritten `type` fields will
hold. -/
def Machine.start (ec : Context) (tags : ℕ → ValueType) : Machine where
  ec := ec
  return_ := false
  errno := false
  tags := tags
  nest := []
  trace := []
  numbers := []

/-- The run of `ExecutionVisitor` on a program, for visits nested at most `n` deep. -/
def runProgram (n : ℕ) (ec : Context) (tags : ℕ → ValueType) (items : List Item) :
    EStateM.Result Fault Machine Unit :=
  visitMain (visitor n) items (Machine.start ec tags)

/-- `main` of `src/basicrun.cpp`: the definition pass, the registrations of the host, and the
execution. -/
def basicrun (n : ℕ) (host : Context → Context) (ec : Context) (tags : ℕ → ValueType)
    (items : List Item) : EStateM.Result Fault Machine Unit :=
  match FunctionDefVisitor.visitMain ec items with
  | .ok ec => runProgram n (host ec) tags items
  | .error e => .error e (Machine.start ec tags)

end WwivBasic
