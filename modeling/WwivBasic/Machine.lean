import WwivBasic.Context

/-!
# The state of a run

A run of `ExecutionVisitor` changes the `Context` it refers to, its own flag `return_`, and
`errno`. An unwritten `type` field of a `Value` takes the next tag of an arbitrary sequence.
The machine also keeps a record of the run, which no step reads: the nesting of the calls and
`FOR` loops that are open, the points the run has passed, each with the state there, and the texts
it has read as numbers.

## Main definitions

* `Event`, `Point`, `NumberRead`, `Machine`: the record and the state
* `Eval`: computations that change the machine and may stop with a `Fault`
* `Module.var`, `Module.upsert`, `Context.var`, `Context.upsert`: variables, as `context.cpp`
  reads and writes them
* `Context.resolve`, `Context.findVar`, `Context.upserted`: what they do, without the stops
-/

namespace WwivBasic

/-- A construct that is open: a call of a BASIC procedure of the module `owner`, or a `FOR`. -/
inductive Block
  | call (owner function : Str)
  | loop (var : Str)
  deriving DecidableEq

/-- Whether the block is a `FOR`. -/
def Block.isLoop : Block → Bool
  | .call _ _ => false
  | .loop _ => true

/-- What a run does at a point. -/
inductive Event
  /-- A top-level item begins. -/
  | item
  /-- A statement starts. -/
  | statement
  /-- The body of a BASIC procedure is entered, its parameters bound to the arguments. -/
  | enter (function : Str) (args : List Value)
  /-- The statements of that body have ended. -/
  | bodyEnd
  /-- `Module::call` returns the result of a call that pushed a scope. -/
  | leave (result : Value)
  /-- A native function is run. -/
  | native (function : Str) (args : List Value)
  /-- A name is evaluated as an expression. -/
  | ident (name : Str)
  /-- A parenthesised expression is evaluated. -/
  | parens
  /-- A `Value` is made from the `any` of an expression or of a body. -/
  | made (value : Value)
  /-- `Context::var` has looked a name up. -/
  | read (name : Str) (result : Option Value)
  /-- An assignment statement calls `Context::upsert`. -/
  | assign (name : Str) (value : Value)
  /-- A `FOR` binds its variable. -/
  | loopVar (name : Str)
  /-- `visitReturnStatement` sets `return_` and returns. -/
  | ret (result : AnyVal)
  deriving DecidableEq

/-- A point of a run: what happens, and the state in which it happens. -/
structure Point where
  event : Event
  ec : Context
  return_ : Bool
  nest : List Block

/-- A text that is read as a number. -/
inductive NumberRead
  /-- An `INT` of an expression, read with `to_number<int>`. -/
  | int (text : Str) (value : Int32)
  /-- The `INT` after a `STEP`, read with `to_number<int>`. -/
  | step (text : Str) (value : Int32)
  /-- A string, read with `std::stoi`. -/
  | string (text : Str)
  deriving DecidableEq

namespace NumberRead

/-- The text. -/
def text : NumberRead → Str
  | int text _ | step text _ | string text => text

/-- The number is out of the range of `long`. -/
def overflows (r : NumberRead) : Bool := (strtol r.text).erange

end NumberRead

/-- The state of a run. -/
structure Machine where
  ec : Context
  return_ : Bool
  /-- `errno == ERANGE`. -/
  errno : Bool
  /-- The tags that the unwritten `type` fields made from now on will hold. -/
  tags : ℕ → ValueType
  /-- The open constructs, innermost first. -/
  nest : List Block
  /-- The points passed so far. -/
  trace : List Point
  /-- The texts read as numbers so far. -/
  numbers : List NumberRead

/-- Computations of the interpreter. -/
abbrev Eval := EStateM Fault Machine

namespace Machine

/-- The current point, at which `e` happens. -/
def point (s : Machine) (e : Event) : Point := ⟨e, s.ec, s.return_, s.nest⟩

/-- One more point. -/
def note (s : Machine) (e : Event) : Machine := { s with trace := s.trace ++ [s.point e] }

/-- The next tag is used up. -/
def dropTag (s : Machine) : Machine := { s with tags := fun n => s.tags (n + 1) }

/-- `return_ = b`. -/
def setReturn (s : Machine) (b : Bool) : Machine := { s with return_ := b }

/-- What `to_number<int>` makes of a text. -/
def intOf (s : Machine) (text : Str) : Int32 := .ofInt (toNumber intMin intMax text s.errno).1

/-- What is read at a time: an `INT`, or strings. -/
inductive Reads (s : Machine) : List NumberRead → Prop
  | int (text : Str) : s.Reads [.int text (s.intOf text)]
  | step (text : Str) : s.Reads [.step text (s.intOf text)]
  | strings (texts : List Str) : s.Reads (texts.map .string)

/-- Texts are read as numbers. One that is out of range sets `errno`, and none clears it. -/
def readNumbers (s : Machine) (reads : List NumberRead) : Machine :=
  { s with errno := s.errno || reads.any NumberRead.overflows, numbers := s.numbers ++ reads }

/-- The state after `toInt` of a value. -/
def converting (s : Machine) (v : Value) : Machine := s.readNumbers (v.converted.map .string)

/-- A number is not converted. -/
theorem converting_ofInt (s : Machine) (i : Int32) : s.converting (.ofInt i) = s := by
  simp [converting, readNumbers, Value.converted, Value.ofInt]

/-- The context is changed. -/
def mapContext (s : Machine) (f : Context → Context) : Machine := { s with ec := f s.ec }

/-- `scopes.push_back(scope)` of the module at a key. -/
def pushScope (s : Machine) (owner : Str) (scope : Scope) : Machine :=
  s.mapContext (Context.mapScopes · owner (· ++ [scope]))

/-- `scopes.pop_back()` of the module at a key. -/
def popScope (s : Machine) (owner : Str) : Machine :=
  s.mapContext (Context.mapScopes · owner List.dropLast)

/-- `var.value().set(i)`, through the reference to a variable of the scope at a position. -/
def setVarAt (s : Machine) (owner : Str) (position : ℕ) (name : Str) (i : Int32) : Machine :=
  s.mapContext (Context.mapScopes · owner fun scopes =>
    scopes.modify position fun sc => sc.assign name (Value.ofInt i))

/-- A construct is opened. -/
def openBlock (s : Machine) (b : Block) : Machine := { s with nest := b :: s.nest }

/-- The innermost construct is closed. -/
def closeBlock (s : Machine) : Machine := { s with nest := s.nest.tail }

@[simp] theorem return_popScope (s : Machine) (owner : Str) :
    (s.popScope owner).return_ = s.return_ := rfl

@[simp] theorem return_closeBlock (s : Machine) : s.closeBlock.return_ = s.return_ := rfl

end Machine

/-- A point is passed. -/
def note (e : Event) : Eval Unit := modify (Machine.note · e)

/-- A computation that only may stop. -/
def lift {α : Type} : Except Fault α → Eval α
  | .ok a => pure a
  | .error e => throw e

theorem lift_eq_ok {α : Type} {x : Except Fault α} {a : α} {s t : Machine} :
    lift x s = .ok a t ↔ x = .ok a ∧ t = s := by
  cases x with
  | ok b =>
    constructor
    · rintro ⟨⟩
      exact ⟨rfl, rfl⟩
    · rintro ⟨⟨⟩, rfl⟩
      rfl
  | error e =>
    constructor
    · rintro ⟨⟩
    · rintro ⟨⟨⟩, -⟩

/-- A value is printed: its text is computed, and dropped. -/
def print (v : Value) : Eval Unit := do
  let _ ← lift v.toString
  return

/-- `Value(const std::any&)`. -/
def makeValue (a : AnyVal) : Eval Value := do
  let v := Value.ofAny ((← get).tags 0) a
  modify Machine.dropTag
  note (.made v)
  return v

/-- `to_number<int>` of an `INT`, which is recorded as `read` says. -/
def toNumberInt (read : Str → Int32 → NumberRead) (text : Str) : Eval Int32 := do
  let value := (← get).intOf text
  modify (Machine.readNumbers · [read text value])
  return value

/-- `std::stoi` of strings, of which the results are used elsewhere. -/
def readStrings (texts : List Str) : Eval Unit :=
  modify (Machine.readNumbers · (texts.map .string))

/-- `Value::toInt`. -/
def toIntOf (v : Value) : Eval Int32 := do
  readStrings v.converted
  lift v.toInt

theorem toIntOf_of_ok {v : Value} {i : Int32} (h : v.toInt = .ok i) (s : Machine) :
    toIntOf v s = .ok i (s.converting v) := by
  show lift v.toInt (s.converting v) = _
  rw [h]
  rfl

/-! ## Variables -/

/-- `Module::var` of the module at a key, which prints the value it finds. -/
def Module.var (self name : Str) : Eval (Option Var) := do
  match ((← get).ec.moduleAt self).findVar name with
  | some var => do
    print var.value_
    return some var
  | none => return none

/-- `Module::upsert` of the module at a key. Without any scope the search finds nothing, and
`back()` is called on the empty deque. -/
def Module.upsert (self name : Str) (value : Value) : Eval Unit := do
  if ((← get).ec.scopes self).isEmpty then throw .emptyBack
  modify (Machine.mapContext · (Context.mapScopes · self (upsertScopes name value)))

/-- Where an unqualified name is looked up: the root module when only it has the variable,
else the current module. -/
def Context.varModule (ec : Context) (name : Str) : Str :=
  if !(ec.moduleAt ec.module).hasVar name && (ec.moduleAt ec.root).hasVar name then ec.root
  else ec.module

/-- `Context::upsert`. -/
def Context.upsert (name : Str) (value : Value) : Eval Unit := do
  let ec := (← get).ec
  let split := splitPackageFromId name
  if split.1 ≠ [] then
    -- The value of a name whose package is not there is dropped.
    if ec.modules.contains split.1 then Module.upsert split.1 split.2 value else pure ()
  else Module.upsert (ec.varModule name) name value

/-- `Context::var`. -/
def Context.var (name : Str) : Eval (Option Var) := do
  let ec := (← get).ec
  let split := splitPackageFromId name
  if split.1 ≠ [] then
    if ec.modules.contains split.1 then Module.var split.1 split.2 else pure none
  else Module.var (ec.varModule name) name

/-- The module, and the name in it, that a name refers to. -/
def Context.resolve (ec : Context) (name : Str) : Option (Str × Str) :=
  let split := splitPackageFromId name
  if split.1 ≠ [] then
    if ec.modules.contains split.1 then some split else none
  else some (ec.varModule name, name)

/-- The variable that a name refers to. -/
def Context.findVar (ec : Context) (name : Str) : Option Var :=
  (ec.resolve name).bind fun r => (ec.moduleAt r.1).findVar r.2

/-- The context after an assignment. -/
def Context.upserted (ec : Context) (name : Str) (value : Value) : Context :=
  match ec.resolve name with
  | some r => ec.mapScopes r.1 (upsertScopes r.2 value)
  | none => ec

/-- `Context::var`, recorded. -/
def readVar (name : Str) : Eval (Option Var) := do
  let result ← Context.var name
  note (.read name (result.map Var.value_))
  return result

end WwivBasic
