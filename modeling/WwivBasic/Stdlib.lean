import WwivBasic.Context

/-!
# The standard functions and `Context()`

`src/stdlib` with the templates and macros of `src/context.h` that register its functions.
`REGISTER_NATIVE` and `REGISTER_NATIVEL` name a function by its stringified argument, so that
the standard functions are registered as `stdlib::abs` and so on.

## Main definitions

* `Stdlib.abs` to `Stdlib.mid`: the functions
* `makeBasicFn₁`, `makeBasicFn₂`: `make_basic_fn_` at one and two parameters
* `Module.nativeFunctionl`: the registration of a native function
* `Context.init`: the context built by `Context()`
* `Registration`, `Context.register`: what a host adds to a context
-/

namespace WwivBasic

namespace Stdlib

/-- An `int` as a `size_t`, as in a comparison with `size()`. -/
def toSize (i : Int32) : ℕ := (i.toInt % 18446744073709551616).toNat

def abs (n : Int32) : Except Fault Int32 :=
  if n.toInt < 0 then Value.checkedInt (-n.toInt) else .ok n

def val : List Value → Except Fault Value
  | [] => .ok (Value.ofInt 0)
  | v :: _ => v.toInt.map Value.ofInt

/-- The text that `val` converts. -/
def valConverted : List Value → List Str
  | [] => []
  | v :: _ => v.converted

/-- The size is cast to `int`. -/
def len : List Value → Except Fault Value
  | [] => .ok (Value.ofInt 0)
  | v :: _ => v.toString.map fun s => Value.ofInt (.ofInt s.length)

def asc (s : Str) : Int32 :=
  match s with
  | [] => 0
  | c :: _ => .ofInt (c.toNat % 256)

def chr (c : Int32) : Str :=
  if c.toInt < 0 ∨ 255 < c.toInt then [] else [Char.ofNat c.toInt.toNat]

def left (s : Str) (len : Int32) : Str :=
  if s.length ≤ toSize len then s else s.take (toSize len)

def right (s : Str) (len : Int32) : Str :=
  if s.length ≤ toSize len then s else s.drop (s.length - toSize len)

def mid : List Value → Except Fault Value
  | [] => .ok Value.default
  | [v] => v.toString.map Value.ofString
  | [v, start] => do
    let s ← v.toString
    let start ← start.toInt
    return Value.ofString (if toSize start < s.length then s.drop (toSize start) else s)
  | v :: start :: len :: _ => do
    let s ← v.toString
    let start ← start.toInt
    if toSize start < s.length then
      let len ← len.toInt
      return Value.ofString ((s.drop (toSize start)).take (toSize len))
    return Value.ofString s

/-- The texts that `mid` converts: that of the length only where the start is inside the text. -/
def midConverted : List Value → List Str
  | v :: start :: args =>
    match v.toString, start.toInt, args with
    | .ok s, .ok i, len :: _ =>
      start.converted ++ if toSize i < s.length then len.converted else []
    | .ok _, _, _ => start.converted
    | .error _, _, _ => []
  | _ => []

/-- `stdlib::`, the start of every registered name. -/
def stdlibText : Str := ['s', 't', 'd', 'l', 'i', 'b', ':', ':']

end Stdlib

/-- `make_basic_fn_` of a function of one parameter, which is read with `get` and whose result is
made a `Value` with `ret`. -/
def makeBasicFn₁ {α β : Type} (get : Value → Except Fault α) (ret : β → Value)
    (f : α → Except Fault β) : List Value → Except Fault Value
  | [] => .ok (Value.ofBool false)
  | v :: _ => do return ret (← f (← get v))

/-- `make_basic_fn_` of a function of two parameters. -/
def makeBasicFn₂ {α α' β : Type} (get : Value → Except Fault α) (get' : Value → Except Fault α')
    (ret : β → Value) (f : α → α' → Except Fault β) : List Value → Except Fault Value
  | v :: v' :: _ => do return ret (← f (← get v) (← get' v'))
  | _ => .ok (Value.ofBool false)

/-- `Module::native_functionl` without parameter names. -/
def Module.nativeFunctionl (m : Module) (name : Str) (fn : NativeFn) : Module :=
  { m with functions := m.functions.insertOrAssign name ⟨name, .native fn, []⟩ }

/-- The functions `Context()` registers, by the names the macros give them. -/
def stdlibFunctions : List (Str × NativeFn) :=
  ([(['a', 'b', 's'], makeBasicFn₁ Value.getInt Value.ofInt Stdlib.abs),
    (['l', 'e', 'n'], Stdlib.len),
    (['v', 'a', 'l'], ⟨Stdlib.val, Stdlib.valConverted⟩),
    (['a', 's', 'c'], makeBasicFn₁ Value.getString Value.ofInt fun s => .ok (Stdlib.asc s)),
    (['c', 'h', 'r'], makeBasicFn₁ Value.getInt Value.ofString fun c => .ok (Stdlib.chr c)),
    (['l', 'e', 'f', 't'], makeBasicFn₂ Value.getString Value.getInt Value.ofString
      fun s n => .ok (Stdlib.left s n)),
    (['r', 'i', 'g', 'h', 't'], makeBasicFn₂ Value.getString Value.getInt Value.ofString
      fun s n => .ok (Stdlib.right s n)),
    (['m', 'i', 'd'], ⟨Stdlib.mid, Stdlib.midConverted⟩)] : List (Str × NativeFn)).map
      fun f => (Stdlib.stdlibText ++ f.1, f.2)

/-- `<GLOBAL>`, the name of the first scope of the root module. -/
def globalText : Str := ['<', 'G', 'L', 'O', 'B', 'A', 'L', '>']

/-- The root module of `Context()`. -/
def Module.initial : Module :=
  stdlibFunctions.foldl (fun m f => m.nativeFunctionl f.1 f.2) { scopes := [⟨globalText, ∅⟩] }

/-- `Context()`: one module, named by the empty text, that is both root and current. -/
def Context.init : Context where
  modules := (∅ : CiMap Module).emplace [] Module.initial
  root := []
  module := []
  root_mem := by simp
  module_mem := by simp

/-- `ec.root->native_functionl(name, fn)`. -/
def Context.registerNative (ec : Context) (name : Str) (fn : NativeFn) : Context :=
  ec.mapModule ec.root fun m => m.nativeFunctionl name fn

/-- `ec.modules.insert_or_assign(name, m)`, as a host adds a module. -/
def Context.registerModule (ec : Context) (name : Str) (m : Module) : Context where
  modules := ec.modules.insertOrAssign name m
  root := ec.root
  module := ec.module
  root_mem := by simp [ec.root_mem]
  module_mem := by simp [ec.module_mem]

/-- What a host registers before it executes a program. -/
inductive Registration
  | native (name : Str) (fn : NativeFn)
  | module (name : Str) (m : Module)

/-- The registrations of a host, one after the other. -/
def Context.register (ec : Context) (host : List Registration) : Context :=
  host.foldl (fun ec r =>
    match r with
    | .native name fn => ec.registerNative name fn
    | .module name m => ec.registerModule name m) ec

end WwivBasic
