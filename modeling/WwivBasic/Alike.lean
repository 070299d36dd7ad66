import WwivBasic.FunctionDef

/-!
# Programs and states up to the spelling of names

Two programs with the same trees, whose names are related one by one by a relation `N`, and two
states whose names are. Where `N` holds only of names that `strcasecmp` compares equal, every
lookup and every update of related data gives related data.

## Main definitions

* `Spelling N`: a relation of names that the interpreter does not tell apart
* `Expr.Alike`, `Stmt.Alike`, `Item.Alike`: related programs
* `Scope.Alike`, `Module.Alike`, `Context.Alike`: related data
* `Event.Alike`, `Machine.Alike`: related states, with related histories

## Main results

* `Spelling.sameLetters`, `Spelling.eq`: names up to case, and equal names
* `Module.Alike.findVar`, `upsertScopes_alike`: variables of related data
* `Context.Alike.moduleAt`, `Context.Alike.mapScopes`: modules of related data
-/

namespace WwivBasic

/-- A relation of names that the interpreter does not tell apart. -/
structure Spelling (N : Str → Str → Prop) : Prop where
  refl : ∀ a, N a a
  strcasecmp : ∀ a a', N a a' → strcasecmp a a' = .eq
  nil_iff : ∀ a a', N a a' → (a = [] ↔ a' = [])
  append : ∀ p a a', N a a' → N (p ++ a) (p ++ a')
  split : ∀ a a', N a a' → N (splitPackageFromId a).1 (splitPackageFromId a').1 ∧
    N (splitPackageFromId a).2 (splitPackageFromId a').2
  removeQuotes : ∀ a a', N a a' → N (removeQuotes a) (removeQuotes a')

theorem Spelling.sameLetters : Spelling SameLetters where
  refl := SameLetters.refl
  strcasecmp _ _ h := h.strcasecmp
  nil_iff a a' h := by
    have hl : a.length = a'.length := by simpa using congrArg List.length h
    rw [← List.length_eq_zero_iff, hl, List.length_eq_zero_iff]
  append p _ _ h := (SameLetters.refl p).append h
  split _ _ h := h.splitPackageFromId
  removeQuotes _ _ h := h.removeQuotes

theorem Spelling.eq : Spelling Eq where
  refl _ := rfl
  strcasecmp a _ h := h ▸ strcasecmp_self a
  nil_iff _ _ h := h ▸ Iff.rfl
  append _ _ _ h := h ▸ rfl
  split _ _ h := h ▸ ⟨rfl, rfl⟩
  removeQuotes _ _ h := h ▸ rfl

/-! ## Programs -/

section Programs

variable (N : Str → Str → Prop)

inductive Expr.Alike : Expr → Expr → Prop
  | relation {e₀ e₀' e₁ e₁' : Expr} (op : RelationalOperator) :
    Expr.Alike e₀ e₀' → Expr.Alike e₁ e₁' → Expr.Alike (.relation op e₀ e₁) (.relation op e₀' e₁')
  | mulDiv {e₀ e₀' e₁ e₁' : Expr} (op : MultiplicativeOperator) :
    Expr.Alike e₀ e₀' → Expr.Alike e₁ e₁' → Expr.Alike (.mulDiv op e₀ e₁) (.mulDiv op e₀' e₁')
  | addSub {e₀ e₀' e₁ e₁' : Expr} (op : AdditiveOperator) :
    Expr.Alike e₀ e₀' → Expr.Alike e₁ e₁' → Expr.Alike (.addSub op e₀ e₁) (.addSub op e₀' e₁')
  | procCall {f f' : Str} {es es' : List Expr} :
    N f f' → List.Forall₂ Expr.Alike es es' → Expr.Alike (.procCall f es) (.procCall f' es')
  | parens {e e' : Expr} : Expr.Alike e e' → Expr.Alike (.parens e) (.parens e')
  | ident {a a' : Str} : N a a' → Expr.Alike (.ident a) (.ident a')
  | int (text : Str) : Expr.Alike (.int text) (.int text)
  | string (text : Str) : Expr.Alike (.string text) (.string text)
  | boolean (b : Bool) : Expr.Alike (.boolean b) (.boolean b)

mutual

inductive Stmt.Alike : Stmt → Stmt → Prop
  | assignRvalue {a a' b b' : Str} :
    N a a' → N b b' → Stmt.Alike (.assignRvalue a b) (.assignRvalue a' b')
  | assignExpr {a a' : Str} {e e' : Expr} :
    N a a' → Expr.Alike N e e' → Stmt.Alike (.assignExpr a e) (.assignExpr a' e')
  | ifThen {e e' : Expr} {b b' : List Stmt} :
    Expr.Alike N e e' → List.Forall₂ Stmt.Alike b b' → Stmt.Alike (.ifThen e b) (.ifThen e' b')
  | ifThenElse {e e' : Expr} {b b' o o' : List Stmt} :
    Expr.Alike N e e' → List.Forall₂ Stmt.Alike b b' → List.Forall₂ Stmt.Alike o o' →
      Stmt.Alike (.ifThenElse e b o) (.ifThenElse e' b' o')
  | ifThenElseIfElse {e e' : Expr} {b b' o o' : List Stmt} {c c' : List (Expr × List Stmt)} :
    Clauses.Alike ((e, b) :: c) ((e', b') :: c') → List.Forall₂ Stmt.Alike o o' →
      Stmt.Alike (.ifThenElseIfElse e b c o) (.ifThenElseIfElse e' b' c' o')
  | forStatement {a a' : Str} {e₀ e₀' e₁ e₁' : Expr} {b b' : List Stmt} (step : Option Str) :
    N a a' → Expr.Alike N e₀ e₀' → Expr.Alike N e₁ e₁' → List.Forall₂ Stmt.Alike b b' →
      Stmt.Alike (.forStatement a e₀ e₁ step b) (.forStatement a' e₀' e₁' step b')
  | procedureCall {f f' : Str} {es es' : List Expr} :
    N f f' → List.Forall₂ (Expr.Alike N) es es' →
      Stmt.Alike (.procedureCall f es) (.procedureCall f' es')
  | returnStatement {e e' : Expr} :
    Expr.Alike N e e' → Stmt.Alike (.returnStatement e) (.returnStatement e')
  | emptyStatement : Stmt.Alike .emptyStatement .emptyStatement

/-- Conditions, each with the statements it guards. -/
inductive Clauses.Alike : List (Expr × List Stmt) → List (Expr × List Stmt) → Prop
  | nil : Clauses.Alike [] []
  | cons {e e' : Expr} {b b' : List Stmt} {c c' : List (Expr × List Stmt)} :
    Expr.Alike N e e' → List.Forall₂ Stmt.Alike b b' → Clauses.Alike c c' →
      Clauses.Alike ((e, b) :: c) ((e', b') :: c')

end

structure ProcedureDefinition.Alike (d d' : ProcedureDefinition) : Prop where
  name : N d.procedureName d'.procedureName
  params : List.Forall₂ N d.parameterDefinitionList d'.parameterDefinitionList
  statements : List.Forall₂ (Stmt.Alike N) d.statements d'.statements

inductive Item.Alike : Item → Item → Prop
  | statement {s s' : Stmt} : Stmt.Alike N s s' → Item.Alike (.statement s) (.statement s')
  | procedureDefinition {d d' : ProcedureDefinition} :
    d.Alike N d' → Item.Alike (.procedureDefinition d) (.procedureDefinition d')
  | importModule {a a' : Str} : N a a' → Item.Alike (.importModule a) (.importModule a')
  | importFile (text : Str) : Item.Alike (.importFile text) (.importFile text)
  | moduleDefinition {a a' : Str} :
    N a a' → Item.Alike (.moduleDefinition a) (.moduleDefinition a')

/-! ## Data -/

structure Var.Alike (v v' : Var) : Prop where
  name : N v.name_ v'.name_
  value : v.value_ = v'.value_

structure Scope.Alike (sc sc' : Scope) : Prop where
  fnName : N sc.fnName sc'.fnName
  localVars : OrderedMap.Rel N (Var.Alike N) sc.localVars sc'.localVars

inductive FunctionBody.Alike : FunctionBody → FunctionBody → Prop
  | native (cppFn : NativeFn) : FunctionBody.Alike (.native cppFn) (.native cppFn)
  | basic {d d' : ProcedureDefinition} : d.Alike N d' → FunctionBody.Alike (.basic d) (.basic d')

structure BasicFunction.Alike (f f' : BasicFunction) : Prop where
  name : N f.name f'.name
  body : f.body.Alike N f'.body
  params : List.Forall₂ N f.params f'.params

structure Module.Alike (m m' : Module) : Prop where
  scopes : List.Forall₂ (Scope.Alike N) m.scopes m'.scopes
  functions : OrderedMap.Rel N (BasicFunction.Alike N) m.functions m'.functions
  importedModules : OrderedMap.Rel N (fun _ _ => True) m.importedModules m'.importedModules

structure Context.Alike (ec ec' : Context) : Prop where
  modules : OrderedMap.Rel N (Module.Alike N) ec.modules ec'.modules
  root : N ec.root ec'.root
  module : N ec.module ec'.module

/-! ## States -/

inductive Block.Alike : Block → Block → Prop
  | call {o o' f f' : Str} : N o o' → N f f' → Block.Alike (.call o f) (.call o' f')
  | loop {a a' : Str} : N a a' → Block.Alike (.loop a) (.loop a')

inductive Event.Alike : Event → Event → Prop
  | item : Event.Alike .item .item
  | statement : Event.Alike .statement .statement
  | enter {f f' : Str} (args : List Value) : N f f' → Event.Alike (.enter f args) (.enter f' args)
  | bodyEnd : Event.Alike .bodyEnd .bodyEnd
  | leave (result : Value) : Event.Alike (.leave result) (.leave result)
  | native {f f' : Str} (args : List Value) :
    N f f' → Event.Alike (.native f args) (.native f' args)
  | ident {a a' : Str} : N a a' → Event.Alike (.ident a) (.ident a')
  | parens : Event.Alike .parens .parens
  | made (value : Value) : Event.Alike (.made value) (.made value)
  | read {a a' : Str} (result : Option Value) :
    N a a' → Event.Alike (.read a result) (.read a' result)
  | assign {a a' : Str} (value : Value) :
    N a a' → Event.Alike (.assign a value) (.assign a' value)
  | loopVar {a a' : Str} : N a a' → Event.Alike (.loopVar a) (.loopVar a')
  | ret (result : AnyVal) : Event.Alike (.ret result) (.ret result)

structure Point.Alike (p p' : Point) : Prop where
  event : p.event.Alike N p'.event
  ec : p.ec.Alike N p'.ec
  return_ : p.return_ = p'.return_
  nest : List.Forall₂ (Block.Alike N) p.nest p'.nest

end Programs

/-- Whether a top-level item begins. -/
def Event.isItem : Event → Bool
  | .item => true
  | _ => false

/-- The points passed so far, but those where an item begins: an item may do nothing. -/
def Machine.history (s : Machine) : List Point := s.trace.filter fun p => !p.event.isItem

/-- States with related contexts and histories. -/
structure Machine.Alike (N : Str → Str → Prop) (s s' : Machine) : Prop where
  ec : s.ec.Alike N s'.ec
  return_ : s.return_ = s'.return_
  errno : s.errno = s'.errno
  tags : s.tags = s'.tags
  nest : List.Forall₂ (Block.Alike N) s.nest s'.nest
  numbers : s.numbers = s'.numbers
  history : List.Forall₂ (Point.Alike N) s.history s'.history

/-! ## A program is related to itself -/

section Refl

variable {N : Str → Str → Prop} (hN : Spelling N)

theorem forall₂_refl {α : Type} {R : α → α → Prop} (h : ∀ a, R a a) (l : List α) :
    List.Forall₂ R l l := List.forall₂_same.mpr fun a _ => h a

mutual

theorem Expr.Alike.refl (hN : Spelling N) : ∀ e : Expr, e.Alike N e
  | .relation op e₀ e₁ => .relation op (refl hN e₀) (refl hN e₁)
  | .mulDiv op e₀ e₁ => .mulDiv op (refl hN e₀) (refl hN e₁)
  | .addSub op e₀ e₁ => .addSub op (refl hN e₀) (refl hN e₁)
  | .procCall f es => .procCall (hN.refl f) (refl_list hN es)
  | .parens e => .parens (refl hN e)
  | .ident a => .ident (hN.refl a)
  | .int text => .int text
  | .string text => .string text
  | .boolean b => .boolean b

theorem Expr.Alike.refl_list (hN : Spelling N) : ∀ es : List Expr,
    List.Forall₂ (Expr.Alike N) es es
  | [] => .nil
  | e :: es => .cons (refl hN e) (refl_list hN es)

end

mutual

theorem Stmt.Alike.refl (hN : Spelling N) : ∀ s : Stmt, s.Alike N s
  | .assignRvalue a b => .assignRvalue (hN.refl a) (hN.refl b)
  | .assignExpr a e => .assignExpr (hN.refl a) (.refl hN e)
  | .ifThen e b => .ifThen (.refl hN e) (refl_list hN b)
  | .ifThenElse e b o => .ifThenElse (.refl hN e) (refl_list hN b) (refl_list hN o)
  | .ifThenElseIfElse e b c o =>
    .ifThenElseIfElse (.cons (.refl hN e) (refl_list hN b) (refl_clauses hN c)) (refl_list hN o)
  | .forStatement a e₀ e₁ step b =>
    .forStatement step (hN.refl a) (.refl hN e₀) (.refl hN e₁) (refl_list hN b)
  | .procedureCall f es => .procedureCall (hN.refl f) (Expr.Alike.refl_list hN es)
  | .returnStatement e => .returnStatement (.refl hN e)
  | .emptyStatement => .emptyStatement

theorem Stmt.Alike.refl_list (hN : Spelling N) : ∀ b : List Stmt,
    List.Forall₂ (Stmt.Alike N) b b
  | [] => .nil
  | s :: b => .cons (refl hN s) (refl_list hN b)

theorem Stmt.Alike.refl_clauses (hN : Spelling N) : ∀ c : List (Expr × List Stmt),
    Clauses.Alike N c c
  | [] => .nil
  | (e, b) :: c => .cons (.refl hN e) (refl_list hN b) (refl_clauses hN c)

end

include hN

theorem ProcedureDefinition.Alike.refl (d : ProcedureDefinition) : d.Alike N d :=
  ⟨hN.refl _, forall₂_refl hN.refl _, Stmt.Alike.refl_list hN _⟩

theorem Item.Alike.refl (item : Item) : item.Alike N item := by
  cases item with
  | statement s => exact .statement (.refl hN s)
  | procedureDefinition d => exact .procedureDefinition (.refl hN d)
  | importModule a => exact .importModule (hN.refl a)
  | importFile text => exact .importFile text
  | moduleDefinition a => exact .moduleDefinition (hN.refl a)

theorem BasicFunction.Alike.refl (f : BasicFunction) : f.Alike N f := by
  refine ⟨hN.refl _, ?_, forall₂_refl hN.refl _⟩
  cases f.body with
  | native cppFn => exact .native cppFn
  | basic d => exact .basic (.refl hN d)

theorem Scope.Alike.refl (sc : Scope) : sc.Alike N sc :=
  ⟨hN.refl _, forall₂_refl (fun e => ⟨hN.refl e.1, hN.refl _, rfl⟩) _⟩

theorem Module.Alike.refl (m : Module) : m.Alike N m :=
  ⟨forall₂_refl (Scope.Alike.refl hN) _,
    forall₂_refl (fun e => ⟨hN.refl e.1, BasicFunction.Alike.refl hN e.2⟩) _,
    forall₂_refl (fun e => ⟨hN.refl e.1, trivial⟩) _⟩

theorem Context.Alike.refl (ec : Context) : ec.Alike N ec :=
  ⟨forall₂_refl (fun e => ⟨hN.refl e.1, Module.Alike.refl hN e.2⟩) _, hN.refl _, hN.refl _⟩

end Refl

/-! ## Lookups -/

/-- An update of one element of two related lists. -/
theorem forall₂_modify {α β : Type} {R : α → β → Prop} {l : List α} {l' : List β} {f : α → α}
    {g : β → β} (h : List.Forall₂ R l l') (hf : ∀ a b, R a b → R (f a) (g b)) (i : ℕ) :
    List.Forall₂ R (l.modify i f) (l'.modify i g) := by
  induction h generalizing i with
  | nil => simp
  | @cons a b l l' hab hl ih =>
    cases i with
    | zero => exact .cons (hf a b hab) hl
    | succ i => exact .cons hab (ih i)

theorem forall₂_getElem? {α β : Type} {R : α → β → Prop} {l : List α} {l' : List β}
    (h : List.Forall₂ R l l') (i : ℕ) : Option.Rel R l[i]? l'[i]? := by
  induction h generalizing i with
  | nil => exact .none
  | cons hab _ ih =>
    cases i with
    | zero => exact .some hab
    | succ i => exact ih i

theorem forall₂_dropLast {α β : Type} {R : α → β → Prop} {l : List α} {l' : List β}
    (h : List.Forall₂ R l l') : List.Forall₂ R l.dropLast l'.dropLast := by
  rw [List.dropLast_eq_take, List.dropLast_eq_take, h.length_eq]
  exact List.forall₂_take _ h

section Lookups

variable {N : Str → Str → Prop} (hN : Spelling N)

include hN

theorem Scope.Alike.binds {sc sc' : Scope} (h : sc.Alike N sc') {x x' : Str} (hx : N x x') :
    sc.binds x = sc'.binds x' :=
  h.localVars.contains hN.strcasecmp (hN.strcasecmp x x' hx)

theorem Scope.Alike.value? {sc sc' : Scope} (h : sc.Alike N sc') {x x' : Str} (hx : N x x') :
    sc.value? x = sc'.value? x' := by
  have hfind := h.localVars.find? hN.strcasecmp (hN.strcasecmp x x' hx)
  unfold Scope.value?
  revert hfind
  cases sc.localVars.find? x <;> cases sc'.localVars.find? x' <;> rintro ⟨⟩
  · rfl
  · rename_i hvar
    exact congrArg some hvar.value

theorem Scope.Alike.assign {sc sc' : Scope} (h : sc.Alike N sc') {x x' : Str} (hx : N x x')
    (value : Value) : (sc.assign x value).Alike N (sc'.assign x' value) :=
  ⟨h.fnName, h.localVars.modify hN.strcasecmp hx fun _ _ hv => ⟨hv.name, rfl⟩⟩

theorem Scope.Alike.emplace {sc sc' : Scope} (h : sc.Alike N sc') {x x' : Str} (hx : N x x')
    (value : Value) : (sc.emplace x value).Alike N (sc'.emplace x' value) :=
  ⟨h.fnName, h.localVars.emplace hN.strcasecmp hx ⟨hx, rfl⟩⟩

theorem Scope.Alike.insertOrAssign {sc sc' : Scope} (h : sc.Alike N sc') {x x' : Str}
    (hx : N x x') (value : Value) :
    (sc.insertOrAssign x value).Alike N (sc'.insertOrAssign x' value) :=
  ⟨h.fnName, h.localVars.insertOrAssign hN.strcasecmp hx ⟨hx, rfl⟩⟩

theorem innermost_alike {l l' : List Scope} (h : List.Forall₂ (Scope.Alike N) l l') {x x' : Str}
    (hx : N x x') : innermost x l = innermost x' l' :=
  List.lastIdx?_of_forall₂ (fun _ _ hsc => hsc.binds hN hx) h

theorem upsertScopes_alike {l l' : List Scope} (h : List.Forall₂ (Scope.Alike N) l l')
    {x x' : Str} (hx : N x x') (value : Value) :
    List.Forall₂ (Scope.Alike N) (upsertScopes x value l) (upsertScopes x' value l') := by
  unfold upsertScopes
  rw [innermost_alike hN h hx, h.length_eq]
  -- The same position is updated in both deques.
  cases innermost x' l' with
  | some i => exact forall₂_modify h (fun _ _ hsc => hsc.assign hN hx value) i
  | none => exact forall₂_modify h (fun _ _ hsc => hsc.emplace hN hx value) _

namespace Module

variable {m m' : Module} (h : m.Alike N m') {x x' : Str} (hx : N x x')

include h hx

theorem Alike.hasVar : m.hasVar x = m'.hasVar x' := by
  unfold Module.hasVar
  rw [innermost_alike hN h.scopes hx]

theorem Alike.hasFn : m.hasFn x = m'.hasFn x' :=
  h.functions.contains hN.strcasecmp (hN.strcasecmp x x' hx)

theorem Alike.findFn :
    Option.Rel (BasicFunction.Alike N) (m.functions.find? x) (m'.functions.find? x') :=
  h.functions.find? hN.strcasecmp (hN.strcasecmp x x' hx)

theorem Alike.findVar : Option.Rel (Var.Alike N) (m.findVar x) (m'.findVar x') := by
  unfold Module.findVar
  rw [innermost_alike hN h.scopes hx]
  -- The innermost variables are at one position.
  cases innermost x' m'.scopes with
  | none => exact .none
  | some i =>
    have hsc := forall₂_getElem? h.scopes i
    rw [Option.bind_some, Option.bind_some]
    revert hsc
    cases m.scopes[i]? <;> cases m'.scopes[i]? <;> rintro ⟨⟩
    · exact .none
    · rename_i hsc
      exact hsc.localVars.find? hN.strcasecmp (hN.strcasecmp x x' hx)

end Module

namespace Context

variable {ec ec' : Context} (h : ec.Alike N ec')

include h

theorem Alike.contains {k k' : Str} (hk : N k k') :
    ec.modules.contains k = ec'.modules.contains k' :=
  h.modules.contains hN.strcasecmp (hN.strcasecmp k k' hk)

theorem Alike.moduleAt {k k' : Str} (hk : N k k') :
    (ec.moduleAt k).Alike N (ec'.moduleAt k') := by
  have hfind := h.modules.find? hN.strcasecmp (hN.strcasecmp k k' hk)
  unfold Context.moduleAt
  revert hfind
  cases ec.modules.find? k <;> cases ec'.modules.find? k' <;> rintro ⟨⟩
  · exact ⟨.nil, .empty, .empty⟩
  · assumption

theorem Alike.scopes {k k' : Str} (hk : N k k') :
    List.Forall₂ (Scope.Alike N) (ec.scopes k) (ec'.scopes k') :=
  (h.moduleAt hN hk).scopes

theorem Alike.mapModule {k k' : Str} (hk : N k k') {f f' : Module → Module}
    (hf : ∀ m m', Module.Alike N m m' → (f m).Alike N (f' m')) :
    (ec.mapModule k f).Alike N (ec'.mapModule k' f') :=
  ⟨h.modules.modify hN.strcasecmp hk hf, h.root, h.module⟩

theorem Alike.mapScopes {k k' : Str} (hk : N k k') {f f' : List Scope → List Scope}
    (hf : ∀ l l', List.Forall₂ (Scope.Alike N) l l' → List.Forall₂ (Scope.Alike N) (f l) (f' l')) :
    (ec.mapScopes k f).Alike N (ec'.mapScopes k' f') :=
  h.mapModule hN hk fun _ _ hm => ⟨hf _ _ hm.scopes, hm.functions, hm.importedModules⟩

omit hN in
theorem Alike.toRoot : ec.toRoot.Alike N ec'.toRoot := ⟨h.modules, h.root, h.root⟩

theorem Alike.importModule {a a' : Str} (ha : N a a') :
    (ec.importModule a).Alike N (ec'.importModule a') :=
  h.mapModule hN h.module fun _ _ hm =>
    ⟨hm.scopes, hm.functions, hm.importedModules.emplace hN.strcasecmp ha trivial⟩

theorem Alike.varModule {x x' : Str} (hx : N x x') : N (ec.varModule x) (ec'.varModule x') := by
  unfold Context.varModule
  rw [(h.moduleAt hN h.module).hasVar hN hx, (h.moduleAt hN h.root).hasVar hN hx]
  split_ifs
  · exact h.root
  · exact h.module

end Context

theorem bindParams_alike {sc sc' : Scope} (h : sc.Alike N sc') {ns ns' : List Str}
    (hns : List.Forall₂ N ns ns') (args : List Value) :
    (bindParams sc ns args).Alike N (bindParams sc' ns' args) := by
  induction hns generalizing sc sc' args with
  | nil => exact h
  | cons hn _ ih =>
    rcases args with _ | ⟨v, args⟩
    · exact h
    · exact ih (h.insertOrAssign hN hn v) args

end Lookups

end WwivBasic
