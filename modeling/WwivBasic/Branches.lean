import WwivBasic.Balance
import WwivBasic.FunctionDef

/-!
# The branches of an `IF`

The three visitor methods for `IF` statements pair conditions with blocks in different ways. Read
as one list of conditions with their blocks and an optional `ELSE`, they all evaluate conditions up
to the first true one. They read a condition with `any_cast<bool>` and not with `Value::toBool`, so
that a condition which is a number or a text stops the run.

## Main definitions

* `Stmt.branches?`: the conditions of an `IF` with their blocks, and its `ELSE`
* `Yields`: an expression is evaluated to a well-tagged `Value`
* `Selects`: conditions are evaluated up to the first that `Value::toBool` says is true

## Main results

* `visitAlternative_eq_visitBranches`: the three methods are one
* `visitIf_iff`: an `IF` runs the block it selects exactly when the conditions it evaluates are
  of type `BOOLEAN`
-/

namespace WwivBasic

open EStateM

/-- The conditions of an `IF` with the blocks paired with them, and the block of its `ELSE`. -/
def Stmt.branches? : Stmt → Option (List (Expr × List Stmt) × Option (List Stmt))
  | .ifThen e statements => some ([(e, statements)], none)
  | .ifThenElse e statements otherwise => some ([(e, statements)], some otherwise)
  | .ifThenElseIfElse e statements elseIfs otherwise =>
    some ((e, statements) :: elseIfs, some otherwise)
  | _ => none

/-- The visit of a block, where there is one. -/
def runBlock (v : Visitor) : Option (List Stmt) → Eval AnyVal
  | some statements => v.statements statements
  | none => return .empty

/-- From `s` the expression is evaluated to `val`, with the state `t` after it. -/
def Yields (v : Visitor) (s : Machine) (e : Expr) (val : Value) (t : Machine) : Prop :=
  val.WellTagged ∧ ∃ a, val.toAny = .ok a ∧ v.expr e s = .ok a t

/-- From `s` the conditions are evaluated in order up to the first true one. They have the values
`vals`, the block of the true one is `chosen`, and the state after them is the last one. -/
inductive Selects (v : Visitor) :
    Machine → List (Expr × List Stmt) → List Value → Option (List Stmt) → Machine → Prop
  | nil (s : Machine) : Selects v s [] [] none s
  | hit {s t : Machine} {e : Expr} {statements : List Stmt} {clauses : List (Expr × List Stmt)}
      {val : Value} : Yields v s e val t → val.toBool = .ok true →
      Selects v s ((e, statements) :: clauses) [val] (some statements) t
  | miss {s t u : Machine} {e : Expr} {statements : List Stmt}
      {clauses : List (Expr × List Stmt)} {val : Value} {vals : List Value}
      {chosen : Option (List Stmt)} : Yields v s e val t → val.toBool = .ok false →
      Selects v t clauses vals chosen u →
      Selects v s ((e, statements) :: clauses) (val :: vals) chosen u

/-! ## One visit for the three methods -/

/-- The conditions in order, then the `ELSE`. -/
def visitBranches (v : Visitor) (otherwise : Option (List Stmt)) :
    List (Expr × List Stmt) → Eval AnyVal
  | [] => runBlock v otherwise
  | (e, statements) :: clauses => do
    if ← visitCondition v e then v.statements statements else visitBranches v otherwise clauses

theorem visitIfThenElseIfElseStatement_eq (v : Visitor) (otherwise : List Stmt)
    (clauses : List (Expr × List Stmt)) :
    visitIfThenElseIfElseStatement v otherwise clauses =
      visitBranches v (some otherwise) clauses := by
  induction clauses with
  | nil => rfl
  | cons clause clauses ih => rw [visitIfThenElseIfElseStatement, visitBranches, ih]

theorem visitAlternative_eq_visitBranches (v : Visitor) {stmt : Stmt}
    {clauses : List (Expr × List Stmt)} {otherwise : Option (List Stmt)}
    (h : stmt.branches? = some (clauses, otherwise)) :
    visitAlternative v stmt = visitBranches v otherwise clauses := by
  cases stmt with
  | ifThen e statements | ifThenElse e statements otherwise =>
    cases h
    rfl
  | ifThenElseIfElse e statements elseIfs otherwise =>
    cases h
    exact visitIfThenElseIfElseStatement_eq v _ _
  | assignRvalue | assignExpr | forStatement | procedureCall | returnStatement | emptyStatement =>
    cases h

/-! ## Conditions -/

section Condition

variable {v : Visitor} {s t : Machine} {e : Expr} {val : Value} (h : Yields v s e val t)

include h

/-- A condition of type `BOOLEAN` is read as `Value::toBool` reads it. -/
theorem Yields.visitCondition_boolean (hbool : val.type = .boolean) {b : Bool}
    (hb : val.toBool = .ok b) : visitCondition v e s = .ok b t := by
  obtain ⟨htag, a, ha, hrun⟩ := h
  rcases htag.eq with ⟨b', rfl⟩ | ⟨i, rfl⟩ | ⟨text, rfl⟩
  · cases ha
    cases hb
    exact bind_of_ok hrun
  · cases hbool
  · cases hbool

/-- A condition of another type stops the run. -/
theorem Yields.visitCondition_other (hbool : val.type ≠ .boolean) :
    visitCondition v e s = .error .badAnyCast t := by
  obtain ⟨htag, a, ha, hrun⟩ := h
  rcases htag.eq with ⟨b, rfl⟩ | ⟨i, rfl⟩ | ⟨text, rfl⟩
  · exact absurd rfl hbool
  · cases ha
    exact bind_of_ok hrun
  · cases ha
    exact bind_of_ok hrun

end Condition

section Branches

variable {n : ℕ} {s t : Machine} {clauses : List (Expr × List Stmt)} {vals : List Value}
  {chosen : Option (List Stmt)}

/-- Conditions of type `BOOLEAN` select the block that runs. -/
theorem Selects.visitBranches_eq {v : Visitor} (h : Selects v s clauses vals chosen t)
    (hvals : ∀ val ∈ vals, val.type = .boolean) (otherwise : Option (List Stmt)) :
    visitBranches v otherwise clauses s = runBlock v (chosen.or otherwise) t := by
  induction h with
  | nil => rfl
  | hit hyields htrue =>
    rw [List.forall_mem_singleton] at hvals
    exact bind_of_ok (hyields.visitCondition_boolean hvals htrue)
  | miss hyields hfalse _ ih =>
    rw [List.forall_mem_cons] at hvals
    exact (bind_of_ok (hyields.visitCondition_boolean hvals.1 hfalse)).trans (ih hvals.2)

/-- The evaluation of the conditions passes points, and takes none back. -/
theorem Selects.trace (h : Selects (visitor n) s clauses vals chosen t) : s.trace <+: t.trace := by
  induction h with
  | nil => exact List.prefix_rfl
  | hit hyields =>
    obtain ⟨-, a, -, hrun⟩ := hyields
    exact (wp_ok ((visitor_keeps rules_balance n).expr _ _) hrun).trace
  | miss hyields _ _ ih =>
    obtain ⟨-, a, -, hrun⟩ := hyields
    exact (wp_ok ((visitor_keeps rules_balance n).expr _ _) hrun).trace.trans ih

/-- A condition of another type stops the run, before a block has begun. -/
theorem Selects.visitBranches_error (h : Selects (visitor n) s clauses vals chosen t)
    (hvals : ∃ val ∈ vals, val.type ≠ .boolean) (otherwise : Option (List Stmt)) :
    ∃ u, visitBranches (visitor n) otherwise clauses s = .error .badAnyCast u ∧
      u.trace <+: t.trace := by
  induction h with
  | nil => simp at hvals
  | @hit s t _ _ _ _ hyields =>
    obtain ⟨val, hmem, hval⟩ := hvals
    cases List.mem_singleton.mp hmem
    exact ⟨t, bind_of_error (hyields.visitCondition_other hval), List.prefix_rfl⟩
  | @miss s t u _ _ _ val _ _ hyields hfalse hrest ih =>
    by_cases hval : val.type = .boolean
    · -- The condition is false, and a later one is of another type.
      obtain ⟨other, hmem, hother⟩ := hvals
      have hlater : other ∈ _ :=
        (List.mem_cons.mp hmem).resolve_left fun heq => hother (heq ▸ hval)
      obtain ⟨w, hrun, htrace⟩ := ih ⟨other, hlater, hother⟩
      exact ⟨w, (bind_of_ok (hyields.visitCondition_boolean hval hfalse)).trans hrun, htrace⟩
    · exact ⟨t, bind_of_error (hyields.visitCondition_other hval), hrest.trace⟩

/-- A block that stops because of a cast has begun a statement. -/
theorem lt_of_runBlock_error {block : Option (List Stmt)} {u : Machine}
    (h : runBlock (visitor n) block t = .error .badAnyCast u) :
    t.trace.length < u.trace.length := by
  match n, block, h with
  | n + 1, some (stmt :: stmts), h =>
    have hv := visitor_keeps rules_balance n
    -- The first statement is noted, and whatever is passed later comes after that.
    have hrun : wp (visitStatements (visitor n) .empty (stmt :: stmts)) (fun _ _ => True)
        (fun _ u => (t.note .statement).trace <+: u.trace) t := by
      simp only [visitStatements, visitStatement, WwivBasic.note, wp_bind, wp_modify, wp_get]
      refine wp_mono (keepsStmt_visitAlternative rules_balance hv stmt _) (fun a w hw => ?_)
        fun _ w hw => hw.trace
      split_ifs
      · trivial
      · exact wp_mono (wp_visitStatements rules_balance hv stmts a w) (fun _ _ _ => trivial)
          fun _ u hu => hw.trace.trans hu.trace
    have hlen := (wp_error hrun h).length_le
    simpa [Machine.note, Nat.succ_le_iff] using hlen

end Branches

/-- **An `IF` runs the block it selects.** From a state in which each condition that is evaluated
has a value, the visit does what the visit of the first block with a true condition does (of the
`ELSE` without one), exactly when all these values are of type `BOOLEAN`. -/
theorem visitIf_iff (n : ℕ) (stmt : Stmt) (clauses : List (Expr × List Stmt))
    (otherwise : Option (List Stmt)) (hstmt : stmt.branches? = some (clauses, otherwise))
    (s t : Machine) (vals : List Value) (chosen : Option (List Stmt))
    (h : Selects (visitor n) s clauses vals chosen t) :
    visitAlternative (visitor n) stmt s = runBlock (visitor n) (chosen.or otherwise) t ↔
      ∀ val ∈ vals, val.type = .boolean := by
  rw [visitAlternative_eq_visitBranches _ hstmt]
  constructor
  · intro hrun
    by_contra! hvals
    obtain ⟨u, herror, htrace⟩ := h.visitBranches_error hvals otherwise
    -- The block would have to stop where the conditions did, before its first statement.
    have hlt : t.trace.length < u.trace.length := lt_of_runBlock_error (hrun.symm.trans herror)
    exact absurd htrace.length_le (Nat.not_le.mpr hlt)
  · exact fun hvals => h.visitBranches_eq hvals otherwise

/-- The state in which a program without definitions begins. -/
def emptyStart : Machine := .start (Context.init.withProgram []) fun _ => .invalid

/-- `IF FALSE THEN ELSEIF TRUE THEN a = 1 ELSE` assigns to `a`. -/
theorem visitIf_elseIf :
    visitAlternative (visitor 2)
        (.ifThenElseIfElse (.boolean false) []
          [(.boolean true, [.assignExpr ['a'] (.int ['1'])])] []) emptyStart =
      runBlock (visitor 2) (some [.assignExpr ['a'] (.int ['1'])]) emptyStart :=
  (visitIf_iff 2 _ _ _ rfl emptyStart emptyStart [.ofBool false, .ofBool true] (some _)
    (.miss ⟨trivial, _, rfl, rfl⟩ rfl (.hit ⟨trivial, _, rfl, rfl⟩ rfl))).mpr (by decide)

/-- `IF 1 THEN` stops with an uncaught cast, though `Value::toBool` says that 1 is true. -/
theorem visitIf_not_selected :
    ∃ t, Selects (visitor 1) emptyStart [(.int ['1'], [])] [.ofInt 1] (some []) t ∧
      runBlock (visitor 1) (some []) t = .ok .empty t ∧
      visitAlternative (visitor 1) (.ifThen (.int ['1']) []) emptyStart = .error .badAnyCast t :=
  ⟨_, .hit ⟨trivial, _, rfl, rfl⟩ rfl, rfl, rfl⟩

end WwivBasic
