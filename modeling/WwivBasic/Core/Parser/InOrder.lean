import Mathlib.Algebra.GroupWithZero.Nat
import Mathlib.Data.List.Forall2
import WwivBasic.Core.Parser.Acceptance
import WwivBasic.Foundations.StickyFlag

/-!
# What an accepted tree keeps of its tokens

A node without a child in some place stands for an operator or an error that was there, and a
token without a case leaves nothing behind. What is left is in order, and nothing is lost exactly
when the tokens are one factor more than operators and nothing else. The numbers among them are
read one after the other, and one that overflows leaves `errno` behind for the others.

## Main definitions

* `Symbol`, `Expression.symbols`: the factors and operators of a tree, in order
* `core`: the tokens without parentheses and comments
* `Balanced`, `Regular`: parentheses that match, and tokens that make an expression
* `factorsRead`: the factors that the tokens are read as, with `errno` passed along
* `SteadyNumbers`: no number meets an `errno` that is set, unless it is read as zero anyway
* `Sound`: an accepted tree is what its tokens say

## Main results

* `Kept.parse`: what each step keeps holds of the root
* `accounts_parse`: the factors and operators of a tree stand for its tokens, in order
* `factors_parse`: and its factors are read with the `errno` of the tokens before them
* `factorsRead_eq_iff`: when each factor is the one that its token says
* `sound_iff`: when the tokens and the tree agree
-/

namespace WwivBasic.Parser

open List (Forall₂ SublistForall₂)

/-- A factor or an operator. -/
inductive Symbol
  | factor (f : Factor)
  | operator (op : Operator)
  deriving DecidableEq

namespace Symbol

/-- Whether the symbol is a factor. -/
def isFactor : Symbol → Bool
  | factor _ => true
  | operator _ => false

/-- The factor. -/
def factor? : Symbol → Option Factor
  | factor f => some f
  | operator _ => none

/-- The symbol is read from the token, with the given `errno`. -/
def ReadsAt (errno : Bool) : Symbol → Token → Prop
  | factor f, t => t.kind = .factor ∧ t.lexeme ≠ [] ∧ f = (createFactor errno t).1
  | operator op, t => t.kind = .binary op ∨ t.kind = .logical op

/-- The symbol is what the token says: it is read with `errno` clear. -/
def Reads (x : Symbol) (t : Token) : Prop := x.ReadsAt false t

/-- The symbol is read from the token, whatever `errno` was. -/
def StandsFor (x : Symbol) (t : Token) : Prop := ∃ errno, x.ReadsAt errno t

end Symbol

namespace Expression

/-- The factors and operators, in order. -/
def symbols : Expression → List Symbol
  | null => []
  | factor f => [.factor f]
  | binary left op right => left.symbols ++ .operator op :: right.symbols

/-- The places without a child. -/
def nulls : Expression → ℕ
  | null => 1
  | factor _ => 0
  | binary left _ right => left.nulls + right.nulls

/-- A tree has one operand more than operators. -/
theorem length_symbols (e : Expression) :
    e.symbols.length + 1 = 2 * e.symbols.countP Symbol.isFactor + e.nulls := by
  induction e with
  | null => rfl
  | factor f => rfl
  | binary left op right ihl ihr =>
    simp only [symbols, nulls, List.length_append, List.length_cons, List.countP_append,
      List.countP_cons, Symbol.isFactor]
    simp only [Bool.false_eq_true, if_false]
    omega

end Expression

namespace AstNode

/-- The factors and operators of a node. -/
def symbols : AstNode → List Symbol
  | expression e => e.symbols
  | binaryOperator op | logicalOperator op => [.operator op]
  | error _ => []

/-- The symbols of a node, and the places in it where there is none. -/
def weight : AstNode → ℕ
  | expression e => e.symbols.length + e.nulls
  | _ => 1

@[simp] theorem symbols_expression (e : Expression) : (expression e).symbols = e.symbols := rfl

@[simp] theorem weight_expression (e : Expression) :
    (expression e).weight = e.symbols.length + e.nulls := rfl

variable (n : AstNode)

theorem symbols_child : n.child.symbols.Sublist n.symbols := by
  cases n with
  | expression e => exact List.Sublist.refl _
  | binaryOperator | logicalOperator | error => exact List.nil_sublist _

/-- Making a child of a node loses no factor. -/
theorem countP_child :
    n.child.symbols.countP Symbol.isFactor = n.symbols.countP Symbol.isFactor := by
  cases n <;> rfl

theorem weight_child : n.child.symbols.length + n.child.nulls = n.weight := by
  cases n <;> rfl

end AstNode

/-- The token is a factor or an operator. -/
def Token.isSymbol (t : Token) : Bool :=
  match t.kind with
  | .factor | .binary _ | .logical _ => true
  | _ => false

/-- The token is a factor. -/
def Token.isFactor (t : Token) : Bool := t.kind = .factor

/-- The tokens without parentheses and comments. -/
def core (tokens : List Token) : List Token :=
  tokens.filter fun t => t.kind ≠ .lparen ∧ t.kind ≠ .rparen ∧ t.kind ≠ .comment

/-- The parentheses match, with `d` open ones before the tokens. -/
def balanced : ℕ → List Token → Bool
  | d, [] => d = 0
  | d, t :: ts =>
    match t.kind with
    | .lparen => balanced (d + 1) ts
    | .rparen => d ≠ 0 && balanced (d - 1) ts
    | _ => balanced d ts

/-- The parentheses match. -/
def Balanced (tokens : List Token) : Prop := balanced 0 tokens = true

instance : DecidablePred Balanced := fun _ => inferInstanceAs (Decidable (_ = true))

/-- Factors with a lexeme and operators, one factor more than operators or a single token. -/
structure Regular (tokens : List Token) : Prop where
  isSymbol : ∀ t ∈ tokens, t.isSymbol = true
  not_stops : ∀ t ∈ tokens, t.stops = false
  count : tokens.length + 1 = 2 * tokens.countP Token.isFactor ∨ tokens.length = 1

namespace Token

/-- The token is a factor that `createFactor` reads as a number. -/
def isNumber (t : Token) : Bool :=
  t.isFactor && !(t.type = .string ∨ t.type = .character) && t.lexeme.head?.any Char.isDigit

/-- The number is out of the range of `long`, so that `strtol` sets `errno`. -/
def overflows (t : Token) : Bool := (strtol t.lexeme).erange

/-- The token is read as zero even where `errno` is clear. -/
def readsZero (t : Token) : Prop := (createFactor false t).1 = .number 0

/-- `errno` after the token. -/
def errnoAfter (t : Token) (errno : Bool) : Bool :=
  if t.isFactor && t.lexeme ≠ [] then (createFactor errno t).2 else errno

/-- The factor that the token is read as. -/
def factorRead (t : Token) (errno : Bool) : List Factor :=
  if t.isFactor && t.lexeme ≠ [] then [(createFactor errno t).1] else []

end Token

/-- The factors that the tokens are read as, one after the other. -/
def factorsRead (errno : Bool) : List Token → List Factor
  | [] => []
  | t :: ts => t.factorRead errno ++ factorsRead (t.errnoAfter errno) ts

/-- A number after one that overflows is read as zero anyway, and so is every number when `errno`
is set from the start. -/
def SteadyNumbers (errno : Bool) (tokens : List Token) : Prop :=
  (tokens.filter Token.isNumber).Pairwise (fun t u => t.overflows = true → u.readsZero) ∧
    (errno = true → ∀ t ∈ tokens.filter Token.isNumber, t.readsZero)

/-- If the root of the tokens is no error, their parentheses match, and the factors and operators
of the tree are the other tokens, comments apart, in order. -/
def Sound (errno : Bool) (tokens : List Token) : Prop :=
  ∀ n, parse errno tokens = .node n → n.isError = false →
    Balanced tokens ∧ Forall₂ Symbol.Reads n.symbols (core tokens)

/-! ## Stacks -/

/-- The factors and operators of a stack, from its bottom. -/
def stackSymbols : List AstNode → List Symbol
  | [] => []
  | n :: stack => stackSymbols stack ++ n.symbols

/-- The weight of a stack. -/
def stackWeight (stack : List AstNode) : ℕ := (stack.map AstNode.weight).sum

theorem stackSymbols_append (a b : List AstNode) :
    stackSymbols (a ++ b) = stackSymbols b ++ stackSymbols a := by
  induction a with
  | nil => simp [stackSymbols]
  | cons n a ih => simp [stackSymbols, ih]

/-- The nodes `b` are made of the nodes `a`: no factor is lost, and an operator that is lost leaves
a place without a child. -/
structure Shrinks (a b : List AstNode) : Prop where
  symbols : (stackSymbols b).Sublist (stackSymbols a)
  factors : (stackSymbols b).countP Symbol.isFactor = (stackSymbols a).countP Symbol.isFactor
  weight : stackWeight b = stackWeight a
  proper : .expression .null ∉ a → .expression .null ∉ b

namespace Shrinks

variable {a b c stack : List AstNode} {left op right n : AstNode}

theorem refl : Shrinks a a := ⟨List.Sublist.refl _, rfl, rfl, id⟩

theorem trans (h : Shrinks a b) (h' : Shrinks b c) : Shrinks a c :=
  ⟨h'.symbols.trans h.symbols, h'.factors.trans h.factors, h'.weight.trans h.weight,
    h'.proper ∘ h.proper⟩

theorem append (h : Shrinks a b) (stack : List AstNode) : Shrinks (a ++ stack) (b ++ stack) where
  symbols := by
    rw [stackSymbols_append, stackSymbols_append]
    exact h.symbols.append_left _
  factors := by
    rw [stackSymbols_append, stackSymbols_append, List.countP_append, List.countP_append, h.factors]
  weight := by
    have hw := h.weight
    simp only [stackWeight, List.map_append, List.sum_append] at hw ⊢
    rw [hw]
  proper hnot hb := by
    rw [List.mem_append, not_or] at hnot
    exact (List.mem_append.mp hb).elim (h.proper hnot.1) hnot.2

theorem combine (h : combine left op right = .ok n) : Shrinks [right, op, left] [n] := by
  unfold Parser.combine at h
  cases hop : op.oper? with
  | none => simp [hop] at h
  | some oper =>
    rw [hop] at h
    obtain rfl := Except.ok.inj h
    have hsymbols : op.symbols = [.operator oper] := by cases op <;> cases hop <;> rfl
    have hweight : op.weight = 1 := by cases op <;> cases hop <;> rfl
    constructor
    · simp only [stackSymbols, AstNode.symbols_expression, Expression.symbols, hsymbols,
        List.nil_append, List.append_assoc, List.singleton_append]
      exact (AstNode.symbols_child left).append ((AstNode.symbols_child right).cons_cons _)
    · simp [stackSymbols, Expression.symbols, hsymbols, AstNode.countP_child, Symbol.isFactor]
    · have hl := AstNode.weight_child left
      have hr := AstNode.weight_child right
      simp only [stackWeight, List.map_cons, List.map_nil, List.sum_cons, List.sum_nil, hweight,
        AstNode.weight_expression, Expression.symbols, Expression.nulls, List.length_append,
        List.length_cons]
      omega
    · simp

theorem reduce (h : reduce a = .ok b) : Shrinks a b := by
  rcases a with - | ⟨right, - | ⟨op, - | ⟨left, stack⟩⟩⟩
  · cases h
  · cases h
  · cases h
  · obtain ⟨n, hn, hb⟩ := Except.bind_eq_ok.mp h
    obtain rfl := Except.ok.inj hb
    exact (Shrinks.combine hn).append stack

theorem flattenTop (h : flattenTop left stack = .ok n) : Shrinks (left :: stack) [n] := by
  induction hk : stack.length using Nat.strong_induction_on generalizing left stack with
  | _ k ih =>
    rcases stack with - | ⟨op, - | ⟨x, stack⟩⟩
    · obtain rfl := Except.ok.inj h
      exact refl
    · cases h
    · obtain ⟨m, hm, hn⟩ := Except.bind_eq_ok.mp h
      exact ((Shrinks.combine hm).append stack).trans
        (ih stack.length (by simp at hk; omega) hn rfl)

theorem flatten (h : flatten a = .ok n) : Shrinks a [n] := by
  rcases a with - | ⟨top, stack⟩
  · cases h
  · exact flattenTop h

theorem complete (h : complete stack n = .ok b) : Shrinks (n :: stack) b := by
  rw [Parser.complete] at h
  split_ifs at h
  · exact reduce h
  · obtain rfl := Except.ok.inj h
    exact refl

end Shrinks

/-! ## What the tokens leave behind -/

section Sublists

variable {α β : Type} {R : α → β → Prop} {l l' : List α} {d d' : List β}

theorem SublistForall₂.append (h : SublistForall₂ R l d) (h' : SublistForall₂ R l' d') :
    SublistForall₂ R (l ++ l') (d ++ d') := by
  rw [List.sublistForall₂_iff] at h h' ⊢
  obtain ⟨m, hm, hd⟩ := h
  obtain ⟨m', hm', hd'⟩ := h'
  exact ⟨m ++ m', List.rel_append hm hm', hd.append hd'⟩

theorem SublistForall₂.sublist (h : SublistForall₂ R l d) (hl : l'.Sublist l) :
    SublistForall₂ R l' d := by
  induction h generalizing l' with
  | nil =>
    obtain rfl := List.sublist_nil.mp hl
    exact .nil
  | cons hr _ ih =>
    rcases List.sublist_cons_iff.mp hl with hskip | ⟨l'', rfl, htail⟩
    · exact .cons_right (ih hskip)
    · exact .cons hr (ih htail)
  | cons_right _ ih => exact .cons_right (ih hl)

theorem forall_mem_of_forall₂ {P : β → Prop} (h : Forall₂ R l d) (hP : ∀ x y, R x y → P y) :
    ∀ y ∈ d, P y := by
  induction h with
  | nil => simp
  | cons hr _ ih => exact List.forall_mem_cons.mpr ⟨hP _ _ hr, ih⟩

theorem countP_eq_of_forall₂ {p : α → Bool} {q : β → Bool} (h : Forall₂ R l d)
    (hpq : ∀ x y, R x y → p x = q y) : l.countP p = d.countP q := by
  induction h with
  | nil => rfl
  | cons hr _ ih => rw [List.countP_cons, List.countP_cons, ih, hpq _ _ hr]

end Sublists

/-! ### Symbols and their tokens -/

section Reads

variable {errno : Bool} {x : Symbol} {t : Token}

theorem Symbol.ReadsAt.isSymbol (h : x.ReadsAt errno t) : t.isSymbol = true := by
  unfold Token.isSymbol
  cases x with
  | factor f => rw [h.1]
  | operator op => rcases h with h | h <;> rw [h]

theorem Symbol.ReadsAt.isFactor (h : x.ReadsAt errno t) : x.isFactor = t.isFactor := by
  unfold Token.isFactor
  cases x with
  | factor f => simp [h.1, Symbol.isFactor]
  | operator op => rcases h with h | h <;> simp [h, Symbol.isFactor]

theorem Symbol.ReadsAt.not_stops (h : x.ReadsAt errno t) : t.stops = false := by
  unfold Token.stops
  cases x with
  | factor f => simp [h.1, h.2.1]
  | operator op => rcases h with h | h <;> simp [h]

/-- A factor or an operator is neither a parenthesis nor a comment. -/
theorem isSymbol_core (h : t.isSymbol = true) :
    t.kind ≠ .lparen ∧ t.kind ≠ .rparen ∧ t.kind ≠ .comment := by
  unfold Token.isSymbol at h
  cases hk : t.kind <;> simp_all

theorem isSymbol_of_isFactor (h : t.isFactor = true) : t.isSymbol = true := by
  unfold Token.isFactor at h
  unfold Token.isSymbol
  rw [of_decide_eq_true h]

end Reads

theorem countP_core (tokens : List Token) :
    (core tokens).countP Token.isFactor = tokens.countP Token.isFactor := by
  rw [core, List.countP_filter]
  refine List.countP_congr fun t _ => ?_
  simp only [Bool.and_eq_true, decide_eq_true_eq, and_iff_left_iff_imp]
  exact fun h => isSymbol_core (isSymbol_of_isFactor h)

theorem countP_isSymbol_le (tokens : List Token) :
    tokens.countP Token.isSymbol ≤ (core tokens).length := by
  rw [core, ← List.countP_eq_length_filter]
  exact List.countP_mono_left fun t _ h => by simpa using isSymbol_core h

/-- What holds of `errno`, the tokens read so far and the nodes they have become, through all that
the parser does: nodes are reduced, a token is skipped or becomes a node of its own, and an
expression is given up at a factor without a lexeme. -/
structure Kept (P : Bool → List Token → List AstNode → Prop) : Prop where
  shrink : ∀ {errno done nodes nodes'}, P errno done nodes → Shrinks nodes nodes' →
    P errno done nodes'
  skip : ∀ {errno done nodes t}, P errno done nodes → t.isSymbol = false →
    P errno (done ++ [t]) nodes
  push : ∀ {errno done nodes n x t}, P errno done nodes → n.symbols = [x] → n.weight = 1 →
    n ≠ .expression .null → x.ReadsAt errno t → P (t.errnoAfter errno) (done ++ [t]) (n :: nodes)
  fail : ∀ {errno done inner outer t} (message : Message), P errno done (inner ++ outer) →
    t.kind = .factor → t.lexeme = [] → P errno (done ++ [t]) (.error message :: outer)

/-- What nodes keep of the tokens read so far: their symbols in order, a place without a symbol or
a symbol for each of the factors and operators, and every factor if none was empty. -/
structure Accounts (done : List Token) (nodes : List AstNode) : Prop where
  reads : SublistForall₂ Symbol.StandsFor (stackSymbols nodes) done
  weight : stackWeight nodes ≤ done.countP Token.isSymbol
  factors : (∀ t ∈ done, t.stops = true → t.kind = .rparen) →
    (stackSymbols nodes).countP Symbol.isFactor = done.countP Token.isFactor
  proper : .expression .null ∉ nodes

/-- The nodes on the stacks, from the top. -/
def Config.nodes : Config → List AstNode
  | main stack => stack
  | group stack inner | expression stack inner => inner ++ stack

section Kept

variable {P : Bool → List Token → List AstNode → Prop} {done : List Token}
  {nodes inner outer : List AstNode} {n : AstNode} {t : Token}

theorem Kept.pushToken (hP : Kept P) {errno : Bool} {q : List AstNode × Bool}
    (h : P errno done (inner ++ outer)) (ht : t.stops = false)
    (hq : pushToken errno inner t = .ok q) : P q.2 (done ++ [t]) (q.1 ++ outer) := by
  rw [Parser.pushToken] at hq
  cases hk : t.kind with
  | factor =>
    have hl : t.lexeme ≠ [] := by simpa [Token.stops, hk] using ht
    have herrno : t.errnoAfter errno = (createFactor errno t).2 := by
      simp [Token.errnoAfter, Token.isFactor, hk, hl]
    rw [hk] at hq
    obtain ⟨stack, hstack, rfl⟩ := Except.map_eq_ok.mp hq
    have hpush : P (createFactor errno t).2 (done ++ [t])
        (.expression (.factor (createFactor errno t).1) :: (inner ++ outer)) :=
      herrno ▸ hP.push h (x := .factor (createFactor errno t).1) rfl rfl (by simp) ⟨hk, hl, rfl⟩
    split_ifs at hstack
    · exact hP.shrink hpush ((Shrinks.reduce hstack).append outer)
    · obtain rfl := Except.ok.inj hstack
      exact hpush
  | binary op =>
    have herrno : t.errnoAfter errno = errno := by simp [Token.errnoAfter, Token.isFactor, hk]
    rw [hk] at hq
    obtain rfl := Except.ok.inj hq
    exact herrno ▸ hP.push h (x := .operator op) rfl rfl (by simp) (.inl hk)
  | logical op =>
    have herrno : t.errnoAfter errno = errno := by simp [Token.errnoAfter, Token.isFactor, hk]
    rw [hk] at hq
    obtain rfl := Except.ok.inj hq
    exact herrno ▸ hP.push h (x := .operator op) rfl rfl (by simp) (.inr hk)
  | assign =>
    rw [hk] at hq
    cases hq
  | comment | lparen | rparen | unexpected =>
    rw [hk] at hq
    obtain rfl := Except.ok.inj hq
    exact hP.skip h (by simp [Token.isSymbol, hk])

/-- A token that ends nothing, in a group or any other expression. -/
theorem Kept.pushStep (hP : Kept P) {errno errno' : Bool} {c' : Config}
    {f : List AstNode → Config} (hf : ∀ stack, (f stack).nodes = stack ++ outer)
    (h : P errno done (inner ++ outer)) (ht : t.stops = false)
    (hstep : (Parser.pushToken errno inner t).toOption.map (fun p => (f p.1, p.2)) =
      some (c', errno')) :
    P errno' (done ++ [t]) c'.nodes := by
  cases hq : Parser.pushToken errno inner t with
  | error e => simp [hq, Except.toOption] at hstep
  | ok q =>
    rw [hq] at hstep
    cases hstep
    rw [hf]
    exact hP.pushToken h ht hq

theorem Kept.stepExpression (hP : Kept P) {errno errno' : Bool} {c' : Config}
    (h : P errno done (inner ++ outer))
    (hstep : Config.stepExpression errno outer inner t = some (c', errno')) :
    P errno' (done ++ [t]) c'.nodes := by
  rw [Config.stepExpression] at hstep
  split_ifs at hstep with hstop
  · cases hs : stopNode inner t >>= complete outer with
    | error e => simp [hs, Except.toOption] at hstep
    | ok stack =>
      obtain ⟨n, hn, hcomplete⟩ := Except.bind_eq_ok.mp hs
      rw [hs] at hstep
      cases hstep
      rw [stopNode] at hn
      split_ifs at hn with hk
      · have hskip := hP.skip h (t := t) (by simp [Token.isSymbol, hk])
        exact hP.shrink (hP.shrink hskip ((Shrinks.flatten hn).append outer)) (.complete hcomplete)
      · have hempty : t.kind = .factor ∧ t.lexeme = [] := by simpa [Token.stops, hk] using hstop
        obtain rfl := Except.ok.inj hn
        exact hP.shrink (hP.fail _ h hempty.1 hempty.2) (.complete hcomplete)
  · exact hP.pushStep (fun _ => rfl) h (by simpa using hstop) hstep

theorem Kept.stepGroup (hP : Kept P) {errno errno' : Bool} {c' : Config}
    (h : P errno done (inner ++ outer))
    (hstep : Config.stepGroup errno outer inner t = some (c', errno')) :
    P errno' (done ++ [t]) c'.nodes := by
  rw [Config.stepGroup] at hstep
  split_ifs at hstep with hstop
  · cases hn : groupNode inner t with
    | error e => simp [hn, Except.toOption] at hstep
    | ok n =>
      rw [hn] at hstep
      cases hstep
      rw [groupNode] at hn
      split_ifs at hn with hk
      · have hskip := hP.skip h (t := t) (by simp [Token.isSymbol, hk])
        exact hP.shrink hskip ((Shrinks.flatten hn).append outer)
      · have hempty : t.kind = .factor ∧ t.lexeme = [] := by simpa [Token.stops, hk] using hstop
        obtain rfl := Except.ok.inj hn
        exact hP.fail _ h hempty.1 hempty.2
  · exact hP.pushStep (fun _ => rfl) h (by simpa using hstop) hstep

/-- One token. -/
theorem Kept.step (hP : Kept P) {errno errno' : Bool} {c c' : Config} (h : P errno done c.nodes)
    (hstep : c.step errno t = some (c', errno')) : P errno' (done ++ [t]) c'.nodes := by
  cases c with
  | main stack =>
    cases hk : t.kind with
    | logical op =>
      have herrno : t.errnoAfter errno = errno := by simp [Token.errnoAfter, Token.isFactor, hk]
      simp only [Config.step, hk, Option.some.injEq, Prod.mk.injEq] at hstep
      obtain ⟨rfl, rfl⟩ := hstep
      exact herrno ▸ hP.push h (x := .operator op) rfl rfl (by simp) (.inr hk)
    | lparen =>
      simp only [Config.step, hk, Option.some.injEq, Prod.mk.injEq] at hstep
      obtain ⟨rfl, rfl⟩ := hstep
      exact hP.skip h (by simp [Token.isSymbol, hk])
    | _ =>
      simp only [Config.step, hk] at hstep
      exact hP.stepExpression (show P errno done ([] ++ stack) from h) hstep
  | group stack inner => exact hP.stepGroup h hstep
  | expression stack inner => exact hP.stepExpression h hstep

theorem of_root? {errno : Bool} (h : P errno done nodes) (hroot : Config.root? nodes = some n) :
    P errno done [n] ∧ n.isError = false := by
  rcases nodes with - | ⟨m, - | ⟨m', nodes⟩⟩
  · cases hroot
  · rw [Config.root?] at hroot
    split_ifs at hroot with hm
    cases hroot
    exact ⟨h, by simpa using hm⟩
  · cases hroot

/-- All of the tokens, down to the root. -/
theorem Kept.result (hP : Kept P) {errno : Bool} {c : Config} (ts : List Token)
    (h : P errno done c.nodes) (hn : c.result errno ts = some n) :
    ∃ errno', P errno' (done ++ ts) [n] ∧ n.isError = false := by
  induction ts generalizing c errno done with
  | nil =>
    rw [List.append_nil]
    cases c with
    | main stack => exact ⟨errno, of_root? h hn⟩
    | group stack inner => cases hn
    | expression stack inner =>
      obtain ⟨stack', hstack, hroot⟩ := Option.bind_eq_some_iff.mp hn
      cases hs : flatten inner >>= complete stack with
      | error e => simp [hs, Except.toOption] at hstack
      | ok s =>
        obtain ⟨m, hm, hcomplete⟩ := Except.bind_eq_ok.mp hs
        rw [hs] at hstack
        cases hstack
        exact ⟨errno, of_root? (hP.shrink (hP.shrink h ((Shrinks.flatten hm).append stack))
          (.complete hcomplete)) hroot⟩
  | cons t ts ih =>
    rw [Config.result] at hn
    obtain ⟨⟨c', errno'⟩, hstep, hn⟩ := Option.bind_eq_some_iff.mp hn
    rw [List.append_cons]
    exact ih (hP.step h hstep) hn

/-- A root that is no error keeps what holds of the empty stack. -/
theorem Kept.parse (hP : Kept P) {errno : Bool} (hstart : P errno [] []) {tokens : List Token}
    (hn : parse errno tokens = .node n) (he : n.isError = false) :
    ∃ errno', P errno' tokens [n] := by
  obtain ⟨errno', h, -⟩ :=
    hP.result (c := .main []) tokens hstart ((accepted_parse tokens n).mp ⟨hn, he⟩)
  exact ⟨errno', h⟩

end Kept

section Accounts

variable {errno : Bool} {done : List Token} {nodes nodes' inner outer : List AstNode}
  {n : AstNode} {t : Token} {x : Symbol}

theorem Accounts.shrink (h : Accounts done nodes) (hs : Shrinks nodes nodes') :
    Accounts done nodes' where
  reads := SublistForall₂.sublist h.reads hs.symbols
  weight := hs.weight ▸ h.weight
  factors hdone := hs.factors.trans (h.factors hdone)
  proper := hs.proper h.proper

/-- A token that is neither a factor nor an operator. -/
theorem Accounts.skip (h : Accounts done nodes) (ht : t.isSymbol = false) :
    Accounts (done ++ [t]) nodes := by
  have hfactor : t.isFactor = false := by
    unfold Token.isSymbol at ht
    unfold Token.isFactor
    cases hk : t.kind <;> simp_all
  constructor
  · simpa using SublistForall₂.append h.reads (.nil (l := [t]))
  · simpa [ht] using h.weight
  · intro hdone
    simpa [hfactor] using h.factors fun u hu => hdone u (List.mem_append_left _ hu)
  · exact h.proper

/-- A token that becomes a node of its own. -/
theorem Accounts.push (h : Accounts done nodes) (hn : n.symbols = [x]) (hw : n.weight = 1)
    (hnull : n ≠ .expression .null) (hx : x.ReadsAt errno t) :
    Accounts (done ++ [t]) (n :: nodes) := by
  have hsymbol := hx.isSymbol
  have hfactor := hx.isFactor
  constructor
  · rw [stackSymbols, hn]
    exact SublistForall₂.append h.reads (.cons ⟨errno, hx⟩ .nil)
  · have hweight := h.weight
    simp only [stackWeight, List.map_cons, List.sum_cons, hw, List.countP_append,
      List.countP_singleton, hsymbol, if_true] at hweight ⊢
    omega
  · intro hdone
    have hcount := h.factors fun u hu => hdone u (List.mem_append_left _ hu)
    simp only [stackSymbols, hn, List.countP_append, List.countP_singleton, hcount, hfactor]
  · rw [List.mem_cons, not_or]
    exact ⟨hnull.symm, h.proper⟩

/-- A factor without a lexeme: the expression so far is given up. -/
theorem Accounts.fail (message : Message) (h : Accounts done (inner ++ outer))
    (ht : t.kind = .factor) (hl : t.lexeme = []) :
    Accounts (done ++ [t]) (.error message :: outer) := by
  have hsymbol : t.isSymbol = true := by
    unfold Token.isSymbol
    rw [ht]
  constructor
  · have houter : (stackSymbols outer).Sublist (stackSymbols (inner ++ outer)) := by
      rw [stackSymbols_append]
      exact List.sublist_append_left _ _
    simpa [stackSymbols, AstNode.symbols] using
      SublistForall₂.append (SublistForall₂.sublist h.reads houter) (.nil (l := [t]))
  · have hweight := h.weight
    simp only [stackWeight, List.map_append, List.sum_append, List.map_cons, List.sum_cons,
      AstNode.weight, List.countP_append, List.countP_singleton, hsymbol, if_true] at hweight ⊢
    omega
  · intro hdone
    have hstop := hdone t (by simp) (by simp [Token.stops, ht, hl])
    rw [ht] at hstop
    cases hstop
  · have hproper := h.proper
    simp only [List.mem_append, not_or, List.mem_cons, reduceCtorEq, false_or] at hproper ⊢
    exact hproper.2

theorem kept_accounts : Kept fun _ => Accounts where
  shrink := Accounts.shrink
  skip := Accounts.skip
  push := Accounts.push
  fail := Accounts.fail

/-- The root keeps what the tokens left behind. -/
theorem accounts_parse {tokens : List Token} (hn : parse errno tokens = .node n)
    (he : n.isError = false) : Accounts tokens [n] := by
  obtain ⟨-, h⟩ := kept_accounts.parse ⟨.nil, le_rfl, fun _ => rfl, by simp⟩ hn he
  exact h

/-- The symbols of a root, counted: it is an operator, or a tree with one operand more than
operators. -/
theorem symbols_root (hn : n.isError = false) (hnull : n ≠ .expression .null) :
    1 ≤ n.symbols.length ∧
      ((∃ k, n.weight = n.symbols.length + k ∧
          n.symbols.length + 1 = 2 * n.symbols.countP Symbol.isFactor + k) ∨
        n.symbols.length = 1 ∧ n.symbols.countP Symbol.isFactor = 0) := by
  cases n with
  | expression e =>
    refine ⟨?_, .inl ⟨e.nulls, rfl, e.length_symbols⟩⟩
    cases e with
    | null => exact absurd rfl hnull
    | factor f => exact le_rfl
    | binary left op right =>
      simp only [AstNode.symbols_expression, Expression.symbols, List.length_append,
        List.length_cons]
      omega
  | binaryOperator | logicalOperator => exact ⟨le_rfl, .inr ⟨rfl, rfl⟩⟩
  | error => cases hn

/-- Of regular tokens only a closing parenthesis ends an expression. -/
theorem Regular.kind_of_stops {tokens : List Token} (h : Regular (core tokens)) :
    ∀ t ∈ tokens, t.stops = true → t.kind = .rparen := by
  intro t ht hstop
  by_contra hk
  have hfactor : t.kind = .factor := by
    simp only [Token.stops, hk, decide_false, Bool.false_or, Bool.and_eq_true,
      decide_eq_true_eq] at hstop
    exact hstop.1
  have hmem : t ∈ core tokens := List.mem_filter.mpr ⟨ht, by simp [hfactor]⟩
  rw [h.not_stops t hmem] at hstop
  cases hstop

/-- The tree has a symbol for each of its tokens exactly when these are regular. -/
theorem forall₂_standsFor_iff {tokens : List Token} (h : Accounts tokens [n])
    (hn : n.isError = false) :
    Forall₂ Symbol.StandsFor n.symbols (core tokens) ↔ Regular (core tokens) := by
  have hreads : SublistForall₂ Symbol.StandsFor n.symbols tokens := h.reads
  have hweight : n.weight ≤ tokens.countP Token.isSymbol := by simpa [stackWeight] using h.weight
  have hcore := countP_isSymbol_le tokens
  obtain ⟨hpos, hcount⟩ := symbols_root hn (by simpa [eq_comm] using h.proper)
  constructor
  -- As many symbols as tokens leave no place without a child.
  · intro hall
    have hlen := hall.length_eq
    have hfactors := countP_eq_of_forall₂ hall fun _ _ ⟨_, hx⟩ => hx.isFactor
    refine ⟨forall_mem_of_forall₂ hall fun _ _ ⟨_, hx⟩ => hx.isSymbol,
      forall_mem_of_forall₂ hall fun _ _ ⟨_, hx⟩ => hx.not_stops, ?_⟩
    rw [← hlen, ← hfactors]
    rcases hcount with ⟨k, hk, hcount⟩ | ⟨hone, -⟩
    · exact .inl (by omega)
    · exact .inr hone
  -- All factors are there, and so no operator can be missing.
  · intro hreg
    obtain ⟨sub, hall, hsub⟩ := List.sublistForall₂_iff.mp hreads
    have hmem : ∀ t ∈ sub, t.isSymbol = true :=
      forall_mem_of_forall₂ hall fun _ _ ⟨_, hx⟩ => hx.isSymbol
    have hsubcore : sub.Sublist (core tokens) := by
      have hfilter := hsub.filter
        fun t => decide (t.kind ≠ .lparen ∧ t.kind ≠ .rparen ∧ t.kind ≠ .comment)
      rwa [List.filter_eq_self.mpr fun t ht => by simpa using isSymbol_core (hmem t ht)] at hfilter
    have hstops := hreg.kind_of_stops
    have hfactors : n.symbols.countP Symbol.isFactor = (core tokens).countP Token.isFactor := by
      rw [countP_core]
      exact h.factors hstops
    have hlen : (core tokens).length ≤ sub.length := by
      rw [← hall.length_eq]
      rcases hreg.count with hc | hc <;> rcases hcount with ⟨k, -, hcount⟩ | ⟨hone, hzero⟩ <;> omega
    rwa [← hsubcore.eq_of_length_le hlen]

end Accounts

/-! ## The factors of a tree -/

section Factors

variable {errno errno₀ : Bool} {done tokens : List Token} {nodes nodes' inner outer : List AstNode}
  {n : AstNode} {t : Token} {x : Symbol}

theorem factorsRead_append (errno : Bool) (ts us : List Token) :
    factorsRead errno (ts ++ us) = factorsRead errno ts ++
      factorsRead (ts.foldl (fun e t => t.errnoAfter e) errno) us := by
  induction ts generalizing errno with
  | nil => rfl
  | cons t ts ih => simp [factorsRead, ih]

theorem length_filterMap_factor? (symbols : List Symbol) :
    (symbols.filterMap Symbol.factor?).length = symbols.countP Symbol.isFactor := by
  induction symbols with
  | nil => rfl
  | cons x symbols ih =>
    rw [List.filterMap_cons, List.countP_cons, ← ih]
    cases x <;> rfl

/-- The factors of the nodes are those that the tokens are read as, if none was empty, and `errno`
is what the tokens have left behind. -/
structure Threads (errno₀ errno : Bool) (done : List Token) (nodes : List AstNode) : Prop where
  errno : errno = done.foldl (fun e t => t.errnoAfter e) errno₀
  factors : (∀ t ∈ done, t.stops = true → t.kind = .rparen) →
    (stackSymbols nodes).filterMap Symbol.factor? = factorsRead errno₀ done

theorem Threads.shrink (h : Threads errno₀ errno done nodes) (hs : Shrinks nodes nodes') :
    Threads errno₀ errno done nodes' where
  errno := h.errno
  factors hdone := by
    rw [← h.factors hdone]
    refine (hs.symbols.filterMap Symbol.factor?).eq_of_length ?_
    rw [length_filterMap_factor?, length_filterMap_factor?, hs.factors]

theorem Threads.skip (h : Threads errno₀ errno done nodes) (ht : t.isSymbol = false) :
    Threads errno₀ errno (done ++ [t]) nodes := by
  have hfactor : t.isFactor = false := by
    by_contra hf
    rw [isSymbol_of_isFactor (by simpa using hf)] at ht
    cases ht
  constructor
  · simp [Token.errnoAfter, hfactor, h.errno]
  · intro hdone
    rw [factorsRead_append, h.factors fun u hu => hdone u (List.mem_append_left _ hu)]
    simp [factorsRead, Token.factorRead, hfactor]

theorem Threads.push (h : Threads errno₀ errno done nodes) (hn : n.symbols = [x])
    (hx : x.ReadsAt errno t) : Threads errno₀ (t.errnoAfter errno) (done ++ [t]) (n :: nodes) := by
  constructor
  · rw [List.foldl_append, ← h.errno]
    rfl
  · intro hdone
    rw [factorsRead_append, ← h.errno, stackSymbols, hn, List.filterMap_append,
      h.factors fun u hu => hdone u (List.mem_append_left _ hu)]
    congr 1
    cases x with
    | factor f =>
      obtain ⟨hk, hl, rfl⟩ := hx
      simp [factorsRead, Token.factorRead, Token.isFactor, Symbol.factor?, hk, hl]
    | operator op =>
      have hfactor : t.isFactor = false := Symbol.ReadsAt.isFactor hx ▸ rfl
      simp [factorsRead, Token.factorRead, Symbol.factor?, hfactor]

/-- A factor without a lexeme is not read. -/
theorem Threads.fail (message : Message) (h : Threads errno₀ errno done (inner ++ outer))
    (ht : t.kind = .factor) (hl : t.lexeme = []) :
    Threads errno₀ errno (done ++ [t]) (.error message :: outer) := by
  constructor
  · simp [Token.errnoAfter, hl, h.errno]
  · intro hdone
    have hstop := hdone t (by simp) (by simp [Token.stops, ht, hl])
    rw [ht] at hstop
    cases hstop

theorem kept_threads : Kept (Threads errno₀) where
  shrink := Threads.shrink
  skip := Threads.skip
  push h hn _ _ hx := h.push hn hx
  fail := Threads.fail

/-- The factors of a tree are those that its tokens are read as. -/
theorem factors_parse (hn : parse errno tokens = .node n) (he : n.isError = false)
    (hstops : ∀ t ∈ tokens, t.stops = true → t.kind = .rparen) :
    n.symbols.filterMap Symbol.factor? = factorsRead errno tokens := by
  have hkept : Kept (Threads errno) := kept_threads
  obtain ⟨errno', h⟩ := hkept.parse ⟨rfl, fun _ => rfl⟩ hn he
  simpa [stackSymbols] using h.factors hstops

/-! ### Numbers and `errno` -/

/-- Numbers, with `errno` as a sticky flag. -/
def numberFlag : StickyFlag Token Factor where
  raises := Token.overflows
  value t := .number (.ofInt (clamp intMin intMax (strtol t.lexeme).value))
  masked := .number (.ofInt 0)

theorem createFactor_of_isNumber (h : t.isNumber = true) (errno : Bool) :
    createFactor errno t = numberFlag.step errno t := by
  simp only [Token.isNumber, Bool.and_eq_true, Bool.not_eq_true', decide_eq_false_iff_not] at h
  rw [createFactor, if_neg h.1.2, if_pos h.2]
  rw [toNumber]
  cases hflag : errno || (strtol t.lexeme).erange <;>
    simp [StickyFlag.step, numberFlag, Token.overflows, hflag]

/-- A factor that is no number does not depend on `errno`. -/
theorem createFactor_of_not_isNumber (hf : t.isFactor = true) (h : t.isNumber = false)
    (errno : Bool) : createFactor errno t = ((createFactor false t).1, errno) := by
  unfold createFactor
  split_ifs with htext hdigit
  · rfl
  · simp [Token.isNumber, hf, htext, hdigit] at h
  · rfl

theorem steadyNumbers_iff : SteadyNumbers errno tokens ↔
    numberFlag.run errno (tokens.filter Token.isNumber) =
      (tokens.filter Token.isNumber).map numberFlag.fresh := by
  have hfresh : ∀ t ∈ tokens.filter Token.isNumber,
      t.readsZero ↔ numberFlag.fresh t = numberFlag.masked := by
    intro t ht
    rw [Token.readsZero, createFactor_of_isNumber (List.mem_filter.mp ht).2]
    rfl
  have hsteady : numberFlag.Steady (tokens.filter Token.isNumber) ↔
      (tokens.filter Token.isNumber).Pairwise fun t u => t.overflows = true → u.readsZero := by
    refine List.Pairwise.iff_of_mem fun {t u} _ hu => ?_
    rw [hfresh u hu]
    rfl
  cases errno with
  | false => simp [SteadyNumbers, StickyFlag.run_eq_map_fresh_iff, hsteady]
  | true =>
    have hall : (∀ t ∈ tokens.filter Token.isNumber, t.readsZero) ↔
        ∀ t ∈ tokens.filter Token.isNumber, numberFlag.fresh t = numberFlag.masked :=
      forall₂_congr hfresh
    rw [StickyFlag.run_true_eq_map_fresh_iff, ← hall, SteadyNumbers]
    -- Where all are zero, those after an overflow are.
    constructor
    · exact fun h => h.2 rfl
    · exact fun h => ⟨List.pairwise_of_forall_mem_list fun _ _ u hu _ => h u hu, fun _ => h⟩

/-- **The factors are those that their tokens say** exactly when the numbers are steady. -/
theorem factorsRead_eq_iff (hstops : ∀ t ∈ tokens, t.stops = true → t.kind = .rparen) :
    factorsRead errno tokens =
        (tokens.filter Token.isFactor).map (fun t => (createFactor false t).1) ↔
      SteadyNumbers errno tokens := by
  rw [steadyNumbers_iff]
  induction tokens generalizing errno with
  | nil => exact Iff.rfl
  | cons t ts ih =>
    have ih := fun errno => @ih errno fun u hu => hstops u (List.mem_cons_of_mem t hu)
    cases hf : t.isFactor with
    | false =>
      have hnumber : t.isNumber = false := by simp [Token.isNumber, hf]
      simpa [factorsRead, Token.factorRead, Token.errnoAfter, hf, hnumber] using ih errno
    | true =>
      have hk : t.kind = .factor := of_decide_eq_true hf
      have hl : t.lexeme ≠ [] := fun hl => by
        have hparen := hstops t List.mem_cons_self (by simp [Token.stops, hk, hl])
        rw [hk] at hparen
        cases hparen
      cases hnumber : t.isNumber with
      -- Another factor is read as it stands, and leaves `errno` alone.
      | false =>
        have hcreate := createFactor_of_not_isNumber hf hnumber errno
        simpa [factorsRead, Token.factorRead, Token.errnoAfter, hf, hl, hnumber, hcreate]
          using ih errno
      | true =>
        have hcreate := createFactor_of_isNumber hnumber
        have hfresh : (createFactor false t).1 = numberFlag.fresh t := congrArg Prod.fst (hcreate _)
        simp [factorsRead, Token.factorRead, Token.errnoAfter, hf, hl, hnumber, hfresh,
          hcreate errno, StickyFlag.run, ih]

/-- The symbols are what the tokens say when they stand for them and the factors are right. -/
theorem forall₂_reads_iff {symbols : List Symbol} {ts : List Token} :
    Forall₂ Symbol.Reads symbols ts ↔ Forall₂ Symbol.StandsFor symbols ts ∧
      symbols.filterMap Symbol.factor? =
        (ts.filter Token.isFactor).map fun t => (createFactor false t).1 := by
  constructor
  · intro h
    refine ⟨h.imp fun x t hx => ⟨false, hx⟩, ?_⟩
    induction h with
    | nil => rfl
    | @cons x t symbols ts hx _ ih =>
      have hfactor := Symbol.ReadsAt.isFactor hx
      rw [List.filterMap_cons, List.filter_cons, ← hfactor, ih]
      cases x with
      | factor f => exact congrArg (· :: _) hx.2.2
      | operator op => rfl
  · rintro ⟨h, hfactors⟩
    induction h with
    | nil => exact .nil
    | @cons x t symbols ts hx _ ih =>
      obtain ⟨errno, hx⟩ := hx
      rw [List.filterMap_cons, List.filter_cons, ← hx.isFactor] at hfactors
      cases x with
      | factor f =>
        obtain ⟨hhead, htail⟩ := List.cons.inj hfactors
        exact .cons ⟨hx.1, hx.2.1, hhead⟩ (ih htail)
      | operator op => exact .cons hx (ih hfactors)

theorem filter_isFactor_core (tokens : List Token) :
    (core tokens).filter Token.isFactor = tokens.filter Token.isFactor := by
  rw [core, List.filter_filter]
  refine List.filter_congr fun t _ => ?_
  cases hf : t.isFactor with
  | false => rfl
  | true => simpa using isSymbol_core (isSymbol_of_isFactor hf)

/-- The tree is what its tokens say exactly when these are regular and their numbers steady. -/
theorem forall₂_reads_parse_iff (hn : parse errno tokens = .node n) (he : n.isError = false) :
    Forall₂ Symbol.Reads n.symbols (core tokens) ↔
      Regular (core tokens) ∧ SteadyNumbers errno tokens := by
  rw [forall₂_reads_iff, forall₂_standsFor_iff (accounts_parse hn he) he, filter_isFactor_core]
  refine and_congr_right fun hreg => ?_
  rw [factors_parse hn he hreg.kind_of_stops, factorsRead_eq_iff hreg.kind_of_stops]

end Factors

/-- **Soundness of the parser.** A root that is no error has the factors and operators of the tokens
in order, and their parentheses match, exactly when the tokens are not let through, or their
parentheses match, the others are factors with a lexeme and operators, one factor more than
operators or a single token, and no number that is not zero is read while `errno` is set. -/
theorem sound_iff (errno : Bool) (tokens : List Token) :
    Sound errno tokens ↔ ((Recognizer.main .empty).accepts tokens = true →
      Balanced tokens ∧ Regular (core tokens) ∧ SteadyNumbers errno tokens) := by
  rw [← isError_parse errno tokens]
  constructor
  · intro h herror
    obtain ⟨n, hparse, hn⟩ := RootNode.isError_eq_false_iff.mp herror
    obtain ⟨hbalanced, hall⟩ := h n hparse hn
    exact ⟨hbalanced, (forall₂_reads_parse_iff hparse hn).mp hall⟩
  · intro h n hparse hn
    obtain ⟨hbalanced, hreg⟩ := h (RootNode.isError_eq_false_iff.mpr ⟨n, hparse, hn⟩)
    exact ⟨hbalanced, (forall₂_reads_parse_iff hparse hn).mpr hreg⟩

/-- `! a )`. -/
def negatedAndUnmatched : List Token :=
  [⟨.negate, [], 0⟩, ⟨.identifier, ['a'], 1⟩, ⟨.rparen, [], 2⟩]

/-- The parser makes `a` of `! a )`. -/
theorem not_sound_negatedAndUnmatched :
    parse false negatedAndUnmatched = .node (.expression (.factor (.var ['a']))) ∧
      ¬ Sound false negatedAndUnmatched := by
  refine ⟨by decide, fun h => ?_⟩
  have hbalanced := (h (.expression (.factor (.var ['a']))) (by decide) rfl).1
  revert hbalanced
  decide

end WwivBasic.Parser
