import WwivBasic.Core.Parser.Acceptance
import WwivBasic.Core.ToNumber

/-!
# Conditions with parentheses

Comparisons joined by `&&` and `||`, printed with parentheses around the operands that need them,
lexed and parsed again. Only the loop of `parse` begins a group, `parseExpression` passes an opening
parenthesis by, and a group does not complete the operator that waits for it: a tree comes back
when its groups are all on the left, or when a single flat one is on the right.

## Main definitions

* `Atom`, `Cond`: factors and trees that can be printed
* `Cond.body`, `Cond.text`: how a tree is printed
* `Cond.RoundTrip`: lexing and parsing the text gives the tree back
* `Cond.Recovered`: the trees for which they do

## Main results

* `roundTrip_iff`: the trees that come back
-/

namespace WwivBasic.Parser

/-! ## Trees and their texts -/

/-- `==`, `!=`, `>`, `>=`, `<` and `<=`. -/
inductive Comparison
  | eq | ne | gt | ge | lt | le
  deriving DecidableEq

namespace Comparison

/-- The token. -/
def type : Comparison → TokenType
  | eq => .eq
  | ne => .ne
  | gt => .gt
  | ge => .ge
  | lt => .lt
  | le => .le

/-- The operator. -/
def operator : Comparison → Operator
  | eq => .eq
  | ne => .ne
  | gt => .gt
  | ge => .ge
  | lt => .lt
  | le => .le

end Comparison

/-- `&&` and `||`. -/
inductive Connective
  | and | or
  deriving DecidableEq

namespace Connective

/-- The token. -/
def type : Connective → TokenType
  | and => .logicalAnd
  | or => .logicalOr

/-- The operator. -/
def operator : Connective → Operator
  | and => .logicalAnd
  | or => .logicalOr

end Connective

theorem Comparison.operator_ne (op : Comparison) (op' : Connective) :
    op.operator ≠ op'.operator := by
  cases op <;> cases op' <;> simp [Comparison.operator, Connective.operator]

/-- A variable, a number or a text that is not empty. -/
inductive Atom
  | var (name : Str) (legal : Spelling.Legal (.identifier, name))
  | number (n : ℕ) (le : (n : Int) ≤ intMax)
  | string (s : Str) (legal : Spelling.Legal (.string, s)) (nonempty : s ≠ [])

namespace Atom

/-- How the factor is written. -/
def spelling : Atom → Spelling
  | var name _ => (.identifier, name)
  | number n _ => (.number, Nat.toDigits 10 n)
  | string s _ _ => (.string, s)

/-- What the parser makes of the factor. After an overflow, every number is read as zero. -/
def read (errno : Bool) : Atom → Factor
  | var name _ => .var name
  | number n _ => .number (.ofInt (if errno then 0 else (n : Int)))
  | string s _ _ => .string s

/-- The factor. -/
def factor (a : Atom) : Factor := a.read false

/-- The factor is no number other than zero. -/
def Zero : Atom → Prop
  | number n _ => n = 0
  | _ => True

theorem legal_spelling (a : Atom) : a.spelling.Legal := by
  cases a with
  | var name legal => exact legal
  | number n le =>
    exact ⟨Nat.toDigits_ne_nil, fun c hc => Nat.isDigit_of_mem_toDigits (by decide) (by decide) hc⟩
  | string s legal nonempty => exact legal

theorem read_eq_factor_iff (a : Atom) (errno : Bool) :
    a.read errno = a.factor ↔ (errno = true → a.Zero) := by
  cases errno with
  | false => simp [factor]
  | true =>
    cases a with
    | var name legal => simp [factor, read, Zero]
    | string s legal nonempty => simp [factor, read, Zero]
    | number n le =>
      have hle : (n : Int) < 2 ^ 31 := lt_of_le_of_lt le (by decide)
      have hint : Int32.ofInt 0 = Int32.ofInt n ↔ n = 0 := by
        constructor
        · intro h
          have hn := congrArg Int32.toInt h
          rw [Int32.toInt_ofInt_of_le (by decide) (by decide),
            Int32.toInt_ofInt_of_le (by omega) hle] at hn
          omega
        · rintro rfl
          rfl
      simpa [factor, read, Zero] using hint

end Atom

/-- A tree of comparisons joined by `&&` and `||`. A comparison may be printed in parentheses where
it is an operand. -/
inductive Cond
  | comparison (wrapped : Bool) (left : Atom) (op : Comparison) (right : Atom)
  | logical (left : Cond) (op : Connective) (right : Cond)

/-- The spellings, in parentheses or not. -/
def wrap : Bool → List Spelling → List Spelling
  | true, us => (.lparen, []) :: us ++ [(.rparen, [])]
  | false, us => us

namespace Cond

/-- The tree is printed in parentheses where it is an operand. -/
def isGroup : Cond → Bool
  | comparison wrapped _ _ _ => wrapped
  | logical _ _ _ => true

/-- How the tree is printed, apart from parentheses around it. -/
def body : Cond → List Spelling
  | comparison _ left op right => [left.spelling, (op.type, []), right.spelling]
  | logical left op right =>
    wrap left.isGroup left.body ++ (op.type, []) :: wrap right.isGroup right.body

/-- The text, a space between any two tokens. -/
def text (c : Cond) : Str := Lexer.spaced c.body

/-- The tree, with its numbers as they are read. -/
def read (errno : Bool) : Cond → Expression
  | comparison _ left op right =>
    .binary (.factor (left.read errno)) op.operator (.factor (right.read errno))
  | logical left op right => .binary (left.read errno) op.operator (right.read errno)

/-- The tree as the parser builds trees. -/
def expression (c : Cond) : Expression := c.read false

/-- All numbers are zero. -/
def Zero : Cond → Prop
  | comparison _ left _ right => left.Zero ∧ right.Zero
  | logical left _ right => left.Zero ∧ right.Zero

/-- Lexing and parsing the text gives the tree. -/
def RoundTrip (errno : Bool) (c : Cond) : Prop :=
  ∃ l, Lexer.ofSource c.text = .ok l ∧ parse errno l.tokens_ = .node (.expression c.expression)

/-- No right operand in the tree is in parentheses. -/
def LeftNested : Cond → Prop
  | comparison _ _ _ _ => True
  | logical left _ right => right.isGroup = false ∧ left.LeftNested

/-- There are no parentheses in the tree. -/
def Flat : Cond → Prop
  | comparison _ _ _ _ => True
  | logical left _ right => left.isGroup = false ∧ right.isGroup = false

/-- All parentheses are on the left, or there is one pair, on the right of the root. -/
def Recovered : Cond → Prop
  | comparison _ _ _ _ => True
  | logical left _ right =>
    right.isGroup = false ∧ left.LeftNested ∨ left.isGroup = false ∧ right.Flat

theorem legal_body (c : Cond) : ∀ u ∈ c.body, u.Legal := by
  have hwrap : ∀ (b : Bool) (us : List Spelling), (∀ u ∈ us, u.Legal) →
      ∀ u ∈ wrap b us, u.Legal := by
    intro b us hus u hu
    cases b with
    | false => exact hus u hu
    | true =>
      simp only [wrap, List.mem_append, List.mem_cons, List.not_mem_nil, or_false] at hu
      rcases hu with (rfl | hu) | rfl
      · rfl
      · exact hus u hu
      · rfl
  induction c with
  | comparison wrapped left op right =>
    have hop : Spelling.Legal (op.type, []) := by cases op <;> rfl
    simpa [body] using ⟨left.legal_spelling, hop, right.legal_spelling⟩
  | logical left op right ihl ihr =>
    have hop : Spelling.Legal (op.type, []) := by cases op <;> rfl
    intro u hu
    simp only [body, List.mem_append, List.mem_cons] at hu
    rcases hu with hu | rfl | hu
    · exact hwrap _ _ ihl u hu
    · exact hop
    · exact hwrap _ _ ihr u hu

theorem read_eq_expression_iff (c : Cond) (errno : Bool) :
    c.read errno = c.expression ↔ (errno = true → c.Zero) := by
  induction c with
  | comparison wrapped left op right =>
    have hleft := left.read_eq_factor_iff errno
    have hright := right.read_eq_factor_iff errno
    simp only [Atom.factor] at hleft hright
    simp only [expression, read, Expression.binary.injEq, Expression.factor.injEq, true_and, hleft,
      hright, Zero]
    exact imp_and.symm
  | logical left op right ihl ihr =>
    simp only [expression] at ihl ihr
    simp only [expression, read, Expression.binary.injEq, true_and, ihl, ihr, Zero]
    exact imp_and.symm

end Cond

/-! ## Reading the text -/

/-- A token with the spelling. -/
def Spelling.token (u : Spelling) : Token := ⟨u.1, u.2, 0⟩

/-- Inside a group, or inside any other expression. -/
def Config.inside : Bool → List AstNode → List AstNode → Config
  | true => .group
  | false => .expression

/-- The configuration after tokens with the spellings. -/
def walk (errno : Bool) (c : Config) (us : List Spelling) : Option (Config × Bool) :=
  c.run errno (us.map Spelling.token)

theorem complete_ne_nil {stack : List AstNode} (n : AstNode) : complete stack n ≠ .ok [] := by
  intro h
  rw [complete] at h
  split_ifs at h
  · rcases stack with - | ⟨op, - | ⟨left, stack⟩⟩
    · cases h
    · cases h
    · obtain ⟨m, -, hm⟩ := Except.bind_eq_ok.mp h
      cases hm
  · cases h

section Walks

variable {errno g : Bool} {c : Config} {stack inner : List AstNode} {u : Spelling}
  {us vs : List Spelling} {left : AstNode}

theorem walk_append : walk errno c (us ++ vs) =
    (walk errno c us).bind fun p => walk p.2 p.1 vs := by
  rw [walk, List.map_append, Config.run_append]
  rfl

theorem walk_cons : walk errno c (u :: vs) =
    (c.step errno u.token).bind fun p => walk p.2 p.1 vs := rfl

/-- An opening parenthesis in an expression is passed by. -/
theorem walk_inside_lparen : walk errno (.inside g stack inner) ((.lparen, []) :: vs) =
    walk errno (.inside g stack inner) vs := by
  cases g <;> rfl

theorem walk_inside_connective (op : Connective) :
    walk errno (.inside g stack inner) ((op.type, []) :: vs) =
      walk errno (.inside g stack (.logicalOperator op.operator :: inner)) vs := by
  cases g <;> cases op <;> rfl

theorem walk_main_connective (op : Connective) :
    walk errno (.main stack) ((op.type, []) :: vs) =
      walk errno (.main (.logicalOperator op.operator :: stack)) vs := by
  cases op <;> rfl

theorem Atom.kind_token (a : Atom) : a.spelling.token.kind = .factor := by
  cases a <;> rfl

theorem Atom.lexeme_token (a : Atom) : a.spelling.token.lexeme ≠ [] := by
  cases a with
  | var name legal =>
    rintro (rfl : name = [])
    exact absurd legal.1 (by decide)
  | number n le => exact Nat.toDigits_ne_nil
  | string s legal nonempty => exact nonempty

theorem Atom.createFactor_token (a : Atom) :
    createFactor errno a.spelling.token = (a.read errno, errno) := by
  cases a with
  | string s legal nonempty => rfl
  | var name legal =>
    -- A name starts with a letter.
    have hdigit : ¬ name.head?.any Char.isDigit = true := by
      rcases name with - | ⟨c, name⟩
      · simp
      · intro hc
        exact not_isAlpha_of_isDigit (by simpa using hc) (by simpa using legal.1)
    show (if _ then _ else if name.head?.any Char.isDigit = true then _ else _) = _
    rw [if_neg (by simp [Spelling.token, Atom.spelling]), if_neg hdigit]
    rfl
  | number n le =>
    have hdigit : (Nat.toDigits 10 n).head?.any Char.isDigit = true := by
      rcases hs : Nat.toDigits 10 n with - | ⟨c, s⟩
      · exact absurd hs Nat.toDigits_ne_nil
      · have hc : c ∈ Nat.toDigits 10 n := by simp [hs]
        simpa using Nat.isDigit_of_mem_toDigits (by decide) (by decide) hc
    show (if _ then _ else if (Nat.toDigits 10 n).head?.any Char.isDigit = true then _ else _) = _
    rw [if_neg (by simp [Spelling.token, Atom.spelling]), if_pos hdigit]
    show (Factor.number (.ofInt (toNumber intMin intMax (Nat.toDigits 10 n) errno).1),
      (toNumber intMin intMax (Nat.toDigits 10 n) errno).2) = _
    rw [toNumber_toDigits le]
    rfl

theorem Atom.stops_token (a : Atom) : a.spelling.token.stops = false := by
  simp [Token.stops, a.kind_token, a.lexeme_token]

/-- A token that does not end the expression. -/
theorem walk_inside (h : u.token.stops = false) : walk errno (.inside g stack inner) (u :: vs) =
    (pushToken errno inner u.token).toOption.bind fun p =>
      walk p.2 (.inside g stack p.1) vs := by
  rw [walk_cons]
  cases g
  · show (Config.stepExpression errno stack inner u.token).bind _ = _
    rw [Config.stepExpression, if_neg (by simp [h]), Option.bind_map]
    rfl
  · show (Config.stepGroup errno stack inner u.token).bind _ = _
    rw [Config.stepGroup, if_neg (by simp [h]), Option.bind_map]
    rfl

/-- A factor where no operator waits for it. -/
theorem walk_inside_atom (a : Atom) (h : needReduce inner false = false) :
    walk errno (.inside g stack inner) (a.spelling :: vs) =
      walk errno (.inside g stack (.expression (.factor (a.read errno)) :: inner)) vs := by
  rw [walk_inside a.stops_token, pushToken, a.kind_token]
  dsimp only
  rw [a.createFactor_token, if_neg (by simp [h])]
  rfl

/-- A factor that completes a comparison. -/
theorem walk_inside_complete (a : Atom) (op : Operator) :
    walk errno (.inside g stack (.binaryOperator op :: left :: inner)) (a.spelling :: vs) =
      walk errno (.inside g stack
        (.expression (.binary left.child op (.factor (a.read errno))) :: inner)) vs := by
  rw [walk_inside a.stops_token, pushToken, a.kind_token]
  dsimp only
  rw [a.createFactor_token]
  rfl

theorem walk_inside_comparison (op : Comparison) :
    walk errno (.inside g stack inner) ((op.type, []) :: vs) =
      walk errno (.inside g stack (.binaryOperator op.operator :: inner)) vs := by
  cases g <;> cases op <;> rfl

/-- A comparison where no operator waits for it. -/
theorem walk_inside_body {wrapped : Bool} {l : Atom} {op : Comparison} {r : Atom}
    (h : needReduce inner false = false) :
    walk errno (.inside g stack inner) ((Cond.comparison wrapped l op r).body ++ vs) =
      walk errno (.inside g stack
        (.expression ((Cond.comparison wrapped l op r).read errno) :: inner)) vs := by
  simp only [Cond.body, List.cons_append, List.nil_append]
  rw [walk_inside_atom l h, walk_inside_comparison, walk_inside_complete]
  rfl

/-- An expression begins with its first factor. -/
theorem walk_main_atom (a : Atom) : walk errno (.main stack) (a.spelling :: vs) =
    walk errno (.inside false stack []) (a.spelling :: vs) := by
  rw [walk_cons, walk_cons, Config.step, a.kind_token]
  rfl

theorem walk_main_body {wrapped : Bool} {l : Atom} {op : Comparison} {r : Atom} :
    walk errno (.main stack) ((Cond.comparison wrapped l op r).body ++ vs) =
      walk errno (.inside false stack
        [.expression ((Cond.comparison wrapped l op r).read errno)]) vs := by
  exact (walk_main_atom l).trans (walk_inside_body rfl)

theorem walk_main_lparen : walk errno (.main stack) ((.lparen, []) :: vs) =
    walk errno (.inside true stack []) vs := rfl

theorem walk_group_rparen : walk errno (.inside true stack inner) ((.rparen, []) :: vs) =
    (flatten inner).toOption.bind fun n => walk errno (.main (n :: stack)) vs := by
  show (Option.map _ (groupNode inner _).toOption).bind _ = _
  rw [Option.bind_map]
  rfl

theorem walk_expression_rparen : walk errno (.inside false stack inner) ((.rparen, []) :: vs) =
    (flatten inner >>= complete stack).toOption.bind fun s => walk errno (.main s) vs := by
  show (Option.map _ (stopNode inner _ >>= complete stack).toOption).bind _ = _
  rw [Option.bind_map]
  rfl

/-- A closing parenthesis ends an expression, and with it a node is left on the stack. -/
theorem walk_rparen (errno : Bool) (c : Config) (vs : List Spelling) :
    walk errno c ((.rparen, []) :: vs) = none ∨
    ∃ x s, walk errno c ((.rparen, []) :: vs) = walk errno (.main (x :: s)) vs := by
  cases c with
  | main stack => exact .inl rfl
  | group stack inner =>
    have h : walk errno (.group stack inner) ((.rparen, []) :: vs) = _ := walk_group_rparen
    rw [h]
    cases flatten inner with
    | error e => exact .inl rfl
    | ok n => exact .inr ⟨n, stack, rfl⟩
  | expression stack inner =>
    have h : walk errno (.expression stack inner) ((.rparen, []) :: vs) = _ :=
      walk_expression_rparen
    rw [h]
    cases hs : flatten inner >>= complete stack with
    | error e => exact .inl rfl
    | ok s =>
      obtain ⟨n, -, hn⟩ := Except.bind_eq_ok.mp hs
      rcases s with - | ⟨x, s⟩
      · exact absurd hn (complete_ne_nil n)
      · exact .inr ⟨x, s, rfl⟩

/-- Two closing parentheses in a row are never accepted. -/
theorem walk_rparen_rparen (c : Config) :
    walk errno c (us ++ (.rparen, []) :: (.rparen, []) :: vs) = none := by
  rw [walk_append]
  cases walk errno c us with
  | none => rfl
  | some p =>
    show walk p.2 p.1 _ = none
    rcases walk_rparen p.2 p.1 ((.rparen, []) :: vs) with h | ⟨x, s, h⟩ <;> rw [h]
    rfl

theorem walk_replicate (k : ℕ) :
    walk errno (.inside g stack inner) (List.replicate k (.lparen, []) ++ vs) =
      walk errno (.inside g stack inner) vs := by
  induction k with
  | zero => rfl
  | succ k ih =>
    rw [List.replicate_succ, List.cons_append, walk_inside_lparen, ih]

end Walks

/-! ## The trees that come back -/

/-- The root after a whole text. -/
def root (errno : Bool) (us : List Spelling) : Option AstNode :=
  (walk errno (.main []) us).bind fun p => p.1.finish

namespace Cond

variable {errno g : Bool} {c left right : Cond} {op : Connective} {stack inner : List AstNode}
  {vs : List Spelling}

/-- Without parentheses around it, an operand is a comparison. -/
theorem exists_of_isGroup (h : c.isGroup = false) : ∃ l op r, c = comparison false l op r := by
  cases c with
  | comparison wrapped l op r =>
    obtain rfl : wrapped = false := h
    exact ⟨l, op, r, rfl⟩
  | logical left op right => cases h

theorem walk_inside_operand (h : c.isGroup = false) (hinner : needReduce inner false = false) :
    walk errno (.inside g stack inner) (c.body ++ vs) =
      walk errno (.inside g stack (.expression (c.read errno) :: inner)) vs := by
  obtain ⟨l, op, r, rfl⟩ := exists_of_isGroup h
  exact walk_inside_body hinner

theorem walk_main_operand (h : c.isGroup = false) :
    walk errno (.main stack) (c.body ++ vs) =
      walk errno (.inside false stack [.expression (c.read errno)]) vs := by
  obtain ⟨l, op, r, rfl⟩ := exists_of_isGroup h
  exact walk_main_body

/-- The parentheses of a tree to the left of all others open together, and the groups close one
after the other. -/
theorem walk_leftNested (h : c.LeftNested) (k : ℕ) :
    walk errno (.inside true [] [])
        (List.replicate k (.lparen, []) ++ (c.body ++ (.rparen, []) :: vs)) =
      walk errno (.main [.expression (c.read errno)]) vs := by
  induction c generalizing k vs with
  | comparison wrapped l op r =>
    rw [walk_replicate, walk_inside_body rfl, walk_group_rparen]
    rfl
  | logical left op right ihl =>
    obtain ⟨hright, hleft⟩ := h
    rw [body, hright]
    cases hgroup : left.isGroup with
    | false =>
      simp only [wrap, List.append_assoc, List.cons_append]
      rw [walk_replicate, walk_inside_operand hgroup rfl, walk_inside_connective,
        walk_inside_operand hright rfl, walk_group_rparen]
      rfl
    -- The group on the left opens with one parenthesis more.
    | true =>
      have hopen : List.replicate k (TokenType.lparen, ([] : Str)) ++
          (wrap true left.body ++ (op.type, []) :: wrap false right.body ++ (.rparen, []) :: vs) =
          List.replicate (k + 1) (.lparen, []) ++ (left.body ++ (.rparen, []) ::
            ((op.type, []) :: (right.body ++ (.rparen, []) :: vs))) := by
        simp [wrap, List.replicate_succ']
      rw [hopen, ihl hleft, walk_main_connective, walk_main_operand hright, walk_expression_rparen]
      rfl

/-- The trees that come back. -/
theorem root_of_recovered (h : c.Recovered) :
    root errno c.body = some (.expression (c.read errno)) := by
  cases c with
  | comparison wrapped l op r =>
    rw [root, ← List.append_nil (body _), walk_main_body]
    rfl
  | logical left op right =>
    rw [root, body]
    rcases h with ⟨hright, hleft⟩ | ⟨hleft, hflat⟩
    · rw [hright]
      cases hgroup : left.isGroup with
      | false =>
        rw [← List.append_nil (wrap false right.body)]
        simp only [wrap]
        rw [walk_main_operand hgroup, walk_inside_connective, walk_inside_operand hright rfl]
        rfl
      | true =>
        have hleft' : walk errno (.inside true [] [])
            (left.body ++ (.rparen, []) :: ((op.type, []) :: (right.body ++ []))) =
              walk errno (.main [.expression (left.read errno)])
                ((op.type, []) :: (right.body ++ [])) := walk_leftNested hleft 0
        have hbody : wrap true left.body ++ (op.type, []) :: wrap false right.body =
            (.lparen, []) :: (left.body ++ (.rparen, []) ::
              ((op.type, []) :: (right.body ++ []))) := by
          simp [wrap]
        rw [hbody, walk_main_lparen, hleft', walk_main_connective, walk_main_operand hright]
        rfl
    · rw [hleft]
      cases hgroup : right.isGroup with
      | false =>
        rw [← List.append_nil (wrap false right.body)]
        simp only [wrap]
        rw [walk_main_operand hleft, walk_inside_connective, walk_inside_operand hgroup rfl]
        rfl
      -- The parenthesis on the right is passed by, and its partner ends the expression.
      | true =>
        simp only [wrap, List.cons_append]
        rw [walk_main_operand hleft, walk_inside_connective, walk_inside_lparen]
        cases right with
        | comparison wrapped l op' r =>
          rw [walk_inside_body rfl, walk_expression_rparen]
          rfl
        | logical left' op' right' =>
          obtain ⟨hleft', hright'⟩ := hflat
          rw [body, hleft', hright']
          simp only [wrap, List.append_assoc, List.cons_append]
          rw [walk_inside_operand hleft' rfl, walk_inside_connective,
            walk_inside_operand hright' rfl, walk_expression_rparen]
          rfl

/-! ## The trees that do not -/

theorem root_rparen_rparen (us vs : List Spelling) :
    root errno (us ++ (.rparen, []) :: (.rparen, []) :: vs) = none := by
  rw [root, walk_rparen_rparen]
  rfl

/-- A group on two nodes is never completed. -/
theorem result_group_of_length {ts : List Token} (h : 2 ≤ stack.length) :
    Config.result errno (.group stack inner) ts = none := by
  induction ts generalizing errno inner with
  | nil => rfl
  | cons t ts ih =>
    rw [Config.result, Config.step, Config.stepGroup]
    split_ifs
    · cases groupNode inner t with
      | error e => rfl
      | ok n =>
        have hdead : Dead (n :: stack) := dead_cons.mpr (Nat.le_add_right_of_le h)
        exact Dead.result (c := .main (n :: stack)) hdead
    · cases pushToken errno inner t with
      | error e => rfl
      | ok p => exact ih

/-- A tree with parentheses on the right somewhere on its left edge ends two groups at once. -/
theorem exists_rparen_rparen (h : ¬ c.LeftNested) :
    ∃ us ws, c.body ++ [(.rparen, [])] = us ++ (.rparen, []) :: (.rparen, []) :: ws := by
  induction c with
  | comparison wrapped l op r => exact absurd trivial h
  | logical left op right ihl =>
    rw [body]
    cases hright : right.isGroup with
    | true =>
      exact ⟨wrap left.isGroup left.body ++ (op.type, []) :: (.lparen, []) :: right.body, [],
        by simp [wrap]⟩
    | false =>
      have hleft : ¬ left.LeftNested := fun hl => h ⟨hright, hl⟩
      have hgroup : left.isGroup = true := by
        by_contra hg
        obtain ⟨l, op', r, rfl⟩ := exists_of_isGroup (by simpa using hg)
        exact hleft trivial
      obtain ⟨us, ws, hus⟩ := ihl hleft
      refine ⟨(.lparen, []) :: us, ws ++ (op.type, []) :: (right.body ++ [(.rparen, [])]), ?_⟩
      have hbody : wrap true left.body ++ (op.type, []) :: wrap false right.body ++
          [(.rparen, [])] = (.lparen, []) :: (left.body ++ [(.rparen, [])]) ++
            (op.type, []) :: (right.body ++ [(.rparen, [])]) := by
        simp [wrap]
      rw [hgroup, hbody, hus]
      simp

/-- Groups on both sides. -/
theorem root_of_groups (hleft : left.isGroup = true) (hright : right.isGroup = true) :
    root errno (logical left op right).body = none := by
  have hbody : (logical left op right).body = ((.lparen, []) :: left.body) ++ (.rparen, []) ::
      ((op.type, []) :: (.lparen, []) :: (right.body ++ [(.rparen, [])])) := by
    simp [body, hleft, hright, wrap]
  rw [hbody, root, walk_append]
  cases walk errno (.main []) ((.lparen, []) :: left.body) with
  | none => rfl
  | some p =>
    rw [Option.bind_some]
    rcases walk_rparen p.2 p.1 _ with h | ⟨x, s, h⟩
    · rw [h]
      rfl
    -- The second group begins on an operator and a node.
    · rw [h, walk_main_connective, walk_main_lparen, walk, ← Config.result_eq_run]
      exact result_group_of_length (by simp)

/-- A group on the right that begins with a group: its first operand is taken by the operator before
it. -/
theorem root_of_group_right {left' right' : Cond} {op' : Connective} {n : AstNode}
    (hleft' : left'.isGroup = true) (hright' : right'.isGroup = false)
    (hn : root errno (logical left op (logical left' op' right')).body = some n) :
    ∃ e errno', n = .expression (.binary e op'.operator (right'.read errno')) := by
  obtain ⟨us, hbody⟩ : ∃ us, (logical left op (logical left' op' right')).body =
      us ++ (.rparen, []) :: ((op'.type, []) :: (right'.body ++ [(.rparen, [])])) :=
    ⟨wrap left.isGroup left.body ++ (op.type, []) :: (.lparen, []) :: (.lparen, []) :: left'.body,
      by simp [body, hleft', hright', wrap,
        show (logical left' op' right').isGroup = true from rfl]⟩
  rw [hbody, root, walk_append] at hn
  cases hw : walk errno (.main []) us with
  | none =>
    rw [hw] at hn
    cases hn
  | some p =>
    rw [hw, Option.bind_some] at hn
    rcases walk_rparen p.2 p.1 ((op'.type, []) :: (right'.body ++ [(.rparen, [])])) with
      h | ⟨x, s, h⟩
    · rw [h] at hn
      cases hn
    · rw [h, walk_main_connective, walk_main_operand hright', walk_expression_rparen] at hn
      rcases s with - | ⟨y, s⟩
      · exact ⟨x.child, p.2, (Option.some.inj hn).symm⟩
      · cases hn

/-- With parentheses around it, an operand that ends in a closing parenthesis ends two groups. -/
theorem root_of_not_leftNested (hleft : ¬ left.LeftNested) :
    root errno (logical left op right).body = none := by
  have hgroup : left.isGroup = true := by
    by_contra hg
    obtain ⟨l, op', r, rfl⟩ := exists_of_isGroup (by simpa using hg)
    exact hleft trivial
  obtain ⟨us, ws, hus⟩ := exists_rparen_rparen hleft
  have hbody : (logical left op right).body = (.lparen, []) :: us ++ (.rparen, []) ::
      (.rparen, []) :: (ws ++ (op.type, []) :: wrap right.isGroup right.body) := by
    have hwrap : wrap true left.body = (.lparen, []) :: (left.body ++ [(.rparen, [])]) := rfl
    rw [body, hgroup, hwrap, hus]
    simp
  rw [hbody]
  exact root_rparen_rparen _ _

/-- Two groups that end at the end of the text. -/
theorem root_of_groups_right {left' right' : Cond} {op' : Connective}
    (hright' : right'.isGroup = true) :
    root errno (logical left op (logical left' op' right')).body = none := by
  have hbody : (logical left op (logical left' op' right')).body =
      (wrap left.isGroup left.body ++ (op.type, []) :: (.lparen, []) ::
        (wrap left'.isGroup left'.body ++ (op'.type, []) :: (.lparen, []) :: right'.body)) ++
      (.rparen, []) :: (.rparen, []) :: [] := by
    simp [body, hright', wrap, show (logical left' op' right').isGroup = true from rfl]
  rw [hbody]
  exact root_rparen_rparen _ _

/-- No other tree comes back. -/
theorem root_of_not_recovered (h : ¬ c.Recovered) :
    root errno c.body ≠ some (.expression c.expression) := by
  cases c with
  | comparison wrapped l op r => exact absurd trivial h
  | logical left op right =>
    simp only [Recovered, not_or, not_and] at h
    cases hright : right.isGroup with
    | false => simp [root_of_not_leftNested (h.1 hright)]
    | true =>
      cases hleft : left.isGroup with
      | true => simp [root_of_groups hleft hright]
      | false =>
        cases right with
        | comparison wrapped l op' r => exact absurd trivial (h.2 hleft)
        | logical left' op' right' =>
          cases hright' : right'.isGroup with
          | true => simp [root_of_groups_right hright']
          -- The tree on the right ends in a comparison, so the operators differ.
          | false =>
            have hleft' : left'.isGroup = true := by
              by_contra hl
              exact h.2 hleft ⟨by simpa using hl, hright'⟩
            intro hroot
            obtain ⟨e, errno', he⟩ := root_of_group_right hleft' hright' hroot
            obtain ⟨l, op'', r, rfl⟩ := exists_of_isGroup hright'
            simp only [expression, read, AstNode.expression.injEq, Expression.binary.injEq] at he
            exact op''.operator_ne op' he.2.2.2.1.symm

/-- A tree comes back if it is the root after its text. -/
theorem roundTrip_iff_root :
    c.RoundTrip errno ↔ root errno c.body = some (.expression c.expression) := by
  obtain ⟨l, hrun, -, htokens⟩ := Lexer.run_spaced (l := {}) 0 c.legal_body le_rfl
  have hsource : Lexer.ofSource c.text = .ok l := hrun
  have hspelling : l.tokens_.map Token.spelling =
      (c.body.map Spelling.token).map Token.spelling := by
    have hid : Token.spelling ∘ Spelling.token = id := rfl
    simpa [hid] using htokens
  have haccepted : parse errno l.tokens_ = .node (.expression c.expression) ∧
      (AstNode.expression c.expression).isError = false ↔
      Config.result errno (.main []) l.tokens_ = some (.expression c.expression) :=
    accepted_parse l.tokens_ (.expression c.expression)
  rw [Config.result_congr errno _ hspelling, Config.result_eq_run] at haccepted
  rw [root, walk, ← haccepted, RoundTrip, hsource]
  simp [AstNode.isError]

/-- **The trees that come back**: a tree printed with parentheses around its compound operands is
found again if and only if they are all on its left, or a bare comparison is on the left of its root
and at most one pair on the right. No number but zero comes back once an overflow was noted. -/
theorem roundTrip_iff (errno : Bool) (c : Cond) :
    c.RoundTrip errno ↔ c.Recovered ∧ (errno = true → c.Zero) := by
  rw [roundTrip_iff_root]
  by_cases h : c.Recovered
  · rw [root_of_recovered h, Option.some.injEq, AstNode.expression.injEq, read_eq_expression_iff]
    simp [h]
  · simp [root_of_not_recovered h, h]

/-- `(a == 1 && b == 2) || (c == 3 && d == 4)`. -/
def twoGroups : Cond :=
  let equals (name : Char) (legal : Spelling.Legal (.identifier, [name])) (n : ℕ)
      (le : (n : Int) ≤ intMax) : Cond :=
    .comparison false (.var [name] legal) .eq (.number n le)
  .logical
    (.logical (equals 'a' (by decide) 1 (by decide)) .and (equals 'b' (by decide) 2 (by decide)))
    .or
    (.logical (equals 'c' (by decide) 3 (by decide)) .and (equals 'd' (by decide) 4 (by decide)))

/-- A group on either side: nothing makes one node of them. -/
theorem not_roundTrip_twoGroups : ¬ twoGroups.RoundTrip false := by
  have hroot : root false twoGroups.body = none := by decide
  simp [roundTrip_iff_root, hroot]

end Cond

end WwivBasic.Parser
