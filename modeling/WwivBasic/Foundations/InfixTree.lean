import Mathlib.Data.List.Induction
import Mathlib.Order.Lattice

/-!
# Trees of infix operators

A chain of operands with binary operators between them, and the trees that group it. Operators
have levels, a higher one binding tighter, and associate to the left. Exactly one tree of a
chain respects the levels. Two orders of precedence group a chain alike exactly when any two of
its operators on which they disagree are kept apart by an operator between them, which both
orders put above the two in the tree.

## Main definitions

* `InfixTree`, `InfixTree.first`, `InfixTree.rest`: trees, and the chain of a tree
* `InfixTree.Respects level t`: the tree groups by the levels
* `InfixTree.parse level first rest`: the tree of a chain, built from left to right
* `InfixTree.Agree level level' ops`: operators that two orders group alike

## Main results

* `InfixTree.respects_parse`, `InfixTree.Respects.eq`: the tree that respects the levels exists
  and is unique
* `InfixTree.parse_eq_iff`: when two orders build the same tree
-/

universe u v w

/-- A tree over binary operators of `α` and operands of `β`. -/
inductive InfixTree (α : Type u) (β : Type v)
  | operand (b : β)
  | node (op : α) (left right : InfixTree α β)

namespace InfixTree

variable {α : Type u} {β : Type v} {δ : Type w} {δ' : Type w} [LinearOrder δ] [LinearOrder δ']

/-- The leftmost operand. -/
def first : InfixTree α β → β
  | operand b => b
  | node _ left _ => left.first

/-- The operators from left to right, each with the operand after it. -/
def rest : InfixTree α β → List (α × β)
  | operand _ => []
  | node op left right => left.rest ++ (op, right.first) :: right.rest

/-- The operators from left to right. -/
def ops : InfixTree α β → List α
  | operand _ => []
  | node op left right => left.ops ++ op :: right.ops

/-- Every operator binds at most as tight as those in its left operand, and less tight than
those in its right one. -/
def Respects (level : α → δ) : InfixTree α β → Prop
  | operand _ => True
  | node op left right => (∀ x ∈ left.ops, level op ≤ level x) ∧
      (∀ y ∈ right.ops, level op < level y) ∧ left.Respects level ∧ right.Respects level

/-- One more operator and operand at the right end: the operator takes the place of the first
one on the right spine that does not bind looser, which becomes its left operand. -/
def extend (level : α → δ) (op : α) (b : β) : InfixTree α β → InfixTree α β
  | operand a => node op (operand a) (operand b)
  | node op' left right =>
    if level op' < level op then node op' left (right.extend level op b)
    else node op (node op' left right) (operand b)

/-- The tree of a chain. -/
def parse (level : α → δ) (first : β) (rest : List (α × β)) : InfixTree α β :=
  rest.foldl (fun t p => t.extend level p.1 p.2) (operand first)

/-! ## The tree of a chain -/

variable {level : α → δ} {level' : α → δ'} {op : α} {b : β} {t t' : InfixTree α β}

theorem ops_eq (t : InfixTree α β) : t.ops = t.rest.map Prod.fst := by
  induction t with
  | operand b => rfl
  | node op left right ihl ihr =>
    rw [ops, rest, List.map_append, List.map_cons, ihl, ihr]

@[simp] theorem first_extend : (t.extend level op b).first = t.first := by
  cases t with
  | operand a => rfl
  | node op' left right =>
    rw [extend]
    split_ifs <;> rfl

@[simp] theorem rest_extend : (t.extend level op b).rest = t.rest ++ [(op, b)] := by
  induction t with
  | operand a => rfl
  | node op' left right _ ih =>
    rw [extend]
    split_ifs
    · rw [rest, first_extend, ih, rest, List.append_assoc, List.cons_append]
    · rfl

theorem ops_extend : (t.extend level op b).ops = t.ops ++ [op] := by
  rw [ops_eq, rest_extend, List.map_append, ops_eq, List.map_singleton]

theorem Respects.extend (h : t.Respects level) : (t.extend level op b).Respects level := by
  induction t with
  | operand a => simp [InfixTree.extend, Respects, ops]
  | node op' left right _ ih =>
    obtain ⟨hl, hr, hleft, hright⟩ := h
    rw [InfixTree.extend]
    split_ifs with hop
    -- The operator goes into the right operand, where all operators bind tighter than the root.
    · refine ⟨hl, ?_, hleft, ih hright⟩
      rw [ops_extend, List.forall_mem_append, List.forall_mem_singleton]
      exact ⟨hr, hop⟩
    -- The operator becomes the root, and binds no tighter than any operator of the tree.
    · have hle : level op ≤ level op' := not_lt.mp hop
      refine ⟨?_, by simp [ops], ⟨hl, hr, hleft, hright⟩, trivial⟩
      rw [ops, List.forall_mem_append, List.forall_mem_cons]
      exact ⟨fun x hx => hle.trans (hl x hx), hle, fun y hy => hle.trans (hr y hy).le⟩

/-- What every step of the construction keeps holds of its result. -/
theorem parse_induction {P : InfixTree α β → List (α × β) → Prop} (level : α → δ) (first : β)
    (hnil : P (operand first) [])
    (hstep : ∀ t l op b, P t l → P (t.extend level op b) (l ++ [(op, b)]))
    (rest : List (α × β)) : P (parse level first rest) rest := by
  induction rest using List.reverseRecOn with
  | nil => exact hnil
  | append_singleton rest p ih =>
    rw [parse, List.foldl_append]
    exact hstep _ rest p.1 p.2 ih

theorem respects_parse (level : α → δ) (first : β) (rest : List (α × β)) :
    (parse level first rest).Respects level :=
  parse_induction (P := fun t _ => t.Respects level) level first trivial
    (fun _ _ _ _ h => h.extend) rest

@[simp] theorem first_parse (level : α → δ) (first : β) (rest : List (α × β)) :
    (parse level first rest).first = first :=
  parse_induction (P := fun t _ => t.first = first) level first rfl
    (fun _ _ _ _ h => first_extend.trans h) rest

@[simp] theorem rest_parse (level : α → δ) (first : β) (rest : List (α × β)) :
    (parse level first rest).rest = rest :=
  parse_induction (P := fun t l => t.rest = l) level first rfl
    (fun _ _ _ _ h => by rw [rest_extend, h]) rest

theorem mem_ops_of_rest {l l' : List (α × β)} (h : t.rest = l ++ (op, b) :: l') : op ∈ t.ops := by
  rw [ops_eq, h]
  simp

/-- **At most one tree of a chain respects the levels.** -/
theorem Respects.eq (h : t.Respects level) (h' : t'.Respects level) (hfirst : t.first = t'.first)
    (hrest : t.rest = t'.rest) : t = t' := by
  induction t generalizing t' with
  | operand a =>
    cases t' with
    | operand a' => exact congrArg _ hfirst
    | node op' left' right' => simp [rest] at hrest
  | node op left right ihl ihr =>
    cases t' with
    | operand a' => simp [rest] at hrest
    | node op' left' right' =>
      obtain ⟨hl, hr, hleft, hright⟩ := h
      obtain ⟨hl', hr', hleft', hright'⟩ := h'
      -- Where the two roots stand in the chain: at one place, or one before the other.
      rcases List.append_eq_append_iff.mp hrest with ⟨m, hm, hm'⟩ | ⟨m, hm, hm'⟩
      · cases m with
        | nil =>
          simp only [List.append_nil, List.nil_append, List.cons.injEq, Prod.mk.injEq] at hm hm'
          obtain ⟨⟨rfl, hf⟩, hrr⟩ := hm'
          rw [ihl hleft hleft' hfirst hm.symm, ihr hright hright' hf hrr]
        | cons p m =>
          -- The root of each tree would be in an operand of the other.
          simp only [List.cons_append, List.cons.injEq] at hm'
          obtain ⟨rfl, hrr⟩ := hm'
          have hlt := hr op' (mem_ops_of_rest hrr)
          exact absurd (hl' op (mem_ops_of_rest hm)) (not_le.mpr hlt)
      · cases m with
        | nil =>
          simp only [List.append_nil, List.nil_append, List.cons.injEq, Prod.mk.injEq] at hm hm'
          obtain ⟨⟨rfl, hf⟩, hrr⟩ := hm'
          rw [ihl hleft hleft' hfirst hm, ihr hright hright' hf.symm hrr.symm]
        | cons p m =>
          simp only [List.cons_append, List.cons.injEq] at hm'
          obtain ⟨rfl, hrr⟩ := hm'
          have hlt := hr' op (mem_ops_of_rest hrr)
          exact absurd (hl op' (mem_ops_of_rest hm)) (not_le.mpr hlt)

/-- The tree of a chain is the one that respects the levels. -/
theorem eq_parse_iff {first : β} {rest : List (α × β)} :
    t = parse level first rest ↔ t.Respects level ∧ t.first = first ∧ t.rest = rest := by
  constructor
  · rintro rfl
    exact ⟨respects_parse level first rest, first_parse level first rest, rest_parse level first rest⟩
  · rintro ⟨h, hfirst, hrest⟩
    exact h.eq (respects_parse level first rest) (by rw [hfirst, first_parse])
      (by rw [hrest, rest_parse])

/-! ## Two orders of precedence -/

/-- Any two operators that the two orders compare differently are kept apart: some operator
between them is looser than the second, and not tighter than the first. -/
def Agree (level : α → δ) (level' : α → δ') (ops : List α) : Prop :=
  ∀ (i j : ℕ) (x y : α), i < j → ops[i]? = some x → ops[j]? = some y →
    (level x < level y ↔ level' x < level' y) ∨
      ∃ (k : ℕ) (z : α), i < k ∧ k < j ∧ ops[k]? = some z ∧ level z ≤ level x ∧ level z < level y

section Agree

variable {l r : List α}

theorem getElem?_ops_left {i : ℕ} (h : i < l.length) : (l ++ op :: r)[i]? = l[i]? :=
  List.getElem?_append_left h

theorem getElem?_ops_root : (l ++ op :: r)[l.length]? = some op := by simp

theorem getElem?_ops_right (i : ℕ) : (l ++ op :: r)[l.length + 1 + i]? = r[i]? := by
  rw [List.getElem?_append_right (by omega),
    show l.length + 1 + i - l.length = i + 1 by omega, List.getElem?_cons_succ]

/-- A position of a chain is in the left operand, at the root, or in the right operand. -/
theorem position_cases {i : ℕ} {x : α} (h : (l ++ op :: r)[i]? = some x) :
    (i < l.length ∧ l[i]? = some x) ∨ (i = l.length ∧ x = op) ∨
      ∃ j, i = l.length + 1 + j ∧ r[j]? = some x := by
  rcases Nat.lt_trichotomy i l.length with hi | rfl | hi
  · exact .inl ⟨hi, by rwa [getElem?_ops_left hi] at h⟩
  · exact .inr (.inl ⟨rfl, by simpa using h.symm⟩)
  · obtain ⟨j, rfl⟩ : ∃ j, i = l.length + 1 + j := ⟨i - l.length - 1, by omega⟩
    exact .inr (.inr ⟨j, rfl, by rwa [getElem?_ops_right] at h⟩)

theorem Agree.left (h : Agree level level' (l ++ op :: r)) : Agree level level' l := by
  intro i j x y hij hi hj
  have hjl := (List.getElem?_eq_some_iff.mp hj).1
  rcases h i j x y hij (by rwa [getElem?_ops_left (by omega)])
    (by rwa [getElem?_ops_left hjl]) with hagree | ⟨k, z, hik, hkj, hk, hz⟩
  · exact .inl hagree
  · rw [getElem?_ops_left (by omega)] at hk
    exact .inr ⟨k, z, hik, hkj, hk, hz⟩

theorem Agree.right (h : Agree level level' (l ++ op :: r)) : Agree level level' r := by
  intro i j x y hij hi hj
  rcases h (l.length + 1 + i) (l.length + 1 + j) x y (by omega) (by rwa [getElem?_ops_right])
    (by rwa [getElem?_ops_right]) with hagree | ⟨k, z, hik, hkj, hk, hz⟩
  · exact .inl hagree
  · obtain ⟨k, rfl⟩ : ∃ k', k = l.length + 1 + k' := ⟨k - l.length - 1, by omega⟩
    rw [getElem?_ops_right] at hk
    exact .inr ⟨k, z, by omega, by omega, hk, hz⟩

/-- Operators that bind no looser than the root, before it, do so in an order that agrees. -/
theorem Agree.le_of_left (h : Agree level level' (l ++ op :: r)) (hl : ∀ x ∈ l, level op ≤ level x) :
    ∀ x ∈ l, level' op ≤ level' x := by
  intro x hx
  obtain ⟨i, hi⟩ := List.getElem?_of_mem hx
  have hil := (List.getElem?_eq_some_iff.mp hi).1
  rcases h i l.length x op hil (by rwa [getElem?_ops_left hil]) getElem?_ops_root with
    hagree | ⟨k, z, hik, hkj, hk, -, hz⟩
  · exact not_lt.mp fun hlt => not_lt.mpr (hl x hx) (hagree.mpr hlt)
  -- An operator that kept the two apart would be before the root, and looser.
  · rw [getElem?_ops_left hkj] at hk
    exact absurd (hl z (List.mem_of_getElem? hk)) (not_le.mpr hz)

/-- Operators that bind tighter than the root, after it, do so in an order that agrees. -/
theorem Agree.lt_of_right (h : Agree level level' (l ++ op :: r))
    (hr : ∀ y ∈ r, level op < level y) : ∀ y ∈ r, level' op < level' y := by
  intro y hy
  obtain ⟨j, hj⟩ := List.getElem?_of_mem hy
  rcases h l.length (l.length + 1 + j) op y (by omega) getElem?_ops_root
    (by rwa [getElem?_ops_right]) with hagree | ⟨k, z, hik, hkj, hk, hz, -⟩
  · exact hagree.mp (hr y hy)
  -- An operator that kept the two apart would be after the root, and not tighter.
  · obtain ⟨k, rfl⟩ : ∃ k', k = l.length + 1 + k' := ⟨k - l.length - 1, by omega⟩
    rw [getElem?_ops_right] at hk
    exact absurd (hr z (List.mem_of_getElem? hk)) (not_lt.mpr hz)

/-- Two orders that put the same operator at the root agree when they agree on the operands. -/
theorem Agree.append (h : Agree level level' l) (h' : Agree level level' r)
    (hl : ∀ x ∈ l, level op ≤ level x) (hr : ∀ y ∈ r, level op < level y)
    (hl' : ∀ x ∈ l, level' op ≤ level' x) (hr' : ∀ y ∈ r, level' op < level' y) :
    Agree level level' (l ++ op :: r) := by
  intro i j x y hij hi hj
  rcases position_cases hi with ⟨hil, hx⟩ | ⟨rfl, rfl⟩ | ⟨i, rfl, hx⟩
  · rcases position_cases hj with ⟨hjl, hy⟩ | ⟨rfl, rfl⟩ | ⟨j, rfl, hy⟩
    · rcases h i j x y hij hx hy with hagree | ⟨k, z, hik, hkj, hk, hz⟩
      · exact .inl hagree
      · exact .inr ⟨k, z, hik, hkj, by rwa [getElem?_ops_left (by omega)], hz⟩
    -- The root comes second, and binds no tighter in both orders.
    · have hmem := List.mem_of_getElem? hx
      exact .inl (iff_of_false (not_lt.mpr (hl x hmem)) (not_lt.mpr (hl' x hmem)))
    -- The root keeps its operands apart.
    · exact .inr ⟨l.length, op, hil, by omega, getElem?_ops_root,
        hl x (List.mem_of_getElem? hx), hr y (List.mem_of_getElem? hy)⟩
  · rcases position_cases hj with ⟨hjl, -⟩ | ⟨rfl, -⟩ | ⟨j, rfl, hy⟩
    · omega
    · omega
    -- The root comes first, and binds looser in both orders.
    · have hmem := List.mem_of_getElem? hy
      exact .inl (iff_of_true (hr y hmem) (hr' y hmem))
  · rcases position_cases hj with ⟨hjl, -⟩ | ⟨rfl, -⟩ | ⟨j, rfl, hy⟩
    · omega
    · omega
    · rcases h' i j x y (by omega) hx hy with hagree | ⟨k, z, hik, hkj, hk, hz⟩
      · exact .inl hagree
      · exact .inr ⟨l.length + 1 + k, z, by omega, by omega, by rwa [getElem?_ops_right], hz⟩

end Agree

/-- The order in which a tree is built is respected by another one exactly when they agree. -/
theorem respects_iff_agree (h : t.Respects level) :
    t.Respects level' ↔ Agree level level' t.ops := by
  induction t with
  | operand b =>
    constructor
    · intro _ i j x y _ hi
      simp [ops] at hi
    · exact fun _ => trivial
  | node op left right ihl ihr =>
    obtain ⟨hl, hr, hleft, hright⟩ := h
    constructor
    · rintro ⟨hl', hr', hleft', hright'⟩
      exact ((ihl hleft).mp hleft').append ((ihr hright).mp hright') hl hr hl' hr'
    · intro h
      exact ⟨h.le_of_left hl, h.lt_of_right hr, (ihl hleft).mpr h.left, (ihr hright).mpr h.right⟩

/-- **Two orders of precedence build the same tree of a chain exactly when they agree on it.** -/
theorem parse_eq_iff {first : β} {rest : List (α × β)} :
    parse level' first rest = parse level first rest ↔
      Agree level level' (rest.map Prod.fst) := by
  have hops : (parse level first rest).ops = rest.map Prod.fst := by rw [ops_eq, rest_parse]
  rw [← hops, ← respects_iff_agree (respects_parse level first rest), eq_comm, eq_parse_iff]
  exact and_iff_left ⟨first_parse level first rest, rest_parse level first rest⟩

end InfixTree
