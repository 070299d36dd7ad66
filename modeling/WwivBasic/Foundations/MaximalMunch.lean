import Mathlib.Data.List.Basic
import Mathlib.Data.List.TakeWhile

/-!
# Lexing by maximal munch

A lexer with rules in order: the next token is the longest text at the front of the input that some
rule matches, and the first rule that matches it. Where no rule matches, some of the input is
dropped.

## Main definitions

* `Lexer`, `Lexer.lex`: the rules, and the pieces of a text
* `Lexer.IsToken`, `Lexer.IsDropped`: what the first piece of a text is

## Main results

* `Lexer.lex_token`, `Lexer.lex_dropped`: the pieces of a text from its first piece
* `Lexer.lex_induction`: induction on the pieces of a text
* `Lexer.flatMap_lex`: the pieces make up the text
-/

namespace MaximalMunch

universe u v

/-- A token of a rule, or what was dropped where no rule matches. -/
structure Piece (ρ : Type u) (α : Type v) where
  rule : Option ρ
  text : List α
  deriving DecidableEq

/-- The rules in order, the texts they match, and how much is dropped where none matches. -/
structure Lexer (ρ : Type u) (α : Type v) where
  rules : List ρ
  accepts : ρ → List α → Bool
  recover : List α → ℕ

namespace Lexer

variable {ρ : Type u} {α : Type v} (L : Lexer ρ α)

/-- The first rule that matches a text. -/
def ruleOf (t : List α) : Option ρ := L.rules.find? (L.accepts · t)

/-- The longest match of at most `n` characters. -/
def munch (s : List α) : ℕ → Option (ρ × ℕ)
  | 0 => none
  | n + 1 =>
    match L.ruleOf (s.take (n + 1)) with
    | some r => some (r, n + 1)
    | none => munch s n

/-- The rule and the length of the first piece. -/
def first (s : List α) : Option ρ × ℕ :=
  match L.munch s s.length with
  | some (r, n) => (some r, n)
  | none => (none, max 1 (L.recover s))

/-- At most `n` pieces. -/
def lexUpTo : ℕ → List α → List (Piece ρ α)
  | 0, _ => []
  | _ + 1, [] => []
  | n + 1, c :: s =>
    let (rule, k) := L.first (c :: s)
    ⟨rule, (c :: s).take k⟩ :: lexUpTo n ((c :: s).drop k)

/-- The pieces of a text. -/
def lex (s : List α) : List (Piece ρ α) := L.lexUpTo s.length s

/-- A token of the rule, with the rest of the text. -/
structure IsToken (r : ρ) (t rest : List α) : Prop where
  ne_nil : t ≠ []
  rule : L.ruleOf t = some r
  longest : ∀ q, q ≠ [] → q <+: rest → L.ruleOf (t ++ q) = none

/-- No rule matches a text, and its first part is dropped. -/
structure IsDropped (t rest : List α) : Prop where
  ne_nil : t ≠ []
  none : ∀ q, q ≠ [] → q <+: t ++ rest → L.ruleOf q = none
  text : t = (t ++ rest).take (max 1 (L.recover (t ++ rest)))

section Lemmas

variable {L} {r : ρ} {s t rest : List α} {n : ℕ}

theorem munch_eq_none_iff :
    L.munch s n = none ↔ ∀ k, 1 ≤ k → k ≤ n → L.ruleOf (s.take k) = none := by
  induction n with
  | zero =>
    refine iff_of_true rfl fun k hk hn => ?_
    omega
  | succ n ih =>
    rw [munch]
    cases hr : L.ruleOf (s.take (n + 1)) with
    | some r =>
      refine iff_of_false (by simp) fun h => ?_
      simp [h (n + 1) (by omega) le_rfl] at hr
    | none =>
      show L.munch s n = none ↔ _
      rw [ih]
      constructor
      · intro h k hk hn
        rcases Nat.le_succ_iff.mp hn with hn | rfl
        · exact h k hk hn
        · exact hr
      · exact fun h k hk hn => h k hk (by omega)

theorem munch_eq_some_iff {m : ℕ} : L.munch s n = some (r, m) ↔
    1 ≤ m ∧ m ≤ n ∧ L.ruleOf (s.take m) = some r ∧
      ∀ k, m < k → k ≤ n → L.ruleOf (s.take k) = none := by
  induction n with
  | zero =>
    refine iff_of_false (by simp [munch]) fun h => ?_
    omega
  | succ n ih =>
    rw [munch]
    cases hr : L.ruleOf (s.take (n + 1)) with
    | some r' =>
      simp only [Option.some.injEq, Prod.mk.injEq]
      constructor
      · rintro ⟨rfl, rfl⟩
        exact ⟨by omega, le_rfl, hr, fun k hk hn => by omega⟩
      · rintro ⟨h1, hm, hrule, hmax⟩
        -- A shorter match is not the longest.
        obtain rfl : m = n + 1 := by
          by_contra hne
          simp [hmax (n + 1) (by omega) le_rfl] at hr
        exact ⟨Option.some.inj (hr.symm.trans hrule), rfl⟩
    | none =>
      show L.munch s n = some (r, m) ↔ _
      rw [ih]
      constructor
      · rintro ⟨h1, hm, hrule, hmax⟩
        refine ⟨h1, by omega, hrule, fun k hk hn => ?_⟩
        rcases Nat.le_succ_iff.mp hn with hn | rfl
        · exact hmax k hk hn
        · exact hr
      · rintro ⟨h1, hm, hrule, hmax⟩
        have hne : m ≠ n + 1 := by
          rintro rfl
          simp [hr] at hrule
        exact ⟨h1, by omega, hrule, fun k hk hn => hmax k hk (by omega)⟩

theorem first_token (h : L.IsToken r t rest) : L.first (t ++ rest) = (some r, t.length) := by
  have hmunch : L.munch (t ++ rest) (t ++ rest).length = some (r, t.length) := by
    refine munch_eq_some_iff.mpr ⟨List.length_pos_iff.mpr h.ne_nil, by simp, by simpa using h.rule,
      fun k hk hn => ?_⟩
    rw [List.take_append, List.take_of_length_le hk.le]
    refine h.longest _ (fun hnil => ?_) (List.take_prefix _ _)
    rw [List.length_append] at hn
    rcases List.take_eq_nil_iff.mp hnil with hzero | rfl
    · omega
    · simp at hn
      omega
  rw [first, hmunch]

theorem first_dropped (h : L.IsDropped t rest) :
    L.first (t ++ rest) = (none, max 1 (L.recover (t ++ rest))) := by
  have hmunch : L.munch (t ++ rest) (t ++ rest).length = none := by
    refine munch_eq_none_iff.mpr fun k hk hn => h.none _ (fun hnil => ?_) (List.take_prefix _ _)
    rcases List.take_eq_nil_iff.mp hnil with hzero | hnil
    · omega
    · exact h.ne_nil (List.append_eq_nil_iff.mp hnil).1
  rw [first, hmunch]

theorem one_le_first (s : List α) : 1 ≤ (L.first s).2 := by
  rw [first]
  cases hmunch : L.munch s s.length with
  | none => exact le_max_left _ _
  | some p => exact (munch_eq_some_iff.mp hmunch).1

/-- More pieces are not found. -/
theorem lexUpTo_eq_of_le {n m : ℕ} (hn : s.length ≤ n) (hm : s.length ≤ m) :
    L.lexUpTo n s = L.lexUpTo m s := by
  induction n generalizing m s with
  | zero =>
    obtain rfl := List.length_eq_zero_iff.mp (Nat.le_zero.mp hn)
    cases m <;> rfl
  | succ n ih =>
    rcases s with - | ⟨c, s⟩
    · cases m <;> rfl
    · obtain ⟨m, rfl⟩ : ∃ k, m = k + 1 := ⟨m - 1, by simp at hm; omega⟩
      have hlen : ((c :: s).drop (L.first (c :: s)).2).length ≤ s.length := by
        have hone := L.one_le_first (c :: s)
        rw [List.length_drop, List.length_cons]
        omega
      simp only [List.length_cons, Nat.add_le_add_iff_right] at hn hm
      exact congrArg (_ :: ·) (ih (hlen.trans hn) (hlen.trans hm))

theorem lex_cons (hs : s ≠ []) : L.lex s =
    ⟨(L.first s).1, s.take (L.first s).2⟩ :: L.lex (s.drop (L.first s).2) := by
  rcases s with - | ⟨c, s⟩
  · exact absurd rfl hs
  · have hlen : ((c :: s).drop (L.first (c :: s)).2).length ≤ s.length := by
      have hone := L.one_le_first (c :: s)
      rw [List.length_drop, List.length_cons]
      omega
    exact congrArg (_ :: ·) (lexUpTo_eq_of_le hlen le_rfl)

/-- The pieces of a text that begins with a token. -/
theorem lex_token (h : L.IsToken r t rest) : L.lex (t ++ rest) = ⟨some r, t⟩ :: L.lex rest := by
  rw [lex_cons fun hnil => h.ne_nil (List.append_eq_nil_iff.mp hnil).1, first_token h]
  simp

/-- The pieces of a text whose first part is dropped. -/
theorem lex_dropped (h : L.IsDropped t rest) : L.lex (t ++ rest) = ⟨none, t⟩ :: L.lex rest := by
  rw [lex_cons fun hnil => h.ne_nil (List.append_eq_nil_iff.mp hnil).1, first_dropped h]
  have hdrop : (t ++ rest).drop (max 1 (L.recover (t ++ rest))) = rest := by
    have hsplit := List.take_append_drop (max 1 (L.recover (t ++ rest))) (t ++ rest)
    rw [← h.text] at hsplit
    exact List.append_cancel_left hsplit
  rw [hdrop, ← h.text]

/-- A text begins with a token or with something that is dropped. -/
theorem exists_first (hs : s ≠ []) : ∃ t rest, s = t ++ rest ∧
    ((∃ r, L.IsToken r t rest) ∨ L.IsDropped t rest) := by
  cases hmunch : L.munch s s.length with
  | none =>
    refine ⟨s.take (max 1 (L.recover s)), s.drop (max 1 (L.recover s)), by simp, .inr ?_⟩
    refine ⟨?_, ?_, by rw [List.take_append_drop]⟩
    · rw [Ne, List.take_eq_nil_iff, not_or]
      exact ⟨by omega, hs⟩
    · rw [List.take_append_drop]
      intro q hq hprefix
      rw [List.prefix_iff_eq_take.mp hprefix]
      exact munch_eq_none_iff.mp hmunch _ (List.length_pos_iff.mpr hq) hprefix.length_le
  | some p =>
    obtain ⟨r, m⟩ := p
    obtain ⟨hone, hm, hrule, hmax⟩ := munch_eq_some_iff.mp hmunch
    refine ⟨s.take m, s.drop m, by simp, .inl ⟨r, ?_, hrule, fun q hq hprefix => ?_⟩⟩
    · rw [Ne, List.take_eq_nil_iff, not_or]
      exact ⟨by omega, hs⟩
    · have hlong : s.take m ++ q <+: s := by
        have happend := (List.prefix_append_right_inj (s.take m)).mpr hprefix
        rwa [List.take_append_drop] at happend
      have hlen : (s.take m ++ q).length = m + q.length := by simp [hm]
      rw [List.prefix_iff_eq_take.mp hlong, hlen]
      refine hmax _ ?_ (hlen ▸ hlong.length_le)
      have hpos := List.length_pos_iff.mpr hq
      omega

/-- Induction on the pieces of a text. -/
theorem lex_induction {P : List α → Prop} (nil : P [])
    (token : ∀ r t rest, L.IsToken r t rest → P rest → P (t ++ rest))
    (dropped : ∀ t rest, L.IsDropped t rest → P rest → P (t ++ rest)) (s : List α) : P s := by
  induction hn : s.length using Nat.strong_induction_on generalizing s with
  | _ n ih =>
    by_cases hs : s = []
    · rw [hs]
      exact nil
    · obtain ⟨t, rest, rfl, ⟨r, h⟩ | h⟩ := L.exists_first hs
      · have hpos := List.length_pos_iff.mpr h.ne_nil
        exact token r t rest h (ih _ (by rw [← hn, List.length_append]; omega) rest rfl)
      · have hpos := List.length_pos_iff.mpr h.ne_nil
        exact dropped t rest h (ih _ (by rw [← hn, List.length_append]; omega) rest rfl)

/-- The pieces make up the text. -/
theorem flatMap_lex (s : List α) : (L.lex s).flatMap (·.text) = s := by
  induction s using L.lex_induction with
  | nil => rfl
  | token r t rest h ih => rw [lex_token h, List.flatMap_cons, ih]
  | dropped t rest h ih => rw [lex_dropped h, List.flatMap_cons, ih]

end Lemmas

end Lexer

end MaximalMunch
