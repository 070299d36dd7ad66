import Mathlib.Data.List.Basic

/-!
# Hashing by blocks

A state that takes in a list a block at a time. The list may arrive in pieces, of which less than a
block is kept pending.

## Main definitions

* `absorb f B n s xs`: the state after the first `n` blocks of `xs`
* `feed f B`: what a stream becomes with more elements
* `trace f B n s xs`: the states and the blocks that were taken in

## Main results

* `feed_feed`: the pieces do not matter
* `exists_collision`, `exists_collision_last`: two lists that leave one state have a collision among
  the blocks that were taken in
-/

universe u v

namespace BlockHash

variable {σ : Type u} {α : Type v} {f : σ → List α → σ} {B m n : ℕ} {s s' : σ} {xs ys : List α}

/-! ## Blocks -/

/-- The state after the first `n` blocks. -/
def absorb (f : σ → List α → σ) (B : ℕ) : ℕ → σ → List α → σ
  | 0, s, _ => s
  | n + 1, s, xs => absorb f B n (f s (xs.take B)) (xs.drop B)

/-- The states and the blocks that are taken in. -/
def trace (f : σ → List α → σ) (B : ℕ) : ℕ → σ → List α → List (σ × List α)
  | 0, _, _ => []
  | n + 1, s, xs => (s, xs.take B) :: trace f B n (f s (xs.take B)) (xs.drop B)

@[simp] theorem absorb_zero : absorb f B 0 s xs = s := rfl

theorem absorb_succ : absorb f B (n + 1) s xs = absorb f B n (f s (xs.take B)) (xs.drop B) := rfl

theorem absorb_add (m n : ℕ) (s : σ) (xs : List α) :
    absorb f B (m + n) s xs = absorb f B n (absorb f B m s xs) (xs.drop (m * B)) := by
  induction m generalizing s xs with
  | zero => rw [Nat.zero_add, Nat.zero_mul, List.drop_zero, absorb_zero]
  | succ m ih =>
    rw [Nat.succ_add, absorb_succ, ih, absorb_succ, List.drop_drop, Nat.succ_mul, Nat.add_comm B]

/-- Blocks that are there are taken in whatever follows them. -/
theorem absorb_append (h : n * B ≤ xs.length) :
    absorb f B n s (xs ++ ys) = absorb f B n s xs := by
  induction n generalizing s xs with
  | zero => rfl
  | succ n ih =>
    rw [Nat.succ_mul] at h
    rw [absorb_succ, absorb_succ, List.take_append_of_le_length (by omega),
      List.drop_append_of_le_length (by omega), ih]
    rw [List.length_drop]
    omega

/-! ## Streams -/

/-- A state, and the elements that do not make up a block yet. -/
@[ext] structure Stream (σ : Type u) (α : Type v) where
  state : σ
  pending : List α

/-- A stream with more elements. -/
def feed (f : σ → List α → σ) (B : ℕ) (st : Stream σ α) (data : List α) : Stream σ α :=
  let xs := st.pending ++ data
  ⟨absorb f B (xs.length / B) st.state xs, xs.drop (xs.length / B * B)⟩

variable {st : Stream σ α} {data : List α}

theorem feed_of_lt (h : (st.pending ++ data).length < B) :
    feed f B st data = ⟨st.state, st.pending ++ data⟩ := by
  rw [feed, Nat.div_eq_of_lt h, Nat.zero_mul]
  rfl

/-- A block that is made up, and what follows it. -/
theorem feed_append_of_length (hB : 0 < B) (h : (st.pending ++ data).length = B) (ys : List α) :
    feed f B st (data ++ ys) = feed f B ⟨f st.state (st.pending ++ data), []⟩ ys := by
  have hlen : (st.pending ++ data ++ ys).length / B = ys.length / B + 1 := by
    rw [List.length_append, h, Nat.add_comm, Nat.add_div_right _ hB]
  have hdrop : (st.pending ++ data ++ ys).drop B = ys := by
    rw [← h]
    exact List.drop_left
  have htake : (st.pending ++ data ++ ys).take B = st.pending ++ data := by
    rw [← h]
    exact List.take_left
  rw [feed, feed, ← List.append_assoc]
  simp only [hlen, absorb_succ, hdrop, htake, List.nil_append, Nat.succ_mul]
  rw [Nat.add_comm (ys.length / B * B), ← List.drop_drop, hdrop]

/-- **The pieces do not matter.** -/
theorem feed_feed (hB : 0 < B) (st : Stream σ α) (xs ys : List α) :
    feed f B (feed f B st xs) ys = feed f B st (xs ++ ys) := by
  have hle : (st.pending ++ xs).length / B * B ≤ (st.pending ++ xs).length :=
    Nat.div_mul_le_self _ _
  -- What is pending, with what comes after it, is the rest of the whole.
  have hrest : (st.pending ++ xs).drop ((st.pending ++ xs).length / B * B) ++ ys =
      (st.pending ++ xs ++ ys).drop ((st.pending ++ xs).length / B * B) := by
    rw [List.drop_append_of_le_length hle]
  -- The blocks of the whole are those of the first piece and those of the rest.
  have hlen : (st.pending ++ xs ++ ys).length / B = (st.pending ++ xs).length / B +
      ((st.pending ++ xs ++ ys).drop ((st.pending ++ xs).length / B * B)).length / B := by
    have hsplit : (st.pending ++ xs ++ ys).length =
        ((st.pending ++ xs ++ ys).drop ((st.pending ++ xs).length / B * B)).length +
          (st.pending ++ xs).length / B * B := by
      rw [List.length_drop, @List.length_append _ _ ys]
      omega
    conv => lhs; rw [hsplit, Nat.add_mul_div_right _ _ hB, Nat.add_comm]
  have hassoc : st.pending ++ (xs ++ ys) = st.pending ++ xs ++ ys := (List.append_assoc _ _ _).symm
  rw [feed, feed, feed]
  simp only [hassoc, hrest]
  ext1
  · rw [hlen, absorb_add, absorb_append hle]
  · rw [List.drop_drop, hlen, Nat.add_mul]

/-- A stream does not change without elements. -/
theorem feed_nil (h : st.pending.length < B) : feed f B st [] = st := by
  rw [feed_of_lt (by rwa [List.append_nil]), List.append_nil]

/-- A block that is made up, with nothing behind it. -/
theorem feed_of_length (hB : 0 < B) (h : (st.pending ++ data).length = B) :
    feed f B st data = ⟨f st.state (st.pending ++ data), []⟩ := by
  have hfeed := feed_append_of_length (f := f) hB h []
  rw [List.append_nil] at hfeed
  rw [hfeed]
  exact feed_nil hB

/-! ## Collisions -/

/-- Different states, or different lists, that lead to one state by as many blocks. -/
theorem exists_collision (hx : xs.length = n * B) (hy : ys.length = n * B)
    (h : absorb f B n s xs = absorb f B n s' ys) (hne : (s, xs) ≠ (s', ys)) :
    ∃ p ∈ trace f B n s xs, ∃ q ∈ trace f B n s' ys, p ≠ q ∧ f p.1 p.2 = f q.1 q.2 := by
  induction n generalizing s s' xs ys with
  | zero =>
    rw [Nat.zero_mul, List.length_eq_zero_iff] at hx hy
    rw [absorb_zero, absorb_zero] at h
    exact absurd (by rw [h, hx, hy]) hne
  | succ n ih =>
    rw [Nat.succ_mul] at hx hy
    by_cases heq : (f s (xs.take B), xs.drop B) = (f s' (ys.take B), ys.drop B)
    · -- the rest is the same, so this block is the one
      obtain ⟨hstate, hdrop⟩ := Prod.mk.inj heq
      refine ⟨_, List.mem_cons_self, _, List.mem_cons_self, fun hpair => hne ?_, hstate⟩
      obtain ⟨hs, htake⟩ := Prod.mk.inj hpair
      rw [hs, ← List.take_append_drop B xs, ← List.take_append_drop B ys, htake, hdrop]
    · -- the rest differs, and leads to one state as well
      obtain ⟨p, hp, q, hq, hpq⟩ := ih (by rw [List.length_drop]; omega)
        (by rw [List.length_drop]; omega) h heq
      exact ⟨p, List.mem_cons_of_mem _ hp, q, List.mem_cons_of_mem _ hq, hpq⟩

theorem mem_trace_last :
    (absorb f B n s xs, (xs.drop (n * B)).take B) ∈ trace f B (n + 1) s xs := by
  induction n generalizing s xs with
  | zero =>
    rw [Nat.zero_mul, List.drop_zero]
    exact List.mem_cons_self
  | succ n ih =>
    apply List.mem_cons_of_mem
    rw [absorb_succ, Nat.succ_mul, Nat.add_comm (n * B), ← List.drop_drop]
    exact ih

/-- Different last blocks that lead to one state. -/
theorem exists_collision_last (h : absorb f B (m + 1) s xs = absorb f B (n + 1) s' ys)
    (hne : (xs.drop (m * B)).take B ≠ (ys.drop (n * B)).take B) :
    ∃ p ∈ trace f B (m + 1) s xs, ∃ q ∈ trace f B (n + 1) s' ys, p ≠ q ∧ f p.1 p.2 = f q.1 q.2 := by
  rw [absorb_add, absorb_add, absorb_succ, absorb_succ, absorb_zero, absorb_zero] at h
  exact ⟨_, mem_trace_last, _, mem_trace_last, fun hpq => hne (Prod.mk.inj hpq).2, h⟩

end BlockHash
