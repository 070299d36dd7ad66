import Mathlib.Algebra.Order.Monoid.WithTop
import Mathlib.Algebra.Order.Monoid.Defs
import Mathlib.Data.Set.Insert
import Mathlib.Data.List.Chain

/-!
# Shortest paths

Paths in a graph with costs on its edges, and the search that settles one node after the other. The
costs of a search whose queue is empty are the distances from its source, and its predecessors trace
shortest paths: every edge is relaxed, so no path is cheaper, and the trace of a node runs through
nodes settled before it, so it ends at the source.

## Main definitions

* `Path`: the paths from a node
* `IsDistance`: the least total cost of a path, infinite without one
* `Traced`: a path found by following predecessors
* `Search`, `Search.lower`, `Search.pop`: the state of a search and its steps
* `Search.Invariant`: the invariant, for settled nodes and relaxed edges

## Main results

* `Search.Invariant.pop`, `Search.Invariant.lower`: the steps keep the invariant
* `Search.Invariant.isDistance`: the costs at the end of a search
* `Traced.path`: following predecessors finds a path of that cost
-/

namespace ShortestPaths

universe u v u'

variable {V : Type u} {C : Type v} [AddCommMonoid C] {E : V → V → C → Prop} {s d : V}

/-! ## Paths -/

/-- A path along edges `E` from `s` to a node, with its nodes and its total cost. -/
inductive Path (E : V → V → C → Prop) (s : V) : V → List V → C → Prop
  | nil : Path E s s [s] 0
  | snoc {u v : V} {p : List V} {c w : C} :
    Path E s u p c → E u v w → Path E s v (p ++ [v]) (c + w)

namespace Path

variable {V' : Type u'} {E' : V' → V' → C → Prop} {f : V → V'} {p : List V} {c : C}

/-- A path leads from its source to its end along edges. -/
theorem spec (h : Path E s d p c) : p.head? = some s ∧ p.getLast? = some d ∧
    p.IsChain fun u v => ∃ w, E u v w := by
  induction h with
  | nil => exact ⟨rfl, rfl, .singleton s⟩
  | @snoc u v p c w hp hedge ih =>
    obtain ⟨hhead, hlast, hchain⟩ := ih
    refine ⟨?_, List.getLast?_concat, ?_⟩
    · rw [List.head?_append, hhead]
      rfl
    · refine hchain.append (.singleton v) fun x hx y hy => ?_
      rw [hlast] at hx
      obtain rfl := Option.some.inj hx
      obtain rfl := Option.some.inj hy
      exact ⟨w, hedge⟩

/-- Every node of a path is the end of a path. -/
theorem exists_of_mem (h : Path E s d p c) {v : V} (hv : v ∈ p) : ∃ p c, Path E s v p c := by
  induction h with
  | nil =>
    obtain rfl := List.mem_singleton.mp hv
    exact ⟨[v], 0, .nil⟩
  | @snoc u y p c w hp hedge ih =>
    rcases List.mem_append.mp hv with hv | hv
    · exact ih hv
    · obtain rfl := List.mem_singleton.mp hv
      exact ⟨p ++ [v], c + w, .snoc hp hedge⟩

/-- A path, with its nodes renamed. -/
theorem map (hf : ∀ u v w, E u v w → E' (f u) (f v) w) (h : Path E s d p c) :
    Path E' (f s) (f d) (p.map f) c := by
  induction h with
  | nil => exact .nil
  | snoc hp hedge ih =>
    rw [List.map_append]
    exact .snoc ih (hf _ _ _ hedge)

/-- A path among renamed nodes comes from a path. -/
theorem exists_of_map (hf : ∀ u v' w, E' (f u) v' w → ∃ v, v' = f v ∧ E u v w) {d' : V'}
    {p' : List V'} (h : Path E' (f s) d' p' c) :
    ∃ d p, d' = f d ∧ p' = p.map f ∧ Path E s d p c := by
  induction h with
  | nil => exact ⟨s, [s], rfl, rfl, .nil⟩
  | snoc hp hedge ih =>
    obtain ⟨u, p, rfl, rfl, hpath⟩ := ih
    obtain ⟨v, rfl, hedge'⟩ := hf u _ _ hedge
    exact ⟨v, p ++ [v], rfl, by rw [List.map_append]; rfl, .snoc hpath hedge'⟩

end Path

/-! ## Predecessors -/

/-- Following predecessors from a node to the source, through nodes of `S`, with the costs of the
edges between them. -/
inductive Traced (E : V → V → C → Prop) (s : V) (x : V → WithTop C) (pred : V → Option V)
    (S : Set V) : V → List V → Prop
  | source : x s = 0 → pred s = none → Traced E s x pred S s [s]
  | step {u v : V} {p : List V} {w : C} :
    Traced E s x pred S u p → u ∈ S → pred v = some u → E u v w → x v = x u + w →
      Traced E s x pred S v (p ++ [v])

namespace Traced

variable {x x' : V → WithTop C} {pred pred' : V → Option V} {S S' : Set V} {p : List V}

theorem path (h : Traced E s x pred S d p) : ∃ c : C, x d = c ∧ Path E s d p c := by
  induction h with
  | source hx hpred => exact ⟨0, hx, .nil⟩
  | @step u v p w hp hu hpred hedge hx ih =>
    obtain ⟨c, hc, hpath⟩ := ih
    exact ⟨c + w, by rw [hx, hc, WithTop.coe_add], .snoc hpath hedge⟩

/-- The source is met once, where the trace begins. -/
theorem eq_cons (h : Traced E s x pred S d p) : ∃ l, p = s :: l ∧ s ∉ l ∧ pred s = none := by
  induction h with
  | source hx hpred => exact ⟨[], rfl, List.not_mem_nil, hpred⟩
  | @step u v p w hp hu hpred hedge hx ih =>
    obtain ⟨l, rfl, hs, hnone⟩ := ih
    refine ⟨l ++ [v], rfl, fun hmem => ?_, hnone⟩
    rcases List.mem_append.mp hmem with hmem | hmem
    · exact hs hmem
    · rw [← List.mem_singleton.mp hmem, hnone] at hpred
      cases hpred

/-- A trace depends on the settled nodes and on its end only. -/
theorem congr (h : Traced E s x pred S d p) (hsub : S ⊆ S')
    (hS : ∀ y, y = s ∨ y ∈ S ∨ y = d → x' y = x y ∧ pred' y = pred y) :
    Traced E s x' pred' S' d p := by
  induction h with
  | source hx hpred =>
    obtain ⟨hx', hpred'⟩ := hS s (.inl rfl)
    exact .source (hx'.trans hx) (hpred'.trans hpred)
  | @step u v p w hp hu hpred hedge hx ih =>
    obtain ⟨hxv, hpredv⟩ := hS v (.inr (.inr rfl))
    obtain ⟨hxu, -⟩ := hS u (.inr (.inl hu))
    refine .step (ih fun y hy => hS y ?_) (hsub hu) (hpredv.trans hpred) hedge
      (by rw [hxv, hxu, hx])
    rcases hy with hy | hy | rfl
    · exact .inl hy
    · exact .inr (.inl hy)
    · exact .inr (.inl hu)

end Traced

/-! ## Distances -/

variable [LinearOrder C]

/-- The least total cost of a path, infinite if there is none. -/
structure IsDistance (E : V → V → C → Prop) (s d : V) (x : WithTop C) : Prop where
  le : ∀ p c, Path E s d p c → x ≤ c
  attained : ∀ c : C, x = c → ∃ p, Path E s d p c

theorem IsDistance.eq_top_iff {x : WithTop C} (h : IsDistance E s d x) :
    x = ⊤ ↔ ¬ ∃ p c, Path E s d p c := by
  constructor
  · rintro rfl ⟨p, c, hp⟩
    exact absurd (h.le p c hp) (by simp)
  · intro hnone
    by_contra hx
    obtain ⟨c, rfl⟩ := WithTop.ne_top_iff_exists.mp hx
    obtain ⟨p, hp⟩ := h.attained c rfl
    exact hnone ⟨p, c, hp⟩

/-- Costs that no edge lowers are at most the total cost of every path. -/
theorem le_of_path [IsOrderedAddMonoid C] {x : V → WithTop C} (hs : x s ≤ 0)
    (hx : ∀ u v w, E u v w → x v ≤ x u + w) {p : List V} {c : C} (h : Path E s d p c) :
    x d ≤ c := by
  induction h with
  | nil => exact hs
  | snoc hp hedge ih =>
    rw [WithTop.coe_add]
    exact (hx _ _ _ hedge).trans (by gcongr)

/-! ## The search -/

/-- The costs found so far, the nodes they were found from, and the nodes to settle. -/
@[ext] structure Search (V : Type u) (C : Type v) where
  cost : V → WithTop C
  previous : V → Option V
  queue : Set (WithTop C × V)

namespace Search

/-- The search begins at `s`. -/
noncomputable def initial (s : V) : Search V C :=
  open Classical in ⟨Function.update (fun _ => ⊤) s 0, fun _ => none, {(0, s)}⟩

/-- The least node of the queue is settled. -/
def pop (q : Search V C) (c : WithTop C) (u : V) : Search V C :=
  { q with queue := q.queue \ {(c, u)} }

/-- A cost of `v` is found from `u`: `v` moves in the queue. -/
noncomputable def lower (q : Search V C) (u v : V) (c : WithTop C) : Search V C :=
  open Classical in
  { cost := Function.update q.cost v c
    previous := Function.update q.previous v (some u)
    queue := insert (c, v) (q.queue \ {(q.cost v, v)}) }

section Lower

omit [AddCommMonoid C] [LinearOrder C]

variable (q : Search V C) (u : V) {v y : V} (c : WithTop C)

@[simp] theorem cost_lower_self : (q.lower u v c).cost v = c := by simp [lower]

@[simp] theorem previous_lower_self : (q.lower u v c).previous v = some u := by simp [lower]

theorem cost_lower_of_ne (hy : y ≠ v) : (q.lower u v c).cost y = q.cost y := by
  simp [lower, hy]

theorem previous_lower_of_ne (hy : y ≠ v) : (q.lower u v c).previous y = q.previous y := by
  simp [lower, hy]

end Lower

omit [AddCommMonoid C] in
theorem cost_lower_le (q : Search V C) (u : V) {v y : V} {c : WithTop C} (hc : c ≤ q.cost v) :
    (q.lower u v c).cost y ≤ q.cost y := by
  by_cases hy : y = v
  · rw [hy, cost_lower_self]
    exact hc
  · exact (cost_lower_of_ne q u c hy).le

/-- The nodes of `S` are settled, and the edges of `D` are relaxed. -/
structure Invariant (E : V → V → C → Prop) (s : V) (q : Search V C) (S : Set V)
    (D : V → V → C → Prop) : Prop where
  source : q.cost s = 0
  nonneg : ∀ v, 0 ≤ q.cost v
  queued : ∀ c v, (c, v) ∈ q.queue → c = q.cost v ∧ c ≠ ⊤ ∧ v ∉ S
  covered : ∀ v, q.cost v ≠ ⊤ → v ∈ S ∨ (q.cost v, v) ∈ q.queue
  ordered : ∀ u ∈ S, ∀ c v, (c, v) ∈ q.queue → q.cost u ≤ c
  relaxed : ∀ u v w, D u v w → u ∈ S ∧ q.cost v ≤ q.cost u + w
  traced : ∀ v, q.cost v ≠ ⊤ → ∃ p, Traced E s q.cost q.previous S v p

namespace Invariant

variable {q : Search V C} {S : Set V} {D D' : V → V → C → Prop} {u v : V} {c : WithTop C} {w : C}

theorem initial : Invariant E s (Search.initial s) ∅ fun _ _ _ => False where
  source := by simp [Search.initial]
  nonneg v := by by_cases hv : v = s <;> simp [Search.initial, hv]
  queued c v h := by
    obtain ⟨rfl, rfl⟩ := Prod.mk.inj h
    simp [Search.initial]
  covered v h := by
    have hv : v = s := by
      by_contra hv
      simp [Search.initial, hv] at h
    simp [hv, Search.initial]
  ordered _ h := absurd h (Set.notMem_empty _)
  relaxed _ _ _ h := h.elim
  traced v h := by
    have hv : v = s := by
      by_contra hv
      simp [Search.initial, hv] at h
    exact ⟨[s], hv ▸ .source (by simp [Search.initial]) rfl⟩

/-- Settled nodes cost at most what the next node costs, and it costs what the queue says. -/
theorem pop (h : Invariant E s q S D) (hu : (c, u) ∈ q.queue)
    (hmin : ∀ c' v, (c', v) ∈ q.queue → c ≤ c') :
    Invariant E s (q.pop c u) (insert u S) D ∧ c = q.cost u ∧ ∀ y ∈ insert u S, q.cost y ≤ c := by
  obtain ⟨hc, hne, huS⟩ := h.queued c u hu
  have hle : ∀ y ∈ insert u S, q.cost y ≤ c := by
    rintro y (rfl | hy)
    · exact hc.ge
    · exact h.ordered y hy c u hu
  refine ⟨⟨h.source, h.nonneg, ?_, ?_, ?_, ?_, ?_⟩, hc, hle⟩
  · rintro c' v ⟨hv, hneq⟩
    obtain ⟨hc', hne', hvS⟩ := h.queued c' v hv
    refine ⟨hc', hne', ?_⟩
    rintro (rfl | hvS')
    · exact hneq (by rw [hc', hc]; rfl)
    · exact hvS hvS'
  · intro v hv
    by_cases hvu : v = u
    · exact .inl (.inl hvu)
    · exact (h.covered v hv).imp .inr fun hq => ⟨hq, fun heq => hvu (Prod.mk.inj heq).2⟩
  · rintro y hy c' v ⟨hv, -⟩
    exact (hle y hy).trans (hmin c' v hv)
  · intro u' v w hD
    obtain ⟨hS, hcost⟩ := h.relaxed u' v w hD
    exact ⟨.inr hS, hcost⟩
  · intro v hv
    obtain ⟨p, hp⟩ := h.traced v hv
    exact ⟨p, hp.congr (Set.subset_insert u S) fun _ _ => ⟨rfl, rfl⟩⟩

/-- More edges are relaxed. -/
theorem mono (h : Invariant E s q S D) (hD : ∀ u v w, D' u v w → D u v w ∨
    u ∈ S ∧ q.cost v ≤ q.cost u + w) : Invariant E s q S D' :=
  { h with relaxed := fun u v w h' => (hD u v w h').elim (h.relaxed u v w) id }

variable [IsOrderedAddMonoid C]

theorem le_cost_add (q : Search V C) (u : V) (hw : 0 ≤ w) : q.cost u ≤ q.cost u + w :=
  le_add_of_nonneg_right (WithTop.coe_nonneg.mpr hw)

/-- The cost of a settled node is not lowered. -/
theorem notMem_of_lt (hmax : ∀ y ∈ S, q.cost y ≤ q.cost u) (hw : 0 ≤ w)
    (hlt : q.cost u + w < q.cost v) : v ∉ S := fun hv =>
  absurd ((hmax v hv).trans (le_cost_add q u hw)) (not_le.mpr hlt)

theorem source_ne_of_lt (h : Invariant E s q S D) (hw : 0 ≤ w) (hlt : q.cost u + w < q.cost v) :
    s ≠ v := by
  rintro rfl
  rw [h.source] at hlt
  exact absurd ((h.nonneg u).trans (le_cost_add q u hw)) (not_le.mpr hlt)

/-- What leads to a settled node or to the end of a trace does not change. -/
theorem traced_lower (h : Invariant E s q S D) (hw : 0 ≤ w) (hlt : q.cost u + w < q.cost v)
    (hvS : v ∉ S) {y : V} {p : List V} (hy : y ≠ v) (hp : Traced E s q.cost q.previous S y p) :
    Traced E s (q.lower u v (q.cost u + w)).cost (q.lower u v (q.cost u + w)).previous S y p := by
  have hother : ∀ z, z ≠ v → (q.lower u v (q.cost u + w)).cost z = q.cost z ∧
      (q.lower u v (q.cost u + w)).previous z = q.previous z := fun z hz =>
    ⟨cost_lower_of_ne q u _ hz, previous_lower_of_ne q u _ hz⟩
  refine hp.congr subset_rfl fun z hz => hother z ?_
  rcases hz with rfl | hz | rfl
  · exact h.source_ne_of_lt hw hlt
  · rintro rfl
    exact hvS hz
  · exact hy

/-- An edge from the node settled last lowers the cost of its end. -/
theorem lower (h : Invariant E s q S D) (hu : u ∈ S) (hmax : ∀ y ∈ S, q.cost y ≤ q.cost u)
    (hedge : E u v w) (hw : 0 ≤ w) (hlt : q.cost u + w < q.cost v) :
    Invariant E s (q.lower u v (q.cost u + w)) S D ∧
      ∀ y ∈ S, (q.lower u v (q.cost u + w)).cost y = q.cost y := by
  have hle : q.cost u ≤ q.cost u + w := le_cost_add q u hw
  have htop : q.cost u + w ≠ ⊤ := ne_top_of_lt hlt
  have hvS : v ∉ S := notMem_of_lt hmax hw hlt
  have hsettled : ∀ y ∈ S, (q.lower u v (q.cost u + w)).cost y = q.cost y := fun y hy =>
    cost_lower_of_ne q u _ (by rintro rfl; exact hvS hy)
  refine ⟨⟨?_, ?_, ?_, ?_, ?_, ?_, ?_⟩, hsettled⟩
  · rw [cost_lower_of_ne q u _ (h.source_ne_of_lt hw hlt), h.source]
  · intro y
    by_cases hy : y = v
    · rw [hy, cost_lower_self]
      exact (h.nonneg u).trans hle
    · rw [cost_lower_of_ne q u _ hy]
      exact h.nonneg y
  · rintro c y (heq | ⟨hq, hne⟩)
    · obtain ⟨rfl, rfl⟩ := Prod.mk.inj heq
      exact ⟨(cost_lower_self q u _).symm, htop, hvS⟩
    · obtain ⟨rfl, hc, hyS⟩ := h.queued c y hq
      have hy : y ≠ v := by
        rintro rfl
        exact hne rfl
      exact ⟨(cost_lower_of_ne q u _ hy).symm, hc, hyS⟩
  · intro y hy
    by_cases hyv : y = v
    · rw [hyv, cost_lower_self]
      exact .inr (.inl rfl)
    · rw [cost_lower_of_ne q u _ hyv] at hy ⊢
      exact (h.covered y hy).imp id fun hq => .inr ⟨hq, fun heq => hyv (Prod.mk.inj heq).2⟩
  · intro y hy c z hz
    rw [hsettled y hy]
    rcases hz with heq | ⟨hq, -⟩
    · obtain ⟨rfl, rfl⟩ := Prod.mk.inj heq
      exact (hmax y hy).trans hle
    · exact h.ordered y hy c z hq
  · intro u' v' w' hD
    obtain ⟨hu', hcost⟩ := h.relaxed u' v' w' hD
    rw [hsettled u' hu']
    exact ⟨hu', (cost_lower_le q u hlt.le).trans hcost⟩
  · intro y hy
    by_cases hyv : y = v
    -- The trace of `u` is continued to `v`.
    · obtain ⟨p, hp⟩ := h.traced u fun hc => htop (by rw [hc, WithTop.top_add])
      have huv : u ≠ v := by
        rintro rfl
        exact hvS hu
      rw [hyv]
      refine ⟨p ++ [v], .step (h.traced_lower hw hlt hvS huv hp) hu (by simp) hedge ?_⟩
      rw [cost_lower_self, hsettled u hu]
    · rw [cost_lower_of_ne q u _ hyv] at hy
      obtain ⟨p, hp⟩ := h.traced y hy
      exact ⟨p, h.traced_lower hw hlt hvS hyv hp⟩

/-- At the end of a search, with all edges from settled nodes relaxed, the costs are the
distances. -/
theorem isDistance (h : Invariant E s q S D) (hqueue : q.queue = ∅)
    (hD : ∀ u v w, u ∈ S → E u v w → D u v w) (d : V) : IsDistance E s d (q.cost d) where
  le p c hp := by
    refine le_of_path h.source.le (fun u v w hedge => ?_) hp
    by_cases hu : q.cost u = ⊤
    · simp [hu]
    · rcases h.covered u hu with hS | hq
      · exact (h.relaxed u v w (hD u v w hS hedge)).2
      · simp [hqueue] at hq
  attained c hc := by
    obtain ⟨p, hp⟩ := h.traced d (by simp [hc])
    obtain ⟨c', hc', hpath⟩ := hp.path
    rw [hc] at hc'
    exact ⟨p, WithTop.coe_inj.mp hc' ▸ hpath⟩

end Invariant

end Search

end ShortestPaths
