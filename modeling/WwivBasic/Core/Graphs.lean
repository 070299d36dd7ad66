import WwivBasic.Foundations.ShortestPaths
import Mathlib.Data.Finset.Max
import Mathlib.Data.List.GetD
import Mathlib.Data.Prod.Lex
import Mathlib.Algebra.Order.Ring.Rat
import Mathlib.Algebra.Order.Monoid.Unbundled.WithTop

/-!
# Graphs

The costs and the shortest paths from one node of a graph. `Graph::Compute` keeps the nodes to visit
in a `std::set` of costs and nodes, and moves a node whose cost is lowered by erasing its pair and
inserting another. Costs are rational numbers, with infinity for what is not reached.

## Main definitions

* `Graph`, `Graph.new`, `Graph.addEdge`: a graph and how it is built
* `Graph.compute`, `Graph.costTo`, `Graph.shortestPathTo`: the functions of the graph
* `Graph.Built`: the states of a graph with nodes `1` to `max_size - 1` and no negative cost

## Main results

* `loop_eq_some`: the loop ends, and keeps the invariant of the search
* `Graph.shortest_paths`: the costs and paths that are returned
-/

namespace WwivBasic.Graphs

open ShortestPaths (Path IsDistance Traced)

/-! ## The code -/

/-- `edge`. -/
structure Edge where
  node_ : ℕ
  cost_ : ℚ

/-- The node that is no node. -/
def NO_NODE : ℕ := 0

/-- The cost of a node that is not reached. -/
def max_cost : WithTop ℚ := ⊤

/-- `Graph`. -/
structure Graph where
  node_ : ℕ
  adjacency_list_ : List (List Edge)
  computed_ : Bool := false
  cost_ : List (WithTop ℚ)
  previous_ : List ℕ

/-- The vectors and the queue of `Compute`. -/
structure Search where
  cost_ : List (WithTop ℚ)
  previous_ : List ℕ
  queue : Finset (WithTop ℚ ×ₗ ℕ)

namespace Search

/-- `cost_[v]`. -/
def cost (t : Search) (v : ℕ) : WithTop ℚ := t.cost_.getD v max_cost

/-- An edge exiting `u`. -/
def visit (dist : WithTop ℚ) (u : ℕ) (t : Search) (e : Edge) : Search :=
  let v := e.node_
  let cost_through_u := dist + e.cost_
  if cost_through_u < t.cost v then
    { cost_ := t.cost_.set v cost_through_u
      previous_ := t.previous_.set v u
      queue := insert (toLex (cost_through_u, v)) (t.queue.erase (toLex (t.cost v, v))) }
  else t

/-- The loop of `Compute`, for at most so many iterations. -/
def loop (adjacency_list_ : List (List Edge)) : ℕ → Search → Option Search
  | 0, _ => none
  | n + 1, t =>
    if h : t.queue.Nonempty then
      let begin_ := ofLex (t.queue.min' h)
      let t := { t with queue := t.queue.erase (toLex begin_) }
      loop adjacency_list_ n
        ((adjacency_list_.getD begin_.2 []).foldl (visit begin_.1 begin_.2) t)
    else some t

end Search

namespace Graph

/-- `Graph::Graph`. -/
def new (node max_size : ℕ) : Graph where
  node_ := node
  adjacency_list_ := List.replicate max_size []
  cost_ := (List.replicate max_size max_cost).set node 0
  previous_ := List.replicate max_size NO_NODE

/-- `add_edge`. -/
def addEdge (g : Graph) (source dest : ℕ) (cost : ℚ) : Bool × Graph :=
  if g.computed_ then (false, g)
  else (true, { g with adjacency_list_ := g.adjacency_list_.modify source (· ++ [⟨dest, cost⟩]) })

/-- The search as `Compute` begins it. -/
def search (g : Graph) : Search where
  cost_ := g.cost_
  previous_ := g.previous_
  queue := {toLex (g.cost_.getD g.node_ max_cost, g.node_)}

/-- `Compute`, if its loop ends within `n` iterations. -/
def compute (n : ℕ) (g : Graph) : Option Graph :=
  (Search.loop g.adjacency_list_ n g.search).map fun t =>
    { g with computed_ := true, cost_ := t.cost_, previous_ := t.previous_ }

/-- `if (!computed_) { Compute(); }`. -/
def ensure (n : ℕ) (g : Graph) : Option Graph := if g.computed_ then some g else g.compute n

/-- `cost_to`. -/
def costTo (n : ℕ) (g : Graph) (destination : ℕ) : Option (WithTop ℚ × Graph) :=
  (g.ensure n).map fun g => (g.cost_.getD destination max_cost, g)

/-- The loop of `shortest_path_to`, for at most `n` iterations. -/
def follow (previous_ : List ℕ) : ℕ → ℕ → List ℕ → Option (List ℕ)
  | 0, _, _ => none
  | n + 1, destination, path =>
    if destination = NO_NODE then some path
    else follow previous_ n (previous_.getD destination NO_NODE) (destination :: path)

/-- `shortest_path_to`. -/
def shortestPathTo (n : ℕ) (g : Graph) (destination : ℕ) : Option (List ℕ × Graph) :=
  (g.ensure n).bind fun g => (follow g.previous_ n destination []).map fun path => (path, g)

end Graph

/-! ## The loop is a search -/

/-- The edges of an adjacency list. -/
def HasEdge (adjacency_list_ : List (List Edge)) (u v : ℕ) (w : ℚ) : Prop :=
  ∃ e ∈ adjacency_list_.getD u [], e.node_ = v ∧ e.cost_ = w

/-- All edges lead to the nodes `1` to `n - 1`, and none has a negative cost. -/
def Edges (n : ℕ) (adjacency_list_ : List (List Edge)) : Prop :=
  ∀ u, ∀ e ∈ adjacency_list_.getD u [], e.node_ ≠ NO_NODE ∧ e.node_ < n ∧ 0 ≤ e.cost_

namespace Search

/-- What the vectors and the queue stand for. -/
def abs (t : Search) : ShortestPaths.Search ℕ ℚ where
  cost := t.cost
  previous v := if t.previous_.getD v NO_NODE = NO_NODE then none
    else some (t.previous_.getD v NO_NODE)
  queue := {p | toLex p ∈ t.queue}

variable {t : Search} {u v : ℕ} {dist : WithTop ℚ} {e : Edge}

theorem getD_set {α : Type} (l : List α) {i : ℕ} (hi : i < l.length) (a d : α) (j : ℕ) :
    (l.set i a).getD j d = if j = i then a else l.getD j d := by
  split_ifs with hj
  · simp [hj, hi]
  · simp [List.getElem?_set_ne (Ne.symm hj)]

/-- A cost that is lowered, in the vectors and in the queue. -/
theorem abs_visit (hu : u ≠ NO_NODE) (hc : e.node_ < t.cost_.length)
    (hp : e.node_ < t.previous_.length) (h : dist + e.cost_ < t.cost e.node_) :
    (t.visit dist u e).abs = t.abs.lower u e.node_ (dist + e.cost_) := by
  rw [visit, if_pos h]
  ext1
  · ext1 v
    simp only [abs, cost, getD_set _ hc, ShortestPaths.Search.lower, Function.update_apply]
    split_ifs <;> rfl
  · ext1 v
    simp only [abs, getD_set _ hp, ShortestPaths.Search.lower, Function.update_apply]
    split_ifs <;> simp_all
  · ext ⟨c, v⟩
    simp [abs, ShortestPaths.Search.lower, and_comm]

theorem visit_of_not_lt (h : ¬ dist + e.cost_ < t.cost e.node_) : t.visit dist u e = t := if_neg h

/-- The search of the code, with its nodes in range. -/
structure Follows (E : ℕ → ℕ → ℚ → Prop) (s n : ℕ) (t : Search) (S : Finset ℕ)
    (D : ℕ → ℕ → ℚ → Prop) : Prop where
  invariant : t.abs.Invariant E s S D
  cost_ : t.cost_.length = n
  previous_ : t.previous_.length = n
  settled : S ⊆ Finset.range n

variable {E D : ℕ → ℕ → ℚ → Prop} {s n : ℕ} {S : Finset ℕ}

theorem length_visit (t : Search) (dist : WithTop ℚ) (u : ℕ) (e : Edge) :
    (t.visit dist u e).cost_.length = t.cost_.length ∧
      (t.visit dist u e).previous_.length = t.previous_.length := by
  rw [visit]
  split_ifs <;> simp

/-- One edge exiting the node settled last. -/
theorem Follows.visit (h : Follows E s n t S D) (hu : u ∈ S) (hne : u ≠ NO_NODE)
    (hmax : ∀ y ∈ S, t.cost y ≤ t.cost u) (he : E u e.node_ e.cost_) (hnode : e.node_ < n)
    (hcost : 0 ≤ e.cost_) :
    Follows E s n (t.visit (t.cost u) u e) S
        (fun a v w => D a v w ∨ a = u ∧ v = e.node_ ∧ w = e.cost_) ∧
      ∀ y ∈ S, (t.visit (t.cost u) u e).cost y = t.cost y := by
  have hlen := length_visit t (t.cost u) u e
  by_cases hlt : t.cost u + e.cost_ < t.cost e.node_
  · have habs := abs_visit hne (h.cost_ ▸ hnode) (h.previous_ ▸ hnode) hlt
    have hself : (t.abs.lower u e.node_ (t.cost u + e.cost_)).cost e.node_ = t.cost u + e.cost_ :=
      ShortestPaths.Search.cost_lower_self t.abs u _
    obtain ⟨hinv, hothers⟩ := h.invariant.lower hu hmax he hcost hlt
    rw [show t.abs.cost u = t.cost u from rfl, ← habs] at hinv hothers
    rw [← habs] at hself
    refine ⟨⟨hinv.mono ?_, hlen.1.trans h.cost_, hlen.2.trans h.previous_, h.settled⟩, hothers⟩
    rintro a v w (hD | ⟨rfl, rfl, rfl⟩)
    · exact .inl hD
    · exact .inr ⟨hu, by rw [hself, hothers _ hu]; rfl⟩
  · rw [visit_of_not_lt hlt]
    refine ⟨⟨h.invariant.mono ?_, h.cost_, h.previous_, h.settled⟩, fun _ _ => rfl⟩
    rintro a v w (hD | ⟨rfl, rfl, rfl⟩)
    · exact .inl hD
    · exact .inr ⟨hu, not_lt.mp hlt⟩

/-- All edges exiting the node settled last. -/
theorem Follows.foldl_visit {es : List Edge} (h : Follows E s n t S D) (hu : u ∈ S)
    (hne : u ≠ NO_NODE) (hmax : ∀ y ∈ S, t.cost y ≤ t.cost u)
    (hes : ∀ e ∈ es, E u e.node_ e.cost_ ∧ e.node_ < n ∧ 0 ≤ e.cost_) :
    Follows E s n (es.foldl (Search.visit (t.cost u) u) t) S
      (fun a v w => D a v w ∨ a = u ∧ ∃ e ∈ es, e.node_ = v ∧ e.cost_ = w) := by
  induction es generalizing t D with
  | nil =>
    exact ⟨h.invariant.mono fun a v w hD => .inl (by simpa using hD), h.cost_, h.previous_,
      h.settled⟩
  | cons e es ih =>
    obtain ⟨⟨he, hnode, hcost⟩, hes⟩ := List.forall_mem_cons.mp hes
    obtain ⟨hvisit, hothers⟩ := h.visit hu hne hmax he hnode hcost
    have hrest := ih hvisit (fun y hy => by
      rw [hothers y hy, hothers u hu]
      exact hmax y hy) hes
    rw [hothers u hu] at hrest
    refine ⟨hrest.invariant.mono ?_, hrest.cost_, hrest.previous_, hrest.settled⟩
    rintro a v w (hD | ⟨rfl, e', he', rfl, rfl⟩)
    · exact .inl (.inl (.inl hD))
    · rcases List.mem_cons.mp he' with rfl | he'
      · exact .inl (.inl (.inr ⟨rfl, rfl, rfl⟩))
      · exact .inl (.inr ⟨rfl, e', he', rfl, rfl⟩)

/-- The edges exiting the settled nodes are relaxed. -/
def Settles (adj : List (List Edge)) (s n : ℕ) (t : Search) (S : Finset ℕ) : Prop :=
  Follows (HasEdge adj) s n t S fun u v w => u ∈ S ∧ HasEdge adj u v w

variable {adj : List (List Edge)}

theorem abs_erase (c : WithTop ℚ) (u : ℕ) :
    { t with queue := t.queue.erase (toLex (c, u)) }.abs = t.abs.pop c u := by
  ext1
  · rfl
  · rfl
  · ext p
    simp [abs, ShortestPaths.Search.pop, and_comm]

/-- A node with a cost is a node of the graph. -/
theorem Settles.range (h : Settles adj s n t S) (hadj : Edges n adj) (hs : s ≠ NO_NODE)
    (hv : t.cost v ≠ max_cost) : v ≠ NO_NODE ∧ v < n := by
  constructor
  · obtain ⟨p, hp⟩ := h.invariant.traced v hv
    cases hp with
    | source => exact hs
    | step _ _ _ hedge _ =>
      obtain ⟨e, he, rfl, -⟩ := hedge
      exact (hadj _ e he).1
  · by_contra hn
    have hlen : t.cost_.length ≤ v := h.cost_ ▸ not_lt.mp hn
    exact hv (by simp [cost, List.getElem?_eq_none hlen])

/-- One iteration settles a node that was not settled. -/
theorem Settles.step (h : Settles adj s n t S) (hadj : Edges n adj) (hs : s ≠ NO_NODE)
    (hq : t.queue.Nonempty) {c : WithTop ℚ} (hb : ofLex (t.queue.min' hq) = (c, u)) :
    u ∉ S ∧ Settles adj s n ((adj.getD u []).foldl (Search.visit c u)
      { t with queue := t.queue.erase (toLex (c, u)) }) (insert u S) := by
  have hmem : (c, u) ∈ t.abs.queue := by
    show toLex (c, u) ∈ t.queue
    rw [← hb]
    exact t.queue.min'_mem hq
  have hmin : ∀ c' v, (c', v) ∈ t.abs.queue → c ≤ c' := by
    intro c' v hv
    have hle : toLex (c, u) ≤ toLex (c', v) := by
      rw [← hb]
      exact t.queue.min'_le _ hv
    rcases Prod.Lex.toLex_le_toLex.mp hle with hlt | ⟨heq, -⟩
    · exact hlt.le
    · exact heq.le
  obtain ⟨-, hne, huS⟩ := h.invariant.queued c u hmem
  obtain ⟨hinv, hc, hle⟩ := h.invariant.pop hmem hmin
  obtain ⟨hu, hn⟩ := h.range hadj hs (v := u) (fun htop => hne (hc.trans htop))
  have hc : c = { t with queue := t.queue.erase (toLex (c, u)) }.cost u := hc
  have hpop : Follows (HasEdge adj) s n { t with queue := t.queue.erase (toLex (c, u)) }
      (insert u S) fun u v w => u ∈ S ∧ HasEdge adj u v w := by
    refine ⟨?_, h.cost_, h.previous_, ?_⟩
    · rw [abs_erase, Finset.coe_insert]
      exact hinv
    · exact Finset.insert_subset (Finset.mem_range.mpr hn) h.settled
  have hfold := hpop.foldl_visit (Finset.mem_insert_self u S) hu
    (fun y hy => hc ▸ hle y (by simpa using hy))
    (fun e (he : e ∈ adj.getD u []) => ⟨⟨e, he, rfl, rfl⟩, (hadj u e he).2⟩)
  rw [← hc] at hfold
  refine ⟨huS, hfold.invariant.mono ?_, hfold.cost_, hfold.previous_, hfold.settled⟩
  rintro a v w ⟨ha, hedge⟩
  rcases Finset.mem_insert.mp ha with rfl | ha
  · exact .inl (.inr ⟨rfl, hedge⟩)
  · exact .inl (.inl ⟨ha, hedge⟩)

/-- The loop ends: no node is settled twice. -/
theorem loop_eq_some (h : Settles adj s n t S) (hadj : Edges n adj) (hs : s ≠ NO_NODE) {m : ℕ}
    (hm : n < S.card + m) :
    ∃ t' S', loop adj m t = some t' ∧ Settles adj s n t' S' ∧ t'.queue = ∅ := by
  induction m generalizing t S with
  | zero =>
    have hcard := Finset.card_le_card h.settled
    rw [Finset.card_range] at hcard
    omega
  | succ m ih =>
    rw [loop]
    split_ifs with hq
    · obtain ⟨hu, hstep⟩ := h.step hadj hs hq rfl
      refine ih hstep ?_
      rw [Finset.card_insert_of_notMem hu]
      omega
    · exact ⟨t, S, rfl, h, Finset.not_nonempty_iff_eq_empty.mp hq⟩

/-- More iterations change nothing. -/
theorem loop_of_le {m m' : ℕ} {t' : Search} (h : loop adj m t = some t') (hm : m ≤ m') :
    loop adj m' t = some t' := by
  induction m generalizing t m' with
  | zero => cases h
  | succ m ih =>
    obtain ⟨m', rfl⟩ : ∃ k, m' = k + 1 := ⟨m' - 1, by omega⟩
    rw [loop] at h ⊢
    split_ifs at h ⊢ with hq
    · exact ih h (by omega)
    · exact h

/-- Following the predecessors of a trace finds it. -/
theorem follow_of_traced {S : Set ℕ} {d : ℕ} {p : List ℕ} (hadj : Edges n adj) (hs : s ≠ NO_NODE)
    (h : Traced (HasEdge adj) s t.abs.cost t.abs.previous S d p) {m : ℕ} (hm : p.length < m)
    (acc : List ℕ) : Graph.follow t.previous_ m d acc = some (p ++ acc) := by
  induction h generalizing m acc with
  | source hx hpred =>
    obtain ⟨m, rfl⟩ : ∃ k, m = k + 1 + 1 := ⟨m - 2, by simp at hm; omega⟩
    have hprevious : t.previous_.getD s NO_NODE = NO_NODE := by simpa [abs] using hpred
    rw [Graph.follow, if_neg hs, hprevious, Graph.follow, if_pos rfl]
    rfl
  | @step u v p w hp hu hpred hedge hx ih =>
    obtain ⟨e, he, rfl, -⟩ := hedge
    rw [List.length_append, List.length_singleton] at hm
    obtain ⟨m, rfl⟩ : ∃ k, m = k + 1 := ⟨m - 1, by omega⟩
    have hprevious : t.previous_.getD e.node_ NO_NODE = u := by
      simp only [abs] at hpred
      split_ifs at hpred
      exact Option.some.inj hpred
    rw [Graph.follow, if_neg (hadj u e he).1, hprevious, ih (by omega)]
    simp

end Search

/-! ## The graph -/

namespace Graph

variable {n : ℕ} {g g' : Graph}

/-- The vectors are those of a search that has ended. -/
def Solved (n : ℕ) (g : Graph) : Prop :=
  ∃ t S, Search.Settles g.adjacency_list_ g.node_ n t S ∧ t.queue = ∅ ∧
    t.cost_ = g.cost_ ∧ t.previous_ = g.previous_

/-- The graph is as it was built, or its costs are computed. -/
structure Valid (n : ℕ) (g : Graph) : Prop where
  node_ : g.node_ ≠ NO_NODE ∧ g.node_ < n
  edges : Edges n g.adjacency_list_
  fresh : g.computed_ = false →
    g.cost_ = (new g.node_ n).cost_ ∧ g.previous_ = (new g.node_ n).previous_
  solved : g.computed_ = true → g.Solved n

theorem valid_new {node : ℕ} (h : node ≠ NO_NODE ∧ node < n) : (new node n).Valid n where
  node_ := h
  edges u e he := by
    simp only [new, List.getD_eq_getElem?_getD, List.getElem?_replicate] at he
    split_ifs at he <;> cases he
  fresh _ := ⟨rfl, rfl⟩
  solved h := by cases h

theorem Valid.addEdge {source dest : ℕ} {cost : ℚ} (h : g.Valid n)
    (hdest : dest ≠ NO_NODE ∧ dest < n) (hcost : 0 ≤ cost) :
    (g.addEdge source dest cost).2.Valid n := by
  rw [Graph.addEdge]
  split_ifs with hcomputed
  · exact h
  · refine ⟨h.node_, fun u e he => ?_, h.fresh, fun hc => absurd hc hcomputed⟩
    have hold : e ∈ g.adjacency_list_.getD u [] ∨ e = ⟨dest, cost⟩ := by
      simp only [List.getD_eq_getElem?_getD, List.getElem?_modify] at he ⊢
      cases hu : g.adjacency_list_[u]? with
      | none => simp [hu] at he
      | some es =>
        by_cases hsource : source = u
        · simpa [hu, hsource] using he
        · exact .inl (by simpa [hu, hsource] using he)
    rcases hold with he | rfl
    · exact h.edges u e he
    · exact ⟨hdest.1, hdest.2, hcost⟩

theorem Valid.settles_search (h : g.Valid n) (hcomputed : g.computed_ = false) :
    Search.Settles g.adjacency_list_ g.node_ n g.search ∅ := by
  obtain ⟨hcost, hprevious⟩ := h.fresh hcomputed
  have hget : ∀ v, g.cost_.getD v max_cost = if v = g.node_ then 0 else max_cost := by
    intro v
    rw [hcost, new, Search.getD_set _ (by simpa using h.node_.2)]
    split_ifs
    · rfl
    · exact List.getElem?_getD_replicate_default_eq _ n v
  have habs : g.search.abs = ShortestPaths.Search.initial g.node_ := by
    ext1
    · ext1 v
      simp only [Search.abs, Search.cost, search, hget, ShortestPaths.Search.initial,
        Function.update_apply]
      split_ifs <;> rfl
    · ext1 v
      have hnone : g.previous_.getD v NO_NODE = NO_NODE := by
        rw [hprevious]
        exact List.getElem?_getD_replicate_default_eq _ n v
      exact if_pos hnone
    · ext p
      simp [Search.abs, search, hget, ShortestPaths.Search.initial, -List.getD_eq_getElem?_getD]
  refine ⟨?_, ?_, ?_, Finset.empty_subset _⟩
  · rw [habs, Finset.coe_empty]
    exact ShortestPaths.Search.Invariant.initial.mono fun _ _ _ h => by simp at h
  · simp [search, hcost, new]
  · simp [search, hprevious, new]

/-- The costs are computed with enough iterations, and always the same. -/
theorem Valid.ensure (h : g.Valid n) : ∃ g', g'.Valid n ∧ g'.computed_ = true ∧
    g'.adjacency_list_ = g.adjacency_list_ ∧ g'.node_ = g.node_ ∧
    (∀ m > n, g.ensure m = some g') ∧ ∀ m g'', g.ensure m = some g'' → g'' = g' := by
  cases hcomputed : g.computed_ with
  | true =>
    refine ⟨g, h, hcomputed, rfl, rfl, fun m _ => ?_, fun m g'' hg'' => ?_⟩
    · simp [Graph.ensure, hcomputed]
    · simpa [Graph.ensure, hcomputed, eq_comm] using hg''
  | false =>
    obtain ⟨t, S, hloop, hsettles, hqueue⟩ := Search.loop_eq_some (h.settles_search hcomputed)
      h.edges h.node_.1 (m := n + 1) (by simp)
    have hensure : ∀ m, g.ensure m = g.compute m := fun m => by simp [Graph.ensure, hcomputed]
    have hvalid : Valid n
        { g with computed_ := true, cost_ := t.cost_, previous_ := t.previous_ } :=
      { node_ := h.node_
        edges := h.edges
        fresh := fun hc => by cases hc
        solved := fun _ => ⟨t, S, hsettles, hqueue, rfl, rfl⟩ }
    refine ⟨_, hvalid, rfl, rfl, rfl, fun m hm => ?_, fun m g'' hg'' => ?_⟩
    · rw [hensure, compute, Search.loop_of_le hloop hm]
      rfl
    · rw [hensure, compute, Option.map_eq_some_iff] at hg''
      obtain ⟨t', hloop', rfl⟩ := hg''
      have ht := (Search.loop_of_le hloop (le_max_left _ m)).symm.trans
        (Search.loop_of_le hloop' (le_max_right _ m))
      rw [Option.some.inj ht]

/-- The states of a graph whose node ids are `1` to `n - 1` and whose costs are not negative. -/
inductive Built (n : ℕ) : Graph → Prop
  | new {node : ℕ} (h : node ≠ NO_NODE ∧ node < n) : Built n (Graph.new node n)
  | addEdge {g : Graph} {source dest : ℕ} {cost : ℚ} (h : Built n g)
    (hsource : source ≠ NO_NODE ∧ source < n) (hdest : dest ≠ NO_NODE ∧ dest < n)
    (hcost : 0 ≤ cost) : Built n (g.addEdge source dest cost).2
  | costTo {g g' : Graph} {m d : ℕ} {x : WithTop ℚ} (h : Built n g)
    (hcall : g.costTo m d = some (x, g')) : Built n g'
  | shortestPathTo {g g' : Graph} {m d : ℕ} {path : List ℕ} (h : Built n g)
    (hcall : g.shortestPathTo m d = some (path, g')) : Built n g'

theorem ensure_of_costTo {m d : ℕ} {x : WithTop ℚ} (h : g.costTo m d = some (x, g')) :
    g.ensure m = some g' := by
  obtain ⟨g₁, hensure, heq⟩ := Option.map_eq_some_iff.mp h
  obtain ⟨-, rfl⟩ := Prod.mk.inj heq
  exact hensure

theorem ensure_of_shortestPathTo {m d : ℕ} {path : List ℕ}
    (h : g.shortestPathTo m d = some (path, g')) : g.ensure m = some g' := by
  obtain ⟨g₁, hensure, hfollow⟩ := Option.bind_eq_some_iff.mp h
  obtain ⟨path, -, heq⟩ := Option.map_eq_some_iff.mp hfollow
  obtain ⟨-, rfl⟩ := Prod.mk.inj heq
  exact hensure

theorem Built.valid (h : g.Built n) : g.Valid n := by
  induction h with
  | new h => exact valid_new h
  | addEdge h hsource hdest hcost ih => exact ih.addEdge hdest hcost
  | costTo h hcall ih =>
    obtain ⟨g'', hvalid, -, -, -, -, huniq⟩ := ih.ensure
    exact huniq _ _ (ensure_of_costTo hcall) ▸ hvalid
  | shortestPathTo h hcall ih =>
    obtain ⟨g'', hvalid, -, -, -, -, huniq⟩ := ih.ensure
    exact huniq _ _ (ensure_of_shortestPathTo hcall) ▸ hvalid

/-- `Compute` terminates. -/
def Computes (g : Graph) : Prop := ∃ g' k, ∀ m ≥ k, g.compute m = some g'

/-- `cost_to` terminates and returns the cost. -/
def CostTo (g : Graph) (destination : ℕ) (x : WithTop ℚ) : Prop :=
  ∃ g' k, ∀ m ≥ k, g.costTo m destination = some (x, g')

/-- `shortest_path_to` terminates and returns the path. -/
def ShortestPathTo (g : Graph) (destination : ℕ) (path : List ℕ) : Prop :=
  ∃ g' k, ∀ m ≥ k, g.shortestPathTo m destination = some (path, g')

theorem Built.computes (h : g.Built n) (hcomputed : g.computed_ = false) : g.Computes := by
  obtain ⟨g', -, -, -, -, hensure, -⟩ := h.valid.ensure
  refine ⟨g', n + 1, fun m hm => ?_⟩
  have hm := hensure m hm
  rwa [Graph.ensure, hcomputed] at hm

/-- The cost that is returned is the distance, and a node with a cost is traced to the source. -/
theorem Valid.costTo (h : g.Valid n) (d : ℕ) : ∃ x, g.CostTo d x ∧
    IsDistance (HasEdge g.adjacency_list_) g.node_ d x ∧
    (x ≠ ⊤ → ∃ path c, g.ShortestPathTo d path ∧ x = (c : ℚ) ∧
      Path (HasEdge g.adjacency_list_) g.node_ d path c) := by
  obtain ⟨g', hvalid, hcomputed, hadj, hnode, hensure, -⟩ := h.ensure
  obtain ⟨t, S, hsettles, hqueue, hcost, hprevious⟩ := hvalid.solved hcomputed
  rw [hadj, hnode] at hsettles
  have hcall : g.CostTo d (t.cost d) := by
    refine ⟨g', n + 1, fun m hm => ?_⟩
    rw [Graph.costTo, hensure m hm, Search.cost, hcost]
    rfl
  have hdistance : IsDistance (HasEdge g.adjacency_list_) g.node_ d (t.cost d) :=
    hsettles.invariant.isDistance (by simp [Search.abs, hqueue]) (fun _ _ _ hu he => ⟨hu, he⟩) d
  refine ⟨t.cost d, hcall, hdistance, fun hne => ?_⟩
  obtain ⟨path, htraced⟩ := hsettles.invariant.traced d hne
  obtain ⟨c, hc, hpath⟩ := htraced.path
  refine ⟨path, c, ⟨g', n + 1 + (path.length + 1), fun m hm => ?_⟩, hc, hpath⟩
  have hfollow := Search.follow_of_traced h.edges h.node_.1 htraced (m := m) (by omega) []
  rw [List.append_nil, hprevious] at hfollow
  rw [Graph.shortestPathTo, hensure m (by omega), Option.bind_some, hfollow]
  rfl

/-- **Shortest paths**: whatever was called before, `Compute` terminates, `cost_to` returns the
least total cost of a path from the source, infinite if there is none, and `shortest_path_to`
returns a path of that cost to every node that is reached. -/
theorem shortest_paths (h : g.Built n) :
    (g.computed_ = false → g.Computes) ∧
      ∀ d < n, ∃ x, g.CostTo d x ∧ IsDistance (HasEdge g.adjacency_list_) g.node_ d x ∧
        (x = ⊤ ↔ ¬ ∃ p c, Path (HasEdge g.adjacency_list_) g.node_ d p c) ∧
        ((∃ p c, Path (HasEdge g.adjacency_list_) g.node_ d p c) →
          ∃ path c, g.ShortestPathTo d path ∧ x = (c : ℚ) ∧
            Path (HasEdge g.adjacency_list_) g.node_ d path c) := by
  refine ⟨h.computes, fun d _ => ?_⟩
  obtain ⟨x, hcost, hdistance, hpath⟩ := h.valid.costTo d
  exact ⟨x, hcost, hdistance, hdistance.eq_top_iff,
    fun hreached => hpath fun hx => hdistance.eq_top_iff.mp hx hreached⟩

/-- Nodes `1` and `2` in a cycle of cost zero, and an edge from `2` to `3`. -/
def cycle : Graph :=
  ((((new 1 4).addEdge 1 2 0).2.addEdge 2 1 0).2.addEdge 2 3 1).2

theorem shortest_paths_cycle : cycle.Computes ∧
    ∃ x, cycle.CostTo 3 x ∧ IsDistance (HasEdge cycle.adjacency_list_) 1 3 x := by
  have hbuilt : cycle.Built 4 :=
    (((Built.new (by decide)).addEdge (by decide) (by decide) le_rfl).addEdge (by decide)
      (by decide) le_rfl).addEdge (by decide) (by decide) zero_le_one
  obtain ⟨hcomputes, hcosts⟩ := shortest_paths hbuilt
  obtain ⟨x, hx, hdistance, -⟩ := hcosts 3 (by decide)
  exact ⟨hcomputes rfl, x, hx, hdistance⟩

example : (cycle.costTo 5 3).map Prod.fst = some 1 := by decide +kernel

example : (cycle.shortestPathTo 5 3).map Prod.fst = some [1, 2, 3] := by decide +kernel

end Graph

end WwivBasic.Graphs
