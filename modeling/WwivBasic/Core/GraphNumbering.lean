import WwivBasic.Core.Graphs
import Mathlib.Data.List.DropRight
import Mathlib.Data.Option.Basic

/-!
# The node that is no node

`core/graphs.cpp` lets the node `0` stand for the predecessor of the source, of a node that is not
reached, and of a node reached from node `0`. The search does not notice: it does the same as on the
graph with its nodes renumbered from `1`. The paths that are made of the predecessors end at node
`0`.

## Main definitions

* `Graph.numHopsTo`: the length of a path
* `Graph.Numbered`: the states of a graph with nodes `0` to `max_size - 1`
* `Graph.Renumbers`: a graph, and the graph with its nodes renumbered from `1`
* `Graph.PathLaws`: a path that is returned leads from the source to its end

## Main results

* `Search.loop_renumbers`: the search does the same with the nodes renumbered
* `Graph.Numbered.exists_shortestPathTo`: the paths that are returned
* `Graph.pathLaws_iff`: on which graphs the paths are right
-/

namespace WwivBasic.Graphs

open ShortestPaths (Path IsDistance Traced)

/-! ## Renumbered nodes -/

/-- An edge between renumbered nodes. -/
def Edge.next (e : Edge) : Edge := ⟨e.node_ + 1, e.cost_⟩

/-- The edges between renumbered nodes. -/
def nextEdges (adjacency_list_ : List (List Edge)) : List (List Edge) :=
  [] :: adjacency_list_.map (List.map Edge.next)

/-- A node of the queue, renumbered. -/
def nextEntry (p : WithTop ℚ ×ₗ ℕ) : WithTop ℚ ×ₗ ℕ := toLex ((ofLex p).1, (ofLex p).2 + 1)

theorem nextEntry_strictMono : StrictMono nextEntry := by
  intro p q hpq
  apply Prod.Lex.toLex_lt_toLex.mpr
  rcases Prod.Lex.lt_iff.mp hpq with hlt | ⟨heq, hlt⟩
  · exact .inl hlt
  · exact .inr ⟨heq, Nat.add_lt_add_right hlt 1⟩

variable {adj : List (List Edge)}

theorem getD_nextEdges (adj : List (List Edge)) (u : ℕ) :
    (nextEdges adj).getD (u + 1) [] = (adj.getD u []).map Edge.next := by
  rw [nextEdges, List.getD_cons_succ]
  exact List.getD_map adj [] (List.map Edge.next)

theorem nextEdges_modify (adj : List (List Edge)) (source dest : ℕ) (cost : ℚ) :
    nextEdges (adj.modify source (· ++ [⟨dest, cost⟩])) =
      (nextEdges adj).modify (source + 1) (· ++ [⟨dest + 1, cost⟩]) := by
  have hedges : (adj.modify source (· ++ [⟨dest, cost⟩])).map (List.map Edge.next) =
      (adj.map (List.map Edge.next)).modify source (· ++ [⟨dest + 1, cost⟩]) := by
    ext1 u
    simp only [List.getElem?_map, List.getElem?_modify]
    cases adj[u]? with
    | none => rfl
    | some es =>
      by_cases hu : source = u
      · simp [hu, Edge.next]
      · simp [hu]
  rw [nextEdges, nextEdges, List.modify_succ_cons, hedges]

theorem HasEdge.next {u v : ℕ} {w : ℚ} (h : HasEdge adj u v w) :
    HasEdge (nextEdges adj) (u + 1) (v + 1) w := by
  obtain ⟨e, he, rfl, rfl⟩ := h
  exact ⟨e.next, by rw [getD_nextEdges]; exact List.mem_map_of_mem he, rfl, rfl⟩

theorem HasEdge.exists_of_next {u v' : ℕ} {w : ℚ} (h : HasEdge (nextEdges adj) (u + 1) v' w) :
    ∃ v, v' = v + 1 ∧ HasEdge adj u v w := by
  obtain ⟨e', he', rfl, rfl⟩ := h
  rw [getD_nextEdges] at he'
  obtain ⟨e, he, rfl⟩ := List.mem_map.mp he'
  exact ⟨e.node_, rfl, e, he, rfl, rfl⟩

/-- The predecessors, with the nodes renumbered. -/
def RenumbersPrevious (previous_ previous' : List ℕ) : Prop :=
  ∃ l, previous' = NO_NODE :: l ∧ previous_ = l.map (· - 1)

theorem RenumbersPrevious.getD {l l' : List ℕ} (h : RenumbersPrevious l l') {v : ℕ} (hv : v ≠ 0) :
    l.getD (v - 1) NO_NODE = l'.getD v NO_NODE - 1 := by
  obtain ⟨l, rfl, rfl⟩ := h
  obtain ⟨v, rfl⟩ := Nat.exists_eq_succ_of_ne_zero hv
  exact List.getD_map l NO_NODE (· - 1)

theorem RenumbersPrevious.set {l l' : List ℕ} (h : RenumbersPrevious l l') (v u : ℕ) :
    RenumbersPrevious (l.set v u) (l'.set (v + 1) (u + 1)) := by
  obtain ⟨l, rfl, rfl⟩ := h
  exact ⟨l.set v (u + 1), rfl, by rw [List.map_set]; rfl⟩

namespace Search

/-- The vectors and the queue, with the nodes renumbered. -/
structure Renumbers (t t' : Search) : Prop where
  cost_ : t'.cost_ = max_cost :: t.cost_
  previous_ : RenumbersPrevious t.previous_ t'.previous_
  queue : t'.queue = t.queue.image nextEntry

variable {t t' : Search}

theorem Renumbers.cost (h : Renumbers t t') (v : ℕ) : t'.cost (v + 1) = t.cost v := by
  rw [Search.cost, h.cost_]
  rfl

theorem Renumbers.erase (h : Renumbers t t') (p : WithTop ℚ ×ₗ ℕ) :
    Renumbers { t with queue := t.queue.erase p }
      { t' with queue := t'.queue.erase (nextEntry p) } where
  cost_ := h.cost_
  previous_ := h.previous_
  queue := by rw [h.queue, Finset.image_erase nextEntry_strictMono.injective]

/-- One edge, and the edge between the renumbered nodes. -/
theorem Renumbers.visit (h : Renumbers t t') (dist : WithTop ℚ) (u : ℕ) (e : Edge) :
    Renumbers (t.visit dist u e) (t'.visit dist (u + 1) e.next) := by
  by_cases hlt : dist + e.cost_ < t.cost e.node_
  · have hlt' : dist + e.next.cost_ < t'.cost e.next.node_ := by
      rw [Edge.next, h.cost]
      exact hlt
    rw [Search.visit, Search.visit, if_pos hlt, if_pos hlt']
    refine ⟨?_, h.previous_.set e.node_ u, ?_⟩
    · rw [h.cost_]
      rfl
    · rw [Finset.image_insert, Finset.image_erase nextEntry_strictMono.injective, ← h.queue,
        Edge.next, h.cost]
      rfl
  · have hlt' : ¬ dist + e.next.cost_ < t'.cost e.next.node_ := by
      rw [Edge.next, h.cost]
      exact hlt
    rw [visit_of_not_lt hlt, visit_of_not_lt hlt']
    exact h

theorem Renumbers.foldl_visit (h : Renumbers t t') (dist : WithTop ℚ) (u : ℕ) (es : List Edge) :
    Renumbers (es.foldl (Search.visit dist u) t)
      ((es.map Edge.next).foldl (Search.visit dist (u + 1)) t') := by
  induction es generalizing t t' with
  | nil => exact h
  | cons e es ih => exact ih (h.visit dist u e)

/-- The loop does the same with the nodes renumbered. -/
theorem loop_renumbers (h : Renumbers t t') (n : ℕ) :
    Option.Rel Renumbers (loop adj n t) (loop (nextEdges adj) n t') := by
  induction n generalizing t t' with
  | zero => exact .none
  | succ n ih =>
    by_cases hq : t.queue.Nonempty
    · have hq' : t'.queue.Nonempty := by
        rw [h.queue]
        exact hq.image nextEntry
      have hmin : t'.queue.min' hq' = nextEntry (t.queue.min' hq) := by
        simp only [h.queue]
        exact Finset.min'_image nextEntry_strictMono.monotone t.queue _
      rw [loop, loop, dif_pos hq, dif_pos hq', hmin]
      have hstep := (h.erase (t.queue.min' hq)).foldl_visit (ofLex (t.queue.min' hq)).1
        (ofLex (t.queue.min' hq)).2 (adj.getD (ofLex (t.queue.min' hq)).2 [])
      rw [← getD_nextEdges] at hstep
      exact ih hstep
    · have hq' : ¬ t'.queue.Nonempty := by
        rw [h.queue, Finset.image_nonempty]
        exact hq
      rw [loop, loop, dif_neg hq, dif_neg hq']
      exact .some h

/-- Nodes that are not reached have no predecessor. -/
def Unreached (t : Search) : Prop :=
  t.previous_.length = t.cost_.length ∧
    ∀ v, t.cost v = max_cost → t.previous_.getD v NO_NODE = NO_NODE

theorem Unreached.visit (h : t.Unreached) (dist : WithTop ℚ) (u : ℕ) (e : Edge) :
    (t.visit dist u e).Unreached := by
  obtain ⟨hlen, hnone⟩ := h
  by_cases hlt : dist + e.cost_ < t.cost e.node_
  · rw [Search.visit, if_pos hlt]
    refine ⟨by simp [hlen], fun v hv => ?_⟩
    by_cases hrange : e.node_ < t.cost_.length
    · rw [cost, getD_set _ hrange] at hv
      rw [getD_set _ (hlen ▸ hrange)]
      split_ifs at hv ⊢ with hve
      · exact absurd hv (ne_top_of_lt hlt)
      · exact hnone v hv
    · have hrange' : t.cost_.length ≤ e.node_ := not_lt.mp hrange
      have hset : t.previous_.set e.node_ u = t.previous_ :=
        List.set_eq_of_length_le (hlen ▸ hrange')
      rw [cost, List.set_eq_of_length_le hrange'] at hv
      dsimp only
      rw [hset]
      exact hnone v hv
  · rw [visit_of_not_lt hlt]
    exact ⟨hlen, hnone⟩

theorem Unreached.foldl_visit (h : t.Unreached) (dist : WithTop ℚ) (u : ℕ) (es : List Edge) :
    (es.foldl (Search.visit dist u) t).Unreached := by
  induction es generalizing t with
  | nil => exact h
  | cons e es ih => exact ih (h.visit dist u e)

theorem Unreached.loop (h : t.Unreached) {n : ℕ} (hloop : Search.loop adj n t = some t') :
    t'.Unreached := by
  induction n generalizing t with
  | zero => cases hloop
  | succ n ih =>
    rw [Search.loop] at hloop
    split_ifs at hloop with hq
    · have hpop : Unreached
          { t with queue := t.queue.erase (toLex (ofLex (t.queue.min' hq))) } := h
      exact ih (hpop.foldl_visit _ _ _) hloop
    · exact Option.some.inj hloop ▸ h

/-- Following the predecessors of a trace among renumbered nodes finds what comes after the last
node `0`. -/
theorem follow_of_traced_next {E : ℕ → ℕ → ℚ → Prop} {x : ℕ → WithTop ℚ} {S : Set ℕ} {s d : ℕ}
    {p previous_ : List ℕ} (hprevious : RenumbersPrevious previous_ t'.previous_)
    (h : Traced E s x t'.abs.previous S d p) {m : ℕ} (hm : p.length < m) (acc : List ℕ) :
    Graph.follow previous_ m (d - 1) acc =
      some ((p.map (· - 1)).rtakeWhile (· ≠ NO_NODE) ++ acc) := by
  induction h generalizing m acc with
  | source hx hpred =>
    obtain ⟨m, rfl⟩ : ∃ k, m = k + 1 + 1 := ⟨m - 2, by simp at hm; omega⟩
    have hnone : t'.previous_.getD s NO_NODE = NO_NODE := by simpa [abs] using hpred
    rw [List.map_singleton, ← List.nil_append [s - 1], Graph.follow]
    by_cases hzero : s - 1 = NO_NODE
    · rw [if_pos hzero, List.rtakeWhile_concat_neg _ _ _ (by simpa using hzero)]
      rfl
    · have hback : previous_.getD (s - 1) NO_NODE = NO_NODE := by
        rw [hprevious.getD (by rintro rfl; exact hzero rfl), hnone]
        rfl
      rw [if_neg hzero, List.rtakeWhile_concat_pos _ _ _ (by simpa using hzero), hback,
        Graph.follow, if_pos rfl]
      rfl
  | @step u v p w hp hu hpred hedge hx ih =>
    rw [List.length_append, List.length_singleton] at hm
    obtain ⟨m, rfl⟩ : ∃ k, m = k + 1 := ⟨m - 1, by omega⟩
    simp only [abs] at hpred
    split_ifs at hpred with hsome
    have hv : v ≠ 0 := by
      rintro rfl
      obtain ⟨l, hl, -⟩ := hprevious
      rw [hl] at hsome
      exact hsome rfl
    have hback : previous_.getD (v - 1) NO_NODE = u - 1 := by
      rw [hprevious.getD hv, Option.some.inj hpred]
    rw [List.map_append, List.map_singleton, Graph.follow]
    by_cases hzero : v - 1 = NO_NODE
    · rw [if_pos hzero, List.rtakeWhile_concat_neg _ _ _ (by simpa using hzero)]
      rfl
    · rw [if_neg hzero, List.rtakeWhile_concat_pos _ _ _ (by simpa using hzero), hback,
        ih (by omega), List.append_assoc]
      rfl

end Search

namespace Graph

variable {n : ℕ} {g g' : Graph}

/-- `num_hops_to`. -/
def numHopsTo (n : ℕ) (g : Graph) (destination : ℕ) : Option (ℕ × Graph) :=
  (g.shortestPathTo n destination).map fun r => (if r.1 = [] then 0 else r.1.length - 1, r.2)

/-! ## Renumbered graphs -/

/-- A graph, and the graph with its nodes renumbered from `1`. -/
structure Renumbers (g g' : Graph) : Prop where
  node_ : g'.node_ = g.node_ + 1
  adjacency_list_ : g'.adjacency_list_ = nextEdges g.adjacency_list_
  computed_ : g'.computed_ = g.computed_
  cost_ : g'.cost_ = max_cost :: g.cost_
  previous_ : RenumbersPrevious g.previous_ g'.previous_

theorem renumbers_new (node n : ℕ) : Renumbers (new node n) (new (node + 1) (n + 1)) where
  node_ := rfl
  adjacency_list_ := by simp [new, nextEdges, List.replicate_succ]
  computed_ := rfl
  cost_ := rfl
  previous_ := ⟨List.replicate n NO_NODE, rfl, by simp [new, NO_NODE]⟩

theorem Renumbers.addEdge (h : Renumbers g g') (source dest : ℕ) (cost : ℚ) :
    Renumbers (g.addEdge source dest cost).2 (g'.addEdge (source + 1) (dest + 1) cost).2 := by
  rw [Graph.addEdge, Graph.addEdge, h.computed_]
  split_ifs with hcomputed
  · exact h
  · refine ⟨h.node_, ?_, rfl, h.cost_, h.previous_⟩
    dsimp only
    rw [h.adjacency_list_, nextEdges_modify]

theorem Renumbers.ensure (h : Renumbers g g') (n : ℕ) :
    Option.Rel Renumbers (g.ensure n) (g'.ensure n) := by
  rw [Graph.ensure, Graph.ensure, h.computed_]
  split_ifs with hcomputed
  · exact .some h
  · have hsearch : Search.Renumbers g.search g'.search := by
      refine ⟨h.cost_, h.previous_, ?_⟩
      rw [search, search, Finset.image_singleton, h.cost_, h.node_]
      rfl
    have hloop : Option.Rel Search.Renumbers (Search.loop g.adjacency_list_ n g.search)
        (Search.loop (nextEdges g.adjacency_list_) n g'.search) := Search.loop_renumbers hsearch n
    rw [compute, compute, h.adjacency_list_]
    generalize Search.loop g.adjacency_list_ n g.search = r at hloop ⊢
    generalize Search.loop (nextEdges g.adjacency_list_) n g'.search = r' at hloop ⊢
    cases hloop with
    | none => exact .none
    | some ht => exact .some ⟨h.node_, rfl, rfl, ht.cost_, ht.previous_⟩

/-- The states of a graph whose node ids are `0` to `n - 1` and whose costs are not negative. -/
inductive Numbered (n : ℕ) : Graph → Prop
  | new {node : ℕ} (h : node < n) : Numbered n (Graph.new node n)
  | addEdge {g : Graph} {source dest : ℕ} {cost : ℚ} (h : Numbered n g) (hsource : source < n)
    (hdest : dest < n) (hcost : 0 ≤ cost) : Numbered n (g.addEdge source dest cost).2
  | costTo {g g' : Graph} {m d : ℕ} {x : WithTop ℚ} (h : Numbered n g)
    (hcall : g.costTo m d = some (x, g')) : Numbered n g'
  | shortestPathTo {g g' : Graph} {m d : ℕ} {path : List ℕ} (h : Numbered n g)
    (hcall : g.shortestPathTo m d = some (path, g')) : Numbered n g'

theorem Built.ensure (h : g.Built n) {m : ℕ} (hensure : g.ensure m = some g') : g'.Built n := by
  have hcall : g.costTo m 0 = some (g'.cost_.getD 0 max_cost, g') := by
    rw [Graph.costTo, hensure]
    rfl
  exact h.costTo hcall

theorem unreached_ensure (h : g.search.Unreached) {m : ℕ} (hensure : g.ensure m = some g') :
    g'.search.Unreached := by
  rw [Graph.ensure] at hensure
  split_ifs at hensure
  · exact Option.some.inj hensure ▸ h
  · obtain ⟨t, hloop, rfl⟩ := Option.map_eq_some_iff.mp hensure
    exact @Search.Unreached.loop g.adjacency_list_ g.search t h m hloop

theorem Numbered.unreached (h : g.Numbered n) : g.search.Unreached := by
  induction h with
  | @new node h =>
    refine ⟨?_, fun v _ => List.getElem?_getD_replicate_default_eq NO_NODE n v⟩
    simp [search, Graph.new]
  | addEdge h hsource hdest hcost ih =>
    rw [Graph.addEdge]
    split_ifs <;> exact ih
  | costTo h hcall ih => exact unreached_ensure ih (ensure_of_costTo hcall)
  | shortestPathTo h hcall ih => exact unreached_ensure ih (ensure_of_shortestPathTo hcall)

theorem Renumbers.ensure_eq_some {g₁ : Graph} (h : Renumbers g g') {m : ℕ}
    (hensure : g.ensure m = some g₁) : ∃ g₁', g'.ensure m = some g₁' ∧ Renumbers g₁ g₁' := by
  have hrel := h.ensure m
  rw [hensure] at hrel
  generalize g'.ensure m = r at hrel ⊢
  cases hrel with
  | some h => exact ⟨_, rfl, h⟩

/-- The graph with its nodes renumbered from `1` is built as well. -/
theorem Numbered.exists_renumbers (h : g.Numbered n) :
    ∃ g', g'.Built (n + 1) ∧ Renumbers g g' := by
  induction h with
  | @new node h => exact ⟨_, .new ⟨Nat.succ_ne_zero node, Nat.succ_lt_succ h⟩, renumbers_new node n⟩
  | @addEdge g source dest cost h hsource hdest hcost ih =>
    obtain ⟨g', hbuilt, hnext⟩ := ih
    exact ⟨_, hbuilt.addEdge ⟨Nat.succ_ne_zero source, Nat.succ_lt_succ hsource⟩
      ⟨Nat.succ_ne_zero dest, Nat.succ_lt_succ hdest⟩ hcost, hnext.addEdge source dest cost⟩
  | @costTo g g₁ m d x h hcall ih =>
    obtain ⟨g', hbuilt, hnext⟩ := ih
    obtain ⟨g₁', hensure', hnext'⟩ := hnext.ensure_eq_some (ensure_of_costTo hcall)
    exact ⟨g₁', hbuilt.ensure hensure', hnext'⟩
  | @shortestPathTo g g₁ m d path h hcall ih =>
    obtain ⟨g', hbuilt, hnext⟩ := ih
    obtain ⟨g₁', hensure', hnext'⟩ := hnext.ensure_eq_some (ensure_of_shortestPathTo hcall)
    exact ⟨g₁', hbuilt.ensure hensure', hnext'⟩

theorem ensure_of_le (h : g.ensure n = some g') {m : ℕ} (hm : n ≤ m) : g.ensure m = some g' := by
  rw [Graph.ensure] at h ⊢
  split_ifs at h ⊢
  · exact h
  · obtain ⟨t, hloop, rfl⟩ := Option.map_eq_some_iff.mp h
    rw [compute, Search.loop_of_le hloop hm]
    rfl

/-! ## The paths -/

/-- A path leads from the source to the node. -/
def Reaches (g : Graph) (d : ℕ) : Prop := ∃ p c, Path (HasEdge g.adjacency_list_) g.node_ d p c

/-- A path of the least total cost. -/
def IsShortest (g : Graph) (d : ℕ) (p : List ℕ) : Prop :=
  ∃ c, Path (HasEdge g.adjacency_list_) g.node_ d p c ∧
    ∀ p' c', Path (HasEdge g.adjacency_list_) g.node_ d p' c' → c ≤ c'

/-- The costs are computed as on the graph with its nodes renumbered. -/
theorem Numbered.exists_solved (h : g.Numbered n) : ∃ G t S, (∀ m ≥ n + 2, g.ensure m = some G) ∧
    Search.Settles (nextEdges g.adjacency_list_) (g.node_ + 1) (n + 1) t S ∧ t.queue = ∅ ∧
    t.cost_ = max_cost :: G.cost_ ∧ RenumbersPrevious G.previous_ t.previous_ := by
  obtain ⟨g', hbuilt, hnext⟩ := h.exists_renumbers
  obtain ⟨G', hvalid, hcomputed, hadj, hnode, hensure', -⟩ := hbuilt.valid.ensure
  obtain ⟨G, hensure, hnextG⟩ : ∃ G, g.ensure (n + 2) = some G ∧ Renumbers G G' := by
    have hrel := hnext.ensure (n + 2)
    rw [hensure' (n + 2) (Nat.lt_succ_self (n + 1))] at hrel
    generalize g.ensure (n + 2) = r at hrel ⊢
    cases hrel with
    | some h => exact ⟨_, rfl, h⟩
  obtain ⟨t, S, hsettles, hqueue, hcost, hprevious⟩ := hvalid.solved hcomputed
  rw [hadj, hnode, hnext.adjacency_list_, hnext.node_] at hsettles
  refine ⟨G, t, S, fun m hm => ensure_of_le hensure hm, hsettles, hqueue, ?_, ?_⟩
  · rw [hcost, hnextG.cost_]
  · rw [hprevious]
    exact hnextG.previous_

/-- The path that is returned is what comes after node `0` in a shortest path, and the node itself
if it is not reached. -/
theorem Numbered.exists_shortestPathTo (h : g.Numbered n) (d : ℕ) : ∃ p,
    g.ShortestPathTo d (p.rtakeWhile (· ≠ NO_NODE)) ∧
      (g.IsShortest d p ∧ (∃ l, p = g.node_ :: l ∧ g.node_ ∉ l) ∨ ¬ g.Reaches d ∧ p = [d]) := by
  obtain ⟨G, t, S, hensure, hsettles, hqueue, hcost, hprevious⟩ := h.exists_solved
  have hreturns : ∀ path k, (∀ m ≥ k, follow G.previous_ m d [] = some path) →
      g.ShortestPathTo d path := by
    refine fun path k hfollow => ⟨G, n + 2 + k, fun m hm => ?_⟩
    rw [Graph.shortestPathTo, hensure m (by omega), Option.bind_some, hfollow m (by omega)]
    rfl
  have hdistance : IsDistance (HasEdge (nextEdges g.adjacency_list_)) (g.node_ + 1) (d + 1)
      (t.cost (d + 1)) :=
    hsettles.invariant.isDistance (by simp [Search.abs, hqueue]) (fun _ _ _ hu he => ⟨hu, he⟩) _
  have hle : ∀ p c, Path (HasEdge g.adjacency_list_) g.node_ d p c → t.cost (d + 1) ≤ c :=
    fun p c hpath => hdistance.le _ c (hpath.map (f := (· + 1)) fun _ _ _ => HasEdge.next)
  by_cases hreached : t.cost (d + 1) = max_cost
  -- The loop of `shortest_path_to` puts the node on the path before it finds no predecessor.
  · refine ⟨[d], hreturns _ 2 fun m hm => ?_, .inr ⟨?_, rfl⟩⟩
    · have hnone : G.previous_.getD d NO_NODE = NO_NODE := by
        apply (unreached_ensure h.unreached (hensure _ le_rfl)).2
        rw [← hreached, Search.cost, Search.cost, hcost]
        rfl
      obtain ⟨m, rfl⟩ : ∃ k, m = k + 1 + 1 := ⟨m - 2, by omega⟩
      by_cases hd : d = NO_NODE
      · rw [hd, follow, if_pos rfl]
        rfl
      · rw [follow, if_neg hd, hnone, follow, if_pos rfl, List.rtakeWhile_eq_self_iff.mpr]
        simpa using hd
    · rintro ⟨p, c, hpath⟩
      have hc := hle p c hpath
      rw [hreached] at hc
      exact WithTop.coe_ne_top (top_le_iff.mp hc)
  · obtain ⟨p', htraced⟩ := hsettles.invariant.traced (d + 1) hreached
    obtain ⟨c, hc, hpath'⟩ := htraced.path
    obtain ⟨l, hl, hsource, -⟩ := htraced.eq_cons
    obtain ⟨d', p, hd, rfl, hpath⟩ := hpath'.exists_of_map (f := (· + 1)) fun _ _ _ =>
      HasEdge.exists_of_next
    obtain rfl := Nat.succ.inj hd
    refine ⟨p, hreturns _ (p.length + 1) fun m hm => ?_, .inl ⟨⟨c, hpath, fun p' c' hp' => ?_⟩, ?_⟩⟩
    · have hfollow := Search.follow_of_traced_next hprevious htraced (m := m)
        (by rw [List.length_map]; omega) []
      have hback : (p.map (· + 1)).map (· - 1) = p := by simp [Function.comp_def]
      rw [List.append_nil, hback] at hfollow
      exact hfollow
    · exact WithTop.coe_le_coe.mp (hc.ge.trans (hle p' c' hp'))
    · obtain ⟨s, l', rfl, hs, rfl⟩ := List.map_eq_cons_iff.mp hl
      obtain rfl := Nat.succ.inj hs
      exact ⟨l', rfl, fun hmem => hsource (List.mem_map_of_mem hmem)⟩

/-! ## The laws -/

/-- `num_hops_to` terminates and returns the number. -/
def NumHopsTo (g : Graph) (destination hops : ℕ) : Prop :=
  ∃ g' k, ∀ m ≥ k, g.numHopsTo m destination = some (hops, g')

/-- A path that is not empty leads from the source to the node along edges. Only the source and the
nodes that are not reached are no hops away, and there is no path to a node that is not reached. -/
structure Laws (g : Graph) (d : ℕ) (path : List ℕ) (hops : ℕ) : Prop where
  head? : path ≠ [] → path.head? = some g.node_
  getLast? : path ≠ [] → path.getLast? = some d
  isChain : path ≠ [] → path.IsChain fun u v => ∃ w, HasEdge g.adjacency_list_ u v w
  hops : hops = 0 → d = g.node_ ∨ ¬ g.Reaches d
  eq_nil : ¬ g.Reaches d → path = []

/-- What is returned obeys the laws. -/
def PathLaws (g : Graph) (d : ℕ) : Prop :=
  ∃ path hops, g.ShortestPathTo d path ∧ g.NumHopsTo d hops ∧ g.Laws d path hops

theorem ShortestPathTo.numHopsTo {d : ℕ} {path : List ℕ} (h : g.ShortestPathTo d path) :
    g.NumHopsTo d (if path = [] then 0 else path.length - 1) := by
  obtain ⟨g', k, h⟩ := h
  refine ⟨g', k, fun m hm => ?_⟩
  rw [Graph.numHopsTo, h m hm]
  rfl

theorem eq_of_returns {α : Type} {f : ℕ → Option (α × Graph)} {x x' : α} {k k' : ℕ}
    (h : ∀ m ≥ k, f m = some (x, g)) (h' : ∀ m ≥ k', f m = some (x', g')) : x = x' := by
  have heq := (h (max k k') (le_max_left k k')).symm.trans (h' (max k k') (le_max_right k k'))
  exact (Prod.mk.inj (Option.some.inj heq)).1

theorem ShortestPathTo.pathLaws_iff_laws {d : ℕ} {path : List ℕ} (h : g.ShortestPathTo d path) :
    g.PathLaws d ↔ g.Laws d path (if path = [] then 0 else path.length - 1) := by
  constructor
  · rintro ⟨path', hops, ⟨g₁, k₁, hpath⟩, ⟨g₂, k₂, hhops⟩, hlaws⟩
    obtain ⟨g₃, k₃, hnum⟩ := h.numHopsTo
    obtain ⟨g₄, k₄, hret⟩ := h
    obtain rfl := eq_of_returns hret hpath
    obtain rfl := eq_of_returns hnum hhops
    exact hlaws
  · exact fun hlaws => ⟨path, _, h, h.numHopsTo, hlaws⟩

theorem IsShortest.reaches {d : ℕ} {p : List ℕ} (h : g.IsShortest d p) : g.Reaches d := by
  obtain ⟨c, hpath, -⟩ := h
  exact ⟨p, c, hpath⟩

theorem IsShortest.source_mem {d : ℕ} {p : List ℕ} (h : g.IsShortest d p) : g.node_ ∈ p := by
  obtain ⟨c, hpath, -⟩ := h
  exact List.mem_of_head? hpath.spec.1

theorem IsShortest.reaches_of_mem {d v : ℕ} {p : List ℕ} (h : g.IsShortest d p) (hv : v ∈ p) :
    g.Reaches v := by
  obtain ⟨c, hpath, -⟩ := h
  exact hpath.exists_of_mem hv

theorem Numbered.node_lt (h : g.Numbered n) : g.node_ < n := by
  obtain ⟨g', hbuilt, hnext⟩ := h.exists_renumbers
  have hlt := hbuilt.valid.node_.2
  rw [hnext.node_] at hlt
  exact Nat.lt_of_succ_lt_succ hlt

/-- The laws of node `0`, for which no path is returned. -/
theorem Numbered.pathLaws_zero_iff (h : g.Numbered n) :
    g.PathLaws NO_NODE ↔ g.node_ = NO_NODE ∨ ¬ g.Reaches NO_NODE := by
  obtain ⟨p, hreturns, hp⟩ := h.exists_shortestPathTo NO_NODE
  have hlast : p.getLast? = some NO_NODE := by
    rcases hp with ⟨⟨c, hpath, -⟩, -⟩ | ⟨-, rfl⟩
    · exact hpath.spec.2.1
    · rfl
  have hnil : p.rtakeWhile (· ≠ NO_NODE) = [] := by
    refine List.rtakeWhile_eq_nil_iff.mpr fun hne => ?_
    rw [List.getLast?_eq_getLast_of_ne_nil hne] at hlast
    simp [Option.some.inj hlast]
  rw [hnil] at hreturns
  rw [hreturns.pathLaws_iff_laws]
  constructor
  · exact fun hlaws => (hlaws.hops rfl).imp Eq.symm id
  · intro hzero
    exact ⟨absurd rfl, absurd rfl, absurd rfl, fun _ => hzero.imp Eq.symm id, fun _ => rfl⟩

/-- A path that is returned starts after node `0`, so it is right if node `0` is not on it. -/
theorem laws_rtakeWhile_iff {d : ℕ} {p l : List ℕ} {c : ℚ} (hd : d ≠ NO_NODE)
    (hpath : Path (HasEdge g.adjacency_list_) g.node_ d p c) (hp : p = g.node_ :: l)
    (hl : g.node_ ∉ l) :
    g.Laws d (p.rtakeWhile (· ≠ NO_NODE)) (if p.rtakeWhile (· ≠ NO_NODE) = [] then 0
      else (p.rtakeWhile (· ≠ NO_NODE)).length - 1) ↔ NO_NODE ∉ p := by
  obtain ⟨hhead, hlast, hchain⟩ := hpath.spec
  constructor
  · intro hlaws hzero
    have hne : p.rtakeWhile (· ≠ NO_NODE) ≠ [] := by
      intro hnil
      have hp' : p ≠ [] := List.ne_nil_of_mem hzero
      have hend := List.rtakeWhile_eq_nil_iff.mp hnil hp'
      rw [List.getLast?_eq_getLast_of_ne_nil hp'] at hlast
      rw [Option.some.inj hlast] at hend
      exact hend (by simpa using hd)
    have hsource : g.node_ ∈ p.rtakeWhile (· ≠ NO_NODE) := List.mem_of_head? (hlaws.head? hne)
    -- The source is met once, so nothing comes before it, and node `0` is not on the path.
    have hsplit : p.rdropWhile (· ≠ NO_NODE) ++ p.rtakeWhile (· ≠ NO_NODE) = p :=
      List.rdropWhile_append_rtakeWhile
    cases hdrop : p.rdropWhile (· ≠ NO_NODE) with
    | nil =>
      rw [hdrop, List.nil_append] at hsplit
      rw [← hsplit] at hzero
      simpa using List.mem_rtakeWhile_imp hzero
    | cons a r =>
      rw [hdrop, hp] at hsplit
      obtain ⟨-, hl'⟩ := List.cons.inj hsplit
      apply hl
      rw [← hl', ← hp]
      exact List.mem_append_right r hsource
  · intro hzero
    have hself : p.rtakeWhile (· ≠ NO_NODE) = p :=
      List.rtakeWhile_eq_self_iff.mpr fun x hx => by
        simpa using fun hx' : x = NO_NODE => hzero (hx' ▸ hx)
    rw [hself]
    refine ⟨fun _ => hhead, fun _ => hlast, fun _ => hchain, fun hhops => .inl ?_, fun hnone => ?_⟩
    · rw [hp, if_neg (List.cons_ne_nil _ l), List.length_cons, Nat.add_sub_cancel] at hhops
      rw [hp, List.eq_nil_of_length_eq_zero hhops] at hlast
      exact (Option.some.inj hlast).symm
    · exact absurd ⟨p, c, hpath⟩ hnone

theorem Numbered.pathLaws_iff_of_ne (h : g.Numbered n) {d : ℕ} (hd : d ≠ NO_NODE) :
    ¬ g.Reaches d ∧ ¬ g.PathLaws d ∨ ∃ p, g.IsShortest d p ∧ (g.PathLaws d ↔ NO_NODE ∉ p) := by
  obtain ⟨p, hreturns, hp⟩ := h.exists_shortestPathTo d
  rcases hp with ⟨hshort, l, hl, hsource⟩ | ⟨hnone, rfl⟩
  · obtain ⟨c, hpath, hleast⟩ := hshort
    refine .inr ⟨p, ⟨c, hpath, hleast⟩, ?_⟩
    rw [hreturns.pathLaws_iff_laws]
    exact laws_rtakeWhile_iff hd hpath hl hsource
  · refine .inl ⟨hnone, fun hlaws => ?_⟩
    have hself : [d].rtakeWhile (· ≠ NO_NODE) = [d] :=
      List.rtakeWhile_eq_self_iff.mpr (by simpa using hd)
    rw [hself] at hreturns
    have hempty := (hreturns.pathLaws_iff_laws.mp hlaws).eq_nil hnone
    cases hempty

/-- **Paths from the source**: whatever was called before, the paths and the numbers of hops that
are returned are right for all nodes just if there is node `0` only, or the source is not node `0`
and all nodes but node `0` are reached. For node `0` they are right if it is the source or is not
reached. For another node they are right if it is reached and no shortest path to it runs through
node `0`, and wrong if all do. -/
theorem pathLaws_iff (h : g.Numbered n) :
    ((∀ d < n, g.PathLaws d) ↔ n = 1 ∨ g.node_ ≠ NO_NODE ∧ ∀ d < n, g.Reaches d ↔ d ≠ NO_NODE) ∧
      (g.PathLaws NO_NODE ↔ g.node_ = NO_NODE ∨ ¬ g.Reaches NO_NODE) ∧
      ∀ d < n, d ≠ NO_NODE →
        ((∀ p, g.IsShortest d p → NO_NODE ∉ p) → (g.PathLaws d ↔ g.Reaches d)) ∧
        ((∀ p, g.IsShortest d p → NO_NODE ∈ p) → ¬ g.PathLaws d) := by
  have hnode : g.node_ < n := h.node_lt
  refine ⟨⟨fun hlaws => ?_, ?_⟩, h.pathLaws_zero_iff,
    fun d _ hd => ⟨fun hnot => ?_, fun hall => ?_⟩⟩
  · have hother : ∀ d < n, d ≠ NO_NODE → ∃ p, g.IsShortest d p ∧ NO_NODE ∉ p := by
      intro d hd hne
      rcases h.pathLaws_iff_of_ne hne with ⟨-, hwrong⟩ | ⟨p, hshort, hiff⟩
      · exact absurd (hlaws d hd) hwrong
      · exact ⟨p, hshort, hiff.mp (hlaws d hd)⟩
    by_cases hzero : g.node_ = NO_NODE
    · left
      by_contra hn
      obtain ⟨p, hshort, hnot⟩ := hother 1 (by omega) Nat.one_ne_zero
      exact hnot (hzero ▸ hshort.source_mem)
    · refine .inr ⟨hzero, fun d hd => ⟨?_, fun hne => ?_⟩⟩
      · rintro hreached rfl
        exact (h.pathLaws_zero_iff.mp (hlaws NO_NODE hd)).elim hzero (absurd hreached)
      · obtain ⟨p, hshort, -⟩ := hother d hd hne
        exact hshort.reaches
  · rintro (rfl | ⟨hzero, hreached⟩) d hd
    · obtain rfl : d = NO_NODE := Nat.lt_one_iff.mp hd
      exact h.pathLaws_zero_iff.mpr (.inl (Nat.lt_one_iff.mp hnode))
    · by_cases hne : d = NO_NODE
      · subst hne
        exact h.pathLaws_zero_iff.mpr (.inr fun hr => (hreached _ hd).mp hr rfl)
      · rcases h.pathLaws_iff_of_ne hne with ⟨hnone, -⟩ | ⟨p, hshort, hiff⟩
        · exact absurd ((hreached d hd).mpr hne) hnone
        · refine hiff.mpr fun hmem => ?_
          exact (hreached NO_NODE (Nat.zero_lt_of_lt hd)).mp (hshort.reaches_of_mem hmem) rfl
  · rcases h.pathLaws_iff_of_ne hd with ⟨hnone, hwrong⟩ | ⟨p, hshort, hiff⟩
    · exact iff_of_false hwrong hnone
    · exact iff_of_true (hiff.mpr (hnot p hshort)) hshort.reaches
  · rcases h.pathLaws_iff_of_ne hd with ⟨-, hwrong⟩ | ⟨p, hshort, hiff⟩
    · exact hwrong
    · exact fun hlaws => hiff.mp hlaws (hall p hshort)

/-- Nodes `0` to `2`, and an edge from `1` to `2`. -/
def pair : Graph := ((new 1 3).addEdge 1 2 5).2

theorem hasEdge_pair {u v : ℕ} {w : ℚ} (h : HasEdge pair.adjacency_list_ u v w) : v = 2 := by
  obtain ⟨e, he, rfl, -⟩ := h
  match u, he with
  | 0, he => cases he
  | 1, he => exact congrArg Edge.node_ (List.mem_singleton.mp he)
  | 2, he => cases he
  | u + 3, he => cases he

theorem reaches_pair_iff {d : ℕ} (hd : d < 3) : pair.Reaches d ↔ d ≠ NO_NODE := by
  constructor
  · rintro ⟨p, c, hpath⟩ rfl
    cases hpath with
    | snoc _ hedge => cases hasEdge_pair hedge
  · intro hne
    match d, hd with
    | 0, _ => exact absurd rfl hne
    | 1, _ => exact ⟨[1], 0, .nil⟩
    | 2, _ => exact ⟨[1, 2], 0 + 5, .snoc .nil ⟨⟨2, 5⟩, List.mem_singleton_self _, rfl, rfl⟩⟩

theorem pathLaws_iff_pair : pair.PathLaws 0 ∧ pair.PathLaws 1 ∧ pair.PathLaws 2 := by
  have hnumbered : pair.Numbered 3 :=
    (Numbered.new (by decide)).addEdge (by decide) (by decide) (by decide)
  have hlaws : ∀ d < 3, pair.PathLaws d := by
    refine (pathLaws_iff hnumbered).1.mpr (.inr ⟨Nat.one_ne_zero, fun d hd => ?_⟩)
    exact reaches_pair_iff hd
  exact ⟨hlaws 0 (by omega), hlaws 1 (by omega), hlaws 2 (by omega)⟩

example : (pair.shortestPathTo 5 2).map Prod.fst = some [1, 2] := by decide +kernel

/-- Node `2` is not reached, and is the path to itself. -/
theorem not_pathLaws_apart :
    ((new 1 3).shortestPathTo 5 2).map Prod.fst = some [2] ∧ ¬ (new 1 3).PathLaws 2 := by
  refine ⟨by decide +kernel, fun hlaws => ?_⟩
  have hnumbered : (new 1 3).Numbered 3 := .new (by decide)
  rcases hnumbered.pathLaws_iff_of_ne (d := 2) (by decide) with ⟨-, hwrong⟩ | ⟨p, ⟨c, hpath, -⟩, -⟩
  · exact hwrong hlaws
  · cases hpath with
    | @snoc u _ _ _ _ _ hedge =>
      obtain ⟨e, he, -, -⟩ := hedge
      match u, he with
      | 0, he => cases he
      | 1, he => cases he
      | 2, he => cases he
      | u + 3, he => cases he

end Graph

end WwivBasic.Graphs
