import Mathlib.Data.List.Forall2
import Mathlib.Tactic.SplitIfs

/-!
# Ordered maps with a user-supplied comparison

A map ordered by a three-way comparison `cmp`, as a strictly sorted association list. Keys
that compare equal are one key: the first spelling inserted is kept, and only its value is
replaced. The comparison is required to be transitive, not to be lawful on equality, so the
keys may be strings compared up to case.

## Main definitions

* `OrderedMap κ cmp α`: the strictly sorted association lists
* `OrderedMap.find?`, `OrderedMap.contains`: lookup of a key up to `cmp`
* `OrderedMap.insertWith`: the value of a key recomputed from its old value, if any
* `OrderedMap.insertOrAssign`, `OrderedMap.emplace`, `OrderedMap.modify`: its instances
* `OrderedMap.erase`: the map without a key
* `OrderedMap.Rel K A`: two maps with the same shape, keys related by `K`, values by `A`

## Main results

* `find?_insertWith`, `find?_modify`: lookup after an update
* `insertWith_comm`, `modify_modify`: updates at different keys, and at one key
* `Rel.find?`, `Rel.insertWith`: related maps have related lookups and updates
-/

universe u v w

/-- A strictly sorted association list: one entry for each class of keys equal up to `cmp`. -/
structure OrderedMap (κ : Type u) (cmp : κ → κ → Ordering) (α : Type v) where
  entries : List (κ × α)
  sorted : entries.Pairwise fun a b => cmp a.1 b.1 = .lt

namespace OrderedMap

variable {κ : Type u} {cmp : κ → κ → Ordering} {α : Type v} {β : Type w}

instance : EmptyCollection (OrderedMap κ cmp α) := ⟨⟨[], .nil⟩⟩

instance : Inhabited (OrderedMap κ cmp α) := ⟨∅⟩

@[ext] theorem ext {m m' : OrderedMap κ cmp α} (h : m.entries = m'.entries) : m = m' := by
  cases m
  cases m'
  simpa using h

/-! ## Lookup and update on association lists -/

/-- The value of the first key equal to `k`. -/
def lookup (cmp : κ → κ → Ordering) (k : κ) : List (κ × α) → Option α
  | [] => none
  | (k', a) :: l => if cmp k k' = .eq then some a else lookup cmp k l

/-- Sorted insertion: the value at `k` becomes `f` of its old value. -/
def insertList (cmp : κ → κ → Ordering) (k : κ) (f : Option α → α) :
    List (κ × α) → List (κ × α)
  | [] => [(k, f none)]
  | (k', a) :: l =>
    match cmp k k' with
    | .lt => (k, f none) :: (k', a) :: l
    | .eq => (k', f (some a)) :: l
    | .gt => (k', a) :: insertList cmp k f l

theorem mem_insertList {k : κ} {f : Option α → α} {e : κ × α} {l : List (κ × α)}
    (h : e ∈ insertList cmp k f l) : e.1 = k ∨ ∃ e' ∈ l, e'.1 = e.1 := by
  induction l with
  | nil =>
    rw [insertList, List.mem_singleton] at h
    exact Or.inl (congrArg Prod.fst h)
  | cons e' l ih =>
    rcases e' with ⟨k', a⟩
    -- The new key goes before the first one, is the first one, or goes into the rest.
    cases hc : cmp k k' <;> simp only [insertList, hc, List.mem_cons] at h
    · rcases h with rfl | rfl | h
      · exact Or.inl rfl
      · exact Or.inr ⟨_, List.mem_cons_self, rfl⟩
      · exact Or.inr ⟨_, List.mem_cons_of_mem _ h, rfl⟩
    · rcases h with rfl | h
      · exact Or.inr ⟨_, List.mem_cons_self, rfl⟩
      · exact Or.inr ⟨_, List.mem_cons_of_mem _ h, rfl⟩
    · rcases h with rfl | h
      · exact Or.inr ⟨_, List.mem_cons_self, rfl⟩
      · rcases ih h with h | ⟨e'', he, hk⟩
        · exact Or.inl h
        · exact Or.inr ⟨e'', List.mem_cons_of_mem _ he, hk⟩

section Trans

variable [Std.TransCmp cmp]

theorem sorted_insertList (k : κ) (f : Option α → α) {l : List (κ × α)}
    (h : l.Pairwise fun a b => cmp a.1 b.1 = .lt) :
    (insertList cmp k f l).Pairwise fun a b => cmp a.1 b.1 = .lt := by
  induction l with
  | nil => exact List.pairwise_singleton _ _
  | cons e l ih =>
    rcases e with ⟨k', a⟩
    obtain ⟨hk, hl⟩ := List.pairwise_cons.mp h
    cases hc : cmp k k' <;> simp only [insertList, hc]
    -- The new key is below the first one, which is below the rest.
    · refine List.pairwise_cons.mpr ⟨fun e he => ?_, h⟩
      rcases List.mem_cons.mp he with rfl | he
      · exact hc
      · exact Std.TransCmp.lt_trans hc (hk e he)
    -- Only the value at the first key changes.
    · exact List.pairwise_cons.mpr ⟨hk, hl⟩
    -- Above the first key are the keys of the rest, and now the new one.
    · refine List.pairwise_cons.mpr ⟨fun e he => ?_, ih hl⟩
      rcases mem_insertList he with hke | ⟨e', he', hke⟩
      · rw [hke]
        exact Std.OrientedCmp.lt_of_gt hc
      · rw [← hke]
        exact hk e' he'

theorem lookup_congr {k k' : κ} (h : cmp k k' = .eq) (l : List (κ × α)) :
    lookup cmp k l = lookup cmp k' l := by
  induction l with
  | nil => rfl
  | cons e l ih => simp [lookup, Std.TransCmp.congr_left h, ih]

omit [Std.TransCmp cmp] in
theorem lookup_eq_none_of_lt {k : κ} {l : List (κ × α)} (h : ∀ e ∈ l, cmp k e.1 = .lt) :
    lookup cmp k l = none := by
  induction l with
  | nil => rfl
  | cons e l ih =>
    have hk : ¬ cmp k e.1 = .eq := by simp [h e List.mem_cons_self]
    rw [lookup, if_neg hk]
    exact ih fun e' he' => h e' (List.mem_cons_of_mem _ he')

/-- Lookup after an insertion. Sortedness is used at the `.lt` case only: no later entry
holds the key. -/
theorem lookup_insertList (k k' : κ) (f : Option α → α) {l : List (κ × α)}
    (h : l.Pairwise fun a b => cmp a.1 b.1 = .lt) :
    lookup cmp k' (insertList cmp k f l) =
      if cmp k' k = .eq then some (f (lookup cmp k l)) else lookup cmp k' l := by
  induction l with
  | nil => simp [insertList, lookup]
  | cons e l ih =>
    rcases e with ⟨k₀, a⟩
    obtain ⟨hk, hl⟩ := List.pairwise_cons.mp h
    cases hc : cmp k k₀
    -- The key is below all others, so it was not there.
    · have hnone : lookup cmp k ((k₀, a) :: l) = none := by
        apply lookup_eq_none_of_lt
        intro e he
        rcases List.mem_cons.mp he with rfl | he
        · exact hc
        · exact Std.TransCmp.lt_trans hc (hk e he)
      simp only [insertList, hc, hnone]
      rw [lookup]
    -- The first key is the key, so that it compares with `k'` alike.
    · have hcongr : cmp k' k = cmp k' k₀ := Std.TransCmp.congr_right hc
      by_cases hk' : cmp k' k₀ = .eq <;> simp [insertList, hc, lookup, hcongr, hk']
    -- The key goes into the rest, so a first key equal to `k'` is not the key.
    · simp only [insertList, hc, lookup, ih hl]
      by_cases hk' : cmp k' k₀ = .eq
      · have hne : ¬ cmp k' k = .eq := fun heq => by
          have hcongr' : cmp k' k₀ = cmp k k₀ := Std.TransCmp.congr_left heq
          rw [hk', hc] at hcongr'
          cases hcongr'
        rw [if_pos hk', if_neg hne, if_pos hk']
      · simp [hk']

/-- Each key of a sorted list is looked up where it stands. -/
theorem lookup_of_mem {k : κ} {a : α} {l : List (κ × α)}
    (h : l.Pairwise fun a b => cmp a.1 b.1 = .lt) (hmem : (k, a) ∈ l) :
    lookup cmp k l = some a := by
  induction l with
  | nil => cases hmem
  | cons e l ih =>
    obtain ⟨hk, hl⟩ := List.pairwise_cons.mp h
    rcases List.mem_cons.mp hmem with rfl | hmem
    · rw [lookup, if_pos Std.ReflCmp.compare_self]
    · have hne : ¬ cmp k e.1 = .eq := by
        rw [Std.OrientedCmp.gt_of_lt (hk _ hmem)]
        exact nofun
      rw [lookup, if_neg hne, ih hl hmem]

/-- Insertions at different keys commute. -/
theorem insertList_comm {k k' : κ} (hne : cmp k k' ≠ .eq) (f g : Option α → α)
    (l : List (κ × α)) :
    insertList cmp k f (insertList cmp k' g l) = insertList cmp k' g (insertList cmp k f l) := by
  have hswap : cmp k' k = (cmp k k').swap := Std.OrientedCmp.eq_swap
  induction l with
  | nil =>
    cases hc : cmp k k' <;> rw [hc] at hswap
    · simp [insertList, hc, hswap]
    · exact absurd hc hne
    · simp [insertList, hc, hswap]
  | cons e l ih =>
    rcases e with ⟨k₀, a⟩
    cases hk : cmp k k₀ <;> cases hk' : cmp k' k₀
    -- Both keys go before the first one, in the order of the two.
    case lt.lt =>
      cases hc : cmp k k' <;> rw [hc] at hswap
      · simp [insertList, hk, hk', hc, hswap]
      · exact absurd hc hne
      · simp [insertList, hk, hk', hc, hswap]
    -- Where the first key lies between the two, it tells how they compare.
    case lt.eq =>
      have hc : cmp k k' = .lt := (Std.TransCmp.congr_right hk').trans hk
      simp [insertList, hk, hk', hswap, hc]
    case lt.gt =>
      have hc : cmp k k' = .lt := Std.TransCmp.lt_trans hk (Std.OrientedCmp.lt_of_gt hk')
      simp [insertList, hk, hk', hswap, hc]
    case eq.lt =>
      have hc : cmp k' k = .lt := (Std.TransCmp.congr_right hk).trans hk'
      simp [insertList, hk, hk', Std.OrientedCmp.gt_of_lt hc]
    -- Keys that equal the first one are equal.
    case eq.eq => exact absurd ((Std.TransCmp.congr_right hk').trans hk) hne
    case eq.gt => simp [insertList, hk, hk']
    case gt.lt =>
      have hc : cmp k' k = .lt := Std.TransCmp.lt_trans hk' (Std.OrientedCmp.lt_of_gt hk)
      simp [insertList, hk, hk', Std.OrientedCmp.gt_of_lt hc]
    case gt.eq => simp [insertList, hk, hk']
    case gt.gt => simp [insertList, hk, hk', ih]

/-- Two insertions at one key. -/
theorem insertList_insertList (k : κ) (f g : Option α → α) (l : List (κ × α)) :
    insertList cmp k f (insertList cmp k g l) =
      insertList cmp k (fun old => f (some (g old))) l := by
  have hself : cmp k k = .eq := Std.ReflCmp.compare_self
  induction l with
  | nil => simp [insertList, hself]
  | cons e l ih => cases hc : cmp k e.1 <;> simp [insertList, hc, hself, ih]

/-- Lookup without the entries of a key. -/
theorem lookup_filter_ne (k k' : κ) (l : List (κ × α)) :
    lookup cmp k' (l.filter fun e => cmp k e.1 ≠ .eq) =
      if cmp k' k = .eq then none else lookup cmp k' l := by
  induction l with
  | nil => simp [lookup]
  | cons e l ih =>
    by_cases he : cmp k e.1 = .eq
    · rw [List.filter_cons_of_neg (by simpa using he), ih, lookup]
      by_cases hk : cmp k' k = .eq
      · rw [if_pos hk, if_pos hk]
      · have hne : ¬cmp k' e.1 = .eq := by
          rwa [← Std.TransCmp.congr_right he]
        rw [if_neg hk, if_neg hk, if_neg hne]
    · rw [List.filter_cons_of_pos (by simpa using he), lookup, ih, lookup]
      by_cases hk : cmp k' k = .eq
      · have hne : ¬cmp k' e.1 = .eq := by
          rwa [Std.TransCmp.congr_left hk]
        rw [if_pos hk, if_pos hk, if_neg hne]
      · rw [if_neg hk, if_neg hk]

end Trans

/-! ## The operations of the map -/

/-- The value at `k`. -/
def find? (m : OrderedMap κ cmp α) (k : κ) : Option α := lookup cmp k m.entries

/-- Whether some key equals `k`. -/
def contains (m : OrderedMap κ cmp α) (k : κ) : Bool := (m.find? k).isSome

/-- No value at `k`. -/
def erase (m : OrderedMap κ cmp α) (k : κ) : OrderedMap κ cmp α :=
  ⟨m.entries.filter fun e => cmp k e.1 ≠ .eq, m.sorted.filter _⟩

/-- A key that is looked up is one of the entries, where equal keys are one key. -/
theorem mem_of_lookup [Std.LawfulEqCmp cmp] {k : κ} {a : α} {l : List (κ × α)}
    (h : lookup cmp k l = some a) : (k, a) ∈ l := by
  induction l with
  | nil => cases h
  | cons e l ih =>
    rw [lookup] at h
    split_ifs at h with hk
    · rw [Std.LawfulEqCmp.compare_eq_iff_eq.mp hk, ← Option.some.inj h]
      exact List.mem_cons_self
    · exact List.mem_cons_of_mem e (ih h)

variable [Std.TransCmp cmp]

theorem mem_entries_iff [Std.LawfulEqCmp cmp] (m : OrderedMap κ cmp α) {k : κ} {a : α} :
    (k, a) ∈ m.entries ↔ m.find? k = some a :=
  ⟨lookup_of_mem m.sorted, mem_of_lookup⟩

/-- A map is what its lookups are. -/
theorem ext_find? [Std.LawfulEqCmp cmp] {m m' : OrderedMap κ cmp α}
    (h : ∀ k, m.find? k = m'.find? k) : m = m' := by
  have hnodup : ∀ m : OrderedMap κ cmp α, m.entries.Nodup := by
    intro m
    refine m.sorted.imp fun {a b} hlt heq => ?_
    have hself : cmp a.1 a.1 = .eq := Std.ReflCmp.compare_self
    rw [← heq, hself] at hlt
    cases hlt
  have hperm : m.entries.Perm m'.entries := by
    refine (List.perm_ext_iff_of_nodup (hnodup m) (hnodup m')).mpr fun ⟨k, a⟩ => ?_
    rw [mem_entries_iff, mem_entries_iff, h k]
  refine OrderedMap.ext (hperm.eq_of_pairwise (fun a b _ _ hab hba => ?_) m.sorted m'.sorted)
  rw [Std.OrientedCmp.gt_of_lt hab] at hba
  cases hba

theorem find?_congr (m : OrderedMap κ cmp α) {k k' : κ} (h : cmp k k' = .eq) :
    m.find? k = m.find? k' := lookup_congr h _

theorem contains_congr (m : OrderedMap κ cmp α) {k k' : κ} (h : cmp k k' = .eq) :
    m.contains k = m.contains k' := by rw [contains, contains, m.find?_congr h]

/-- The value at `k` becomes `f` of the old value; a key already present is kept. -/
def insertWith (m : OrderedMap κ cmp α) (k : κ) (f : Option α → α) : OrderedMap κ cmp α :=
  ⟨insertList cmp k f m.entries, sorted_insertList k f m.sorted⟩

/-- The value at `k` becomes `a`. -/
def insertOrAssign (m : OrderedMap κ cmp α) (k : κ) (a : α) : OrderedMap κ cmp α :=
  m.insertWith k fun _ => a

/-- The value at `k` becomes `a`, unless there is one already. -/
def emplace (m : OrderedMap κ cmp α) (k : κ) (a : α) : OrderedMap κ cmp α :=
  m.insertWith k fun old => old.getD a

/-- The value at `k`, when there is one, becomes `f` of it. -/
def modify (m : OrderedMap κ cmp α) (k : κ) (f : α → α) : OrderedMap κ cmp α :=
  match m.find? k with
  | none => m
  | some a => m.insertOrAssign k (f a)

theorem find?_erase (m : OrderedMap κ cmp α) (k k' : κ) :
    (m.erase k).find? k' = if cmp k' k = .eq then none else m.find? k' :=
  lookup_filter_ne k k' m.entries

theorem find?_insertWith (m : OrderedMap κ cmp α) (k k' : κ) (f : Option α → α) :
    (m.insertWith k f).find? k' =
      if cmp k' k = .eq then some (f (m.find? k)) else m.find? k' :=
  lookup_insertList k k' f m.sorted

theorem find?_insertOrAssign (m : OrderedMap κ cmp α) (k k' : κ) (a : α) :
    (m.insertOrAssign k a).find? k' = if cmp k' k = .eq then some a else m.find? k' :=
  m.find?_insertWith k k' _

theorem find?_emplace (m : OrderedMap κ cmp α) (k k' : κ) (a : α) :
    (m.emplace k a).find? k' =
      if cmp k' k = .eq then some ((m.find? k).getD a) else m.find? k' :=
  m.find?_insertWith k k' _

theorem find?_modify (m : OrderedMap κ cmp α) (k k' : κ) (f : α → α) :
    (m.modify k f).find? k' = if cmp k' k = .eq then (m.find? k').map f else m.find? k' := by
  unfold modify
  cases hk : m.find? k with
  | none =>
    by_cases h : cmp k' k = .eq
    · simp [m.find?_congr h, hk]
    · simp [h]
  | some a =>
    by_cases h : cmp k' k = .eq
    · simp [find?_insertOrAssign, h, m.find?_congr h, hk]
    · simp [find?_insertOrAssign, h]

@[simp] theorem contains_insertWith (m : OrderedMap κ cmp α) (k k' : κ) (f : Option α → α) :
    (m.insertWith k f).contains k' = (decide (cmp k' k = .eq) || m.contains k') := by
  rw [contains, find?_insertWith]
  by_cases h : cmp k' k = .eq <;> simp [h, contains]

@[simp] theorem contains_insertOrAssign (m : OrderedMap κ cmp α) (k k' : κ) (a : α) :
    (m.insertOrAssign k a).contains k' = (decide (cmp k' k = .eq) || m.contains k') :=
  m.contains_insertWith k k' _

@[simp] theorem contains_emplace (m : OrderedMap κ cmp α) (k k' : κ) (a : α) :
    (m.emplace k a).contains k' = (decide (cmp k' k = .eq) || m.contains k') :=
  m.contains_insertWith k k' _

@[simp] theorem contains_modify (m : OrderedMap κ cmp α) (k k' : κ) (f : α → α) :
    (m.modify k f).contains k' = m.contains k' := by
  rw [contains, find?_modify]
  by_cases h : cmp k' k = .eq <;> simp [h, contains]

/-- Updates at different keys commute. -/
theorem insertWith_comm (m : OrderedMap κ cmp α) {k k' : κ} (h : cmp k k' ≠ .eq)
    (f g : Option α → α) :
    (m.insertWith k' g).insertWith k f = (m.insertWith k f).insertWith k' g :=
  OrderedMap.ext (insertList_comm h f g _)

theorem modify_modify (m : OrderedMap κ cmp α) (k : κ) (f g : α → α) :
    (m.modify k f).modify k g = m.modify k fun a => g (f a) := by
  cases hk : m.find? k with
  | none => simp only [modify, hk]
  | some a =>
    have hself : cmp k k = .eq := Std.ReflCmp.compare_self
    simp only [modify, hk, find?_insertOrAssign, hself, if_true]
    exact OrderedMap.ext (insertList_insertList k _ _ _)

/-! ## Maps with related keys and values -/

section Rel

/-- The same shape, with keys related by `K` and values by `A`. -/
def Rel (K : κ → κ → Prop) (A : α → β → Prop) (m : OrderedMap κ cmp α)
    (m' : OrderedMap κ cmp β) : Prop :=
  List.Forall₂ (fun e e' => K e.1 e'.1 ∧ A e.2 e'.2) m.entries m'.entries

variable {K : κ → κ → Prop} {A : α → β → Prop} {m : OrderedMap κ cmp α}
  {m' : OrderedMap κ cmp β}

omit [Std.TransCmp cmp] in
theorem Rel.empty : Rel K A (∅ : OrderedMap κ cmp α) (∅ : OrderedMap κ cmp β) := .nil

/-- Related keys compare alike. -/
theorem cmp_congr {k k' k₀ k₀' : κ} (h : cmp k k' = .eq) (h₀ : cmp k₀ k₀' = .eq) :
    cmp k k₀ = cmp k' k₀' :=
  (Std.TransCmp.congr_left h).trans (Std.TransCmp.congr_right h₀)

theorem forall₂_lookup (hK : ∀ k k', K k k' → cmp k k' = .eq) {k k' : κ}
    (hk : cmp k k' = .eq) {l : List (κ × α)} {l' : List (κ × β)}
    (h : List.Forall₂ (fun e e' => K e.1 e'.1 ∧ A e.2 e'.2) l l') :
    Option.Rel A (lookup cmp k l) (lookup cmp k' l') := by
  induction h with
  | nil => exact .none
  | cons he _ ih =>
    -- The first keys compare alike, so that both searches end here or both go on.
    rw [lookup, lookup, ← cmp_congr hk (hK _ _ he.1)]
    split_ifs
    · exact .some he.2
    · exact ih

/-- Related maps have related values at equal keys. -/
theorem Rel.find? (hK : ∀ k k', K k k' → cmp k k' = .eq) (h : Rel K A m m') {k k' : κ}
    (hk : cmp k k' = .eq) : Option.Rel A (m.find? k) (m'.find? k') :=
  forall₂_lookup hK hk h

theorem Rel.contains (hK : ∀ k k', K k k' → cmp k k' = .eq) (h : Rel K A m m') {k k' : κ}
    (hk : cmp k k' = .eq) : m.contains k = m'.contains k' := by
  have hf := h.find? hK hk
  unfold OrderedMap.contains
  revert hf
  cases m.find? k <;> cases m'.find? k' <;> rintro ⟨⟩ <;> rfl

theorem forall₂_insertList (hK : ∀ k k', K k k' → cmp k k' = .eq) {k k' : κ} (hk : K k k')
    {f : Option α → α} {f' : Option β → β} (hn : A (f none) (f' none))
    (hs : ∀ a b, A a b → A (f (some a)) (f' (some b))) {l : List (κ × α)} {l' : List (κ × β)}
    (h : List.Forall₂ (fun e e' => K e.1 e'.1 ∧ A e.2 e'.2) l l') :
    List.Forall₂ (fun e e' => K e.1 e'.1 ∧ A e.2 e'.2) (insertList cmp k f l)
      (insertList cmp k' f' l') := by
  induction h with
  | nil => exact .cons ⟨hk, hn⟩ .nil
  | @cons e e' l l' he hl ih =>
    -- Both insertions end at the same entry.
    have hc := cmp_congr (hK _ _ hk) (hK _ _ he.1)
    cases hc' : cmp k e.1 <;> rw [hc'] at hc <;> simp only [insertList, hc', ← hc]
    · exact .cons ⟨hk, hn⟩ (.cons he hl)
    · exact .cons ⟨he.1, hs _ _ he.2⟩ hl
    · exact .cons he ih

/-- Related updates at related keys give related maps. -/
theorem Rel.insertWith (hK : ∀ k k', K k k' → cmp k k' = .eq) (h : Rel K A m m') {k k' : κ}
    (hk : K k k') {f : Option α → α} {f' : Option β → β} (hn : A (f none) (f' none))
    (hs : ∀ a b, A a b → A (f (some a)) (f' (some b))) :
    Rel K A (m.insertWith k f) (m'.insertWith k' f') :=
  forall₂_insertList hK hk hn hs h

theorem Rel.insertOrAssign (hK : ∀ k k', K k k' → cmp k k' = .eq) (h : Rel K A m m')
    {k k' : κ} (hk : K k k') {a : α} {b : β} (hab : A a b) :
    Rel K A (m.insertOrAssign k a) (m'.insertOrAssign k' b) :=
  h.insertWith hK hk hab fun _ _ _ => hab

theorem Rel.emplace (hK : ∀ k k', K k k' → cmp k k' = .eq) (h : Rel K A m m')
    {k k' : κ} (hk : K k k') {a : α} {b : β} (hab : A a b) :
    Rel K A (m.emplace k a) (m'.emplace k' b) :=
  h.insertWith hK hk hab fun _ _ hs => hs

theorem Rel.modify (hK : ∀ k k', K k k' → cmp k k' = .eq) (h : Rel K A m m')
    {k k' : κ} (hk : K k k') {f : α → α} {f' : β → β} (hf : ∀ a b, A a b → A (f a) (f' b)) :
    Rel K A (m.modify k f) (m'.modify k' f') := by
  have hr := h.find? hK (hK _ _ hk)
  unfold OrderedMap.modify
  revert hr
  cases m.find? k <;> cases m'.find? k' <;> rintro ⟨⟩
  · exact h
  · exact h.insertOrAssign hK hk (hf _ _ ‹_›)

end Rel

end OrderedMap
