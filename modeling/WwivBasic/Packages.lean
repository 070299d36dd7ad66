import WwivBasic.Core.Strings
import WwivBasic.Foundations.LongestPrefix
import Mathlib.Data.Char

/-!
# The package of an identifier

`find_package_and_id` of `src/utils.h` tries the names of a set of packages from the greatest
down, and so the longest that the identifier starts with comes first. Whether a `.` follows the
name is not looked at, and the identifier is cut at its last `.` wherever the name ends.

## Main definitions

* `StringSet`: `std::set<std::string>`
* `findPackageAndId`: the search
* `SplitsAtPackage`: the result the search is for

## Main results

* `findPackageAndId_of_longest`: the search finds the longest name
* `splitsAtPackage_iff`: where its result is the one it is for
-/

namespace WwivBasic

open LongestPrefix

/-- `std::set<std::string>`. -/
structure StringSet where
  elements : List Str
  sorted : elements.Pairwise (· < ·)

/-- `s.substr(s.rfind('.') + 1)`: all of a text without a `.`, since `npos + 1` is 0. -/
def afterLastDot (s : Str) : Str := (splitLastDot s).elim s Prod.snd

/-- `find_package_and_id`. -/
def findPackageAndId (packages : StringSet) (s : Str) : Str × Str :=
  match packages.elements.reverse.find? (·.isPrefixOf s) with
  | some package => (package, afterLastDot s)
  | none => ([], s)

/-- `s` is the name `q`, a `.` and more. -/
def BelongsTo (s q : Str) : Prop := ∃ rest, s = q ++ '.' :: rest

/-- The result is the longest name of the set that the identifier belongs to, with what follows
its `.`; without such a name it is no package and the identifier itself. -/
structure SplitsAtPackage (packages : StringSet) (s : Str) (result : Str × Str) : Prop where
  of_belongsTo : (∃ q ∈ packages.elements, BelongsTo s q) →
    result.1 ∈ packages.elements ∧ s = result.1 ++ '.' :: result.2 ∧
      ∀ q ∈ packages.elements, BelongsTo s q → q.length ≤ result.1.length
  of_not_belongsTo : (¬ ∃ q ∈ packages.elements, BelongsTo s q) → result = ([], s)

/-! ## The last dot -/

variable {s p q : Str}

theorem splitLastDot_eq_none_iff : splitLastDot s = none ↔ '.' ∉ s := by
  induction s with
  | nil => simp [splitLastDot]
  | cons c s ih =>
    rw [splitLastDot, List.mem_cons, not_or]
    cases hs : splitLastDot s with
    | some r =>
      rw [hs] at ih
      refine iff_of_false (Option.some_ne_none _) fun h => ?_
      exact absurd (ih.mpr h.2) (Option.some_ne_none r)
    | none =>
      have hrest := ih.mp hs
      by_cases hc : c = '.'
      · simp [hc]
      · simp [hc, hrest, Ne.symm hc]

theorem splitLastDot_append (p : Str) {rest : Str} (h : '.' ∉ rest) :
    splitLastDot (p ++ '.' :: rest) = some (p, rest) := by
  induction p with
  | nil => simp [splitLastDot, splitLastDot_eq_none_iff.mpr h]
  | cons c p ih => rw [List.cons_append, splitLastDot, ih]

theorem eq_of_splitLastDot {rest : Str} (h : splitLastDot s = some (p, rest)) :
    s = p ++ '.' :: rest ∧ '.' ∉ rest := by
  induction s generalizing p with
  | nil => cases h
  | cons c s ih =>
    rw [splitLastDot] at h
    cases hs : splitLastDot s with
    | some r =>
      rw [hs] at h
      obtain ⟨rfl, rfl⟩ := Prod.mk.inj (Option.some.inj h)
      obtain ⟨hs, hrest⟩ := ih hs
      exact ⟨by rw [hs, List.cons_append], hrest⟩
    | none =>
      rw [hs] at h
      by_cases hc : c = '.'
      · rw [hc, if_pos rfl] at h
        obtain ⟨rfl, rfl⟩ := Prod.mk.inj (Option.some.inj h)
        exact ⟨by rw [hc, List.nil_append], splitLastDot_eq_none_iff.mp hs⟩
      · rw [if_neg hc] at h
        cases h

/-- What follows the last dot has no dot itself. -/
theorem not_mem_afterLastDot (s : Str) : '.' ∉ afterLastDot s := by
  unfold afterLastDot
  cases hs : splitLastDot s with
  | none => exact splitLastDot_eq_none_iff.mp hs
  | some r => exact (eq_of_splitLastDot hs).2

theorem afterLastDot_eq_self_iff : afterLastDot s = s ↔ '.' ∉ s := by
  constructor
  · intro h
    rw [← h]
    exact not_mem_afterLastDot s
  · intro h
    rw [afterLastDot, splitLastDot_eq_none_iff.mpr h, Option.elim_none]

theorem eq_append_afterLastDot_iff :
    s = p ++ '.' :: afterLastDot s ↔ ∃ rest, s = p ++ '.' :: rest ∧ '.' ∉ rest := by
  constructor
  · exact fun h => ⟨_, h, not_mem_afterLastDot s⟩
  · rintro ⟨rest, rfl, hrest⟩
    rw [afterLastDot, splitLastDot_append p hrest, Option.elim_some]

/-! ## The search -/

theorem BelongsTo.isPrefix (h : BelongsTo s q) : q <+: s := by
  obtain ⟨rest, rfl⟩ := h
  exact List.prefix_append _ _

theorem find?_reverse_iff (packages : StringSet) :
    packages.elements.reverse.find? (·.isPrefixOf s) = some p ↔
      IsLongestPrefix (· ∈ packages.elements) s p := by
  rw [find?_isPrefixOf_iff (List.pairwise_reverse.mpr packages.sorted)]
  simp only [List.mem_reverse]

/-- The search finds the longest name the identifier starts with. -/
theorem findPackageAndId_of_longest {packages : StringSet}
    (h : IsLongestPrefix (· ∈ packages.elements) s p) :
    findPackageAndId packages s = (p, afterLastDot s) := by
  rw [findPackageAndId, (find?_reverse_iff packages).mpr h]

theorem findPackageAndId_of_none {packages : StringSet}
    (h : ∀ q ∈ packages.elements, ¬ q <+: s) : findPackageAndId packages s = ([], s) := by
  have hnone : packages.elements.reverse.find? (·.isPrefixOf s) = none :=
    List.find?_eq_none.mpr fun q hq hqs =>
      h q (List.mem_reverse.mp hq) (List.isPrefixOf_iff_prefix.mp hqs)
  rw [findPackageAndId, hnone]

/-- A search that finds a name is right when the name ends at the last dot, or is empty and there
is no dot. -/
theorem splitsAtPackage_of_longest {packages : StringSet}
    (h : IsLongestPrefix (· ∈ packages.elements) s p) :
    SplitsAtPackage packages s (p, afterLastDot s) ↔
      (∃ rest, s = p ++ '.' :: rest ∧ '.' ∉ rest) ∨ p = [] ∧ '.' ∉ s := by
  constructor
  · intro hsplit
    by_cases hex : ∃ q ∈ packages.elements, BelongsTo s q
    · exact .inl (eq_append_afterLastDot_iff.mp (hsplit.of_belongsTo hex).2.1)
    · obtain ⟨hp, hs⟩ := Prod.mk.inj (hsplit.of_not_belongsTo hex)
      exact .inr ⟨hp, afterLastDot_eq_self_iff.mp hs⟩
  · rintro (hrest | ⟨rfl, hs⟩)
    · refine ⟨fun _ => ⟨h.mem, eq_append_afterLastDot_iff.mpr hrest, fun q hq hqs =>
        h.longest q hq hqs.isPrefix⟩, fun hex => absurd ?_ hex⟩
      obtain ⟨rest, heq, -⟩ := hrest
      exact ⟨p, h.mem, rest, heq⟩
    · -- No identifier without a dot belongs to a package.
      refine ⟨?_, fun _ => by rw [afterLastDot_eq_self_iff.mpr hs]⟩
      rintro ⟨q, -, rest, rfl⟩
      exact absurd (List.mem_append_right q List.mem_cons_self) hs

/-- **`find_package_and_id` splits an identifier at its package** exactly when the longest name of
the set that it starts with, if there is one, ends just before its last dot, or is the empty name
and there is no dot. -/
theorem splitsAtPackage_iff (packages : StringSet) (s : Str) :
    SplitsAtPackage packages s (findPackageAndId packages s) ↔
      ∀ p, IsLongestPrefix (· ∈ packages.elements) s p →
        (∃ rest, s = p ++ '.' :: rest ∧ '.' ∉ rest) ∨ p = [] ∧ '.' ∉ s := by
  cases hfind : packages.elements.reverse.find? (·.isPrefixOf s) with
  | some p =>
    have hlongest := (find?_reverse_iff packages).mp hfind
    rw [findPackageAndId_of_longest hlongest, splitsAtPackage_of_longest hlongest]
    constructor
    · intro h q hq
      rw [← hlongest.unique hq]
      exact h
    · exact fun h => h p hlongest
  | none =>
    have hnone : ∀ q ∈ packages.elements, ¬ q <+: s := fun q hq hqs =>
      List.find?_eq_none.mp hfind q (List.mem_reverse.mpr hq) (List.isPrefixOf_iff_prefix.mpr hqs)
    rw [findPackageAndId_of_none hnone]
    refine iff_of_true ⟨?_, fun _ => rfl⟩ fun p hp => absurd hp.isPrefix (hnone p hp.mem)
    rintro ⟨q, hq, hqs⟩
    exact absurd hqs.isPrefix (hnone q hq)

/-- The packages `this` and `this.is`. -/
def thisPackages : StringSet where
  elements := ["this".toList, "this.is".toList]
  sorted := by decide

/-- `this.is.a.test` loses the `a` between the package and the last dot. -/
theorem not_splitsAtPackage_this :
    findPackageAndId thisPackages "this.is.a.test".toList = ("this.is".toList, "test".toList) ∧
    ¬ SplitsAtPackage thisPackages "this.is.a.test".toList
      (findPackageAndId thisPackages "this.is.a.test".toList) := by
  refine ⟨by decide, fun h => ?_⟩
  have heq := (h.of_belongsTo ⟨"this.is".toList, by decide, "a.test".toList, by decide⟩).2.1
  exact absurd heq (by decide)

end WwivBasic
