import Mathlib.Data.List.Lex
import Mathlib.Order.Lattice

/-!
# The longest and the shortest prefix in an ordered collection

Of two prefixes of one list the shorter is the smaller in the lexicographic order. A search of a
descending list of lists for a prefix of a given one, which stops at the first it meets, therefore
finds the longest, and a search of an ascending list the shortest.

## Main definitions

* `IsLongestPrefix S s p`: the longest element of `S` that is a prefix of `s`

## Main results

* `lt_iff_length_lt`: the order of two prefixes of one list
* `find?_isPrefixOf_iff`: the search of a descending list finds the longest prefix
* `find?_isPrefixOf_key`: the search of an ascending list finds the shortest
-/

universe u v

namespace LongestPrefix

variable {α : Type u} {s p q : List α}

/-- `p` is the longest element of `S` that is a prefix of `s`. -/
structure IsLongestPrefix (S : List α → Prop) (s p : List α) : Prop where
  mem : S p
  isPrefix : p <+: s
  longest : ∀ q, S q → q <+: s → q.length ≤ p.length

theorem IsLongestPrefix.unique {S : List α → Prop} (hp : IsLongestPrefix S s p)
    (hq : IsLongestPrefix S s q) : p = q := by
  have hle := hp.longest q hq.mem hq.isPrefix
  have hge := hq.longest p hp.mem hp.isPrefix
  exact (List.prefix_of_prefix_length_le hp.isPrefix hq.isPrefix hge).eq_of_length_le hle

variable [LinearOrder α]

/-- Of two prefixes of one list the shorter is the smaller. -/
theorem lt_iff_length_lt (hp : p <+: s) (hq : q <+: s) : p < q ↔ p.length < q.length := by
  -- The longer one is the shorter one with something behind it.
  have hlt : ∀ {a b : List α}, a <+: s → b <+: s → a.length < b.length → a < b := by
    intro a b ha hb h
    obtain ⟨t, rfl⟩ := List.prefix_of_prefix_length_le ha hb h.le
    rcases t with - | ⟨c, t⟩
    · exact absurd h (by rw [List.append_nil]; exact lt_irrefl _)
    · have happend : a ++ [] < a ++ c :: t := List.append_left_lt (List.nil_lt_cons c t)
      rwa [List.append_nil] at happend
  constructor
  · intro h
    by_contra hle
    rcases (not_lt.mp hle).lt_or_eq with hlen | hlen
    · exact lt_asymm h (hlt hq hp hlen)
    · have heq := (List.prefix_of_prefix_length_le hq hp hlen.le).eq_of_length hlen
      rw [heq] at h
      exact lt_irrefl _ h
  · exact hlt hp hq

/-- The elements that follow the one found are smaller, and those before it no prefixes. -/
theorem find?_isPrefixOf_iff {l : List (List α)} (h : l.Pairwise fun a b => b < a) :
    l.find? (·.isPrefixOf s) = some p ↔ IsLongestPrefix (· ∈ l) s p := by
  have hfound : ∀ {p}, l.find? (·.isPrefixOf s) = some p → IsLongestPrefix (· ∈ l) s p := by
    intro p hfind
    obtain ⟨hp, before, after, rfl, hbefore⟩ := List.find?_eq_some_iff_append.mp hfind
    have hp := List.isPrefixOf_iff_prefix.mp hp
    refine ⟨by simp, hp, fun q hq hqs => ?_⟩
    -- A prefix does not come before the one found, and what comes behind that is smaller.
    rcases List.mem_append.mp hq with hq | hq
    · have hnot := hbefore q hq
      rw [List.isPrefixOf_iff_prefix.mpr hqs] at hnot
      exact absurd hnot (by decide)
    · rcases List.mem_cons.mp hq with rfl | hq
      · exact le_rfl
      · have hlt := (List.pairwise_cons.mp (List.pairwise_append.mp h).2.1).1 q hq
        exact ((lt_iff_length_lt hqs hp).mp hlt).le
  refine ⟨hfound, fun hlongest => ?_⟩
  cases hfind : l.find? (·.isPrefixOf s) with
  | none =>
    exact absurd (List.isPrefixOf_iff_prefix.mpr hlongest.isPrefix)
      (List.find?_eq_none.mp hfind p hlongest.mem)
  | some q => rw [hlongest.unique (hfound hfind)]

/-- The elements that follow the one found have larger keys, and those before it no prefixes. -/
theorem find?_isPrefixOf_key [BEq α] [LawfulBEq α] {β : Type v} {key : β → List α} {l : List β}
    {e : β}
    (h : l.Pairwise fun a b => key a < key b)
    (hfind : l.find? (fun e => (key e).isPrefixOf s) = some e) :
    e ∈ l ∧ key e <+: s ∧ ∀ e' ∈ l, key e' <+: s → (key e).length ≤ (key e').length := by
  obtain ⟨he, before, after, rfl, hbefore⟩ := List.find?_eq_some_iff_append.mp hfind
  have he := List.isPrefixOf_iff_prefix.mp he
  refine ⟨by simp, he, fun e' he' hs => ?_⟩
  -- A prefix does not come before the one found, and what comes behind that is larger.
  rcases List.mem_append.mp he' with he' | he'
  · have hnot := hbefore e' he'
    rw [List.isPrefixOf_iff_prefix.mpr hs] at hnot
    cases hnot
  · rcases List.mem_cons.mp he' with rfl | he'
    · exact le_rfl
    · have hlt := (List.pairwise_cons.mp (List.pairwise_append.mp h).2.1).1 e' he'
      exact ((lt_iff_length_lt he hs).mp hlt).le

end LongestPrefix
