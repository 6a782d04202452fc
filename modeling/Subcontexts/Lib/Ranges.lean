import Mathlib.Order.CompletePartialOrder
import Mathlib.Data.Set.Pairwise.Basic
import Mathlib.Order.Interval.Set.Disjoint

/-! Families of disjoint sets that grow: a new member beside the others, and a member that gives a
part of itself to a new one. -/

namespace Set.PairwiseDisjoint
variable {ι α : Type*} {s : Set ι} {f g : ι → Set α} {n r : ι}

theorem insert_of_disjoint (h : s.PairwiseDisjoint f) (hn : n ∉ s) (hold : ∀ i ∈ s, g i ⊆ f i)
    (hnew : ∀ i ∈ s, Disjoint (g n) (g i)) : (insert n s).PairwiseDisjoint g :=
  (h.mono_on hold).insert_of_notMem hn hnew

theorem insert_of_cut (h : s.PairwiseDisjoint f) (hn : n ∉ s) (hr : r ∈ s)
    (hold : ∀ i ∈ s, i ≠ r → g i = f i) (hrest : g r ⊆ f r) (hpart : g n ⊆ f r)
    (hcut : Disjoint (g n) (g r)) : (insert n s).PairwiseDisjoint g := by
  refine h.insert_of_disjoint hn (fun i hi => ?_) fun i hi => ?_
  · by_cases hir : i = r
    · exact hir ▸ hrest
    · exact (hold i hi hir).subset
  · by_cases hir : i = r
    · exact hir ▸ hcut
    · have hri : Disjoint (f r) (f i) := h hr hi fun heq => hir heq.symm
      rw [hold i hi hir]
      exact hri.mono_left hpart

end Set.PairwiseDisjoint

theorem Set.disjoint_Ico_of_le {α : Type*} [LinearOrder α] {a b c d : α} (h : b ≤ c ∨ d ≤ a) :
    Disjoint (Set.Ico a b) (Set.Ico c d) := by
  rw [Set.Ico_disjoint_Ico]
  rcases h with h | h
  · exact (min_le_left b d).trans (h.trans (le_max_right a c))
  · exact (min_le_right b d).trans (h.trans (le_max_left a c))
