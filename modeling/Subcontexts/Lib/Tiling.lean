import Mathlib.Order.CompletePartialOrder
import Mathlib.Data.Set.Lattice
import Mathlib.Order.Interval.Set.Disjoint
import Mathlib.Data.List.Perm.Basic
import Mathlib.Data.List.Pairwise

/-! Tilings of a set by finitely many pieces: the pieces are pairwise disjoint and every point of
the set lies in one of them. -/

structure Tiles {α : Type*} (ps : List (Set α)) (U : Set α) : Prop where
  disjoint : ps.Pairwise Disjoint
  mem_iff : ∀ x, x ∈ U ↔ ∃ p ∈ ps, x ∈ p

namespace Tiles
variable {α : Type*} {ps qs : List (Set α)} {U p q r : Set α}

theorem nil : Tiles ([] : List (Set α)) ∅ := ⟨List.Pairwise.nil, by simp⟩

theorem perm (h : Tiles ps U) (hp : ps.Perm qs) : Tiles qs U :=
  ⟨(hp.pairwise_iff fun {_ _} hd => Disjoint.symm hd).mp h.disjoint,
    fun x => (h.mem_iff x).trans (by simp only [hp.mem_iff])⟩

theorem split (h : Tiles (p :: ps) U) (hp : p = q ∪ r) (hd : Disjoint q r) :
    Tiles (q :: r :: ps) U := by
  subst hp
  obtain ⟨hhead, htail⟩ := List.pairwise_cons.mp h.disjoint
  refine ⟨?_, fun x => ?_⟩
  · refine List.pairwise_cons.mpr ⟨fun s hs => ?_, List.pairwise_cons.mpr ⟨fun s hs => ?_, htail⟩⟩
    · rcases List.mem_cons.mp hs with rfl | hs
      · exact hd
      · exact (Set.disjoint_union_left.mp (hhead s hs)).1
    · exact (Set.disjoint_union_left.mp (hhead s hs)).2
  · rw [h.mem_iff]
    simp only [List.mem_cons, exists_eq_or_imp, Set.mem_union]
    tauto

theorem cons (h : Tiles ps U) (hd : Disjoint p U) : Tiles (p :: ps) (p ∪ U) := by
  refine ⟨List.pairwise_cons.mpr ⟨fun s hs => ?_, h.disjoint⟩, fun x => ?_⟩
  · exact hd.mono_right fun x hx => (h.mem_iff x).mpr ⟨s, hs, hx⟩
  · simp only [Set.mem_union, h.mem_iff x, List.mem_cons, exists_eq_or_imp]

theorem tail (h : Tiles (p :: ps) U) : Tiles ps (U \ p) := by
  obtain ⟨hhead, htail⟩ := List.pairwise_cons.mp h.disjoint
  refine ⟨htail, fun x => ?_⟩
  rw [Set.mem_sdiff, h.mem_iff]
  constructor
  · rintro ⟨⟨q, hq, hx⟩, hp⟩
    rcases List.mem_cons.mp hq with rfl | hq
    · exact absurd hx hp
    · exact ⟨q, hq, hx⟩
  · rintro ⟨q, hq, hx⟩
    exact ⟨⟨q, List.mem_cons_of_mem _ hq, hx⟩, fun hp => Set.disjoint_left.mp (hhead q hq) hp hx⟩

theorem subset (h : Tiles ps U) (hp : p ∈ ps) : p ⊆ U := fun x hx => (h.mem_iff x).mpr ⟨p, hp, hx⟩

section Map
variable {β : Type*} {f f' : β → Set α} {l pre post : List β} {c d : β}

theorem disjoint_of_ne (h : Tiles (l.map f) U) {a b : β} (ha : a ∈ l) (hb : b ∈ l)
    (hab : a ≠ b) : Disjoint (f a) (f b) := by
  have : Std.Symm fun a b => Disjoint (f a) (f b) := ⟨fun _ _ hd => hd.symm⟩
  exact (List.pairwise_map.mp h.disjoint).forall ha hb hab

theorem nodup (h : Tiles (l.map f) U) (hne : ∀ a ∈ l, (f a).Nonempty) : l.Nodup := by
  refine (List.pairwise_map.mp h.disjoint).imp_of_mem fun {a b} ha _ hd hab => ?_
  subst hab
  exact (hne a ha).ne_empty (disjoint_self.mp hd)

theorem map_congr (h : Tiles (l.map f) U) (hf : ∀ a ∈ l, f' a = f a) : Tiles (l.map f') U := by
  rwa [List.map_congr_left hf]

theorem map_split (h : Tiles ((pre ++ c :: post).map f) U) (hf : ∀ a ∈ pre ++ post, f' a = f a)
    (hu : f c = f' c ∪ f' d) (hd : Disjoint (f' c) (f' d)) :
    Tiles ((pre ++ c :: d :: post).map f') U := by
  have hfront : Tiles (f c :: (pre ++ post).map f) U := h.perm (List.perm_middle.map f)
  have hcut := hfront.split hu hd
  rw [← List.map_congr_left hf, ← List.map_cons, ← List.map_cons] at hcut
  have hperm : (c :: d :: (pre ++ post)).Perm (pre ++ c :: d :: post) :=
    ((List.perm_middle.symm).cons c).trans List.perm_middle.symm
  exact hcut.perm (hperm.map f')

end Map
end Tiles
