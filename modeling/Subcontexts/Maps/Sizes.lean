import Subcontexts.Maps.Diff
import Subcontexts.Maps.Parse

/-! The `size` of a map: `Map_parse` counts the entries it links and `Map_diff` does not. -/

namespace Subcontexts.Maps
variable {h h' : Heap} {before after diff : Map} {bs as : List MapEntry} {fuel : Nat}

def Heap.Represents (h : Heap) (m : Map) (es : List MapEntry) : Prop :=
  h.Shows m es ∧ m.size = es.length

structure DiffOf (h h' : Heap) (before after diff : Map) (bs as : List MapEntry) : Prop where
  entries : h'.Represents diff (as.filter (isNew bs))
  /-- The entries are structs of their own. -/
  copies : ∀ es l, Chain h' diff.head l es → ∀ a ∈ l, h.used ≤ a
  showsBefore : h'.Shows before bs
  showsAfter : h'.Shows after as
  old : ∀ a < h.used, h'.mem a = h.mem a

theorem filter_isNew_eq_nil_iff :
    as.filter (isNew bs) = [] ↔ ∀ a ∈ as, ∃ b ∈ bs, mapEntryEqual b a = true := by
  rw [List.filter_eq_nil_iff]
  apply forall₂_congr
  intro a _
  rw [isNew_iff, not_not]

theorem Heap.Shows.frame {m : Map} {es : List MapEntry} (hm : h.Shows m es)
    (hold : ∀ a < h.used, h'.mem a = h.mem a) (hused : h.used ≤ h'.used) : h'.Shows m es := by
  obtain ⟨l, C⟩ := hm
  exact ⟨l, C.frame (fun a ha => hold a (C.taken a ha)) hused⟩

/-- The map that `Map_diff` returns is right but for its `size`, which stays 0. -/
theorem mapDiff_diffOf_iff (hb : h.Shows before bs) (ha : h.Shows after as)
    (hbs : bs.length < fuel) (has : as.length < fuel) :
    ∃ diff h', mapDiff fuel h before after = .ok (diff, h') ∧
      h'.Shows diff (as.filter (isNew bs)) ∧
      (DiffOf h h' before after diff bs as ↔ ∀ a ∈ as, ∃ b ∈ bs, mapEntryEqual b a = true) := by
  obtain ⟨lb, B⟩ := hb
  obtain ⟨la, A⟩ := ha
  obtain ⟨diff, h', diffCurr, ld, hrun, D⟩ :=
    mapDiffLoop_spec (Diffing.init h) B A (B.length_eq ▸ hbs) (A.length_eq ▸ has)
  have hshows : h'.Shows diff (as.filter (isNew bs)) := ⟨ld, D.chain⟩
  refine ⟨diff, h', hrun, hshows, ?_⟩
  rw [← filter_isNew_eq_nil_iff]
  constructor
  · intro W
    apply List.length_eq_zero_iff.mp
    rw [← W.entries.2, D.size]
  · intro hnil
    refine ⟨⟨hshows, ?_⟩, fun es l C a hal => ?_, ?_, ?_, D.old⟩
    · rw [hnil, D.size]
      rfl
    · rw [C.holds.unique D.chain.holds] at hal
      exact D.fresh a hal
    · exact Heap.Shows.frame ⟨lb, B⟩ D.old D.used
    · exact Heap.Shows.frame ⟨la, A⟩ D.old D.used

/-- A library without memory of its own. -/
theorem mapDiff_diffOf_iff_same : ∃ diff h',
    mapDiff 2 (twoMaps (anonymous 0x1000 0x2000) (anonymous 0x1000 0x2000)) ⟨some 0, 1⟩ ⟨some 1, 1⟩ =
      .ok (diff, h') ∧
    DiffOf (twoMaps (anonymous 0x1000 0x2000) (anonymous 0x1000 0x2000)) h' ⟨some 0, 1⟩ ⟨some 1, 1⟩
      diff [anonymous 0x1000 0x2000] [anonymous 0x1000 0x2000] := by
  obtain ⟨diff, h', hrun, -, hiff⟩ := mapDiff_diffOf_iff
    (twoMaps_before (b := anonymous 0x1000 0x2000)) (twoMaps_after (a := anonymous 0x1000 0x2000))
    Nat.one_lt_two Nat.one_lt_two
  exact ⟨diff, h', hrun, hiff.mpr (by decide)⟩

/-- The library's range is in the diff, and its `size` is 0. -/
theorem mapDiff_uncounted : ¬ ∀ (h : Heap) (before after : Map) (bs as : List MapEntry) (fuel : Nat),
    h.Represents before bs → h.Represents after as → bs.length < fuel → as.length < fuel →
    ∃ diff h', mapDiff fuel h before after = .ok (diff, h') ∧
      DiffOf h h' before after diff bs as := by
  intro H
  have hb := twoMaps_before (b := anonymous 0x1000 0x2000) (a := anonymous 0x4000 0x5000)
  have ha := twoMaps_after (b := anonymous 0x1000 0x2000) (a := anonymous 0x4000 0x5000)
  obtain ⟨diff, h', hrun, W⟩ :=
    H _ _ _ _ _ 2 ⟨hb, rfl⟩ ⟨ha, rfl⟩ Nat.one_lt_two Nat.one_lt_two
  obtain ⟨lb, B⟩ := hb
  obtain ⟨la, A⟩ := ha
  have hlb : lb.length < 2 := B.length_eq ▸ Nat.one_lt_two
  have hla : la.length < 2 := A.length_eq ▸ Nat.one_lt_two
  obtain ⟨diff', h'', hrun', hsize, -⟩ := mapDiff_spec B A hlb hla
  obtain ⟨rfl, rfl⟩ := Prod.mk.inj (Except.ok.inj (hrun.symm.trans hrun'))
  have hcount := W.entries.2
  rw [hsize] at hcount
  exact absurd hcount (by decide)

end Subcontexts.Maps
