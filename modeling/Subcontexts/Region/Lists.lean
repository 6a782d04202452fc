import Subcontexts.Region.Model

/-! What the region calls do to the active list and the list of free structs. -/

namespace Subcontexts.Region
variable {pg : PageSize} {fp : FirstPage pg}

structure Lists (fp : FirstPage pg) (s : Sc) (l f : List Addr) : Prop where
  active : (s.links s.activeRegions).Holds l
  tail : s.activeRegionsTail = l.getLast?
  first : l.head? = some (fp.regions 0)
  free : (s.links s.freeStructs).Holds f
  apart : ∀ a ∈ l, a ∉ f
  reserved : ∀ a, s.reservedRegions = some a → a ∉ l ∧ a ∉ f
  inPage : ∀ a, a ∈ l ∨ a ∈ f → fp.Struct a

section Extents
variable (s : Sc) (a b : Addr)

@[simp] theorem extent_setNext (n : Option Addr) :
    ((s.setNext a n).mem b).toExtent = (s.mem b).toExtent := by
  unfold Sc.setNext Sc.setRegion
  by_cases hb : b = a
  · subst b
    simp
  · simp [hb]

@[simp] theorem extent_append (region : Addr) :
    ((s.append a region).mem b).toExtent = (s.mem b).toExtent := extent_setNext s a b _

theorem mem_setRegion_self (r : ScRegion) : (s.setRegion a r).mem a = r := Function.update_self ..

theorem extent_setExtent_self (e : Extent) : ((s.setExtent a e).mem a).toExtent = e := by
  rw [Sc.setExtent, mem_setRegion_self]

theorem next_setNext_self (n : Option Addr) : ((s.setNext a n).mem a).next = n := by
  rw [Sc.setNext, mem_setRegion_self]

variable {a b}

theorem mem_setRegion_of_ne (h : b ≠ a) (r : ScRegion) : (s.setRegion a r).mem b = s.mem b :=
  Function.update_of_ne h _ _

theorem mem_setExtent_of_ne (h : b ≠ a) (e : Extent) : (s.setExtent a e).mem b = s.mem b :=
  Function.update_of_ne h _ _

theorem mem_setNext_of_ne (h : b ≠ a) (n : Option Addr) : (s.setNext a n).mem b = s.mem b :=
  Function.update_of_ne h _ _

end Extents

section Edits
variable {s : Sc} {l f : List Addr} {a : Addr}

theorem Lists.nodup (L : Lists fp s l f) : l.Nodup := L.active.nodup

theorem Lists.first_mem (L : Lists fp s l f) : fp.regions 0 ∈ l := List.mem_of_head? L.first

theorem Lists.free_notMem {reg : Addr} {f' : List Addr} (L : Lists fp s l (reg :: f')) : reg ∉ l :=
  fun h => L.apart reg h (List.mem_cons_self ..)

theorem Lists.congr (L : Lists fp s l f) {t : Sc} (hact : t.activeRegions = s.activeRegions)
    (htail : t.activeRegionsTail = s.activeRegionsTail) (hfree : t.freeStructs = s.freeStructs)
    (hres : t.reservedRegions = s.reservedRegions)
    (hnext : ∀ a, a ∈ l ∨ a ∈ f → (t.mem a).next = (s.mem a).next) : Lists fp t l f :=
  ⟨L.active.congr hact fun a ha => hnext a (.inl ha), htail.trans L.tail, L.first,
    L.free.congr hfree fun a ha => hnext a (.inr ha), L.apart,
    fun a ha => L.reserved a (hres.symm.trans ha), L.inPage⟩

theorem Lists.setRegion (L : Lists fp s l f) {r : ScRegion} (hr : r.next = (s.mem a).next) :
    Lists fp (s.setRegion a r) l f := by
  refine L.congr rfl rfl rfl rfl fun b _ => ?_
  by_cases hb : b = a
  · subst b
    exact (congrArg ScRegion.next (Function.update_self ..)).trans hr
  · exact congrArg ScRegion.next (Function.update_of_ne hb _ _)

theorem Lists.setExtent (L : Lists fp s l f) (e : Extent) : Lists fp (s.setExtent a e) l f :=
  L.setRegion rfl

theorem Lists.setRegion_off (L : Lists fp s l f) (r : ScRegion) (hl : a ∉ l) (hf : a ∉ f) :
    Lists fp (s.setRegion a r) l f := by
  refine L.congr rfl rfl rfl rfl fun b hb => ?_
  have hne : b ≠ a := by
    rintro rfl
    exact hb.elim hl hf
  exact congrArg ScRegion.next (Function.update_of_ne hne _ _)

theorem links_setRegion (s : Sc) (a : Addr) (r : ScRegion) (head : Option Addr) :
    (s.setRegion a r).links head = (s.links head).set (some a) r.next := by
  unfold Sc.links Linked.set Sc.setRegion
  congr 1
  exact Function.comp_update ScRegion.next s.mem a r

structure Taken (fp : FirstPage pg) (s t : Sc) (l f : List Addr) (reg : Addr) : Prop where
  lists : Lists fp t l f
  off : reg ∉ l ∧ reg ∉ f
  struct : fp.Struct reg
  unreserved : s.reservedRegions ≠ some reg
  next : (t.mem reg).next = none
  extent : ∀ a, (t.mem a).toExtent = (s.mem a).toExtent
  activeRegions : t.activeRegions = s.activeRegions
  activeRegionsTail : t.activeRegionsTail = s.activeRegionsTail
  reservedRegions : t.reservedRegions = s.reservedRegions
  tmpfileSize : t.tmpfileSize = s.tmpfileSize
  procCount : t.procCount = s.procCount

theorem Lists.getFree (L : Lists fp s l f) {region : Option Addr} {t : Sc}
    (h : scGetFreeRegion s = .ok (region, t)) :
    ∃ reg f', region = some reg ∧ f = reg :: f' ∧ Taken fp s t l f' reg := by
  unfold scGetFreeRegion at h
  obtain ⟨-, -, h⟩ := bind_eq_ok.mp h
  split at h
  · cases h
  · rename_i reg hfree
    split at h
    · cases h
    · rename_i next hnext
      obtain ⟨rfl, rfl⟩ := Prod.mk.inj (Except.ok.inj h)
      have hf := L.free
      rw [hfree] at hf
      cases f with
      | nil => cases hf
      | cons b f' =>
        obtain ⟨hb, hrest⟩ := hf
        obtain rfl := Option.some.inj hb
        have hfree' : ({ s with freeStructs := some next }.links (some next)).Holds f' := by
          rw [← hnext]
          exact hrest
        have hbf : reg ∉ f' := (List.nodup_cons.mp L.free.nodup).1
        have hbl : reg ∉ l := L.free_notMem
        have L' : Lists fp { s with freeStructs := some next } l f' :=
          ⟨L.active, L.tail, L.first, hfree', fun a ha hm =>
            L.apart a ha (List.mem_cons_of_mem _ hm), fun a ha =>
            ⟨(L.reserved a ha).1, fun hm => (L.reserved a ha).2 (List.mem_cons_of_mem _ hm)⟩,
            fun a ha => L.inPage a (ha.imp_right (List.mem_cons_of_mem _))⟩
        refine ⟨reg, f', rfl, rfl, L'.setRegion_off _ hbl hbf, ⟨hbl, hbf⟩,
          L.inPage reg (.inr (List.mem_cons_self ..)), fun hr =>
            (L.reserved reg hr).2 (List.mem_cons_self ..), ?_, fun a => ?_, rfl, rfl, rfl, rfl, rfl⟩
        · exact next_setNext_self _ reg none
        · exact extent_setNext _ reg a none

theorem Lists.append (L : Lists fp s l f) {oldTail : Addr} (htail : s.activeRegionsTail = some oldTail)
    (hl : a ∉ l) (hf : a ∉ f) (hstruct : fp.Struct a) (hnext : (s.mem a).next = none)
    (hres : s.reservedRegions ≠ some a) : Lists fp (s.append oldTail a) (l ++ [a]) f := by
  have hlast : l.getLast? = some oldTail := L.tail.symm.trans htail
  have hmem : oldTail ∈ l := List.mem_of_getLast? hlast
  have hlinks : ∀ head, (s.append oldTail a).links head =
      (s.links head).set (some oldTail) (some a) := fun head => links_setRegion s oldTail _ head
  refine ⟨?_, ?_, ?_, ?_, fun b hb => ?_, fun b hb => ?_, fun b hb => ?_⟩
  · show ((s.append oldTail a).links s.activeRegions).Holds (l ++ [a])
    have hend : (s.links s.activeRegions).Holds (l ++ []) := by
      rw [List.append_nil]
      exact L.active
    have hins := hend.insert (a := a) (by rwa [List.append_nil]) (hnext.trans L.active.get_end.symm)
    rw [hlast] at hins
    rw [hlinks]
    exact hins
  · show some a = (l ++ [a]).getLast?
    rw [List.getLast?_concat]
  · rw [List.head?_append, L.first]
    rfl
  · show ((s.append oldTail a).links s.freeStructs).Holds f
    rw [hlinks]
    refine L.free.congr rfl fun b hb => ?_
    have hne : b ≠ oldTail := by
      rintro rfl
      exact L.apart b hmem hb
    exact Function.update_of_ne hne _ _
  · rcases List.mem_append.mp hb with hb | hb
    · exact L.apart b hb
    · exact List.mem_singleton.mp hb ▸ hf
  · refine ⟨fun hm => ?_, (L.reserved b hb).2⟩
    rcases List.mem_append.mp hm with hm | hm
    · exact (L.reserved b hb).1 hm
    · exact hres (List.mem_singleton.mp hm ▸ hb)
  · rcases hb with hb | hb
    · rcases List.mem_append.mp hb with hb | hb
      · exact L.inPage b (.inl hb)
      · exact List.mem_singleton.mp hb ▸ hstruct
    · exact L.inPage b (.inr hb)

theorem Lists.insertSecond (L : Lists fp s l f) {first : Addr} (hfirst : s.activeRegions = some first)
    (hlen : 2 ≤ l.length) (hl : a ∉ l) (hf : a ∉ f) (hstruct : fp.Struct a)
    (hres : s.reservedRegions ≠ some a) :
    ∃ rest, l = first :: rest ∧
      Lists fp ((s.setNext a (s.mem first).next).setNext first (some a)) (first :: a :: rest) f := by
  have hact := L.active
  rw [hfirst] at hact
  cases l with
  | nil => cases hact
  | cons b rest =>
    obtain ⟨hhead, hrest⟩ := hact
    obtain rfl := Option.some.inj hhead
    clear hhead
    have hne : first ≠ a := fun h => hl (h ▸ List.mem_cons_self ..)
    have L' : Lists fp (s.setNext a (s.mem first).next) (first :: rest) f := L.setRegion_off _ hl hf
    refine ⟨rest, rfl, ?_, ?_, L.first, ?_, fun b hb => ?_, fun b hb => ?_, fun b hb => ?_⟩
    · have hactive : (s.links s.activeRegions).Holds ([] ++ first :: rest) := L.active
      refine hactive.insertAfter rfl (next_setNext_self _ _ _) ?_ fun b hb => ?_
      · exact (congrArg ScRegion.next (mem_setNext_of_ne _ hne.symm _)).trans
          (next_setNext_self _ _ _)
      · have hmem : b ∈ first :: rest := List.mem_cons_of_mem _ hb
        have hba : b ≠ a := fun h => hl (h ▸ hmem)
        have hbf : b ≠ first := by
          rintro rfl
          exact (List.nodup_cons.mp L.active.nodup).1 hb
        refine congrArg ScRegion.next ?_
        rw [mem_setNext_of_ne _ hbf, mem_setNext_of_ne _ hba]
    · show s.activeRegionsTail = _
      rw [L.tail]
      cases rest with
      | nil => exact absurd hlen (by simp)
      | cons c rest => simp [List.getLast?_cons_cons]
    · refine L'.free.congr rfl fun b hb => congrArg ScRegion.next (mem_setNext_of_ne _ ?_ _)
      rintro rfl
      exact L.apart b (List.mem_cons_self ..) hb
    · rcases List.mem_cons.mp hb with rfl | hb
      · exact L.apart b (List.mem_cons_self ..)
      · rcases List.mem_cons.mp hb with rfl | hb
        · exact hf
        · exact L.apart b (List.mem_cons_of_mem _ hb)
    · obtain ⟨hbl, hbf⟩ := L.reserved b hb
      refine ⟨fun hm => ?_, hbf⟩
      rcases List.mem_cons.mp hm with rfl | hm
      · exact hbl (List.mem_cons_self ..)
      · rcases List.mem_cons.mp hm with rfl | hm
        · exact hres hb
        · exact hbl (List.mem_cons_of_mem _ hm)
    · rcases hb with hb | hb
      · rcases List.mem_cons.mp hb with rfl | hb
        · exact L.inPage b (.inl (List.mem_cons_self ..))
        · rcases List.mem_cons.mp hb with rfl | hb
          · exact hstruct
          · exact L.inPage b (.inl (List.mem_cons_of_mem _ hb))
      · exact L.inPage b (.inr hb)

end Edits
end Subcontexts.Region
