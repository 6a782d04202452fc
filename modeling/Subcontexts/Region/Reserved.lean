import Subcontexts.Region.Integrity

/-! The reserved list beside the active and the free one. The three calls leave its links alone, and
move a struct at most from the free list to the active one. -/

namespace Subcontexts.Region
variable {pg : PageSize} {fp : FirstPage pg}

structure Table (fp : FirstPage pg) (s : Sc) (l f v : List Addr) : Prop where
  lists : Lists fp s l f
  reserved : (s.links s.reservedRegions).Holds v
  apart : ∀ a ∈ v, a ∉ l ∧ a ∉ f

section Next
variable {s t : Sc} {a b : Addr}

theorem next_setExtent (e : Extent) : ((s.setExtent a e).mem b).next = (s.mem b).next := by
  by_cases hb : b = a
  · subst hb
    rw [Sc.setExtent, mem_setRegion_self]
  · rw [mem_setExtent_of_ne _ hb]

theorem scGetFreeRegion_next {region : Option Addr} (h : scGetFreeRegion s = .ok (region, t))
    (ha : s.freeStructs ≠ some a) : (t.mem a).next = (s.mem a).next := by
  unfold scGetFreeRegion at h
  obtain ⟨-, -, h⟩ := bind_eq_ok.mp h
  split at h
  · cases h
  rename_i retval hfree
  split at h
  · cases h
  obtain ⟨-, rfl⟩ := Prod.mk.inj (Except.ok.inj h)
  have hne : a ≠ retval := fun h => ha (h ▸ hfree)
  exact congrArg ScRegion.next (mem_setNext_of_ne _ hne none)

theorem mmapReserved_next {region : Addr} {length prot v : Nat}
    (h : mmapReserved s region length prot = .ok (v, t)) (hregion : a ≠ region)
    (htail : s.activeRegionsTail ≠ some a) : (t.mem a).next = (s.mem a).next := by
  unfold mmapReserved at h
  split at h
  · cases h
  rename_i reserved hreserved
  obtain ⟨-, -, h⟩ := bind_eq_ok.mp h
  obtain ⟨-, -, h⟩ := bind_eq_ok.mp h
  split at h
  · cases h
  rename_i oldTail hold
  obtain ⟨-, rfl⟩ := Prod.mk.inj (Except.ok.inj h)
  have hne : a ≠ oldTail := fun h => htail (h ▸ hold)
  refine (congrArg ScRegion.next (mem_setNext_of_ne _ hne _)).trans ?_
  rw [next_setExtent, mem_setRegion_of_ne _ hregion]

variable {l f : List Addr}

theorem Lists.free_ne (L : Lists fp s l f) (ha : a ∉ f) : s.freeStructs ≠ some a := fun h =>
  ha (List.mem_of_head? (L.free.head?_eq.trans h))

theorem Lists.tail_ne (L : Lists fp s l f) (ha : a ∉ l) : s.activeRegionsTail ≠ some a := fun h =>
  ha (List.mem_of_getLast? (L.tail.symm.trans h))

end Next

section Calls
variable {answers : Answers} {w w' : World} {l f v : List Addr} {a : Addr}

theorem Untouched.mem (h : Untouched w w') : w'.sc.mem = w.sc.mem := by
  obtain ⟨size, lock, rfl⟩ := h
  rfl

theorem Untouched.extent (h : Untouched w w') : w'.sc.extent = w.sc.extent :=
  funext fun a => by rw [Sc.extent, h.mem, Sc.extent]

theorem Untouched.reserved (h : Untouched w w') :
    w'.sc.reservedRegions = w.sc.reservedRegions := by
  obtain ⟨size, lock, rfl⟩ := h
  rfl

theorem scMmap_next {addr length prot : Nat} {fd offset : Int} {r : Option Nat}
    (L : Lists fp w.sc l f) (h : scMmap fp answers w addr length prot fd offset = .ok (r, w'))
    (hl : a ∉ l) (hf : a ∉ f) : (w'.sc.mem a).next = (w.sc.mem a).next := by
  obtain ⟨-, -, -, -, -, ⟨-, -, rfl⟩ | ⟨-, -, -, size, rfl, ⟨-, -, rfl⟩ |
    ⟨-, -, reg, sc, v, t, hfree, hm, -, rfl⟩⟩⟩ := scMmap_cases h
  · rfl
  · rfl
  have L₀ : Lists fp { w.sc with lock := true, tmpfileSize := u64 (w.sc.tmpfileSize + length) } l f :=
    L.congr rfl rfl rfl rfl fun _ _ => rfl
  have hnext := scGetFreeRegion_next hfree (L₀.free_ne hf)
  obtain ⟨reg', f', hreg, rfl, T⟩ := L₀.getFree hfree
  obtain rfl := Option.some.inj hreg
  -- only the new struct and the old tail get another `next`
  have hne : a ≠ reg := fun h => hf (h ▸ List.mem_cons_self ..)
  exact (mmapReserved_next hm hne (T.lists.tail_ne hl)).trans hnext

theorem scImport_next {fuel addr len prot : Nat} {r : Int} (L : Lists fp w.sc l f)
    (h : scImport fp answers fuel w addr len prot = .ok (r, w')) (hl : a ∉ l) (hf : a ∉ f) :
    (w'.sc.mem a).next = (w.sc.mem a).next := by
  obtain ⟨-, -, -, ⟨-, -, rfl⟩ | ⟨-, duplicate, -, ⟨-, -, rfl⟩ |
    ⟨-, reg, sc, tail, hfree, htail, h⟩⟩⟩ := scImport_cases h
  · rfl
  · rfl
  have L₀ : Lists fp { w.sc with lock := true } l f := L.congr rfl rfl rfl rfl fun _ _ => rfl
  have hnext := scGetFreeRegion_next hfree (L₀.free_ne hf)
  obtain ⟨reg', f', hreg, rfl, T⟩ := L₀.getFree hfree
  obtain rfl := Option.some.inj hreg
  have hne : a ≠ reg := fun h => hf (h ▸ List.mem_cons_self ..)
  have hne' : a ≠ tail := fun h => T.lists.tail_ne hl (h ▸ htail)
  obtain ⟨⟨lock, hsc⟩, -⟩ := importBytes_spec h
  rw [hsc]
  refine (congrArg ScRegion.next (mem_setRegion_of_ne _ hne _)).trans ?_
  rw [mem_setNext_of_ne _ hne]
  exact (congrArg ScRegion.next (mem_setNext_of_ne _ hne' _)).trans hnext

theorem scImportProtNone_next {addr len : Nat} {r : Int} (L : Lists fp w.sc l f)
    (h : scImportProtNone fp answers w addr len = .ok (r, w')) (hl : a ∉ l) (hf : a ∉ f) :
    (w'.sc.mem a).next = (w.sc.mem a).next := by
  obtain ⟨-, -, ⟨-, -, rfl⟩ | ⟨-, reg, sc, first, v, hfree, hfirst, rfl, hends⟩⟩ :=
    scImportProtNone_cases h
  · rfl
  have L₀ : Lists fp { w.sc with lock := true } l f := L.congr rfl rfl rfl rfl fun _ _ => rfl
  have hnext := scGetFreeRegion_next hfree (L₀.free_ne hf)
  obtain ⟨reg', f', hreg, rfl, T⟩ := L₀.getFree hfree
  obtain rfl := Option.some.inj hreg
  have hne : a ≠ reg := fun h => hf (h ▸ List.mem_cons_self ..)
  have hne' : a ≠ first := fun h =>
    hl (h ▸ List.mem_of_head? (T.lists.active.head?_eq.trans hfirst))
  have hsc : ∀ r : ScRegion, ((((sc.setNext reg (sc.mem first).next).setNext first
      (some reg)).setRegion reg r).mem a).next = (w.sc.mem a).next := by
    intro r
    rw [mem_setRegion_of_ne _ hne, mem_setNext_of_ne _ hne', mem_setNext_of_ne _ hne]
    exact hnext
  rcases hends with ⟨-, -, rfl⟩ | ⟨-, -, -, rfl⟩
  · exact hsc _
  · exact hsc _

end Calls

section Table
variable {answers : Answers} {w w' : World} {s t : Sc} {l l' f f' v : List Addr} {reg : Addr}

theorem perm_append_taken : (l ++ [reg] ++ f).Perm (l ++ reg :: f) := by
  rw [List.append_assoc, List.singleton_append]

theorem perm_second_taken {first : Addr} :
    (first :: reg :: l ++ f).Perm (first :: l ++ reg :: f) :=
  List.perm_middle.symm.cons first

theorem Table.congr (T : Table fp s l f v) (L' : Lists fp t l' f')
    (hreserved : t.reservedRegions = s.reservedRegions)
    (hnext : ∀ a, a ∉ l → a ∉ f → (t.mem a).next = (s.mem a).next)
    (hsub : l' ++ f' ⊆ l ++ f) : Table fp t l' f' v := by
  refine ⟨L', T.reserved.congr hreserved fun a ha => ?_, fun a ha => ?_⟩
  · obtain ⟨hl, hf⟩ := T.apart a ha
    exact hnext a hl hf
  · obtain ⟨hl, hf⟩ := T.apart a ha
    have hout : a ∉ l' ++ f' := fun h => (List.mem_append.mp (hsub h)).elim hl hf
    rwa [List.mem_append, not_or] at hout

theorem Table.same (T : Table fp s l f v) (hact : t.activeRegions = s.activeRegions)
    (htail : t.activeRegionsTail = s.activeRegionsTail) (hfree : t.freeStructs = s.freeStructs)
    (hres : t.reservedRegions = s.reservedRegions) (hmem : t.mem = s.mem) : Table fp t l f v := by
  have hnext : ∀ a, (t.mem a).next = (s.mem a).next := fun a => by rw [hmem]
  exact T.congr (T.lists.congr hact htail hfree hres fun a _ => hnext a) hres
    (fun a _ _ => hnext a) (List.Subset.refl _)

theorem Table.untouched (T : Table fp w.sc l f v) (h : Untouched w w') : Table fp w'.sc l f v :=
  T.congr (h.lists T.lists) h.reserved (fun a _ _ => by rw [h.mem]) (List.Subset.refl _)

theorem Table.mmap {addr length prot : Nat} {fd offset : Int} {r : Option Nat}
    (T : Table fp w.sc l f v) (h : scMmap fp answers w addr length prot fd offset = .ok (r, w')) :
    (r = none ∧ Untouched w w') ∨ (length % pg.bytes = 0 ∧ ∃ reg rsv f' v', f = reg :: f' ∧
      v = rsv :: v' ∧ Mmapped fp w w' reg rsv length prot ∧ Table fp w'.sc (l ++ [reg]) f' v) := by
  rcases scMmap_spec T.lists h with hun | ⟨-, hdvd, reg, rsv, f', -, rfl, M, L'⟩
  · exact .inl hun
  have hhead : v.head? = some rsv := T.reserved.head?_eq.trans M.carved.reserved
  obtain ⟨v', rfl⟩ := List.head?_eq_some_iff.mp hhead
  refine .inr ⟨hdvd, reg, rsv, f', v', rfl, rfl, M, T.congr L'
    (M.carved.reserved'.trans M.carved.reserved.symm) (fun a hl hf => scMmap_next T.lists h hl hf)
    perm_append_taken.subset⟩

theorem Table.importFile {fuel addr len prot : Nat} {r : Int} (T : Table fp w.sc l f v)
    (h : scImport fp answers fuel w addr len prot = .ok (r, w')) :
    (r ≠ 0 ∧ Untouched w w' ∧ w'.sc.tmpfileSize = w.sc.tmpfileSize) ∨
      (len % pg.bytes = 0 ∧ prot &&& protRead ≠ 0 ∧ ∃ reg f', f = reg :: f' ∧
        Imported w.sc w'.sc reg addr len prot ∧
        (∀ a ∈ l, ¬ overlaps (w.sc.mem a).toExtent addr len) ∧ Table fp w'.sc (l ++ [reg]) f' v) := by
  rcases scImport_spec T.lists h with hun | ⟨reg, f', rfl, M, L', -, hlen, hprot, hnodup, -⟩
  · exact .inl hun
  refine .inr ⟨hlen, hprot, reg, f', rfl, M, hnodup, T.congr L' M.reserved
    (fun a hl hf => scImport_next T.lists h hl hf) perm_append_taken.subset⟩

theorem Table.importProtNone {addr len : Nat} {r : Int} (T : Table fp w.sc l f v)
    (htwo : 2 ≤ l.length) (h : scImportProtNone fp answers w addr len = .ok (r, w')) :
    (r ≠ 0 ∧ Untouched w w' ∧ w'.sc.tmpfileSize = w.sc.tmpfileSize) ∨
      ∃ first reg rest f', l = first :: rest ∧ f = reg :: f' ∧ Hidden fp w w' r reg addr len ∧
        Table fp w'.sc (first :: reg :: rest) f' v := by
  rcases scImportProtNone_spec T.lists htwo h with
    hun | ⟨first, reg, rest, f', rfl, rfl, -, -, H, L'⟩
  · exact .inl hun
  refine .inr ⟨first, reg, rest, f', rfl, rfl, H, T.congr L' H.reserved
    (fun a hl hf => scImportProtNone_next T.lists h hl hf) perm_second_taken.subset⟩

theorem Table.step {c : Call} (T : Table fp w.sc l f v) (htwo : 2 ≤ l.length)
    (h : Returns fp w c w') : ∃ l' f', Table fp w'.sc l' f' v ∧ l.Sublist l' ∧
      (l' ++ f').Perm (l ++ f) := by
  obtain ⟨success, h⟩ := h
  cases c with
  | mmap =>
    obtain ⟨retval, hcall, -⟩ := Call.mmap_eq_ok h
    rcases T.mmap hcall with ⟨-, hun⟩ | ⟨-, reg, rsv, f', v', rfl, rfl, -, T'⟩
    · exact ⟨l, f, T.untouched hun, List.Sublist.refl l, List.Perm.refl _⟩
    · exact ⟨l ++ [reg], f', T', List.sublist_append_left l _, perm_append_taken⟩
  | importFile =>
    obtain ⟨rc, hcall, -⟩ := Call.importFile_eq_ok h
    rcases T.importFile hcall with ⟨-, hun, -⟩ | ⟨-, -, reg, f', rfl, -, -, T'⟩
    · exact ⟨l, f, T.untouched hun, List.Sublist.refl l, List.Perm.refl _⟩
    · exact ⟨l ++ [reg], f', T', List.sublist_append_left l _, perm_append_taken⟩
  | importProtNone =>
    obtain ⟨rc, hcall, -⟩ := Call.importProtNone_eq_ok h
    rcases T.importProtNone htwo hcall with ⟨-, hun, -⟩ | ⟨first, reg, rest, f', rfl, rfl, -, T'⟩
    · exact ⟨l, f, T.untouched hun, List.Sublist.refl l, List.Perm.refl _⟩
    · exact ⟨first :: reg :: rest, f', T', (List.sublist_cons_self reg rest).cons_cons first,
        perm_second_taken⟩

end Table

section Started
variable {w : World}

/-- What the root struct has before the first `sc_mmap` of `sc_init`, and what `sc_mmap` and the
registration of the process keep, it has after `sc_init`. -/
theorem Started.induct {P : World → Prop} (h : Started fp w)
    (hinit : ∀ area w₀, Ranges fp area → P (initWorld fp area w₀))
    (hmmap : ∀ answers w length v w', P w →
      scMmap fp answers w 0 length (protRead ||| protWrite) (-1) 0 = .ok (some v, w') → P w')
    (hregistered : ∀ w, P w → P w.registered) : P w := by
  obtain ⟨answers, fuel, w₀, hranges, hscInit⟩ := h
  obtain ⟨area, w₁, len, v, harea, hmap, hlast⟩ := scInit_spec hscInit
  have h₁ := hmmap _ _ _ _ _ (hinit area w₀ (hranges area harea)) hmap
  rcases hlast with rfl | ⟨len', v', hmap'⟩
  · exact hregistered _ h₁
  · exact hmmap _ _ _ _ _ (hregistered _ h₁) hmap'

theorem initRoot_table {area : Nat} {mem : Addr → ScRegion} :
    Table fp (initRoot fp area mem) [fp.regions 0] (freeRegions fp) [fp.regions 1] := by
  have hres : (initRoot fp area mem).reservedRegions = some (fp.regions 1) :=
    reservedRegions_initRoot
  refine ⟨initRoot_lists, ⟨hres, next_initRoot_of_lt (by decide)⟩, fun a ha => ?_⟩
  obtain rfl := List.mem_singleton.mp ha
  exact initRoot_lists.reserved _ hres

theorem Table.registered {l f v : List Addr} (T : Table fp w.sc l f v) :
    Table fp w.registered.sc l f v :=
  T.same rfl rfl rfl rfl rfl

theorem Started.two_le (h : Started fp w) {l f v : List Addr} (T : Table fp w.sc l f v) :
    2 ≤ l.length := by
  obtain ⟨l', f', I, htwo⟩ := h.intact
  exact T.lists.active.unique I.lists.active ▸ htwo

end Started
end Subcontexts.Region
