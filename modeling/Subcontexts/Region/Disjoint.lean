import Subcontexts.Lib.Ranges
import Subcontexts.Region.Reserved

/-! No address belongs to two regions, active or reserved. `sc_import` looks for a duplicate among
the active regions only, `sc_import_protNone` does not look at all. -/

namespace Subcontexts.Region
variable {pg : PageSize} {fp : FirstPage pg}

def Extent.range (e : Extent) : Set Nat := Set.Ico e.vaddr (e.vaddr + e.len)

structure Separate (s : Sc) (regions : Set Addr) : Prop where
  addresses : ∀ a ∈ regions, (s.extent a).vaddr + (s.extent a).len < 2 ^ 64
  disjoint : regions.PairwiseDisjoint fun a => (s.extent a).range

def onLists (l v : List Addr) : Set Addr := {a | a ∈ l ∨ a ∈ v}

def Call.range : Call → Set Nat
  | .mmap .. => ∅
  | .importFile _ _ addr len _ => Set.Ico addr (addr + len)
  | .importProtNone _ addr len => Set.Ico addr (addr + len)

/-- The addresses of the call exist. -/
def Call.Unwrapped : Call → Prop
  | .mmap .. => True
  | .importFile _ _ addr len _ => addr + len < 2 ^ 64
  | .importProtNone _ addr len => addr + len < 2 ^ 64

/-- An import meets no region that it does not look at. -/
def Clears (s : Sc) : Call → Prop
  | .mmap .. => True
  | .importFile _ _ addr len _ =>
    (∀ l, (s.links s.activeRegions).Holds l → ∀ a ∈ l, ¬ overlaps (s.extent a) addr len) →
      ∀ v, (s.links s.reservedRegions).Holds v →
        ∀ a ∈ v, Disjoint (s.extent a).range (Set.Ico addr (addr + len))
  | .importProtNone _ addr len =>
    ∀ l v, (s.links s.activeRegions).Holds l → (s.links s.reservedRegions).Holds v →
      ∀ a ∈ onLists l v, Disjoint (s.extent a).range (Set.Ico addr (addr + len))

section Separate
variable {s t : Sc} {regions : Set Addr} {reg rsv : Addr}

theorem Separate.congr (S : Separate s regions) (hext : ∀ a ∈ regions, t.extent a = s.extent a) :
    Separate t regions :=
  ⟨fun a ha => hext a ha ▸ S.addresses a ha, S.disjoint.mono_on fun a ha => by
    simp only [hext a ha]
    exact Set.Subset.rfl⟩

theorem Separate.add (S : Separate s regions) (hreg : reg ∉ regions)
    (hext : ∀ a ∈ regions, t.extent a = s.extent a)
    (haddr : (t.extent reg).vaddr + (t.extent reg).len < 2 ^ 64)
    (hdis : ∀ a ∈ regions, Disjoint (s.extent a).range (t.extent reg).range) :
    Separate t (insert reg regions) := by
  refine ⟨fun a ha => ?_, S.disjoint.insert_of_disjoint hreg (fun a ha => ?_) fun a ha => ?_⟩
  · rcases ha with rfl | ha
    · exact haddr
    · exact hext a ha ▸ S.addresses a ha
  · simp only [hext a ha]
    exact Set.Subset.rfl
  · simp only [hext a ha]
    exact (hdis a ha).symm

theorem Separate.carved {length prot : Nat} (S : Separate s regions)
    (C : Carved s t reg rsv length prot) (hreg : reg ∉ regions) (hrsv : rsv ∈ regions) :
    Separate t (insert reg regions) := by
  have hfits : length < (s.extent rsv).len := C.fits
  have hbound := S.addresses rsv hrsv
  have hnew : t.extent reg = ⟨(s.extent rsv).vaddr, length, prot % 256,
    sub64 t.tmpfileSize length⟩ := C.region
  have hrest : t.extent rsv = { s.extent rsv with
      vaddr := (s.extent rsv).vaddr + length, len := (s.extent rsv).len - length } := by
    have h : t.extent rsv = { s.extent rsv with
      vaddr := u64 ((s.extent rsv).vaddr + length), len := (s.extent rsv).len - length } := C.rest
    rw [h, u64_of_lt (by omega)]
  have hothers : ∀ a ∈ regions, a ≠ rsv → t.extent a = s.extent a := fun a ha hne =>
    C.others a (fun h => hreg (h ▸ ha)) hne
  refine ⟨fun a ha => ?_, S.disjoint.insert_of_cut hreg hrsv (fun a ha hne => ?_) ?_ ?_ ?_⟩
  · rcases ha with rfl | ha
    · rw [hnew]
      dsimp only
      omega
    · by_cases hne : a = rsv
      · rw [hne, hrest]
        dsimp only
        omega
      · exact hothers a ha hne ▸ S.addresses a ha
  · simp only [hothers a ha hne]
  · simp only [hrest, Extent.range]
    exact Set.Ico_subset_Ico (by omega) (by omega)
  · simp only [hnew, Extent.range]
    exact Set.Ico_subset_Ico (Nat.le_refl _) (by omega)
  · simp only [hnew, hrest, Extent.range]
    exact Set.disjoint_Ico_of_le (.inl (Nat.le_refl _))

end Separate

section Steps
variable {w w' : World} {l f v : List Addr} {reg first : Addr} {rest : List Addr}

theorem onLists_concat : onLists (l ++ [reg]) v = insert reg (onLists l v) := by
  ext a
  simp only [onLists, Set.mem_ofPred_eq, Set.mem_insert_iff, List.mem_append, List.mem_singleton]
  rw [or_comm (a := a ∈ l), or_assoc]

theorem onLists_second : onLists (first :: reg :: rest) v = insert reg (onLists (first :: rest) v) := by
  ext a
  simp only [onLists, Set.mem_ofPred_eq, Set.mem_insert_iff, List.mem_cons]
  rw [or_left_comm, or_assoc]

theorem Table.free_notMem {f' : List Addr} (T : Table fp w.sc l (reg :: f') v) :
    reg ∉ onLists l v := by
  rintro (h | h)
  · exact T.lists.free_notMem h
  · exact (T.apart reg h).2 (List.mem_cons_self ..)

theorem disjoint_of_not_overlaps {e : Extent} {addr len : Nat} (he : e.vaddr + e.len < 2 ^ 64)
    (haddr : addr + len < 2 ^ 64) (h : ¬ overlaps e addr len) :
    Disjoint e.range (Set.Ico addr (addr + len)) := by
  unfold overlaps at h
  rw [u64_of_lt he, u64_of_lt haddr] at h
  exact Set.disjoint_Ico_of_le (by omega)

theorem Separate.clear_import {addr len prot fuel : Nat} {answers : Answers}
    (S : Separate w.sc (onLists l v)) (T : Table fp w.sc l f v) (haddr : addr + len < 2 ^ 64)
    (hclears : Clears w.sc (.importFile answers fuel addr len prot))
    (hnodup : ∀ a ∈ l, ¬ overlaps (w.sc.extent a) addr len) {a : Addr} (ha : a ∈ onLists l v) :
    Disjoint (w.sc.extent a).range (Set.Ico addr (addr + len)) := by
  rcases ha with ha | ha
  · exact disjoint_of_not_overlaps (S.addresses a (.inl ha)) haddr (hnodup a ha)
  · refine hclears (fun l' hl' b hb => ?_) v T.reserved a ha
    rw [T.lists.active.unique hl'] at hnodup
    exact hnodup b hb

theorem Separate.step {c : Call} (S : Separate w.sc (onLists l v)) (T : Table fp w.sc l f v)
    (htwo : 2 ≤ l.length) (haddr : c.Unwrapped) (hclears : Clears w.sc c) (h : Returns fp w c w') :
    ∃ l' f', Table fp w'.sc l' f' v ∧ 2 ≤ l'.length ∧ Separate w'.sc (onLists l' v) := by
  obtain ⟨success, h⟩ := h
  cases c with
  | mmap =>
    obtain ⟨retval, hcall, -⟩ := Call.mmap_eq_ok h
    rcases T.mmap hcall with ⟨-, hun⟩ | ⟨-, reg, rsv, f', v', rfl, rfl, M, T'⟩
    · exact ⟨l, f, T.untouched hun, htwo, S.congr fun a _ => congrFun hun.extent a⟩
    · refine ⟨l ++ [reg], f', T', ?_, ?_⟩
      · rw [List.length_append]
        exact Nat.le_add_right_of_le htwo
      · -- the new region is the front of a reserved one, which keeps the rest
        rw [onLists_concat]
        exact S.carved M.carved T.free_notMem (.inr (List.mem_cons_self ..))
  | importFile answers fuel addr len prot =>
    obtain ⟨rc, hcall, -⟩ := Call.importFile_eq_ok h
    rcases T.importFile hcall with ⟨-, hun, -⟩ | ⟨-, -, reg, f', rfl, I, hnodup, T'⟩
    · exact ⟨l, f, T.untouched hun, htwo, S.congr fun a _ => congrFun hun.extent a⟩
    · have hreg := T.free_notMem
      have hnew : w'.sc.extent reg = ⟨addr, len, prot, w.sc.tmpfileSize⟩ := I.region
      refine ⟨l ++ [reg], f', T', ?_, ?_⟩
      · rw [List.length_append]
        exact Nat.le_add_right_of_le htwo
      · rw [onLists_concat]
        refine S.add hreg (fun a ha => I.others a fun h => hreg (h ▸ ha)) ?_ fun a ha => ?_
        · rw [hnew]
          exact haddr
        · rw [hnew]
          exact S.clear_import T haddr hclears hnodup ha
  | importProtNone answers addr len =>
    obtain ⟨rc, hcall, -⟩ := Call.importProtNone_eq_ok h
    rcases T.importProtNone htwo hcall with ⟨-, hun, -⟩ | ⟨first, reg, rest, f', rfl, rfl, H, T'⟩
    · exact ⟨l, f, T.untouched hun, htwo, S.congr fun a _ => congrFun hun.extent a⟩
    · have hreg := T.free_notMem
      have hnew : w'.sc.extent reg = ⟨addr, len, protNone, noOffset⟩ := H.region
      refine ⟨first :: reg :: rest, f', T', Nat.le_succ_of_le htwo, ?_⟩
      rw [onLists_second]
      refine S.add hreg (fun a ha => H.others a fun h => hreg (h ▸ ha)) ?_ fun a ha => ?_
      · rw [hnew]
        exact haddr
      · rw [hnew]
        exact hclears _ v T.lists.active T.reserved a ha

theorem Separate.succeeds {c : Call} (S : Separate w.sc (onLists l v)) (T : Table fp w.sc l f v)
    (haddr : c.Unwrapped) (hclears : Clears w.sc c) (h : c.run fp w = .ok (true, w')) {a : Addr}
    (ha : a ∈ onLists l v) : Disjoint (w.sc.extent a).range c.range := by
  cases c with
  | mmap => exact Set.disjoint_empty _
  | importFile answers fuel addr len prot =>
    obtain ⟨rc, hcall, hrc⟩ := Call.importFile_eq_ok h
    rcases T.importFile hcall with ⟨hne, -⟩ | ⟨-, -, reg, f', -, -, hnodup, -⟩
    · exact absurd (hrc rfl) hne
    · exact S.clear_import T haddr hclears hnodup ha
  | importProtNone answers addr len => exact hclears l v T.lists.active T.reserved a ha

def Overlapping (s : Sc) : Prop :=
  ∃ l v, (s.links s.activeRegions).Holds l ∧ (s.links s.reservedRegions).Holds v ∧
    ¬ (onLists l v).PairwiseDisjoint fun a => (s.extent a).range

theorem Table.overlapping {s : Sc} {addr len : Nat} {a : Addr} {l' : List Addr}
    (T : Table fp w'.sc l' f v) (hl' : onLists l' v = insert reg (onLists l v))
    (hreg : reg ∉ onLists l v) (hnew : (w'.sc.extent reg).range = Set.Ico addr (addr + len))
    (hold : w'.sc.extent a = s.extent a) (ha : a ∈ onLists l v)
    (hmeet : ¬ Disjoint (s.extent a).range (Set.Ico addr (addr + len))) : Overlapping w'.sc := by
  refine ⟨l', v, T.lists.active, T.reserved, fun hdis => hmeet ?_⟩
  rw [hl'] at hdis
  have hne : a ≠ reg := fun h => hreg (h ▸ ha)
  have h : Disjoint (w'.sc.extent a).range (w'.sc.extent reg).range :=
    hdis (.inr ha) (.inl rfl) hne
  rwa [hnew, hold] at h

theorem Table.spoils {c : Call} (T : Table fp w.sc l f v) (htwo : 2 ≤ l.length)
    (hclears : ¬ Clears w.sc c) (h : c.run fp w = .ok (true, w')) : Overlapping w'.sc := by
  have hreserved : ∀ v', (w.sc.links w.sc.reservedRegions).Holds v' → v' = v := fun v' hv' =>
    hv'.unique T.reserved
  cases c with
  | mmap => exact absurd trivial hclears
  | importFile answers fuel addr len prot =>
    obtain ⟨rc, hcall, hrc⟩ := Call.importFile_eq_ok h
    rcases T.importFile hcall with ⟨hne, -⟩ | ⟨-, -, reg, f', rfl, I, -, T'⟩
    · exact absurd (hrc rfl) hne
    simp only [Clears, not_forall] at hclears
    obtain ⟨-, v', hv', a, ha, hmeet⟩ := hclears
    obtain rfl := hreserved v' hv'
    have hreg := T.free_notMem
    have hnew : w'.sc.extent reg = ⟨addr, len, prot, w.sc.tmpfileSize⟩ := I.region
    exact T'.overlapping onLists_concat hreg (congrArg Extent.range hnew)
      (I.others a fun h => hreg (h ▸ .inr ha)) (.inr ha) hmeet
  | importProtNone answers addr len =>
    obtain ⟨rc, hcall, hrc⟩ := Call.importProtNone_eq_ok h
    rcases T.importProtNone htwo hcall with ⟨hne, -⟩ | ⟨first, reg, rest, f', rfl, rfl, H, T'⟩
    · exact absurd (hrc rfl) hne
    simp only [Clears, not_forall] at hclears
    obtain ⟨l', v', hl', hv', a, ha, hmeet⟩ := hclears
    obtain rfl := hreserved v' hv'
    obtain rfl := hl'.unique T.lists.active
    have hreg := T.free_notMem
    have hnew : w'.sc.extent reg = ⟨addr, len, protNone, noOffset⟩ := H.region
    exact T'.overlapping onLists_second hreg (congrArg Extent.range hnew)
      (H.others a fun h => hreg (h ▸ ha)) ha hmeet

end Steps

section Main

theorem initRoot_separate {area : Nat} {mem : Addr → ScRegion} (R : Ranges fp area) :
    Separate (initRoot fp area mem) (onLists [fp.regions 0] [fp.regions 1]) := by
  have h0 : (initRoot fp area mem).extent (fp.regions 0) = _ := extent_initRoot_first
  have h1 : (initRoot fp area mem).extent (fp.regions 1) = _ := extent_initRoot_reserved
  have hdis : Disjoint ((initRoot fp area mem).extent (fp.regions 0)).range
      ((initRoot fp area mem).extent (fp.regions 1)).range := by
    rw [h0, h1]
    exact Set.disjoint_Ico_of_le R.apart
  refine ⟨?_, ?_⟩
  · rintro a (ha | ha)
    · rw [List.mem_singleton.mp ha, h0]
      exact fp.below
    · rw [List.mem_singleton.mp ha, h1]
      exact R.reserved
  · rintro a (ha | ha) b (hb | hb) hne <;> rw [List.mem_singleton] at ha hb <;> subst ha hb
    · exact absurd rfl hne
    · exact hdis
    · exact hdis.symm
    · exact absurd rfl hne

theorem Started.separate {w : World} (h : Started fp w) :
    ∃ l f v, Table fp w.sc l f v ∧ 2 ≤ l.length ∧ Separate w.sc (onLists l v) := by
  have hsep : ∃ l f v, Table fp w.sc l f v ∧ Separate w.sc (onLists l v) := by
    refine Started.induct
      (P := fun w => ∃ l f v, Table fp w.sc l f v ∧ Separate w.sc (onLists l v)) h
      (fun area w₀ R => ⟨_, _, _, initRoot_table, initRoot_separate R⟩) ?_
      fun w ⟨l, f, v, T, S⟩ => ⟨l, f, v, T.registered, S.congr fun _ _ => rfl⟩
    rintro answers w length r w' ⟨l, f, v, T, S⟩ hcall
    rcases T.mmap hcall with ⟨hr, -⟩ | ⟨-, reg, rsv, f', v', rfl, rfl, M, T'⟩
    · cases hr
    · refine ⟨l ++ [reg], f', rsv :: v', T', ?_⟩
      rw [onLists_concat]
      exact S.carved M.carved T.free_notMem (.inr (List.mem_cons_self ..))
  obtain ⟨l, f, v, T, S⟩ := hsep
  exact ⟨l, f, v, T, h.two_le T, S⟩

theorem regions_disjoint {w : World} (h : Trans.Reach (Started fp)
      (Trans.Guarded (fun w c => c.Unwrapped ∧ Clears w.sc c) (Returns fp)) w) :
    ∃ l v, (w.sc.links w.sc.activeRegions).Holds l ∧
      (w.sc.links w.sc.reservedRegions).Holds v ∧ (∀ a ∈ v, a ∉ l) ∧
      (onLists l v).PairwiseDisjoint (fun a => (w.sc.extent a).range) ∧
      (∀ c w', c.Unwrapped → Clears w.sc c → c.run fp w = .ok (true, w') →
        ∀ a ∈ onLists l v, Disjoint (w.sc.extent a).range c.range) ∧
      ∀ c w', ¬ Clears w.sc c → c.run fp w = .ok (true, w') → Overlapping w'.sc := by
  have hinv : ∃ l f v, Table fp w.sc l f v ∧ 2 ≤ l.length ∧ Separate w.sc (onLists l v) := by
    refine h.inv (fun w h => h.separate) fun w c w' ⟨l, f, v, T, htwo, S⟩ hst => ?_
    obtain ⟨⟨haddr, hclears⟩, hret⟩ := hst
    obtain ⟨l', f', T', htwo', S'⟩ := S.step T htwo haddr hclears hret
    exact ⟨l', f', v, T', htwo', S'⟩
  obtain ⟨l, f, v, T, htwo, S⟩ := hinv
  exact ⟨l, v, T.lists.active, T.reserved, fun a ha => (T.apart a ha).1, S.disjoint,
    fun c w' haddr hclears hrun a ha => S.succeeds T haddr hclears hrun ha,
    fun c w' hclears hrun => T.spoils htwo hclears hrun⟩

end Main

section Run

/-- Two pages from `sc_mmap`, then a range beside all regions without access. -/
theorem regions_disjoint_hidden : ∃ w, Trans.Reach (Started firstPage4096)
    (Trans.Guarded (fun w c => c.Unwrapped ∧ Clears w.sc c) (Returns firstPage4096)) w ∧
      ∃ l v, (w.sc.links w.sc.activeRegions).Holds l ∧ l.length = 4 ∧
        (w.sc.links w.sc.reservedRegions).Holds v ∧
        (onLists l v).PairwiseDisjoint fun a => (w.sc.extent a).range := by
  obtain ⟨w₀, hinit, w₁, hmmap, w₂, hhide, hl₁, hv₁, hholds, h₀, h₁, h₂, h₃⟩ :
      ∃ w₀, scInit firstPage4096 initAnswers 10 emptyWorld = .ok (some w₀) ∧
        ∃ w₁, (Call.mmap granted 0 0x2000 3 (-1) 0).run firstPage4096 w₀ = .ok (true, w₁) ∧
        ∃ w₂, (Call.importProtNone granted 0x400000 0x1000).run firstPage4096 w₁ =
          .ok (true, w₂) ∧
        (w₁.sc.links w₁.sc.activeRegions).Holds [firstPage4096.regions 0,
          firstPage4096.regions 2, firstPage4096.regions 3] ∧
        (w₁.sc.links w₁.sc.reservedRegions).Holds [firstPage4096.regions 1] ∧
        (w₂.sc.links w₂.sc.activeRegions).Holds [firstPage4096.regions 0,
          firstPage4096.regions 4, firstPage4096.regions 2, firstPage4096.regions 3] ∧
        w₁.sc.extent (firstPage4096.regions 0) = ⟨0x10000, 0x1000, 3, 0⟩ ∧
        w₁.sc.extent (firstPage4096.regions 1) = ⟨0x103000, 0xFD000, 0, noOffset⟩ ∧
        w₁.sc.extent (firstPage4096.regions 2) = ⟨0x100000, 0x1000, 3, 0x1000⟩ ∧
        w₁.sc.extent (firstPage4096.regions 3) = ⟨0x101000, 0x2000, 3, 0x2000⟩ :=
    ⟨_, rfl, _, rfl, _, rfl, ⟨rfl, rfl, rfl, rfl⟩, ⟨rfl, rfl⟩, ⟨rfl, rfl, rfl, rfl, rfl⟩,
      rfl, rfl, rfl, rfl⟩
  have hclears : Clears w₁.sc (.importProtNone granted 0x400000 0x1000) := by
    intro l v hl hv a ha
    rw [hl.unique hl₁, hv.unique hv₁] at ha
    simp only [onLists, Set.mem_ofPred_eq, List.mem_cons, List.not_mem_nil, or_false] at ha
    rcases ha with (rfl | rfl | rfl) | rfl
    · rw [h₀]
      exact Set.disjoint_Ico_of_le (.inl (by decide))
    · rw [h₂]
      exact Set.disjoint_Ico_of_le (.inl (by decide))
    · rw [h₃]
      exact Set.disjoint_Ico_of_le (.inl (by decide))
    · rw [h₁]
      exact Set.disjoint_Ico_of_le (.inl (by decide))
  have hun : (Call.importProtNone granted 0x400000 0x1000).Unwrapped := by
    show 0x400000 + 0x1000 < 2 ^ 64
    decide
  have hr₀ : Trans.Reach (Started firstPage4096)
      (Trans.Guarded (fun w c => c.Unwrapped ∧ Clears w.sc c) (Returns firstPage4096)) w₀ :=
    .init ⟨initAnswers, 10, emptyWorld, initAnswers_promise, hinit⟩
  have hr₁ := hr₀.step (l := Call.mmap granted 0 0x2000 3 (-1) 0) ⟨⟨trivial, trivial⟩, true, hmmap⟩
  have hr₂ := hr₁.step ⟨⟨hun, hclears⟩, true, hhide⟩
  obtain ⟨l, v, hl, hv, -, hdis, -⟩ := regions_disjoint hr₂
  exact ⟨w₂, hr₂, l, v, hl, congrArg List.length (hl.unique hholds), hv, hdis⟩

/-- The pages that the first `sc_malloc` has mapped, imported again without access. -/
theorem import_protNone_overlaps : ∃ w, Trans.Reach (Started firstPage4096)
    (Trans.Guarded (fun _ c => c.Unwrapped) (Returns firstPage4096)) w ∧
      ∃ l, (w.sc.links w.sc.activeRegions).Holds l ∧
        ¬ {a | a ∈ l}.PairwiseDisjoint fun a => (w.sc.extent a).range := by
  obtain ⟨w₀, hinit, w₁, hhide, hholds, h₂, h₃⟩ :
      ∃ w₀, scInit firstPage4096 initAnswers 10 emptyWorld = .ok (some w₀) ∧
        ∃ w₁, (Call.importProtNone granted 0x100000 0x1000).run firstPage4096 w₀ =
          .ok (true, w₁) ∧
        (w₁.sc.links w₁.sc.activeRegions).Holds [firstPage4096.regions 0,
          firstPage4096.regions 3, firstPage4096.regions 2] ∧
        w₁.sc.extent (firstPage4096.regions 2) = ⟨0x100000, 0x1000, 3, 0x1000⟩ ∧
        w₁.sc.extent (firstPage4096.regions 3) = ⟨0x100000, 0x1000, 0, noOffset⟩ :=
    ⟨_, rfl, _, rfl, ⟨rfl, rfl, rfl, rfl⟩, rfl, rfl⟩
  have h₀ : Trans.Reach (Started firstPage4096)
      (Trans.Guarded (fun _ c => c.Unwrapped) (Returns firstPage4096)) w₀ :=
    .init ⟨initAnswers, 10, emptyWorld, initAnswers_promise, hinit⟩
  have hun : (Call.importProtNone granted 0x100000 0x1000).Unwrapped := by
    show 0x100000 + 0x1000 < 2 ^ 64
    decide
  refine ⟨w₁, h₀.step ⟨hun, true, hhide⟩, _, hholds, fun hdis => ?_⟩
  have hne : firstPage4096.regions 2 ≠ firstPage4096.regions 3 := by decide
  have hmem : Disjoint (w₁.sc.extent _).range (w₁.sc.extent _).range :=
    hdis (show firstPage4096.regions 2 ∈ _ by simp) (show firstPage4096.regions 3 ∈ _ by simp) hne
  rw [h₂, h₃] at hmem
  exact Set.disjoint_left.mp hmem (show 0x100000 ∈ Set.Ico _ _ from ⟨by decide, by decide⟩)
    ⟨by decide, by decide⟩

end Run
end Subcontexts.Region
