import Subcontexts.Region.Files

/-! What a process reads through its own address space: every path by which a process maps a region,
the walk of `sc_join`, the page-fault handler and `sc_import`, gives an address the byte of the file
that the region says. -/

namespace Subcontexts.Region
variable {pg : PageSize}

def Extent.vma (e : Extent) : Vma Backing := ⟨e.vaddr, e.len, .file e.prot e.tmpfileOffset⟩

def Maps (space : Space) (e : Extent) : Prop :=
  ∀ x o, Backs e x o → ∃ offset k, space.cell x = some (.file e.prot offset, k) ∧ offset + k = o

def Shows (space : Space) (e : Extent) : Prop :=
  ∀ x o, Backs e x o → (x ≠ 0 ∧ ∃ k, space.cell x = some (.noAccess, k)) ∨
    ∃ offset k, space.cell x = some (.file e.prot offset, k) ∧ offset + k = o

structure View (s : Sc) (l : List Addr) (rsv : Addr) (space : Space) : Prop where
  active : ∀ a ∈ l, Shows space (s.extent a)
  reserved : Held space (s.extent rsv)

section Walk
variable {fp : FirstPage pg} {s : Sc} {l f : List Addr}

theorem segvWalk_spec {mem : Addr → ScRegion} {cur : Option Addr} {fuel : Nat} (vaddr : Nat)
    (hl : Seg (fun a => (mem a).next) cur l none) (hfuel : l.length < fuel) :
    ∃ visited found, segvWalk mem vaddr fuel cur = .ok (visited, found) ∧
      (∀ a ∈ visited, a ∈ l) ∧ (∀ a, found = some a → a ∈ l ∧ holds (mem a).toExtent vaddr) ∧
      (found = none → ∀ a ∈ l, ¬ holds (mem a).toExtent vaddr) := by
  induction l generalizing cur fuel with
  | nil =>
    obtain ⟨fuel, rfl⟩ := Nat.exists_eq_succ_of_ne_zero (Nat.ne_of_gt hfuel)
    obtain rfl := hl
    exact ⟨[], none, rfl, nofun, nofun, nofun⟩
  | cons b rest ih =>
    obtain ⟨rfl, hrest⟩ := hl
    obtain ⟨fuel, rfl⟩ := Nat.exists_eq_succ_of_ne_zero (Nat.ne_of_gt (Nat.zero_lt_of_lt hfuel))
    by_cases hb : holds (mem b).toExtent vaddr
    · refine ⟨[b], some b, if_pos hb, fun a ha => ?_, fun a ha => ?_, nofun⟩
      · exact List.mem_singleton.mp ha ▸ List.mem_cons_self ..
      · obtain rfl := Option.some.inj ha
        exact ⟨List.mem_cons_self .., hb⟩
    · obtain ⟨visited, found, hwalk, hvisited, hfound, hnone⟩ :=
        ih hrest (Nat.lt_of_succ_lt_succ hfuel)
      refine ⟨b :: visited, found, ?_, fun a ha => ?_, fun a ha => ?_, fun h a ha => ?_⟩
      · rw [segvWalk, if_neg hb, hwalk]
        rfl
      · rcases List.mem_cons.mp ha with rfl | ha
        · exact List.mem_cons_self ..
        · exact List.mem_cons_of_mem _ (hvisited a ha)
      · exact ⟨List.mem_cons_of_mem _ (hfound a ha).1, (hfound a ha).2⟩
      · rcases List.mem_cons.mp ha with rfl | ha
        · exact hb
        · exact hnone h a ha

theorem Lists.length_le (L : Lists fp s l f) : l.length ≤ fp.regionsCount := by
  have hsub : l ⊆ (List.range fp.regionsCount).map fp.regions := fun a ha => by
    obtain ⟨i, hi, rfl⟩ := L.inPage a (.inl ha)
    exact List.mem_map.mpr ⟨i, List.mem_range.mpr hi, rfl⟩
  have hle := List.Nodup.length_le_of_subset L.nodup hsub
  rwa [List.length_map, List.length_range] at hle

end Walk

section Spaces
variable {s t : Sc} {l l' : List Addr} {reg rsv : Addr} {space space' : Space} {e : Extent}
  {v : Vma Backing}

theorem Maps.shows (h : Maps space e) : Shows space e := fun x o hx => .inr (h x o hx)

theorem Extends.maps (h : Extends space space') (he : Maps space e) : Maps space' e := by
  intro x o hx
  obtain ⟨offset, k, hcell, ho⟩ := he x o hx
  exact ⟨offset, k, h x _ hcell, ho⟩

theorem Maps.cons : Maps (e.vma :: space) e := by
  rintro x o ⟨-, hlo, hhi, rfl⟩
  exact ⟨e.tmpfileOffset, x - e.vaddr, AddressSpace.cell_cons_of_covers ⟨hlo, hhi⟩, rfl⟩

theorem Clear.cell (h : Clear e v.start v.len) {x : Nat} (hlo : e.vaddr ≤ x) (hhi : x < e.vaddr + e.len) :
    AddressSpace.cell (v :: space) x = space.cell x := by
  refine AddressSpace.cell_cons_of_not_covers ?_
  rintro ⟨hlo', hhi'⟩
  unfold Clear at h
  omega

theorem Shows.beside (h : Shows space e) (hv : Clear e v.start v.len) : Shows (v :: space) e := by
  intro x o hx
  rw [hv.cell hx.2.1 hx.2.2.1]
  exact h x o hx

theorem Held.beside (h : Held space e) (hv : Clear e v.start v.len) : Held (v :: space) e := by
  intro x hlo hhi
  rw [hv.cell hlo hhi]
  exact h x hlo hhi

theorem View.beside (V : View s l rsv space) (hv : ∀ a ∈ l, Clear (s.extent a) v.start v.len)
    (hrsv : Clear (s.extent rsv) v.start v.len) : View s l rsv (v :: space) :=
  ⟨fun a ha => (V.active a ha).beside (hv a ha), V.reserved.beside hrsv⟩

theorem View.add (V : View s l rsv space) (hmem : ∀ a, a ∈ l' ↔ a = reg ∨ a ∈ l)
    (hothers : ∀ a ∈ l, t.extent a = s.extent a) (hreg : Shows space (t.extent reg))
    (hlo : (s.extent rsv).vaddr ≤ (t.extent rsv).vaddr)
    (hhi : (t.extent rsv).vaddr + (t.extent rsv).len ≤
      (s.extent rsv).vaddr + (s.extent rsv).len) : View t l' rsv space := by
  refine ⟨fun a ha => ?_, V.reserved.part hlo hhi⟩
  rcases (hmem a).mp ha with rfl | ha
  · exact hreg
  · exact hothers a ha ▸ V.active a ha

end Spaces

section Fault
variable {fp : FirstPage pg} {s : Sc} {l f : List Addr} {rsv a : Addr} {space space' : Space}
  {x o : Nat}

theorem noOffset_not_aligned (pg : PageSize) : noOffset % pg.bytes ≠ 0 := by
  intro h
  have h8 : 8 ∣ noOffset := Nat.dvd_trans pg.dvd (Nat.dvd_of_mod_eq_zero h)
  exact absurd h8 (by decide)

theorem Files.holds_iff (F : Files fp s l rsv) (ha : a ∈ l) : holds (s.extent a) x ↔
    (s.extent a).vaddr ≤ x ∧ x < (s.extent a).vaddr + (s.extent a).len := by
  unfold holds
  rw [u64_of_lt (F.stored a ha).addresses]

theorem segvHandler_spec (L : Lists fp s l f) {granted isWrite isInstr : Bool} {vaddr : Nat}
    (h : segvHandler pg granted (fp.regionsCount + 1) s space vaddr isWrite isInstr =
      .ok space') :
    ∃ a ∈ l, FileBacked (s.extent a) ∧ holds (s.extent a) vaddr ∧
      space' = (s.extent a).vma :: space := by
  unfold segvHandler at h
  obtain ⟨-, -, h⟩ := bind_eq_ok.mp h
  obtain ⟨-, -, h⟩ := bind_eq_ok.mp h
  obtain ⟨visited, found, hwalk, -, hfound, -⟩ :=
    segvWalk_spec vaddr L.active (Nat.lt_succ_of_le L.length_le)
  have hwalk' : segvWalk s.mem vaddr (fp.regionsCount + 1) s.activeRegions =
      .ok (visited, found) := hwalk
  rw [hwalk'] at h
  cases found with
  | none => cases h
  | some a =>
    obtain ⟨ha, hholds⟩ := hfound a rfl
    dsimp only [ok_bind] at h
    obtain ⟨-, -, h⟩ := bind_eq_ok.mp h
    obtain ⟨-, -, h⟩ := bind_eq_ok.mp h
    obtain ⟨_, hrange, h⟩ := bind_eq_ok.mp h
    obtain ⟨-, haligned⟩ := Decidable.of_not_not (haltIf_eq_ok.mp hrange)
    refine ⟨a, ha, fun hoff => ?_, hholds, (Except.ok.inj h).symm⟩
    have hoff' : (s.mem a).tmpfileOffset = noOffset := hoff
    rw [hoff'] at haligned
    exact noOffset_not_aligned pg haligned

theorem segvHandler_read (L : Lists fp s l f) (F : Files fp s l rsv) (hlock : s.lock = false)
    (ha : a ∈ l) (hx : Backs (s.extent a) x o) (hpos : x ≠ 0) :
    segvHandler pg true (fp.regionsCount + 1) s space x false false =
      .ok ((s.extent a).vma :: space) := by
  obtain ⟨hback, hlo, hhi, -⟩ := hx
  have S := F.stored a ha
  obtain ⟨visited, found, hwalk, -, hfound, hnone⟩ :=
    segvWalk_spec x L.active (Nat.lt_succ_of_le L.length_le)
  have hwalk' : segvWalk s.mem x (fp.regionsCount + 1) s.activeRegions =
      .ok (visited, found) := hwalk
  have hrange : fileRange pg true (s.mem a).vaddr (s.mem a).len (s.mem a).tmpfileOffset :=
    ⟨⟨rfl, Nat.pos_of_ne_zero fun hlen => by unfold Sc.extent at hlo hhi; omega, S.addresses⟩,
      Nat.mod_eq_zero_of_dvd (S.aligned hback)⟩
  obtain rfl : found = some a := by
    cases found with
    | none => exact absurd ((F.holds_iff ha).mpr ⟨hlo, hhi⟩) (hnone rfl a ha)
    | some b =>
      obtain ⟨hb, hholds⟩ := hfound b rfl
      rw [F.region_unique hb ha ((F.holds_iff hb).mp hholds) ⟨hlo, hhi⟩]
  unfold segvHandler
  rw [haltIf_neg hpos, ok_bind, haltIf_neg (by rw [hlock]; decide), ok_bind, hwalk', ok_bind]
  dsimp only
  rw [check_pos (.inl rfl), ok_bind, haltIf_neg (by simp), ok_bind,
    haltIf_neg (not_not_intro hrange)]
  rfl

theorem View.fault (V : View s l rsv space) (F : Files fp s l rsv) (ha : a ∈ l) :
    View s l rsv ((s.extent a).vma :: space) := by
  refine ⟨fun b hb => ?_, V.reserved.beside (F.free a ha).symm⟩
  by_cases hba : b = a
  · subst hba
    exact Maps.cons.shows
  · exact (V.active b hb).beside (F.apart b hb a ha hba)

end Fault

section Read
variable {fp : FirstPage pg} {w : World} {l f : List Addr} {rsv a : Addr} {space : Space}
  {x o : Nat}

theorem load_file {file : Nat → Nat} {fileSize prot offset k : Nat}
    (hcell : space.cell x = some (.file prot offset, k)) (hread : prot &&& protRead ≠ 0)
    (hsize : offset + k < fileSize) :
    load pg file fileSize space x = some (file (offset + k)) := by
  unfold load
  rw [hcell]
  exact if_pos ⟨hread, Nat.lt_of_le_of_lt (Nat.div_mul_le_self _ _) hsize⟩

theorem load_noAccess {file : Nat → Nat} {fileSize k : Nat}
    (hcell : space.cell x = some (.noAccess, k)) : load pg file fileSize space x = none := by
  unfold load
  rw [hcell]

theorem Maps.load (F : Files fp w.sc l rsv) (hsize : w.fileSize = w.sc.tmpfileSize) (ha : a ∈ l)
    (hx : Backs (w.sc.extent a) x o) (hread : (w.sc.extent a).prot &&& protRead ≠ 0)
    (hmaps : Maps space (w.sc.extent a)) :
    load pg w.file w.fileSize space x = some (w.file o) := by
  obtain ⟨offset, k, hcell, rfl⟩ := hmaps x o hx
  exact load_file hcell hread (hsize ▸ F.backs_inside ha hx)

theorem View.read (V : View w.sc l rsv space) (L : Lists fp w.sc l f) (F : Files fp w.sc l rsv)
    (hlock : w.sc.lock = false) (hsize : w.fileSize = w.sc.tmpfileSize) (ha : a ∈ l)
    (hx : Backs (w.sc.extent a) x o) (hread : (w.sc.extent a).prot &&& protRead ≠ 0) :
    read fp w space x = some (w.file o) := by
  unfold Region.read
  rcases V.active a ha x o hx with ⟨hpos, k, hcell⟩ | ⟨offset, k, hcell, rfl⟩
  · rw [load_noAccess hcell, segvHandler_read L F hlock ha hx hpos]
    exact Maps.cons.load F hsize ha hx hread
  · rw [load_file hcell hread (hsize ▸ F.backs_inside ha hx)]

end Read

section Join
variable {fp : FirstPage pg} {s : Sc} {l f : List Addr} {rsv : Addr} {space space' : Space}
  {active : Bool} {granted : Addr → Bool} {fuel : Nat}

theorem joinRegion_maps {tmpfileSize : Nat} {e : Extent} {grant : Bool}
    (h : joinRegion pg tmpfileSize true e grant space = .ok (some space')) : Maps space' e := by
  unfold joinRegion at h
  split at h
  · obtain ⟨-, -, h⟩ := bind_eq_ok.mp h
    obtain ⟨-, -, h⟩ := bind_eq_ok.mp h
    obtain ⟨-, rfl⟩ := mapHint_spec (Except.ok.inj h)
    exact Maps.cons
  · obtain ⟨_, hoff, -⟩ := bind_eq_ok.mp h
    intro x o hx
    exact absurd (check_eq_ok.mp hoff) hx.1

theorem joinList_extends {cur : Option Addr}
    (h : joinList pg s active granted fuel cur space = .ok (some space')) :
    Extends space space' := by
  induction fuel generalizing cur space with
  | zero => cases h
  | succ fuel ih =>
    cases cur with
    | none =>
      obtain rfl := Option.some.inj (Except.ok.inj h)
      exact Extends.refl space
    | some cur =>
      rw [joinList] at h
      obtain ⟨map, hmap, h⟩ := bind_eq_ok.mp h
      cases map with
      | none => cases h
      | some space₁ => exact fun x c hc => ih h x c (joinRegion_extends hmap x c hc)

theorem joinList_maps {cur : Option Addr} (hl : Seg (fun a => (s.mem a).next) cur l none)
    (h : joinList pg s true granted fuel cur space = .ok (some space')) :
    ∀ a ∈ l, Maps space' (s.extent a) := by
  induction l generalizing cur fuel space with
  | nil => nofun
  | cons b rest ih =>
    obtain ⟨rfl, hrest⟩ := hl
    cases fuel with
    | zero => cases h
    | succ fuel =>
      rw [joinList] at h
      obtain ⟨map, hmap, h⟩ := bind_eq_ok.mp h
      cases map with
      | none => cases h
      | some space₁ =>
        intro a ha
        rcases List.mem_cons.mp ha with rfl | ha
        · exact (joinList_extends h).maps (joinRegion_maps hmap)
        · exact ih hrest h a ha

theorem rootDest_eq : fp.regions 0 / pg.bytes * pg.bytes = fp.base := by
  obtain ⟨n, hn⟩ := fp.aligned
  have hfits := fp.fits
  have hsize := fp.size_pos
  unfold FirstPage.regions
  rw [hn, Nat.zero_mul, Nat.add_zero, Nat.mul_add_div pg.pos,
    Nat.div_eq_of_lt (by omega : fp.offRegions < pg.bytes), Nat.add_zero, Nat.mul_comm]

theorem scJoin_maps {answers : JoinAnswers} (L : Lists fp s l f) (F : Files fp s l rsv)
    (h : scJoin pg answers fuel s space = .ok (some space')) :
    (∀ a ∈ l, Maps space' (s.extent a)) ∧ Held space' (s.extent rsv) := by
  unfold scJoin at h
  obtain ⟨-, -, h⟩ := bind_eq_ok.mp h
  have hact := L.active
  cases l with
  | nil => exact absurd L.first nofun
  | cons first rest =>
    obtain rfl : first = fp.regions 0 := Option.some.inj L.first
    obtain ⟨hhead, hrest⟩ := hact
    have hhead' : s.activeRegions = some (fp.regions 0) := hhead
    rw [hhead'] at h
    dsimp only at h
    split at h
    · cases h
    rename_i space₀ hroot
    split at h
    · cases h
    obtain ⟨-, -, h⟩ := bind_eq_ok.mp h
    obtain ⟨-, -, h⟩ := bind_eq_ok.mp h
    obtain ⟨map, hmap, h⟩ := bind_eq_ok.mp h
    cases map with
    | none => cases h
    | some space₁ =>
      dsimp only at h
      have hext₁ := joinList_extends hmap
      have hext₂ := joinList_extends h
      refine ⟨fun a ha => ?_, ?_⟩
      · rcases List.mem_cons.mp ha with rfl | ha
        · rw [rootDest_eq] at hroot
          obtain ⟨-, rfl⟩ := mapHint_spec hroot
          rw [F.first]
          exact hext₂.maps (hext₁.maps Maps.cons)
        · exact hext₂.maps (joinList_maps hrest hmap a ha)
      · rw [F.reserved] at h
        cases fuel with
        | zero => cases h
        | succ fuel =>
          rw [joinList] at h
          obtain ⟨map, hmap', h⟩ := bind_eq_ok.mp h
          cases map with
          | none => cases h
          | some space₂ => exact (joinList_extends h).held (joinRegion_held F.unused hmap')

theorem scJoin_view {answers : JoinAnswers} (L : Lists fp s l f) (F : Files fp s l rsv)
    (h : scJoin pg answers fuel s space = .ok (some space')) : View s l rsv space' := by
  obtain ⟨hmaps, hheld⟩ := scJoin_maps L F h
  exact ⟨fun a ha => (hmaps a ha).shows, hheld⟩

end Join
end Subcontexts.Region
