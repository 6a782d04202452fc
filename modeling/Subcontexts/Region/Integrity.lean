import Subcontexts.Lib.Trans
import Subcontexts.Region.Init
import Subcontexts.Region.View

/-! The active list over every run of the three calls after `sc_init`, and what the page-fault
handler touches when it walks the list. -/

namespace Subcontexts.Region
variable {pg : PageSize}

section Runs
variable (fp : FirstPage pg)

inductive Call where
  | mmap (answers : Answers) (addr length prot : Nat) (fd offset : Int)
  | importFile (answers : Answers) (fuel addr len prot : Nat)
  | importProtNone (answers : Answers) (addr len : Nat)

def Call.run (w : World) : Call → Except Halt (Bool × World)
  | .mmap answers addr length prot fd offset => do
    let (retval, w) ← scMmap fp answers w addr length prot fd offset
    return (retval ≠ none, w)
  | .importFile answers fuel addr len prot => do
    let (rc, w) ← scImport fp answers fuel w addr len prot
    return (rc = 0, w)
  | .importProtNone answers addr len => do
    let (rc, w) ← scImportProtNone fp answers w addr len
    return (rc = 0, w)

/-- A successful `sc_init`, where the kernel kept its promises. -/
def Started (w : World) : Prop :=
  ∃ answers fuel w₀, (∀ area, answers.area = some area → Ranges fp area) ∧
    scInit fp answers fuel w₀ = .ok (some w)

def Returns (w : World) (c : Call) (w' : World) : Prop := ∃ success, c.run fp w = .ok (success, w')

end Runs

section Returns
variable {fp : FirstPage pg} {answers : Answers} {w w' : World} {addr len prot : Nat}
  {success : Bool}

theorem Call.mmap_eq_ok {fd offset : Int}
    (h : (Call.mmap answers addr len prot fd offset).run fp w = .ok (success, w')) :
    ∃ retval, scMmap fp answers w addr len prot fd offset = .ok (retval, w') ∧
      (success = true → retval ≠ none) := by
  obtain ⟨⟨retval, w₁⟩, hcall, h⟩ := bind_eq_ok.mp h
  obtain ⟨rfl, rfl⟩ := Prod.mk.inj (Except.ok.inj h)
  exact ⟨retval, hcall, of_decide_eq_true⟩

theorem Call.importFile_eq_ok {fuel : Nat}
    (h : (Call.importFile answers fuel addr len prot).run fp w = .ok (success, w')) :
    ∃ rc, scImport fp answers fuel w addr len prot = .ok (rc, w') ∧ (success = true → rc = 0) := by
  obtain ⟨⟨rc, w₁⟩, hcall, h⟩ := bind_eq_ok.mp h
  obtain ⟨rfl, rfl⟩ := Prod.mk.inj (Except.ok.inj h)
  exact ⟨rc, hcall, of_decide_eq_true⟩

theorem Call.importProtNone_eq_ok
    (h : (Call.importProtNone answers addr len).run fp w = .ok (success, w')) :
    ∃ rc, scImportProtNone fp answers w addr len = .ok (rc, w') ∧ (success = true → rc = 0) := by
  obtain ⟨⟨rc, w₁⟩, hcall, h⟩ := bind_eq_ok.mp h
  obtain ⟨rfl, rfl⟩ := Prod.mk.inj (Except.ok.inj h)
  exact ⟨rc, hcall, of_decide_eq_true⟩

end Returns

structure Rooted (fp : FirstPage pg) (w : World) : Prop where
  nonempty : 0 < w.fileSize
  mapped : ∀ x, fp.base ≤ x → x < fp.base + pg.bytes →
    w.space.cell x = some (.file (protRead ||| protWrite) 0, x - fp.base)

structure Intact (fp : FirstPage pg) (w : World) (l f : List Addr) : Prop where
  lists : Lists fp w.sc l f
  head : w.sc.extent (fp.regions 0) = ⟨fp.base, pg.bytes, protRead ||| protWrite, 0⟩
  rooted : Rooted fp w

section Rooted
variable {fp : FirstPage pg} {w w' : World}

theorem Rooted.load_ne_none (R : Rooted fp w) {x : Nat} (hlo : fp.base ≤ x)
    (hhi : x < fp.base + pg.bytes) : w.load pg x ≠ none := by
  have hpage : (0 + (x - fp.base)) / pg.bytes * pg.bytes = 0 := by
    rw [Nat.zero_add, Nat.div_eq_of_lt (by omega), Nat.zero_mul]
  unfold World.load load
  rw [R.mapped x hlo hhi]
  dsimp only
  rw [hpage, if_pos ⟨by decide, R.nonempty⟩]
  nofun

theorem Rooted.resized (R : Rooted fp w) {size : Nat} (h : Resized fp w w' size)
    (hspace : w'.space = w.space) : Rooted fp w' := by
  refine ⟨?_, hspace ▸ R.mapped⟩
  have hroot := h.root
  have hcell : (w.ftruncate size).space.cell fp.base = _ :=
    R.mapped fp.base (Nat.le_refl _) (Nat.lt_add_of_pos_right pg.pos)
  unfold World.load load at hroot
  rw [hcell] at hroot
  dsimp only at hroot
  rw [Nat.sub_self, Nat.zero_add, Nat.zero_div, Nat.zero_mul] at hroot
  rw [h.fileSize]
  by_contra hsize
  exact hroot (if_neg fun hc => hsize hc.2)

theorem Rooted.mapFixed (R : Rooted fp w) {addr len : Nat} {b : Backing}
    (hspace : w'.space = ⟨addr, len, b⟩ :: w.space) (hsize : 0 < w'.fileSize)
    (happ : addr + len ≤ fp.base ∨ fp.base + pg.bytes ≤ addr) : Rooted fp w' := by
  refine ⟨hsize, fun x hlo hhi => ?_⟩
  have hx : ¬ (Vma.mk addr len b).Covers x := by
    rintro ⟨h, h'⟩
    dsimp only at h h'
    omega
  rw [hspace, AddressSpace.cell_cons_of_not_covers hx]
  exact R.mapped x hlo hhi

end Rooted

section Steps
variable {fp : FirstPage pg} {w w' : World} {l f : List Addr}

theorem Intact.untouched (I : Intact fp w l f) (h : Untouched w w') : Intact fp w' l f := by
  have L' := h.lists I.lists
  obtain ⟨size, lock, rfl⟩ := h
  exact ⟨L', I.head, I.rooted.nonempty, I.rooted.mapped⟩

theorem Intact.mmap {answers : Answers} {addr length prot : Nat} {fd offset : Int} {r : Option Nat}
    (I : Intact fp w l f) (h : scMmap fp answers w addr length prot fd offset = .ok (r, w')) :
    ∃ l' f', Intact fp w' l' f' ∧ l.Sublist l' ∧ (r ≠ none → l.length < l'.length) := by
  rcases scMmap_spec I.lists h with ⟨hr, hun⟩ | ⟨-, -, reg, rsv, f', -, rfl, M, L'⟩
  · exact ⟨l, f, I.untouched hun, List.Sublist.refl l, fun hne => absurd hr hne⟩
  have hfirst := I.lists.first_mem
  have hreg : fp.regions 0 ≠ reg := ne_of_mem_of_not_mem hfirst I.lists.free_notMem
  have hrsv : fp.regions 0 ≠ rsv :=
    ne_of_mem_of_not_mem hfirst (I.lists.reserved rsv M.carved.reserved).1
  refine ⟨l ++ [reg], f', ⟨L', (M.carved.others _ hreg hrsv).trans I.head,
    I.rooted.resized M.resized M.space⟩, List.sublist_append_left l [reg], fun _ => ?_⟩
  rw [List.length_append]
  exact Nat.lt_succ_self _

theorem Intact.importFile {answers : Answers} {fuel addr len prot : Nat} {r : Int}
    (I : Intact fp w l f) (h : scImport fp answers fuel w addr len prot = .ok (r, w')) :
    ∃ l' f', Intact fp w' l' f' ∧ l.Sublist l' := by
  rcases scImport_spec I.lists h with ⟨-, hun, -⟩ | ⟨reg, f', rfl, M, L', -, -, -, hnodup, hend⟩
  · exact ⟨l, f, I.untouched hun, List.Sublist.refl l⟩
  have hfirst := I.lists.first_mem
  have hreg : fp.regions 0 ≠ reg := ne_of_mem_of_not_mem hfirst I.lists.free_notMem
  refine ⟨l ++ [reg], f', ⟨L', (M.others _ hreg).trans I.head, ?_⟩,
    List.sublist_append_left l [reg]⟩
  rcases hend with ⟨-, U⟩ | ⟨-, C⟩
  · rcases U.fileSize with hsize | hsize
    · exact ⟨hsize ▸ I.rooted.nonempty, U.space ▸ I.rooted.mapped⟩
    · exact I.rooted.resized hsize U.space
  · -- the search for a duplicate has looked at the first page too
    have hmiss := hnodup _ hfirst
    have hhead : (w.sc.mem (fp.regions 0)).toExtent = _ := I.head
    have hlt := C.addresses
    have hbelow := fp.below
    rw [hhead] at hmiss
    unfold overlaps at hmiss
    rw [u64_of_lt hlt, u64_of_lt hbelow] at hmiss
    dsimp only at hmiss
    have hroot : Rooted fp { w' with space := w.space } :=
      I.rooted.resized ⟨C.resized.fileSize, C.resized.root⟩ rfl
    exact I.rooted.mapFixed C.space hroot.nonempty (by omega)

theorem Intact.importProtNone {answers : Answers} {addr len : Nat} {r : Int}
    (I : Intact fp w l f) (htwo : 2 ≤ l.length)
    (h : scImportProtNone fp answers w addr len = .ok (r, w')) :
    ∃ l' f', Intact fp w' l' f' ∧ l.Sublist l' := by
  rcases scImportProtNone_spec I.lists htwo h with
    ⟨-, hun, -⟩ | ⟨first, reg, rest, f', rfl, rfl, haddr, hlen, H, L'⟩
  · exact ⟨l, f, I.untouched hun, List.Sublist.refl l⟩
  have hfirst := I.lists.first_mem
  have hreg : fp.regions 0 ≠ reg := ne_of_mem_of_not_mem hfirst I.lists.free_notMem
  refine ⟨first :: reg :: rest, f', ⟨L', (H.others _ hreg).trans I.head, ?_⟩, ?_⟩
  · rcases H.space with ⟨-, hspace⟩ | ⟨-, hlt, -, hspace, hroot⟩
    · exact ⟨H.fileSize ▸ I.rooted.nonempty, hspace ▸ I.rooted.mapped⟩
    · refine I.rooted.mapFixed hspace (H.fileSize ▸ I.rooted.nonempty) ?_
      -- a range over the first page takes the root struct away before the unlock
      by_contra hover
      refine hroot ?_
      have hle : addr ≤ fp.base :=
        Nat.le_of_lt_add_of_dvd (by omega) (Nat.dvd_of_mod_eq_zero haddr) fp.aligned
      have hcover : (Vma.mk addr len Backing.noAccess).Covers fp.base :=
        ⟨hle, by dsimp only; omega⟩
      unfold World.load load
      rw [hspace, AddressSpace.cell_cons_of_covers hcover]
  · exact (List.sublist_cons_self reg rest).cons_cons first

theorem Intact.step {c : Call} (I : Intact fp w l f) (htwo : 2 ≤ l.length) (h : Returns fp w c w') :
    ∃ l' f', Intact fp w' l' f' ∧ l.Sublist l' := by
  obtain ⟨success, h⟩ := h
  cases c with
  | mmap =>
    obtain ⟨retval, hcall, -⟩ := Call.mmap_eq_ok h
    obtain ⟨l', f', I', hsub, -⟩ := I.mmap hcall
    exact ⟨l', f', I', hsub⟩
  | importFile =>
    obtain ⟨rc, hcall, -⟩ := Call.importFile_eq_ok h
    exact I.importFile hcall
  | importProtNone =>
    obtain ⟨rc, hcall, -⟩ := Call.importProtNone_eq_ok h
    exact I.importProtNone htwo hcall

theorem Intact.run (I : Intact fp w l f) (htwo : 2 ≤ l.length)
    (h : Trans.Reach (· = w) (Returns fp) w') :
    ∃ l' f', Intact fp w' l' f' ∧ l.Sublist l' := by
  induction h with
  | init h =>
    obtain rfl := h
    exact ⟨l, f, I, List.Sublist.refl l⟩
  | step _ hst ih =>
    obtain ⟨l₁, f₁, I₁, hsub⟩ := ih
    obtain ⟨l₂, f₂, I₂, hsub'⟩ := I₁.step (Nat.le_trans htwo hsub.length_le) hst
    exact ⟨l₂, f₂, I₂, hsub.trans hsub'⟩

end Steps

section Started
variable {fp : FirstPage pg} {w : World}

theorem initWorld_rooted {area : Nat} (R : Ranges fp area) (w : World) :
    Rooted fp (initWorld fp area w) := by
  refine ⟨pg.pos, fun x hlo hhi => ?_⟩
  have harea : ¬ (Vma.mk area reservedLen Backing.noAccess).Covers x := by
    have happ := R.apart
    rintro ⟨h, h'⟩
    dsimp only at h h'
    omega
  show AddressSpace.cell (_ :: _) x = _
  rw [AddressSpace.cell_cons_of_not_covers harea]
  exact AddressSpace.cell_cons_of_covers ⟨hlo, hhi⟩

theorem Started.intact (h : Started fp w) : ∃ l f, Intact fp w l f ∧ 2 ≤ l.length := by
  obtain ⟨answers, fuel, w₀, hranges, hinit⟩ := h
  obtain ⟨area, w₁, len, v, harea, hmap, hlast⟩ := scInit_spec hinit
  have R := hranges area harea
  have I₀ : Intact fp (initWorld fp area w₀) [fp.regions 0] (freeRegions fp) :=
    ⟨initRoot_lists, extent_initRoot_first, initWorld_rooted R w₀⟩
  obtain ⟨l, f, I, -, hlen⟩ := I₀.mmap hmap
  have htwo : 2 ≤ l.length := hlen nofun
  have I₁ : Intact fp w₁.registered l f :=
    ⟨I.lists.congr rfl rfl rfl rfl fun _ _ => rfl, I.head, I.rooted.nonempty, I.rooted.mapped⟩
  rcases hlast with rfl | ⟨len', v', hmap'⟩
  · exact ⟨l, f, I₁, htwo⟩
  · obtain ⟨l', f', I', hsub, -⟩ := I₁.mmap hmap'
    exact ⟨l', f', I', Nat.le_trans htwo hsub.length_le⟩

end Started

section Main
variable {fp : FirstPage pg}

theorem reach_intact {w : World} (h : Trans.Reach (Started fp) (Returns fp) w) :
    ∃ l f, Intact fp w l f ∧ 2 ≤ l.length := by
  refine h.inv (fun _ h => h.intact) fun w c w' ⟨l, f, I, htwo⟩ hst => ?_
  obtain ⟨l', f', I', hsub⟩ := I.step htwo hst
  exact ⟨l', f', I', Nat.le_trans htwo hsub.length_le⟩

theorem active_list_integrity {w : World} (h : Trans.Reach (Started fp) (Returns fp) w) :
    ∃ l, (w.sc.links w.sc.activeRegions).Holds l ∧ l.Nodup ∧
      w.sc.activeRegionsTail = l.getLast? ∧
      (∃ second rest, l = fp.regions 0 :: second :: rest) ∧
      w.sc.extent (fp.regions 0) = ⟨fp.base, pg.bytes, protRead ||| protWrite, 0⟩ ∧
      (∀ a ∈ l, fp.base ≤ a ∧ a + fp.sizeofRegion ≤ fp.base + pg.bytes) ∧
      (∀ vaddr, ∃ visited found,
        segvWalk w.sc.mem vaddr (fp.regionsCount + 1) w.sc.activeRegions = .ok (visited, found) ∧
        ∀ a ∈ visited, a ∈ l) ∧
      (∀ x, fp.base ≤ x → x < fp.base + pg.bytes → w.load pg x ≠ none) ∧
      ∀ w' l', Trans.Reach (· = w) (Returns fp) w' →
        (w'.sc.links w'.sc.activeRegions).Holds l' → l.Sublist l' := by
  obtain ⟨l, f, I, htwo⟩ := reach_intact h
  have L := I.lists
  have hinside : ∀ a ∈ l, fp.base ≤ a ∧ a + fp.sizeofRegion ≤ fp.base + pg.bytes :=
    fun a ha => FirstPage.Struct.inside fp (L.inPage a (.inl ha))
  refine ⟨l, L.active, L.nodup, L.tail, ?_, I.head, hinside, fun vaddr => ?_,
    fun x hlo hhi => I.rooted.load_ne_none hlo hhi, fun w' l' hrun hl' => ?_⟩
  · have hfirst := L.first
    match l with
    | [] => exact absurd htwo (by decide)
    | [_] => exact absurd htwo (Nat.not_succ_le_self 1)
    | a :: second :: rest =>
      obtain rfl := Option.some.inj hfirst
      exact ⟨second, rest, rfl⟩
  · obtain ⟨visited, found, hwalk, hvisited, -⟩ :=
      segvWalk_spec vaddr L.active (Nat.lt_succ_of_le L.length_le)
    exact ⟨visited, found, hwalk, hvisited⟩
  · obtain ⟨l₁, f₁, I₁, hsub⟩ := I.run htwo hrun
    rw [hl'.unique I₁.lists.active]
    exact hsub

end Main

section Run

def firstPage4096 : FirstPage page4096 :=
  ⟨0x10000, 256, 64, 48, ⟨16, rfl⟩, by decide, by decide, by decide⟩

def granted : Answers := ⟨true, true, true, true⟩

def joinGranted : JoinAnswers := ⟨true, true, fun _ => true⟩

def initAnswers : InitAnswers :=
  ⟨true, true, true, true, some 0x100000, granted, granted, true, fun _ => 0⟩

def emptyWorld : World where
  sc := ⟨false, none, none, none, none, 0, 0, false, fun _ => ⟨⟨0, 0, 0, 0⟩, none, false⟩⟩
  file := fun _ => 0
  fileSize := 0
  space := []

theorem initAnswers_promise (area : Nat) (h : initAnswers.area = some area) :
    Ranges firstPage4096 area := by
  obtain rfl := Option.some.inj h
  exact ⟨by decide, by decide, .inl (by decide)⟩

/-- `sc_mmap`, `sc_import_protNone`, and an `sc_import` that fails on a duplicate address. -/
theorem active_list_integrity_calls :
    ∃ w, Trans.Reach (Started firstPage4096) (Returns firstPage4096) w ∧ ∃ l,
      (w.sc.links w.sc.activeRegions).Holds l ∧ l.length = 4 ∧
        w.sc.activeRegionsTail = l.getLast? := by
  obtain ⟨w₀, hinit, w₁, hmmap, w₂, hhide, w₃, himport, hholds⟩ :
      ∃ w₀, scInit firstPage4096 initAnswers 10 emptyWorld = .ok (some w₀) ∧
        ∃ w₁, (Call.mmap granted 0 0x2000 3 (-1) 0).run firstPage4096 w₀ = .ok (true, w₁) ∧
        ∃ w₂, (Call.importProtNone granted 0x400000 0x1000).run firstPage4096 w₁ =
          .ok (true, w₂) ∧
        ∃ w₃, (Call.importFile granted 9 0x100000 0x1000 1).run firstPage4096 w₂ =
          .ok (false, w₃) ∧
        (w₃.sc.links w₃.sc.activeRegions).Holds [firstPage4096.regions 0,
          firstPage4096.regions 4, firstPage4096.regions 2, firstPage4096.regions 3] :=
    ⟨_, rfl, _, rfl, _, rfl, _, rfl, rfl, rfl, rfl, rfl, rfl⟩
  have h₀ : Trans.Reach (Started firstPage4096) (Returns firstPage4096) w₀ :=
    .init ⟨initAnswers, 10, emptyWorld, initAnswers_promise, hinit⟩
  have h₃ := ((h₀.step ⟨true, hmmap⟩).step ⟨true, hhide⟩).step ⟨false, himport⟩
  obtain ⟨l, hl, -, htail, -⟩ := active_list_integrity h₃
  exact ⟨w₃, h₃, l, hl, congrArg List.length (hl.unique hholds), htail⟩

end Run
end Subcontexts.Region
