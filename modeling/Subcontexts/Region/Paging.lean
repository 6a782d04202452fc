import Subcontexts.Lib.Demand
import Subcontexts.Region.SharedMemory

/-! A process of the subcontext as a machine whose accesses may fault: `sc_signal_handler_SEGV` maps
the region, and the access is tried again. The program does not notice. -/

namespace Subcontexts.Region
variable {pg : PageSize}

section Model
variable (fp : FirstPage pg)

def storeByte (s : System) (p : Nat) (space : Space) (x byte : Nat) : Option System :=
  match space.cell x with
  | some (.file prot offset, k) =>
    if prot &&& protWrite ≠ 0 ∧ offset + k < s.world.fileSize then
      some { s with world := { s.world with
        file := Function.update s.world.file (offset + k) byte } }
    else none
  | some (.anon prot _, _) =>
    if prot &&& protWrite ≠ 0 then some (s.setProc p (⟨x, 1, .anon prot fun _ => byte⟩ :: space))
    else none
  | _ => none

/-- The handler runs for faults of data accesses, and the kernel grants its `mmap`. -/
def processMachine (p : Nat) : Demand.Machine System where
  load s x := s.procs[p]?.bind fun space => load pg s.world.file s.world.fileSize space x
  store s x byte := s.procs[p]?.bind fun space => storeByte s p space x byte
  handle s x isWrite := s.procs[p]?.bind fun space =>
    match segvHandler pg true (fp.regionsCount + 1) s.world.sc space x isWrite false with
    | .ok space' => some (s.setProc p space')
    | .error _ => none

end Model

/-- An active region gives the right to read the address, or to read and write it. -/
def Allowed (s : Sc) (x : Nat) (isWrite : Bool) : Prop :=
  ∃ l o, (s.links s.activeRegions).Holds l ∧ ∃ a ∈ l, Backs (s.extent a) x o ∧
    if isWrite then (s.extent a).prot = protRead ||| protWrite else (s.extent a).prot &&& protRead ≠ 0

/-- A run has led here, the root struct is the one the program has started with, and the memory is
what the program believes. -/
structure Shown (fp : FirstPage pg) (sc : Sc) (p : Nat) (s : System) (m : Nat → Nat) : Prop where
  run : System.SharedRun fp s
  sc : s.world.sc = sc
  proc : p < s.procs.length
  bytes : ∀ x b, memory s x = some b → m x = b

variable {fp : FirstPage pg} {s t : System} {l f : List Addr} {rsv a : Addr} {x o p byte : Nat}
  {space : Space}

theorem segvHandler_write {s : Sc} (L : Lists fp s l f) (F : Files fp s l rsv) (hlock : s.lock = false)
    (ha : a ∈ l) (hx : Backs (s.extent a) x o) (hpos : x ≠ 0)
    (hprot : (s.extent a).prot = protRead ||| protWrite) :
    segvHandler pg true (fp.regionsCount + 1) s space x true false =
      .ok ((s.extent a).vma :: space) := by
  obtain ⟨hback, hlo, hhi, -⟩ := hx
  have S := F.stored a ha
  obtain ⟨visited, found, hwalk, -, hfound, hnone⟩ :=
    segvWalk_spec x L.active (Nat.lt_succ_of_le L.length_le)
  have hwalk' : segvWalk s.mem x (fp.regionsCount + 1) s.activeRegions =
      .ok (visited, found) := hwalk
  have hpositive : 0 < (s.extent a).len := by omega
  have hrange : fileRange pg true (s.mem a).vaddr (s.mem a).len (s.mem a).tmpfileOffset :=
    ⟨⟨rfl, hpositive, S.addresses⟩, Nat.mod_eq_zero_of_dvd (S.aligned hback)⟩
  obtain rfl : found = some a := by
    cases found with
    | none => exact absurd ((F.holds_iff ha).mpr ⟨hlo, hhi⟩) (hnone rfl a ha)
    | some b =>
      obtain ⟨hb, hholds⟩ := hfound b rfl
      rw [F.region_unique hb ha ((F.holds_iff hb).mp hholds) ⟨hlo, hhi⟩]
  have hright : ¬ (true = true ∧ (s.mem a).prot ≠ protRead ||| protWrite ∨
      false = true ∧ (s.mem a).prot ≠ protRead ||| protExec) := by
    rintro (⟨-, h⟩ | ⟨h, -⟩)
    · exact h hprot
    · cases h
  unfold segvHandler
  rw [haltIf_neg hpos, ok_bind, haltIf_neg (by rw [hlock]; decide), ok_bind, hwalk', ok_bind]
  dsimp only
  rw [check_pos (.inr rfl), ok_bind, haltIf_neg hright, ok_bind, haltIf_neg (not_not_intro hrange)]
  rfl

theorem procs_setProc (hp : p < s.procs.length) : (s.setProc p space).procs[p]? = some space := by
  cases p with
  | zero => rfl
  | succ i =>
    have hi : i < s.others.length := Nat.lt_of_succ_lt_succ hp
    show (s.others.set i space)[i]? = some space
    rw [List.getElem?_set_self hi]

theorem length_procs_setProc : (s.setProc p space).procs.length = s.procs.length := by
  cases p with
  | zero => rfl
  | succ i =>
    show (s.others.set i space).length + 1 = s.others.length + 1
    rw [List.length_set]

theorem world_setProc (s : System) (p : Nat) (space : Space) :
    (s.setProc p space).world.sc = s.world.sc ∧
    (s.setProc p space).world.file = s.world.file ∧
    (s.setProc p space).world.fileSize = s.world.fileSize := by
  cases p with
  | zero => exact ⟨rfl, rfl, rfl⟩
  | succ i => exact ⟨rfl, rfl, rfl⟩

section Accesses
variable {prot offset k : Nat} {space' : Space} {isWrite : Bool}

theorem storeByte_file_eq_some (hcell : space.cell x = some (.file prot offset, k))
    (h : storeByte s p space x byte = some t) :
    prot &&& protWrite ≠ 0 ∧ offset + k < s.world.fileSize ∧
      t = { s with world := { s.world with
        file := Function.update s.world.file (offset + k) byte } } := by
  unfold storeByte at h
  rw [hcell] at h
  dsimp only at h
  split at h
  · rename_i hcond
    exact ⟨hcond.1, hcond.2, (Option.some.inj h).symm⟩
  · cases h

theorem storeByte_file_ne_none (hcell : space.cell x = some (.file prot offset, k))
    (hprot : prot &&& protWrite ≠ 0) (hinside : offset + k < s.world.fileSize) :
    storeByte s p space x byte ≠ none := by
  unfold storeByte
  rw [hcell]
  dsimp only
  rw [if_pos ⟨hprot, hinside⟩]
  exact Option.some_ne_none _

theorem processMachine_load (hspace : s.procs[p]? = some space) :
    (processMachine fp p).load s x = load pg s.world.file s.world.fileSize space x := by
  show (s.procs[p]?.bind _) = _
  rw [hspace, Option.bind_some]

theorem processMachine_store (hspace : s.procs[p]? = some space) :
    (processMachine fp p).store s x byte = storeByte s p space x byte := by
  show (s.procs[p]?.bind _) = _
  rw [hspace, Option.bind_some]

theorem processMachine_handle (hspace : s.procs[p]? = some space)
    (hfault : segvHandler pg true (fp.regionsCount + 1) s.world.sc space x isWrite false = .ok space') :
    (processMachine fp p).handle s x isWrite = some (s.setProc p space') := by
  show (s.procs[p]?.bind _) = _
  rw [hspace, Option.bind_some, hfault]

end Accesses

namespace Shown
variable {sc : Sc} {m : Nat → Nat}

theorem cell (h : Shown fp sc p s m) {isWrite : Bool} (hx : Allowed sc x isWrite) :
    ∃ space l f rsv a o, s.procs[p]? = some space ∧ SharedMemory fp s l f rsv ∧ a ∈ l ∧
      Backs (s.world.sc.extent a) x o ∧ memory s x = some (s.world.file o) ∧
      (if isWrite then (s.world.sc.extent a).prot = protRead ||| protWrite
        else (s.world.sc.extent a).prot &&& protRead ≠ 0) ∧
      ((x ≠ 0 ∧ ∃ k, space.cell x = some (.noAccess, k)) ∨
        ∃ offset k, space.cell x = some (.file (s.world.sc.extent a).prot offset, k) ∧
          offset + k = o) := by
  obtain ⟨l, f, rsv, M⟩ := h.run.inv
  obtain ⟨l', o, hl', a, ha, hback, hright⟩ := hx
  rw [← h.sc] at hl' hback hright
  obtain rfl := hl'.unique M.sharing.shared.lists.active
  obtain ⟨space, hspace⟩ : ∃ space, s.procs[p]? = some space := ⟨_, List.getElem?_eq_getElem h.proc⟩
  have V := M.sharing.shared.views _ (mem_procs_of_getElem? hspace)
  exact ⟨space, l', f, rsv, a, o, hspace, M, ha, hback,
    (memory_eq_some M.sharing).mpr ⟨o, ⟨a, ha, hback⟩, rfl⟩, hright, V.active a ha x o hback⟩

theorem fault (h : Shown fp sc p s m) {space' : Space} {isWrite : Bool}
    (hspace : s.procs[p]? = some space)
    (hfault : segvHandler pg true (fp.regionsCount + 1) s.world.sc space x isWrite false = .ok space') :
    Shown fp sc p (s.setProc p space') m := by
  have hstep : (Event.fault p true x isWrite false).step fp s (s.setProc p space') :=
    ⟨space, space', hspace, hfault, rfl⟩
  obtain ⟨hsc, hfile, -⟩ : (s.setProc p space').world.sc = s.world.sc ∧
      (s.setProc p space').world.file = s.world.file ∧ _ := world_setProc s p space'
  have hmemory : memory (s.setProc p space') = memory s :=
    memory_congr (congrArg Sc.activeRegions hsc) (congrArg Sc.mem hsc) hfile
  refine ⟨h.run.step (l := Event.fault p true x isWrite false) ⟨⟨trivial, trivial⟩, hstep⟩,
    hsc.trans h.sc, length_procs_setProc.symm ▸ h.proc, fun y b hb => h.bytes y b ?_⟩
  rw [← hmemory]
  exact hb

theorem load (h : Shown fp sc p s m) (hx : Allowed sc x false)
    (hload : (processMachine fp p).load s x = some byte) : byte = m x := by
  obtain ⟨space, l, f, rsv, a, o, hspace, M, ha, hback, hbyte, hright, hcell⟩ := h.cell hx
  have T := M.sharing.shared
  rw [processMachine_load hspace] at hload
  rcases hcell with ⟨-, k, hcell⟩ | ⟨offset, k, hcell, rfl⟩
  · rw [load_noAccess hcell] at hload
    cases hload
  · rw [load_file hcell hright (T.fileSize ▸ T.files.backs_inside ha hback)] at hload
    rw [← Option.some.inj hload]
    exact (h.bytes x _ hbyte).symm

theorem store (h : Shown fp sc p s m) (hx : Allowed sc x true)
    (hstore : (processMachine fp p).store s x byte = some t) :
    Shown fp sc p t (Function.update m x byte) := by
  obtain ⟨space, l, f, rsv, a, o, hspace, M, ha, hback, -, -, hcell⟩ := h.cell hx
  rw [processMachine_store hspace] at hstore
  rcases hcell with ⟨-, k, hcell⟩ | ⟨offset, k, hcell, rfl⟩
  · unfold storeByte at hstore
    rw [hcell] at hstore
    cases hstore
  · obtain ⟨hprot, hinside, rfl⟩ := storeByte_file_eq_some hcell hstore
    have hstep : (Event.store p x byte).step fp s { s with world := { s.world with
        file := Function.update s.world.file (offset + k) byte } } :=
      ⟨space, _, offset, k, hspace, hcell, hprot, hinside, rfl⟩
    obtain ⟨-, -, hmemory⟩ := M.store hstep
    refine ⟨h.run.step (l := Event.store p x byte) ⟨⟨trivial, trivial⟩, hstep⟩, h.sc, h.proc,
      fun y c hc => ?_⟩
    rw [hmemory, Function.update_apply] at hc
    rw [Function.update_apply]
    by_cases hy : y = x
    · rw [if_pos hy] at hc ⊢
      exact Option.some.inj hc
    · rw [if_neg hy] at hc ⊢
      exact h.bytes y c hc

theorem handleLoad (h : Shown fp sc p s m) (hx : Allowed sc x false)
    (hload : (processMachine fp p).load s x = none) :
    ∃ t, (processMachine fp p).handle s x false = some t ∧ Shown fp sc p t m ∧
      (processMachine fp p).load t x ≠ none := by
  obtain ⟨space, l, f, rsv, a, o, hspace, M, ha, hback, -, hright, hcell⟩ := h.cell hx
  have T := M.sharing.shared
  rw [processMachine_load hspace] at hload
  rcases hcell with ⟨hpos, k, hcell⟩ | ⟨offset, k, hcell, rfl⟩
  · have hfault : segvHandler pg true (fp.regionsCount + 1) s.world.sc space x false false =
        .ok ((s.world.sc.extent a).vma :: space) :=
      segvHandler_read T.lists T.files T.unlocked ha hback hpos
    refine ⟨_, processMachine_handle hspace hfault, h.fault hspace hfault, ?_⟩
    obtain ⟨-, hfile, hsize⟩ := world_setProc s p ((s.world.sc.extent a).vma :: space)
    have hmaps : Maps ((s.world.sc.extent a).vma :: space) (s.world.sc.extent a) := Maps.cons
    rw [processMachine_load (procs_setProc h.proc), hfile, hsize,
      hmaps.load T.files T.fileSize ha hback hright]
    exact Option.some_ne_none _
  · rw [load_file hcell hright (T.fileSize ▸ T.files.backs_inside ha hback)] at hload
    cases hload

theorem handleStore (h : Shown fp sc p s m) (hx : Allowed sc x true)
    (hstore : (processMachine fp p).store s x byte = none) :
    ∃ t, (processMachine fp p).handle s x true = some t ∧ Shown fp sc p t m ∧
      (processMachine fp p).store t x byte ≠ none := by
  obtain ⟨space, l, f, rsv, a, o, hspace, M, ha, hback, -, hright, hcell⟩ := h.cell hx
  have T := M.sharing.shared
  have hprot : (s.world.sc.extent a).prot = protRead ||| protWrite := hright
  have hwrite : (s.world.sc.extent a).prot &&& protWrite ≠ 0 := by
    rw [hprot]
    decide
  have hinside : o < s.world.fileSize := T.fileSize ▸ T.files.backs_inside ha hback
  rw [processMachine_store hspace] at hstore
  rcases hcell with ⟨hpos, k, hcell⟩ | ⟨offset, k, hcell, rfl⟩
  · have hfault : segvHandler pg true (fp.regionsCount + 1) s.world.sc space x true false =
        .ok ((s.world.sc.extent a).vma :: space) :=
      segvHandler_write T.lists T.files T.unlocked ha hback hpos hprot
    refine ⟨_, processMachine_handle hspace hfault, h.fault hspace hfault, ?_⟩
    obtain ⟨-, -, hsize⟩ := world_setProc s p ((s.world.sc.extent a).vma :: space)
    obtain ⟨offset, k, hcell', rfl⟩ : ∃ offset k, AddressSpace.cell
        ((s.world.sc.extent a).vma :: space) x =
          some (.file (s.world.sc.extent a).prot offset, k) ∧ offset + k = o := Maps.cons x o hback
    rw [processMachine_store (procs_setProc h.proc)]
    exact storeByte_file_ne_none hcell' hwrite (hsize.symm ▸ hinside)
  · exact absurd hstore (storeByte_file_ne_none hcell hwrite hinside)

end Shown

section Run

end Run
end Subcontexts.Region
