import Subcontexts.Region.Integrity

/-! One address, one byte of the file, for all processes: the creator and the processes that have
joined, over every run of successful calls, joins, page faults and stores. -/

namespace Subcontexts.Region
variable {pg : PageSize}

/-- The root struct, the file and the creator's address space, and the address spaces of the
processes that have joined. -/
structure System where
  world : World
  others : List Space

def System.procs (s : System) : List Space := s.world.space :: s.others

def System.setProc (s : System) (p : Nat) (space : Space) : System :=
  match p with
  | 0 => { s with world := { s.world with space := space } }
  | i + 1 => { s with others := s.others.set i space }

/-- What may happen: a call of the creator; a process joins; process `p` faults, stores a byte, or
maps private memory or writes to it. -/
inductive Event where
  | call (c : Call)
  | join (answers : JoinAnswers) (fuel : Nat) (own : Space)
  | fault (p : Nat) (granted : Bool) (vaddr : Nat) (isWrite isInstr : Bool)
  | store (p x byte : Nat)
  | alloc (p start len prot : Nat) (bytes : Nat → Nat)

section Model
variable (fp : FirstPage pg)

/-- The calls succeed, and the processes survive their faults. -/
def Event.step (s : System) : Event → System → Prop
  | .call c, t => ∃ w, c.run fp s.world = .ok (true, w) ∧ t = { s with world := w }
  | .join answers fuel own, t =>
    ∃ space, scJoin pg answers fuel s.world.sc own = .ok (some space) ∧
      t = ⟨{ s.world with sc := { s.world.sc with procCount := s.world.sc.procCount + 1 } },
        s.others ++ [space]⟩
  | .fault p granted vaddr isWrite isInstr, t =>
    ∃ space space', s.procs[p]? = some space ∧
      segvHandler pg granted (fp.regionsCount + 1) s.world.sc space vaddr isWrite isInstr =
        .ok space' ∧
      t = s.setProc p space'
  | .store p x byte, t =>
    ∃ space prot offset k, s.procs[p]? = some space ∧
      space.cell x = some (.file prot offset, k) ∧ prot &&& protWrite ≠ 0 ∧
      offset + k < s.world.fileSize ∧
      t = { s with world := { s.world with
        file := Function.update s.world.file (offset + k) byte } }
  | .alloc p start len prot bytes, t =>
    ∃ space, s.procs[p]? = some space ∧ t = s.setProc p (⟨start, len, .anon prot bytes⟩ :: space)

def Outside (s : Sc) (start len : Nat) : Prop :=
  (∀ l, (s.links s.activeRegions).Holds l → ∀ a ∈ l, Clear (s.extent a) start len) ∧
    ∀ rsv, s.reservedRegions = some rsv → Clear (s.extent rsv) start len

/-- What the callers promise: the file does not outgrow its size type, and the ranges that are
imported, or used by a process for itself, are not the subcontext's. -/
def Promised (s : System) : Event → Prop
  | .call (.mmap _ _ length _ _ _) => s.world.sc.tmpfileSize + length < 2 ^ 63
  | .call (.importFile _ _ addr len _) =>
    s.world.sc.tmpfileSize + len < 2 ^ 63 ∧ Outside s.world.sc addr len
  | .call (.importProtNone _ addr len) => Outside s.world.sc addr len
  | .alloc _ start len _ _ => Outside s.world.sc start len
  | .join .. | .fault .. | .store .. => True

def System.init (s : System) : Prop := Started fp s.world ∧ s.others = []

abbrev System.Run : System → Prop :=
  Trans.Reach (System.init fp) (Trans.Guarded Promised fun s e t => e.step fp s t)

abbrev System.Later (s : System) : System → Prop :=
  Trans.Reach (· = s) (Trans.Guarded Promised fun s e t => e.step fp s t)

end Model

structure Shared (fp : FirstPage pg) (s : System) (l f : List Addr) (rsv : Addr) : Prop where
  lists : Lists fp s.world.sc l f
  files : Files fp s.world.sc l rsv
  fileSize : s.world.fileSize = s.world.sc.tmpfileSize
  unlocked : s.world.sc.lock = false
  views : ∀ space ∈ s.procs, View s.world.sc l rsv space

def Kept (s t : System) (l l' : List Addr) : Prop :=
  ∀ a ∈ l, a ∈ l' ∧ t.world.sc.extent a = s.world.sc.extent a

section Calls
variable {fp : FirstPage pg} {s : System} {w : World} {l f : List Addr} {rsv : Addr}

theorem Kept.refl (s : System) (l : List Addr) : Kept s s l l := fun _ ha => ⟨ha, rfl⟩

theorem Kept.trans {t u : System} {l' l'' : List Addr} (h : Kept s t l l') (h' : Kept t u l' l'') :
    Kept s u l l'' := fun a ha =>
  ⟨(h' a (h a ha).1).1, (h' a (h a ha).1).2.trans (h a ha).2⟩

theorem Lists.reserved_ne (L : Lists fp s.world.sc l f) (hrsv : s.world.sc.reservedRegions = some rsv)
    {reg : Addr} (hreg : reg ∈ f) : rsv ≠ reg := by
  rintro rfl
  exact (L.reserved rsv hrsv).2 hreg

theorem Held.shows {space : Space} {r e : Extent} (h : Held space r) (hpos : 0 < r.vaddr)
    (hlo : r.vaddr ≤ e.vaddr) (hhi : e.vaddr + e.len ≤ r.vaddr + r.len) : Shows space e := by
  rintro x o ⟨-, hxlo, hxhi, -⟩
  exact .inl ⟨by omega, h x (Nat.le_trans hlo hxlo) (Nat.lt_of_lt_of_le hxhi hhi)⟩

theorem Shared.mmap {answers : Answers} {addr length prot v : Nat} {fd offset : Int}
    (S : Shared fp s l f rsv) (hbound : s.world.sc.tmpfileSize + length < 2 ^ 63)
    (h : scMmap fp answers s.world addr length prot fd offset = .ok (some v, w)) :
    ∃ l' f', Shared fp { s with world := w } l' f' rsv ∧ l.length < l'.length ∧
      Kept s { s with world := w } l l' ∧ w.sc.procCount = s.world.sc.procCount := by
  have F := S.files
  rcases scMmap_spec S.lists h with ⟨hr, -⟩ | ⟨-, hdvd, reg, rsv', f', -, rfl, M, L'⟩
  · cases hr
  obtain rfl : rsv = rsv' := Option.some.inj (F.reserved.symm.trans M.carved.reserved)
  have hreg : reg ∉ l := S.lists.free_notMem
  have hrsv : rsv ∉ l := (S.lists.reserved rsv F.reserved).1
  have F' := F.carved M.carved hreg hrsv S.lists.first_mem M.size hdvd hbound
  have hothers : ∀ a ∈ l, w.sc.extent a = s.world.sc.extent a := fun a ha =>
    M.carved.others a (fun h => hreg (h ▸ ha)) fun h => hrsv (h ▸ ha)
  refine ⟨l ++ [reg], f', ⟨L', F', M.resized.fileSize, M.unlocked, fun space hspace => ?_⟩, ?_,
    fun a ha => ⟨List.mem_append_left _ ha, hothers a ha⟩, M.carved.procCount⟩
  · have V : View s.world.sc l rsv space := by
      refine S.views space ?_
      rcases List.mem_cons.mp hspace with rfl | hspace
      · exact List.mem_cons.mpr (.inl M.space)
      · exact List.mem_cons_of_mem _ hspace
    have hrest : w.sc.extent rsv = _ := M.carved.rest
    have hregion : w.sc.extent reg = _ := M.carved.region
    have hfits : length < (s.world.sc.extent rsv).len := M.carved.fits
    have hend : (s.world.sc.extent rsv).vaddr + (s.world.sc.extent rsv).len < 2 ^ 64 :=
      F.reservable
    have hvaddr : u64 ((s.world.sc.extent rsv).vaddr + length) =
        (s.world.sc.extent rsv).vaddr + length := u64_of_lt (by omega)
    refine V.add mem_append_singleton hothers (V.reserved.shows F.positive ?_ ?_) ?_ ?_
    · rw [hregion]
      exact Nat.le_refl _
    · rw [hregion]
      exact Nat.add_le_add_left (Nat.le_of_lt hfits) _
    · rw [hrest]
      exact Nat.le_trans (Nat.le_add_right _ _) (Nat.le_of_eq hvaddr.symm)
    · rw [hrest]
      show u64 ((s.world.sc.extent rsv).vaddr + length) +
        ((s.world.sc.extent rsv).len - length) ≤ _
      omega
  · rw [List.length_append]
    exact Nat.lt_succ_self _

theorem Shared.mmap_room {answers : Answers} {addr length prot v : Nat} {fd offset : Int}
    (S : Shared fp s l f rsv)
    (h : scMmap fp answers s.world addr length prot fd offset = .ok (some v, w)) :
    length < (s.world.sc.extent rsv).len ∧
      w.sc.tmpfileSize = u64 (s.world.sc.tmpfileSize + length) ∧
      (w.sc.extent rsv).len = (s.world.sc.extent rsv).len - length := by
  rcases scMmap_spec S.lists h with ⟨hr, -⟩ | ⟨-, -, reg, rsv', f', -, -, M, -⟩
  · cases hr
  obtain rfl : rsv = rsv' := Option.some.inj (S.files.reserved.symm.trans M.carved.reserved)
  exact ⟨M.carved.fits, M.size, congrArg Extent.len M.carved.rest⟩

theorem Shared.importFile {answers : Answers} {fuel addr len prot : Nat} (S : Shared fp s l f rsv)
    (hcount : s.world.sc.procCount = s.others.length + 1)
    (hbound : s.world.sc.tmpfileSize + len < 2 ^ 63) (hout : Outside s.world.sc addr len)
    (h : scImport fp answers fuel s.world addr len prot = .ok (0, w)) :
    ∃ l' f', Shared fp { s with world := w } l' f' rsv ∧ l.length < l'.length ∧
      Kept s { s with world := w } l l' ∧ w.sc.procCount = s.world.sc.procCount := by
  have F := S.files
  rcases scImport_spec S.lists h with ⟨hr, -⟩ | ⟨reg, f', rfl, M, L', -, hdvd, -, -, hend⟩
  · exact absurd rfl hr
  rcases hend with ⟨hr, -⟩ | ⟨-, C⟩
  · exact absurd rfl hr
  have hreg : reg ∉ l := S.lists.free_notMem
  have hrsv := S.lists.reserved_ne F.reserved (List.mem_cons_self ..)
  have hclear := hout.1 l S.lists.active
  have hfree := hout.2 rsv F.reserved
  have F' := F.imported M hreg hrsv S.lists.first_mem hdvd hbound C.addresses hclear hfree
  have hothers : ∀ a ∈ l, w.sc.extent a = s.world.sc.extent a := fun a ha =>
    M.others a fun h => hreg (h ▸ ha)
  -- the process is alone, so its own space is the only one
  have halone : s.others = [] := List.length_eq_zero_iff.mp (by have := M.alone; omega)
  refine ⟨l ++ [reg], f', ⟨L', F', C.resized.fileSize, C.unlocked, fun space hspace => ?_⟩, ?_,
    fun a ha => ⟨List.mem_append_left _ ha, hothers a ha⟩, M.procCount⟩
  · have hone : { s with world := w }.procs = [w.space] := by
      show w.space :: s.others = [w.space]
      rw [halone]
    rw [hone, List.mem_singleton, C.space] at hspace
    subst hspace
    have V := (S.views s.world.space (List.mem_cons_self ..)).beside
      (v := ⟨addr, len, .file prot s.world.sc.tmpfileSize⟩) hclear hfree
    have hregion : w.sc.extent reg = ⟨addr, len, prot, s.world.sc.tmpfileSize⟩ := M.region
    have hrest : w.sc.extent rsv = s.world.sc.extent rsv := M.others rsv hrsv
    refine V.add mem_append_singleton hothers ?_ (hrest ▸ Nat.le_refl _) (hrest ▸ Nat.le_refl _)
    rw [hregion]
    exact Maps.cons.shows
  · rw [List.length_append]
    exact Nat.lt_succ_self _

theorem Shared.importProtNone {answers : Answers} {addr len : Nat} (S : Shared fp s l f rsv)
    (htwo : 2 ≤ l.length) (hout : Outside s.world.sc addr len)
    (h : scImportProtNone fp answers s.world addr len = .ok (0, w)) :
    ∃ l' f', Shared fp { s with world := w } l' f' rsv ∧ l.length < l'.length ∧
      Kept s { s with world := w } l l' ∧ w.sc.procCount = s.world.sc.procCount := by
  have F := S.files
  rcases scImportProtNone_spec S.lists htwo h with
    ⟨hr, -⟩ | ⟨first, reg, rest, f', rfl, rfl, -, hdvd, H, L'⟩
  · exact absurd rfl hr
  rcases H.space with ⟨hr, -⟩ | ⟨-, haddr, hunlocked, hspace', -⟩
  · exact absurd rfl hr
  have hreg : reg ∉ first :: rest := S.lists.free_notMem
  have hrsv := S.lists.reserved_ne F.reserved (List.mem_cons_self ..)
  have hclear := hout.1 _ S.lists.active
  have hfree := hout.2 rsv F.reserved
  have F' := F.hidden H hreg hrsv S.lists.first_mem haddr hdvd hclear hfree
  have hothers : ∀ a ∈ first :: rest, w.sc.extent a = s.world.sc.extent a := fun a ha =>
    H.others a fun h => hreg (h ▸ ha)
  have hmem : ∀ a, a ∈ first :: reg :: rest ↔ a = reg ∨ a ∈ first :: rest := fun a => by
    simp only [List.mem_cons]
    exact or_left_comm
  refine ⟨first :: reg :: rest, f', ⟨L', F', ?_, hunlocked, fun space hspace => ?_⟩,
    Nat.lt_succ_self _, fun a ha => ⟨(hmem a).mpr (.inr ha), hothers a ha⟩, H.procCount⟩
  · show w.fileSize = w.sc.tmpfileSize
    rw [H.fileSize, H.size, S.fileSize]
  · have V : View s.world.sc (first :: rest) rsv space := by
      rcases List.mem_cons.mp hspace with hspace | hspace
      · have hnew : space = ⟨addr, len, .noAccess⟩ :: s.world.space := hspace.trans hspace'
        rw [hnew]
        exact (S.views s.world.space (List.mem_cons_self ..)).beside
          (v := ⟨addr, len, .noAccess⟩) hclear hfree
      · exact S.views space (List.mem_cons_of_mem _ hspace)
    have hregion : w.sc.extent reg = ⟨addr, len, protNone, noOffset⟩ := H.region
    have hrest : w.sc.extent rsv = s.world.sc.extent rsv := H.others rsv hrsv
    refine V.add hmem hothers ?_ (hrest ▸ Nat.le_refl _) (hrest ▸ Nat.le_refl _)
    rw [hregion]
    exact fun x o hx => absurd rfl hx.1

end Calls

section Steps
variable {fp : FirstPage pg} {s t : System} {l f : List Addr} {rsv : Addr}

structure Sharing (fp : FirstPage pg) (s : System) (l f : List Addr) (rsv : Addr) : Prop where
  shared : Shared fp s l f rsv
  two : 2 ≤ l.length
  count : s.world.sc.procCount = s.others.length + 1

theorem mem_procs_setProc {p : Nat} {space space' : Space}
    (h : space' ∈ (s.setProc p space).procs) : space' = space ∨ space' ∈ s.procs := by
  cases p with
  | zero =>
    rcases List.mem_cons.mp h with rfl | h
    · exact .inl rfl
    · exact .inr (List.mem_cons_of_mem _ h)
  | succ i =>
    rcases List.mem_cons.mp h with rfl | h
    · exact .inr (List.mem_cons_self ..)
    · exact (List.mem_or_eq_of_mem_set h).symm.imp_right (List.mem_cons_of_mem _)

theorem Sharing.setProc (S : Sharing fp s l f rsv) {p : Nat} {space : Space}
    (V : View s.world.sc l rsv space) : Sharing fp (s.setProc p space) l f rsv := by
  have hworld : (s.setProc p space).world = { s.world with space :=
      (s.setProc p space).world.space } := by
    cases p <;> rfl
  have hlen : (s.setProc p space).others.length = s.others.length := by
    cases p with
    | zero => rfl
    | succ i => exact List.length_set
  have T := S.shared
  refine ⟨⟨?_, ?_, ?_, ?_, fun space' h => ?_⟩, S.two, ?_⟩
  · rw [hworld]
    exact T.lists
  · rw [hworld]
    exact T.files
  · rw [hworld]
    exact T.fileSize
  · rw [hworld]
    exact T.unlocked
  · rw [hworld]
    rcases mem_procs_setProc h with rfl | h
    · exact V
    · exact T.views space' h
  · rw [hlen, hworld]
    exact S.count

theorem extent_setProc {p : Nat} {space : Space} :
    (s.setProc p space).world.sc.extent = s.world.sc.extent := by
  cases p <;> rfl

theorem mem_procs_of_getElem? {p : Nat} {space : Space} (h : s.procs[p]? = some space) :
    space ∈ s.procs := List.mem_of_getElem? h

theorem Sharing.call {c : Call} (S : Sharing fp s l f rsv) (hp : Promised s (.call c))
    (h : (Event.call c).step fp s t) :
    ∃ l' f', Sharing fp t l' f' rsv ∧ Kept s t l l' := by
  obtain ⟨w, h, rfl⟩ := h
  cases c with
  | mmap answers addr length prot fd offset =>
    obtain ⟨retval, hcall, hret⟩ := Call.mmap_eq_ok h
    obtain ⟨v, rfl⟩ := Option.ne_none_iff_exists'.mp (hret rfl)
    obtain ⟨l', f', S', hlen, hkept, hcount⟩ := S.shared.mmap hp hcall
    exact ⟨l', f', ⟨S', Nat.le_trans S.two (Nat.le_of_lt hlen), hcount.trans S.count⟩, hkept⟩
  | importFile answers fuel addr len prot =>
    obtain ⟨rc, hcall, hret⟩ := Call.importFile_eq_ok h
    obtain rfl := hret rfl
    obtain ⟨l', f', S', hlen, hkept, hcount⟩ := S.shared.importFile S.count hp.1 hp.2 hcall
    exact ⟨l', f', ⟨S', Nat.le_trans S.two (Nat.le_of_lt hlen), hcount.trans S.count⟩, hkept⟩
  | importProtNone answers addr len =>
    obtain ⟨rc, hcall, hret⟩ := Call.importProtNone_eq_ok h
    obtain rfl := hret rfl
    obtain ⟨l', f', S', hlen, hkept, hcount⟩ := S.shared.importProtNone S.two hp hcall
    exact ⟨l', f', ⟨S', Nat.le_trans S.two (Nat.le_of_lt hlen), hcount.trans S.count⟩, hkept⟩

theorem Sharing.join {answers : JoinAnswers} {fuel : Nat} {own : Space} (S : Sharing fp s l f rsv)
    (h : (Event.join answers fuel own).step fp s t) : Sharing fp t l f rsv ∧ Kept s t l l := by
  obtain ⟨space, hjoin, rfl⟩ := h
  have T := S.shared
  have V := scJoin_view T.lists T.files hjoin
  refine ⟨⟨⟨T.lists.congr rfl rfl rfl rfl fun _ _ => rfl, T.files.congr rfl rfl rfl, T.fileSize,
    T.unlocked, fun space' h => ?_⟩, S.two, ?_⟩, fun a ha => ⟨ha, rfl⟩⟩
  · rcases List.mem_cons.mp h with rfl | h
    · exact ⟨(T.views _ (List.mem_cons_self ..)).active, (T.views _ (List.mem_cons_self ..)).reserved⟩
    · rcases List.mem_append.mp h with h | h
      · have V' := T.views space' (List.mem_cons_of_mem _ h)
        exact ⟨V'.active, V'.reserved⟩
      · obtain rfl := List.mem_singleton.mp h
        exact ⟨V.active, V.reserved⟩
  · show s.world.sc.procCount + 1 = (s.others ++ [space]).length + 1
    rw [List.length_append, S.count]
    rfl

theorem Sharing.step {e : Event} (S : Sharing fp s l f rsv) (hp : Promised s e)
    (h : e.step fp s t) : ∃ l' f', Sharing fp t l' f' rsv ∧ Kept s t l l' := by
  have T := S.shared
  cases e with
  | call c => exact S.call hp h
  | join answers fuel own => exact ⟨l, f, S.join h⟩
  | fault p granted vaddr isWrite isInstr =>
    obtain ⟨space, space', hspace, hfault, rfl⟩ := h
    obtain ⟨a, ha, -, -, rfl⟩ := segvHandler_spec T.lists hfault
    have V := T.views space (mem_procs_of_getElem? hspace)
    exact ⟨l, f, S.setProc (V.fault T.files ha), fun a ha => ⟨ha, congrFun extent_setProc a⟩⟩
  | store p x byte =>
    obtain ⟨space, prot, offset, k, -, -, -, -, rfl⟩ := h
    exact ⟨l, f, ⟨⟨T.lists, T.files, T.fileSize, T.unlocked, T.views⟩, S.two, S.count⟩,
      fun a ha => ⟨ha, rfl⟩⟩
  | alloc p start len prot bytes =>
    obtain ⟨space, hspace, rfl⟩ := h
    have V := T.views space (mem_procs_of_getElem? hspace)
    have V' := V.beside (v := ⟨start, len, .anon prot bytes⟩) (hp.1 l T.lists.active)
      (hp.2 rsv T.files.reserved)
    exact ⟨l, f, S.setProc V', fun a ha => ⟨ha, congrFun extent_setProc a⟩⟩

theorem Sharing.run (S : Sharing fp s l f rsv) (h : s.Later fp t) :
    ∃ l' f', Sharing fp t l' f' rsv ∧ Kept s t l l' := by
  induction h with
  | init h =>
    obtain rfl := h
    exact ⟨l, f, S, Kept.refl _ l⟩
  | step _ hst ih =>
    obtain ⟨l₁, f₁, S₁, hkept⟩ := ih
    obtain ⟨l₂, f₂, S₂, hkept'⟩ := S₁.step hst.1 hst.2
    exact ⟨l₂, f₂, S₂, hkept.trans hkept'⟩

end Steps

section Start
variable {fp : FirstPage pg} {s : System}

theorem initWorld_shared {area : Nat} (R : Ranges fp area) (w : World) :
    Shared fp ⟨initWorld fp area w, []⟩ [fp.regions 0] (freeRegions fp) (fp.regions 1) := by
  have F : Files fp (initRoot fp area w.sc.mem) _ _ := initRoot_files R
  refine ⟨initRoot_lists, F, tmpfileSize_initRoot.symm, ?_, fun space hspace => ?_⟩
  · show (initRoot fp area w.sc.mem).lock = false
    rw [initRoot_fields]
    rfl
  · obtain rfl := List.mem_singleton.mp hspace
    refine ⟨fun a ha => ?_, fun x hlo hhi => ?_⟩
    · obtain rfl := List.mem_singleton.mp ha
      have hfirst : (initRoot fp area w.sc.mem).extent (fp.regions 0) = _ := F.first
      show Shows _ ((initRoot fp area w.sc.mem).extent (fp.regions 0))
      rw [hfirst]
      rintro x o ⟨-, hlo, hhi, rfl⟩
      exact .inr ⟨0, x - fp.base, (initWorld_rooted R w).mapped x hlo hhi, rfl⟩
    · have hrsv : (initRoot fp area w.sc.mem).extent (fp.regions 1) = _ :=
        extent_initRoot_reserved
      have hlo' : ((initRoot fp area w.sc.mem).extent (fp.regions 1)).vaddr ≤ x := hlo
      have hhi' : x < ((initRoot fp area w.sc.mem).extent (fp.regions 1)).vaddr +
        ((initRoot fp area w.sc.mem).extent (fp.regions 1)).len := hhi
      rw [hrsv] at hlo' hhi'
      exact ⟨_, AddressSpace.cell_cons_of_covers ⟨hlo', hhi'⟩⟩

theorem System.init.sharing (h : s.init fp) : ∃ l f rsv, Sharing fp s l f rsv := by
  obtain ⟨⟨answers, fuel, w₀, hranges, hinit⟩, hothers⟩ := h
  obtain ⟨area, w₁, len, v, harea, hmap, hlast⟩ := scInit_spec hinit
  have S₀ := initWorld_shared (hranges area harea) w₀
  have hsize₀ : (initWorld fp area w₀).sc.tmpfileSize = pg.bytes := S₀.fileSize.symm
  have hlen₀ : ((initWorld fp area w₀).sc.extent (fp.regions 1)).len = reservedLen :=
    congrArg Extent.len extent_initRoot_reserved
  have hres : reservedLen = 2 ^ 20 := rfl
  have hpage := pg.lt
  obtain ⟨hroom, hsize₁, hlen₁⟩ := S₀.mmap_room hmap
  rw [hlen₀] at hroom hlen₁
  change w₁.sc.tmpfileSize = u64 ((initWorld fp area w₀).sc.tmpfileSize + len) at hsize₁
  rw [hsize₀, u64_of_lt (by omega)] at hsize₁
  have hbound : (initWorld fp area w₀).sc.tmpfileSize + len < 2 ^ 63 := by
    rw [hsize₀]
    omega
  obtain ⟨l, f, S, htwo, -, -⟩ := S₀.mmap hbound hmap
  have T : Shared fp ⟨w₁.registered, []⟩ l f (fp.regions 1) :=
    ⟨S.lists.congr rfl rfl rfl rfl fun _ _ => rfl, S.files.congr rfl rfl rfl, S.fileSize, rfl,
      fun space h => ⟨(S.views space h).active, (S.views space h).reserved⟩⟩
  obtain ⟨world, others⟩ := s
  obtain rfl : others = [] := hothers
  rcases hlast with rfl | ⟨len', v', hmap'⟩
  · exact ⟨l, f, fp.regions 1, T, htwo, rfl⟩
  · obtain ⟨hroom', -⟩ := T.mmap_room hmap'
    have hroom' : len' < (w₁.sc.extent (fp.regions 1)).len := hroom'
    have hbound' : w₁.registered.sc.tmpfileSize + len' < 2 ^ 63 := by
      show w₁.sc.tmpfileSize + len' < 2 ^ 63
      omega
    obtain ⟨l', f', S', hlen, -, hcount⟩ := T.mmap hbound' hmap'
    exact ⟨l', f', fp.regions 1, S', Nat.le_trans htwo (Nat.le_of_lt hlen), hcount⟩

theorem System.Run.sharing (h : System.Run fp s) : ∃ l f rsv, Sharing fp s l f rsv := by
  refine h.inv (fun _ h => h.sharing) fun s e t ⟨l, f, rsv, S⟩ hst => ?_
  obtain ⟨l', f', S', -⟩ := S.step hst.1 hst.2
  exact ⟨l', f', rsv, S'⟩

end Start

section Import
variable {fp : FirstPage pg} {s t : System} {w : World} {l f : List Addr} {rsv : Addr} {space : Space}
  {x b : Nat}

theorem lt_of_page_lt {o n : Nat} (hdvd : pg.bytes ∣ n) (h : o / pg.bytes * pg.bytes < n) : o < n := by
  obtain ⟨m, rfl⟩ := hdvd
  rw [Nat.mul_comm] at h
  have hpage : o / pg.bytes < m := Nat.lt_of_mul_lt_mul_left h
  exact Nat.mul_comm pg.bytes m ▸ (Nat.div_lt_iff_lt_mul pg.pos).mp hpage

theorem load_grow {file file' : Nat → Nat} {size size' : Nat} (hfile : ∀ o < size, file' o = file o)
    (hsize : size ≤ size') (hdvd : pg.bytes ∣ size) (h : load pg file size space x = some b) :
    load pg file' size' space x = some b := by
  unfold load at h ⊢
  split at h
  · exact h
  · split at h
    · rename_i hcond
      have ho := lt_of_page_lt hdvd hcond.2
      rw [if_pos ⟨hcond.1, Nat.lt_of_lt_of_le hcond.2 hsize⟩, hfile _ ho]
      exact h
    · cases h
  · cases h

theorem Copied.load {addr len prot offset : Nat} {size : Nat} (h : w.load pg x = some b)
    {w' : World} (C : Copied fp w w' addr len prot offset size) (hoffset : w.fileSize = offset)
    (hsize : offset + len = size) (hdvd : pg.bytes ∣ w.fileSize) (hread : prot &&& protRead ≠ 0) :
    w'.load pg x = some b := by
  have hold : ∀ o < w.fileSize, (w.ftruncate size).file o = w.file o := fun o ho =>
    if_pos ⟨ho, by omega⟩
  have hle : w.fileSize ≤ size := by omega
  have htrunc : (w.ftruncate size).load pg x = some b := load_grow hold hle hdvd h
  have hfile := C.file
  have hfs := C.resized.fileSize
  by_cases hx : addr ≤ x ∧ x < addr + len
  · have hcell : w'.space.cell x = some (.file prot offset, x - addr) := by
      rw [C.space]
      exact AddressSpace.cell_cons_of_covers hx
    have hbyte : w'.file (offset + (x - addr)) = b := by
      have hback : addr + (offset + (x - addr) - offset) = x := by omega
      rw [hfile]
      dsimp only
      rw [if_pos (by omega), hback, htrunc]
      rfl
    rw [← hbyte]
    exact load_file hcell hread (by omega)
  · have hcell : w'.space.cell x = w.space.cell x := by
      rw [C.space]
      exact AddressSpace.cell_cons_of_not_covers hx
    have hkeep : ∀ o < w.fileSize, w'.file o = w.file o := fun o ho => by
      rw [hfile]
      dsimp only
      rw [if_neg (by omega), hold o ho]
    have hsize' : w.fileSize ≤ w'.fileSize := by omega
    have hload : Region.load pg w'.file w'.fileSize w.space x = some b :=
      load_grow hkeep hsize' hdvd h
    unfold World.load Region.load at hload ⊢
    rw [hcell]
    exact hload

theorem Sharing.import_reads {answers : Answers} {fuel addr len prot : Nat}
    (S : Sharing fp s l f rsv) (hp : Promised s (.call (.importFile answers fuel addr len prot)))
    (h : (Event.call (.importFile answers fuel addr len prot)).step fp s t)
    (hx : read fp s.world s.world.space x = some b) :
    read fp t.world t.world.space x = some b := by
  obtain ⟨l', f', S', hkept⟩ := S.call hp h
  obtain ⟨w, h, rfl⟩ := h
  obtain ⟨rc, hcall, hret⟩ := Call.importFile_eq_ok h
  obtain rfl := hret rfl
  have T := S.shared
  rcases scImport_spec T.lists hcall with ⟨hr, -⟩ | ⟨reg, f', -, M, -, -, -, hread, -, hend⟩
  · exact absurd rfl hr
  rcases hend with ⟨hr, -⟩ | ⟨-, C⟩
  · exact absurd rfl hr
  have hdvd : pg.bytes ∣ s.world.fileSize := T.fileSize ▸ T.files.aligned
  have hbound : s.world.sc.tmpfileSize + len < 2 ^ 63 := hp.1
  have hsize : s.world.sc.tmpfileSize + len = w.sc.tmpfileSize := by
    rw [M.size, u64_of_lt (by omega)]
  have hkeep : ∀ o < s.world.sc.tmpfileSize, w.file o = s.world.file o := fun o ho => by
    rw [C.file]
    dsimp only
    rw [if_neg (by omega)]
    exact if_pos ⟨T.fileSize ▸ ho, by omega⟩
  unfold read at hx
  cases hload : Region.load pg s.world.file s.world.fileSize s.world.space x with
  | some b' =>
    rw [hload] at hx
    obtain rfl := Option.some.inj hx
    have hload' := C.load hload T.fileSize hsize hdvd hread
    unfold World.load at hload'
    unfold read
    dsimp only
    rw [hload']
  | none =>
    -- the byte came with a page fault, and will do so again
    rw [hload] at hx
    dsimp only at hx
    split at hx
    · rename_i space hfault
      obtain ⟨a, ha, hback, hholds, rfl⟩ := segvHandler_spec T.lists hfault
      obtain ⟨hlo, hhi⟩ := (T.files.holds_iff ha).mp hholds
      obtain ⟨o, hx'⟩ : ∃ o, Backs (s.world.sc.extent a) x o := ⟨_, hback, hlo, hhi, rfl⟩
      have hsome : Region.load pg s.world.file s.world.fileSize _ x ≠ none := fun h => by
        rw [h] at hx
        cases hx
      have hprot : (s.world.sc.extent a).prot &&& protRead ≠ 0 := fun h0 => by
        refine hsome ?_
        unfold Region.load
        rw [AddressSpace.cell_cons_of_covers ⟨hlo, hhi⟩]
        exact if_neg fun hc => hc.1 h0
      rw [Maps.cons.load T.files T.fileSize ha hx' hprot] at hx
      obtain rfl := Option.some.inj hx
      have hsame := hkeep o (T.files.backs_inside ha hx')
      obtain ⟨ha', hext⟩ := hkept a ha
      have T' := S'.shared
      rw [← hext] at hx' hprot
      rw [(T'.views _ (List.mem_cons_self ..)).read T'.lists T'.files T'.unlocked T'.fileSize ha'
        hx' hprot]
      exact congrArg some hsame
    · cases hx

end Import

section Main
variable {fp : FirstPage pg}

theorem one_address_one_byte {s : System} (h : s.Run fp) :
    ∃ l, (s.world.sc.links s.world.sc.activeRegions).Holds l ∧
      (∀ a ∈ l, FileBacked (s.world.sc.extent a) →
        pg.bytes ∣ (s.world.sc.extent a).tmpfileOffset ∧
        pg.bytes ∣ (s.world.sc.extent a).tmpfileOffset + (s.world.sc.extent a).len ∧
        (s.world.sc.extent a).tmpfileOffset + (s.world.sc.extent a).len ≤
          s.world.sc.tmpfileSize) ∧
      (∀ a ∈ l, ∀ b ∈ l, a ≠ b → FileBacked (s.world.sc.extent a) →
        FileBacked (s.world.sc.extent b) →
        FileApart (s.world.sc.extent a) (s.world.sc.extent b)) ∧
      (∀ x o o', At s.world.sc l x o → At s.world.sc l x o' → o = o') ∧
      (∀ x y o, At s.world.sc l x o → At s.world.sc l y o → x = y) ∧
      (∀ t l', s.Later fp t → (t.world.sc.links t.world.sc.activeRegions).Holds l' →
        ∀ x o, At s.world.sc l x o → At t.world.sc l' x o) ∧
      (∀ answers fuel addr len prot t,
        Promised s (.call (.importFile answers fuel addr len prot)) →
        (Event.call (.importFile answers fuel addr len prot)).step fp s t →
        ∀ x b, read fp s.world s.world.space x = some b →
          read fp t.world t.world.space x = some b) ∧
      ∀ a ∈ l, ∀ x o, Backs (s.world.sc.extent a) x o →
        (s.world.sc.extent a).prot &&& protRead ≠ 0 →
        (∀ space ∈ s.procs, read fp s.world space x = some (s.world.file o)) ∧
        (∀ answers fuel own space,
          scJoin pg answers fuel s.world.sc own = .ok (some space) →
          load pg s.world.file s.world.fileSize space x = some (s.world.file o)) ∧
        ∀ own granted isWrite isInstr space,
          segvHandler pg granted (fp.regionsCount + 1) s.world.sc own x isWrite isInstr =
            .ok space →
          load pg s.world.file s.world.fileSize space x = some (s.world.file o) := by
  obtain ⟨l, f, rsv, S⟩ := h.sharing
  have T := S.shared
  have F := T.files
  refine ⟨l, T.lists.active, fun a ha hback => ?_, F.fileApart, fun x o o' h h' => F.at_unique h h',
    fun x y o h h' => F.at_inj h h', fun t l' hrun hl' x o hx => ?_,
    fun _ _ _ _ _ t hp hstep x b hx => S.import_reads hp hstep hx,
    fun a ha x o hx hread => ⟨fun space hspace => ?_, fun _ _ _ space hjoin => ?_,
      fun own _ _ _ space hfault => ?_⟩⟩
  · have hstored := F.stored a ha
    have haligned := hstored.aligned hback
    exact ⟨haligned, Nat.dvd_add haligned hstored.whole, hstored.inside hback⟩
  · obtain ⟨l₁, f₁, S₁, hkept⟩ := S.run hrun
    obtain rfl := hl'.unique S₁.shared.lists.active
    exact hx.mono (fun a ha => (hkept a ha).1) fun a ha => (hkept a ha).2
  · exact (T.views space hspace).read T.lists F T.unlocked T.fileSize ha hx hread
  · exact ((scJoin_maps T.lists F hjoin).1 a ha).load F T.fileSize ha hx hread
  · obtain ⟨b, hb, -, hholds, rfl⟩ := segvHandler_spec T.lists hfault
    obtain rfl := F.region_unique ha hb ⟨hx.2.1, hx.2.2.1⟩ ((F.holds_iff hb).mp hholds)
    exact Maps.cons.load F T.fileSize ha hx hread

end Main

section Run

def page64 : PageSize := ⟨64, Nat.succ_pos 63, by decide, by decide⟩

def firstPage64 : FirstPage page64 :=
  ⟨0x10000, 16, 8, 8, ⟨0x400, rfl⟩, by decide, by decide, by decide⟩

theorem initAnswers_promise64 (area : Nat) (h : initAnswers.area = some area) :
    Ranges firstPage64 area := by
  obtain rfl := Option.some.inj h
  exact ⟨by decide, by decide, .inl (by decide)⟩

/-- The creator imports a buffer, and a process joins. -/
theorem one_address_one_byte_imported : ∃ s : System, s.Run firstPage64 ∧ s.procs.length = 2 ∧
    ∀ space ∈ s.procs, read firstPage64 s.world space 0x400007 = some 7 := by
  obtain ⟨w₀, hinit, hholds₀, hsize, hrsv, hclear, h0, h2, h3, w₁, himport, space, hjoin, hread, hholds₁,
      ⟨o, hx⟩, hprot⟩ :
      ∃ w₀, scInit firstPage64 initAnswers 10 emptyWorld = .ok (some w₀) ∧
        (w₀.sc.links w₀.sc.activeRegions).Holds [firstPage64.regions 0, firstPage64.regions 2,
          firstPage64.regions 3] ∧
        w₀.sc.tmpfileSize + 64 < 2 ^ 63 ∧
        w₀.sc.reservedRegions = some (firstPage64.regions 1) ∧
        Clear (w₀.sc.extent (firstPage64.regions 1)) 0x400000 64 ∧
        Clear (w₀.sc.extent (firstPage64.regions 0)) 0x400000 64 ∧
        Clear (w₀.sc.extent (firstPage64.regions 2)) 0x400000 64 ∧
        Clear (w₀.sc.extent (firstPage64.regions 3)) 0x400000 64 ∧
        ∃ w₁, (Call.importFile granted 9 0x400000 64 3).run firstPage64 { w₀ with space :=
            ⟨0x400000, 64, .anon 3 fun i => i⟩ :: w₀.space } = .ok (true, w₁) ∧
          ∃ space, scJoin page64 joinGranted 9 w₁.sc [] = .ok (some space) ∧
            read firstPage64 { w₁ with sc := { w₁.sc with procCount := w₁.sc.procCount + 1 } }
              w₁.space 0x400007 = some 7 ∧
            (w₁.sc.links w₁.sc.activeRegions).Holds [firstPage64.regions 0,
              firstPage64.regions 2, firstPage64.regions 3, firstPage64.regions 4] ∧
            (∃ o, Backs (w₁.sc.extent (firstPage64.regions 4)) 0x400007 o) ∧
            (w₁.sc.extent (firstPage64.regions 4)).prot &&& protRead ≠ 0 :=
    ⟨_, rfl, ⟨rfl, rfl, rfl, rfl⟩, Nat.le_of_ble_eq_true rfl, rfl, .inl (Nat.le_of_ble_eq_true rfl),
      .inl (Nat.le_of_ble_eq_true rfl), .inl (Nat.le_of_ble_eq_true rfl),
      .inl (Nat.le_of_ble_eq_true rfl), _, rfl, _, rfl, rfl, ⟨rfl, rfl, rfl, rfl, rfl⟩,
      ⟨_, nofun, Nat.le_of_ble_eq_true rfl, Nat.le_of_ble_eq_true rfl, rfl⟩,
      Nat.one_ne_zero⟩
  have hout : Outside w₀.sc 0x400000 64 := by
    refine ⟨fun l hl a ha => ?_, fun rsv h => ?_⟩
    · rw [hl.unique hholds₀] at ha
      simp only [List.mem_cons, List.not_mem_nil, or_false] at ha
      rcases ha with rfl | rfl | rfl <;> assumption
    · obtain rfl := Option.some.inj (hrsv.symm.trans h)
      exact hclear
  have h₀ : System.Run firstPage64 ⟨w₀, []⟩ :=
    .init ⟨⟨initAnswers, 10, emptyWorld, initAnswers_promise64, hinit⟩, rfl⟩
  have halloc : (Event.alloc 0 0x400000 64 3 fun i => i).step firstPage64 ⟨w₀, []⟩
      ⟨{ w₀ with space := ⟨0x400000, 64, .anon 3 fun i => i⟩ :: w₀.space }, []⟩ :=
    ⟨w₀.space, rfl, rfl⟩
  have h₁ := h₀.step (l := Event.alloc 0 0x400000 64 3 fun i => i) ⟨hout, halloc⟩
  have himport' : (Event.call (.importFile granted 9 0x400000 64 3)).step firstPage64
      ⟨{ w₀ with space := ⟨0x400000, 64, .anon 3 fun i => i⟩ :: w₀.space }, []⟩ ⟨w₁, []⟩ :=
    ⟨w₁, himport, rfl⟩
  have h₂ := h₁.step (l := Event.call (.importFile granted 9 0x400000 64 3)) ⟨⟨hsize, hout⟩, himport'⟩
  have hjoin' : (Event.join joinGranted 9 []).step firstPage64 ⟨w₁, []⟩
      ⟨{ w₁ with sc := { w₁.sc with procCount := w₁.sc.procCount + 1 } }, [space]⟩ :=
    ⟨space, hjoin, rfl⟩
  have h₃ := h₂.step (l := Event.join joinGranted 9 []) ⟨trivial, hjoin'⟩
  refine ⟨_, h₃, rfl, ?_⟩
  obtain ⟨l, hl, -, -, -, -, -, -, hreaders⟩ := one_address_one_byte h₃
  have hmem : firstPage64.regions 4 ∈ l := by
    rw [hl.unique hholds₁]
    simp
  obtain ⟨hprocs, -⟩ := hreaders _ hmem 0x400007 o hx hprot
  have hbyte := (hprocs _ (List.mem_cons_self ..)).symm.trans hread
  exact fun space' h => (hprocs space' h).trans hbyte

end Run
end Subcontexts.Region
