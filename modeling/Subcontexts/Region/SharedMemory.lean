import Subcontexts.Region.Sharing

/-! All processes share one flat memory: the address spaces, the page faults, the offsets in the
backing file and the region table together do what a single map from addresses to bytes does. -/

namespace Subcontexts.Region
variable {pg : PageSize}

/-- The memory that a subcontext stands for: the bytes at the addresses of its regions. -/
abbrev Flat := Nat → Option Nat

inductive Flat.Op where
  | idle
  | write (x byte : Nat)
  | extend (start len : Nat) (bytes : Nat → Nat)

def Flat.Step (m : Flat) : Flat.Op → Flat → Prop
  | .idle, m' => m' = m
  | .write x byte, m' => m x ≠ none ∧ m' = Function.update m x (some byte)
  | .extend start len bytes, m' =>
    (∀ x, start ≤ x → x < start + len → m x = none) ∧
      m' = fun x => if start ≤ x ∧ x < start + len then some (bytes x) else m x

def Contains (s : System) (x byte : Nat) : Prop :=
  ∃ l o, (s.world.sc.links s.world.sc.activeRegions).Holds l ∧ At s.world.sc l x o ∧
    s.world.file o = byte

open Classical in
/-- The flat memory that the system stands for. -/
noncomputable def memory (s : System) : Flat :=
  fun x => if h : ∃ byte, Contains s x byte then some h.choose else none

def Event.Effect (pg : PageSize) (s : System) : Event → Flat.Op → Prop
  | .call (.mmap _ _ length _ _ _), op => ∃ start, op = .extend start length fun _ => 0
  | .call (.importFile _ _ addr len _), op =>
    ∃ bytes, op = .extend addr len bytes ∧
      ∀ x, addr ≤ x → x < addr + len → s.world.load pg x = some (bytes x)
  | .store _ x byte, op => op = .write x byte
  | .call (.importProtNone ..), op | .join .., op | .fault .., op | .alloc .., op => op = .idle

/-- A process that joins has not mapped the backing file by itself. -/
def OwnMemory : Event → Prop
  | .join _ _ own => ∀ x prot offset k, own.cell x ≠ some (.file prot offset, k)
  | _ => True

/-- The creator has mapped the first page of the backing file, and nothing else of it. -/
def FirstPageOnly (fp : FirstPage pg) (space : Space) : Prop :=
  ∀ x prot offset k, space.cell x = some (.file prot offset, k) →
    Backs ⟨fp.base, pg.bytes, protRead ||| protWrite, 0⟩ x (offset + k)

/-- Runs in which the processes map the backing file through the subcontext only. -/
abbrev System.SharedRun (fp : FirstPage pg) : System → Prop :=
  Trans.Reach (fun s => System.init fp s ∧ FirstPageOnly fp s.world.space)
    (Trans.Guarded (fun s e => Promised s e ∧ OwnMemory e) fun s e t => e.step fp s t)

def Faithful (s : Sc) (l : List Addr) (space : Space) : Prop :=
  ∀ x prot offset k, space.cell x = some (.file prot offset, k) → At s l x (offset + k)

section Memory
variable {fp : FirstPage pg} {s t : System} {l l' f f' : List Addr} {rsv rsv' reg : Addr} {x byte : Nat}

theorem contains_iff (hl : (s.world.sc.links s.world.sc.activeRegions).Holds l) :
    Contains s x byte ↔ ∃ o, At s.world.sc l x o ∧ s.world.file o = byte := by
  constructor
  · rintro ⟨l', o, hl', hx, hbyte⟩
    rw [hl'.unique hl] at hx
    exact ⟨o, hx, hbyte⟩
  · rintro ⟨o, hx, hbyte⟩
    exact ⟨l, o, hl, hx, hbyte⟩

theorem memory_eq_some (S : Sharing fp s l f rsv) :
    memory s x = some byte ↔ ∃ o, At s.world.sc l x o ∧ s.world.file o = byte := by
  have T := S.shared
  rw [← contains_iff T.lists.active]
  have hunique : ∀ b, Contains s x b → Contains s x byte → b = byte := by
    intro b h h'
    obtain ⟨o, hx, rfl⟩ := (contains_iff T.lists.active).mp h
    obtain ⟨o', hx', rfl⟩ := (contains_iff T.lists.active).mp h'
    rw [T.files.at_unique hx hx']
  unfold memory
  split
  · rename_i h
    constructor
    · intro heq
      exact Option.some.inj heq ▸ h.choose_spec
    · exact fun hbyte => congrArg some (hunique _ h.choose_spec hbyte)
  · rename_i h
    exact ⟨fun heq => absurd heq.symm (Option.some_ne_none byte), fun hbyte => absurd ⟨byte, hbyte⟩ h⟩

theorem memory_eq_none (S : Sharing fp s l f rsv) : memory s x = none ↔ ∀ o, ¬ At s.world.sc l x o := by
  rw [Option.eq_none_iff_forall_ne_some]
  constructor
  · exact fun h o hx => h _ ((memory_eq_some S).mpr ⟨o, hx, rfl⟩)
  · intro h byte hbyte
    obtain ⟨o, hx, -⟩ := (memory_eq_some S).mp hbyte
    exact h o hx

theorem memory_congr (hsc : t.world.sc.activeRegions = s.world.sc.activeRegions)
    (hmem : t.world.sc.mem = s.world.sc.mem) (hfile : t.world.file = s.world.file) :
    memory t = memory s := by
  have hlinks : t.world.sc.links t.world.sc.activeRegions =
      s.world.sc.links s.world.sc.activeRegions := by
    unfold Sc.links
    rw [hsc, hmem]
  have hext : t.world.sc.extent = s.world.sc.extent := by
    unfold Sc.extent
    rw [hmem]
  have hcontains : Contains t = Contains s := by
    funext x byte
    unfold Contains At
    rw [hlinks, hext, hfile]
  unfold memory
  rw [hcontains]

structure Grown (s t : System) (l l' : List Addr) (reg : Addr) : Prop where
  mem : ∀ a, a ∈ l' ↔ a = reg ∨ a ∈ l
  fresh : reg ∉ l
  old : ∀ a ∈ l, t.world.sc.extent a = s.world.sc.extent a
  file : ∀ o < s.world.sc.tmpfileSize, t.world.file o = s.world.file o

theorem Grown.at_iff (G : Grown s t l l' reg) {o : Nat} :
    At t.world.sc l' x o ↔ Backs (t.world.sc.extent reg) x o ∨ At s.world.sc l x o := by
  constructor
  · rintro ⟨a, ha, hx⟩
    rcases (G.mem a).mp ha with rfl | ha
    · exact .inl hx
    · exact .inr ⟨a, ha, G.old a ha ▸ hx⟩
  · rintro (hx | ⟨a, ha, hx⟩)
    · exact ⟨reg, (G.mem reg).mpr (.inl rfl), hx⟩
    · exact ⟨a, (G.mem a).mpr (.inr ha), G.old a ha ▸ hx⟩

theorem Grown.extends (G : Grown s t l l' reg) (S : Sharing fp s l f rsv) (S' : Sharing fp t l' f' rsv')
    (hback : FileBacked (t.world.sc.extent reg)) (bytes : Nat → Nat)
    (hbytes : ∀ x o, Backs (t.world.sc.extent reg) x o → t.world.file o = bytes x) :
    Flat.Step (memory s) (.extend (t.world.sc.extent reg).vaddr (t.world.sc.extent reg).len bytes)
      (memory t) := by
  have hnone : ∀ x, (t.world.sc.extent reg).vaddr ≤ x →
      x < (t.world.sc.extent reg).vaddr + (t.world.sc.extent reg).len → memory s x = none := by
    intro x hlo hhi
    refine (memory_eq_none S).mpr fun o ⟨a, ha, hx⟩ => G.fresh ?_
    rw [← G.old a ha] at hx
    have hreg := S'.shared.files.region_unique ((G.mem reg).mpr (.inl rfl))
      ((G.mem a).mpr (.inr ha)) ⟨hlo, hhi⟩ ⟨hx.2.1, hx.2.2.1⟩
    exact hreg ▸ ha
  refine ⟨hnone, funext fun x => ?_⟩
  by_cases hx : (t.world.sc.extent reg).vaddr ≤ x ∧
      x < (t.world.sc.extent reg).vaddr + (t.world.sc.extent reg).len
  · rw [if_pos hx]
    have hbacks : Backs (t.world.sc.extent reg) x _ := ⟨hback, hx.1, hx.2, rfl⟩
    exact (memory_eq_some S').mpr ⟨_, G.at_iff.mpr (.inl hbacks), hbytes x _ hbacks⟩
  · rw [if_neg hx]
    refine Option.ext fun byte => ?_
    rw [memory_eq_some S', memory_eq_some S]
    refine exists_congr fun o => ?_
    rw [G.at_iff, or_iff_right fun h => hx ⟨h.2.1, h.2.2.1⟩]
    refine and_congr_right fun ⟨a, ha, h⟩ => ?_
    rw [G.file o (S.shared.files.backs_inside ha h)]

theorem Grown.hides (G : Grown s t l l' reg) (S : Sharing fp s l f rsv) (S' : Sharing fp t l' f' rsv')
    (hback : ¬ FileBacked (t.world.sc.extent reg)) : memory t = memory s := by
  funext x
  refine Option.ext fun byte => ?_
  rw [memory_eq_some S', memory_eq_some S]
  refine exists_congr fun o => ?_
  rw [G.at_iff, or_iff_right fun h => hback h.1]
  refine and_congr_right fun ⟨a, ha, h⟩ => ?_
  rw [G.file o (S.shared.files.backs_inside ha h)]

end Memory

section Faithful
variable {fp : FirstPage pg} {s t : Sc} {l l' f : List Addr} {reg rsv : Addr} {space space' : Space}

theorem Faithful.mono (h : Faithful s l space) (hsub : ∀ a ∈ l, a ∈ l')
    (hext : ∀ a ∈ l, t.extent a = s.extent a) : Faithful t l' space :=
  fun x prot offset k hcell => (h x prot offset k hcell).mono hsub hext

theorem Faithful.cons (h : Faithful s l space) {v : Vma Backing}
    (hv : ∀ prot offset, v.backing = .file prot offset →
      ∀ x, v.Covers x → At s l x (offset + (x - v.start))) : Faithful s l (v :: space) := by
  intro x prot offset k hcell
  by_cases hx : v.Covers x
  · rw [AddressSpace.cell_cons_of_covers hx] at hcell
    obtain ⟨hback, rfl⟩ := Prod.mk.inj (Option.some.inj hcell)
    exact hv prot offset hback x hx
  · rw [AddressSpace.cell_cons_of_not_covers hx] at hcell
    exact h x prot offset k hcell

theorem Faithful.vma (h : Faithful s l space) {a : Addr} (ha : a ∈ l)
    (hback : FileBacked (s.extent a)) : Faithful s l ((s.extent a).vma :: space) := by
  refine h.cons fun prot offset heq x hx => ?_
  obtain ⟨-, rfl⟩ := Backing.file.inj heq
  exact ⟨a, ha, hback, hx.1, hx.2, rfl⟩

theorem anonymous_ne_file (prot prot' offset : Nat) : anonymous prot ≠ .file prot' offset := by
  unfold anonymous
  split
  · exact Backing.noConfusion
  · exact Backing.noConfusion

theorem Faithful.joinRegion {tmpfileSize : Nat} {active granted : Bool} {a : Addr}
    (h : Faithful s l space) (ha : active = true → a ∈ l)
    (hmap : joinRegion pg tmpfileSize active (s.extent a) granted space = .ok (some space')) :
    Faithful s l space' := by
  unfold Region.joinRegion at hmap
  split at hmap
  · rename_i hactive
    obtain ⟨-, -, hmap⟩ := bind_eq_ok.mp hmap
    obtain ⟨_, haligned, hmap⟩ := bind_eq_ok.mp hmap
    obtain ⟨-, rfl⟩ := mapHint_spec (Except.ok.inj hmap)
    refine h.vma (ha hactive.1) fun hoff => ?_
    have hzero := check_eq_ok.mp haligned
    rw [hoff] at hzero
    exact noOffset_not_aligned pg hzero
  · obtain ⟨-, -, hmap⟩ := bind_eq_ok.mp hmap
    obtain ⟨-, rfl⟩ := mapHint_spec (Except.ok.inj hmap)
    exact h.cons fun prot offset heq => absurd heq (anonymous_ne_file _ prot offset)

theorem Faithful.joinActive {granted : Addr → Bool} {fuel : Nat} {cur : Option Addr} {v : List Addr}
    (hl : Seg (fun a => (s.mem a).next) cur v none) (hv : ∀ a ∈ v, a ∈ l) (h : Faithful s l space)
    (hmap : joinList pg s true granted fuel cur space = .ok (some space')) :
    Faithful s l space' := by
  induction v generalizing cur fuel space with
  | nil =>
    obtain rfl := hl
    cases fuel with
    | zero => cases hmap
    | succ fuel =>
      obtain rfl := Option.some.inj (Except.ok.inj hmap)
      exact h
  | cons b rest ih =>
    obtain ⟨rfl, hrest⟩ := hl
    cases fuel with
    | zero => cases hmap
    | succ fuel =>
      rw [joinList] at hmap
      obtain ⟨map, hregion, hmap⟩ := bind_eq_ok.mp hmap
      cases map with
      | none => cases hmap
      | some space₁ =>
        have h₁ := h.joinRegion (fun _ => hv b (List.mem_cons_self ..)) hregion
        exact ih hrest (fun a ha => hv a (List.mem_cons_of_mem _ ha)) h₁ hmap

theorem Faithful.joinReserved {granted : Addr → Bool} {fuel : Nat} {cur : Option Addr}
    (h : Faithful s l space)
    (hmap : joinList pg s false granted fuel cur space = .ok (some space')) :
    Faithful s l space' := by
  induction fuel generalizing cur space with
  | zero => cases hmap
  | succ fuel ih =>
    cases cur with
    | none =>
      obtain rfl := Option.some.inj (Except.ok.inj hmap)
      exact h
    | some cur =>
      rw [joinList] at hmap
      obtain ⟨map, hregion, hmap⟩ := bind_eq_ok.mp hmap
      cases map with
      | none => cases hmap
      | some space₁ =>
        exact ih (h.joinRegion (a := cur) (fun hactive => Bool.noConfusion hactive) hregion) hmap

theorem Faithful.scJoin {answers : JoinAnswers} {fuel : Nat} {own : Space} (L : Lists fp s l f)
    (F : Files fp s l rsv) (hown : ∀ x prot offset k, own.cell x ≠ some (.file prot offset, k))
    (h : scJoin pg answers fuel s own = .ok (some space)) : Faithful s l space := by
  have hempty : Faithful s l own := fun x prot offset k hcell => absurd hcell (hown x prot offset k)
  unfold Region.scJoin at h
  obtain ⟨-, -, h⟩ := bind_eq_ok.mp h
  obtain ⟨hhead, hseg⟩ : s.activeRegions = some (fp.regions 0) ∧ ∃ rest, l = fp.regions 0 :: rest ∧
      Seg (fun a => (s.mem a).next) (s.mem (fp.regions 0)).next rest none := by
    have hact := L.active
    cases l with
    | nil => exact absurd L.first.symm (Option.some_ne_none _)
    | cons first rest =>
      obtain rfl : first = fp.regions 0 := Option.some.inj L.first
      exact ⟨hact.1, rest, rfl, hact.2⟩
  obtain ⟨rest, hrest, hseg⟩ := hseg
  rw [hhead] at h
  dsimp only at h
  split at h
  · cases h
  rename_i space₀ hroot
  rw [rootDest_eq] at hroot
  obtain ⟨-, rfl⟩ := mapHint_spec hroot
  split at h
  · cases h
  obtain ⟨-, -, h⟩ := bind_eq_ok.mp h
  obtain ⟨-, -, h⟩ := bind_eq_ok.mp h
  obtain ⟨map, hmap, h⟩ := bind_eq_ok.mp h
  cases map with
  | none => cases h
  | some space₁ =>
    have hpage : Faithful s l (⟨fp.base, pg.bytes, .file (protRead ||| protWrite) 0⟩ :: own) := by
      have hvma := hempty.vma L.first_mem (by rw [F.first]; exact (by decide : 0 ≠ noOffset))
      rw [F.first] at hvma
      exact hvma
    have hactive := hpage.joinActive hseg (fun a ha => hrest ▸ List.mem_cons_of_mem _ ha) hmap
    exact hactive.joinReserved h

end Faithful

theorem load_of_not_file {file file' : Nat → Nat} {fileSize fileSize' : Nat} {space : Space} {x : Nat}
    (h : ∀ prot offset k, space.cell x ≠ some (.file prot offset, k)) :
    load pg file fileSize space x = load pg file' fileSize' space x := by
  unfold load
  cases hcell : space.cell x with
  | none => rfl
  | some c =>
    obtain ⟨backing, k⟩ := c
    cases backing with
    | noAccess => rfl
    | anon prot bytes => rfl
    | file prot offset => exact absurd hcell (h prot offset k)

section Steps
variable {fp : FirstPage pg} {s t : System} {l f : List Addr} {rsv : Addr}

structure SharedMemory (fp : FirstPage pg) (s : System) (l f : List Addr) (rsv : Addr) : Prop where
  sharing : Sharing fp s l f rsv
  faithful : ∀ space ∈ s.procs, Faithful s.world.sc l space

theorem SharedMemory.mmap {answers : Answers} {addr length prot : Nat} {fd offset : Int}
    (M : SharedMemory fp s l f rsv)
    (hp : Promised s (.call (.mmap answers addr length prot fd offset)))
    (h : (Event.call (.mmap answers addr length prot fd offset)).step fp s t) :
    (∃ l' f', SharedMemory fp t l' f' rsv) ∧
      ∃ start, Flat.Step (memory s) (.extend start length fun _ => 0) (memory t) := by
  have S := M.sharing
  obtain ⟨l', f', S', -⟩ := S.call hp h
  obtain ⟨w, h, rfl⟩ := h
  obtain ⟨retval, hcall, hret⟩ := Call.mmap_eq_ok h
  obtain ⟨v, rfl⟩ := Option.ne_none_iff_exists'.mp (hret rfl)
  rcases scMmap_spec S.shared.lists hcall with ⟨hr, -⟩ | ⟨-, -, reg, rsv', f'', -, rfl, C, L'⟩
  · cases hr
  obtain rfl : rsv = rsv' := Option.some.inj (S.shared.files.reserved.symm.trans C.carved.reserved)
  obtain rfl := S'.shared.lists.active.unique L'.active
  have hsize : s.world.fileSize = s.world.sc.tmpfileSize := S.shared.fileSize
  have hbound : s.world.sc.tmpfileSize + length < 2 ^ 63 := hp
  have hnew : w.sc.tmpfileSize = s.world.sc.tmpfileSize + length := by
    have h : w.sc.tmpfileSize = u64 (s.world.sc.tmpfileSize + length) := C.size
    rw [h, u64_of_lt (by omega)]
  have hrsv : rsv ∉ l := (S.shared.lists.reserved rsv S.shared.files.reserved).1
  have hreg : reg ∉ l := S.shared.lists.free_notMem
  have hregion : w.sc.extent reg = ⟨(s.world.sc.extent rsv).vaddr, length, prot % 256,
      s.world.sc.tmpfileSize⟩ := by
    have h : w.sc.extent reg = _ := C.carved.region
    rw [h, hnew, sub64_of_le (by omega) (by omega), Nat.add_sub_cancel]
    rfl
  have hfile : ∀ o, w.file o = if o < s.world.fileSize ∧ o < w.sc.tmpfileSize then s.world.file o else 0 :=
    fun o => congrFun C.file o
  have G : Grown s { s with world := w } l (l ++ [reg]) reg := by
    refine ⟨mem_append_singleton, hreg, fun a ha => ?_, fun o ho => ?_⟩
    · exact C.carved.others a (fun h => hreg (h ▸ ha)) fun h => hrsv (h ▸ ha)
    · show w.file o = _
      rw [hfile, if_pos (by omega)]
  refine ⟨⟨l ++ [reg], f', S', fun space hspace => ?_⟩, (s.world.sc.extent rsv).vaddr, ?_⟩
  · have hmem : space ∈ s.procs := by
      rcases List.mem_cons.mp hspace with rfl | hspace
      · exact List.mem_cons.mpr (.inl C.space)
      · exact List.mem_cons_of_mem _ hspace
    exact (M.faithful space hmem).mono (fun a ha => List.mem_append_left _ ha) G.old
  · have hback : FileBacked (w.sc.extent reg) := by
      rw [hregion]
      intro hoff
      have hoff : s.world.sc.tmpfileSize = noOffset := hoff
      unfold noOffset at hoff
      omega
    have hext := G.extends S S' hback (fun _ => 0) fun x o hx => by
      have hx : Backs (w.sc.extent reg) x o := hx
      rw [hregion] at hx
      obtain ⟨-, -, -, ho⟩ := hx
      have ho : o = s.world.sc.tmpfileSize + (x - (s.world.sc.extent rsv).vaddr) := ho
      show w.file o = 0
      rw [hfile, if_neg (by omega)]
    have hregion' : System.world { s with world := w } = w := rfl
    rw [hregion', hregion] at hext
    exact hext

theorem SharedMemory.importFile {answers : Answers} {fuel addr len prot : Nat}
    (M : SharedMemory fp s l f rsv)
    (hp : Promised s (.call (.importFile answers fuel addr len prot)))
    (h : (Event.call (.importFile answers fuel addr len prot)).step fp s t) :
    (∃ l' f', SharedMemory fp t l' f' rsv) ∧ ∃ bytes,
      (∀ x, addr ≤ x → x < addr + len → s.world.load pg x = some (bytes x)) ∧
      Flat.Step (memory s) (.extend addr len bytes) (memory t) := by
  have S := M.sharing
  obtain ⟨l', f', S', -⟩ := S.call hp h
  obtain ⟨w, h, rfl⟩ := h
  obtain ⟨rc, hcall, hret⟩ := Call.importFile_eq_ok h
  obtain rfl := hret rfl
  rcases scImport_spec S.shared.lists hcall with ⟨hr, -⟩ | ⟨reg, f'', rfl, I, L', -, -, -, -, hend⟩
  · exact absurd rfl hr
  rcases hend with ⟨hr, -⟩ | ⟨-, C⟩
  · exact absurd rfl hr
  obtain rfl := S'.shared.lists.active.unique L'.active
  have hsize : s.world.fileSize = s.world.sc.tmpfileSize := S.shared.fileSize
  have hbound : s.world.sc.tmpfileSize + len < 2 ^ 63 := hp.1
  have hnew : w.sc.tmpfileSize = s.world.sc.tmpfileSize + len := by
    have h : w.sc.tmpfileSize = u64 (s.world.sc.tmpfileSize + len) := I.size
    rw [h, u64_of_lt (by omega)]
  have hreg : reg ∉ l := S.shared.lists.free_notMem
  have hregion : w.sc.extent reg = ⟨addr, len, prot, s.world.sc.tmpfileSize⟩ := I.region
  have hclear := hp.2.1 l S.shared.lists.active
  -- nothing of the range is mapped from the file, so `ftruncate` changes nothing there
  have hload : ∀ x, addr ≤ x → x < addr + len →
      (s.world.ftruncate w.sc.tmpfileSize).load pg x = s.world.load pg x := by
    intro x hlo hhi
    refine load_of_not_file fun prot' offset k hcell => ?_
    obtain ⟨a, ha, -, hlo', hhi', -⟩ :=
      M.faithful s.world.space (List.mem_cons_self ..) x prot' offset k hcell
    have hapart := hclear a ha
    unfold Clear at hapart
    omega
  have G : Grown s { s with world := w } l (l ++ [reg]) reg := by
    refine ⟨mem_append_singleton, hreg, fun a ha => I.others a fun h => hreg (h ▸ ha), fun o ho => ?_⟩
    show w.file o = _
    rw [C.file]
    dsimp only
    rw [if_neg (by omega)]
    exact if_pos (by constructor <;> omega)
  refine ⟨⟨l ++ [reg], f', S', fun space hspace => ?_⟩, fun x => (s.world.load pg x).getD 0,
    fun x hlo hhi => ?_, ?_⟩
  · rcases List.mem_cons.mp hspace with rfl | hspace
    · show Faithful w.sc (l ++ [reg]) w.space
      rw [C.space]
      refine ((M.faithful s.world.space (List.mem_cons_self ..)).mono
        (fun a ha => List.mem_append_left _ ha) G.old).cons fun prot' offset heq x hx => ?_
      obtain ⟨-, rfl⟩ := Backing.file.inj heq
      have hbacks : Backs (w.sc.extent reg) x (s.world.sc.tmpfileSize + (x - addr)) := by
        rw [hregion]
        refine ⟨fun hoff => ?_, hx.1, hx.2, rfl⟩
        have hoff : s.world.sc.tmpfileSize = noOffset := hoff
        unfold noOffset at hoff
        omega
      exact ⟨reg, List.mem_append_right _ (List.mem_singleton_self reg), hbacks⟩
    · exact (M.faithful space (List.mem_cons_of_mem _ hspace)).mono
        (fun a ha => List.mem_append_left _ ha) G.old
  · have hread := C.readable (x - addr) (by omega)
    rw [Nat.add_sub_cancel' hlo, hload x hlo hhi] at hread
    obtain ⟨byte, hbyte⟩ := Option.ne_none_iff_exists'.mp hread
    show _ = some ((s.world.load pg x).getD 0)
    rw [hbyte]
    rfl
  · have hback : FileBacked (w.sc.extent reg) := by
      rw [hregion]
      intro hoff
      have hoff : s.world.sc.tmpfileSize = noOffset := hoff
      unfold noOffset at hoff
      omega
    have hext := G.extends S S' hback (fun x => (s.world.load pg x).getD 0) fun x o hx => by
      have hx : Backs (w.sc.extent reg) x o := hx
      rw [hregion] at hx
      obtain ⟨-, hlo, hhi, ho⟩ := hx
      have hlo : addr ≤ x := hlo
      have hhi : x < addr + len := hhi
      have ho : o = s.world.sc.tmpfileSize + (x - addr) := ho
      show w.file o = _
      rw [C.file]
      dsimp only
      have hx : addr + (o - s.world.sc.tmpfileSize) = x := by omega
      rw [if_pos (by constructor <;> omega), hx, hload x hlo hhi]
    have hregion' : System.world { s with world := w } = w := rfl
    rw [hregion', hregion] at hext
    exact hext

theorem SharedMemory.importProtNone {answers : Answers} {addr len : Nat}
    (M : SharedMemory fp s l f rsv) (hp : Promised s (.call (.importProtNone answers addr len)))
    (h : (Event.call (.importProtNone answers addr len)).step fp s t) :
    (∃ l' f', SharedMemory fp t l' f' rsv) ∧ memory t = memory s := by
  have S := M.sharing
  obtain ⟨l', f', S', -⟩ := S.call hp h
  obtain ⟨w, h, rfl⟩ := h
  obtain ⟨rc, hcall, hret⟩ := Call.importProtNone_eq_ok h
  obtain rfl := hret rfl
  rcases scImportProtNone_spec S.shared.lists S.two hcall with
    ⟨hr, -⟩ | ⟨first, reg, rest, f'', rfl, rfl, -, -, H, L'⟩
  · exact absurd rfl hr
  rcases H.space with ⟨hr, -⟩ | ⟨-, -, -, hspace', -⟩
  · exact absurd rfl hr
  obtain rfl := S'.shared.lists.active.unique L'.active
  have hreg : reg ∉ first :: rest := S.shared.lists.free_notMem
  have hregion : w.sc.extent reg = ⟨addr, len, protNone, noOffset⟩ := H.region
  have hmem : ∀ a, a ∈ first :: reg :: rest ↔ a = reg ∨ a ∈ first :: rest := fun a => by
    simp only [List.mem_cons]
    exact or_left_comm
  have G : Grown s { s with world := w } (first :: rest) (first :: reg :: rest) reg :=
    ⟨hmem, hreg, fun a ha => H.others a fun h => hreg (h ▸ ha), fun o _ => congrFun H.file o⟩
  have hsub : ∀ a ∈ first :: rest, a ∈ first :: reg :: rest := fun a ha => (hmem a).mpr (.inr ha)
  refine ⟨⟨_, f', S', fun space hspace => ?_⟩, G.hides S S' fun hback => ?_⟩
  · rcases List.mem_cons.mp hspace with rfl | hspace
    · show Faithful w.sc _ w.space
      rw [hspace']
      exact ((M.faithful s.world.space (List.mem_cons_self ..)).mono hsub G.old).cons
        fun prot offset heq => Backing.noConfusion heq
    · exact (M.faithful space (List.mem_cons_of_mem _ hspace)).mono hsub G.old
  · have hback : FileBacked (w.sc.extent reg) := hback
    rw [hregion] at hback
    exact hback rfl

theorem SharedMemory.setProc (M : SharedMemory fp s l f rsv) {p : Nat} {space : Space}
    (V : View s.world.sc l rsv space) (hfaithful : Faithful s.world.sc l space) :
    (∃ l' f', SharedMemory fp (s.setProc p space) l' f' rsv) ∧ memory (s.setProc p space) = memory s := by
  have hsc : (s.setProc p space).world.sc = s.world.sc := by
    cases p <;> rfl
  have hfile : (s.setProc p space).world.file = s.world.file := by
    cases p <;> rfl
  refine ⟨⟨l, f, M.sharing.setProc V, fun space' h => ?_⟩,
    memory_congr (congrArg Sc.activeRegions hsc) (congrArg Sc.mem hsc) hfile⟩
  rw [hsc]
  rcases mem_procs_setProc h with rfl | h
  · exact hfaithful
  · exact M.faithful space' h

theorem SharedMemory.store {p x byte : Nat} (M : SharedMemory fp s l f rsv)
    (h : (Event.store p x byte).step fp s t) :
    (∃ l' f', SharedMemory fp t l' f' rsv) ∧ Flat.Step (memory s) (.write x byte) (memory t) := by
  have S := M.sharing
  obtain ⟨l', f', S', -⟩ := S.step (e := .store p x byte) trivial h
  obtain ⟨space, prot, offset, k, hspace, hcell, -, -, rfl⟩ := h
  obtain rfl := S'.shared.lists.active.unique S.shared.lists.active
  have hx := M.faithful space (mem_procs_of_getElem? hspace) x prot offset k hcell
  have F := S.shared.files
  refine ⟨⟨l', f', S', M.faithful⟩, fun hnone => (memory_eq_none S).mp hnone _ hx, funext fun y => ?_⟩
  refine Option.ext fun b => ?_
  rw [memory_eq_some S', Function.update_apply]
  by_cases hy : y = x
  · subst hy
    rw [if_pos rfl]
    constructor
    · rintro ⟨o, ho, hb⟩
      have hb : Function.update s.world.file (offset + k) byte o = b := hb
      rw [F.at_unique ho hx, Function.update_self] at hb
      exact congrArg some hb
    · intro hb
      exact ⟨_, hx, (Function.update_self ..).trans (Option.some.inj hb)⟩
  · rw [if_neg hy, memory_eq_some S]
    refine exists_congr fun o => and_congr_right fun ho => ?_
    have hne : o ≠ offset + k := fun heq => hy (F.at_inj (heq ▸ ho) hx)
    show Function.update s.world.file (offset + k) byte o = b ↔ _
    rw [Function.update_of_ne hne]

/-- Every event does to the flat memory what it is to do. -/
theorem SharedMemory.step {e : Event} (M : SharedMemory fp s l f rsv) (hp : Promised s e)
    (hown : OwnMemory e) (h : e.step fp s t) :
    (∃ l' f', SharedMemory fp t l' f' rsv) ∧
      ∃ op, e.Effect pg s op ∧ Flat.Step (memory s) op (memory t) := by
  have S := M.sharing
  cases e with
  | call c =>
    cases c with
    | mmap answers addr length prot fd offset =>
      obtain ⟨M', start, hstep⟩ := M.mmap hp h
      exact ⟨M', _, ⟨start, rfl⟩, hstep⟩
    | importFile answers fuel addr len prot =>
      obtain ⟨M', bytes, hbytes, hstep⟩ := M.importFile hp h
      exact ⟨M', _, ⟨bytes, rfl, hbytes⟩, hstep⟩
    | importProtNone answers addr len =>
      obtain ⟨M', hsame⟩ := M.importProtNone hp h
      exact ⟨M', .idle, rfl, hsame⟩
  | join answers fuel own =>
    obtain ⟨S', -⟩ := S.join h
    obtain ⟨space, hjoin, rfl⟩ := h
    have hnew := Faithful.scJoin S.shared.lists S.shared.files hown hjoin
    refine ⟨⟨l, f, S', fun space' hspace => ?_⟩, .idle, rfl, memory_congr rfl rfl rfl⟩
    rcases List.mem_cons.mp hspace with rfl | hspace
    · exact M.faithful _ (List.mem_cons_self ..)
    · rcases List.mem_append.mp hspace with hspace | hspace
      · exact M.faithful space' (List.mem_cons_of_mem _ hspace)
      · obtain rfl := List.mem_singleton.mp hspace
        exact hnew
  | fault p granted vaddr isWrite isInstr =>
    obtain ⟨space, space', hspace, hfault, rfl⟩ := h
    obtain ⟨a, ha, hback, -, rfl⟩ := segvHandler_spec S.shared.lists hfault
    have hmem := mem_procs_of_getElem? hspace
    obtain ⟨M', hsame⟩ := M.setProc (p := p) ((S.shared.views space hmem).fault S.shared.files ha)
      ((M.faithful space hmem).vma ha hback)
    exact ⟨M', .idle, rfl, hsame⟩
  | store p x byte =>
    obtain ⟨M', hstep⟩ := M.store h
    exact ⟨M', _, rfl, hstep⟩
  | alloc p start len prot bytes =>
    obtain ⟨space, hspace, rfl⟩ := h
    have hmem := mem_procs_of_getElem? hspace
    obtain ⟨M', hsame⟩ := M.setProc (p := p) ((S.shared.views space hmem).beside
      (v := ⟨start, len, .anon prot bytes⟩) (hp.1 l S.shared.lists.active)
      (hp.2 rsv S.shared.files.reserved)) ((M.faithful space hmem).cons
        (v := ⟨start, len, .anon prot bytes⟩) fun prot' offset heq => Backing.noConfusion heq)
    exact ⟨M', .idle, rfl, hsame⟩

end Steps

section Main
variable {fp : FirstPage pg} {s : System}

def Readable (s : System) (x : Nat) : Prop :=
  ∃ l o, (s.world.sc.links s.world.sc.activeRegions).Holds l ∧
    ∃ a ∈ l, Backs (s.world.sc.extent a) x o ∧ (s.world.sc.extent a).prot &&& protRead ≠ 0

theorem System.SharedRun.inv (h : System.SharedRun fp s) : ∃ l f rsv, SharedMemory fp s l f rsv := by
  refine Trans.Reach.inv (I := fun s => ∃ l f rsv, SharedMemory fp s l f rsv) (fun s hinit => ?_)
    (fun s e t ⟨l, f, rsv, M⟩ hst => ?_) h
  · obtain ⟨hinit, hpage⟩ := hinit
    obtain ⟨l, f, rsv, S⟩ := hinit.sharing
    refine ⟨l, f, rsv, S, fun space hspace => ?_⟩
    obtain rfl : space = s.world.space := by
      have hothers : s.procs = [s.world.space] := congrArg (s.world.space :: ·) hinit.2
      exact List.mem_singleton.mp (hothers ▸ hspace)
    intro x prot offset k hcell
    have hx := hpage x prot offset k hcell
    rw [← S.shared.files.first] at hx
    exact ⟨_, S.shared.lists.first_mem, hx⟩
  · obtain ⟨⟨l', f', M'⟩, -⟩ := M.step hst.1.1 hst.1.2 hst.2
    exact ⟨l', f', rsv, M'⟩

end Main

section Run

end Run
end Subcontexts.Region
