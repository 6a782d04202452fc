import Subcontexts.Lib.Links
import Subcontexts.Region.Mapping

/-! The region lists in the first page, the calls that edit them (`sc_mmap`, `sc_import`,
`sc_import_protNone`) and the two walks that map regions, of `sc_join` and of the page-fault handler.
Each call holds the root lock from its list work to its end; the locks of the regions, taken and
released inside it, are left out. -/

namespace Subcontexts.Region

abbrev Addr := Nat

structure ScRegion extends Extent where
  next : Option Addr
  permaPin : Bool
  deriving DecidableEq, Repr

/-- The fields of `sc` that these calls use, and the region structs; `cleanupLog` says that the
pointer is not `NULL`. -/
structure Sc where
  lock : Bool
  activeRegions : Option Addr
  activeRegionsTail : Option Addr
  reservedRegions : Option Addr
  freeStructs : Option Addr
  tmpfileSize : Nat
  procCount : Nat
  cleanupLog : Bool
  mem : Addr → ScRegion

/-- The root struct, the backing file, and the address space of the calling process. -/
structure World where
  sc : Sc
  file : Nat → Nat
  fileSize : Nat
  space : Space

/-- What `lookupScLocal`, `ftruncate` and the two `mmap` calls answer. -/
structure Answers where
  lookup : Bool
  truncated : Bool
  buf : Bool
  replaced : Bool
  deriving DecidableEq, Repr

def Sc.links (s : Sc) (head : Option Addr) : Linked Addr := ⟨head, fun a => (s.mem a).next⟩

def Sc.setRegion (s : Sc) (a : Addr) (r : ScRegion) : Sc :=
  { s with mem := Function.update s.mem a r }

def Sc.setExtent (s : Sc) (a : Addr) (e : Extent) : Sc :=
  s.setRegion a { s.mem a with toExtent := e }

def Sc.setNext (s : Sc) (a : Addr) (next : Option Addr) : Sc :=
  s.setRegion a { s.mem a with next := next }

def Sc.unlock (s : Sc) : Sc := { s with lock := false }

def World.lockRoot (w : World) : Except Halt World :=
  if w.sc.lock then .error .blocked else .ok { w with sc := { w.sc with lock := true } }

def World.unlock (w : World) : World := { w with sc := w.sc.unlock }

/-- `ftruncate`: what is beyond the old end reads as zero. -/
def World.ftruncate (w : World) (size : Nat) : World :=
  { w with file := fun o => if o < w.fileSize ∧ o < size then w.file o else 0, fileSize := size }

def scGetFreeRegion (s : Sc) : Except Halt (Option Addr × Sc) := do
  check s.lock
  match s.freeStructs with
  | none => .error .assertion
  | some retval =>
    match (s.mem retval).next with
    | none => .error .todo
    | some next => return (some retval, { s with freeStructs := some next }.setNext retval none)

def Sc.append (s : Sc) (oldTail region : Addr) : Sc :=
  { s.setNext oldTail (some region) with activeRegionsTail := some region }

/-- The first page: its address, which is the answer to the first `mmap`, and its struct layout. The
three region structs of it fit into a page, as `sc_init` asserts. -/
structure FirstPage (pg : PageSize) where
  base : Nat
  offRegions : Nat
  sizeofRegion : Nat
  sizeofProcess : Nat
  aligned : pg.bytes ∣ base
  below : base + pg.bytes < 2 ^ 64
  size_pos : 0 < sizeofRegion
  fits : offRegions + 3 * sizeofRegion ≤ pg.bytes

namespace FirstPage
variable {pg : PageSize} (fp : FirstPage pg)

def regions (i : Nat) : Nat := fp.base + fp.offRegions + i * fp.sizeofRegion

def regionsCount : Nat :=
  (fp.base + pg.bytes - (fp.base + fp.offRegions)) / fp.sizeofRegion

theorem three_le_regionsCount : 3 ≤ fp.regionsCount := by
  have hfits := fp.fits
  rw [regionsCount, Nat.le_div_iff_mul_le fp.size_pos]
  omega

theorem regions_inj {i j : Nat} (h : fp.regions i = fp.regions j) : i = j := by
  unfold regions at h
  exact Nat.eq_of_mul_eq_mul_right fp.size_pos (Nat.add_left_cancel h)

def Struct (a : Nat) : Prop := ∃ i < fp.regionsCount, a = fp.regions i

theorem Struct.inside {a : Nat} (h : fp.Struct a) :
    fp.base ≤ a ∧ a + fp.sizeofRegion ≤ fp.base + pg.bytes := by
  obtain ⟨i, hi, rfl⟩ := h
  have hfits := fp.fits
  have hlast : (i + 1) * fp.sizeofRegion ≤ fp.base + pg.bytes - (fp.base + fp.offRegions) :=
    Nat.le_trans (Nat.mul_le_mul_right _ hi) (Nat.div_mul_le_self _ _)
  rw [Nat.add_mul, Nat.one_mul, Nat.add_sub_add_left] at hlast
  unfold regions
  constructor <;> omega

end FirstPage

section Memory

/-- The byte a process finds at an address, where its pages let it read. A page of a file is there
when it starts before the end of the file. -/
def load (pg : PageSize) (file : Nat → Nat) (fileSize : Nat) (space : Space) (x : Nat) :
    Option Nat :=
  match space.cell x with
  | some (.anon prot bytes, k) => if prot &&& protRead ≠ 0 then some (bytes k) else none
  | some (.file prot offset, k) =>
    if prot &&& protRead ≠ 0 ∧ (offset + k) / pg.bytes * pg.bytes < fileSize then
      some (file (offset + k))
    else none
  | _ => none

def World.load (pg : PageSize) (w : World) (x : Nat) : Option Nat :=
  Region.load pg w.file w.fileSize w.space x

/-- A use of the root struct. Where its page is gone, the page-fault handler cannot help. -/
def World.touchRoot (w : World) {pg : PageSize} (fp : FirstPage pg) : Except Halt Unit :=
  haltIf .fault (w.load pg fp.base = none)

/-- `ftruncate` takes its size as a signed number. -/
def truncates (answers : Answers) (size : Nat) : Prop := answers.truncated ∧ size < 2 ^ 63

instance (answers : Answers) (size : Nat) : Decidable (truncates answers size) :=
  inferInstanceAs (Decidable (_ ∧ _))

end Memory

section Mmap
variable {pg : PageSize} (fp : FirstPage pg)

/-- `sc_mmap` from the point where it has a region struct. -/
def mmapReserved (s : Sc) (region : Addr) (length prot : Nat) : Except Halt (Nat × Sc) :=
  match s.reservedRegions with
  | none => .error .assertion
  | some reserved => do
    check (length ≤ (s.mem reserved).len)
    let retval := (s.mem reserved).vaddr
    let s := s.setRegion region
      ⟨⟨retval, length, prot % 256, sub64 s.tmpfileSize length⟩, none, false⟩
    let rsvd := (s.mem reserved).toExtent
    let s := s.setExtent reserved
      { rsvd with vaddr := u64 (rsvd.vaddr + length), len := rsvd.len - length }
    haltIf .todo ((s.mem reserved).len = 0)
    match s.activeRegionsTail with
    | none => .error .assertion
    | some oldTail => return (retval, s.append oldTail region)

/-- `sc_mmap`. Its assertions on `prot` and `flags` hold for any value, as `==` binds tighter than
`|`. `none` is `MAP_FAILED`. -/
def scMmap (answers : Answers) (w : World) (addr length prot : Nat) (fd offset : Int) :
    Except Halt (Option Nat × World) := do
  check (addr = 0)
  check (0 < length)
  check (length % pg.bytes = 0)
  check (fd = -1)
  check (offset = 0)
  if !answers.lookup then return (none, w)
  let w ← w.lockRoot
  haltIf .todo w.sc.cleanupLog
  let w := { w with sc := { w.sc with tmpfileSize := u64 (w.sc.tmpfileSize + length) } }
  if ¬ truncates answers w.sc.tmpfileSize then return (none, w.unlock)
  let w := w.ftruncate w.sc.tmpfileSize
  w.touchRoot fp
  let (region, sc) ← scGetFreeRegion w.sc
  match region with
  | none => return (none, { w with sc := sc.unlock })
  | some region => do
    let (retval, sc) ← mmapReserved sc region length prot
    return (some retval, { w with sc := sc.unlock })

end Mmap

section Import
variable {pg : PageSize} (fp : FirstPage pg)

def overlaps (r : Extent) (addr len : Nat) : Prop :=
  addr < u64 (r.vaddr + r.len) ∧ r.vaddr < u64 (addr + len)

instance (r : Extent) (addr len : Nat) : Decidable (overlaps r addr len) :=
  inferInstanceAs (Decidable (_ ∧ _))

def findDuplicate (mem : Addr → ScRegion) (addr len : Nat) : Nat → Option Addr → Except Halt Bool
  | 0, _ => .error .fuel
  | _ + 1, none => .ok false
  | fuel + 1, some cur =>
    if overlaps (mem cur).toExtent addr len then .ok true
    else findDuplicate mem addr len fuel (mem cur).next

/-- `memcpy` from memory to the file; the source must be readable. -/
def World.copyIn (pg : PageSize) (w : World) (addr len offset : Nat) : Except Halt World :=
  if ∀ i < len, w.load pg (addr + i) ≠ none then
    .ok { w with file := fun o =>
      if offset ≤ o ∧ o < offset + len then (w.load pg (addr + (o - offset))).getD 0 else w.file o }
  else .error .fault

def World.mapFixed (w : World) (start len : Nat) (b : Backing) : World :=
  { w with space := ⟨start, len, b⟩ :: w.space }

/-- The kernel maps no empty range and none that runs out of the address space. -/
def range (granted : Bool) (start len : Nat) : Prop := granted ∧ 0 < len ∧ start + len < 2 ^ 64

instance (granted : Bool) (start len : Nat) : Decidable (range granted start len) :=
  inferInstanceAs (Decidable (_ ∧ _))

def fileRange (pg : PageSize) (granted : Bool) (start len offset : Nat) : Prop :=
  range granted start len ∧ offset % pg.bytes = 0

instance (pg : PageSize) (granted : Bool) (start len offset : Nat) :
    Decidable (fileRange pg granted start len offset) := inferInstanceAs (Decidable (_ ∧ _))

/-- `sc_import` from the point where the new region is on the list. -/
def importBytes (answers : Answers) (w : World) (addr len prot offset : Nat) :
    Except Halt (Int × World) := do
  if !answers.lookup then return (3, w)
  if ¬ truncates answers w.sc.tmpfileSize then return (3, w.unlock)
  let w := w.ftruncate w.sc.tmpfileSize
  w.touchRoot fp
  if ¬ fileRange pg answers.buf 0 len offset then return (4, w)
  let w ← w.copyIn pg addr len offset
  if ¬ fileRange pg answers.replaced addr len offset then return (5, w)
  let w := w.mapFixed addr len (.file prot offset)
  w.touchRoot fp
  return (0, w.unlock)

/-- `sc_import`. Several of its error returns keep the root lock. -/
def scImport (answers : Answers) (fuel : Nat) (w : World) (addr len prot : Nat) :
    Except Halt (Int × World) := do
  check (addr % pg.bytes = 0)
  check (len % pg.bytes = 0)
  check (prot = protRead ∨ prot = protRead ||| protWrite ∨ prot = protRead ||| protExec)
  let w ← w.lockRoot
  if w.sc.procCount ≠ 1 then return (1, w.unlock)
  haltIf .fault (w.sc.activeRegions = none)
  let duplicate ← findDuplicate w.sc.mem addr len fuel w.sc.activeRegions
  if duplicate then return (1, w)
  let (reg, sc) ← scGetFreeRegion w.sc
  match reg with
  | none => return (2, { w with sc := sc.unlock })
  | some reg =>
    match sc.activeRegionsTail with
    | none => .error .fault
    | some tail => do
      let sc := (sc.append tail reg).setNext reg none
      let offset := sc.tmpfileSize
      let sc := sc.setRegion reg
        { sc.mem reg with toExtent := ⟨addr, len, prot, offset⟩, permaPin := false }
      let sc := { sc with tmpfileSize := u64 (sc.tmpfileSize + len) }
      importBytes fp answers { w with sc := sc } addr len prot offset

def scImportProtNone (answers : Answers) (w : World) (addr len : Nat) :
    Except Halt (Int × World) := do
  check (addr % pg.bytes = 0)
  check (len % pg.bytes = 0)
  let w ← w.lockRoot
  if w.sc.procCount ≠ 1 then return (1, w.unlock)
  let (reg, sc) ← scGetFreeRegion w.sc
  match reg with
  | none => return (2, { w with sc := sc.unlock })
  | some reg =>
    match sc.activeRegions with
    | none => .error .fault
    | some first => do
      let sc := (sc.setNext reg (sc.mem first).next).setNext first (some reg)
      let sc := sc.setRegion reg
        { sc.mem reg with toExtent := ⟨addr, len, protNone, noOffset⟩, permaPin := false }
      let w := { w with sc := sc }
      if ¬ range answers.replaced addr len then return (5, w)
      let w := w.mapFixed addr len .noAccess
      w.touchRoot fp
      return (0, w.unlock)

end Import

section Fault
variable {pg : PageSize}

def holds (r : Extent) (vaddr : Nat) : Prop := r.vaddr ≤ vaddr ∧ vaddr < u64 (r.vaddr + r.len)

instance (r : Extent) (vaddr : Nat) : Decidable (holds r vaddr) :=
  inferInstanceAs (Decidable (_ ∧ _))

/-- The walk of the page-fault handler: the structs it looks at, and the region it stops at. -/
def segvWalk (mem : Addr → ScRegion) (vaddr : Nat) :
    Nat → Option Addr → Except Halt (List Addr × Option Addr)
  | 0, _ => .error .fuel
  | _ + 1, none => .ok ([], none)
  | fuel + 1, some curReg =>
    if holds (mem curReg).toExtent vaddr then .ok ([curReg], some curReg)
    else do
      let (visited, found) ← segvWalk mem vaddr fuel (mem curReg).next
      return (curReg :: visited, found)

/-- `sc_signal_handler_SEGV` for a plausible fault of a process whose local list has this subcontext
alone, as the assertion there asks. `prev_vaddr` is 0 before each of them; the assertion on the
region's `prot` holds for any value. `exit (-1)` is the end of `sc_killLocalProc`. -/
def segvHandler (pg : PageSize) (granted : Bool) (fuel : Nat) (s : Sc) (space : Space)
    (vaddr : Nat) (isWrite isInstr : Bool) : Except Halt Space := do
  haltIf (.exit (-1)) (vaddr = 0)
  haltIf .blocked s.lock
  let (_, found) ← segvWalk s.mem vaddr fuel s.activeRegions
  match found with
  | none => .error (.exit (-1))
  | some curReg => do
    let r := (s.mem curReg).toExtent
    check (isWrite = false ∨ isInstr = false)
    haltIf (.exit (-1))
      (isWrite ∧ r.prot ≠ protRead ||| protWrite ∨ isInstr ∧ r.prot ≠ protRead ||| protExec)
    haltIf (.exit 3) (¬ fileRange pg granted r.vaddr r.len r.tmpfileOffset)
    return ⟨r.vaddr, r.len, .file r.prot r.tmpfileOffset⟩ :: space

/-- A read: the process finds the byte at once, or after its page fault. -/
def read (fp : FirstPage pg) (w : World) (space : Space) (x : Nat) : Option Nat :=
  match load pg w.file w.fileSize space x with
  | some b => some b
  | none =>
    match segvHandler pg true (fp.regionsCount + 1) w.sc space x false false with
    | .ok space => load pg w.file w.fileSize space x
    | .error _ => none

end Fault

section Join
variable {pg : PageSize}

/-- What `sc_join` finds in `prealloc_proc`, and what its calls of `mmap` answer, for the first page
and for each region. -/
structure JoinAnswers where
  prealloc : Bool
  root : Bool
  region : Addr → Bool

def joinList (pg : PageSize) (s : Sc) (active : Bool) (granted : Addr → Bool) :
    Nat → Option Addr → Space → Except Halt (Option Space)
  | 0, _, _ => .error .fuel
  | _ + 1, none, space => .ok (some space)
  | fuel + 1, some cur, space => do
    let map ← joinRegion pg s.tmpfileSize active (s.mem cur).toExtent (granted cur) space
    match map with
    | none => return none
    | some space => joinList pg s active granted fuel (s.mem cur).next space

/-- The maps that `sc_join` makes, from the move of the first page on; `none` where it returns
`NULL`. The page keeps its place if the first `mmap` has put it there. -/
def scJoin (pg : PageSize) (answers : JoinAnswers) (fuel : Nat) (s : Sc) (space : Space) :
    Except Halt (Option Space) := do
  haltIf .blocked s.lock
  match s.activeRegions with
  | none => .error .fault
  | some first =>
    let rootDest := first / pg.bytes * pg.bytes
    match mapHint answers.root space rootDest pg.bytes (.file (protRead ||| protWrite) 0) with
    | none => return none
    | some space => do
      if !answers.prealloc then return none
      haltIf .fault ((s.mem first).next = none)
      haltIf .fault (s.reservedRegions = none)
      let map ← joinList pg s true answers.region fuel (s.mem first).next space
      match map with
      | none => return none
      | some space => joinList pg s false answers.region fuel s.reservedRegions space

end Join
end Subcontexts.Region
