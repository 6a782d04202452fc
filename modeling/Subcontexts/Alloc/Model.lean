import Subcontexts.Machine
import Mathlib.Logic.Function.Basic

/-! `sc_malloc` and `sc_free` over a memory of 64-bit words. Every struct of the allocator consists
of `u64` words at 8-aligned addresses, and a list node and a block header overlay each other at the
same address. A pointer to a pointer (`pPrev`) is `none` for `&malloc_md->freeList` and `some a` for
`&a->next`. -/

namespace Subcontexts.Alloc

abbrev Mem := Nat → Nat

/-- `SUBCONTEXTS_MAGIC(type, vers)`. -/
def subcontextsMagic (type vers : Nat) : Nat :=
  0x53 <<< 24 ||| 0x43 <<< 16 ||| type <<< 8 ||| vers

def headMagic : Nat := subcontextsMagic 0x6d 1
def footMagic : Nat := subcontextsMagic 0x6d 2

def sizeofListNode : Nat := 24
def sizeofHeader : Nat := 16
def sizeofFooter : Nat := 8

/-- `sc_malloc_metadata`, with the memory its pointers lead to. -/
structure Heap where
  mem : Mem
  freeList : Nat
  lock : Bool

/- `sc_malloc_listNode` is `len`, `next`, `pages`; `sc_malloc_header` is `len`, `magic`. -/
def len (m : Mem) (a : Nat) : Nat := m a
def next (m : Mem) (a : Nat) : Nat := m (a + 8)
def pages (m : Mem) (a : Nat) : Nat := m (a + 16)
def magic (m : Mem) (a : Nat) : Nat := m (a + 8)

def store (m : Mem) (a v : Nat) : Mem := Function.update m a v

def Heap.deref (h : Heap) : Option Nat → Nat
  | none => h.freeList
  | some a => next h.mem a

def Heap.assign (h : Heap) (v : Nat) : Option Nat → Heap
  | none => { h with freeList := v }
  | some a => { h with mem := store h.mem (a + 8) v }

def allocSize (size : Nat) : Nat :=
  let allocSize := u64 (sizeofHeader + size)
  let allocSize := u64 (allocSize + 7)
  let allocSize := allocSize / 8
  let allocSize := u64 (allocSize * 8)
  u64 (allocSize + sizeofFooter)

def splitSize (size : Nat) : Nat := u64 (allocSize size + sizeofListNode)

def mmapSize (pg : PageSize) (size : Nat) : Nat :=
  let mmapSize := u64 (splitSize size + pg.bytes - 1)
  let mmapSize := mmapSize / pg.bytes
  u64 (mmapSize * pg.bytes)

def fits (m : Mem) (allocSize splitSize cur : Nat) : Prop :=
  splitSize ≤ len m cur ∨ allocSize ≤ len m cur ∧ pages m cur = 0

instance (m : Mem) (allocSize splitSize cur : Nat) : Decidable (fits m allocSize splitSize cur) :=
  inferInstanceAs (Decidable (_ ∨ _))

def search (m : Mem) (allocSize splitSize : Nat) :
    Nat → Nat → Option Nat → Except Halt (Nat × Option Nat)
  | 0, _, _ => .error .fuel
  | fuel + 1, cur, pPrev =>
    if cur = 0 ∨ fits m allocSize splitSize cur then .ok (cur, pPrev)
    else search m allocSize splitSize fuel (next m cur) (some cur)

/-- Both splits of `sc_malloc`: a new list node that starts `k` bytes into `cur`. -/
def splitNode (m : Mem) (cur k : Nat) : Mem :=
  let next := cur + k
  let m := store m next (sub64 (len m cur) k)
  let m := store m cur k
  let m := store m (next + 8) (m (cur + 8))
  let m := store m (cur + 8) next
  store m (next + 16) 0

def pushPages (pg : PageSize) (mmapSize buf : Nat) (h : Heap) : Heap :=
  let m := store h.mem buf mmapSize
  let m := store m (buf + 16) (mmapSize / pg.bytes)
  let m := store m (buf + 8) h.freeList
  { h with mem := m, freeList := buf }

/-- The end of `sc_malloc`: unlink `cur` and write its header and footer. -/
def deliver (cur : Nat) (pPrev : Option Nat) (h : Heap) : Except Halt (Nat × Heap) := do
  let allocSize := len h.mem cur
  check (allocSize % 8 = 0)
  let h := h.assign (next h.mem cur) pPrev
  let foot := cur + allocSize - sizeofFooter
  let m := store h.mem cur allocSize
  let m := store m (cur + 8) headMagic
  let m := store m foot footMagic
  pure (cur + sizeofHeader, { h with mem := m })

/-- The split that leaves a page head behind on the free list. -/
def splitHead (splitSize cur : Nat) (pPrev : Option Nat) (h : Heap) :
    Except Halt (Nat × Option Nat × Heap) :=
  if pages h.mem cur ≠ 0 then do
    check (splitSize ≤ len h.mem cur)
    pure (cur + sizeofListNode, some cur,
      { h with mem := splitNode h.mem cur sizeofListNode })
  else pure (cur, pPrev, h)

/-- The split that leaves the rest of a long buffer on the free list. -/
def splitBlock (allocSize splitSize cur : Nat) (h : Heap) : Heap :=
  if splitSize ≤ len h.mem cur then { h with mem := splitNode h.mem cur allocSize } else h

/-- `sc_malloc` from the point where `cur` is a node that is large enough. -/
def carve (allocSize splitSize cur : Nat) (pPrev : Option Nat) (h : Heap) :
    Except Halt (Nat × Heap) := do
  check (h.deref pPrev = cur)
  check (allocSize ≤ len h.mem cur)
  let (cur, pPrev, h) ← splitHead splitSize cur pPrev h
  check (h.deref pPrev = cur)
  check (pages h.mem cur = 0)
  check (allocSize ≤ len h.mem cur)
  let h := splitBlock allocSize splitSize cur h
  check (h.deref pPrev = cur)
  check (pages h.mem cur = 0)
  check (allocSize ≤ len h.mem cur)
  check (len h.mem cur < splitSize)
  deliver cur pPrev h

/-- `sc_malloc`, over any `sc_mmap` with its own state. `none` is the `NULL` it returns. -/
def scMalloc {σ : Type} (pg : PageSize) (scMmap : σ → Nat → Option Nat × σ) (fuel : Nat)
    (size : Int) (h : Heap) (e : σ) : Except Halt (Option Nat × Heap × σ) := do
  check (0 ≤ size)
  if h.lock then throw .blocked
  let h := { h with lock := true }
  let alloc := allocSize size.toNat
  check (alloc % 8 = 0)
  let split := splitSize size.toNat
  let (cur, pPrev) ← search h.mem alloc split fuel h.freeList none
  if cur = 0 then
    let mmapLen := mmapSize pg size.toNat
    match scMmap e mmapLen with
    | (none, e) => pure (none, { h with lock := false }, e)
    | (some buf, e) => do
      let (retval, h) ← carve alloc split buf none (pushPages pg mmapLen buf h)
      pure (some retval, { h with lock := false }, e)
  else do
    let (retval, h) ← carve alloc split cur pPrev h
    pure (some retval, { h with lock := false }, e)

def scFree (buf : Nat) (h : Heap) : Except Halt Heap := do
  check (buf % 8 = 0)
  let head := buf - sizeofHeader
  let foot := head + len h.mem head - sizeofFooter
  if magic h.mem head ≠ headMagic ∨ h.mem foot ≠ footMagic then throw (.exit 3)
  let len := len h.mem head
  let m := store h.mem head len
  let m := store m (head + 16) 0
  if h.lock then throw .blocked
  let m := store m (head + 8) h.freeList
  pure { h with mem := m, freeList := head }

end Subcontexts.Alloc
