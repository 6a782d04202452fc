import Subcontexts.Prealloc.Model
import Subcontexts.Region.Imports

/-! A process of the subcontext, alone with the shared state: `sc_join` with every lock and every
way out, the page-fault handler, and the end of the process in `sc_killLocalProc`. -/

namespace Subcontexts.Member
open Region Holding

structure ScLocal where
  sc : Addr
  flushPoint : Nat
  deriving DecidableEq, Repr

/-- The root struct and what hangs from it, and the process's own data. The process has at most one
subcontext. -/
structure Process where
  world : World
  magic : Bool
  preallocProc : Option Addr
  procList : Option Addr
  procs : Addr → Prealloc.ScProcess
  pendingReservation : Option Addr
  lastSeqNum : Nat
  heap : Alloc.Heap
  pid : Nat
  localList : List ScLocal
  prevVaddr : Nat

abbrev Code := Prog Halt Process Lock

/-- What `malloc`, `mmap`, the signal calls and `clone` answer to `sc_join`. `relocated` says that
the first page can be put where it belongs, `region` that a region can. -/
structure JoinAnswers where
  malloc : Bool
  root : Option Addr
  relocated : Bool
  region : Addr → Bool
  signals : Bool
  mmap : Answers
  thread : Bool

def Process.setProc (p : Process) (a : Addr) (proc : Prealloc.ScProcess) : Process :=
  { p with procs := Function.update p.procs a proc }

def Process.setSc (p : Process) (sc : Sc) : Process := { p with world := { p.world with sc := sc } }

/-- The page of the first active region, where the root struct belongs. -/
def Process.rootDest (pg : PageSize) (p : Process) : Addr :=
  p.world.sc.activeRegions.getD 0 / pg.bytes * pg.bytes

def lookupScLocal (searchFor : Addr) : Code (Option ScLocal) := do
  lock .blocked .shared .localList
  let p ← fetch
  unlock .shared .localList
  return p.localList.find? fun retval => retval.sc = searchFor

section Join
variable {pg : PageSize} (fp : FirstPage pg)

def checkRegion (pg : PageSize) (s : Sc) (active : Bool) (cur : Addr) : Except Halt Unit := do
  let r := (s.mem cur).toExtent
  if active ∧ r.prot ≠ protNone then
    check (u64 (r.tmpfileOffset + r.len) ≤ s.tmpfileSize)
    check (r.tmpfileOffset % pg.bytes = 0)
  else check (r.tmpfileOffset = noOffset)

/-- The `while` loop of `sc_join` over one of the two lists; `false` where a region cannot be mapped.
The lock of `cur` is held. -/
def joinLoop (pg : PageSize) (active : Bool) (granted : Addr → Bool) : Nat → Addr → Code Bool
  | 0, _ => throw .fuel
  | fuel + 1, cur => do
    let p ← fetch
    call (checkRegion pg p.world.sc active cur)
    if !granted cur then return false
    else
      match (p.world.sc.mem cur).next with
      | none =>
        unlock .shared (.region cur)
        return true
      | some next =>
        lock .blocked .shared (.region next)
        unlock .shared (.region cur)
        joinLoop pg active granted fuel next

/-- The part of `sc_join` that maps what the other processes have mapped, from the shared root lock
on. -/
def mapRegions (pg : PageSize) (granted : Addr → Bool) (fuel : Nat) : Code Bool := do
  let p ← fetch
  match p.world.sc.activeRegions with
  | none => throw .fault
  | some first =>
    lock .blocked .shared (.region first)
    match (p.world.sc.mem first).next, p.world.sc.reservedRegions with
    | some active, some reserved =>
      lock .blocked .shared (.region active)
      lock .blocked .shared (.region reserved)
      unlock .shared (.region first)
      unlock .shared .root
      if ← joinLoop pg true granted fuel active then joinLoop pg false granted fuel reserved
      else return false
    | _, _ => throw .fault

def scMalloc (answers : Answers) (fuel : Nat) (mySc : Addr) : Code (Option Addr) := do
  let myScLocal ← lookupScLocal mySc
  let p ← fetch
  let (proc, heap, w) ←
    call (initMalloc fp { answers with lookup := myScLocal.isSome } fuel p.heap p.world)
  store { p with heap := heap, world := w }
  return proc

def scInitSetupProcListEntry (answers : Answers) (fuel : Nat) (mySc : Addr) : Code Int := do
  let nextProc ← scMalloc fp answers fuel mySc
  match nextProc with
  | none => throw .todo
  | some nextProc =>
    let p ← fetch
    store (p.setProc nextProc ⟨none, .prealloc, 0⟩)
    lock .blocked .exclusive .root
    let p ← fetch
    call (check (p.preallocProc = none))
    store { p with preallocProc := some nextProc }
    unlock .exclusive .root
    return 0

/-- The section of `sc_join` that takes the struct another process has left for this one. -/
def claimProc : Code (Option Addr) := do
  lock .blocked .exclusive .root
  let p ← fetch
  match p.preallocProc with
  | none =>
    unlock .exclusive .root
    return none
  | some myProc =>
    store { p with preallocProc := none }
    downgrade .root
    return some myProc

/-- The section of `sc_join` that counts the process and puts it on the list; it returns the flush
point. -/
def register (myProc : Addr) : Code Nat := do
  let p ← fetch
  store (p.setProc myProc { p.procs myProc with state := .alive, pid := p.pid })
  lock .blocked .exclusive .root
  let p ← fetch
  let p := p.setSc { p.world.sc with procCount := p.world.sc.procCount + 1 }
  store p
  if p.pendingReservation ≠ none then
    unlock .exclusive .root
    throw .todo
  else
    let p := p.setProc myProc { p.procs myProc with next := p.procList }
    store { p with procList := some myProc }
    unlock .exclusive .root
    return p.lastSeqNum

def joinRest (answers : JoinAnswers) (fuel : Nat) (rootDest myProc : Addr) : Code (Option Addr) := do
  if !(← mapRegions pg answers.region fuel) then return none
  else
    let flushPoint ← register myProc
    if !answers.signals then
      unlock .shared .root
      return none
    else
      let rc ← scInitSetupProcListEntry fp answers.mmap fuel rootDest
      if rc ≠ 0 then return none
      else if !answers.thread then return none
      else
        lock .blocked .exclusive .localList
        let p ← fetch
        store { p with localList := ⟨rootDest, flushPoint⟩ :: p.localList }
        unlock .exclusive .localList
        return some rootDest

/-- `sc_join`; `none` is the `NULL` it returns. -/
def scJoin (answers : JoinAnswers) (fuel : Nat) : Code (Option Addr) := do
  if !answers.malloc then return none
  else
    match answers.root with
    | none => return none
    | some root =>
      let p ← fetch
      if !p.magic then return none
      else
        lock .blocked .shared .root
        let p ← fetch
        let rootDest := p.rootDest pg
        let mapped ← lookupScLocal rootDest
        if mapped ≠ none then return none
        else if rootDest ≠ root ∧ answers.relocated = false then
          unlock .shared .root
          return none
        else
          unlock .shared .root
          match ← claimProc with
          | none => return none
          | some myProc => joinRest fp answers fuel rootDest myProc

end Join

section Kill

/-- The loop of `sc_killLocalProc` that lets the background thread catch up; `yields` are the flush
point and the last number that it finds after each `sched_yield`. -/
def flushWait : List (Nat × Nat) → Nat → Nat → Code Unit
  | [], flushPoint, last =>
    if flushPoint = last then return ()
    else do
      call (check (flushPoint < last))
      unlock .exclusive .root
      throw .blocked
  | (flushPoint', last') :: yields, flushPoint, last =>
    if flushPoint = last then return ()
    else do
      call (check (flushPoint < last))
      unlock .exclusive .root
      lock .blocked .exclusive .root
      flushWait yields flushPoint' last'

/-- `*prevProc = next`. -/
def Process.assign (p : Process) (prevProc next : Option Addr) : Process :=
  match prevProc with
  | none => { p with procList := next }
  | some a => p.setProc a { p.procs a with next := next }

/-- The list walk of `sc_killLocalProc`: the lock it holds at the end, and the entry it has found. -/
def killLoop (myPid : Nat) :
    Nat → Lock → Option Addr → Option Addr → Code (Lock × Option Addr)
  | 0, _, _, _ => throw .fuel
  | _ + 1, prevLock, _, none => return (prevLock, none)
  | fuel + 1, prevLock, prevProc, some curProc => do
    lock .blocked .exclusive (.process curProc)
    unlock .exclusive prevLock
    let p ← fetch
    if (p.procs curProc).pid = myPid then
      store (p.assign prevProc (p.procs curProc).next)
      return (.process curProc, some curProc)
    else killLoop myPid fuel (.process curProc) (some curProc) (p.procs curProc).next

/-- The body of the loop of `sc_killLocalProc`, for one subcontext. -/
def killLocal (fuel : Nat) (yields : List (Nat × Nat)) (curScLocal : ScLocal) : Code Unit := do
  lock .blocked .exclusive .root
  let p ← fetch
  flushWait yields curScLocal.flushPoint p.lastSeqNum
  let p := p.setSc { p.world.sc with procCount := p.world.sc.procCount - 1 }
  store p
  let (prevLock, curProc) ← killLoop p.pid fuel .root none p.procList
  unlock .exclusive prevLock
  match curProc with
  | none => return ()
  | some curProc =>
    let p ← fetch
    let heap ← call (Alloc.scFree curProc p.heap)
    store { p with heap := heap }

/-- `sc_killLocalProc`. The lock on the local list is never given back. -/
def scKillLocalProc {α : Type} (fuel : Nat) (yields : List (Nat × Nat)) : Code α := do
  lock .blocked .shared .localList
  let p ← fetch
  match p.localList with
  | [] => throw (.exit (-1))
  | curScLocal :: _ =>
    killLocal fuel yields curScLocal
    throw (.exit (-1))

end Kill

section Fault

inductive SiCode where
  | kernel
  | mapErr
  | accErr
  deriving DecidableEq, Repr

/-- What the kernel tells the handler of a fault; `err` is the error code of the processor. -/
structure Fault where
  vaddr : Nat
  siCode : SiCode
  err : Nat
  deriving DecidableEq, Repr

namespace Fault
variable (f : Fault)

def isWrite : Bool := f.err.testBit 1
def isUser : Bool := f.err.testBit 2
def isInstr : Bool := f.err.testBit 4
def neverSetBits : Nat := f.err - (f.err &&& (2 ||| 4 ||| 16))

/-- A fault for which the handler looks at the regions. -/
def Plausible : Prop :=
  f.vaddr ≠ 0 ∧ f.siCode = .accErr ∧ f.neverSetBits = 0 ∧ f.isUser = true ∧
    ¬ (f.isWrite = true ∧ f.isInstr = true)

instance : Decidable f.Plausible := inferInstanceAs (Decidable (_ ∧ _))

end Fault

def Refused (r : Extent) (f : Fault) : Prop :=
  f.isWrite = true ∧ r.prot ≠ protRead ||| protWrite ∨
    f.isInstr = true ∧ r.prot ≠ protRead ||| protExec

instance (r : Extent) (f : Fault) : Decidable (Refused r f) := inferInstanceAs (Decidable (_ ∨ _))

variable (pg : PageSize) (granted : Bool) (yields : List (Nat × Nat))

/-- The walk of `sc_signal_handler_SEGV`: the lock it holds at the end, and the region it has mapped.
Its assertion on `prot` holds for any value, as `==` binds tighter than `|`. -/
def segvLoop (f : Fault) (bound : Nat) : Nat → Lock → Option Addr → Code (Lock × Option Addr)
  | 0, _, _ => throw .fuel
  | _ + 1, prevLock, none => return (prevLock, none)
  | fuel + 1, prevLock, some curReg => do
    lock .blocked .sharedRecursive (.region curReg)
    unlock .sharedRecursive prevLock
    let p ← fetch
    let r := (p.world.sc.mem curReg).toExtent
    if holds r f.vaddr then
      call (check (f.isWrite = false ∨ f.isInstr = false))
      if Refused r f then scKillLocalProc bound yields
      else if ¬ fileRange pg granted r.vaddr r.len r.tmpfileOffset then throw (.exit 3)
      else
        store { p with world := p.world.mapFixed r.vaddr r.len (.file r.prot r.tmpfileOffset) }
        return (.region curReg, some curReg)
    else segvLoop f bound fuel (.region curReg) (p.world.sc.mem curReg).next

/-- `sc_signal_handler_SEGV` from the point where it looks at the regions. -/
def segvSearch (f : Fault) (fuel : Nat) : Code Unit := do
  lock .blocked .shared .localList
  let p ← fetch
  match p.localList with
  | [] => throw .fault
  | _ :: _ :: _ => throw .assertion
  | [_] =>
    unlock .shared .localList
    lock .blocked .sharedRecursive .root
    let (prevLock, curReg) ←
      segvLoop pg granted yields f fuel fuel .root p.world.sc.activeRegions
    unlock .sharedRecursive prevLock
    match curReg with
    | none => scKillLocalProc fuel yields
    | some _ =>
      let p ← fetch
      store { p with prevVaddr := 0 }

def scSignalHandlerSegv (f : Fault) (fuel : Nat) : Code Unit := do
  if f.vaddr = 0 then scKillLocalProc fuel yields
  else if f.siCode = .mapErr then scKillLocalProc fuel yields
  else if f.siCode = .kernel then scKillLocalProc fuel yields
  else if f.neverSetBits ≠ 0 ∨ f.isUser = false ∨ f.isWrite = true ∧ f.isInstr = true then
    scKillLocalProc fuel yields
  else
    let p ← fetch
    if f.vaddr = p.prevVaddr then throw (.exit 3)
    else
      store { p with prevVaddr := f.vaddr }
      segvSearch pg granted yields f fuel

end Fault
end Subcontexts.Member
