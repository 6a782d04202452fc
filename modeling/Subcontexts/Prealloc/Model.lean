import Subcontexts.Alloc.Runs

/-! The `sc_process` struct that a member allocates for the next process to join: `sc_init`, any
number of `sc_join` calls and `scInit_setup_procListEntry`, one section under the root lock at a
time, over the shared allocator. -/

namespace Subcontexts.Prealloc

abbrev Pid := Nat

abbrev Addr := Nat

inductive ProcState where
  | prealloc
  | init
  | alive
  | dead
  deriving DecidableEq, Repr

structure ScProcess where
  next : Option Addr
  state : ProcState
  pid : Pid
  deriving DecidableEq, Repr

/-- Where a process is; `failed` has returned `NULL`, `died` has ended. -/
inductive Pc where
  | idle
  | initMagic
  | initRoot
  | initMalloc
  | initPost (firstProc : Addr)
  | joinRelocate
  | joinClaim
  | joinMap (myProc : Addr)
  | joinRegister (myProc : Addr)
  | joinSignals
  | setupMalloc
  | setupPost (nextProc : Addr)
  | background
  | returned
  | failed
  | died (why : Halt)
  deriving DecidableEq, Repr

/-- `rootDest` is the page of the first active region. The last four fields are no data of the
program: the structs allocated, the structs claimed with their joiners, the structs put on the
list, the last one first, and the number of times that `proc_count` was raised. -/
structure State where
  magic : Bool
  rootDest : Nat
  procCount : Nat
  procList : Option Addr
  preallocProc : Option Addr
  procs : Addr → ScProcess
  heap : Alloc.Sys
  pc : Pid → Pc
  structs : List Addr
  claims : List (Addr × Pid)
  registered : List Addr
  raises : Nat

/-- `other` is a call of the allocator on behalf of someone else. -/
inductive Action where
  | initMagic (p : Pid)
  | initRoot (p : Pid) (base : Nat)
  | initPost (p : Pid)
  | join (p : Pid)
  | relocate (p : Pid) (ok : Bool)
  | claim (p : Pid)
  | map (p : Pid) (ok : Bool)
  | register (p : Pid) (pending : Bool)
  | signals (p : Pid) (ok : Bool)
  | malloc (p : Pid) (fuel : Nat) (answer : Option Nat)
  | post (p : Pid)
  | background (p : Pid) (ok : Bool)
  | die (p : Pid)
  | other (c : Alloc.Call)
  deriving DecidableEq, Repr

def State.goto (s : State) (p : Pid) (pc : Pc) : State :=
  { s with pc := Function.update s.pc p pc }

def State.fill (s : State) (a : Addr) (proc : ScProcess) : State :=
  { s with procs := Function.update s.procs a proc }

def malloc (pg : PageSize) (sizeofProcess fuel : Nat) (answer : Option Nat) (heap : Alloc.Sys) :
    Option (Option Addr × Alloc.Sys) :=
  if sizeofProcess < 2 ^ 63 then
    match Alloc.scMalloc pg (Alloc.kernelMmap pg answer) fuel sizeofProcess heap.heap heap.ranges with
    | .ok (some p, h, rs) =>
      some (some p, ⟨h, rs, ⟨p - Alloc.sizeofHeader, sizeofProcess⟩ :: heap.live⟩)
    | .ok (none, h, rs) => some (none, ⟨h, rs, heap.live⟩)
    | .error _ => none
  else none

/-- What follows the allocation of a struct, in `sc_init` and in `scInit_setup_procListEntry`. -/
def allocated (s : State) (p : Pid) (result : Option Addr) : Option State :=
  match s.pc p, result with
  | .initMalloc, none => some (s.goto p (.died .assertion))
  | .initMalloc, some a => some
    { (s.fill a ⟨none, .alive, p⟩).goto p (.initPost a) with structs := a :: s.structs }
  | .setupMalloc, none => some (s.goto p (.died .todo))
  | .setupMalloc, some a => some
    { (s.fill a ⟨none, .prealloc, 0⟩).goto p (.setupPost a) with structs := a :: s.structs }
  | _, _ => none

/-- The section of `sc_join` that takes the posted struct. -/
def claim (s : State) (p : Pid) : State :=
  match s.preallocProc with
  | none => s.goto p .failed
  | some myProc =>
    { s.goto p (.joinMap myProc) with
      preallocProc := none
      claims := (myProc, p) :: s.claims }

/-- The section of `sc_join` that registers the process. -/
def register (s : State) (p : Pid) (myProc : Addr) (pending : Bool) : State :=
  let s := { s with procCount := (s.procCount + 1) % 2 ^ 32, raises := s.raises + 1 }
  if pending then s.goto p (.died .todo)
  else
    { (s.fill myProc { s.procs myProc with next := s.procList }).goto p .joinSignals with
      procList := some myProc
      registered := myProc :: s.registered }

/-- The section of `scInit_setup_procListEntry`. -/
def post (s : State) (p : Pid) (nextProc : Addr) : State :=
  if s.preallocProc = none then { s.goto p .background with preallocProc := some nextProc }
  else s.goto p (.died .assertion)

def step (pg : PageSize) (sizeofProcess : Nat) (s : State) : Action → Option State
  | .initMagic p =>
    if s.pc p = .initMagic then some { s.goto p .initRoot with magic := true } else none
  | .initRoot p base =>
    if s.pc p = .initRoot then some { s.goto p .initMalloc with
      rootDest := base
      procCount := 0
      procList := none }
    else none
  | .initPost p =>
    match s.pc p with
    | .initPost firstProc => some { s.goto p .setupMalloc with
        procCount := 1
        procList := some firstProc
        registered := firstProc :: s.registered
        raises := s.raises + 1 }
    | _ => none
  | .join p =>
    if s.pc p = .idle ∨ s.pc p = .failed then
      some (s.goto p (if s.magic then .joinRelocate else .failed))
    else none
  | .relocate p ok =>
    if s.pc p = .joinRelocate then
      some (s.goto p (if ok ∧ s.rootDest ≠ 0 then .joinClaim else .failed))
    else none
  | .claim p => if s.pc p = .joinClaim then some (claim s p) else none
  | .map p ok =>
    match s.pc p with
    | .joinMap myProc =>
      if ok then some ((s.fill myProc { s.procs myProc with state := .alive, pid := p }).goto p
        (.joinRegister myProc))
      else some (s.goto p .failed)
    | _ => none
  | .register p pending =>
    match s.pc p with
    | .joinRegister myProc => some (register s p myProc pending)
    | _ => none
  | .signals p ok =>
    if s.pc p = .joinSignals then some (s.goto p (if ok then .setupMalloc else .failed)) else none
  | .malloc p fuel answer => do
    let (result, heap) ← malloc pg sizeofProcess fuel answer s.heap
    allocated { s with heap := heap } p result
  | .post p =>
    match s.pc p with
    | .setupPost nextProc => some (post s p nextProc)
    | _ => none
  | .background p ok =>
    if s.pc p = .background then some (s.goto p (if ok then .returned else .failed)) else none
  | .die p => some (s.goto p (.died .blocked))
  | .other c =>
    match c with
    | .free a =>
      if a ∈ s.structs then none
      else (Alloc.step pg s.heap (.free a)).map fun heap => { s with heap := heap }
    | c => (Alloc.step pg s.heap c).map fun heap => { s with heap := heap }

def State.links (s : State) : Linked Addr := ⟨s.procList, fun a => (s.procs a).next⟩

/-- An empty backing file and the process that is about to call `sc_init` on it. -/
def State.init (s : State) : Prop :=
  s.magic = false ∧ s.rootDest = 0 ∧ s.procCount = 0 ∧ s.procList = none ∧
    s.preallocProc = none ∧ s.heap.init ∧ (∃ p, s.pc p = .initMagic ∧ ∀ q, q ≠ p → s.pc q = .idle) ∧
    s.structs = [] ∧ s.claims = [] ∧ s.registered = [] ∧ s.raises = 0

def Reachable (pg : PageSize) (sizeofProcess : Nat) : State → Prop :=
  Trans.Reach State.init (Trans.ofFun (step pg sizeofProcess))

end Subcontexts.Prealloc
