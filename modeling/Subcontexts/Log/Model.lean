import Subcontexts.Lib.Trans
import Subcontexts.Machine
import Mathlib.Data.Finset.Card

/-! The cleanup log: posting of a reservation, the rounds of the background threads, joining and
leaving. One action is one section under a lock. -/

namespace Subcontexts.Log

abbrev Pid := Nat

abbrev Addr := Nat

inductive Op where
  | reserveMemory
  | reserveMemoryAbort
  deriving DecidableEq, Repr

/-- `lock` is the process whose background thread holds the step exclusively. -/
structure CleanupLogStep where
  lock : Option Pid
  seqNum : Nat
  next : Option Addr
  ackTarg : Nat
  ackCount : Nat
  op : Op
  vaddr : Nat
  len : Nat
  deriving DecidableEq, Repr

structure Region where
  vaddr : Nat
  len : Nat
  deriving DecidableEq, Repr

inductive Phase where
  | idle
  | handling (curStep firstStep : Addr) (needListCleanup : Bool)
  | owing
  | cleaning
  deriving DecidableEq, Repr

/-- `registered` are the processes counted by `procCount`, `alive` those that have not exited;
`rootLock` is a background thread that keeps the root lock from one section to the next. -/
structure State where
  rootLock : Option Pid
  lastSeqNum : Nat
  cleanupLog : Option Addr
  cleanupLogTail : Option Addr
  steps : Addr → CleanupLogStep
  pendingReservation : Option Region
  reservedRegions : List Region
  freeStructs : Nat
  procCount : Nat
  registered : Finset Pid
  alive : Finset Pid
  flushPoint : Pid → Nat
  phase : Pid → Phase
  recentReserve : Pid → Option Region

inductive Action where
  | post (p : Pid) (pages : Nat) (newStep : Option Addr) (range : Option Nat)
  | look (p : Pid)
  | ack (p : Pid) (mapped : Bool)
  | lockRoot (p : Pid)
  | clean (p : Pid)
  | join (p : Pid)
  | remove (p : Pid)
  | exit (p : Pid)
  | depart (p : Pid)
  deriving DecidableEq, Repr

def blockedUnless (c : Prop) [Decidable c] : Except Halt Unit :=
  if c then .ok () else .error .blocked

theorem blockedUnless_eq_ok {c : Prop} [Decidable c] {u : Unit} :
    blockedUnless c = .ok u ↔ c := by
  unfold blockedUnless
  split <;> simp_all

theorem blockedUnless_eq_error {c : Prop} [Decidable c] {e : Halt} :
    blockedUnless c = .error e ↔ ¬ c ∧ e = .blocked := by
  unfold blockedUnless
  split <;> simp_all [eq_comm]

def State.setStep (s : State) (a : Addr) (st : CleanupLogStep) : State :=
  { s with steps := Function.update s.steps a st }

def State.setPhase (s : State) (p : Pid) (ph : Phase) : State :=
  { s with phase := Function.update s.phase p ph }

def State.setFlush (s : State) (p : Pid) (n : Nat) : State :=
  { s with flushPoint := Function.update s.flushPoint p n }

def append (s : State) (newStep : Addr) : Except Halt State :=
  match s.cleanupLog with
  | none => do
    check (s.cleanupLogTail = none)
    return { s with cleanupLog := some newStep, cleanupLogTail := some newStep }
  | some _ =>
    match s.cleanupLogTail with
    | none => .error .assertion
    | some oldTail => do
      blockedUnless ((s.steps oldTail).lock = none)
      return { s.setStep oldTail { s.steps oldTail with next := some newStep } with
        cleanupLogTail := some newStep }

/-- `sc_postNewReservation`, with what `sc_malloc` and `mmap` answer. -/
def postNewReservation (pg : PageSize) (s : State) (p : Pid) (pages : Nat) (newStep : Option Addr)
    (range : Option Nat) : Except Halt State := do
  check (s.pendingReservation = none)
  check (0 < pages)
  check (1 < s.procCount)
  if s.flushPoint p ≠ s.lastSeqNum then throw .todo
  check (s.freeStructs ≠ 0)
  if s.freeStructs = 1 then throw .todo
  let s := { s with freeStructs := s.freeStructs - 1 }
  match newStep with
  | none => return s
  | some newStep =>
    match range with
    | none => throw .todo
    | some range => do
      let newReg : Region := ⟨range, u64 (pages * pg.bytes)⟩
      let lastSeqNum := u64 (s.lastSeqNum + 1)
      let s ← append { s with pendingReservation := some newReg, lastSeqNum := lastSeqNum } newStep
      let s := s.setStep newStep
        ⟨none, lastSeqNum, none, s.procCount, 1, .reserveMemory, newReg.vaddr, newReg.len⟩
      check (lastSeqNum = s.flushPoint p + 1)
      return s.setFlush p (s.flushPoint p + 1)

/-- The leapfrogging loop, `hops` steps along the log. -/
def hop (steps : Addr → CleanupLogStep) : Nat → Addr → Except Halt Addr
  | 0, curStep => .ok curStep
  | hops + 1, curStep =>
    match (steps curStep).next with
    | none => .error .assertion
    | some next => do
      check ((steps next).seqNum = (steps curStep).seqNum + 1)
      hop steps hops next

def findStep (steps : Addr → CleanupLogStep) (flushPoint : Nat) (curStep : Addr) :
    Except Halt Addr := do
  check ((steps curStep).seqNum ≤ flushPoint + 1)
  if (steps curStep).seqNum < flushPoint + 1 then
    let curStep ← hop steps (flushPoint - (steps curStep).seqNum) curStep
    check ((steps curStep).seqNum = flushPoint)
    hop steps 1 curStep
  else return curStep

/-- The start of a round, up to the lock of the step to process. -/
def look (s : State) (p : Pid) : Except Halt State := do
  if s.lastSeqNum = s.flushPoint p then return s
  check (s.flushPoint p < s.lastSeqNum)
  match s.cleanupLog with
  | none => .error .assertion
  | some firstStep => do
    let curStep ← findStep s.steps (s.flushPoint p) firstStep
    check ((s.steps curStep).seqNum = s.flushPoint p + 1)
    blockedUnless ((s.steps curStep).lock = none)
    return (s.setStep curStep { s.steps curStep with lock := some p }).setPhase p
      (.handling curStep firstStep false)

/-- `mapped`: the kernel puts the reservation where it was asked to. -/
def handleCleanupLogStep (s : State) (p : Pid) (step : CleanupLogStep) (mapped : Bool) :
    Except Halt State :=
  match step.op with
  | .reserveMemory =>
    if step.len = 0 then .ok s
    else if mapped then
      .ok { s with
        recentReserve := Function.update s.recentReserve p (some ⟨step.vaddr, step.len⟩) }
    else .error .todo
  | .reserveMemoryAbort => .error .todo

/-- One pass of the loop that processes the log. -/
def ack (s : State) (p : Pid) (curStep firstStep : Addr) (needListCleanup mapped : Bool) :
    Except Halt State := do
  let step := s.steps curStep
  let s ← handleCleanupLogStep s p step mapped
  check (step.ackCount < step.ackTarg)
  let ackCount := step.ackCount + 1
  let needListCleanup :=
    needListCleanup || (curStep == firstStep && ackCount == step.ackTarg)
  check (step.seqNum = s.flushPoint p + 1)
  let s := s.setFlush p (s.flushPoint p + 1)
  let s := s.setStep curStep { step with ackCount := ackCount, lock := none }
  match step.next with
  | none => return s.setPhase p (if needListCleanup then .owing else .idle)
  | some next => do
    blockedUnless ((s.steps next).lock = none)
    return (s.setStep next { s.steps next with lock := some p }).setPhase p
      (.handling next firstStep needListCleanup)

/-- The start of the list cleanup: the locks of the root and of the first step. -/
def lockRoot (s : State) (p : Pid) : Except Halt State :=
  match s.cleanupLog, s.cleanupLogTail with
  | some curStep, some _ => do
    blockedUnless ((s.steps curStep).lock = none)
    check ((s.steps curStep).ackCount = (s.steps curStep).ackTarg)
    return { (s.setStep curStep { s.steps curStep with lock := some p }).setPhase p .cleaning with
      rootLock := some p }
  | _, _ => .error .assertion

def finishStep (s : State) (first : CleanupLogStep) : Except Halt State :=
  match first.op with
  | .reserveMemory =>
    match s.pendingReservation with
    | none => .error .fault
    | some pending => do
      check (pending.vaddr = first.vaddr)
      if pending.len ≠ 0 then
        check (pending.len = first.len)
        return { s with
          pendingReservation := none, reservedRegions := pending :: s.reservedRegions }
      else .error .todo
  | .reserveMemoryAbort => .ok s

/-- One pass of the list-cleanup loop. -/
def clean (s : State) (p : Pid) : Except Halt State :=
  match s.cleanupLog with
  | none => .error .fault
  | some first => do
    let step := s.steps first
    let s ← finishStep s step
    match step.next with
    | none => return { s.setPhase p .idle with
        cleanupLog := none, cleanupLogTail := none, rootLock := none }
    | some next => do
      blockedUnless ((s.steps next).lock = none)
      check ((s.steps next).ackCount ≤ (s.steps next).ackTarg)
      if (s.steps next).ackCount < (s.steps next).ackTarg then
        return { s.setPhase p .idle with cleanupLog := some next, rootLock := none }
      else return { s.setStep next { s.steps next with lock := some p } with
        cleanupLog := some next }

/-- The registration section of `sc_join`. -/
def join (s : State) (p : Pid) : Except Halt State := do
  if s.pendingReservation ≠ none then throw .todo
  return { (s.setFlush p s.lastSeqNum).setPhase p .idle with
    procCount := s.procCount + 1
    registered := insert p s.registered
    alive := insert p s.alive }

/-- `sc_killLocalProc`, which waits until the background thread has caught up. -/
def remove (s : State) (p : Pid) : Except Halt State := do
  if s.flushPoint p ≠ s.lastSeqNum then
    check (s.flushPoint p < s.lastSeqNum)
    throw .blocked
  return { s with procCount := s.procCount - 1, registered := s.registered.erase p }

def exit (s : State) (p : Pid) : State :=
  { s.setPhase p .idle with alive := s.alive.erase p }

def step (pg : PageSize) (s : State) : Action → Except Halt State
  | .post p pages newStep range => do
    blockedUnless (s.rootLock = none ∧ p ∈ s.registered)
    postNewReservation pg s p pages newStep range
  | .look p => do
    blockedUnless (s.rootLock = none ∧ p ∈ s.alive ∧ s.phase p = .idle)
    look s p
  | .ack p mapped =>
    match s.phase p with
    | .handling curStep firstStep needListCleanup =>
      ack s p curStep firstStep needListCleanup mapped
    | _ => .error .blocked
  | .lockRoot p => do
    blockedUnless (s.rootLock = none ∧ s.phase p = .owing)
    lockRoot s p
  | .clean p => do
    blockedUnless (s.phase p = .cleaning)
    clean s p
  | .join p => do
    blockedUnless (s.rootLock = none ∧ p ∉ s.alive)
    join s p
  | .remove p => do
    blockedUnless (s.rootLock = none ∧ p ∈ s.registered)
    remove s p
  | .exit p => do
    blockedUnless (p ∈ s.alive ∧ p ∉ s.registered)
    return exit s p
  | .depart p => do
    blockedUnless (s.rootLock = none ∧ p ∈ s.registered)
    let s ← remove s p
    return exit s p

/-- The state `sc_init` leaves: one process, the page's region structs, nothing posted. -/
def State.init (s : State) : Prop :=
  s.rootLock = none ∧ s.lastSeqNum = 1 ∧ s.cleanupLog = none ∧ s.cleanupLogTail = none ∧
    s.pendingReservation = none ∧ 0 < s.freeStructs ∧ s.freeStructs < 2 ^ 31 ∧ s.procCount = 1 ∧
    s.alive = s.registered ∧ (∃ p, s.registered = {p} ∧ s.flushPoint p = 1) ∧
    ∀ p, s.phase p = .idle

def Step (pg : PageSize) (s : State) (a : Action) (t : State) : Prop := step pg s a = .ok t

end Subcontexts.Log
