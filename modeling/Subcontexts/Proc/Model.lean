import Subcontexts.Lib.Links
import Subcontexts.Lib.Trans
import Mathlib.Data.Finset.Card

/-! The process list: the registration section of `sc_join` and the list walk of
`sc_killLocalProc`, one lock operation or one access to a shared pointer at a time. -/

namespace Subcontexts.Proc

abbrev Pid := Nat

abbrev Addr := Nat

/-- `none` is the root with its `proc_list`, `some a` the struct at `a` with its `next`. -/
abbrev Slot := Option Addr

/-- Where a process is; `prev` stands for `prevLock` and `prevProc`, `cur` for `curProc`. -/
inductive Pc where
  | idle
  | joinLock (myProc : Addr)
  | joinCount (myProc : Addr)
  | joinRead (myProc : Addr)
  | joinPush (myProc : Addr)
  | joinUnlock
  | killLock
  | killCount
  | killHead
  | killTest (prev : Slot) (cur : Option Addr)
  | killLockCur (prev : Slot) (cur : Addr)
  | killUnlockPrev (prev : Slot) (cur : Addr)
  | killCompare (prev : Slot) (cur : Addr)
  | killRead (prev : Slot) (cur : Addr)
  | killWrite (prev : Slot) (cur : Addr) (next : Option Addr)
  | killUnlockCur (cur : Addr)
  | killFree (cur : Addr)
  | killNext (cur : Addr)
  | killUnlockLast (prev : Slot)
  deriving DecidableEq, Repr

/-- `used` are the structs in use as an `sc_process`, `members` the processes that have registered
and not been removed. -/
structure State where
  procList : Option Addr
  next : Addr → Option Addr
  pid : Addr → Pid
  used : Addr → Bool
  procCount : Nat
  lock : Slot → Option Pid
  pc : Pid → Pc
  members : Finset Pid

inductive Action where
  | join (p : Pid) (myProc : Addr)
  | kill (p : Pid)
  | run (p : Pid)
  | scribble (a : Addr) (next : Option Addr) (pid : Pid)
  deriving DecidableEq, Repr

def State.links (s : State) : Linked Addr := ⟨s.procList, s.next⟩

def State.goto (s : State) (p : Pid) (pc : Pc) : State :=
  { s with pc := Function.update s.pc p pc }

def acquire (s : State) (p : Pid) (slot : Slot) (pc : Pc) : Option State :=
  if s.lock slot = none then
    some { s.goto p pc with lock := Function.update s.lock slot (some p) }
  else none

def release (s : State) (p : Pid) (slot : Slot) (pc : Pc) : State :=
  { s.goto p pc with lock := Function.update s.lock slot none }

def State.write (s : State) (slot v : Slot) : State :=
  { s with procList := (s.links.set slot v).head, next := (s.links.set slot v).next }

def advance (s : State) (p : Pid) : Option State :=
  match s.pc p with
  | .idle => none
  | .joinLock myProc => acquire s p none (.joinCount myProc)
  | .joinCount myProc => some { s.goto p (.joinRead myProc) with procCount := s.procCount + 1 }
  | .joinRead myProc => some ((s.write (some myProc) s.procList).goto p (.joinPush myProc))
  | .joinPush myProc => some ((s.write none (some myProc)).goto p .joinUnlock)
  | .joinUnlock => some (release s p none .idle)
  | .killLock => acquire s p none .killCount
  | .killCount => some { s.goto p .killHead with procCount := s.procCount - 1 }
  | .killHead => some (s.goto p (.killTest none s.procList))
  | .killTest prev (some cur) => some (s.goto p (.killLockCur prev cur))
  | .killTest prev none => some (s.goto p (.killUnlockLast prev))
  | .killLockCur prev cur => acquire s p (some cur) (.killUnlockPrev prev cur)
  | .killUnlockPrev prev cur => some (release s p prev (.killCompare prev cur))
  | .killCompare prev cur =>
    some (s.goto p (if s.pid cur = p then .killRead prev cur else .killNext cur))
  | .killRead prev cur => some (s.goto p (.killWrite prev cur (s.next cur)))
  | .killWrite prev cur next => some ((s.write prev next).goto p (.killUnlockCur cur))
  | .killUnlockCur cur => some (release s p (some cur) (.killFree cur))
  | .killFree cur => some { s.goto p .idle with used := Function.update s.used cur false }
  | .killNext cur => some (s.goto p (.killTest (some cur) (s.next cur)))
  | .killUnlockLast prev => some (release s p prev .idle)

/-- A joiner brings a struct it has filled in; memory not in use may change at any time. -/
def step (s : State) : Action → Option State
  | .join p myProc =>
    if s.pc p = .idle ∧ p ∉ s.members ∧ s.used myProc = false then
      some { s.goto p (.joinLock myProc) with
        used := Function.update s.used myProc true
        pid := Function.update s.pid myProc p
        members := insert p s.members }
    else none
  | .kill p =>
    if s.pc p = .idle ∧ p ∈ s.members then
      some { s.goto p .killLock with members := s.members.erase p }
    else none
  | .run p => advance s p
  | .scribble a next pid =>
    if s.used a = false then
      some { s with
        next := Function.update s.next a next
        pid := Function.update s.pid a pid }
    else none

def State.init (s : State) : Prop :=
  ∃ a p, s.procList = some a ∧ s.next a = none ∧ s.pid a = p ∧ s.used a = true ∧
    s.procCount = 1 ∧ (∀ slot, s.lock slot = none) ∧ (∀ q, s.pc q = .idle) ∧ s.members = {p}

def Quiet (s : State) : Prop := ∀ p, s.pc p = .idle

/-- The list has one entry for each member, none of them freed, and the count is its length. -/
structure Listed (s : State) (l : List Addr) : Prop where
  chain : s.links.Holds l
  once : (l.map s.pid).Nodup
  members : ∀ p, p ∈ l.map s.pid ↔ p ∈ s.members
  used : ∀ a ∈ l, s.used a = true
  count : s.procCount = l.length

end Subcontexts.Proc
