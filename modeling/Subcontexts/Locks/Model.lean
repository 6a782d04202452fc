import Subcontexts.Lib.Trans
import Subcontexts.Lib.WaitFor
import Mathlib.Data.Finset.Basic

/-! The root lock and the lock of the allocator: where `sc_malloc`, `sc_free`, `sc_mmap`,
`sc_postNewReservation` and the background thread take and release them. -/

namespace Subcontexts.Locks

inductive MallocCaller where
  | user
  | post
  deriving DecidableEq, Repr

inductive FreeCaller where
  | user
  | post
  | cleanup
  deriving DecidableEq, Repr

/-- Where a thread is. At a `...Lock` it waits, in a `...Body` it holds what it waited for. -/
inductive Pc where
  | idle
  | mallocLock (c : MallocCaller)
  | mallocBody (c : MallocCaller)
  | mmapLock (c : Option MallocCaller)
  | mmapBody (c : Option MallocCaller)
  | mallocCarve (c : MallocCaller)
  | freeLock (c : FreeCaller)
  | freeBody (c : FreeCaller)
  | postLock
  | postBody
  | postMmap
  | postEnd
  | lookLock
  | lookBody
  | cleanLock
  | cleanBody
  | cleanNext
  deriving DecidableEq, Repr

inductive Entry where
  | malloc
  | free
  | mmap
  | post
  | look
  | cleanup
  deriving DecidableEq, Repr

def Entry.pc : Entry → Pc
  | .malloc => .mallocLock .user
  | .free => .freeLock .user
  | .mmap => .mmapLock none
  | .post => .postLock
  | .look => .lookLock
  | .cleanup => .cleanLock

section Threads
variable {A : Type} [DecidableEq A]

/-- The holders of the locks: the root lock exclusively or shared, the allocator's lock. -/
structure State (A : Type) where
  rootX : Option A
  rootS : Finset A
  md : Option A
  pc : A → Pc

inductive Action (A : Type) where
  | call (a : A) (e : Entry)
  | acquire (a : A)
  | advance (a : A) (b : Bool)

def State.goto (s : State A) (a : A) (pc : Pc) : State A :=
  { s with pc := Function.update s.pc a pc }

def lockRoot (s : State A) (a : A) (pc : Pc) : Option (State A) :=
  if s.rootX = none ∧ s.rootS = ∅ then some { s.goto a pc with rootX := some a } else none

def lockMd (s : State A) (a : A) (pc : Pc) : Option (State A) :=
  if s.md = none then some { s.goto a pc with md := some a } else none

def mallocReturn (ok : Bool) : MallocCaller → Pc
  | .user => .idle
  | .post => if ok then .postMmap else .postEnd

def freeReturn : FreeCaller → Pc
  | .user => .idle
  | .post => .postEnd
  | .cleanup => .cleanNext

/-- `b` is what the data decides: a node fits, a call succeeds, another step is complete. -/
def step (s : State A) : Action A → Option (State A)
  | .call a e => if s.pc a = .idle then some (s.goto a e.pc) else none
  | .acquire a =>
    match s.pc a with
    | .mallocLock c => lockMd s a (.mallocBody c)
    | .freeLock c => lockMd s a (.freeBody c)
    | .mmapLock c => lockRoot s a (.mmapBody c)
    | .postLock => lockRoot s a .postBody
    | .cleanLock => lockRoot s a .cleanBody
    | .lookLock =>
      if s.rootX = none then some { s.goto a .lookBody with rootS := insert a s.rootS } else none
    | _ => none
  | .advance a b =>
    match s.pc a with
    | .mallocBody c =>
      if b then some { s.goto a (mallocReturn true c) with md := none }
      else some (s.goto a (.mmapLock (some c)))
    | .mmapBody none => some { s.goto a .idle with rootX := none }
    | .mmapBody (some c) => some { s.goto a (.mallocCarve c) with rootX := none }
    | .mallocCarve c => some { s.goto a (mallocReturn b c) with md := none }
    | .freeBody c => some { s.goto a (freeReturn c) with md := none }
    | .postBody => some (s.goto a (if b then .mallocLock .post else .postEnd))
    | .postMmap => some (s.goto a (if b then .postEnd else .freeLock .post))
    | .postEnd => some { s.goto a .idle with rootX := none }
    | .lookBody => some { s.goto a .idle with rootS := s.rootS.erase a }
    | .cleanBody => some (s.goto a (.freeLock .cleanup))
    | .cleanNext =>
      if b then some (s.goto a .cleanBody) else some { s.goto a .idle with rootX := none }
    | _ => none

def State.init (s : State A) : Prop :=
  s.rootX = none ∧ s.rootS = ∅ ∧ s.md = none ∧ ∀ a, s.pc a = .idle

inductive Lock where
  | root
  | md
  deriving DecidableEq, Repr

inductive WaitsOn (s : State A) (a b : A) : Prop where
  | md : (∃ c, s.pc a = .mallocLock c) ∨ (∃ c, s.pc a = .freeLock c) → s.md = some b → WaitsOn s a b
  | rootX : (∃ c, s.pc a = .mmapLock c) ∨ s.pc a = .postLock ∨ s.pc a = .cleanLock →
      s.rootX = some b ∨ b ∈ s.rootS → WaitsOn s a b
  | rootS : s.pc a = .lookLock → s.rootX = some b → WaitsOn s a b

end Threads
end Subcontexts.Locks
