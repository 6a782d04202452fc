import Subcontexts.Maps.Arena
import Subcontexts.Scon.Isolation

/-! The subcontext library as a whole: the table, the maps files that are parsed, compared and freed,
the lists that the loops and the signal handler walk, and the page protections. -/

namespace Subcontexts.Library
open Maps

structure Scb where
  libhandle : Nat
  memmap : Option Addr
  deriving DecidableEq, Repr

/-- A call in progress: the handle and the table its `scb` pointer belongs to; a creation also has the
map of what was there before. -/
inductive Frame where
  | creating (h gen : Nat) (before : Option Addr)
  | calling (h gen : Nat)
  deriving DecidableEq, Repr

/-- `gen` counts the moves of the table by `realloc`; `closed` remembers the handles closed. -/
structure State where
  arena : Arena
  table : List Scb
  capacity : Nat
  gen : Nat
  prot : Nat → Scon.Prot
  stack : List Frame
  closed : List Nat

/-- `before` and `after` are what `fopen` finds of the maps file, and `junk` what is on the stack while
it is parsed. -/
inductive Action where
  | create (moved : Bool) (before : Option (List Char)) (junk : Nat → Nat → Char)
  | opened (libhandle : Nat) (after : Option (List Char)) (junk : Nat → Nat → Char)
  | call (scon : Nat)
  | ret
  | close (scon : Nat)
  | fault (siErrno : Int) (addr : Nat)
  | remap (start len : Nat) (p : Scon.Prot)

def getScb (s : State) (scon : Nat) : Except Halt Scb :=
  match s.table[scon]? with
  | some c => .ok c
  | none => .error .assertion

def Scb.follow (c : Scb) : Except Halt Addr :=
  match c.memmap with
  | some memmap => .ok memmap
  | none => .error .fault

def Scb.entries (ar : Arena) (c : Scb) : Except Halt (List MapEntry) := do
  let memmap ← c.follow
  ar.entries memmap

def ranges (es : List MapEntry) : List Scon.MapEntry := es.map MapEntry.toRange

/-- The part of `scon_create` between its second `Map_parse` and its loop, and what the loop reads. -/
def newMap (before after : Option Addr) (ar : Arena) :
    Except Halt (Addr × List MapEntry × Arena) :=
  match before, after with
  | some before, some after => do
    let (memmap, ar) ← ar.diff before after
    let ar ← mapFree before ar
    let ar ← mapFree after ar
    let es ← ar.entries memmap
    return (memmap, es, ar)
  | _, _ => .error .fault

section Handler

def findLoop (ar : Arena) (addr : Nat) : Nat → Option Addr → Except Halt (Option MapEntry)
  | 0, _ => .error .fuel
  | _ + 1, none => .ok none
  | fuel + 1, some curr => do
    haltIf .fault (ar.freed curr = true)
    if (ar.heap.mem curr).toRange.contains addr then
      return some (ar.heap.mem curr).toMapEntry
    else findLoop ar addr fuel (ar.heap.mem curr).next

/-- The outer loop of `sigsegv_handler`; the map of the entry it finds is printed. -/
def findEntry (ar : Arena) (addr : Nat) : List Scb → Except Halt MapEntry
  | [] => .error (.exit 1)
  | scon :: table => do
    let memmap ← scon.follow
    let m ← ar.get memmap
    match ← findLoop ar addr (ar.heap.used + 1) m.head with
    | some curr => do
      let _ ← ar.entries memmap
      return curr
    | none => findEntry ar addr table

def sigsegvHandler (siErrno : Int) (addr : Nat) (s : State) : Except Halt MapEntry :=
  if siErrno ≠ 0 then .error (.exit 1) else findEntry s.arena addr s.table

end Handler

/-- A range that no map in use has; see `Scon.State.foreign`. -/
def State.foreign (s : State) (start len : Nat) : Prop :=
  ∀ c ∈ s.table, match c.entries s.arena with
    | .ok es => ∀ e ∈ es, e.endAddr ≤ start ∨ start + len ≤ e.startAddr
    | .error _ => True

instance (s : State) (start len : Nat) : Decidable (s.foreign start len) := by
  unfold State.foreign
  refine @List.decidableBAll _ _ (fun c => ?_) _
  split <;> infer_instance

def step (s : State) : Action → Except Halt State
  | .create moved before junk => do
    let grow := s.capacity / 2 ≤ s.table.length + 1
    let gen := if grow ∧ moved then s.gen + 1 else s.gen
    let (before, ar) ← s.arena.parse junk before
    return { s with
      arena := ar
      table := s.table ++ [⟨0, none⟩]
      capacity := if grow then s.capacity * 2 else s.capacity
      gen := gen
      stack := .creating s.table.length gen before :: s.stack }
  | .opened libhandle after junk =>
    match s.stack with
    | .creating h gen before :: stack => do
      haltIf .fault (gen ≠ s.gen)
      haltIf (.exit 1) (libhandle = 0)
      let (after, ar) ← s.arena.parse junk after
      let (memmap, es, ar) ← newMap before after ar
      return { s with
        arena := ar
        table := s.table.set h ⟨libhandle, some memmap⟩
        prot := Scon.mprotectMap (ranges es) .none s.prot
        stack := stack }
    | _ => .error .blocked
  | .call scon => do
    let c ← getScb s scon
    -- `dlsym` needs a library that is open
    let _ ← c.entries s.arena
    return { s with stack := .calling scon s.gen :: s.stack }
  | .ret =>
    match s.stack with
    | .calling scon gen :: stack => do
      haltIf .fault (gen ≠ s.gen)
      let c ← getScb s scon
      let es ← c.entries s.arena
      return { s with prot := Scon.mprotectMap (ranges es) .none s.prot, stack := stack }
    | _ => .error .blocked
  | .close scon => do
    let c ← getScb s scon
    let memmap ← c.follow
    let es ← s.arena.entries memmap
    let ar ← mapFree memmap s.arena
    return { s with
      arena := ar
      prot := Scon.mprotectMap (ranges es) .rwx s.prot
      closed := scon :: s.closed }
  | .fault siErrno addr => do
    let e ← sigsegvHandler siErrno addr s
    return { s with prot := Scon.mprotect e.startAddr e.toRange.length .rwx s.prot }
  | .remap start len p => do
    haltIf .blocked (¬ s.foreign start len)
    return { s with prot := Scon.mprotect start len p s.prot }

end Subcontexts.Library
