import Subcontexts.Ipc.Access
import Subcontexts.Ipc.LifeCycle

/-! `ipc_send`: any number of processes that run its `main` against the registry and the service,
while the service starts and other processes use the registry. -/

namespace Subcontexts.Send
open Registry (Pid findEntry)
open Ipc (Addr Args At Entry Image Memory Sock SockaddrUn postings)

inductive Call where
  | socket
  | bind
  | listen
  | accept
  deriving DecidableEq, Repr

def Call.entry : Call → Entry
  | .socket => .socket
  | .bind => .bind
  | .listen => .listen
  | .accept => .accept

/-- Where a process is in `main`: before it attaches itself, between the lookups of the names left,
before a call, inside a function of the service, or behind all of them. `outside` is a process that
runs another program, and `todo` is the `TODO()` behind `accept`. -/
inductive Pc where
  | outside
  | attach
  | find (left : List Entry)
  | call (k : Call)
  | inside (k : Call) (place : At)
  | returned (rc : Int)
  | todo
  deriving DecidableEq, Repr

/-- The local variables of `main`: `argv[1]`, what the bytes of `addr` were before, the function
pointers under the names they are looked up with, and `serv`, which is 0 before `socket`. -/
structure Sender where
  pc : Pc
  path : List UInt8
  stack : Nat → UInt8
  ptr : Entry → Nat
  serv : Int

/-- `left` has the posts that the service has still to make. -/
structure State where
  registry : Registry.State String
  left : List Entry
  memory : Memory
  sender : Pid → Sender

/-- Whether the process gets hold of the registry and of the service's subcontext, and whether
`sc_malloc` returns a block. -/
structure Answer where
  attached : Bool
  allocated : Bool

/-- `service` is the next step of the service's `subcontext_main`, `registry` one of a process that
runs another program, and `main` the next one of a process in `main`. -/
inductive Action where
  | service
  | registry (a : Registry.Action String)
  | start (p : Pid) (argc : Nat) (path : List UInt8) (stack : Nat → UInt8)
  | main (p : Pid) (answer : Answer)

def sunPathSize : Nat := 108

/-- `strcpy(addr.sun_path, argv[1])` -/
def sockaddr (stack : Nat → UInt8) (path : List UInt8) (h : path.length < sunPathSize) :
    SockaddrUn where
  sunPath := path ++ 0 :: (List.range (107 - path.length)).map stack
  length_eq := by
    unfold sunPathSize at h
    rw [List.length_append, List.length_cons, List.length_map, List.length_range]
    omega

def Sender.args (c : Sender) : Call → Option Args
  | .socket => some ⟨0, none, 0⟩
  | .bind =>
    if h : c.path.length < sunPathSize then
      some ⟨c.serv, some (sockaddr c.stack c.path h), Ipc.sockaddrSize⟩
    else none
  | .listen | .accept => some ⟨c.serv, none, 0⟩

def Sender.behind (c : Sender) (r : Int) : Call → Sender
  | .socket =>
    if r = -1 then { c with pc := .returned 3 }
    else { c with serv := r, pc := if c.path.length ≥ sunPathSize then .returned 2 else .call .bind }
  | .bind => { c with pc := if r ≠ 0 then .returned 3 else .call .listen }
  | .listen => { c with pc := if r ≠ 0 then .returned 3 else .call .accept }
  | .accept => { c with pc := if r < 0 then .returned 3 else .todo }

def Sender.after (c : Sender) (k : Call) : At ⊕ Int → Sender
  | .inl place => { c with pc := .inside k place }
  | .inr r => c.behind r k

def State.set (s : State) (p : Pid) (c : Sender) : State :=
  { s with sender := Function.update s.sender p c }

def State.goto (s : State) (p : Pid) (pc : Pc) : State := s.set p { s.sender p with pc := pc }

def State.post (s : State) (a : Registry.Action String) : Option State :=
  (Registry.step s.registry a).map fun registry => { s with registry := registry }

def enter (img : Image) (p : Pid) (k : Call) (s : State) : Option State := do
  let c := s.sender p
  let f ← Ipc.functions.find? fun f => img.address f = c.ptr k.entry
  let args ← c.args k
  let next ← (f.enter args).toOption
  return s.set p (c.after k next)

def proceed (p : Pid) (k : Call) (place : At) (allocated : Bool) (s : State) : Option State := do
  let c := s.sender p
  let args ← c.args k
  let (next, memory) ← (place.step allocated args s.memory).toOption
  return { s.set p (c.after k next) with memory := memory }

/-- `main`, from the point where `argc` has been checked. -/
def main (img : Image) (p : Pid) (answer : Answer) (s : State) : Option State :=
  let c := s.sender p
  match c.pc with
  | .attach => some (s.goto p (if answer.attached then .find postings else .returned 2))
  | .find [] =>
    some (s.goto p (if postings.any fun e => c.ptr e = 0 then .returned 3 else .call .socket))
  | .find (e :: left) =>
    match s.registry.pc p with
    | .idle => s.post (.registryFind p e.name)
    | .find name =>
      let sym := findEntry s.registry.list name
      (s.set p { c with pc := .find left, ptr := Function.update c.ptr e sym }).post (.find p)
    | _ => none
  | .call k => enter img p k s
  | .inside k place => proceed p k place answer.allocated s
  | .outside | .returned _ | .todo => none

/-- The posts of the service; its sockets are in `memory`, where `subcontext_main` does not go. -/
def service (img : Image) (s : State) : Option State :=
  (Ipc.subcontextMain img ⟨s.registry, s.left, ⟨1, []⟩⟩).map fun ipc =>
    { s with registry := ipc.registry, left := ipc.left }

def step (img : Image) (s : State) : Action → Option State
  | .service => service img s
  | .registry a =>
    if Ipc.processOf a ≠ img.server ∧ (s.sender (Ipc.processOf a)).pc = .outside then s.post a
    else none
  | .start p argc path stack =>
    if p ≠ img.server ∧ (s.sender p).pc = .outside ∧ s.registry.pc p = .idle ∧ 0 ∉ path then
      some (s.set p ⟨if argc ≠ 2 then .returned 1 else .attach, path, stack, fun _ => 0, 0⟩)
    else none
  | .main p answer => main img p answer s

def State.init (s : State) : Prop :=
  s.registry.init ∧ s.left = postings ∧ s.memory.nextSockNo = 1 ∧
    s.memory.activeSocketList = none ∧ s.memory.used = 0 ∧
    ∀ p, (s.sender p).pc = .outside ∧ (s.sender p).path = [] ∧ (s.sender p).ptr = (fun _ => 0) ∧
      (s.sender p).serv = 0

/-- The condition on a step. The calls of `sc_ipc_socket` do not overlap: one allocates its struct
only when the others have theirs complete, and while the counter does not overflow. And no other
process posts under one of the service's names. -/
def Spares (s : State) : Action → Prop
  | .main p _ => (s.sender p).pc = .inside .socket .malloc →
    s.memory.nextSockNo < 2 ^ 31 - 1 ∧ ∀ a < s.memory.used, (s.memory.sock a).type ≠ none
  | .registry (.registryPost _ name _) => name ∉ postings.map Entry.name
  | _ => True

instance (s : State) : (a : Action) → Decidable (Spares s a)
  | .main _ _ => inferInstanceAs (Decidable (_ → _))
  | .registry (.registryPost _ _ _) => inferInstanceAs (Decidable (_ ∉ _))
  | .registry (.check _) | .registry (.malloc _) | .registry (.insert _)
  | .registry (.registryFind _ _) | .registry (.find _) | .service | .start _ _ _ _ =>
    .isTrue trivial

def Action.By (p : Pid) : Action → Bool
  | .main q _ => q = p
  | _ => false

def Pc.Running : Pc → Prop
  | .outside | .returned _ | .todo => False
  | _ => True

end Subcontexts.Send
