import Subcontexts.Machine
import Subcontexts.Registry.Posted

/-! The IPC service: its socket functions, the table under which `subcontext_main` posts them in the
registry, and clients that call through the pointers they find there. -/

namespace Subcontexts.Ipc
open Registry (findEntry)

inductive SockType where
  | NEW
  | BIND
  | LISTEN
  | ACCEPT
  | OPEN
  deriving DecidableEq, Repr

/-- `sc_ipc_sockState`; `addr` is the string in `bind.addr`. -/
structure SockState where
  sockNo : Int
  type : SockType
  addr : List UInt8
  deriving DecidableEq, Repr

/-- `sockState->type = SC_IPC_BIND; strcpy(sockState->bind.addr, ...)` -/
def SockState.bind (addr : List UInt8) (c : SockState) : SockState :=
  { c with type := .BIND, addr := addr }

/-- `sockState->type = SC_IPC_LISTEN` -/
def SockState.listen (c : SockState) : SockState := { c with type := .LISTEN }

/-- The static data of the service; the sockets are in the order of their `nextSock` pointers. -/
structure Service where
  nextSockNo : Int
  activeSocketList : List SockState
  deriving DecidableEq, Repr

structure SockaddrUn where
  sunPath : List UInt8
  length_eq : sunPath.length = 108

def sockaddrSize : Nat := 110

def bindAddrSize : Nat := 256

def SockaddrUn.name (addr : SockaddrUn) : List UInt8 := addr.sunPath.takeWhile (· ≠ 0)

/-- `strnlen(addr_un->sun_path, sizeof(addr_un->sun_path))`. -/
def SockaddrUn.nameLen (addr : SockaddrUn) : Nat := addr.name.length

/-- What a caller passes, the unused arguments apart; `addr` is `none` for `NULL`, and a third
argument that is a pointer is `NULL` where `addrlen` is 0. -/
structure Args where
  socket : Int
  addr : Option SockaddrUn
  addrlen : Nat

def findSockState : List SockState → Int → Option SockState
  | [], _ => none
  | cur :: rest, socket => if cur.sockNo = socket then some cur else findSockState rest socket

def writeSockState (f : SockState → SockState) : List SockState → Int → List SockState
  | [], _ => []
  | cur :: rest, socket =>
    if cur.sockNo = socket then f cur :: rest else cur :: writeSockState f rest socket

def Service.write (f : SockState → SockState) (s : Service) (socket : Int) : Service :=
  { s with activeSocketList := writeSockState f s.activeSocketList socket }

section Functions

abbrev Result := Except Halt (Int × Service)

/-- `sc_ipc_socket`; `allocated` is whether `sc_malloc` returns a block. -/
def scIpcSocket (allocated : Bool) (s : Service) : Result :=
  if allocated then
    .ok (s.nextSockNo, {
      nextSockNo := (s.nextSockNo + 1).bmod (2 ^ 32)
      activeSocketList := ⟨s.nextSockNo, .NEW, []⟩ :: s.activeSocketList })
  else .ok (-1, s)

def scIpcBind (args : Args) (s : Service) : Result :=
  match findSockState s.activeSocketList args.socket with
  | none => .ok (-1, s)
  | some sockState =>
    if sockState.type ≠ .NEW then .ok (-1, s)
    else if args.addrlen ≠ sockaddrSize then .ok (-1, s)
    else match args.addr with
      | none => .error .fault
      | some addr =>
        if addr.nameLen = 108 then .ok (-1, s)
        else if bindAddrSize ≤ addr.nameLen then .ok (-1, s)
        else .ok (0, s.write (.bind addr.name) args.socket)

def scIpcListen (args : Args) (s : Service) : Result :=
  match findSockState s.activeSocketList args.socket with
  | none => .ok (-1, s)
  | some sockState =>
    if sockState.type ≠ .BIND then .ok (-1, s)
    else .ok (0, s.write .listen args.socket)

def scIpcAccept (args : Args) (s : Service) : Result :=
  if args.addr.isSome ∨ args.addrlen ≠ 0 then .ok (-1, s) else .error .todo

def scIpcConnect : Result := .error .todo

def scIpcSend : Result := .error .todo

def scIpcRecv : Result := .error .todo

end Functions

inductive Func where
  | socket
  | bind
  | listen
  | accept
  | connect
  | send
  | recv
  deriving DecidableEq, Repr

def Func.run (allocated : Bool) (args : Args) (s : Service) : Func → Result
  | .socket => scIpcSocket allocated s
  | .bind => scIpcBind args s
  | .listen => scIpcListen args s
  | .accept => scIpcAccept args s
  | .connect => scIpcConnect
  | .send => scIpcSend
  | .recv => scIpcRecv

def functions : List Func := [.socket, .bind, .listen, .accept, .connect, .send, .recv]

structure Image where
  server : Registry.Pid
  address : Func → Nat
  ne_zero : ∀ f, address f ≠ 0
  injective : Function.Injective address

inductive Entry where
  | socket
  | bind
  | listen
  | accept
  | connect
  | send
  | recv
  deriving DecidableEq, Repr

def Entry.name : Entry → String
  | .socket => "ipc:sc_ipc_socket(int,int,int)"
  | .bind => "ipc:sc_ipc_bind(int,const struct sockaddr*,socklen_t)"
  | .listen => "ipc:sc_ipc_listen(int,int)"
  | .accept => "ipc:sc_ipc_accept(int,struct sockaddr*,socklen_t*)"
  | .connect => "ipc:sc_ipc_connect(int,const struct sockaddr*,socklen_t)"
  | .send => "ipc:sc_ipc_send(int,const void*,size_t,int)"
  | .recv => "ipc:sc_ipc_recv(int,void*,size_t,int)"

def Entry.posted : Entry → Func
  | .socket => .socket
  | .bind => .bind
  | .listen => .listen
  | .accept => .listen
  | .connect => .listen
  | .send => .send
  | .recv => .recv

def postings : List Entry := [.socket, .bind, .listen, .accept, .connect, .send, .recv]

/-- `left` has the posts that `subcontext_main` has still to make. -/
structure State where
  registry : Registry.State String
  left : List Entry
  service : Service

/-- `main` is the next step of `subcontext_main`, and `registry` one of any other process. -/
inductive Action where
  | main
  | registry (a : Registry.Action String)
  | call (e : Entry) (f : Func) (allocated : Bool) (args : Args)

def processOf : Registry.Action String → Registry.Pid
  | .registryPost p _ _ | .check p | .malloc p | .insert p | .registryFind p _ | .find p => p

/-- No other process posts a function of the service under one of the service's names. -/
def Foreign (img : Image) : Registry.Action String → Prop
  | .registryPost p name sym =>
    p ≠ img.server ∧ ¬ (name ∈ postings.map Entry.name ∧ sym ∈ functions.map img.address)
  | a => processOf a ≠ img.server

instance (img : Image) : DecidablePred (Foreign img)
  | .registryPost .. => inferInstanceAs (Decidable (_ ∧ _))
  | .check p | .malloc p | .insert p | .registryFind p _ | .find p =>
    inferInstanceAs (Decidable (p ≠ img.server))

def State.post (s : State) (a : Registry.Action String) (left : List Entry) : Option State :=
  (Registry.step s.registry a).map fun registry => { s with registry := registry, left := left }

/-- `subcontext_main` posts its names one after the other; a post that fails ends in a `TODO()`. -/
def subcontextMain (img : Image) (s : State) : Option State :=
  match s.registry.pc img.server, s.left with
  | .idle, e :: left => s.post (.registryPost img.server e.name (img.address e.posted)) left
  | .idle, [] => none
  | .postCheck name _, left =>
    s.post (.check img.server) (if findEntry s.registry.list name ≠ 0 then [] else left)
  | .postMalloc _ _, left => s.post (.malloc img.server) left
  | .postInsert _ _, left => s.post (.insert img.server) left
  | .find _, _ => none

/-- A client's call through a pointer that `registry_find` has returned for the name of `e` and that
points to `f`: what it returns, and the state then. -/
def State.call (img : Image) (s : State) (e : Entry) (f : Func) (allocated : Bool) (args : Args) :
    Option (Int × State) :=
  if .find e.name (img.address f) ∈ s.registry.returns then
    match f.run allocated args s.service with
    | .ok (r, service) => some (r, { s with service := service })
    | .error _ => none
  else none

/-- `none` where a call does not return. -/
def step (img : Image) (s : State) : Action → Option State
  | .main => subcontextMain img s
  | .registry a => if Foreign img a then s.post a s.left else none
  | .call e f allocated args => (s.call img e f allocated args).map Prod.snd

def State.init (s : State) : Prop :=
  s.registry.init ∧ s.left = postings ∧ s.service = ⟨1, []⟩

theorem Entry.name_injective : Function.Injective Entry.name := by
  intro a b h
  cases a <;> cases b <;> first | rfl | exact absurd h (by decide)

section Sockets
variable {l : List SockState} {f : SockState → SockState} {socket no : Int}

theorem findSockState_eq_none_iff :
    findSockState l no = none ↔ no ∉ l.map SockState.sockNo := by
  induction l with
  | nil => simp [findSockState]
  | cons c l ih =>
    rw [findSockState, List.map_cons, List.mem_cons, not_or]
    by_cases h : c.sockNo = no
    · simp [h]
    · rw [if_neg h, ih]
      exact ⟨fun hl => ⟨Ne.symm h, hl⟩, fun hl => hl.2⟩

theorem map_sockNo_writeSockState (hf : ∀ c, (f c).sockNo = c.sockNo) :
    (writeSockState f l socket).map SockState.sockNo = l.map SockState.sockNo := by
  induction l with
  | nil => rfl
  | cons c l ih =>
    rw [writeSockState]
    split
    · rw [List.map_cons, List.map_cons, hf]
    · rw [List.map_cons, List.map_cons, ih]

theorem findSockState_writeSockState (hf : ∀ c, (f c).sockNo = c.sockNo) :
    findSockState (writeSockState f l socket) no =
      if no = socket then (findSockState l no).map f else findSockState l no := by
  induction l with
  | nil => simp [findSockState, writeSockState]
  | cons c l ih =>
    rw [writeSockState]
    by_cases hc : c.sockNo = socket
    · rw [if_pos hc, findSockState, findSockState, hf]
      by_cases hno : no = socket
      · rw [if_pos hno, if_pos (hc.trans hno.symm), if_pos (hc.trans hno.symm)]
        rfl
      · have hne : c.sockNo ≠ no := fun h => hno (h.symm.trans hc)
        rw [if_neg hno, if_neg hne, if_neg hne]
    · rw [if_neg hc, findSockState, findSockState, ih]
      by_cases hno : c.sockNo = no
      · rw [if_pos hno, if_pos hno, if_neg (fun h => hc (hno.trans h))]
      · rw [if_neg hno, if_neg hno]

end Sockets
end Subcontexts.Ipc
