import Subcontexts.Ipc.Model
import Subcontexts.Lib.Links

/-! The functions of the IPC service access by access, as several processes run them at once: they
take no lock. Undisturbed, they do what they do in one step. -/

namespace Subcontexts.Ipc

abbrev Addr := Nat

/-- `sc_ipc_sockState` in memory; `type` is `none` for the 0 that `memset` leaves. -/
structure Sock where
  nextSock : Option Addr
  sockNo : Int
  type : Option SockType
  addr : List UInt8
  deriving DecidableEq, Repr

/-- The static data of the service and its structs, of which those below `used` are allocated. -/
structure Memory where
  nextSockNo : Int
  activeSocketList : Option Addr
  sock : Addr → Sock
  used : Addr

def Memory.write (m : Memory) (a : Addr) (c : Sock) : Memory :=
  { m with sock := Function.update m.sock a c }

inductive Walk where
  | bind
  | listen
  deriving DecidableEq, Repr

/-- The next access of a process in `sc_ipc_socket`, up to `result`, or in `sc_ipc_bind` or
`sc_ipc_listen`. -/
inductive At where
  | malloc
  | readHead (sock : Addr)
  | writeHead (sock : Addr)
  | readNo (sock : Addr)
  | writeNo (sock : Addr) (no : Int)
  | readNext (sock : Addr)
  | writeNext (sock : Addr) (no : Int)
  | setNew (sock : Addr)
  | result (sock : Addr)
  | first (w : Walk)
  | sockNo (w : Walk) (cur : Option Addr)
  | next (w : Walk) (cur : Addr)
  | type (w : Walk) (sockState : Addr)
  | setBind (sockState : Addr)
  | copy (sockState : Addr)
  | setListen (sockState : Addr)
  deriving DecidableEq, Repr

/-- One access, and where the process is then or what its call returns. The copy of the name is one
step, since nothing reads `bind.addr`. -/
def At.step (allocated : Bool) (args : Args) (m : Memory) : At → Except Halt ((At ⊕ Int) × Memory)
  | .malloc =>
    if allocated then
      .ok (.inl (.readHead m.used), { m.write m.used ⟨none, 0, none, []⟩ with used := m.used + 1 })
    else .ok (.inr (-1), m)
  | .readHead sock =>
    .ok (.inl (.writeHead sock), m.write sock { m.sock sock with nextSock := m.activeSocketList })
  | .writeHead sock => .ok (.inl (.readNo sock), { m with activeSocketList := some sock })
  | .readNo sock => .ok (.inl (.writeNo sock m.nextSockNo), m)
  | .writeNo sock no => .ok (.inl (.readNext sock), m.write sock { m.sock sock with sockNo := no })
  | .readNext sock => .ok (.inl (.writeNext sock m.nextSockNo), m)
  | .writeNext sock no =>
    .ok (.inl (.setNew sock), { m with nextSockNo := (no + 1).bmod (2 ^ 32) })
  | .setNew sock => .ok (.inl (.result sock), m.write sock { m.sock sock with type := some .NEW })
  | .result sock => .ok (.inr (m.sock sock).sockNo, m)
  | .first w => .ok (.inl (.sockNo w m.activeSocketList), m)
  | .sockNo _ none => .ok (.inr (-1), m)
  | .sockNo w (some cur) =>
    .ok (.inl (if (m.sock cur).sockNo = args.socket then .type w cur else .next w cur), m)
  | .next w cur => .ok (.inl (.sockNo w (m.sock cur).nextSock), m)
  | .type .bind sockState =>
    if (m.sock sockState).type ≠ some .NEW then .ok (.inr (-1), m)
    else if args.addrlen ≠ sockaddrSize then .ok (.inr (-1), m)
    else match args.addr with
      | none => .error .fault
      | some addr =>
        if addr.nameLen = 108 then .ok (.inr (-1), m)
        else if bindAddrSize ≤ addr.nameLen then .ok (.inr (-1), m)
        else .ok (.inl (.setBind sockState), m)
  | .type .listen sockState =>
    if (m.sock sockState).type ≠ some .BIND then .ok (.inr (-1), m)
    else .ok (.inl (.setListen sockState), m)
  | .setBind sockState =>
    .ok (.inl (.copy sockState), m.write sockState { m.sock sockState with type := some .BIND })
  | .copy sockState =>
    match args.addr with
    | none => .error .fault
    | some addr => .ok (.inr 0, m.write sockState { m.sock sockState with addr := addr.name })
  | .setListen sockState =>
    .ok (.inr 0, m.write sockState { m.sock sockState with type := some .LISTEN })

def Func.enter (args : Args) : Func → Except Halt (At ⊕ Int)
  | .socket => .ok (.inl .malloc)
  | .bind => .ok (.inl (.first .bind))
  | .listen => .ok (.inl (.first .listen))
  | .accept => if args.addr.isSome ∨ args.addrlen ≠ 0 then .ok (.inr (-1)) else .error .todo
  | .connect | .send | .recv => .error .todo

def finish (allocated : Bool) (args : Args) : Nat → At ⊕ Int → Memory → Except Halt (Int × Memory)
  | _, .inr r, m => .ok (r, m)
  | 0, .inl _, _ => .error .fuel
  | fuel + 1, .inl place, m => do
    let (place, m) ← place.step allocated args m
    finish allocated args fuel place m

/-- A call that nobody disturbs. -/
def Func.alone (allocated : Bool) (args : Args) (fuel : Nat) (m : Memory) (f : Func) :
    Except Halt (Int × Memory) := do
  let place ← f.enter args
  finish allocated args fuel place m

def Memory.linked (m : Memory) : Linked Addr := ⟨m.activeSocketList, fun a => (m.sock a).nextSock⟩

def Memory.state (m : Memory) (a : Addr) : Option SockState :=
  (m.sock a).type.map fun type => ⟨(m.sock a).sockNo, type, (m.sock a).addr⟩

def Memory.Shows (m : Memory) (s : Service) : Prop :=
  m.nextSockNo = s.nextSockNo ∧ ∃ l, m.linked.Holds l ∧ (∀ a ∈ l, a < m.used) ∧
    l.map m.state = s.activeSocketList.map some

section Alone
variable {allocated : Bool} {args : Args} {m m' : Memory} {s s' : Service} {l : List Addr}
  {ks : List SockState} {cur : Option Addr} {w : Walk} {r : Int} {e : Halt}

theorem state_eq_some {a : Addr} {k : SockState} (h : m.state a = some k) :
    (m.sock a).sockNo = k.sockNo ∧ (m.sock a).type = some k.type ∧ (m.sock a).addr = k.addr := by
  obtain ⟨type, htype, rfl⟩ := Option.map_eq_some_iff.mp h
  exact ⟨rfl, htype, rfl⟩

theorem finish_step {place : At} {next : At ⊕ Int} (fuel : Nat)
    (h : place.step allocated args m = .ok (next, m')) :
    finish allocated args (fuel + 1) (.inl place) m = finish allocated args fuel next m' := by
  rw [finish, h, ok_bind]

theorem walk_finish (allocated : Bool) (args : Args) (w : Walk) (h : Seg m.linked.next cur l none)
    (hks : l.map m.state = ks.map some) :
    (findSockState ks args.socket = none → ∃ n, ∀ fuel,
      finish allocated args (n + fuel) (.inl (.sockNo w cur)) m = .ok (-1, m)) ∧
    ∀ k, findSockState ks args.socket = some k → ∃ a pre post ks₁ ks₂ n, l = pre ++ a :: post ∧
      m.state a = some k ∧ pre.map m.state = ks₁.map some ∧ post.map m.state = ks₂.map some ∧
      (∀ f, writeSockState f ks args.socket = ks₁ ++ f k :: ks₂) ∧ ∀ fuel,
        finish allocated args (n + fuel) (.inl (.sockNo w cur)) m =
          finish allocated args fuel (.inl (.type w a)) m := by
  induction l generalizing cur ks with
  | nil =>
    obtain rfl : cur = none := h
    obtain rfl : ks = [] := List.map_eq_nil_iff.mp hks.symm
    refine ⟨fun _ => ⟨1, fun fuel => ?_⟩, fun k hk => by cases hk⟩
    rw [Nat.add_comm, finish_step fuel rfl, finish]
  | cons a l ih =>
    obtain ⟨rfl, h⟩ := h
    obtain ⟨k, ks, rfl, hk, hks⟩ := List.map_eq_cons_iff.mp hks.symm
    have ha := (state_eq_some hk.symm).1
    by_cases hno : k.sockNo = args.socket
    · refine ⟨fun hnone => ?_, fun k' hk' => ?_⟩
      · rw [findSockState, if_pos hno] at hnone
        cases hnone
      · rw [findSockState, if_pos hno] at hk'
        obtain rfl := Option.some.inj hk'
        refine ⟨a, [], l, [], ks, 1, rfl, hk.symm, rfl, hks.symm, fun f => ?_, fun fuel => ?_⟩
        · rw [writeSockState, if_pos hno]
          rfl
        · rw [Nat.add_comm, finish_step fuel rfl, if_pos (ha.trans hno)]
    · have hskip : ∀ fuel, finish allocated args (fuel + 2) (.inl (.sockNo w (some a))) m =
          finish allocated args fuel (.inl (.sockNo w (m.linked.next a))) m := by
        intro fuel
        rw [finish_step (fuel + 1) rfl, if_neg fun h => hno (ha.symm.trans h), finish_step fuel rfl]
        rfl
      obtain ⟨hend, hfound⟩ := ih h hks.symm
      refine ⟨fun hnone => ?_, fun k' hk' => ?_⟩
      · rw [findSockState, if_neg hno] at hnone
        obtain ⟨n, hn⟩ := hend hnone
        exact ⟨n + 2, fun fuel => by rw [Nat.add_right_comm, hskip, hn]⟩
      · rw [findSockState, if_neg hno] at hk'
        obtain ⟨b, pre, post, ks₁, ks₂, n, rfl, hb, hpre, hpost, hwrite, hn⟩ := hfound k' hk'
        refine ⟨b, a :: pre, post, k :: ks₁, ks₂, n + 2, rfl, hb, ?_, hpost, fun f => ?_,
          fun fuel => ?_⟩
        · rw [List.map_cons, List.map_cons, hk, hpre]
        · rw [writeSockState, if_neg hno, hwrite]
          rfl
        · rw [Nat.add_right_comm, hskip, hn]

theorem shows_write {a : Addr} {pre post : List Addr} {ks₁ ks₂ : List SockState} {c : Sock}
    {k : SockState} (h : m.linked.Holds (pre ++ a :: post))
    (hused : ∀ b ∈ pre ++ a :: post, b < m.used) (hpre : pre.map m.state = ks₁.map some)
    (hpost : post.map m.state = ks₂.map some) (hc : (m.write a c).state a = some k)
    (hnext : c.nextSock = (m.sock a).nextSock) (hno : m.nextSockNo = s.nextSockNo) :
    (m.write a c).Shows ⟨s.nextSockNo, ks₁ ++ k :: ks₂⟩ := by
  have hnd := h.nodup
  rw [List.nodup_append, List.nodup_cons] at hnd
  obtain ⟨-, ⟨hnot, -⟩, hapart⟩ := hnd
  have hsame : ∀ b, b ≠ a → (m.write a c).sock b = m.sock b := fun b hb =>
    Function.update_of_ne hb _ _
  have hstate : ∀ bs : List Addr, a ∉ bs → bs.map (m.write a c).state = bs.map m.state := by
    intro bs hbs
    refine List.map_congr_left fun b hb => ?_
    unfold Memory.state
    rw [hsame b (fun heq => hbs (heq ▸ hb))]
  refine ⟨hno, pre ++ a :: post, h.congr rfl fun b _ => ?_, hused, ?_⟩
  · show ((m.write a c).sock b).nextSock = (m.sock b).nextSock
    by_cases hb : b = a
    · rw [hb, ← hnext]
      exact congrArg Sock.nextSock (Function.update_self ..)
    · rw [hsame b hb]
  · rw [List.map_append, List.map_append, List.map_cons, List.map_cons, hc,
      hstate pre (fun hmem => hapart a hmem a (List.mem_cons_self ..) rfl), hstate post hnot, hpre,
      hpost]

def Agrees (allocated : Bool) (args : Args) (m : Memory) (f : Func) (result : Result) : Prop :=
  (∀ r s', result = .ok (r, s') →
    ∃ fuel m', f.alone allocated args fuel m = .ok (r, m') ∧ m'.Shows s') ∧
  ∀ e, result = .error e → ∃ fuel, f.alone allocated args fuel m = .error e

theorem Agrees.ok {f : Func} (fuel : Nat) (h : f.alone allocated args fuel m = .ok (r, m'))
    (S : m'.Shows s) : Agrees allocated args m f (.ok (r, s)) := by
  constructor
  · intro r' s' heq
    obtain ⟨rfl, rfl⟩ := Prod.mk.inj (Except.ok.inj heq)
    exact ⟨fuel, m', h, S⟩
  · intro e heq
    cases heq

theorem Agrees.error {f : Func} (fuel : Nat) (h : f.alone allocated args fuel m = .error e) :
    Agrees allocated args m f (.error e) := by
  constructor
  · intro r s' heq
    cases heq
  · intro e' heq
    obtain rfl := Except.error.inj heq
    exact ⟨fuel, h⟩

theorem alone_socket (S : m.Shows s) :
    Agrees allocated args m .socket (scIpcSocket allocated s) := by
  cases allocated with
  | false => exact .ok 1 rfl S
  | true =>
    obtain ⟨hno, l, hl, hused, hstates⟩ := S
    have hfresh : ∀ b ∈ l, b ≠ m.used := fun b hb => Nat.ne_of_lt (hused b hb)
    have hrun : Func.socket.alone true args 9 m = .ok (m.nextSockNo,
        { m.write m.used ⟨m.activeSocketList, m.nextSockNo, some .NEW, []⟩ with
          nextSockNo := (m.nextSockNo + 1).bmod (2 ^ 32)
          activeSocketList := some m.used
          used := m.used + 1 }) := by
      simp [Func.alone, Func.enter, finish, At.step, Memory.write]
    have hmade : scIpcSocket true s = .ok (s.nextSockNo, {
        nextSockNo := (s.nextSockNo + 1).bmod (2 ^ 32)
        activeSocketList := ⟨s.nextSockNo, .NEW, []⟩ :: s.activeSocketList }) := rfl
    rw [hmade, ← hno]
    refine .ok 9 hrun ⟨rfl, m.used :: l, ⟨rfl, ?_⟩, ?_, ?_⟩
    · simp only [Memory.linked, Memory.write, Function.update_self]
      exact Seg.congr hl fun b hb => by simp [Memory.linked, hfresh b hb]
    · intro b hb
      rcases List.mem_cons.mp hb with rfl | hb
      · exact Nat.lt_succ_self _
      · exact Nat.lt_succ_of_lt (hused b hb)
    · rw [List.map_cons, List.map_cons, ← hstates]
      congr 1
      · simp [Memory.state, Memory.write]
      · exact List.map_congr_left fun b hb => by simp [Memory.state, Memory.write, hfresh b hb]

theorem alone_walk (allocated : Bool) {f : Func} (S : m.Shows s) (hf : f.enter args = .ok (.inl (.first w))) :
    (findSockState s.activeSocketList args.socket = none →
      ∃ fuel, f.alone allocated args fuel m = .ok (-1, m)) ∧
    ∀ k, findSockState s.activeSocketList args.socket = some k → ∃ a n, m.state a = some k ∧
      (∀ fuel, f.alone allocated args (n + fuel) m =
        finish allocated args fuel (.inl (.type w a)) m) ∧
      ∀ g c, (m.write a c).state a = some (g k) → c.nextSock = (m.sock a).nextSock →
        (m.write a c).Shows (s.write g args.socket) := by
  obtain ⟨hno, l, hl, hused, hstates⟩ := S
  obtain ⟨hend, hfound⟩ := walk_finish allocated args w hl hstates
  have hstart : ∀ fuel, f.alone allocated args (1 + fuel) m =
      finish allocated args fuel (.inl (.sockNo w m.activeSocketList)) m := by
    intro fuel
    rw [Func.alone, hf, ok_bind, Nat.add_comm, finish_step fuel rfl]
  refine ⟨fun hnone => ?_, fun k hk => ?_⟩
  · obtain ⟨n, hn⟩ := hend hnone
    exact ⟨1 + (n + 0), (hstart _).trans (hn 0)⟩
  · obtain ⟨a, pre, post, ks₁, ks₂, n, rfl, hstate, hpre, hpost, hwrite, hn⟩ := hfound k hk
    refine ⟨a, 1 + n, hstate, fun fuel => ?_, fun g c hc hnext => ?_⟩
    · rw [Nat.add_assoc, hstart]
      exact hn fuel
    · rw [Service.write, hwrite]
      exact shows_write hl hused hpre hpost hc hnext hno

theorem alone_bind (S : m.Shows s) : Agrees allocated args m .bind (scIpcBind args s) := by
  obtain ⟨hend, hfound⟩ := alone_walk allocated (f := .bind) S rfl
  unfold scIpcBind
  cases hk : findSockState s.activeSocketList args.socket with
  | none =>
    obtain ⟨fuel, hfuel⟩ := hend hk
    exact .ok _ hfuel S
  | some k =>
    obtain ⟨a, n, hstate, hrun, hwrite⟩ := hfound k hk
    obtain ⟨hno, htype, -⟩ := state_eq_some hstate
    have hnew : (m.sock a).type ≠ some .NEW ↔ k.type ≠ .NEW := by simp [htype]
    -- the test of `type`, and where it leads
    have hstep : ∀ {next : At ⊕ Int} fuel, At.step allocated args m (.type .bind a) = .ok (next, m) →
        Func.bind.alone allocated args (n + (fuel + 1)) m = finish allocated args fuel next m :=
      fun fuel h => (hrun _).trans (finish_step fuel h)
    simp only [At.step, hnew] at hstep
    dsimp only
    by_cases hbound : k.type ≠ .NEW
    · rw [if_pos hbound]
      simp only [if_pos hbound] at hstep
      exact .ok _ (hstep 0 rfl) S
    by_cases hlen : args.addrlen ≠ sockaddrSize
    · rw [if_neg hbound, if_pos hlen]
      simp only [if_neg hbound, if_pos hlen] at hstep
      exact .ok _ (hstep 0 rfl) S
    rw [if_neg hbound, if_neg hlen]
    simp only [if_neg hbound, if_neg hlen] at hstep
    cases haddr : args.addr with
    | none =>
      refine .error (n + 1) ((hrun 1).trans ?_)
      simp only [finish, At.step, hnew, if_neg hbound, if_neg hlen, haddr, error_bind]
    | some addr =>
      simp only [haddr] at hstep
      dsimp only
      by_cases hover : addr.nameLen = 108
      · rw [if_pos hover]
        simp only [if_pos hover] at hstep
        exact .ok _ (hstep 0 rfl) S
      by_cases hbig : bindAddrSize ≤ addr.nameLen
      · rw [if_neg hover, if_pos hbig]
        simp only [if_neg hover, if_pos hbig] at hstep
        exact .ok _ (hstep 0 rfl) S
      rw [if_neg hover, if_neg hbig]
      simp only [if_neg hover, if_neg hbig] at hstep
      refine .ok (n + 3) ?_ (hwrite _ { m.sock a with type := some .BIND, addr := addr.name }
        ?_ rfl)
      · rw [hstep 2 rfl]
        simp [finish, At.step, haddr, Memory.write]
      · simp [Memory.state, Memory.write, SockState.bind, hno]

theorem alone_listen (S : m.Shows s) : Agrees allocated args m .listen (scIpcListen args s) := by
  obtain ⟨hend, hfound⟩ := alone_walk allocated (f := .listen) S rfl
  unfold scIpcListen
  cases hk : findSockState s.activeSocketList args.socket with
  | none =>
    obtain ⟨fuel, hfuel⟩ := hend hk
    exact .ok _ hfuel S
  | some k =>
    obtain ⟨a, n, hstate, hrun, hwrite⟩ := hfound k hk
    obtain ⟨hno, htype, haddr⟩ := state_eq_some hstate
    have hbind : (m.sock a).type ≠ some .BIND ↔ k.type ≠ .BIND := by simp [htype]
    dsimp only
    by_cases hbound : k.type ≠ .BIND
    · rw [if_pos hbound]
      refine .ok (n + 1) ((hrun 1).trans ?_) S
      simp [finish, At.step, hbind, hbound]
    · rw [if_neg hbound]
      refine .ok (n + 2) ((hrun 2).trans ?_)
        (hwrite _ { m.sock a with type := some .LISTEN } ?_ rfl)
      · simp [finish, At.step, hbind, hbound]
      · simp [Memory.state, Memory.write, SockState.listen, hno, haddr]

/-- A call that nobody disturbs does what the function does in one step. -/
theorem alone_agrees (S : m.Shows s) (f : Func) :
    Agrees allocated args m f (f.run allocated args s) := by
  cases f with
  | socket => exact alone_socket S
  | bind => exact alone_bind S
  | listen => exact alone_listen S
  | accept =>
    unfold Func.run scIpcAccept
    by_cases hargs : args.addr.isSome ∨ args.addrlen ≠ 0
    · rw [if_pos hargs]
      refine .ok 0 ?_ S
      rw [Func.alone, Func.enter, if_pos hargs, ok_bind, finish]
    · rw [if_neg hargs]
      refine .error 0 ?_
      rw [Func.alone, Func.enter, if_neg hargs, error_bind]
  | connect => exact .error 0 rfl
  | send => exact .error 0 rfl
  | recv => exact .error 0 rfl

end Alone
end Subcontexts.Ipc
