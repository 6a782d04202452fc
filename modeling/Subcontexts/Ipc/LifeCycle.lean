import Subcontexts.Ipc.Model

/-! The life cycle of the IPC sockets as clients see it. What a client finds under a name is the
function posted there, and `subcontext_main` posts `sc_ipc_listen` under three names. -/

namespace Subcontexts.Ipc

def Service.numbers (s : Service) : List Int := s.activeSocketList.map SockState.sockNo

def Service.find (s : Service) (socket : Int) : Option SockState :=
  findSockState s.activeSocketList socket

/-- How a call that returns `r` may move the type of socket `no`. -/
def Moves (e : Entry) (args : Args) (r no : Int) (a b : SockType) : Prop :=
  a = b ∨ (args.socket = no ∧ r = 0 ∧
    (e = .bind ∧ a = .NEW ∧ b = .BIND ∨ e = .listen ∧ a = .BIND ∧ b = .LISTEN))

/-- What a client expects of a call under the name of `e` that returns `r`. -/
structure Obeys (s t : Service) (e : Entry) (args : Args) (r : Int) : Prop where
  fresh : e = .socket → r ≠ -1 → s.find r = none ∧ ∃ c, t.find r = some c ∧ c.type = .NEW
  created : ∀ no c, t.find no = some c → s.find no = none → e = .socket ∧ no = r ∧ r ≠ -1
  moves : ∀ no c, s.find no = some c → ∃ d, t.find no = some d ∧ Moves e args r no c.type d.type
  failed : r = -1 → t = s
  neverListens : e = .accept ∨ e = .connect → ∀ no d, t.find no = some d → d.type = .LISTEN →
    ∃ c, s.find no = some c ∧ c.type = .LISTEN

/-- The condition on a step: the socket counter does not overflow, and no call under the accept or
the connect name is about a socket in state `BIND`. -/
def Spares (s : State) : Action → Prop
  | .call .socket _ _ _ => s.service.nextSockNo < 2 ^ 31 - 1
  | .call .accept _ _ args => ∀ c, s.service.find args.socket = some c → c.type ≠ .BIND
  | .call .connect _ _ args => ∀ c, s.service.find args.socket = some c → c.type ≠ .BIND
  | _ => True

section Functions
variable {s t : Service} {e : Entry} {args : Args} {r : Int} {allocated : Bool}

theorem Obeys.unchanged (s : Service) (e : Entry) (args : Args) : Obeys s s e args (-1) where
  fresh _ h := absurd rfl h
  created no c hc hnone := by
    rw [hnone] at hc
    cases hc
  moves no c hc := ⟨c, hc, .inl rfl⟩
  failed _ := rfl
  neverListens _ no d hd ht := ⟨d, hd, ht⟩

theorem find_write {f : SockState → SockState} (hf : ∀ c, (f c).sockNo = c.sockNo)
    (socket no : Int) : (s.write f socket).find no =
      if no = socket then (s.find no).map f else s.find no :=
  findSockState_writeSockState hf

theorem Obeys.write {f : SockState → SockState} {c : SockState}
    (hf : ∀ c, (f c).sockNo = c.sockNo) (hc : s.find args.socket = some c)
    (he : e = .bind ∧ c.type = .NEW ∧ (f c).type = .BIND ∨
      e = .listen ∧ c.type = .BIND ∧ (f c).type = .LISTEN) :
    Obeys s (s.write f args.socket) e args 0 where
  fresh h := by
    rcases he with ⟨rfl, -⟩ | ⟨rfl, -⟩ <;> cases h
  created no d hd hnone := by
    rw [find_write hf, hnone] at hd
    split at hd <;> cases hd
  moves no d hd := by
    rw [find_write hf]
    by_cases hno : no = args.socket
    · subst no
      obtain rfl := Option.some.inj (hc.symm.trans hd)
      rw [if_pos rfl, hc]
      exact ⟨f c, rfl, .inr ⟨rfl, rfl, he⟩⟩
    · rw [if_neg hno]
      exact ⟨d, hd, .inl rfl⟩
  failed h := by cases h
  neverListens h := by
    rcases he with ⟨rfl, -⟩ | ⟨rfl, -⟩ <;> rcases h with h | h <;> cases h

theorem eq_of_failed (h : (Except.ok (-1, s) : Result) = .ok (r, t)) : r = -1 ∧ t = s := by
  obtain ⟨rfl, rfl⟩ := Prod.mk.inj (Except.ok.inj h)
  exact ⟨rfl, rfl⟩

theorem scIpcBind_cases (h : scIpcBind args s = .ok (r, t)) :
    r = -1 ∧ t = s ∨ r = 0 ∧ ∃ c addr, s.find args.socket = some c ∧ c.type = .NEW ∧
      t = s.write (.bind addr) args.socket := by
  unfold scIpcBind at h
  split at h
  · exact .inl (eq_of_failed h)
  · rename_i c hc
    by_cases htype : c.type ≠ .NEW
    · rw [if_pos htype] at h
      exact .inl (eq_of_failed h)
    rw [if_neg htype] at h
    by_cases hlen : args.addrlen ≠ sockaddrSize
    · rw [if_pos hlen] at h
      exact .inl (eq_of_failed h)
    rw [if_neg hlen] at h
    cases haddr : args.addr with
    | none =>
      rw [haddr] at h
      cases h
    | some addr =>
      simp only [haddr] at h
      by_cases hover : addr.nameLen = 108
      · rw [if_pos hover] at h
        exact .inl (eq_of_failed h)
      rw [if_neg hover] at h
      by_cases hbig : bindAddrSize ≤ addr.nameLen
      · rw [if_pos hbig] at h
        exact .inl (eq_of_failed h)
      rw [if_neg hbig] at h
      obtain ⟨rfl, rfl⟩ := Prod.mk.inj (Except.ok.inj h)
      exact .inr ⟨rfl, c, addr.name, hc, not_not.mp htype, rfl⟩

theorem scIpcListen_cases (h : scIpcListen args s = .ok (r, t)) :
    r = -1 ∧ t = s ∧ (∀ c, s.find args.socket = some c → c.type ≠ .BIND) ∨
      r = 0 ∧ ∃ c, s.find args.socket = some c ∧ c.type = .BIND ∧
        t = s.write .listen args.socket := by
  unfold scIpcListen at h
  split at h
  · rename_i hnone
    obtain ⟨hr, ht⟩ := eq_of_failed h
    refine .inl ⟨hr, ht, fun c hc => ?_⟩
    unfold Service.find at hc
    rw [hnone] at hc
    cases hc
  · rename_i c hc
    by_cases htype : c.type ≠ .BIND
    · rw [if_pos htype] at h
      obtain ⟨hr, ht⟩ := eq_of_failed h
      refine .inl ⟨hr, ht, fun d hd => ?_⟩
      obtain rfl := Option.some.inj (hc.symm.trans hd)
      exact htype
    · rw [if_neg htype] at h
      obtain ⟨rfl, rfl⟩ := Prod.mk.inj (Except.ok.inj h)
      exact .inr ⟨rfl, c, hc, not_not.mp htype, rfl⟩

structure Numbered (s : Service) : Prop where
  nodup : s.numbers.Nodup
  below : ∀ no ∈ s.numbers, 0 < no ∧ no < s.nextSockNo
  next : 0 < s.nextSockNo

theorem Numbered.write (N : Numbered s) {f : SockState → SockState}
    (hf : ∀ c, (f c).sockNo = c.sockNo) (socket : Int) :
    Numbered (s.write f socket) := by
  have hnum : (s.write f socket).numbers = s.numbers := map_sockNo_writeSockState hf
  exact ⟨hnum ▸ N.nodup, hnum ▸ N.below, N.next⟩

theorem Numbered.find_next (N : Numbered s) : s.find s.nextSockNo = none := by
  refine findSockState_eq_none_iff.mpr fun hmem => ?_
  exact Int.lt_irrefl _ (N.below _ hmem).2

theorem Numbered.socket (N : Numbered s) (hlt : s.nextSockNo < 2 ^ 31 - 1)
    (h : scIpcSocket allocated s = .ok (r, t)) :
    Numbered t ∧ Obeys s t .socket args r := by
  unfold scIpcSocket at h
  cases allocated with
  | false =>
    obtain ⟨rfl, rfl⟩ := Prod.mk.inj (Except.ok.inj h)
    exact ⟨N, .unchanged s _ args⟩
  | true =>
    obtain ⟨rfl, rfl⟩ := Prod.mk.inj (Except.ok.inj h)
    have hpos := N.next
    have hnext : (s.nextSockNo + 1).bmod (2 ^ 32) = s.nextSockNo + 1 :=
      Int.bmod_eq_of_le (by omega) (by omega)
    have hnone := N.find_next
    rw [hnext]
    refine ⟨⟨?_, fun no hno => ?_, ?_⟩, ?_⟩
    · exact List.nodup_cons.mpr ⟨findSockState_eq_none_iff.mp hnone, N.nodup⟩
    · change 0 < no ∧ no < s.nextSockNo + 1
      rcases List.mem_cons.mp hno with rfl | hno
      · exact ⟨hpos, Int.lt_add_one_of_le (Int.le_refl _)⟩
      · obtain ⟨h0, hbelow⟩ := N.below no hno
        exact ⟨h0, by omega⟩
    · change 0 < s.nextSockNo + 1
      omega
    · have hold : ∀ no, no ≠ s.nextSockNo → Service.find { s with
          nextSockNo := s.nextSockNo + 1
          activeSocketList := ⟨s.nextSockNo, .NEW, []⟩ :: s.activeSocketList } no = s.find no := by
        intro no hne
        exact if_neg (Ne.symm hne)
      refine ⟨fun _ _ => ⟨hnone, ⟨s.nextSockNo, .NEW, []⟩, if_pos rfl, rfl⟩, fun no c hc hno => ?_,
        fun no c hc => ⟨c, ?_, .inl rfl⟩, fun hr => ?_, fun he => ?_⟩
      · by_cases hne : no = s.nextSockNo
        · exact ⟨rfl, hne, by omega⟩
        · rw [hold no hne, hno] at hc
          cases hc
      · rw [hold no, hc]
        rintro rfl
        rw [hnone] at hc
        cases hc
      · omega
      · rcases he with he | he <;> cases he

end Functions

section Lookup
variable {img : Image} {s t : State}

theorem mem_postings (e : Entry) : e ∈ postings := by
  cases e <;> decide

theorem mem_functions (f : Func) : f ∈ functions := by
  cases f <;> decide

def Posted (img : Image) (name : String) (sym : Nat) : Prop :=
  ∀ e f, name = Entry.name e → sym = img.address f → f = e.posted

structure Inv (img : Image) (s : State) : Prop where
  posted : Registry.Only (Posted img) s.registry
  numbered : Numbered s.service

theorem Inv.init (h : s.init) : Inv img s := by
  obtain ⟨hregistry, -, hservice⟩ := h
  refine ⟨.init hregistry, ?_⟩
  rw [hservice]
  exact ⟨List.nodup_nil, fun no hno => absurd hno List.not_mem_nil, Int.one_pos⟩

theorem Inv.eq_posted (I : Inv img s) {e : Entry} {f : Func}
    (hfound : .find e.name (img.address f) ∈ s.registry.returns) : f = e.posted :=
  I.posted.found _ _ hfound (img.ne_zero f) e f rfl rfl

theorem Posted.main (img : Image) (e : Entry) : Posted img e.name (img.address e.posted) := by
  intro e' f hname hsym
  obtain rfl := Entry.name_injective hname
  exact (img.injective hsym).symm

theorem Posted.foreign {p : Registry.Pid} {name : String} {sym : Nat}
    (h : Foreign img (.registryPost p name sym)) : Posted img name sym := by
  rintro e f rfl rfl
  exact absurd ⟨List.mem_map_of_mem (mem_postings e), List.mem_map_of_mem (mem_functions f)⟩ h.2

theorem Inv.post (I : Inv img s) {a : Registry.Action String} {left : List Entry}
    (hposted : ∀ p name sym, a = .registryPost p name sym → Posted img name sym)
    (h : s.post a left = some t) : Inv img t := by
  obtain ⟨registry, hstep, rfl⟩ := Option.map_eq_some_iff.mp h
  exact ⟨I.posted.step hposted hstep, I.numbered⟩

theorem Inv.main (I : Inv img s) (h : subcontextMain img s = some t) : Inv img t := by
  unfold subcontextMain at h
  split at h
  · rename_i e left hpc hleft
    refine I.post (fun p name sym ha => ?_) h
    obtain ⟨-, rfl, rfl⟩ := Registry.Action.registryPost.inj ha
    exact .main img e
  · cases h
  · exact I.post (fun p name sym ha => by cases ha) h
  · exact I.post (fun p name sym ha => by cases ha) h
  · exact I.post (fun p name sym ha => by cases ha) h
  · cases h

theorem call_cases {e : Entry} {f : Func} {allocated : Bool} {args : Args} {r : Int}
    (h : s.call img e f allocated args = some (r, t)) :
    .find e.name (img.address f) ∈ s.registry.returns ∧ ∃ service,
      f.run allocated args s.service = .ok (r, service) ∧ t = { s with service := service } := by
  unfold State.call at h
  split at h
  · rename_i hfound
    split at h
    · rename_i r' service hrun
      obtain ⟨rfl, rfl⟩ := Prod.mk.inj (Option.some.inj h)
      exact ⟨hfound, service, hrun, rfl⟩
    · cases h
  · cases h

theorem call_eq_some {e : Entry} {f : Func} {allocated : Bool} {args : Args} {r : Int}
    {service : Service} (hfound : .find e.name (img.address f) ∈ s.registry.returns)
    (hrun : f.run allocated args s.service = .ok (r, service)) :
    s.call img e f allocated args = some (r, { s with service := service }) := by
  unfold State.call
  rw [if_pos hfound, hrun]

theorem step_call {e : Entry} {f : Func} {allocated : Bool} {args : Args} {r : Int}
    {service : Service} (hfound : .find e.name (img.address f) ∈ s.registry.returns)
    (hrun : f.run allocated args s.service = .ok (r, service)) :
    step img s (.call e f allocated args) = some { s with service := service } :=
  congrArg (Option.map Prod.snd) (call_eq_some hfound hrun)

/-- One call: the sockets keep their numbers apart, and the client's expectations are met exactly
if the condition is. -/
theorem Inv.call (I : Inv img s) {e : Entry} {f : Func} {allocated : Bool} {args : Args} {r : Int}
    (h : s.call img e f allocated args = some (r, t)) :
    (Spares s (.call e f allocated args) → Obeys s.service t.service e args r) ∧
      (e ≠ .socket → Obeys s.service t.service e args r → Spares s (.call e f allocated args)) ∧
      (Spares s (.call e f allocated args) → Numbered t.service) := by
  obtain ⟨hfound, service, hrun, rfl⟩ := call_cases h
  obtain rfl := I.eq_posted hfound
  -- under the accept and the connect name a client finds `sc_ipc_listen`
  have hlisten : ∀ e', e' = .accept ∨ e' = .connect → scIpcListen args s.service = .ok (r, service) →
      ((∀ c, s.service.find args.socket = some c → c.type ≠ .BIND) →
        Obeys s.service service e' args r) ∧
      (Obeys s.service service e' args r →
        ∀ c, s.service.find args.socket = some c → c.type ≠ .BIND) ∧ Numbered service := by
    intro e' he' hrun
    rcases scIpcListen_cases hrun with ⟨rfl, rfl, hnot⟩ | ⟨rfl, c, hc, htype, rfl⟩
    · exact ⟨fun _ => .unchanged _ _ _, fun _ => hnot, I.numbered⟩
    · refine ⟨fun hnot => absurd htype (hnot c hc), fun O d hd htype' => ?_,
        I.numbered.write (f := .listen) (fun _ => rfl) _⟩
      obtain rfl := Option.some.inj (hc.symm.trans hd)
      have hlistening : (s.service.write .listen args.socket).find args.socket = some c.listen := by
        rw [find_write (f := .listen) fun _ => rfl, if_pos rfl, hc]
        rfl
      obtain ⟨d, hd', htype''⟩ := O.neverListens he' args.socket c.listen hlistening rfl
      obtain rfl := Option.some.inj (hc.symm.trans hd')
      rw [htype] at htype''
      cases htype''
  cases e with
  | socket =>
    refine ⟨fun hlt => ?_, fun hne => absurd rfl hne, fun hlt => ?_⟩
    · exact (I.numbered.socket hlt hrun).2
    · exact (@Numbered.socket _ _ args _ _ I.numbered hlt hrun).1
  | bind =>
    rcases scIpcBind_cases hrun with ⟨rfl, rfl⟩ | ⟨rfl, c, addr, hc, htype, rfl⟩
    · exact ⟨fun _ => .unchanged _ _ _, fun _ _ => trivial, fun _ => I.numbered⟩
    · exact ⟨fun _ => .write (f := .bind addr) (fun _ => rfl) hc (.inl ⟨rfl, htype, rfl⟩),
        fun _ _ => trivial, fun _ => I.numbered.write (f := .bind addr) (fun _ => rfl) _⟩
  | listen =>
    rcases scIpcListen_cases hrun with ⟨rfl, rfl, -⟩ | ⟨rfl, c, hc, htype, rfl⟩
    · exact ⟨fun _ => .unchanged _ _ _, fun _ _ => trivial, fun _ => I.numbered⟩
    · exact ⟨fun _ => .write (f := .listen) (fun _ => rfl) hc (.inr ⟨rfl, htype, rfl⟩),
        fun _ _ => trivial, fun _ => I.numbered.write (f := .listen) (fun _ => rfl) _⟩
  | accept =>
    obtain ⟨hobeys, hspares, hnum⟩ := hlisten .accept (.inl rfl) hrun
    exact ⟨hobeys, fun _ => hspares, fun _ => hnum⟩
  | connect =>
    obtain ⟨hobeys, hspares, hnum⟩ := hlisten .connect (.inr rfl) hrun
    exact ⟨hobeys, fun _ => hspares, fun _ => hnum⟩
  | send => cases hrun
  | recv => cases hrun

theorem Inv.step (I : Inv img s) {a : Action} (hok : Spares s a) (h : Ipc.step img s a = some t) :
    Inv img t := by
  cases a with
  | main => exact I.main h
  | registry a =>
    simp only [Ipc.step] at h
    split at h
    · rename_i hforeign
      refine I.post (fun p name sym ha => ?_) h
      subst ha
      exact .foreign hforeign
    · cases h
  | call e f allocated args =>
    obtain ⟨⟨r, t'⟩, hcall, rfl⟩ := Option.map_eq_some_iff.mp h
    have hnum := (I.call hcall).2.2 hok
    obtain ⟨-, service, -, rfl⟩ := call_cases hcall
    exact ⟨I.posted, hnum⟩

end Lookup

def Spared (img : Image) : State → Prop :=
  Trans.Reach State.init (Trans.Guarded Spares (Trans.ofFun (step img)))

/-- In such runs no two sockets share a number, and every call does what a client expects; a call
under another name than the socket name does so only if it meets the condition. -/
theorem ipc_life_cycle {img : Image} {s : State} (h : Spared img s) :
    s.service.numbers.Nodup ∧ ∀ e f allocated args r t,
      s.call img e f allocated args = some (r, t) →
        (Spares s (.call e f allocated args) → Obeys s.service t.service e args r) ∧
        (e ≠ .socket → Obeys s.service t.service e args r →
          Spares s (.call e f allocated args)) := by
  have I : Inv img s :=
    Trans.Reach.inv (I := Inv img) (fun _ => .init) (fun _ _ _ I hst => I.step hst.1 hst.2) h
  refine ⟨I.numbered.nodup, fun e f allocated args r t hcall => ?_⟩
  obtain ⟨hobeys, hspares, -⟩ := I.call hcall
  exact ⟨hobeys, hspares⟩

def loaded : Image where
  server := 1
  address
    | .socket => 0x1000
    | .bind => 0x1010
    | .listen => 0x1020
    | .accept => 0x1030
    | .connect => 0x1040
    | .send => 0x1050
    | .recv => 0x1060
  ne_zero f := by cases f <;> decide
  injective f g h := by cases f <;> cases g <;> first | rfl | cases h

def unused : State := ⟨⟨[], fun _ => .idle, []⟩, postings, ⟨1, []⟩⟩

def someAddr : SockaddrUn := ⟨47 :: 115 :: List.replicate 106 0, rfl⟩

def startUp : List Action :=
  List.replicate 28 .main ++
    postings.flatMap fun e => [.registry (.registryFind 2 e.name), .registry (.find 2)]

theorem startUp_found : ∃ s, Spared loaded s ∧ s.service = ⟨1, []⟩ ∧
    ∀ e : Entry, .find e.name (loaded.address e.posted) ∈ s.registry.returns := by
  obtain ⟨s, hs, hservice, hreturns⟩ :
      ∃ s, Trans.exec (step loaded) startUp unused = some s ∧ s.service = ⟨1, []⟩ ∧
        s.registry.returns =
          (postings.map fun e => Registry.Return.find e.name (loaded.address e.posted)).reverse ++
          (postings.map fun e => Registry.Return.post e.name (loaded.address e.posted) 0).reverse :=
    ⟨_, rfl, rfl, rfl⟩
  have h0 : Spared loaded unused := .init ⟨⟨rfl, fun _ => rfl, rfl⟩, rfl, rfl⟩
  refine ⟨s, h0.of_exec_guarded (fun a ha u => ?_) hs, hservice, fun e => ?_⟩
  · rcases List.mem_append.mp ha with ha | ha
    · obtain rfl := List.eq_of_mem_replicate ha
      trivial
    · obtain ⟨e, -, ha⟩ := List.mem_flatMap.mp ha
      rcases List.mem_cons.mp ha with rfl | ha
      · trivial
      · obtain rfl := List.mem_singleton.mp ha
        trivial
  · rw [hreturns]
    exact List.mem_append_left _ (List.mem_reverse.mpr (List.mem_map_of_mem (mem_postings e)))

theorem bound_found : ∃ s, Spared loaded s ∧ s.service = ⟨2, [⟨1, .BIND, [47, 115]⟩]⟩ ∧
    ∀ e : Entry, .find e.name (loaded.address e.posted) ∈ s.registry.returns := by
  obtain ⟨s, h0, hservice, hfound⟩ := startUp_found
  have hlt : s.service.nextSockNo < 2 ^ 31 - 1 := by
    rw [hservice]
    decide
  have hsocket : step loaded s (.call .socket .socket true ⟨1, none, 0⟩) =
      some { s with service := ⟨2, [⟨1, .NEW, []⟩]⟩ } :=
    step_call (hfound .socket) (r := 1) (by rw [hservice]; rfl)
  have h1 : Spared loaded { s with service := ⟨2, [⟨1, .NEW, []⟩]⟩ } :=
    h0.step (l := Action.call .socket .socket true ⟨1, none, 0⟩) ⟨hlt, hsocket⟩
  have hbind : step loaded { s with service := ⟨2, [⟨1, .NEW, []⟩]⟩ }
      (.call .bind .bind true ⟨1, some someAddr, 110⟩) =
        some { s with service := ⟨2, [⟨1, .BIND, [47, 115]⟩]⟩ } :=
    step_call (hfound .bind) (r := 0) rfl
  have h2 : Spared loaded { s with service := ⟨2, [⟨1, .BIND, [47, 115]⟩]⟩ } :=
    h1.step (l := Action.call .bind .bind true ⟨1, some someAddr, 110⟩) ⟨trivial, hbind⟩
  exact ⟨_, h2, rfl, hfound⟩

/-- A server creates a socket, binds it and listens. -/
theorem ipc_life_cycle_server : ∃ s t, Spared loaded s ∧
    s.call loaded .listen .listen true ⟨1, none, 5⟩ = some (0, t) ∧
    Obeys s.service t.service .listen ⟨1, none, 5⟩ 0 ∧
    t.service.find 1 = some ⟨1, .LISTEN, [47, 115]⟩ := by
  obtain ⟨s, h, hservice, hfound⟩ := bound_found
  have hcall : s.call loaded .listen .listen true ⟨1, none, 5⟩ =
      some (0, { s with service := ⟨2, [⟨1, .LISTEN, [47, 115]⟩]⟩ }) :=
    call_eq_some (hfound .listen) (by rw [hservice]; rfl)
  exact ⟨s, _, h, hcall, ((ipc_life_cycle h).2 _ _ _ _ _ _ hcall).1 trivial, rfl⟩

/-- A call under the accept name makes a bound socket listen. -/
theorem ipc_accept_listens :
    ¬ ∀ img s, Trans.Reach State.init (Trans.ofFun (step img)) s → ∀ e f allocated args r t,
      s.call img e f allocated args = some (r, t) → Obeys s.service t.service e args r := by
  intro H
  obtain ⟨s, h, hservice, hfound⟩ := bound_found
  have hcall : s.call loaded .accept .listen true ⟨1, none, 0⟩ =
      some (0, { s with service := ⟨2, [⟨1, .LISTEN, [47, 115]⟩]⟩ }) :=
    call_eq_some (hfound .accept) (by rw [hservice]; rfl)
  have O := H loaded s h.of_guarded _ _ _ _ _ _ hcall
  obtain ⟨c, hc, htype⟩ := O.neverListens (.inl rfl) 1 ⟨1, .LISTEN, [47, 115]⟩ rfl rfl
  rw [hservice] at hc
  obtain rfl := Option.some.inj hc
  cases htype

end Subcontexts.Ipc
