import Subcontexts.Ipc.Sockets
import Subcontexts.Bootstrap.Served

/-! What becomes of the processes that run `ipc_send`. The sockets of different processes are
different, and each is in the state that its owner has brought it to, wherever the processes are in
the functions of the service. -/

namespace Subcontexts.Send
open Registry (Pid findEntry)
open Ipc (Addr Args At Entry Func Image Memory Sock SockaddrUn postings)

def Pc.Calls : Pc → Prop
  | .call _ | .inside _ _ => True
  | _ => False

structure Fine (img : Image) (inside : Registry.Pc String) (p : Pid) (c : Sender) : Prop where
  ptr : ∀ e, c.ptr e = 0 ∨ c.ptr e = img.address e.posted
  loaded : c.pc.Calls → ∀ e, c.ptr e ≠ 0
  path : 0 ∉ c.path
  find : ∀ left, c.pc = .find left → left.length ≤ 7
  server : c.pc ≠ .outside → p ≠ img.server
  inside : c.pc = .outside ∨ inside = .idle ∨
    ∃ e left, c.pc = .find (e :: left) ∧ inside = .find e.name

def Posted (img : Image) (name : String) (sym : Nat) : Prop :=
  ∀ e : Entry, name = e.name → sym = img.address e.posted

structure Inv (img : Image) (s : State) (l : List Addr) : Prop where
  posted : Registry.Only (Posted img) s.registry
  sound : Sound s.memory l
  fine : ∀ p, Fine img (s.registry.pc p) p (s.sender p)
  place : ∀ p, Place s.memory l (s.sender p)
  apart : ∀ p q a, Owns s.memory (s.sender p) a → Owns s.memory (s.sender q) a → p = q

section Steps
variable {img : Image} {s t : State} {p : Pid} {l : List Addr}

@[simp] theorem set_self (s : State) (p : Pid) (c : Sender) : (s.set p c).sender p = c :=
  Function.update_self ..

theorem set_of_ne (s : State) {p q : Pid} (c : Sender) (h : q ≠ p) :
    (s.set p c).sender q = s.sender q :=
  Function.update_of_ne h ..

theorem not_owns {m : Memory} {c : Sender} {a : Addr} (hserv : c.serv = 0)
    (hpc : ∀ k place, c.pc ≠ .inside k place) : ¬ Owns m c a := by
  rintro (⟨k, place, hinside, -⟩ | hown)
  · exact hpc k place hinside
  · exact hown.1 hserv

theorem Inv.init (h : s.init) : Inv img s [] := by
  obtain ⟨hregistry, -, hno, hlist, hused, hsender⟩ := h
  have hnone : ∀ a, ¬ a < s.memory.used := fun a ha => Nat.not_lt_zero a (hused ▸ ha)
  refine ⟨.init hregistry, ⟨hlist, fun a ha => ?_, fun a ha => ?_, fun a ha => ?_, fun a ha => ?_, ?_⟩,
    fun p => ?_, fun p => ?_, fun p q a h => ?_⟩
  · cases ha
  · exact absurd ha (hnone a)
  · exact absurd ha (hnone a)
  · exact absurd ha (hnone a)
  · rw [hno]
    exact Int.one_pos
  · obtain ⟨hpc, hpath, hptr, -⟩ := hsender p
    refine ⟨fun e => .inl ?_, fun h => ?_, ?_, fun left h => ?_, fun h => absurd hpc h, .inl hpc⟩
    · rw [hptr]
    · rw [hpc] at h
      exact h.elim
    · rw [hpath]
      exact List.not_mem_nil
    · rw [hpc] at h
      cases h
  · obtain ⟨hpc, -, -, hserv⟩ := hsender p
    refine .bare hserv ?_
    rw [hpc]
    trivial
  · obtain ⟨hpc, -, -, hserv⟩ := hsender p
    refine absurd h (not_owns hserv fun k place h => ?_)
    rw [hpc] at h
    cases h

theorem caller_eq (a : Registry.Action String) : Bootstrap.caller a = Ipc.processOf a := by
  cases a <;> rfl

theorem registry_frame {r r' : Registry.State String} {a : Registry.Action String}
    (h : Registry.step r a = some r') {q : Pid} (hq : q ≠ Ipc.processOf a) : r'.pc q = r.pc q :=
  (Bootstrap.step_frame h).1 q (by rwa [caller_eq])

theorem Inv.registry (I : Inv img s l) {a : Registry.Action String} {r : Registry.State String}
    {left : List Entry} (h : Registry.step s.registry a = some r)
    (houtside : (s.sender (Ipc.processOf a)).pc = .outside)
    (hpost : ∀ p name sym, a = .registryPost p name sym → Posted img name sym) :
    Inv img { s with registry := r, left := left } l := by
  refine ⟨I.posted.step hpost h, I.sound, fun q => ?_, I.place, I.apart⟩
  have F := I.fine q
  refine ⟨F.ptr, F.loaded, F.path, F.find, F.server, ?_⟩
  by_cases hq : q = Ipc.processOf a
  · subst hq
    exact .inl houtside
  · have hinside := F.inside
    rw [← registry_frame h hq] at hinside
    exact hinside

theorem Inv.move (I : Inv img s l) {r : Registry.State String} {m : Memory} {l' : List Addr}
    {c : Sender} (hposted : Registry.Only (Posted img) r)
    (hframe : ∀ q, q ≠ p → r.pc q = s.registry.pc q) (F : Fine img (r.pc p) p c)
    (S : Sound m l') (P : Place m l' c) (hkept : ∀ q, q ≠ p → Kept s.memory m l l' (s.sender q))
    (howns : ∀ a, Owns m c a → Owns s.memory (s.sender p) a ∨ s.memory.used ≤ a) :
    Inv img { s.set p c with registry := r, memory := m } l' := by
  -- what another process owns afterwards it owned before, and the step did not come by it
  have hother : ∀ q a, q ≠ p → Owns m (s.sender q) a →
      Owns s.memory (s.sender q) a ∧ ¬ Owns m c a := by
    intro q a hq h
    have hold := (I.place q).owns_of_kept (hkept q hq) S h
    refine ⟨hold, fun hc => ?_⟩
    rcases howns a hc with hp | hfresh
    · exact hq (I.apart q p a hold hp)
    · exact absurd ((I.place q).lt_used hold) (Nat.not_lt_of_le hfresh)
  refine ⟨hposted, S, fun q => ?_, fun q => ?_, fun q u a => ?_⟩
  · show Fine img (r.pc q) q ((s.set p c).sender q)
    by_cases hq : q = p
    · subst hq
      rw [set_self]
      exact F
    · rw [set_of_ne s c hq, hframe q hq]
      exact I.fine q
  · show Place m l' ((s.set p c).sender q)
    by_cases hq : q = p
    · subst hq
      rw [set_self]
      exact P
    · rw [set_of_ne s c hq]
      exact (I.place q).kept (hkept q hq)
  · show Owns m ((s.set p c).sender q) a → Owns m ((s.set p c).sender u) a → q = u
    intro hq hu
    by_cases hqp : q = p
    · subst hqp
      by_contra hne
      rw [set_self] at hq
      rw [set_of_ne s c (Ne.symm hne)] at hu
      exact (hother u a (Ne.symm hne) hu).2 hq
    · rw [set_of_ne s c hqp] at hq
      by_cases hup : u = p
      · subst hup
        rw [set_self] at hu
        exact absurd hu (hother q a hqp hq).2
      · rw [set_of_ne s c hup] at hu
        exact I.apart q u a (hother q a hqp hq).1 (hother u a hup hu).1

theorem Inv.service (I : Inv img s l) (h : Send.service img s = some t) : Inv img t l := by
  have houtside : (s.sender img.server).pc = .outside := by
    by_contra hne
    exact (I.fine _).server hne rfl
  obtain ⟨ipc, hipc, rfl⟩ := Option.map_eq_some_iff.mp h
  unfold Ipc.subcontextMain at hipc
  split at hipc
  · rename_i e left hpc hleft
    obtain ⟨r, hr, rfl⟩ := Option.map_eq_some_iff.mp hipc
    refine I.registry hr houtside fun p name sym ha e' hname => ?_
    obtain ⟨-, rfl, rfl⟩ := Registry.Action.registryPost.inj ha
    rw [Ipc.Entry.name_injective hname]
  · cases hipc
  · obtain ⟨r, hr, rfl⟩ := Option.map_eq_some_iff.mp hipc
    exact I.registry hr houtside fun p name sym ha => by cases ha
  · obtain ⟨r, hr, rfl⟩ := Option.map_eq_some_iff.mp hipc
    exact I.registry hr houtside fun p name sym ha => by cases ha
  · obtain ⟨r, hr, rfl⟩ := Option.map_eq_some_iff.mp hipc
    exact I.registry hr houtside fun p name sym ha => by cases ha
  · cases hipc

end Steps

section Advances
variable {img : Image} {s : State} {p : Pid} {answer : Answer} {l : List Addr}

def Advances (img : Image) (p : Pid) (answer : Answer) (s : State) (l : List Addr) : Prop :=
  ∃ t l', main img p answer s = some t ∧ Inv img t l' ∧ l <:+ l' ∧
    s.memory.used ≤ t.memory.used ∧ (t.sender p).pc ≠ .outside ∧
    (∀ B, t.memory.used ≤ B → (t.sender p).pc.rank B l' (t.registry.pc p) <
      (s.sender p).pc.rank B l (s.registry.pc p)) ∧
    ∀ q, q ≠ p → t.sender q = s.sender q ∧ t.registry.pc q = s.registry.pc q

theorem Inv.advance (I : Inv img s l) {r : Registry.State String} {m : Memory} {l' : List Addr}
    {c : Sender}
    (hmain : main img p answer s = some { s.set p c with registry := r, memory := m })
    (hposted : Registry.Only (Posted img) r) (hframe : ∀ q, q ≠ p → r.pc q = s.registry.pc q)
    (F : Fine img (r.pc p) p c) (S : Sound m l') (P : Place m l' c)
    (hkept : ∀ q, q ≠ p → Kept s.memory m l l' (s.sender q))
    (howns : ∀ a, Owns m c a → Owns s.memory (s.sender p) a ∨ s.memory.used ≤ a)
    (hl : l <:+ l') (hused : s.memory.used ≤ m.used) (hstarted : c.pc ≠ .outside)
    (hrank : ∀ B, m.used ≤ B →
      c.pc.rank B l' (r.pc p) < (s.sender p).pc.rank B l (s.registry.pc p)) :
    Advances img p answer s l := by
  refine ⟨_, l', hmain, I.move hposted hframe F S P hkept howns, hl, hused, ?_, fun B hB => ?_,
    fun q hq => ⟨set_of_ne s c hq, hframe q hq⟩⟩
  · show ((s.set p c).sender p).pc ≠ .outside
    rw [set_self]
    exact hstarted
  · show ((s.set p c).sender p).pc.rank B l' (r.pc p) < _
    rw [set_self]
    exact hrank B hB

theorem Inv.advance_bare (I : Inv img s l) {r : Registry.State String} {c : Sender}
    (hmain : main img p answer s = some { s.set p c with registry := r })
    (hposted : Registry.Only (Posted img) r) (hframe : ∀ q, q ≠ p → r.pc q = s.registry.pc q)
    (F : Fine img (r.pc p) p c) (hserv : c.serv = 0) (hbare : c.pc.Bare) (hstarted : c.pc ≠ .outside)
    (hrank : ∀ B, c.pc.rank B l (r.pc p) < (s.sender p).pc.rank B l (s.registry.pc p)) :
    Advances img p answer s l := by
  refine I.advance (m := s.memory) hmain hposted hframe F I.sound (.bare hserv hbare)
    (fun q _ => .refl _ _ _) (fun a h => absurd h (not_owns hserv fun k place hpc => ?_))
    (List.suffix_refl l) (Nat.le_refl _) hstarted fun B _ => hrank B
  rw [hpc] at hbare
  exact hbare

theorem Fine.calls {inside : Registry.Pc String} {c : Sender} (F : Fine img inside p c)
    (h : c.pc.Calls) :
    (∀ e, c.ptr e = img.address e.posted) ∧ p ≠ img.server ∧ inside = .idle := by
  have hrunning : c.pc ≠ .outside := by
    intro hpc
    rw [hpc] at h
    exact h
  refine ⟨fun e => (F.ptr e).resolve_left (F.loaded h e), F.server hrunning, ?_⟩
  rcases F.inside with hpc | hidle | ⟨e, left, hpc, -⟩
  · exact absurd hpc hrunning
  · exact hidle
  · rw [hpc] at h
    exact h.elim

theorem Fine.later {inside : Registry.Pc String} {c c' : Sender} (F : Fine img inside p c)
    (h : c.pc.Calls) (hptr : c'.ptr = c.ptr) (hpath : c'.path = c.path)
    (hfind : ∀ left, c'.pc ≠ .find left) : Fine img inside p c' := by
  obtain ⟨-, hserver, hidle⟩ := F.calls h
  refine ⟨hptr ▸ F.ptr, fun _ => hptr ▸ F.loaded h, hpath ▸ F.path,
    fun left hpc => absurd hpc (hfind left), fun _ => hserver, .inr (.inl hidle)⟩

theorem Place.serv_zero {m : Memory} {c : Sender} (P : Place m l c) (hpc : ¬ c.pc.Calls)
    (hreturned : ∀ rc, c.pc ≠ .returned rc) : c.serv = 0 := by
  cases P with
  | bare hserv hbare => exact hserv
  | making place hserv hinside hmade => exact hserv
  | owner a hown hheld hlooks =>
    unfold Held at hheld
    cases h : c.pc with
    | call k =>
      rw [h] at hpc
      exact absurd trivial hpc
    | inside k place =>
      rw [h] at hpc
      exact absurd trivial hpc
    | returned rc => exact absurd h (hreturned rc)
    | _ =>
      rw [h] at hheld
      exact hheld.elim

theorem Inv.attach (I : Inv img s l) (hpc : (s.sender p).pc = .attach) :
    Advances img p answer s l := by
  have F := I.fine p
  have hserv : (s.sender p).serv = 0 := (I.place p).serv_zero
    (by rw [hpc]; exact fun h => h) (by rw [hpc]; exact fun _ h => by cases h)
  have hrunning : (s.sender p).pc ≠ .outside := by
    rw [hpc]
    exact fun h => by cases h
  have hidle : s.registry.pc p = .idle := by
    rcases F.inside with h | h | ⟨e, left, h, -⟩
    · exact absurd h hrunning
    · exact h
    · rw [hpc] at h
      cases h
  have hmain : main img p answer s =
      some (s.goto p (if answer.attached then .find postings else .returned 2)) := by
    simp only [main, hpc]
  have hfine : ∀ pc : Pc, ¬ pc.Calls → (∀ left, pc = .find left → left.length ≤ 7) →
      Fine img (s.registry.pc p) p { s.sender p with pc := pc } := fun pc hcalls hfind =>
    ⟨F.ptr, fun h => absurd h hcalls, F.path, hfind, fun _ => F.server hrunning, .inr (.inl hidle)⟩
  cases hattached : answer.attached with
  | true =>
    rw [hattached] at hmain
    refine I.advance_bare hmain I.posted (fun _ _ => rfl) (hfine _ (fun h => h) fun left h => ?_) hserv
      trivial (fun h => by cases h) fun B => ?_
    · obtain rfl := Pc.find.inj h
      exact Nat.le_refl 7
    · rw [hpc, hidle]
      simp only [Pc.rank, if_true]
      show 2 * 7 + 22 + 6 * B + 1 < _
      omega
  | false =>
    rw [hattached] at hmain
    refine I.advance_bare hmain I.posted (fun _ _ => rfl)
      (hfine _ (fun h => h) fun left h => by cases h) hserv (.inr (.inl rfl)) (fun h => by cases h)
      fun B => ?_
    rw [hpc]
    show 0 < 38 + 6 * B
    omega

theorem Inv.lookup (I : Inv img s l) (e : Entry) :
    findEntry s.registry.list e.name = 0 ∨
      findEntry s.registry.list e.name = img.address e.posted := by
  by_cases h : findEntry s.registry.list e.name = 0
  · exact .inl h
  · exact .inr (I.posted.list _ (Registry.findEntry_mem h) e rfl)

section Find
variable {left : List Entry} {e : Entry}

theorem Inv.finding (I : Inv img s l) (hpc : (s.sender p).pc = .find left) :
    (s.sender p).serv = 0 ∧ (s.sender p).pc ≠ .outside := by
  refine ⟨(I.place p).serv_zero ?_ ?_, ?_⟩
  · rw [hpc]
    exact fun h => h
  · rw [hpc]
    exact fun _ h => by cases h
  · rw [hpc]
    exact fun h => by cases h

theorem Inv.find_done (I : Inv img s l) (hpc : (s.sender p).pc = .find []) :
    Advances img p answer s l := by
  have F := I.fine p
  obtain ⟨hserv, hrunning⟩ := I.finding hpc
  have hidle : s.registry.pc p = .idle := by
    rcases F.inside with h | h | ⟨e, left, h, -⟩
    · exact absurd h hrunning
    · exact h
    · rw [hpc] at h
      cases h
  have hmain : main img p answer s =
      some (s.goto p (if postings.any fun e => (s.sender p).ptr e = 0 then .returned 3
        else .call .socket)) := by
    simp only [main, hpc]
  by_cases hnull : (postings.any fun e => (s.sender p).ptr e = 0) = true
  · rw [if_pos hnull] at hmain
    refine I.advance_bare hmain I.posted (fun _ _ => rfl) ⟨F.ptr, fun h => h.elim, F.path,
      (fun left h => by cases h), fun _ => F.server hrunning, .inr (.inl hidle)⟩ hserv
      (.inr (.inr rfl)) (fun h => by cases h) fun B => ?_
    rw [hpc]
    simp only [Pc.rank]
    omega
  · rw [if_neg hnull] at hmain
    have hloaded : ∀ e, (s.sender p).ptr e ≠ 0 := fun e he =>
      hnull (List.any_eq_true.mpr ⟨e, Ipc.mem_postings e, decide_eq_true he⟩)
    refine I.advance_bare hmain I.posted (fun _ _ => rfl) ⟨F.ptr, fun _ => hloaded, F.path,
      (fun left h => by cases h), fun _ => F.server hrunning, .inr (.inl hidle)⟩ hserv rfl
      (fun h => by cases h) fun B => ?_
    rw [hpc, hidle]
    simp only [Pc.rank, Call.rank, List.length_nil, if_true]
    omega

theorem Inv.find_begin (I : Inv img s l) (hpc : (s.sender p).pc = .find (e :: left))
    (hidle : s.registry.pc p = .idle) : Advances img p answer s l := by
  have F := I.fine p
  obtain ⟨hserv, hrunning⟩ := I.finding hpc
  have hcall : Registry.step s.registry (.registryFind p e.name) =
      some (s.registry.goto p (.find e.name)) := if_pos hidle
  have hnew : (s.registry.goto p (.find e.name)).pc p = .find e.name := Function.update_self ..
  have hmain : main img p answer s = some { s.set p (s.sender p) with
      registry := s.registry.goto p (.find e.name) } := by
    simp only [main, hpc, hidle, State.post, hcall, Option.map_some, State.set,
      Function.update_eq_self]
  refine I.advance_bare hmain (I.posted.step (fun _ _ _ h => by cases h) hcall)
    (fun q hq => registry_frame hcall hq) ⟨F.ptr, F.loaded, F.path, F.find, F.server,
      .inr (.inr ⟨e, left, hpc, hnew⟩)⟩ hserv (by rw [hpc]; trivial) hrunning fun B => ?_
  rw [hnew, hidle, hpc]
  exact Nat.lt_succ_self _

theorem Inv.find_return (I : Inv img s l) (hpc : (s.sender p).pc = .find (e :: left))
    (hfind : s.registry.pc p = .find e.name) : Advances img p answer s l := by
  have F := I.fine p
  obtain ⟨hserv, hrunning⟩ := I.finding hpc
  have hlength := F.find _ hpc
  rw [List.length_cons] at hlength
  obtain ⟨r, hr⟩ : ∃ r, s.registry.return p
      (.find e.name (findEntry s.registry.list e.name)) = r := ⟨_, rfl⟩
  have hcall : Registry.step s.registry (.find p) = some r := by
    simp only [Registry.step, hfind, hr]
  have hnew : r.pc p = .idle := by
    rw [← hr]
    exact Function.update_self ..
  have hmain : main img p answer s = some { s.set p { s.sender p with
        pc := .find left
        ptr := Function.update (s.sender p).ptr e (findEntry s.registry.list e.name) } with
      registry := r } := by
    simp only [main, hpc, hfind, State.post, State.set, hcall, Option.map_some]
  refine I.advance_bare hmain (I.posted.step (fun _ _ _ h => by cases h) hcall)
    (fun q hq => registry_frame hcall hq) ⟨fun e' => ?_, fun h => h.elim, F.path,
      fun left' h => ?_, fun _ => F.server hrunning, .inr (.inl hnew)⟩ hserv trivial
    (fun h => by cases h) fun B => ?_
  · by_cases he : e' = e
    · subst he
      simp only [Function.update_self]
      exact I.lookup e'
    · simp only [Function.update_of_ne he]
      exact F.ptr e'
  · obtain rfl := Pc.find.inj h
    exact Nat.le_of_succ_le hlength
  · rw [hnew, hfind, hpc]
    simp only [Pc.rank, List.length_cons, if_true, reduceCtorEq, if_false]
    omega

theorem Inv.find (I : Inv img s l) (hpc : (s.sender p).pc = .find left) :
    Advances img p answer s l := by
  cases left with
  | nil => exact I.find_done hpc
  | cons e left =>
    rcases (I.fine p).inside with h | hidle | ⟨e', left', h, hfind⟩
    · exact absurd h (I.finding hpc).2
    · exact I.find_begin hpc hidle
    · rw [hpc] at h
      obtain ⟨rfl, rfl⟩ := List.cons.inj (Pc.find.inj h)
      exact I.find_return hpc hfind

end Find
end Advances

section Calls
variable {img : Image} {s : State} {p : Pid} {answer : Answer} {l : List Addr} {k : Call}
  {place : At} {a : Addr} {m : Memory}

theorem find_function (img : Image) (f : Func) :
    Ipc.functions.find? (fun g => img.address g = img.address f) = some f := by
  have heq : (fun g => decide (img.address g = img.address f)) = fun g => decide (g = f) := by
    funext g
    exact decide_eq_decide.mpr img.injective.eq_iff
  rw [heq]
  cases f <;> rfl

def Call.start : Call → At
  | .socket => .malloc
  | .bind => .first .bind
  | .listen | .accept => .first .listen

theorem enter_posted (k : Call) (args : Args) : k.entry.posted.enter args = .ok (.inl k.start) := by
  cases k <;> rfl

theorem enter_eq {args : Args} (hpc : (s.sender p).pc = .call k)
    (hptr : ∀ e, (s.sender p).ptr e = img.address e.posted)
    (hargs : (s.sender p).args k = some args) :
    main img p answer s = some (s.goto p (.inside k k.start)) := by
  simp only [main, hpc, enter, hptr, find_function, hargs, enter_posted, Except.toOption,
    Option.bind_eq_bind, Option.bind_some]
  rfl

theorem proceed_eq {args : Args} {next : At ⊕ Int} (hpc : (s.sender p).pc = .inside k place)
    (hargs : (s.sender p).args k = some args)
    (hstep : place.step answer.allocated args s.memory = .ok (next, m)) :
    main img p answer s = some { s.set p ((s.sender p).after k next) with memory := m } := by
  simp only [main, hpc, proceed, hargs, hstep, Except.toOption, Option.bind_eq_bind,
    Option.bind_some]
  rfl

theorem Inv.others (I : Inv img s l) {q : Pid} (hq : q ≠ p) (h : Owns s.memory (s.sender p) a) :
    ¬ Owns s.memory (s.sender q) a := fun h' => hq (I.apart q p a h' h)

theorem calls_of_inside (hpc : (s.sender p).pc = .inside k place) : (s.sender p).pc.Calls := by
  rw [hpc]
  trivial

theorem Inv.enter (I : Inv img s l) (hpc : (s.sender p).pc = .call k) :
    Advances img p answer s l := by
  have F := I.fine p
  have hcalls : (s.sender p).pc.Calls := by
    rw [hpc]
    trivial
  obtain ⟨hptr, -, hidle⟩ := F.calls hcalls
  have hfine : Fine img (s.registry.pc p) p { s.sender p with pc := .inside k k.start } :=
    F.later hcalls rfl rfl fun left h => by cases h
  have hrank : ∀ B, accesses B l k k.start + k.rest B < k.rank B := by
    intro B
    cases k <;> simp only [accesses, Call.start, Call.writes, Call.rest, Call.rank] <;> omega
  have hadvance : ∀ {args}, (s.sender p).args k = some args →
      Place s.memory l { s.sender p with pc := .inside k k.start } → Advances img p answer s l := by
    intro args hargs P
    refine I.advance (m := s.memory) (enter_eq hpc hptr hargs) I.posted (fun _ _ => rfl) hfine I.sound
      P (fun q _ => .refl _ _ _) (fun a h => .inl ?_) (List.suffix_refl l) (Nat.le_refl _)
      (fun h => by cases h) fun B _ => ?_
    · rcases h with ⟨k', place, h, hstruct⟩ | hown
      · obtain ⟨-, rfl⟩ := Pc.inside.inj h
        cases k <;> cases hstruct
      · exact .inr hown
    · rw [hpc]
      exact hrank B
  cases I.place p with
  | bare hserv hbare =>
    rw [hpc] at hbare
    obtain rfl : k = .socket := hbare
    exact hadvance rfl (.making .malloc hserv rfl trivial)
  | making place hserv hinside hmade =>
    rw [hpc] at hinside
    cases hinside
  | owner a hown hheld hlooks =>
    simp only [Held, hpc] at hheld
    obtain ⟨hlen, hready⟩ := hheld
    have hown' : Own s.memory { s.sender p with pc := .inside k k.start } a := hown
    cases k with
    | socket => exact hready.elim
    | bind =>
      refine hadvance (dif_pos hlen) (.owner a hown' ⟨hlen, hready⟩ fun k' place h => ?_)
      obtain ⟨rfl, rfl⟩ := Pc.inside.inj h
      rfl
    | listen =>
      refine hadvance rfl (.owner a hown' ⟨hlen, hready⟩ fun k' place h => ?_)
      obtain ⟨rfl, rfl⟩ := Pc.inside.inj h
      rfl
    | accept =>
      refine hadvance rfl (.owner a hown' ⟨hlen, hready⟩ fun k' place h => ?_)
      obtain ⟨rfl, rfl⟩ := Pc.inside.inj h
      rfl

end Calls

section Making
variable {img : Image} {s : State} {p : Pid} {answer : Answer} {l l' : List Addr} {a : Addr}
  {m : Memory} {place next : At}

theorem Inv.make (I : Inv img s l) (hpc : (s.sender p).pc = .inside .socket place)
    (hserv : (s.sender p).serv = 0)
    (hstep : place.step answer.allocated ⟨0, none, 0⟩ s.memory = .ok (.inl next, m))
    (hnext : Sound m l' ∧ Made m l' next)
    (hkept : ∀ q, q ≠ p → Kept s.memory m l l' (s.sender q))
    (howns : ∀ a, struct next = some a → struct place = some a ∨ s.memory.used ≤ a)
    (hl : l <:+ l') (hused : s.memory.used ≤ m.used)
    (hrank : ∀ B, accesses B l' .socket next < accesses B l .socket place) :
    Advances img p answer s l := by
  refine I.advance (proceed_eq hpc rfl hstep) I.posted (fun _ _ => rfl)
    ((I.fine p).later (calls_of_inside hpc) rfl rfl fun left h => by cases h) hnext.1
    (.making next hserv rfl hnext.2) hkept (fun a h => ?_) hl hused (fun h => by cases h)
    fun B _ => ?_
  · rcases h with ⟨k, place', h, hstruct⟩ | hown
    · obtain ⟨-, rfl⟩ := Pc.inside.inj h
      rcases howns a hstruct with hstruct | hfresh
      · exact .inl (.inl ⟨_, _, hpc, hstruct⟩)
      · exact .inr hfresh
    · exact absurd hserv hown.1
  · rw [hpc]
    exact Nat.add_lt_add_right (hrank B) _

theorem Inv.make_raw (I : Inv img s l) (hpc : (s.sender p).pc = .inside .socket place)
    (hserv : (s.sender p).serv = 0) (hraw : Raw s.memory a) (hstruct : struct place = some a)
    (hstep : place.step answer.allocated ⟨0, none, 0⟩ s.memory = .ok (.inl next, m))
    (hnext : Sound m l' ∧ Made m l' next) (hsame : struct next = some a)
    (hsock : ∀ b, b ≠ a → m.sock b = s.memory.sock b) (hused : m.used = s.memory.used)
    (hl : l <:+ l') (hrank : ∀ B, accesses B l' .socket next < accesses B l .socket place) :
    Advances img p answer s l := by
  have hown : Owns s.memory (s.sender p) a := .inl ⟨_, _, hpc, hstruct⟩
  refine I.make hpc hserv hstep hnext (fun q hq => .of_making (I.others hq hown) (fun b hb => ?_)
    (fun b _ => hsock b) (Nat.le_of_eq hused.symm) hl) (fun b hb => .inl ?_) hl
    (Nat.le_of_eq hused.symm) hrank
  · exact I.sound.single b hb.1 a hraw.1 hb.2 hraw.2
  · rw [hstruct, ← hsame, hb]

theorem Inv.malloc (I : Inv img s l) (hpc : (s.sender p).pc = .inside .socket .malloc)
    (hserv : (s.sender p).serv = 0) (hlt : s.memory.nextSockNo < 2 ^ 31 - 1)
    (hfull : ∀ a < s.memory.used, (s.memory.sock a).type ≠ none) : Advances img p answer s l := by
  cases hallocated : answer.allocated with
  | false =>
    have hmain : main img p answer s =
        some { s.set p { s.sender p with pc := .returned 3 } with registry := s.registry } :=
      proceed_eq (m := s.memory) hpc rfl (by rw [hallocated]; rfl)
    refine I.advance_bare hmain I.posted (fun _ _ => rfl)
      ((I.fine p).later (calls_of_inside hpc) rfl rfl fun left h => by cases h) hserv
      (.inr (.inr rfl)) (fun h => by cases h) fun B => ?_
    rw [hpc]
    show 0 < 9 + (12 + 6 * B)
    omega
  | true =>
    refine I.make hpc hserv (by rw [hallocated]; rfl) (I.sound.malloc hlt hfull)
      (fun q hq => .of_making (a := s.memory.used) (fun h => ?_) (fun b hb => ?_) (fun b _ hb => ?_)
        (Nat.le_succ _) (List.suffix_refl l)) (fun a ha => .inr ?_) (List.suffix_refl l)
      (Nat.le_succ _) fun B => Nat.lt_succ_self 8
    · exact absurd ((I.place q).lt_used h) (Nat.lt_irrefl _)
    · exact absurd hb.2 (hfull b hb.1)
    · exact write_sock_of_ne s.memory _ hb
    · obtain rfl := Option.some.inj ha
      exact Nat.le_refl _

theorem Inv.result (I : Inv img s l) (hpc : (s.sender p).pc = .inside .socket (.result a))
    (M : Made s.memory l (.result a)) : Advances img p answer s l := by
  obtain ⟨hlt, htype⟩ := M
  have hsettled : (s.memory.sock a).type ≠ none := by
    rw [htype]
    exact fun h => by cases h
  have hno := (I.sound.settled a hlt hsettled).2.1
  have hne : (s.memory.sock a).sockNo ≠ -1 := by omega
  have hmain : main img p answer s = some { s.set p { s.sender p with
        serv := (s.memory.sock a).sockNo
        pc := if (s.sender p).path.length ≥ sunPathSize then .returned 2 else .call .bind } with
      memory := s.memory } := by
    have h : main img p answer s = some { s.set p ((s.sender p).behind (s.memory.sock a).sockNo
        .socket) with memory := s.memory } := proceed_eq hpc rfl rfl
    rw [h, Sender.behind, if_neg hne]
  have hown : Owns s.memory (s.sender p) a := .inl ⟨_, _, hpc, rfl⟩
  -- what it has now is the struct that it worked on
  have howns : ∀ pc : Pc, (∀ k place, pc ≠ .inside k place) → ∀ b, Owns s.memory
      { s.sender p with serv := (s.memory.sock a).sockNo, pc := pc } b →
        Owns s.memory (s.sender p) b ∨ s.memory.used ≤ b := by
    rintro pc hinside b (⟨k, place, h, -⟩ | ⟨-, hb, hno', htype'⟩)
    · exact absurd h (hinside k place)
    · obtain rfl := I.sound.distinct a hlt b hb hsettled hno'
      exact .inl hown
  have hown' : ∀ pc : Pc, Own s.memory
      { s.sender p with serv := (s.memory.sock a).sockNo, pc := pc } a := fun pc =>
    ⟨fun h : (s.memory.sock a).sockNo = 0 => by omega, hlt, rfl, hsettled⟩
  by_cases hlong : (s.sender p).path.length ≥ sunPathSize
  · rw [if_pos hlong] at hmain
    refine I.advance hmain I.posted (fun _ _ => rfl)
      ((I.fine p).later (calls_of_inside hpc) rfl rfl fun left h => by cases h) I.sound
      (.owner a (hown' _) (.inr ⟨hlong, rfl, htype⟩) fun k place h => by cases h)
      (fun q _ => .refl _ _ _) (howns _ fun k place h => by cases h) (List.suffix_refl l)
      (Nat.le_refl _) (fun h => by cases h) fun B _ => ?_
    rw [hpc]
    exact Nat.lt_of_lt_of_le Nat.one_pos (Nat.le_add_right _ _)
  · rw [if_neg hlong] at hmain
    refine I.advance hmain I.posted (fun _ _ => rfl)
      ((I.fine p).later (calls_of_inside hpc) rfl rfl fun left h => by cases h) I.sound
      (.owner a (hown' _) ⟨Nat.lt_of_not_le hlong, htype⟩ fun k place h => by cases h)
      (fun q _ => .refl _ _ _) (howns _ fun k place h => by cases h) (List.suffix_refl l)
      (Nat.le_refl _) (fun h => by cases h) fun B _ => ?_
    rw [hpc]
    exact Nat.lt_add_of_pos_left Nat.one_pos

theorem Inv.making (I : Inv img s l) (hpc : (s.sender p).pc = .inside .socket place)
    (hserv : (s.sender p).serv = 0) (M : Made s.memory l place) (hok : Spares s (.main p answer)) :
    Advances img p answer s l := by
  have hl := List.suffix_refl l
  cases place with
  | malloc =>
    obtain ⟨hlt, hfull⟩ := hok hpc
    exact I.malloc hpc hserv hlt hfull
  | readHead a =>
    exact I.make_raw hpc hserv M.1 rfl rfl (I.sound.readHead M) rfl
      (fun b hb => write_sock_of_ne _ _ hb) rfl hl fun B => Nat.lt_succ_self 7
  | writeHead a =>
    exact I.make_raw hpc hserv M.1 rfl rfl (I.sound.writeHead M) rfl (fun _ _ => rfl) rfl
      (List.suffix_cons a l) fun B => Nat.lt_succ_self 6
  | readNo a =>
    exact I.make_raw hpc hserv M.1 rfl rfl ⟨I.sound, M.1, M.2.1, M.2.2, rfl⟩ rfl (fun _ _ => rfl) rfl
      hl fun B => Nat.lt_succ_self 5
  | writeNo a no =>
    exact I.make_raw hpc hserv M.1 rfl rfl (I.sound.writeNo M) rfl
      (fun b hb => write_sock_of_ne _ _ hb) rfl hl fun B => Nat.lt_succ_self 4
  | readNext a =>
    exact I.make_raw hpc hserv M.1 rfl rfl ⟨I.sound, M.1, M.2.1, M.2.2.1, M.2.2.2, rfl⟩ rfl
      (fun _ _ => rfl) rfl hl fun B => Nat.lt_succ_self 3
  | writeNext a no =>
    exact I.make_raw hpc hserv M.1 rfl rfl (I.sound.writeNext M) rfl (fun _ _ => rfl) rfl hl
      fun B => Nat.lt_succ_self 2
  | setNew a =>
    exact I.make_raw hpc hserv M.1 rfl rfl (I.sound.setNew M) rfl
      (fun b hb => write_sock_of_ne _ _ hb) rfl hl fun B => Nat.lt_succ_self 1
  | result a => exact I.result hpc M
  | _ => exact M.elim

end Making

section Looking
variable {img : Image} {s : State} {p : Pid} {answer : Answer} {l : List Addr} {a : Addr}
  {k : Call} {place : At}

theorem Looks.struct_eq_none (h : Looks l a k place) : struct place = none := by
  cases place with
  | first | sockNo | next | type | setBind | copy | setListen => rfl
  | _ => exact h.elim

theorem Inv.owner (I : Inv img s l) {c : Sender} {x : Sock}
    (hpc : (s.sender p).pc = .inside k place) (hown : Own s.memory (s.sender p) a)
    (hmain : main img p answer s = some { s.set p c with memory := s.memory.write a x })
    (hptr : c.ptr = (s.sender p).ptr) (hpath : c.path = (s.sender p).path)
    (hserv : c.serv = (s.sender p).serv) (hnext : x.nextSock = (s.memory.sock a).nextSock)
    (hno : x.sockNo = (s.memory.sock a).sockNo) (htype : x.type ≠ none) (hheld : Held c x)
    (hlooks : ∀ k place, c.pc = .inside k place → Looks l a k place)
    (hfind : ∀ left, c.pc ≠ .find left) (hstarted : c.pc ≠ .outside)
    (hrank : ∀ B, s.memory.used ≤ B →
      c.pc.rank B l (s.registry.pc p) < accesses B l k place + k.rest B) :
    Advances img p answer s l := by
  obtain ⟨hzero, hlt, hserv', hcomplete⟩ := hown
  have hown : Owns s.memory (s.sender p) a := .inr ⟨hzero, hlt, hserv', hcomplete⟩
  have S : Sound (s.memory.write a x) l := I.sound.update hlt hcomplete hnext hno htype
  have hself : (s.memory.write a x).sock a = x := write_sock_self ..
  have hown' : Own (s.memory.write a x) c a := by
    refine ⟨hserv ▸ hzero, hlt, ?_, ?_⟩
    · rw [hself, hno, hserv', hserv]
    · rw [hself]
      exact htype
  refine I.advance hmain I.posted (fun _ _ => rfl)
    ((I.fine p).later (calls_of_inside hpc) hptr hpath hfind) S
    (.owner a hown' (by rw [hself]; exact hheld) hlooks)
    (fun q hq => .of_write (I.others hq hown) hcomplete) (fun b h => .inl ?_) (List.suffix_refl l)
    (Nat.le_refl _) hstarted fun B hB => ?_
  · rcases h with ⟨k', place', h, hstruct⟩ | ⟨-, hb, hbno, hbtype⟩
    · rw [(hlooks k' place' h).struct_eq_none] at hstruct
      cases hstruct
    · obtain rfl := S.distinct b hb a hlt hbtype (hown'.2.2.1.trans hbno.symm)
      exact hown
  · rw [hpc]
    exact hrank B hB

theorem write_same (m : Memory) (a : Addr) : m.write a (m.sock a) = m := by
  rw [Memory.write, Function.update_eq_self]

theorem Inv.look (I : Inv img s l) (next : At) {args : Args}
    (hpc : (s.sender p).pc = .inside k place) (hown : Own s.memory (s.sender p) a)
    (hheld : Held { s.sender p with pc := .inside k next } (s.memory.sock a))
    (hargs : (s.sender p).args k = some args)
    (hstep : place.step answer.allocated args s.memory = .ok (.inl next, s.memory))
    (hlooks : Looks l a k next)
    (hrank : ∀ B, s.memory.used ≤ B → accesses B l k next < accesses B l k place) :
    Advances img p answer s l := by
  have hmain : main img p answer s = some { s.set p { s.sender p with pc := .inside k next } with
      memory := s.memory.write a (s.memory.sock a) } := by
    rw [write_same]
    exact proceed_eq hpc hargs hstep
  refine I.owner hpc hown hmain rfl rfl rfl rfl rfl hown.2.2.2 hheld (fun k' place' h => ?_)
    (fun left h => by cases h) (fun h => by cases h)
    fun B hB => Nat.add_lt_add_right (hrank B hB) _
  obtain ⟨rfl, rfl⟩ := Pc.inside.inj h
  exact hlooks

theorem Inv.finish (I : Inv img s l) (pc : Pc) {x : Sock} {args : Args} {r : Int}
    (hpc : (s.sender p).pc = .inside k place) (hown : Own s.memory (s.sender p) a)
    (hargs : (s.sender p).args k = some args)
    (hstep : place.step answer.allocated args s.memory = .ok (.inr r, s.memory.write a x))
    (hbehind : (s.sender p).behind r k = { s.sender p with pc := pc })
    (hnext : x.nextSock = (s.memory.sock a).nextSock)
    (hno : x.sockNo = (s.memory.sock a).sockNo) (htype : x.type ≠ none)
    (hheld : Held { s.sender p with pc := pc } x)
    (hplace : (∃ k, pc = .call k) ∨ ∃ rc, pc = .returned rc)
    (hrank : ∀ B, pc.rank B l (s.registry.pc p) < accesses B l k place + k.rest B) :
    Advances img p answer s l := by
  have hmain : main img p answer s = some { s.set p { s.sender p with pc := pc } with
      memory := s.memory.write a x } := by
    rw [← hbehind]
    exact proceed_eq hpc hargs hstep
  refine I.owner hpc hown hmain rfl rfl rfl hnext hno htype hheld (fun k' place' h => ?_)
    (fun left h => ?_) (fun h => ?_) fun B _ => hrank B
  · rcases hplace with ⟨k, rfl⟩ | ⟨rc, rfl⟩ <;> cases h
  · rcases hplace with ⟨k, rfl⟩ | ⟨rc, rfl⟩ <;> cases h
  · rcases hplace with ⟨k, rfl⟩ | ⟨rc, rfl⟩ <;> cases h

theorem takeWhile_append_zero {path rest : List UInt8} (h : 0 ∉ path) :
    (path ++ 0 :: rest).takeWhile (· ≠ 0) = path := by
  induction path with
  | nil => rfl
  | cons b path ih =>
    obtain ⟨hb, hpath⟩ := not_or.mp (fun hmem => h (List.mem_cons.mpr hmem))
    rw [List.cons_append, List.takeWhile_cons_of_pos (by simpa using Ne.symm hb), ih hpath]

theorem name_sockaddr {stack : Nat → UInt8} {path : List UInt8} (h : path.length < sunPathSize)
    (hpath : 0 ∉ path) : (sockaddr stack path h).name = path :=
  takeWhile_append_zero hpath

theorem exists_args (h : k ≠ .socket) (c : Sender) (hlen : c.path.length < sunPathSize) :
    ∃ args, c.args k = some args ∧ args.socket = c.serv := by
  cases k with
  | socket => exact absurd rfl h
  | bind => exact ⟨_, dif_pos hlen, rfl⟩
  | listen => exact ⟨_, rfl, rfl⟩
  | accept => exact ⟨_, rfl, rfl⟩

theorem Inv.type (I : Inv img s l) {w : Ipc.Walk} (hpc : (s.sender p).pc = .inside k (.type w a))
    (hwalk : k.walk = some w) (hown : Own s.memory (s.sender p) a)
    (hlen : (s.sender p).path.length < sunPathSize)
    (hready : Ready (s.sender p).path (s.memory.sock a) k) : Advances img p answer s l := by
  cases k with
  | socket => exact hready.elim
  | bind =>
    obtain rfl := Option.some.inj hwalk
    have hname : (sockaddr (s.sender p).stack _ hlen).nameLen = (s.sender p).path.length := by
      rw [SockaddrUn.nameLen, name_sockaddr hlen (I.fine p).path]
    have hlen' : (s.sender p).path.length < 108 := hlen
    have hsize : ¬ Ipc.bindAddrSize ≤ (s.sender p).path.length := by
      unfold Ipc.bindAddrSize
      omega
    have htype : (s.memory.sock a).type = some .NEW := hready
    refine I.look (.setBind a) hpc hown ⟨hlen, hready⟩ (dif_pos hlen) ?_ ⟨rfl, rfl⟩
      fun B _ => Nat.lt_succ_self 2
    simp only [At.step, htype, hname, ne_eq, not_true_eq_false, if_false, hsize,
      Nat.ne_of_lt hlen']
  | listen =>
    obtain rfl := Option.some.inj hwalk
    refine I.look (.setListen a) hpc hown ⟨hlen, hready⟩ rfl ?_ ⟨rfl, rfl⟩
      fun B _ => Nat.lt_succ_self 1
    simp only [At.step, hready.1, ne_eq, not_true_eq_false, if_false]
  | accept =>
    -- `sc_ipc_listen` refuses a socket that listens already
    obtain rfl := Option.some.inj hwalk
    refine I.finish (.returned 3) (x := s.memory.sock a) (r := -1) hpc hown rfl ?_ rfl rfl rfl
      hown.2.2.2 (Or.inl ⟨hlen, rfl, hready.1, hready.2⟩) (.inr ⟨3, rfl⟩) fun B => Nat.one_pos
    rw [write_same]
    simp only [At.step, hready.1, ne_eq, Option.some.injEq, reduceCtorEq, not_false_eq_true,
      if_true]

/-- The read of a number: it is the number of the process's own socket or of one before it. -/
theorem Inv.compare (I : Inv img s l) {w : Ipc.Walk} {cur : Option Addr}
    (hpc : (s.sender p).pc = .inside k (.sockNo w cur)) (hown : Own s.memory (s.sender p) a)
    (hheld : (s.sender p).path.length < sunPathSize ∧
      Ready (s.sender p).path (s.memory.sock a) k)
    (hwalk : k.walk = some w) (hleads : Leads l cur a) : Advances img p answer s l := by
  have hk : k ≠ .socket := by
    rintro rfl
    cases hwalk
  obtain ⟨args, hargs, hsocket⟩ := exists_args hk (s.sender p) hheld.1
  cases cur with
  | none =>
    obtain ⟨pre, suf, -, hcur, ha⟩ := hleads
    obtain rfl := List.head?_eq_none_iff.mp hcur
    cases ha
  | some cur =>
    have hcur : cur < s.memory.used := by
      obtain ⟨pre, suf, rfl, hcur, -⟩ := hleads
      exact I.sound.lt_used cur (List.mem_append_right _ (List.mem_of_mem_head? hcur))
    by_cases hno : (s.memory.sock cur).sockNo = args.socket
    · obtain rfl : cur = a := I.sound.distinct a hown.2.1 cur hcur hown.2.2.2
        (hno.trans (hsocket.trans hown.2.2.1.symm))
      refine I.look (.type w cur) hpc hown hheld hargs ?_ ⟨hwalk, rfl⟩ fun B _ => ?_
      · rw [At.step, if_pos hno]
      · simp only [accesses]
        have hpos : 0 < behind l (some cur) := by
          obtain ⟨pre, suf, rfl, hhead, ha⟩ := hleads
          rw [behind_eq I.sound.holds.nodup hhead]
          exact List.length_pos_of_mem ha
        omega
    · have hne : cur ≠ a := by
        rintro rfl
        exact hno (hown.2.2.1.trans hsocket.symm)
      refine I.look (.next w cur) hpc hown hheld hargs ?_ ⟨hwalk, hleads, hne⟩ fun B _ => ?_
      · rw [At.step, if_neg hno]
      · simp only [accesses]
        omega

theorem Inv.looking (I : Inv img s l) (hpc : (s.sender p).pc = .inside k place)
    (hown : Own s.memory (s.sender p) a) (hheld : Held (s.sender p) (s.memory.sock a))
    (hlooks : Looks l a k place) : Advances img p answer s l := by
  have hk := hlooks.ne_socket
  simp only [Held, hpc] at hheld
  cases place with
  | first w =>
    obtain ⟨args, hargs, -⟩ := exists_args hk (s.sender p) hheld.1
    have hmem := (I.sound.settled a hown.2.1 hown.2.2.2).1
    have hhead : l.head? = s.memory.activeSocketList := I.sound.holds.head?_eq
    refine I.look (.sockNo w s.memory.activeSocketList) hpc hown hheld hargs rfl
      ⟨hlooks, [], l, rfl, hhead, hmem⟩ fun B hB => ?_
    have hle : behind l s.memory.activeSocketList ≤ B :=
      Nat.le_trans (behind_le l _) (Nat.le_trans I.sound.length_le hB)
    simp only [accesses]
    omega
  | sockNo w cur => exact I.compare hpc hown hheld hlooks.1 hlooks.2
  | next w cur =>
    obtain ⟨args, hargs, -⟩ := exists_args hk (s.sender p) hheld.1
    obtain ⟨hwalk, hleads, hne⟩ := hlooks
    obtain ⟨hleads', hless⟩ := hleads.next hne I.sound.holds
    refine I.look (.sockNo w (s.memory.sock cur).nextSock) hpc hown hheld hargs rfl
      ⟨hwalk, hleads'⟩ fun B _ => ?_
    simp only [accesses]
    omega
  | type w b =>
    obtain ⟨hwalk, rfl⟩ := hlooks
    exact I.type hpc hwalk hown hheld.1 hheld.2
  | setBind b =>
    obtain ⟨rfl, rfl⟩ := hlooks
    have hmain : main img p answer s = some { s.set p { s.sender p with pc := .inside .bind (.copy b) }
        with memory := s.memory.write b { s.memory.sock b with type := some .BIND } } :=
      proceed_eq hpc (dif_pos hheld.1) rfl
    refine I.owner hpc hown hmain rfl rfl rfl rfl rfl (fun h => by cases h) ⟨hheld.1, rfl⟩
      (fun k' place' h => ?_) (fun left h => by cases h) (fun h => by cases h) fun B _ => ?_
    · obtain ⟨rfl, rfl⟩ := Pc.inside.inj h
      exact ⟨rfl, rfl⟩
    · exact Nat.add_lt_add_right (Nat.lt_succ_self 1) _
  | copy b =>
    obtain ⟨rfl, rfl⟩ := hlooks
    have hname : (sockaddr (s.sender p).stack _ hheld.1).name = (s.sender p).path :=
      name_sockaddr hheld.1 (I.fine p).path
    refine I.finish (.call .listen) (r := 0) hpc hown (dif_pos hheld.1) rfl rfl rfl rfl
      hown.2.2.2 ⟨hheld.1, hheld.2, hname⟩ (.inl ⟨_, rfl⟩) fun B => ?_
    exact Nat.lt_add_of_pos_left Nat.one_pos
  | setListen b =>
    obtain ⟨rfl, rfl⟩ := hlooks
    refine I.finish (.call .accept) (r := 0) hpc hown rfl rfl rfl rfl rfl
      (fun h => by cases h) ⟨hheld.1, rfl, hheld.2.2⟩ (.inl ⟨_, rfl⟩) fun B => ?_
    exact Nat.lt_add_of_pos_left Nat.one_pos
  | _ => exact hlooks.elim

end Looking

section Runs
variable {img : Image} {s t : State} {p : Pid} {a : Action} {answer : Answer} {l : List Addr}

theorem Inv.running (I : Inv img s l) (hpc : (s.sender p).pc.Running)
    (hok : Spares s (.main p answer)) : Advances img p answer s l := by
  cases h : (s.sender p).pc with
  | attach => exact I.attach h
  | find left => exact I.find h
  | call k => exact I.enter h
  | inside k place =>
    cases I.place p with
    | bare hserv hbare =>
      rw [h] at hbare
      exact hbare.elim
    | making place' hserv hinside hmade =>
      exact I.making hinside hserv hmade hok
    | owner a hown hheld hlooks => exact I.looking h hown hheld (hlooks k place h)
  | outside | returned | todo =>
    rw [h] at hpc
    exact hpc.elim

theorem running_of_main (h : main img p answer s = some t) : (s.sender p).pc.Running := by
  cases hpc : (s.sender p).pc with
  | outside => simp only [main, hpc, reduceCtorEq] at h
  | returned rc => simp only [main, hpc, reduceCtorEq] at h
  | todo => simp only [main, hpc, reduceCtorEq] at h
  | _ => trivial

theorem post_eq_some {a : Registry.Action String} (h : s.post a = some t) :
    ∃ r, Registry.step s.registry a = some r ∧ t = { s with registry := r } := by
  obtain ⟨r, hr, rfl⟩ := Option.map_eq_some_iff.mp h
  exact ⟨r, hr, rfl⟩

def Still (p : Pid) (s t : State) : Prop :=
  (s.sender p).pc ≠ .outside → t.sender p = s.sender p ∧ t.registry.pc p = s.registry.pc p

theorem Inv.service_frame (I : Inv img s l) (h : Send.service img s = some t) :
    t.memory = s.memory ∧ ∀ p, Still p s t := by
  obtain ⟨ipc, hipc, rfl⟩ := Option.map_eq_some_iff.mp h
  refine ⟨rfl, fun p hstarted => ⟨rfl, ?_⟩⟩
  have hserver := (I.fine p).server hstarted
  unfold Ipc.subcontextMain at hipc
  split at hipc
  · obtain ⟨r, hr, rfl⟩ := Option.map_eq_some_iff.mp hipc
    exact registry_frame hr hserver
  · cases hipc
  · obtain ⟨r, hr, rfl⟩ := Option.map_eq_some_iff.mp hipc
    exact registry_frame hr hserver
  · obtain ⟨r, hr, rfl⟩ := Option.map_eq_some_iff.mp hipc
    exact registry_frame hr hserver
  · obtain ⟨r, hr, rfl⟩ := Option.map_eq_some_iff.mp hipc
    exact registry_frame hr hserver
  · cases hipc

theorem Inv.step (I : Inv img s l) (hok : Spares s a) (h : Send.step img s a = some t) :
    ∃ l', Inv img t l' ∧ l <:+ l' ∧ s.memory.used ≤ t.memory.used ∧
      ∀ p, a.By p = false → Still p s t := by
  have hl := List.suffix_refl l
  cases a with
  | service =>
    obtain ⟨hmemory, hframe⟩ := I.service_frame h
    exact ⟨l, I.service h, hl, hmemory ▸ Nat.le_refl _, fun p _ => hframe p⟩
  | registry a =>
    simp only [Send.step] at h
    split at h
    · rename_i houtside
      obtain ⟨r, hr, rfl⟩ := post_eq_some h
      refine ⟨l, I.registry hr houtside.2 fun p name sym ha e hname => ?_, hl, Nat.le_refl _,
        fun p _ hstarted => ⟨rfl, registry_frame hr ?_⟩⟩
      · subst ha hname
        exact absurd (List.mem_map_of_mem (Ipc.mem_postings e)) hok
      · rintro rfl
        exact hstarted houtside.2
    · cases h
  | start p argc path stack =>
    simp only [Send.step] at h
    split at h
    · rename_i hstart
      obtain ⟨hserver, houtside, hidle, hpath⟩ := hstart
      obtain rfl := Option.some.inj h
      have hnew : ∀ pc : Pc, pc.Bare → ¬ pc.Calls → (∀ left, pc ≠ .find left) →
          Inv img (s.set p ⟨pc, path, stack, fun _ => 0, 0⟩) l := by
        intro pc hbare hcalls hfind
        have F : Fine img (s.registry.pc p) p ⟨pc, path, stack, fun _ => 0, 0⟩ :=
          ⟨fun _ => .inl rfl, fun h => absurd h hcalls, hpath, fun left h => absurd h (hfind left),
            fun _ => hserver, .inr (.inl hidle)⟩
        refine I.move I.posted (fun _ _ => rfl) F I.sound (.bare rfl hbare) (fun q _ => .refl _ _ _)
          fun a h => absurd h (not_owns rfl fun k place hpc => ?_)
        obtain rfl : pc = .inside k place := hpc
        exact hbare
      refine ⟨l, ?_, hl, Nat.le_refl _, fun q _ hstarted => ⟨set_of_ne s _ ?_, rfl⟩⟩
      · by_cases hargc : argc ≠ 2
        · rw [if_pos hargc]
          exact hnew _ (.inl rfl) (fun h => h) fun left h => by cases h
        · rw [if_neg hargc]
          exact hnew _ trivial (fun h => h) fun left h => by cases h
      · rintro rfl
        exact hstarted houtside
    · cases h
  | main p answer =>
    have h : main img p answer s = some t := h
    obtain ⟨t', l', ht, I', hl', hused, -, -, hframe⟩ := I.running (running_of_main h) hok
    obtain rfl := Option.some.inj (ht.symm.trans h)
    refine ⟨l', I', hl', hused, fun q hq _ => hframe q ?_⟩
    rintro rfl
    simp [Action.By] at hq

/-- However the others' steps fall between them, a process makes only so many steps of its own. -/
theorem Inv.steps {B : Nat} (I : Inv img s l) (hstarted : (s.sender p).pc ≠ .outside)
    {ls : List Action} (h : Trans.exec (Trans.guard Spares (Send.step img)) ls s = some t) :
    s.memory.used ≤ t.memory.used ∧ (t.memory.used ≤ B →
      ls.countP (Action.By p) ≤ (s.sender p).pc.rank B l (s.registry.pc p)) := by
  induction ls generalizing s l with
  | nil =>
    obtain rfl := Option.some.inj h
    exact ⟨Nat.le_refl _, fun _ => Nat.zero_le _⟩
  | cons a ls ih =>
    rw [Trans.exec_cons, Option.bind_eq_some_iff] at h
    obtain ⟨u, hu, ht⟩ := h
    unfold Trans.guard at hu
    split at hu
    · rename_i hok
      obtain ⟨l', I', hl, hused, hstill⟩ := I.step hok hu
      cases hby : a.By p with
      | false =>
        obtain ⟨hsender, hpc⟩ := hstill p hby hstarted
        obtain ⟨hgrow, hrest⟩ := ih I' (by rw [hsender]; exact hstarted) ht
        refine ⟨Nat.le_trans hused hgrow, fun hB => ?_⟩
        have hcount := hrest hB
        rw [hsender, hpc, (I.place p).rank_eq hl I'.sound.holds.nodup] at hcount
        rwa [List.countP_cons_of_neg (by simp [hby])]
      | true =>
        obtain ⟨answer, rfl⟩ : ∃ answer, a = .main p answer := by
          cases a with
          | main q answer =>
            obtain rfl : q = p := of_decide_eq_true hby
            exact ⟨answer, rfl⟩
          | _ => cases hby
        have hmain : main img p answer s = some u := hu
        obtain ⟨u', l'', hu', I'', -, -, hstarted', hrank, -⟩ :=
          I.running (running_of_main hmain) hok
        obtain rfl := Option.some.inj (hu'.symm.trans hmain)
        obtain ⟨hgrow, hrest⟩ := ih I'' hstarted' ht
        refine ⟨Nat.le_trans hused hgrow, fun hB => ?_⟩
        have hcount := hrest hB
        have hless := hrank B (Nat.le_trans hgrow hB)
        rw [List.countP_cons_of_pos hby]
        omega
    · cases hu

/-- Runs in which no two calls of `sc_ipc_socket` overlap and the socket counter does not overflow,
and in which no other process posts under the service's names. -/
def Run (img : Image) : State → Prop :=
  Trans.Reach State.init (Trans.Guarded Spares (Trans.ofFun (Send.step img)))

theorem Place.held {m : Memory} {c : Sender} (P : Place m l c) (hserv : c.serv ≠ 0) :
    ∃ a, Own m c a ∧ Held c (m.sock a) := by
  cases P with
  | bare hzero => exact absurd hzero hserv
  | making place hzero => exact absurd hzero hserv
  | owner a hown hheld => exact ⟨a, hown, hheld⟩

theorem Place.ends {m : Memory} {c : Sender} (P : Place m l c) :
    c.pc ≠ .todo ∧ ∀ rc, c.pc = .returned rc → rc = 1 ∨ rc = 2 ∨ rc = 3 := by
  cases P with
  | bare hserv hbare =>
    refine ⟨fun h => ?_, fun rc h => ?_⟩
    · rw [h] at hbare
      exact hbare
    · rw [h] at hbare
      exact hbare
  | making place hserv hinside =>
    rw [hinside]
    exact ⟨(fun h => by cases h), fun rc h => by cases h⟩
  | owner a hown hheld =>
    refine ⟨fun h => ?_, fun rc h => ?_⟩
    · simp only [Held, h] at hheld
    · simp only [Held, h] at hheld
      rcases hheld with ⟨-, rfl, -⟩ | ⟨-, rfl, -⟩
      · exact .inr (.inr rfl)
      · exact .inr (.inl rfl)

/-- Any number of `ipc_send` processes get a socket each, bring it to listen at their path without
disturbing each other, and are refused by `accept`: none gets a connection, and each returns after
a bounded number of its own steps, whatever the others and the service do meanwhile. -/
theorem ipc_send_returns (h : Run img s) :
    (∀ p, (s.sender p).pc ≠ .todo ∧
      ∀ rc, (s.sender p).pc = .returned rc → rc = 1 ∨ rc = 2 ∨ rc = 3) ∧
    (∃ l, s.memory.linked.Holds l ∧ ∀ p, (s.sender p).serv ≠ 0 →
      ∃ a ∈ l, (s.memory.sock a).sockNo = (s.sender p).serv ∧ Held (s.sender p) (s.memory.sock a) ∧
        ∀ b ∈ l, (s.memory.sock b).sockNo = (s.sender p).serv → b = a) ∧
    (∀ p q, (s.sender p).serv ≠ 0 → (s.sender p).serv = (s.sender q).serv → p = q) ∧
    (∀ p answer, (s.sender p).pc.Running → Spares s (.main p answer) →
      ∃ t, Send.step img s (.main p answer) = some t) ∧
    ∀ p ls t, (s.sender p).pc ≠ .outside →
      Trans.exec (Trans.guard Spares (Send.step img)) ls s = some t →
        ls.countP (Action.By p) ≤ 38 + 6 * t.memory.used := by
  obtain ⟨l, I⟩ : ∃ l, Inv img s l :=
    Trans.Reach.inv (I := fun s => ∃ l, Inv img s l) (fun _ h => ⟨[], .init h⟩)
      (fun _ _ _ ⟨_, I⟩ hst => let ⟨l', I', _⟩ := I.step hst.1 hst.2; ⟨l', I'⟩) h
  refine ⟨fun p => (I.place p).ends, ⟨l, I.sound.holds, fun p hserv => ?_⟩, fun p q hserv heq => ?_,
    fun p answer hpc hok => ?_, fun p ls t hstarted hls => ?_⟩
  · obtain ⟨a, hown, hheld⟩ := (I.place p).held hserv
    refine ⟨a, (I.sound.settled a hown.2.1 hown.2.2.2).1, hown.2.2.1, hheld, fun b hb hno => ?_⟩
    exact I.sound.distinct a hown.2.1 b (I.sound.lt_used b hb) hown.2.2.2
      (hno.trans hown.2.2.1.symm)
  · obtain ⟨a, hown, -⟩ := (I.place p).held hserv
    obtain ⟨b, hown', -⟩ := (I.place q).held (heq ▸ hserv)
    obtain rfl : b = a := I.sound.distinct a hown.2.1 b hown'.2.1 hown.2.2.2
      (hown'.2.2.1.trans (heq.symm.trans hown.2.2.1.symm))
    exact I.apart p q b (.inr hown) (.inr hown')
  · obtain ⟨t, l', ht, -⟩ := I.running hpc hok
    exact ⟨t, ht⟩
  · obtain ⟨hgrow, hcount⟩ := I.steps hstarted hls
    exact Nat.le_trans (hcount (Nat.le_refl _)) ((I.place p).rank_le
      (Nat.le_trans I.sound.length_le hgrow) _ (I.fine p).find)

def unused : State where
  registry := ⟨[], fun _ => .idle, []⟩
  left := postings
  memory := ⟨1, none, fun _ => ⟨none, 0, none, []⟩, 0⟩
  sender := fun _ => ⟨.outside, [], fun _ => 7, fun _ => 0, 0⟩

def inTurn : List Action :=
  List.replicate 28 .service ++
    [.start 2 2 [47, 115] fun _ => 7, .start 3 2 [47, 116] fun _ => 9] ++
    List.replicate 26 (.main 2 ⟨true, true⟩) ++
    List.replicate 16 (.main 3 ⟨true, true⟩) ++
    (List.replicate 19 [.main 2 ⟨true, true⟩, .main 3 ⟨true, true⟩]).flatten ++
    List.replicate 6 (.main 3 ⟨true, true⟩)

theorem ipc_send_returns_in_turn : ∃ s, Run Ipc.loaded s ∧
    (s.sender 2).pc = .returned 3 ∧ (s.sender 3).pc = .returned 3 ∧
    s.memory.sock 0 = ⟨none, 1, some .LISTEN, [47, 115]⟩ ∧
    s.memory.sock 1 = ⟨some 0, 2, some .LISTEN, [47, 116]⟩ ∧ ∀ p, (s.sender p).pc ≠ .todo := by
  have hrun : ((Trans.exec (Trans.guard Spares (Send.step Ipc.loaded)) inTurn unused).map fun s =>
      ((s.sender 2).pc, (s.sender 3).pc, s.memory.sock 0, s.memory.sock 1)) =
        some (.returned 3, .returned 3, ⟨none, 1, some .LISTEN, [47, 115]⟩,
          ⟨some 0, 2, some .LISTEN, [47, 116]⟩) := by decide +kernel
  obtain ⟨s, hs, hall⟩ := Option.map_eq_some_iff.mp hrun
  simp only [Prod.mk.injEq] at hall
  obtain ⟨htwo, hthree, hone', htwo'⟩ := hall
  have hr : Run Ipc.loaded s := .of_exec_guard
    (.init ⟨⟨rfl, fun _ => rfl, rfl⟩, rfl, rfl, rfl, rfl, fun _ => ⟨rfl, rfl, rfl, rfl⟩⟩) hs
  exact ⟨s, hr, htwo, hthree, hone', htwo', fun p => ((ipc_send_returns hr).1 p).1⟩

end Runs
end Subcontexts.Send
