import Subcontexts.Member.Kill

/-! How the page-fault handler ends: with the region of the address mapped, or with the process. -/

namespace Subcontexts.Member
open Region Holding
variable {pg : PageSize} {granted : Bool} {yields : List (Nat × Nat)} {f : Fault} {fuel bound : Nat}
  {p : Process} {x : ScLocal} {l : List Addr} {cur : Option Addr} {prevLock : Lock}

def Process.At (p : Process) (f : Fault) (a : Addr) : Prop :=
  holds (p.world.sc.mem a).toExtent f.vaddr

def Process.Grants (pg : PageSize) (granted : Bool) (p : Process) (f : Fault) (a : Addr) : Prop :=
  ¬ Refused (p.world.sc.mem a).toExtent f ∧
    fileRange pg granted (p.world.sc.mem a).vaddr (p.world.sc.mem a).len
      (p.world.sc.mem a).tmpfileOffset

def Process.serve (p : Process) (a : Addr) : Process :=
  { p with
    world :=
      p.world.mapFixed (p.world.sc.mem a).vaddr (p.world.sc.mem a).len
        (.file (p.world.sc.mem a).prot (p.world.sc.mem a).tmpfileOffset) }

/-- The process has ended, or does so if nothing holds up `sc_killLocalProc`; where it exits, it
holds `locks`, and perhaps the lock on its own list. -/
structure Ended (fuel : Nat) (yields : List (Nat × Nat)) (p : Process) (x : ScLocal)
    (locks : List (Lock × Mode)) (e : Halt) (u : Thread Process Lock) : Prop where
  space : u.state.world.space = p.world.space
  held : ∀ code, e = .exit code → u.held = locks ∨ u.held = (.localList, .shared) :: locks
  dead : Mortal fuel yields p x → Dead e

theorem Ended.forget {locks : List (Lock × Mode)} {e : Halt} {u : Thread Process Lock} {v : Nat}
    (h : Ended fuel yields { p with prevVaddr := v } x locks e u) :
    Ended fuel yields p x locks e u :=
  ⟨h.space, h.held, fun M => h.dead ⟨M.catchesUp, M.walk, M.heap⟩⟩

theorem scKillLocalProc_ended {α : Type} {locks : List (Lock × Mode)} (hlocal : p.localList = [x])
    (hheld : HoldsNeither locks) (hfree : Free locks .localList .shared) :
    ∃ e u, (scKillLocalProc fuel yields : Code α).exec ⟨p, locks⟩ = (.error e, u) ∧
      Ended fuel yields p x locks e u := by
  obtain ⟨e, u, hrun, hspace, hexit, hdead⟩ := scKillLocalProc_ends hlocal hheld hfree
  exact ⟨e, u, hrun, hspace, fun code he => .inr (hexit code he), hdead⟩

section Walk

inductive WalkEnd (pg : PageSize) (granted : Bool) (yields : List (Nat × Nat)) (f : Fault)
    (bound fuel : Nat) (p : Process) (x : ScLocal) (l : List Addr) :
    Except Halt (Lock × Option Addr) × Thread Process Lock → Prop where
  | fuel {u} (hfuel : fuel ≤ l.length) :
    WalkEnd pg granted yields f bound fuel p x l (.error .fuel, u)
  | missed (last) (hmiss : ∀ a ∈ l, ¬ p.At f a) :
    WalkEnd pg granted yields f bound fuel p x l
      (.ok (last, none), ⟨p, [(last, .sharedRecursive)]⟩)
  | mapped (a) (ha : a ∈ l) (hat : p.At f a) (hgrants : p.Grants pg granted f a) :
    WalkEnd pg granted yields f bound fuel p x l
      (.ok (.region a, some a), ⟨p.serve a, [(.region a, .sharedRecursive)]⟩)
  | died (a) {e u} (ha : a ∈ l) (hat : p.At f a) (hdenied : ¬ p.Grants pg granted f a)
    (hended : Ended bound yields p x [(.region a, .sharedRecursive)] e u) :
    WalkEnd pg granted yields f bound fuel p x l (.error e, u)

theorem WalkEnd.cons {b : Addr} {r} (h : WalkEnd pg granted yields f bound fuel p x l r)
    (hb : ¬ p.At f b) : WalkEnd pg granted yields f bound (fuel + 1) p x (b :: l) r := by
  cases h with
  | fuel hfuel => exact .fuel (Nat.succ_le_succ hfuel)
  | missed last hmiss => exact .missed last (List.forall_mem_cons.mpr ⟨hb, hmiss⟩)
  | mapped a ha hat hgrants => exact .mapped a (List.mem_cons_of_mem _ ha) hat hgrants
  | died a ha hat hdenied hended => exact .died a (List.mem_cons_of_mem _ ha) hat hdenied hended

theorem not_exclusive (y z : Lock) : (z, Mode.exclusive) ∉ [(y, Mode.sharedRecursive)] := by
  intro hmem
  cases List.mem_singleton.mp hmem

theorem free_region (a : Addr) :
    Free [(prevLock, Mode.sharedRecursive)] (.region a) .sharedRecursive :=
  not_exclusive prevLock (.region a)

theorem holdsNeither_region (a : Addr) : HoldsNeither [(.region a, .sharedRecursive)] := by
  intro y hy
  obtain rfl := List.mem_singleton.mp hy
  exact ⟨nofun, nofun⟩

theorem segvLoop_at {a : Addr} (hlocal : p.localList = [x])
    (hsane : f.isWrite = false ∨ f.isInstr = false) (ha : a ∈ l) (hat : p.At f a) :
    WalkEnd pg granted yields f bound (fuel + 1) p x l
      ((segvLoop pg granted yields f bound (fuel + 1) prevLock (some a)).exec
        ⟨p, [(prevLock, .sharedRecursive)]⟩) := by
  rw [segvLoop, exec_bind_ok (exec_lock (free_region a)), exec_unlock_bind, erase_handed,
    exec_fetch_bind]
  dsimp only
  have hholds : holds (p.world.sc.mem a).toExtent f.vaddr := hat
  rw [if_pos hholds, check_pos hsane, exec_call_ok_bind]
  by_cases hrefused : Refused (p.world.sc.mem a).toExtent f
  · rw [if_pos hrefused]
    obtain ⟨e, u, hkill, hended⟩ :=
      @scKillLocalProc_ended yields bound p x (Lock × Option Addr) _ hlocal (holdsNeither_region a)
        (not_exclusive _ _)
    rw [hkill]
    exact .died a ha hat (fun hgrants => hgrants.1 hrefused) hended
  rw [if_neg hrefused]
  split
  · rename_i hrange
    apply WalkEnd.died a ha hat
    · exact fun hgrants => hrange hgrants.2
    · exact ⟨rfl, fun _ _ => .inl rfl, fun _ => .inr ⟨3, rfl⟩⟩
  · rename_i hrange
    exact .mapped a ha hat ⟨hrefused, Decidable.of_not_not hrange⟩

theorem segvLoop_ends (hlocal : p.localList = [x]) (hsane : f.isWrite = false ∨ f.isInstr = false)
    (hl : Seg (fun a => (p.world.sc.mem a).next) cur l none) :
    WalkEnd pg granted yields f bound fuel p x l
      ((segvLoop pg granted yields f bound fuel prevLock cur).exec
        ⟨p, [(prevLock, .sharedRecursive)]⟩) := by
  induction l generalizing cur fuel prevLock with
  | nil =>
    obtain rfl := hl
    cases fuel with
    | zero => exact .fuel (Nat.zero_le _)
    | succ fuel => exact .missed prevLock nofun
  | cons a rest ih =>
    obtain ⟨rfl, hrest⟩ := hl
    cases fuel with
    | zero => exact .fuel (Nat.zero_le _)
    | succ fuel =>
      by_cases hat : p.At f a
      · exact segvLoop_at hlocal hsane (List.mem_cons_self ..) hat
      · apply WalkEnd.cons _ hat
        rw [segvLoop, exec_bind_ok (exec_lock (free_region a)), exec_unlock_bind,
          erase_handed, exec_fetch_bind]
        dsimp only
        have hholds : ¬ holds (p.world.sc.mem a).toExtent f.vaddr := hat
        rw [if_neg hholds]
        exact ih hrest

end Walk

section Handler

theorem Fault.Plausible.sane (h : f.Plausible) : f.isWrite = false ∨ f.isInstr = false := by
  obtain ⟨-, -, -, -, hboth⟩ := h
  cases hw : f.isWrite with
  | false => exact .inl rfl
  | true =>
    cases hi : f.isInstr with
    | false => exact .inr rfl
    | true => exact absurd ⟨hw, hi⟩ hboth

inductive HandlerEnd (pg : PageSize) (granted : Bool) (yields : List (Nat × Nat)) (f : Fault)
    (fuel : Nat) (p : Process) (x : ScLocal) (l : List Addr) :
    Except Halt Unit × Thread Process Lock → Prop where
  | fuel {u} (hfuel : fuel ≤ l.length) :
    HandlerEnd pg granted yields f fuel p x l (.error .fuel, u)
  | outside {e u} (hmiss : ∀ a ∈ l, ¬ p.At f a) (hended : Ended fuel yields p x [] e u) :
    HandlerEnd pg granted yields f fuel p x l (.error e, u)
  | died (a) {e u} (ha : a ∈ l) (hat : p.At f a) (hdenied : ¬ p.Grants pg granted f a)
    (hended : Ended fuel yields p x [(.region a, .sharedRecursive)] e u) :
    HandlerEnd pg granted yields f fuel p x l (.error e, u)
  | served (a) (ha : a ∈ l) (hat : p.At f a) (hgrants : p.Grants pg granted f a) :
    HandlerEnd pg granted yields f fuel p x l (.ok (), ⟨{ p.serve a with prevVaddr := 0 }, []⟩)

theorem scSignalHandlerSegv_ends (hlocal : p.localList = [x]) (hlooks : f.Plausible)
    (hprev : f.vaddr ≠ p.prevVaddr) (hl : (p.world.sc.links p.world.sc.activeRegions).Holds l) :
    HandlerEnd pg granted yields f fuel p x l
      ((scSignalHandlerSegv pg granted yields f fuel).exec ⟨p, []⟩) := by
  have hsane := hlooks.sane
  obtain ⟨hnull, hcode, hbits, huser, hboth⟩ := hlooks
  have hinsane :
      ¬ (f.neverSetBits ≠ 0 ∨ f.isUser = false ∨ f.isWrite = true ∧ f.isInstr = true) := by
    rintro (h | h | h)
    · exact h hbits
    · cases huser.symm.trans h
    · exact hboth h
  unfold scSignalHandlerSegv
  rw [if_neg hnull, hcode, if_neg nofun, if_neg nofun, if_neg hinsane, exec_fetch_bind,
    if_neg hprev, exec_store_bind]
  dsimp only
  generalize hq : ({ p with prevVaddr := f.vaddr } : Process) = q
  have hqlocal : q.localList = [x] := hq ▸ hlocal
  have hql : (q.world.sc.links q.world.sc.activeRegions).Holds l := hq ▸ hl
  unfold segvSearch
  rw [exec_bind_ok (exec_lock (free_nil _ _)), exec_fetch_bind]
  dsimp only
  rw [hqlocal]
  dsimp only
  rw [exec_unlock_bind, List.erase_cons_head, exec_bind_ok (exec_lock (free_nil _ _))]
  dsimp only
  have hwalk := @segvLoop_ends pg granted yields f fuel fuel q x l q.world.sc.activeRegions .root
    hqlocal hsane hql
  generalize hrun : (segvLoop pg granted yields f fuel fuel .root q.world.sc.activeRegions).exec
    ⟨q, [(.root, .sharedRecursive)]⟩ = r at hwalk
  cases hwalk with
  | fuel hfuel =>
    rw [exec_bind_error hrun]
    exact .fuel hfuel
  | missed last hmiss =>
    rw [exec_bind_ok hrun, exec_unlock_bind, List.erase_cons_head]
    obtain ⟨e, u, hkill, hended⟩ :=
      @scKillLocalProc_ended yields fuel q x Unit [] hqlocal nofun (free_nil _ _)
    rw [hkill]
    subst hq
    exact .outside hmiss hended.forget
  | mapped a ha hat hgrants =>
    rw [exec_bind_ok hrun, exec_unlock_bind, List.erase_cons_head]
    subst hq
    exact .served a ha hat hgrants
  | died a ha hat hdenied hended =>
    rw [exec_bind_error hrun]
    subst hq
    exact .died a ha hat hdenied hended.forget

end Handler

section Exit
variable {code : Int} {t : Thread Process Lock}

/-- A thread that dies in the walk takes the lock of the region with it. -/
theorem fault_exit_unlocked_iff (hlocal : p.localList = [x]) (hlooks : f.Plausible)
    (hprev : f.vaddr ≠ p.prevVaddr) (hl : (p.world.sc.links p.world.sc.activeRegions).Holds l)
    (hrun : (scSignalHandlerSegv pg granted yields f fuel).exec ⟨p, []⟩ =
      (.error (.exit code), t)) :
    (∀ y ∈ t.held, y.1 = .localList) ↔ ∀ a ∈ l, ¬ p.At f a := by
  have hend := @scSignalHandlerSegv_ends pg granted yields f fuel p x l hlocal hlooks hprev hl
  rw [hrun] at hend
  cases hend with
  | outside hmiss hended =>
    apply iff_of_true _ hmiss
    rcases hended.held code rfl with hheld | hheld
    · rw [hheld]
      nofun
    · rw [hheld]
      intro y hy
      obtain rfl := List.mem_singleton.mp hy
      rfl
  | died a ha hat hdenied hended =>
    apply iff_of_false
    · intro hall
      have hregion : (Lock.region a, Mode.sharedRecursive) ∈ t.held := by
        rcases hended.held code rfl with hheld | hheld
        · rw [hheld]
          exact List.mem_cons_self ..
        · rw [hheld]
          exact List.mem_cons_of_mem _ (List.mem_cons_self ..)
      cases hall _ hregion
    · exact fun hmiss => hmiss a ha hat

end Exit

section Run

def soleMember : Process where
  world := initWorld firstPage4096 0x100000 emptyWorld
  magic := true
  preallocProc := none
  procList := some 0x100028
  procs := fun _ => ⟨none, .alive, 1⟩
  pendingReservation := none
  lastSeqNum := 0
  heap :=
    { mem := Alloc.store (Alloc.store (Alloc.store (fun _ => 0) 0x100018 72) 0x100020 Alloc.headMagic)
        0x100058 Alloc.footMagic
      freeList := 0
      lock := false }
  pid := 1
  localList := [⟨0x10000, 0⟩]
  prevVaddr := 0

theorem soleMember_regions :
    (soleMember.world.sc.links soleMember.world.sc.activeRegions).Holds [0x10100] := ⟨rfl, rfl⟩

/-- A read of an address that belongs to no region. -/
theorem fault_exit_unlocked_outside : ∃ t : Thread Process Lock,
    ((scSignalHandlerSegv page4096 true [] ⟨0x5000, .accErr, 4⟩ 5).exec ⟨soleMember, []⟩ =
      (.error (.exit (-1)), t)) ∧ ∀ y ∈ t.held, y.1 = .localList := by
  obtain ⟨t, hrun⟩ : ∃ t,
      (scSignalHandlerSegv page4096 true [] ⟨0x5000, .accErr, 4⟩ 5).exec ⟨soleMember, []⟩ =
        (.error (.exit (-1)), t) := ⟨_, rfl⟩
  refine ⟨t, hrun, ?_⟩
  apply (fault_exit_unlocked_iff rfl (by decide) (by decide) soleMember_regions
    hrun).mpr
  intro a ha hat
  obtain rfl := List.mem_singleton.mp ha
  exact absurd hat.1 (by decide)

/-- The kernel refuses the map that would answer a read, and the page is no code. -/
theorem fault_exit_keeps_region_lock :
    (∃ t : Thread Process Lock,
      (scSignalHandlerSegv page4096 false [] ⟨0x10008, .accErr, 4⟩ 5).exec ⟨soleMember, []⟩ =
        (.error (.exit 3), t) ∧ (.region 0x10100, .sharedRecursive) ∈ t.held) ∧
    ∃ t : Thread Process Lock,
      (scSignalHandlerSegv page4096 true [] ⟨0x10008, .accErr, 20⟩ 5).exec ⟨soleMember, []⟩ =
        (.error (.exit (-1)), t) ∧ (.region 0x10100, .sharedRecursive) ∈ t.held :=
  ⟨⟨_, rfl, by decide⟩, _, rfl, by decide⟩

end Run
end Subcontexts.Member
