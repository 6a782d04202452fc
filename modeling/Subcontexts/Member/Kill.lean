import Subcontexts.Member.Model

/-! The end of a process: what `sc_killLocalProc` does to the shared lists, which locks it leaves,
and that it does end the process. -/

namespace Subcontexts.Member
open Region Holding

def Dead (e : Halt) : Prop := e = .assertion ∨ ∃ code, e = .exit code

def CatchesUp (yields : List (Nat × Nat)) (flushPoint last : Nat) : Prop :=
  ∃ y ∈ (flushPoint, last) :: yields, y.2 ≤ y.1

def Walkable (procs : Addr → Prealloc.ScProcess) (cur : Option Addr) (fuel : Nat)
    (held : List (Lock × Mode)) : Prop :=
  ∃ l, Seg (fun a => (procs a).next) cur l none ∧ l.length < fuel ∧
    ∀ a ∈ l, Free held (.process a) .exclusive

/-- What `sc_killLocalProc` waits for does happen: the background thread works off the log, the
process list ends, and the allocator's lock is given back. -/
structure Mortal (fuel : Nat) (yields : List (Nat × Nat)) (p : Process) (x : ScLocal) : Prop where
  catchesUp : CatchesUp yields x.flushPoint p.lastSeqNum
  walk : ∃ l, (⟨p.procList, fun a => (p.procs a).next⟩ : Linked Addr).Holds l ∧ l.length < fuel
  heap : p.heap.lock = false

section Wait
variable {p : Process} {held : List (Lock × Mode)} {yields : List (Nat × Nat)}
  {flushPoint last : Nat}

theorem CatchesUp.tail {y : Nat × Nat} (h : CatchesUp (y :: yields) flushPoint last)
    (hlt : flushPoint < last) : CatchesUp yields y.1 y.2 := by
  obtain ⟨z, hz, hle⟩ := h
  rcases List.mem_cons.mp hz with rfl | hz
  · exact absurd hle (Nat.not_le_of_lt hlt)
  · exact ⟨z, hz, hle⟩

theorem flushWait_done (h : flushPoint = last) : flushWait yields flushPoint last = pure () := by
  cases yields with
  | nil => exact if_pos h
  | cons y yields => exact if_pos h

theorem flushWait_ahead (h : last < flushPoint) :
    (flushWait yields flushPoint last).exec ⟨p, held⟩ = (.error .assertion, ⟨p, held⟩) := by
  cases yields with
  | nil =>
    rw [flushWait, if_neg (Nat.ne_of_gt h), check_neg (Nat.not_lt_of_gt h)]
    rfl
  | cons y yields =>
    rw [flushWait, if_neg (Nat.ne_of_gt h), check_neg (Nat.not_lt_of_gt h)]
    rfl

theorem flushWait_ends (hroot : Free held .root .exclusive) :
    ∃ r held', (flushWait yields flushPoint last).exec ⟨p, (.root, .exclusive) :: held⟩ =
        (r, ⟨p, held'⟩) ∧
      (r = .ok () ∧ held' = (.root, .exclusive) :: held ∨ r = .error .assertion ∨
        r = .error .blocked ∧ ¬ CatchesUp yields flushPoint last) := by
  induction yields generalizing flushPoint last with
  | nil =>
    rcases Nat.lt_trichotomy flushPoint last with hlt | heq | hgt
    · refine ⟨.error .blocked, held, ?_, .inr (.inr ⟨rfl, ?_⟩)⟩
      · rw [flushWait, if_neg (Nat.ne_of_lt hlt), check_pos hlt, exec_call_ok_bind,
          exec_unlock_bind, List.erase_cons_head, exec_throw]
      · rintro ⟨y, hy, hle⟩
        obtain rfl := List.mem_singleton.mp hy
        exact absurd hle (Nat.not_le_of_lt hlt)
    · rw [flushWait_done heq]
      exact ⟨_, _, rfl, .inl ⟨rfl, rfl⟩⟩
    · exact ⟨_, _, flushWait_ahead hgt, .inr (.inl rfl)⟩
  | cons y yields ih =>
    rcases Nat.lt_trichotomy flushPoint last with hlt | heq | hgt
    · obtain ⟨r, held', hrun, hends⟩ := @ih y.1 y.2
      refine ⟨r, held', ?_, hends.imp_right (Or.imp_right ?_)⟩
      · rw [flushWait, if_neg (Nat.ne_of_lt hlt), check_pos hlt, exec_call_ok_bind,
          exec_unlock_bind, List.erase_cons_head, exec_bind_ok (exec_lock hroot)]
        exact hrun
      · exact And.imp_right fun hnot hcatch => hnot (hcatch.tail hlt)
    · rw [flushWait_done heq]
      exact ⟨_, _, rfl, .inl ⟨rfl, rfl⟩⟩
    · exact ⟨_, _, flushWait_ahead hgt, .inr (.inl rfl)⟩

end Wait

section Loop
variable {p : Process} {held : List (Lock × Mode)} {fuel myPid : Nat} {prevLock : Lock}
  {prevProc cur : Option Addr}

theorem Walkable.next {cur : Addr} {held' : List (Lock × Mode)}
    (h : Walkable p.procs (some cur) (fuel + 1) held)
    (hheld : ∀ a, a ≠ cur → Free held (.process a) .exclusive →
      Free held' (.process a) .exclusive) :
    Walkable p.procs (p.procs cur).next fuel held' := by
  obtain ⟨l, hl, hfuel, hfree⟩ := h
  cases l with
  | nil => cases hl
  | cons a rest =>
    have hne := List.nodup_cons.mp hl.nodup
    obtain ⟨hcur, hrest⟩ := hl
    obtain rfl := Option.some.inj hcur
    refine ⟨rest, hrest, Nat.lt_of_succ_lt_succ hfuel, fun b hb => ?_⟩
    apply hheld b
    · rintro rfl
      exact hne.1 hb
    · exact hfree b (List.mem_cons_of_mem _ hb)

theorem killLoop_ends :
    ∃ r u, (killLoop myPid fuel prevLock prevProc cur).exec ⟨p, (prevLock, .exclusive) :: held⟩ =
        (r, u) ∧ u.state.world = p.world ∧ u.state.heap = p.heap ∧
      ((∃ last found, r = .ok (last, found) ∧ u.held = (last, .exclusive) :: held) ∨
        ∃ e, r = .error e ∧ (∀ code, e ≠ .exit code) ∧
          ¬ Walkable p.procs cur fuel ((prevLock, .exclusive) :: held)) := by
  induction fuel generalizing prevLock prevProc cur with
  | zero =>
    refine ⟨.error .fuel, _, rfl, rfl, rfl, .inr ⟨.fuel, rfl, nofun, ?_⟩⟩
    rintro ⟨l, -, hfuel, -⟩
    exact absurd hfuel (Nat.not_lt_zero _)
  | succ fuel ih =>
    cases cur with
    | none => exact ⟨_, _, rfl, rfl, rfl, .inl ⟨prevLock, none, rfl, rfl⟩⟩
    | some cur =>
      rw [killLoop]
      by_cases hfree : Free ((prevLock, .exclusive) :: held) (.process cur) .exclusive
      · rw [exec_bind_ok (exec_lock hfree), exec_unlock_bind, erase_handed, exec_fetch_bind]
        by_cases hpid : (p.procs cur).pid = myPid
        · rw [if_pos hpid, exec_store_bind, exec_pure]
          cases prevProc with
          | none => exact ⟨_, _, rfl, rfl, rfl, .inl ⟨_, _, rfl, rfl⟩⟩
          | some prev => exact ⟨_, _, rfl, rfl, rfl, .inl ⟨_, _, rfl, rfl⟩⟩
        · rw [if_neg hpid]
          obtain ⟨r, u, hrun, hworld, hheap, hends⟩ := ih
          refine ⟨r, u, hrun, hworld, hheap, hends.imp_right ?_⟩
          rintro ⟨e, hr, hexit, hnot⟩
          refine ⟨e, hr, hexit, fun hwalk => hnot ?_⟩
          apply hwalk.next
          intro a hne hfree' m hmem
          rcases List.mem_cons.mp hmem with heq | hmem
          · cases (Prod.mk.inj heq).1
            exact hne rfl
          · exact hfree' m (List.mem_cons_of_mem _ hmem)
      · refine ⟨_, _, exec_bind_error (exec_lock_stuck hfree), rfl, rfl,
          .inr ⟨.blocked, rfl, nofun, ?_⟩⟩
        rintro ⟨l, hl, -, hall⟩
        cases l with
        | nil => cases hl
        | cons a rest =>
          obtain rfl := Option.some.inj hl.1
          exact hfree (hall _ (List.mem_cons_self ..))

end Loop

section Kill
variable {p : Process} {held : List (Lock × Mode)} {fuel : Nat} {yields : List (Nat × Nat)}
  {x : ScLocal}

def HoldsNeither (held : List (Lock × Mode)) : Prop :=
  ∀ y ∈ held, y.1 ≠ .root ∧ ∀ a, y.1 ≠ .process a

theorem HoldsNeither.root (h : HoldsNeither held) : Free held .root .exclusive :=
  fun _ hy => (h _ hy).1 rfl

theorem HoldsNeither.process (h : HoldsNeither held) (a : Addr) :
    Free held (.process a) .exclusive := fun _ hy => (h _ hy).2 a rfl

theorem HoldsNeither.walkable {l : List Addr} (h : HoldsNeither held)
    (hl : (⟨p.procList, fun a => (p.procs a).next⟩ : Linked Addr).Holds l)
    (hfuel : l.length < fuel) :
    Walkable p.procs p.procList fuel ((.root, .exclusive) :: held) := by
  refine ⟨l, hl, hfuel, fun a _ m hm => ?_⟩
  rcases List.mem_cons.mp hm with heq | hm
  · cases (Prod.mk.inj heq).1
  · exact h.process a m hm

theorem scFree_ends (buf : Addr) (heap : Alloc.Heap) :
    (∃ heap', Alloc.scFree buf heap = .ok heap') ∨
      ∃ e, Alloc.scFree buf heap = .error e ∧ (heap.lock = false → Dead e) := by
  unfold Alloc.scFree
  by_cases haligned : buf % 8 = 0
  · rw [check_pos haligned, ok_bind]
    dsimp only
    split
    · exact .inr ⟨.exit 3, rfl, fun _ => .inr ⟨3, rfl⟩⟩
    · cases hlock : heap.lock with
      | true => exact .inr ⟨.blocked, rfl, nofun⟩
      | false => exact .inl ⟨_, rfl⟩
  · rw [check_neg haligned]
    exact .inr ⟨.assertion, rfl, fun _ => .inl rfl⟩

theorem killLocal_ends (hheld : HoldsNeither held) :
    ∃ r u, (killLocal fuel yields x).exec ⟨p, held⟩ = (r, u) ∧
      u.state.world.space = p.world.space ∧ (r = .ok () → u.held = held) ∧
      (∀ code, r = .error (.exit code) → u.held = held) ∧
      (Mortal fuel yields p x → ∀ e, r = .error e → Dead e) := by
  unfold killLocal
  rw [exec_bind_ok (exec_lock hheld.root), exec_fetch_bind]
  dsimp only
  obtain ⟨r, held', hwait, hends⟩ :=
    @flushWait_ends p held yields x.flushPoint p.lastSeqNum hheld.root
  rcases hends with ⟨rfl, rfl⟩ | rfl | ⟨rfl, hnot⟩
  · rw [exec_bind_ok hwait, exec_store_bind]
    generalize hq : p.setSc _ = q
    have hqspace : q.world.space = p.world.space := hq ▸ rfl
    have hqheap : q.heap = p.heap := hq ▸ rfl
    have hqlist : q.procList = p.procList := hq ▸ rfl
    have hqprocs : q.procs = p.procs := hq ▸ rfl
    obtain ⟨r, u, hloop, hworld, hheap, hends⟩ :=
      @killLoop_ends q held fuel q.pid .root none q.procList
    have hspace : u.state.world.space = p.world.space := by rw [hworld, hqspace]
    rcases hends with ⟨last, found, rfl, hu⟩ | ⟨e, rfl, hexit, hnot⟩
    · rw [exec_bind_ok hloop, exec_unlock_bind, hu, List.erase_cons_head]
      cases found with
      | none => exact ⟨_, _, rfl, hspace, fun _ => rfl, nofun, nofun⟩
      | some curProc =>
        rw [exec_fetch_bind]
        rcases scFree_ends curProc u.state.heap with ⟨heap', hfree⟩ | ⟨e, hfree, hdead⟩
        · rw [hfree]
          exact ⟨_, _, rfl, hspace, fun _ => rfl, nofun, nofun⟩
        · rw [hfree]
          refine ⟨_, _, rfl, hspace, nofun, fun _ _ => rfl, fun M e' he' => ?_⟩
          obtain rfl := Except.error.inj he'
          apply hdead
          rw [hheap, hqheap]
          exact M.heap
    · rw [exec_bind_error hloop]
      refine ⟨_, _, rfl, hspace, nofun, fun code h => ?_, fun M => ?_⟩
      · exact absurd (Except.error.inj h) (hexit code)
      · obtain ⟨l, hl, hfuel⟩ := M.walk
        rw [hqlist, hqprocs] at hnot
        exact absurd (hheld.walkable hl hfuel) hnot
  · rw [exec_bind_error hwait]
    exact ⟨_, _, rfl, rfl, nofun, nofun, fun _ e he => .inl (Except.error.inj he).symm⟩
  · rw [exec_bind_error hwait]
    exact ⟨_, _, rfl, rfl, nofun, nofun, fun M => absurd M.catchesUp hnot⟩

theorem HoldsNeither.withList (h : HoldsNeither held) :
    HoldsNeither ((.localList, .shared) :: held) := by
  intro y hy
  rcases List.mem_cons.mp hy with rfl | hy
  · exact ⟨nofun, nofun⟩
  · exact h y hy

theorem scKillLocalProc_ends {α : Type} (hlocal : p.localList = [x]) (hheld : HoldsNeither held)
    (hfree : Free held .localList .shared) :
    ∃ e u, (scKillLocalProc fuel yields : Code α).exec ⟨p, held⟩ = (.error e, u) ∧
      u.state.world.space = p.world.space ∧
      (∀ code, e = .exit code → u.held = (.localList, .shared) :: held) ∧
      (Mortal fuel yields p x → Dead e) := by
  unfold scKillLocalProc
  rw [exec_bind_ok (exec_lock hfree), exec_fetch_bind]
  dsimp only
  rw [hlocal]
  obtain ⟨r, u, hkill, hspace, hok, hexit, hdead⟩ :=
    @killLocal_ends p _ fuel yields x hheld.withList
  cases r with
  | ok =>
    refine ⟨.exit (-1), u, exec_bind_ok hkill, hspace, fun _ _ => hok rfl, fun _ => ?_⟩
    exact .inr ⟨-1, rfl⟩
  | error e =>
    refine ⟨e, u, exec_bind_error hkill, hspace, fun code he => ?_, fun M => hdead M e rfl⟩
    exact hexit code (congrArg Except.error he)

end Kill
end Subcontexts.Member
