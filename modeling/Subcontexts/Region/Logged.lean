import Subcontexts.Log.Sections
import Subcontexts.Region.Added

/-! The cleanup log over the region lists. The log of `Log.step` has its reservations as ranges and
counts the free structs; here each range is that of a region struct, and every step of the log is a
step of the root struct or does not concern it. -/

namespace Subcontexts.Region
variable {pg : PageSize}

def Sc.rangeOf (s : Sc) (a : Addr) : Log.Region := ⟨(s.extent a).vaddr, (s.extent a).len⟩

def entries (s : Log.State) : List ReserveMemory :=
  s.cleanupLog.toList.map fun a => ⟨(s.steps a).vaddr, (s.steps a).len⟩

/-- The log's state is that of the root struct; reservations are ahead of what was reserved before. -/
structure Logged (fp : FirstPage pg) (r : Root) (s : Log.State) (l f v : List Addr) : Prop where
  homed : Homed fp r l f v
  unlocked : r.world.sc.lock = false
  count : r.world.sc.procCount = s.procCount
  free : f.length = s.freeStructs
  pending : r.pendingReservation.map r.world.sc.rangeOf = s.pendingReservation
  reserved : s.reservedRegions <+: v.map r.world.sc.rangeOf
  log : r.log = entries s

/-- What a step of the log asks of the root struct. -/
def rootEvent (s : Log.State) : Log.Action → Option RootEvent
  | .post _ pages newStep range => some (.post ⟨true, newStep.isSome, range⟩ pages)
  | .clean _ => some .complete
  | .join _ => some (.count (s.procCount + 1))
  | .remove _ | .depart _ => some (.count (s.procCount - 1))
  | .look _ | .ack _ _ | .lockRoot _ | .exit _ => none

def Root.locked (r : Root) : Root :=
  { r with world := { r.world with sc := { r.world.sc with lock := true } } }

section Steps
variable {fp : FirstPage pg} {r : Root} {s t : Log.State} {l f v : List Addr}

/-- A step of the log that leaves the fields of the root struct. -/
theorem Logged.keep (K : Logged fp r s l f v) (hcount : t.procCount = s.procCount)
    (hfree : t.freeStructs = s.freeStructs) (hpending : t.pendingReservation = s.pendingReservation)
    (hreserved : t.reservedRegions = s.reservedRegions) (hlog : entries t = entries s) :
    Logged fp r t l f v :=
  ⟨K.homed, K.unlocked, K.count.trans hcount.symm, K.free.trans hfree.symm,
    K.pending.trans hpending.symm, hreserved ▸ K.reserved, K.log.trans hlog.symm⟩

theorem Logged.recount (K : Logged fp r s l f v) {n : Nat} (hcount : t.procCount = n)
    (hfree : t.freeStructs = s.freeStructs) (hpending : t.pendingReservation = s.pendingReservation)
    (hreserved : t.reservedRegions = s.reservedRegions) (hlog : entries t = entries s) :
    ∃ u, (RootEvent.count n).step fp r u ∧ Logged fp u t l f v :=
  ⟨_, ⟨K.unlocked, rfl⟩, K.homed.count n, K.unlocked, hcount.symm, K.free.trans hfree.symm,
    K.pending.trans hpending.symm, hreserved ▸ K.reserved, K.log.trans hlog.symm⟩

theorem entries_update {a : Addr} {step : Log.CleanupLogStep}
    (hsteps : t.steps = Function.update s.steps a step) (hv : step.vaddr = (s.steps a).vaddr)
    (hl : step.len = (s.steps a).len) (hlog : t.cleanupLog = s.cleanupLog) :
    entries t = entries s := by
  unfold entries
  rw [hlog, hsteps]
  refine List.map_congr_left fun b _ => ?_
  by_cases hb : b = a
  · subst b
    rw [Function.update_self, hv, hl]
  · rw [Function.update_of_ne hb]

theorem entries_of_none (h : s.cleanupLog = none) : entries s = [] := by
  unfold entries
  rw [h]
  rfl

theorem entries_posted {p : Log.Pid} {a : Log.Addr} {x : Log.Region} :
    entries (Log.posted s p a x) = [⟨x.vaddr, x.len⟩] := by
  have hself : (Log.posted s p a x).steps a = ⟨none, s.lastSeqNum + 1, none, s.procCount, 1,
    .reserveMemory, x.vaddr, x.len⟩ := Function.update_self ..
  show [ReserveMemory.mk ((Log.posted s p a x).steps a).vaddr ((Log.posted s p a x).steps a).len] = _
  rw [hself]

theorem Homed.unlock (K : Homed fp r l f v) : Homed fp r.unlock l f v :=
  ⟨K.table.relock false, K.two, K.pending⟩

theorem Logged.lockRoot (K : Logged fp r s l f v) : r.world.lockRoot = .ok r.locked.world := by
  unfold World.lockRoot
  rw [K.unlocked]
  rfl

theorem Logged.pending_none (K : Logged fp r s l f v) (h : s.pendingReservation = none) :
    r.pendingReservation = none :=
  Option.map_eq_none_iff.mp (K.pending.trans h)

/-- A post that finds what it needs takes the first free struct. -/
theorem Logged.exec_post (K : Logged fp r s l f v) (hpending : s.pendingReservation = none)
    {pages : Nat} (hpages : 0 < pages) (hproc : 1 < s.procCount) (hfree : 1 < s.freeStructs) :
    ∃ reg sc, sc.procCount = r.world.sc.procCount ∧
      (∀ range, scPostNewReservation pg ⟨true, false, range⟩ r.locked pages =
        .ok (2, { r with world := { r.world with sc := sc } })) ∧
      ∀ base, scPostNewReservation pg ⟨true, true, some base⟩ r.locked pages = .ok (0, {
        world := { r.world with sc := { sc.setRegion reg
          ⟨⟨base, u64 (pages * pg.bytes), protNone, noOffset⟩, none, false⟩ with
            cleanupLog := true } }
        pendingReservation := some reg
        log := r.log ++ [⟨base, u64 (pages * pg.bytes)⟩] }) := by
  have T : Table fp r.locked.world.sc l f v := K.homed.table.relock true
  have hlocked : r.locked.world.sc.lock = true := rfl
  have hnone : r.locked.pendingReservation = none := K.pending_none hpending
  have hmore : 1 < r.locked.world.sc.procCount := K.count.symm ▸ hproc
  obtain ⟨reg, sc, hreg⟩ := scGetFreeRegion_some T.lists rfl (by rw [K.free]; omega)
  obtain ⟨_, _, -, -, taken, -⟩ := T.getFree hreg
  refine ⟨reg, sc, taken.procCount, fun range => ?_, fun base => ?_⟩ <;>
    unfold scPostNewReservation <;>
    rw [check_pos hlocked, ok_bind, check_pos hnone, ok_bind, check_pos hpages, ok_bind,
      check_pos hmore, ok_bind, haltIf_neg Bool.noConfusion, ok_bind, hreg, ok_bind] <;> rfl

/-- What is left of the lists once a post has taken the struct `reg`. -/
theorem Logged.took (K : Logged fp r s l f v) {u : Root} {reg : Addr} {f' : List Addr}
    (Q : Took fp r.locked u l f' v reg) (hf : f = reg :: f')
    (hpending : u.pendingReservation = none ∨ u.pendingReservation = some reg) :
    Homed fp u.unlock l f' v ∧ f'.length = s.freeStructs - 1 ∧
      s.reservedRegions <+: v.map u.unlock.world.sc.rangeOf := by
  refine ⟨((K.homed.lock K.lockRoot).took Q hpending).unlock, ?_, ?_⟩
  · rw [← K.free, hf, List.length_cons, Nat.add_sub_cancel]
  · have hsame : v.map u.unlock.world.sc.rangeOf = v.map r.world.sc.rangeOf := by
      refine List.map_congr_left fun a ha => ?_
      have hext : u.world.sc.extent a = r.world.sc.extent a :=
        Q.others a fun h => Q.off.2.2 (h ▸ ha)
      show Log.Region.mk (u.world.sc.extent a).vaddr (u.world.sc.extent a).len = _
      rw [hext]
      rfl
    rw [hsame]
    exact K.reserved

theorem Logged.post (K : Logged fp r s l f v) (S : Log.Single s) {p : Log.Pid} {pages : Nat}
    {newStep : Option Log.Addr} {range : Option Nat}
    (h : Log.step pg s (.post p pages newStep range) = .ok t) :
    ∃ u f', (RootEvent.post ⟨true, newStep.isSome, range⟩ pages).step fp r u ∧
      Logged fp u t l f' v := by
  obtain ⟨-, -, hlog, hpages, hproc, -, hfree, hend⟩ := Log.post_ends S h
  have hpending := S.outstanding.mp hlog
  have hnone := K.pending_none hpending
  have T := (K.homed.lock K.lockRoot).table
  obtain ⟨reg, sc, hcount, hshort, hlong⟩ := K.exec_post hpending hpages hproc hfree
  rcases hend with ⟨rfl, rfl⟩ | ⟨a, base, rfl, rfl, rfl⟩
  · obtain ⟨reg', f', hf, Q, -⟩ := scPostNewReservation_spec T (hshort range)
    obtain ⟨H, hlength, hreserved⟩ := K.took Q hf (.inl hnone)
    exact ⟨_, f', ⟨_, 2, _, K.lockRoot, hshort range, rfl⟩, H, rfl, hcount.trans K.count, hlength,
      (congrArg (Option.map _) hnone).trans hpending.symm, hreserved, K.log⟩
  · obtain ⟨reg', f', hf, Q, hend⟩ := scPostNewReservation_spec T (hlong base)
    rcases hend with ⟨h, -⟩ | ⟨-, -, hsome, -⟩
    · cases h
    obtain rfl := Option.some.inj hsome
    obtain ⟨H, hlength, hreserved⟩ := K.took Q hf (.inr rfl)
    refine ⟨_, f', ⟨_, 0, _, K.lockRoot, hlong base, rfl⟩, H, rfl, hcount.trans K.count, hlength, ?_,
      hreserved, ?_⟩
    · have hext := congrArg ScRegion.toExtent (mem_setRegion_self sc reg
        ⟨⟨base, u64 (pages * pg.bytes), protNone, noOffset⟩, none, false⟩)
      exact congrArg (fun e => some (Log.Region.mk e.vaddr e.len)) hext
    · rw [entries_posted]
      have hnil : r.log = [] := K.log.trans (entries_of_none hlog)
      exact congrArg (· ++ [ReserveMemory.mk base (u64 (pages * pg.bytes))]) hnil

theorem Logged.clean (K : Logged fp r s l f v) (S : Log.Single s) {p : Log.Pid}
    (h : Log.step pg s (.clean p) = .ok t) :
    ∃ u a, RootEvent.complete.step fp r u ∧ Logged fp u t l f (a :: v) := by
  obtain ⟨a, x, -, hlog, -, hpending, hlen, rfl⟩ := Log.clean_ends S h
  obtain ⟨reg, hreg, hrange⟩ := Option.map_eq_some_iff.mp (K.pending.trans hpending)
  have hfirst : r.log = [⟨x.vaddr, x.len⟩] := by
    have hx := Option.some.inj (hpending.symm.trans (S.pending a hlog).2)
    rw [K.log, hx]
    unfold entries
    rw [hlog]
    rfl
  have hcleanup : cleanup r.locked = .ok {
      world := { r.world with sc := { r.locked.world.sc.setNext reg r.world.sc.reservedRegions with
        reservedRegions := some reg, cleanupLog := false } }
      pendingReservation := none
      log := [] } := by
    have hv : (r.world.sc.mem reg).vaddr = x.vaddr := congrArg Log.Region.vaddr hrange
    have hl : (r.world.sc.mem reg).len = x.len := congrArg Log.Region.len hrange
    unfold cleanup Root.locked
    rw [hfirst, hreg]
    dsimp only
    rw [check_pos hv, ok_bind, haltIf_neg (by rw [hl]; exact hlen), ok_bind, check_pos hl, ok_bind]
    rfl
  have H := K.homed.lock K.lockRoot
  obtain ⟨reg', hreg', -, T, -, hext⟩ := cleanup_spec H hcleanup
  obtain rfl := Option.some.inj (hreg.symm.trans hreg')
  refine ⟨_, reg, ⟨_, _, K.lockRoot, hcleanup, rfl⟩, (H.complete T rfl).unlock, rfl, K.count, K.free,
    rfl, ?_, rfl⟩
  obtain ⟨rest, hrest⟩ := K.reserved
  have hmap : (reg :: v).map r.world.sc.rangeOf = x :: v.map r.world.sc.rangeOf := by
    rw [List.map_cons, hrange]
  exact ⟨rest, (congrArg (x :: ·) hrest).trans (hmap.symm.trans (List.map_congr_left fun b _ =>
    congrArg (fun e => Log.Region.mk e.vaddr e.len) (hext b).symm))⟩

/-- A step of the log is the step of the root struct that it asks for. -/
theorem Logged.step (K : Logged fp r s l f v) (S : Log.Single s) {act : Log.Action}
    (h : Log.step pg s act = .ok t) :
    (∀ e, rootEvent s act = some e → ∃ u l' f' v', e.step fp r u ∧ Logged fp u t l' f' v') ∧
      (rootEvent s act = none → Logged fp r t l f v) := by
  cases act with
  | post p pages newStep range =>
    obtain ⟨u, f', hstep, K'⟩ := K.post S h
    refine ⟨fun e he => ?_, fun he => by cases he⟩
    obtain rfl := Option.some.inj he
    exact ⟨u, l, f', v, hstep, K'⟩
  | clean p =>
    obtain ⟨u, a, hstep, K'⟩ := K.clean S h
    refine ⟨fun e he => ?_, fun he => by cases he⟩
    obtain rfl := Option.some.inj he
    exact ⟨u, l, f, a :: v, hstep, K'⟩
  | join p =>
    obtain ⟨-, -, -, rfl⟩ := Log.join_spec h
    refine ⟨fun e he => ?_, fun he => by cases he⟩
    obtain rfl := Option.some.inj he
    obtain ⟨u, hstep, K'⟩ := K.recount (t := Log.joined s p) rfl rfl rfl rfl rfl
    exact ⟨u, l, f, v, hstep, K'⟩
  | remove p =>
    obtain ⟨-, -, -, rfl⟩ := Log.remove_spec h
    refine ⟨fun e he => ?_, fun he => by cases he⟩
    obtain rfl := Option.some.inj he
    obtain ⟨u, hstep, K'⟩ := K.recount (t := Log.removed s p) rfl rfl rfl rfl rfl
    exact ⟨u, l, f, v, hstep, K'⟩
  | depart p =>
    obtain ⟨-, -, -, rfl⟩ := Log.depart_spec h
    refine ⟨fun e he => ?_, fun he => by cases he⟩
    obtain rfl := Option.some.inj he
    obtain ⟨u, hstep, K'⟩ := K.recount (t := Log.exit (Log.removed s p) p) rfl rfl rfl rfl rfl
    exact ⟨u, l, f, v, hstep, K'⟩
  | look p =>
    refine ⟨(fun e he => by cases he), fun _ => ?_⟩
    obtain ⟨-, -, -, rfl | ⟨a, -, -, -, rfl⟩⟩ := Log.look_spec S h
    · exact K
    · exact K.keep rfl rfl rfl rfl (entries_update rfl rfl rfl rfl)
  | ack p mapped =>
    refine ⟨(fun e he => by cases he), fun _ => ?_⟩
    obtain ⟨a, rr, -, -, -, -, -, rfl⟩ := Log.ack_spec S h
    exact K.keep rfl rfl rfl rfl (entries_update rfl rfl rfl rfl)
  | lockRoot p =>
    refine ⟨(fun e he => by cases he), fun _ => ?_⟩
    obtain ⟨a, -, -, -, -, -, rfl⟩ := Log.lockRoot_spec h
    exact K.keep rfl rfl rfl rfl (entries_update rfl rfl rfl rfl)
  | exit p =>
    refine ⟨(fun e he => by cases he), fun _ => ?_⟩
    obtain ⟨-, -, rfl⟩ := Log.exit_spec h
    exact K.keep rfl rfl rfl rfl rfl

end Steps

section Init
variable {fp : FirstPage pg} {w : World} {r : Root}

theorem Started.alone (h : Started fp w) : w.sc.lock = false ∧ w.sc.procCount = 1 := by
  obtain ⟨answers, fuel, w₀, hranges, hscInit⟩ := h
  obtain ⟨area, w₁, len, v, harea, hmap, hlast⟩ := scInit_spec hscInit
  rcases hlast with rfl | ⟨len', v', hmap'⟩
  · exact ⟨rfl, rfl⟩
  · have T : ∃ l f v, Table fp w₁.registered.sc l f v := by
      rcases initRoot_table.mmap hmap with ⟨hx, -⟩ | ⟨-, reg, rsv, f', v', -, -, -, T⟩
      · cases hx
      · exact ⟨_, _, _, T.registered⟩
    obtain ⟨l, f, v, T⟩ := T
    rcases scMmap_spec T.lists hmap' with ⟨hx, -⟩ | ⟨-, -, reg, rsv, f', -, -, M, -⟩
    · cases hx
    · exact ⟨M.unlocked, M.carved.procCount⟩

/-- `sc_init` leaves the state in which the log starts. -/
theorem Root.init.logged (h : r.init fp) : ∃ l f v, ∀ s : Log.State, s.init →
    s.freeStructs = f.length → s.reservedRegions = [] → Logged fp r s l f v := by
  obtain ⟨l, f, v, K, -⟩ := h.homed
  obtain ⟨hstarted, hnone, hlog⟩ := h
  obtain ⟨hlock, hcount⟩ := hstarted.alone
  refine ⟨l, f, v, fun s hs hfree hreserved => ?_⟩
  obtain ⟨-, -, hempty, -, hpending, -, -, hproc, -⟩ := hs
  exact ⟨K, hlock, hcount.trans hproc.symm, hfree.symm, (congrArg (Option.map _) hnone).trans
    hpending.symm, hreserved ▸ List.nil_prefix, hlog.trans (entries_of_none hempty).symm⟩

end Init

/-- Over every run of the log, each struct, range and count is that of a run of the root struct. -/
theorem logged_of_reach {fp : FirstPage pg} {r : Root} {s t : Log.State} {l f v : List Addr}
    (K : Logged fp r s l f v) (S : Log.Single s) (h : Trans.Reach (· = s) (Log.Step pg) t) :
    ∃ u, Trans.Reach (· = r) (fun r e t => RootEvent.step fp r e t) u ∧
      ∃ l f v, Logged fp u t l f v := by
  suffices hinv : Log.Single t ∧ ∃ u, Trans.Reach (· = r) (fun r e t => RootEvent.step fp r e t) u ∧
      ∃ l f v, Logged fp u t l f v from hinv.2
  induction h with
  | init h => exact h ▸ ⟨S, r, .init rfl, l, f, v, K⟩
  | @step t act t' _ hstep ih =>
    obtain ⟨S, u, hreach, l, f, v, K⟩ := ih
    have hstep : Log.step pg t act = .ok t' := hstep
    obtain ⟨hsome, hnone⟩ := K.step S hstep
    refine ⟨S.step hstep, ?_⟩
    cases he : rootEvent t act with
    | none => exact ⟨u, hreach, l, f, v, hnone he⟩
    | some e =>
      obtain ⟨u', l', f', v', hevent, K'⟩ := hsome e he
      exact ⟨u', .step hreach hevent, l', f', v', K'⟩

end Subcontexts.Region
