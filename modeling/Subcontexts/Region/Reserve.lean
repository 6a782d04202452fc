import Subcontexts.Region.Reserved

/-! Reservations beside the other calls: `sc_postNewReservation` takes a region struct and hangs it
at `pending_reservation`, and the cleanup of its log entry moves it to the reserved list. The calls,
the posts and the cleanups hold the root lock from their start to their end; who acknowledges an
entry, and when, is left open. -/

namespace Subcontexts.Region
variable {pg : PageSize}

/-- What an entry of the cleanup log tells the other processes to reserve. -/
structure ReserveMemory where
  vaddr : Nat
  len : Nat
  deriving DecidableEq, Repr

/-- The root struct with the fields that reservations use; `log` is the list at `cleanupLog`. -/
structure Root where
  world : World
  pendingReservation : Option Addr
  log : List ReserveMemory

/-- `flushed`: the poster has processed the whole log. The other two are what `sc_malloc` and `mmap`
answer. -/
structure PostAnswers where
  flushed : Bool
  newStep : Bool
  range : Option Nat
  deriving DecidableEq, Repr

def scPostNewReservation (pg : PageSize) (answers : PostAnswers) (r : Root) (pages : Nat) :
    Except Halt (Int × Root) := do
  check r.world.sc.lock
  check (r.pendingReservation = none)
  check (0 < pages)
  check (1 < r.world.sc.procCount)
  haltIf .todo (answers.flushed = false)
  let (newReg, sc) ← scGetFreeRegion r.world.sc
  match newReg with
  | none => return (1, { r with world := { r.world with sc := sc } })
  | some newReg =>
    if !answers.newStep then return (2, { r with world := { r.world with sc := sc } })
    match answers.range with
    | none => .error .todo
    | some range => do
      let len := u64 (pages * pg.bytes)
      let sc := sc.setRegion newReg ⟨⟨range, len, protNone, noOffset⟩, none, false⟩
      return (0, {
        world := { r.world with sc := { sc with cleanupLog := true } }
        pendingReservation := some newReg
        log := r.log ++ [⟨range, len⟩] })

/-- The list cleanup of the background thread, for the first entry. -/
def cleanup (r : Root) : Except Halt Root :=
  match r.log with
  | [] => .error .assertion
  | first :: next =>
    match r.pendingReservation with
    | none => .error .fault
    | some pending => do
      check ((r.world.sc.mem pending).vaddr = first.vaddr)
      haltIf .todo ((r.world.sc.mem pending).len = 0)
      check ((r.world.sc.mem pending).len = first.len)
      let sc := r.world.sc.setNext pending r.world.sc.reservedRegions
      return {
        world := { r.world with
          sc := { sc with reservedRegions := some pending, cleanupLog := !next.isEmpty } }
        pendingReservation := none
        log := next }

/-- A call; a process posts a reservation; the first entry of the log is cleaned up; processes join
or leave. -/
inductive RootEvent where
  | call (c : Call)
  | post (answers : PostAnswers) (pages : Nat)
  | complete
  | count (procCount : Nat)

def Root.unlock (r : Root) : Root := { r with world := r.world.unlock }

def RootEvent.step (fp : FirstPage pg) (r : Root) : RootEvent → Root → Prop
  | .call c, t => ∃ w, Returns fp r.world c w ∧ t = { r with world := w }
  | .post answers pages, t =>
    ∃ w rc u, r.world.lockRoot = .ok w ∧
      scPostNewReservation pg answers { r with world := w } pages = .ok (rc, u) ∧ t = u.unlock
  | .complete, t =>
    ∃ w u, r.world.lockRoot = .ok w ∧ cleanup { r with world := w } = .ok u ∧ t = u.unlock
  | .count procCount, t =>
    r.world.sc.lock = false ∧
      t = { r with world := { r.world with sc := { r.world.sc with procCount := procCount } } }

def Root.init (fp : FirstPage pg) (r : Root) : Prop :=
  Started fp r.world ∧ r.pendingReservation = none ∧ r.log = []

structure Homed (fp : FirstPage pg) (r : Root) (l f v : List Addr) : Prop where
  table : Table fp r.world.sc l f v
  two : 2 ≤ l.length
  pending : ∀ a, r.pendingReservation = some a → a ∉ l ∧ a ∉ f ∧ a ∉ v

section Edits
variable {fp : FirstPage pg} {s : Sc} {l f v : List Addr} {a : Addr}

theorem Lists.setReserved (L : Lists fp s l f) (hl : a ∉ l) (hf : a ∉ f) :
    Lists fp { s with reservedRegions := some a } l f := by
  refine ⟨L.active, L.tail, L.first, L.free, L.apart, fun b hb => ?_, L.inPage⟩
  obtain rfl := Option.some.inj hb
  exact ⟨hl, hf⟩

theorem Table.setRegion_off (T : Table fp s l f v) (x : ScRegion) (hl : a ∉ l) (hf : a ∉ f)
    (hv : a ∉ v) : Table fp (s.setRegion a x) l f v := by
  refine ⟨T.lists.setRegion_off x hl hf, T.reserved.congr rfl fun b hb => ?_, T.apart⟩
  have hne : b ≠ a := fun h => hv (h ▸ hb)
  exact congrArg ScRegion.next (mem_setRegion_of_ne s hne x)

theorem Table.push (T : Table fp s l f v) (hl : a ∉ l) (hf : a ∉ f) (hv : a ∉ v) :
    Table fp { s.setNext a s.reservedRegions with reservedRegions := some a } l f (a :: v) := by
  have T' : Table fp (s.setNext a s.reservedRegions) l f v := T.setRegion_off _ hl hf hv
  refine ⟨T'.lists.setReserved hl hf, ⟨rfl, ?_⟩, fun b hb => ?_⟩
  · have hnext : ((s.setNext a s.reservedRegions).mem a).next = s.reservedRegions :=
      next_setNext_self s a _
    show Seg _ ((s.setNext a s.reservedRegions).mem a).next v none
    rw [hnext]
    exact T'.reserved
  · rcases List.mem_cons.mp hb with rfl | hb
    · exact ⟨hl, hf⟩
    · exact T.apart b hb

theorem Table.getFree (T : Table fp s l f v) {region : Option Addr} {t : Sc}
    (h : scGetFreeRegion s = .ok (region, t)) :
    ∃ reg f', region = some reg ∧ f = reg :: f' ∧ Taken fp s t l f' reg ∧ Table fp t l f' v ∧
      reg ∉ v := by
  obtain ⟨reg, f', rfl, rfl, taken⟩ := T.lists.getFree h
  have hreg : reg ∉ v := fun hv => (T.apart reg hv).2 (List.mem_cons_self ..)
  refine ⟨reg, f', rfl, rfl, taken, ?_, hreg⟩
  exact T.congr taken.lists taken.reservedRegions
    (fun a hl hf => scGetFreeRegion_next h (T.lists.free_ne hf))
    ((List.sublist_cons_self reg f').append_left l).subset

theorem Table.relock (T : Table fp s l f v) (lock : Bool) : Table fp { s with lock := lock } l f v :=
  T.same rfl rfl rfl rfl rfl

end Edits

section Spec
variable {fp : FirstPage pg} {r t : Root} {w : World} {l f v : List Addr}

structure Took (fp : FirstPage pg) (r t : Root) (l f v : List Addr) (reg : Addr) : Prop where
  table : Table fp t.world.sc l f v
  off : reg ∉ l ∧ reg ∉ f ∧ reg ∉ v
  struct : fp.Struct reg
  none : r.pendingReservation = none
  size : t.world.sc.tmpfileSize = r.world.sc.tmpfileSize
  others : ∀ a, a ≠ reg → t.world.sc.extent a = r.world.sc.extent a

theorem scPostNewReservation_spec {answers : PostAnswers} {pages : Nat} {rc : Int}
    (T : Table fp r.world.sc l f v) (h : scPostNewReservation pg answers r pages = .ok (rc, t)) :
    ∃ reg f', f = reg :: f' ∧ Took fp r t l f' v reg ∧
      (answers.newStep = false ∧ rc = 2 ∧ t.pendingReservation = none ∨
        answers.newStep = true ∧ rc = 0 ∧ t.pendingReservation = some reg ∧
          (t.world.sc.extent reg).tmpfileOffset = noOffset) := by
  unfold scPostNewReservation at h
  obtain ⟨-, -, h⟩ := bind_eq_ok.mp h
  obtain ⟨_, hnone, h⟩ := bind_eq_ok.mp h
  have hnone := check_eq_ok.mp hnone
  obtain ⟨-, -, h⟩ := bind_eq_ok.mp h
  obtain ⟨-, -, h⟩ := bind_eq_ok.mp h
  obtain ⟨-, -, h⟩ := bind_eq_ok.mp h
  obtain ⟨⟨newReg, sc⟩, hfree, h⟩ := bind_eq_ok.mp h
  obtain ⟨reg, f', rfl, rfl, taken, T', hv⟩ := T.getFree hfree
  obtain ⟨hl, hf⟩ := taken.off
  have hext : ∀ a, sc.extent a = r.world.sc.extent a := taken.extent
  refine ⟨reg, f', rfl, ?_⟩
  dsimp only at h
  split at h
  · rename_i hstep
    -- the function returns with the struct taken, and nothing points to it
    obtain ⟨rfl, rfl⟩ := Prod.mk.inj (Except.ok.inj h)
    exact ⟨⟨T', ⟨hl, hf, hv⟩, taken.struct, hnone, taken.tmpfileSize, fun a _ => hext a⟩,
      .inl ⟨by simpa using hstep, rfl, hnone⟩⟩
  rename_i hstep
  split at h
  · cases h
  rename_i range hrange
  obtain ⟨rfl, rfl⟩ := Prod.mk.inj (Except.ok.inj h)
  have T₁ := T'.setRegion_off ⟨⟨range, u64 (pages * pg.bytes), protNone, noOffset⟩, none, false⟩
    hl hf hv
  refine ⟨⟨T₁.same rfl rfl rfl rfl rfl, ⟨hl, hf, hv⟩, taken.struct, hnone, taken.tmpfileSize,
    fun a ha => ?_⟩, .inr ⟨by simpa using hstep, rfl, rfl, ?_⟩⟩
  · exact (congrArg ScRegion.toExtent (mem_setRegion_of_ne sc ha _)).trans (hext a)
  · exact congrArg (fun x => x.toExtent.tmpfileOffset) (mem_setRegion_self sc reg _)

theorem cleanup_spec (K : Homed fp r l f v) (h : cleanup r = .ok t) :
    ∃ a, r.pendingReservation = some a ∧ t.pendingReservation = none ∧
      Table fp t.world.sc l f (a :: v) ∧ t.world.sc.tmpfileSize = r.world.sc.tmpfileSize ∧
      ∀ b, t.world.sc.extent b = r.world.sc.extent b := by
  unfold cleanup at h
  split at h
  · cases h
  split at h
  · cases h
  rename_i pending hpending
  obtain ⟨-, -, h⟩ := bind_eq_ok.mp h
  obtain ⟨-, -, h⟩ := bind_eq_ok.mp h
  obtain ⟨-, -, h⟩ := bind_eq_ok.mp h
  obtain rfl := Except.ok.inj h
  obtain ⟨hl, hf, hv⟩ := K.pending pending hpending
  have T₁ := K.table.push hl hf hv
  exact ⟨pending, hpending, rfl, T₁.same rfl rfl rfl rfl rfl, rfl, fun b => extent_setNext _ _ _ _⟩

def Root.homes (r : Root) (l f v : List Addr) : List Addr :=
  l ++ f ++ (v ++ r.pendingReservation.toList)

theorem Homed.lock (K : Homed fp r l f v) (h : r.world.lockRoot = .ok w) :
    Homed fp { r with world := w } l f v := by
  obtain ⟨-, rfl⟩ := lockRoot_spec h
  exact ⟨K.table.relock true, K.two, K.pending⟩

theorem Homed.call {c : Call} (K : Homed fp r l f v) (h : Returns fp r.world c w) :
    ∃ l' f', Homed fp { r with world := w } l' f' v ∧
      (Root.homes { r with world := w } l' f' v).Perm (r.homes l f v) := by
  obtain ⟨l', f', T', hsub, hperm⟩ := K.table.step K.two h
  refine ⟨l', f', ⟨T', Nat.le_trans K.two hsub.length_le, fun a ha => ?_⟩, hperm.append_right _⟩
  obtain ⟨hl, hf, hv⟩ := K.pending a ha
  have hout : a ∉ l' ++ f' := fun h => (List.mem_append.mp (hperm.mem_iff.mp h)).elim hl hf
  exact ⟨fun h => hout (List.mem_append_left _ h), fun h => hout (List.mem_append_right _ h), hv⟩

theorem Homed.took {reg : Addr} {f' : List Addr} (K : Homed fp r l f v)
    (Q : Took fp r t l f' v reg)
    (hpending : t.pendingReservation = none ∨ t.pendingReservation = some reg) :
    Homed fp t l f' v := by
  refine ⟨Q.table, K.two, fun a ha => ?_⟩
  rcases hpending with h | h
  · cases h.symm.trans ha
  · obtain rfl := Option.some.inj (h.symm.trans ha)
    exact Q.off

theorem RootEvent.step_cases {e : RootEvent} (K : Homed fp r l f v) (h : e.step fp r t) :
    (∃ c w, e = .call c ∧ Returns fp r.world c w ∧ t = { r with world := w }) ∨
      (∃ answers pages reg f', e = .post answers pages ∧ f = reg :: f' ∧ Took fp r t l f' v reg ∧
        (answers.newStep = false ∧ t.pendingReservation = none ∨ answers.newStep = true ∧
          t.pendingReservation = some reg ∧
          (t.world.sc.extent reg).tmpfileOffset = noOffset)) ∨
      (∃ a, e = .complete ∧ r.pendingReservation = some a ∧ t.pendingReservation = none ∧
        Table fp t.world.sc l f (a :: v) ∧ t.world.sc.tmpfileSize = r.world.sc.tmpfileSize ∧
        ∀ b, t.world.sc.extent b = r.world.sc.extent b) ∨
      ∃ n, e = .count n ∧
        t = { r with world := { r.world with sc := { r.world.sc with procCount := n } } } := by
  cases e with
  | call c =>
    obtain ⟨w, hret, rfl⟩ := h
    exact .inl ⟨c, w, rfl, hret, rfl⟩
  | post answers pages =>
    obtain ⟨w, rc, u, hlock, hpost, rfl⟩ := h
    have K' := K.lock hlock
    obtain ⟨-, rfl⟩ := lockRoot_spec hlock
    obtain ⟨reg, f', rfl, Q, hend⟩ := scPostNewReservation_spec K'.table hpost
    refine .inr (.inl ⟨answers, pages, reg, f', rfl, rfl,
      ⟨Q.table.relock false, Q.off, Q.struct, Q.none, Q.size, Q.others⟩, ?_⟩)
    rcases hend with ⟨hstep, -, hnone⟩ | ⟨hstep, -, hsome⟩
    · exact .inl ⟨hstep, hnone⟩
    · exact .inr ⟨hstep, hsome⟩
  | complete =>
    obtain ⟨w, u, hlock, hcleanup, rfl⟩ := h
    have K' := K.lock hlock
    obtain ⟨-, rfl⟩ := lockRoot_spec hlock
    obtain ⟨a, ha, hnone, T, hsize, hext⟩ := cleanup_spec K' hcleanup
    exact .inr (.inr (.inl ⟨a, rfl, ha, hnone, T.relock false, hsize, hext⟩))
  | count n => exact .inr (.inr (.inr ⟨n, rfl, h.2⟩))

theorem Homed.count (K : Homed fp r l f v) (n : Nat) :
    Homed fp { r with world := { r.world with sc := { r.world.sc with procCount := n } } } l f v :=
  ⟨K.table.same rfl rfl rfl rfl rfl, K.two, K.pending⟩

theorem Homed.complete {a : Addr} (K : Homed fp r l f v)
    (T : Table fp t.world.sc l f (a :: v)) (hnone : t.pendingReservation = none) :
    Homed fp t l f (a :: v) :=
  ⟨T, K.two, fun b hb => by cases hnone.symm.trans hb⟩

/-- The condition on a post: `sc_malloc` has memory for the log entry. -/
def RootEvent.Supplied : RootEvent → Prop
  | .post answers _ => answers.newStep = true
  | .call _ | .complete | .count _ => True

theorem Homed.step {e : RootEvent} (K : Homed fp r l f v) (hsupplied : e.Supplied)
    (h : e.step fp r t) : ∃ l' f' v', Homed fp t l' f' v' ∧
      (t.homes l' f' v').Perm (r.homes l f v) := by
  rcases RootEvent.step_cases K h with ⟨c, w, rfl, hret, rfl⟩ |
    ⟨answers, pages, reg, f', rfl, rfl, Q, hend⟩ | ⟨a, rfl, ha, hnone, T, -⟩ | ⟨n, rfl, rfl⟩
  · obtain ⟨l', f', K', hperm⟩ := K.call hret
    exact ⟨l', f', v, K', hperm⟩
  · rcases hend with ⟨hstep, -⟩ | ⟨-, hsome, -⟩
    · have hstep' : answers.newStep = true := hsupplied
      cases hstep.symm.trans hstep'
    · refine ⟨l, f', v, K.took Q (.inr hsome), ?_⟩
      unfold Root.homes
      rw [hsome, Q.none, Option.toList_some, Option.toList_none, List.append_nil, List.append_assoc,
        List.append_assoc]
      refine List.Perm.append_left l ?_
      rw [← List.append_assoc, List.cons_append]
      exact List.perm_append_singleton reg (f' ++ v)
  · refine ⟨l, f, a :: v, K.complete T hnone, ?_⟩
    unfold Root.homes
    rw [ha, hnone, Option.toList_some, Option.toList_none, List.append_nil]
    exact List.Perm.append_left _ (List.perm_append_singleton a v).symm
  · exact ⟨l, f, v, K.count n, List.Perm.refl _⟩

end Spec

section Started
variable {fp : FirstPage pg} {r : Root}

def allRegions (fp : FirstPage pg) : List Addr := (List.range fp.regionsCount).map fp.regions

theorem initRoot_homes : ([fp.regions 0] ++ freeRegions fp ++ [fp.regions 1]).Perm
    (allRegions fp) := by
  have h := fp.three_le_regionsCount
  obtain ⟨n, hn⟩ : ∃ n, fp.regionsCount = n + 2 := ⟨fp.regionsCount - 2, by omega⟩
  have hrange : List.range (n + 2) = 0 :: 1 :: List.range' 2 n := by
    rw [List.range_eq_range', List.range'_succ, List.range'_succ]
  unfold allRegions freeRegions
  rw [hn, hrange, Nat.add_sub_cancel, List.map_cons, List.map_cons, List.append_assoc,
    List.singleton_append]
  exact (List.perm_append_singleton _ _).cons _

theorem Root.init.homed (h : r.init fp) : ∃ l f v, Homed fp r l f v ∧
    (r.homes l f v).Perm (allRegions fp) := by
  obtain ⟨hstarted, hnone, -⟩ := h
  have hhomes : ∃ l f v, Table fp r.world.sc l f v ∧ (l ++ f ++ v).Perm (allRegions fp) := by
    refine Started.induct
      (P := fun w => ∃ l f v, Table fp w.sc l f v ∧ (l ++ f ++ v).Perm (allRegions fp)) hstarted
      (fun area w₀ _ => ⟨_, _, _, initRoot_table, initRoot_homes⟩) ?_
      fun w ⟨l, f, v, T, hperm⟩ => ⟨l, f, v, T.registered, hperm⟩
    rintro answers w length x w' ⟨l, f, v, T, hperm⟩ hcall
    rcases T.mmap hcall with ⟨hx, -⟩ | ⟨-, reg, rsv, f', v', rfl, rfl, -, T'⟩
    · cases hx
    · refine ⟨l ++ [reg], f', rsv :: v', T', ?_⟩
      rw [List.append_assoc l, List.singleton_append]
      exact hperm
  obtain ⟨l, f, v, T, hperm⟩ := hhomes
  refine ⟨l, f, v, ⟨T, hstarted.two_le T, fun a ha => ?_⟩, ?_⟩
  · cases hnone.symm.trans ha
  · rw [Root.homes, hnone, Option.toList_none, List.append_nil]
    exact hperm

end Started
end Subcontexts.Region
