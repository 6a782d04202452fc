import Subcontexts.Lib.Futex
import Subcontexts.Log.Accounting

/-! The two words that processes watch: `cleanupLog_lastSeqNum`, where background threads sleep
between their rounds, and `pending_reservation`, where `subcontexts_ctl` sleeps before it posts. A
post wakes the sleepers of the first. Nobody wakes those of the second. -/

namespace Subcontexts.Log

/-- `region` is the struct of the last reservation posted. `poster` is the process that has posted
and still holds the root lock, with `true` while its wakeup is ahead. `round` says that the
background thread is back from its wait and not yet at its next one. -/
structure Watch where
  log : State
  region : Addr
  poster : Option (Pid × Bool)
  bg : Pid → Futex.Wait Nat
  round : Pid → Bool
  ctl : Pid → Futex.Wait (Option Addr)

/-- A step of a background thread or of `subcontexts_ctl`. `run` is a section of a round, or a process
that joins or leaves. -/
inductive Move where
  | wait (q : Pid)
  | bgCheck (q : Pid)
  | run (act : Action)
  | see (p : Pid)
  | ctlCheck (p : Pid)
  | post (p : Pid) (pages : Nat) (newStep : Option Addr) (range : Option Nat) (region : Addr)
  | wake (p : Pid) (woken : Finset Pid)
  | unlock (p : Pid)

def Watch.word (s : Watch) : Option Addr := s.log.pendingReservation.map fun _ => s.region

def Watch.sleepers (s : Watch) : Finset Pid := s.log.alive.filter fun q => (s.bg q).isAsleep = true

def Watch.inRound (s : Watch) (q : Pid) (log : State) : Watch :=
  { s with log := log, round := Function.update s.round q (log.phase q ≠ .idle) }

section Model
variable (pg : PageSize)

def Watch.run (s : Watch) : Action → Except Halt Watch
  | .look q => do
    blockedUnless (s.poster = none ∧ s.round q = true)
    let log ← step pg s.log (.look q)
    return s.inRound q log
  | .ack q mapped => do
    let log ← step pg s.log (.ack q mapped)
    return s.inRound q log
  | .lockRoot q => do
    blockedUnless (s.poster = none)
    let log ← step pg s.log (.lockRoot q)
    return s.inRound q log
  | .clean q => do
    let log ← step pg s.log (.clean q)
    return s.inRound q log
  | .join q => do
    blockedUnless (s.poster = none)
    let log ← step pg s.log (.join q)
    return { s with log := log }
  | .depart q => do
    blockedUnless (s.poster = none)
    let log ← step pg s.log (.depart q)
    return { s with
      log := log
      bg := Function.update s.bg q .out
      round := Function.update s.round q false
      ctl := Function.update s.ctl q .out }
  | .post .. | .remove _ | .exit _ => .error .blocked

def Watch.step (s : Watch) : Move → Except Halt Watch
  | .wait q => do
    blockedUnless (q ∈ s.log.alive ∧ s.bg q = .out ∧ s.round q = false)
    return { s with bg := Function.update s.bg q (.checking (s.log.flushPoint q)) }
  | .bgCheck q => do
    blockedUnless (q ∈ s.log.alive ∧ (s.bg q).isChecking = true)
    let bg := (s.bg q).check s.log.lastSeqNum
    return { s with bg := Function.update s.bg q bg, round := Function.update s.round q (bg = .out) }
  | .run act => s.run pg act
  | .see p => do
    blockedUnless (s.poster = none ∧ s.log.rootLock = none ∧ p ∈ s.log.registered ∧ s.ctl p = .out)
    match s.word with
    | none => throw .blocked
    | some pending => return { s with ctl := Function.update s.ctl p (.checking (some pending)) }
  | .ctlCheck p => do
    blockedUnless ((s.ctl p).isChecking = true)
    return { s with ctl := Function.update s.ctl p ((s.ctl p).check s.word) }
  | .post p pages newStep range region => do
    blockedUnless (s.poster = none ∧ s.ctl p = .out)
    let log ← Log.step pg s.log (.post p pages newStep range)
    match newStep with
    | none => return { s with log := log }
    | some _ => return { s with log := log, region := region, poster := some (p, true) }
  | .wake p woken => do
    blockedUnless (s.poster = some (p, true) ∧ Futex.Wakes (2 * s.log.procCount) s.sleepers woken)
    return { s with bg := Futex.wake woken s.bg, poster := some (p, false) }
  | .unlock p => do
    blockedUnless (s.poster = some (p, false))
    return { s with poster := none }

def Watch.Step (s : Watch) (m : Move) (t : Watch) : Prop := s.step pg m = .ok t

end Model

def Watch.init (s : Watch) : Prop :=
  s.log.init ∧ s.poster = none ∧ (∀ q, s.bg q = .out) ∧ (∀ q, s.round q = false) ∧
    ∀ p, s.ctl p = .out

/-- A waiter sleeps on a value that the word has lost, and no wakeup for it is ahead. -/
def Watch.Stranded (s : Watch) : Prop :=
  (∃ p v, s.ctl p = .asleep v ∧ s.word ≠ v) ∨
    ∃ q v, s.bg q = .asleep v ∧ s.log.lastSeqNum ≠ v ∧ ∀ p, s.poster ≠ some (p, true)

/-- A cleanup, which sets `pending_reservation` to `NULL`, finds nobody asleep on it. -/
def Watch.Unwatched (s : Watch) : Move → Prop
  | .run (.clean _) => ∀ p v, s.ctl p ≠ .asleep v
  | _ => True

structure Awaited (s : Watch) : Prop where
  single : Single s.log
  counted : Counted s.log
  pending : Futex.Settled s.word s.ctl
  nonnull : ∀ p v, s.ctl p = .checking v ∨ s.ctl p = .asleep v → v ≠ none
  seqNum : (∃ p, s.poster = some (p, true)) ∨ Futex.Settled s.log.lastSeqNum s.bg
  sleeping : ∀ q v, s.bg q = .asleep v → q ∈ s.log.alive

theorem Awaited.init {s : Watch} (h : s.init) : Awaited s := by
  obtain ⟨hlog, -, hbg, -, hctl⟩ := h
  have hno : ∀ q v, s.bg q ≠ .asleep v := fun q v hq => by cases (hbg q).symm.trans hq
  have hno' : ∀ p v, s.ctl p ≠ .asleep v := fun p v hp => by cases (hctl p).symm.trans hp
  refine ⟨.init hlog, .init hlog, .of_none hno', fun p v hp => ?_, .inr (.of_none hno),
    fun q v hq => absurd hq (hno q v)⟩
  rcases hp with hp | hp <;> cases (hctl p).symm.trans hp

section Steps
variable {pg : PageSize} {s t : Watch} {log : State} {p q : Pid}

theorem Watch.word_congr (h : log.pendingReservation = s.log.pendingReservation) :
    ({ s with log := log } : Watch).word = s.word := by
  unfold Watch.word
  rw [h]

theorem Awaited.nonnull_move (A : Awaited s) {w : Futex.Wait (Option Addr)}
    (hw : ∀ v, w = .checking v ∨ w = .asleep v → v ≠ none) (u : Pid) (v : Option Addr)
    (hu : Function.update s.ctl p w u = .checking v ∨ Function.update s.ctl p w u = .asleep v) :
    v ≠ none := by
  rcases Trans.of_update
    (P := fun x : Futex.Wait (Option Addr) => x = .checking v ∨ x = .asleep v) hu
    with ⟨-, hnew⟩ | ⟨-, hold⟩
  · exact hw v hnew
  · exact A.nonnull u v hold

theorem Awaited.quiet (A : Awaited s) (S : Single log) (C : Counted log)
    (hseq : log.lastSeqNum = s.log.lastSeqNum)
    (hpend : log.pendingReservation = s.log.pendingReservation) (halive : s.log.alive ⊆ log.alive)
    (round : Pid → Bool) : Awaited { s with log := log, round := round } := by
  refine ⟨S, C, ?_, A.nonnull, ?_, fun q v hq => halive (A.sleeping q v hq)⟩
  · show Futex.Settled ({ s with log := log } : Watch).word s.ctl
    rw [Watch.word_congr hpend]
    exact A.pending
  · show _ ∨ Futex.Settled log.lastSeqNum s.bg
    rw [hseq]
    exact A.seqNum

theorem Awaited.look (A : Awaited s) (h : step pg s.log (.look q) = .ok log) :
    Awaited (s.inRound q log) := by
  have S := A.single.step h
  have C := A.counted.step A.single (by trivial) h
  obtain ⟨-, -, -, rfl | ⟨a, -, -, -, rfl⟩⟩ := look_spec A.single h
  · exact A.quiet S C rfl rfl (Finset.Subset.refl _) _
  · exact A.quiet S C rfl rfl (Finset.Subset.refl _) _

theorem Awaited.ack {mapped : Bool} (A : Awaited s) (h : step pg s.log (.ack q mapped) = .ok log) :
    Awaited (s.inRound q log) := by
  have S := A.single.step h
  have C := A.counted.step A.single (by trivial) h
  obtain ⟨a, rr, -, -, -, -, -, rfl⟩ := ack_spec A.single h
  exact A.quiet S C rfl rfl (Finset.Subset.refl _) _

theorem Awaited.lockRoot (A : Awaited s) (h : step pg s.log (.lockRoot q) = .ok log) :
    Awaited (s.inRound q log) := by
  have S := A.single.step h
  have C := A.counted.step A.single (by trivial) h
  obtain ⟨a, -, -, -, -, -, rfl⟩ := lockRoot_spec h
  exact A.quiet S C rfl rfl (Finset.Subset.refl _) _

theorem Awaited.clean (A : Awaited s) (hun : ∀ p v, s.ctl p ≠ .asleep v)
    (h : step pg s.log (.clean q) = .ok log) : Awaited (s.inRound q log) := by
  have S := A.single.step h
  have C := A.counted.step A.single (by trivial) h
  obtain ⟨a, r, -, -, -, -, rfl⟩ := clean_spec A.single h
  exact ⟨S, C, .of_none hun, A.nonnull, A.seqNum, A.sleeping⟩

theorem Awaited.join (A : Awaited s) (h : step pg s.log (.join q) = .ok log) :
    Awaited { s with log := log } := by
  have S := A.single.step h
  have C := A.counted.step A.single (by trivial) h
  obtain ⟨-, -, -, rfl⟩ := join_spec h
  exact A.quiet S C rfl rfl (Finset.subset_insert _ _) s.round

theorem Awaited.depart (A : Awaited s) (h : step pg s.log (.depart q) = .ok log)
    (round : Pid → Bool) : Awaited { s with
      log := log
      bg := Function.update s.bg q .out
      round := round
      ctl := Function.update s.ctl q .out } := by
  have S := A.single.step h
  have C := A.counted.step A.single (by trivial) h
  obtain ⟨-, -, -, rfl⟩ := depart_spec h
  refine ⟨S, C, A.pending.move nofun, A.nonnull_move fun v hv => ?_,
    A.seqNum.imp_right fun h => h.move nofun, fun p v hp => ?_⟩
  · rcases hv with hv | hv <;> cases hv
  · obtain ⟨hpq, hp⟩ := Trans.of_update_of_not (P := (· = Futex.Wait.asleep v)) hp nofun
    exact Finset.mem_erase.mpr ⟨hpq, A.sleeping p v hp⟩

theorem Awaited.run {act : Action} (A : Awaited s) (hun : s.Unwatched (.run act))
    (h : s.run pg act = .ok t) : Awaited t := by
  cases act with
  | look q =>
    obtain ⟨_, -, h⟩ := bind_eq_ok.mp h
    obtain ⟨log, hlog, h⟩ := bind_eq_ok.mp h
    obtain rfl := Except.ok.inj h
    exact A.look hlog
  | ack q mapped =>
    obtain ⟨log, hlog, h⟩ := bind_eq_ok.mp h
    obtain rfl := Except.ok.inj h
    exact A.ack hlog
  | lockRoot q =>
    obtain ⟨_, -, h⟩ := bind_eq_ok.mp h
    obtain ⟨log, hlog, h⟩ := bind_eq_ok.mp h
    obtain rfl := Except.ok.inj h
    exact A.lockRoot hlog
  | clean q =>
    obtain ⟨log, hlog, h⟩ := bind_eq_ok.mp h
    obtain rfl := Except.ok.inj h
    exact A.clean hun hlog
  | join q =>
    obtain ⟨_, -, h⟩ := bind_eq_ok.mp h
    obtain ⟨log, hlog, h⟩ := bind_eq_ok.mp h
    obtain rfl := Except.ok.inj h
    exact A.join hlog
  | depart q =>
    obtain ⟨_, -, h⟩ := bind_eq_ok.mp h
    obtain ⟨log, hlog, h⟩ := bind_eq_ok.mp h
    obtain rfl := Except.ok.inj h
    exact A.depart hlog _
  | post => cases h
  | remove => cases h
  | exit => cases h

theorem Awaited.wait (A : Awaited s) (h : s.step pg (.wait q) = .ok t) : Awaited t := by
  obtain ⟨_, -, h⟩ := bind_eq_ok.mp h
  obtain rfl := Except.ok.inj h
  refine ⟨A.single, A.counted, A.pending, A.nonnull, A.seqNum.imp_right fun h => h.move nofun,
    fun u v hu => ?_⟩
  obtain ⟨-, hu⟩ := Trans.of_update_of_not (P := (· = Futex.Wait.asleep v)) hu nofun
  exact A.sleeping u v hu

theorem Awaited.bgCheck (A : Awaited s) (h : s.step pg (.bgCheck q) = .ok t) : Awaited t := by
  obtain ⟨_, hq, h⟩ := bind_eq_ok.mp h
  obtain ⟨halive, -⟩ := blockedUnless_eq_ok.mp hq
  obtain rfl := Except.ok.inj h
  refine ⟨A.single, A.counted, A.pending, A.nonnull, A.seqNum.imp_right fun h => h.check,
    fun u v hu => ?_⟩
  rcases Trans.of_update (P := (· = Futex.Wait.asleep v)) hu with ⟨rfl, -⟩ | ⟨-, hu⟩
  · exact halive
  · exact A.sleeping u v hu

theorem Awaited.see (A : Awaited s) (h : s.step pg (.see p) = .ok t) : Awaited t := by
  obtain ⟨_, -, h⟩ := bind_eq_ok.mp h
  split at h
  · cases h
  rename_i pending hword
  obtain rfl := Except.ok.inj h
  refine ⟨A.single, A.counted, A.pending.move nofun, A.nonnull_move fun v hv => ?_, A.seqNum,
    A.sleeping⟩
  rcases hv with hv | hv
  · rw [← Futex.Wait.checking.inj hv]
    nofun
  · cases hv

theorem Awaited.ctlCheck (A : Awaited s) (h : s.step pg (.ctlCheck p) = .ok t) : Awaited t := by
  obtain ⟨_, hp, h⟩ := bind_eq_ok.mp h
  have hp := blockedUnless_eq_ok.mp hp
  obtain rfl := Except.ok.inj h
  refine ⟨A.single, A.counted, A.pending.check, A.nonnull_move fun v hv => ?_, A.seqNum,
    A.sleeping⟩
  cases hctl : s.ctl p with
  | out => cases (congrArg Futex.Wait.isChecking hctl).symm.trans hp
  | asleep v => cases (congrArg Futex.Wait.isChecking hctl).symm.trans hp
  | checking w =>
    rw [hctl, Futex.Wait.check] at hv
    have hw : w ≠ none := A.nonnull p w (.inl hctl)
    -- the check puts the thread to sleep on the value it has read, or lets it go
    split at hv <;> rcases hv with hv | hv <;> cases hv
    exact hw

theorem Awaited.none_asleep (A : Awaited s) (hlog : s.log.cleanupLog = none) (p : Pid)
    (v : Option Addr) : s.ctl p ≠ .asleep v := by
  intro hp
  have hword : s.word = none := by
    unfold Watch.word
    rw [A.single.outstanding.mp hlog]
    rfl
  exact A.nonnull p v (.inr hp) ((A.pending p v hp).symm.trans hword)

theorem post_none {s t : State} {pages : Nat} {range : Option Nat}
    (h : Log.step pg s (.post p pages none range) = .ok t) :
    t = { s with freeStructs := s.freeStructs - 1 } := by
  simp only [Log.step, postNewReservation, bind_eq_ok, check_eq_ok, blockedUnless_eq_ok] at h
  obtain ⟨_, -, _, -, _, -, _, -, h⟩ := h
  split at h
  · cases h
  simp only [bind_eq_ok] at h
  obtain ⟨_, -, h⟩ := h
  split at h
  · cases h
  exact (Except.ok.inj h).symm

theorem Awaited.post {pages : Nat} {newStep : Option Addr} {range : Option Nat} {region : Addr}
    (A : Awaited s) (h : s.step pg (.post p pages newStep range region) = .ok t) : Awaited t := by
  obtain ⟨_, -, h⟩ := bind_eq_ok.mp h
  obtain ⟨log, hlog, h⟩ := bind_eq_ok.mp h
  have S := A.single.step hlog
  have C := A.counted.step A.single (by trivial) hlog
  obtain ⟨-, -, hempty, -, -, -, ht⟩ := post_spec A.single hlog
  have hno := A.none_asleep hempty
  have halive : s.log.alive ⊆ log.alive := by
    rcases ht with rfl | ⟨a, r, rfl⟩ <;> exact Finset.Subset.refl _
  cases newStep with
  | none =>
    obtain rfl := Except.ok.inj h
    -- without memory for the entry the post has only taken a struct
    have ht : log = { s.log with freeStructs := s.log.freeStructs - 1 } := post_none hlog
    subst ht
    exact A.quiet S C rfl rfl halive s.round
  | some a =>
    obtain rfl := Except.ok.inj h
    exact ⟨S, C, .of_none hno, A.nonnull, .inl ⟨p, rfl⟩, fun q v hq => halive (A.sleeping q v hq)⟩

theorem Awaited.wake {woken : Finset Pid} (A : Awaited s)
    (h : s.step pg (.wake p woken) = .ok t) : Awaited t := by
  obtain ⟨_, hp, h⟩ := bind_eq_ok.mp h
  obtain ⟨-, hwakes⟩ := blockedUnless_eq_ok.mp hp
  obtain rfl := Except.ok.inj h
  have hcard : s.sleepers.card ≤ 2 * s.log.procCount := by
    have hle : s.sleepers.card ≤ s.log.alive.card := Finset.card_filter_le _ _
    rw [A.counted.alive, ← A.counted.count] at hle
    omega
  have hall : ∀ q v, s.bg q = .asleep v → q ∈ s.sleepers := fun q v hq =>
    Finset.mem_filter.mpr ⟨A.sleeping q v hq, by rw [hq]; rfl⟩
  have hno := hwakes.none_asleep hcard hall
  exact ⟨A.single, A.counted, A.pending, A.nonnull, .inr (.of_none hno),
    fun q v hq => absurd hq (hno q v)⟩

theorem Awaited.unlock (A : Awaited s) (h : s.step pg (.unlock p) = .ok t) : Awaited t := by
  obtain ⟨_, hp, h⟩ := bind_eq_ok.mp h
  have hposter := blockedUnless_eq_ok.mp hp
  obtain rfl := Except.ok.inj h
  refine ⟨A.single, A.counted, A.pending, A.nonnull, ?_, A.sleeping⟩
  rcases A.seqNum with ⟨u, hu⟩ | hsettled
  · rw [hposter] at hu
    cases hu
  · exact .inr hsettled

theorem Awaited.step {m : Move} (A : Awaited s) (hun : s.Unwatched m) (h : s.step pg m = .ok t) :
    Awaited t := by
  cases m with
  | wait q => exact A.wait h
  | bgCheck q => exact A.bgCheck h
  | run act => exact A.run hun h
  | see p => exact A.see h
  | ctlCheck p => exact A.ctlCheck h
  | post => exact A.post h
  | wake => exact A.wake h
  | unlock => exact A.unlock h

theorem Awaited.not_stranded (A : Awaited s) : ¬ s.Stranded := by
  rintro (⟨p, v, hp, hne⟩ | ⟨q, v, hq, hne, hahead⟩)
  · exact hne (A.pending p v hp)
  · rcases A.seqNum with ⟨p, hp⟩ | hsettled
    · exact hahead p hp
    · exact hne (hsettled q v hq)

theorem Awaited.clean_strands (A : Awaited s) (h : s.step pg (.run (.clean q)) = .ok t)
    (hwatched : ¬ s.Unwatched (.run (.clean q))) : t.Stranded := by
  obtain ⟨p, v, hp⟩ : ∃ p v, s.ctl p = .asleep v := by
    by_contra hno
    exact hwatched fun p v hp => hno ⟨p, v, hp⟩
  obtain ⟨log, hlog, h⟩ := bind_eq_ok.mp h
  obtain rfl := Except.ok.inj h
  obtain ⟨a, r, -, -, -, -, rfl⟩ := clean_spec A.single hlog
  exact .inl ⟨p, v, hp, fun hword => A.nonnull p v (.inr hp) hword.symm⟩

end Steps

/-- Runs in which a cleanup finds nobody asleep in `subcontexts_ctl`. -/
theorem no_lost_wakeup (pg : PageSize) {s : Watch} (h : Trans.Reach Watch.init
    (Trans.Guarded Watch.Unwatched (Watch.Step pg)) s) :
    ¬ s.Stranded ∧ ∀ q t, Watch.Step pg s (.run (.clean q)) t →
      ¬ s.Unwatched (.run (.clean q)) → t.Stranded := by
  have A : Awaited s := h.inv (fun _ h => .init h) fun s m t A ⟨hun, hst⟩ => A.step hun hst
  exact ⟨A.not_stranded, fun q t hst hwatched => A.clean_strands hst hwatched⟩

section Run

def watchStart : Watch := ⟨oneProcess, 0, none, fun _ => .out, fun _ => false, fun _ => .out⟩

theorem watchStart_init : watchStart.init :=
  ⟨oneProcess_init, rfl, fun _ => rfl, fun _ => rfl, fun _ => rfl⟩

/-- Both background threads sleep, and the post wakes them. -/
theorem no_lost_wakeup_post : ∃ s, Trans.Reach Watch.init
    (Trans.Guarded Watch.Unwatched (Watch.Step page4096)) s ∧
      s.bg 0 = .checking 1 ∧ s.bg 1 = .checking 1 ∧ s.log.lastSeqNum = 2 ∧ ¬ s.Stranded := by
  have h0 : Trans.Reach Watch.init (Trans.Guarded Watch.Unwatched (Watch.Step page4096))
    watchStart := .init watchStart_init
  have h1 := h0.step (l := Move.run (.join 1)) ⟨trivial, rfl⟩
  have h2 := h1.step (l := Move.wait 0) ⟨trivial, rfl⟩
  have h3 := h2.step (l := Move.bgCheck 0) ⟨trivial, rfl⟩
  have h4 := h3.step (l := Move.wait 1) ⟨trivial, rfl⟩
  have h5 := h4.step (l := Move.bgCheck 1) ⟨trivial, rfl⟩
  have h6 := h5.step (l := Move.post 0 4 (some 64) (some 65536) 7) ⟨trivial, rfl⟩
  have h7 := h6.step (l := Move.wake 0 {0, 1})
    ⟨trivial, bind_eq_ok.mpr ⟨(), blockedUnless_eq_ok.mpr ⟨rfl, by decide⟩, rfl⟩⟩
  exact ⟨_, h7, rfl, rfl, rfl, (no_lost_wakeup page4096 h7).1⟩

/-- The second process sleeps in `subcontexts_ctl` while the reservation is pending, and goes on
sleeping when its own background thread has cleaned up. -/
theorem cleanup_strands_ctl : ∃ s, Trans.Reach Watch.init (Watch.Step page4096) s ∧
    s.ctl 1 = .asleep (some 7) ∧ s.word = none ∧ s.poster = none ∧ s.Stranded := by
  have h0 : Trans.Reach Watch.init (Watch.Step page4096) watchStart := .init watchStart_init
  have h1 := h0.step (l := Move.run (.join 1)) rfl
  have h2 := h1.step (l := Move.post 0 4 (some 64) (some 65536) 7) rfl
  have h3 := h2.step (l := Move.wake 0 ∅) rfl
  have h4 := h3.step (l := Move.unlock 0) rfl
  have h5 := h4.step (l := Move.see 1) rfl
  have h6 := h5.step (l := Move.ctlCheck 1) rfl
  have h7 := h6.step (l := Move.wait 1) rfl
  have h8 := h7.step (l := Move.bgCheck 1) rfl
  have h9 := h8.step (l := Move.run (.look 1)) rfl
  have h10 := h9.step (l := Move.run (.ack 1 true)) rfl
  have h11 := h10.step (l := Move.run (.lockRoot 1)) rfl
  have h12 := h11.step (l := Move.run (.clean 1)) rfl
  exact ⟨_, h12, rfl, rfl, rfl, .inl ⟨1, some 7, rfl, nofun⟩⟩

end Run
end Subcontexts.Log
