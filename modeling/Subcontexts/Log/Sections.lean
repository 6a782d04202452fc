import Subcontexts.Log.Model

/-! What each section does in a reachable state, where the log has at most one step. -/

namespace Subcontexts.Log

def Phase.Owes (ph : Phase) : Prop := ph = .owing ∨ ph = .cleaning

theorem Phase.Owes.ne_idle {ph : Phase} (h : ph.Owes) : ph ≠ .idle := by
  rintro rfl
  rcases h with h | h <;> cases h

structure Single (s : State) : Prop where
  outstanding : s.cleanupLog = none ↔ s.pendingReservation = none
  empty : s.cleanupLog = none → s.cleanupLogTail = none
  tail : ∀ a, s.cleanupLog = some a → s.cleanupLogTail = some a
  next : ∀ a, s.cleanupLog = some a → (s.steps a).next = none
  seqNum : ∀ a, s.cleanupLog = some a → (s.steps a).seqNum = s.lastSeqNum
  pending : ∀ a, s.cleanupLog = some a → (s.steps a).op = .reserveMemory ∧
    s.pendingReservation = some ⟨(s.steps a).vaddr, (s.steps a).len⟩
  handling : ∀ p cur first need, s.phase p = .handling cur first need →
    s.cleanupLog = some cur ∧ first = cur ∧ need = false ∧ (s.steps cur).lock = some p
  cleaning : ∀ p, s.phase p = .cleaning → s.rootLock = some p ∧
    ∃ a, s.cleanupLog = some a ∧ (s.steps a).lock = some p
  owes : ∀ p, (s.phase p).Owes →
    ∃ a, s.cleanupLog = some a ∧ (s.steps a).ackCount = (s.steps a).ackTarg
  unique : ∀ p q, (s.phase p).Owes → (s.phase q).Owes → p = q
  pool : 0 < s.freeStructs
  room : s.lastSeqNum + s.freeStructs < 2 ^ 64

theorem Single.init {s : State} (h : s.init) : Single s := by
  obtain ⟨-, hl, hlog, htail, hpend, hpool, hfree, -, -, -, hph⟩ := h
  refine ⟨by simp [hlog, hpend], fun _ => htail, ?_, ?_, ?_, ?_, ?_, ?_, ?_, ?_, hpool, by omega⟩
  · intro a ha
    rw [hlog] at ha
    cases ha
  · intro a ha
    rw [hlog] at ha
    cases ha
  · intro a ha
    rw [hlog] at ha
    cases ha
  · intro a ha
    rw [hlog] at ha
    cases ha
  · intro p cur first need hp
    rw [hph] at hp
    cases hp
  · intro p hp
    rw [hph] at hp
    cases hp
  · intro p hp
    rw [hph] at hp
    rcases hp with hp | hp <;> cases hp
  · intro p q hp
    rw [hph] at hp
    rcases hp with hp | hp <;> cases hp

def posted (s : State) (p : Pid) (a : Addr) (r : Region) : State :=
  { s with
    freeStructs := s.freeStructs - 1
    pendingReservation := some r
    lastSeqNum := s.lastSeqNum + 1
    cleanupLog := some a
    cleanupLogTail := some a
    steps := Function.update s.steps a
      ⟨none, s.lastSeqNum + 1, none, s.procCount, 1, .reserveMemory, r.vaddr, r.len⟩
    flushPoint := Function.update s.flushPoint p (s.flushPoint p + 1) }

def looked (s : State) (p : Pid) (a : Addr) : State :=
  (s.setStep a { s.steps a with lock := some p }).setPhase p (.handling a a false)

def owes (step : CleanupLogStep) : Bool := step.ackCount + 1 == step.ackTarg

def acked (s : State) (p : Pid) (a : Addr) (rr : Pid → Option Region) : State :=
  { s with
    recentReserve := rr
    flushPoint := Function.update s.flushPoint p (s.flushPoint p + 1)
    steps := Function.update s.steps a
      { s.steps a with ackCount := (s.steps a).ackCount + 1, lock := none }
    phase := Function.update s.phase p (if owes (s.steps a) then .owing else .idle) }

def rootLocked (s : State) (p : Pid) (a : Addr) : State :=
  { (s.setStep a { s.steps a with lock := some p }).setPhase p .cleaning with rootLock := some p }

def cleaned (s : State) (p : Pid) (r : Region) : State :=
  { s.setPhase p .idle with
    pendingReservation := none
    reservedRegions := r :: s.reservedRegions
    cleanupLog := none
    cleanupLogTail := none
    rootLock := none }

def joined (s : State) (p : Pid) : State :=
  { (s.setFlush p s.lastSeqNum).setPhase p .idle with
    procCount := s.procCount + 1
    registered := insert p s.registered
    alive := insert p s.alive }

def removed (s : State) (p : Pid) : State :=
  { s with procCount := s.procCount - 1, registered := s.registered.erase p }

theorem setLock_counts (steps : Addr → CleanupLogStep) (a b : Addr) (lock : Option Pid) :
    (Function.update steps a { steps a with lock := lock } b).ackCount = (steps b).ackCount ∧
      (Function.update steps a { steps a with lock := lock } b).ackTarg = (steps b).ackTarg := by
  by_cases hb : b = a
  · subst b
    rw [Function.update_self]
    exact ⟨rfl, rfl⟩
  · rw [Function.update_of_ne hb]
    exact ⟨rfl, rfl⟩

section Specs
variable {pg : PageSize} {s t : State} {p : Pid}

theorem post_ends (S : Single s) {pages : Nat} {newStep : Option Addr} {range : Option Nat}
    (h : step pg s (.post p pages newStep range) = .ok t) :
    s.rootLock = none ∧ p ∈ s.registered ∧ s.cleanupLog = none ∧ 0 < pages ∧ 1 < s.procCount ∧
      s.flushPoint p = s.lastSeqNum ∧ 1 < s.freeStructs ∧
      (newStep = none ∧ t = { s with freeStructs := s.freeStructs - 1 } ∨
        ∃ a base, newStep = some a ∧ range = some base ∧
          t = posted s p a ⟨base, u64 (pages * pg.bytes)⟩) := by
  simp only [step, postNewReservation, bind_eq_ok, check_eq_ok, blockedUnless_eq_ok] at h
  obtain ⟨_, ⟨hroot, hreg⟩, _, hpend, _, hpages, _, hproc, h⟩ := h
  have hlog := S.outstanding.mpr hpend
  have htail := S.empty hlog
  have hroom := S.room
  split at h
  · cases h
  rename_i hflush
  simp only [not_not] at hflush
  simp only [bind_eq_ok, check_eq_ok] at h
  obtain ⟨_, hfree, h⟩ := h
  split at h
  · cases h
  rename_i hfree'
  refine ⟨hroot, hreg, hlog, hpages, hproc, hflush, by omega, ?_⟩
  cases newStep with
  | none =>
    left
    exact ⟨rfl, (Except.ok.inj h).symm⟩
  | some a =>
    right
    cases range with
    | none => cases h
    | some base =>
      have hu : u64 (s.lastSeqNum + 1) = s.lastSeqNum + 1 := u64_of_lt (by omega)
      refine ⟨a, base, rfl, rfl, ?_⟩
      simp only [pure_bind, append, hlog, htail, check_pos, ok_bind, hu, hflush, State.setStep,
        State.setFlush] at h
      exact (Except.ok.inj h).symm.trans (by simp only [posted, hflush])

theorem post_spec (S : Single s) {pages : Nat} {newStep : Option Addr} {range : Option Nat}
    (h : step pg s (.post p pages newStep range) = .ok t) :
    s.rootLock = none ∧ p ∈ s.registered ∧ s.cleanupLog = none ∧ 1 < s.procCount ∧
      s.flushPoint p = s.lastSeqNum ∧ 1 < s.freeStructs ∧
      (t = { s with freeStructs := s.freeStructs - 1 } ∨ ∃ a r, t = posted s p a r) := by
  obtain ⟨hroot, hreg, hlog, -, hproc, hflush, hfree, hend⟩ := post_ends S h
  refine ⟨hroot, hreg, hlog, hproc, hflush, hfree, hend.imp And.right ?_⟩
  rintro ⟨a, base, -, -, ht⟩
  exact ⟨a, _, ht⟩

theorem findStep_single {a b : Addr} {n : Nat} (hnext : (s.steps a).next = none)
    (h : findStep s.steps n a = .ok b) : b = a := by
  simp only [findStep, bind_eq_ok, check_eq_ok] at h
  obtain ⟨_, hle, h⟩ := h
  split at h
  · rename_i hlt
    simp only [bind_eq_ok, check_eq_ok] at h
    obtain ⟨c, hc, _, -, h⟩ := h
    cases hn : n - (s.steps a).seqNum with
    | zero =>
      rw [hn] at hc
      obtain rfl : a = c := Except.ok.inj hc
      simp only [hop, hnext] at h
      cases h
    | succ k =>
      rw [hn] at hc
      simp only [hop, hnext] at hc
      cases hc
  · exact (Except.ok.inj h).symm

theorem look_spec (S : Single s) (h : step pg s (.look p) = .ok t) :
    s.rootLock = none ∧ p ∈ s.alive ∧ s.phase p = .idle ∧ (t = s ∨ ∃ a, s.cleanupLog = some a ∧
      (s.steps a).lock = none ∧ s.lastSeqNum = s.flushPoint p + 1 ∧ t = looked s p a) := by
  simp only [step, look, bind_eq_ok, blockedUnless_eq_ok] at h
  obtain ⟨_, ⟨hroot, halive, hph⟩, h⟩ := h
  refine ⟨hroot, halive, hph, ?_⟩
  split at h
  · exact .inl (Except.ok.inj h).symm
  · simp only [bind_eq_ok, check_eq_ok] at h
    obtain ⟨_, hlt, h⟩ := h
    split at h
    · cases h
    · rename_i a hlog
      simp only [bind_eq_ok, check_eq_ok, blockedUnless_eq_ok] at h
      obtain ⟨b, hb, _, hseq, _, hlock, h⟩ := h
      obtain rfl := findStep_single (S.next a hlog) hb
      rw [S.seqNum b hlog] at hseq
      exact .inr ⟨b, hlog, hlock, hseq, (Except.ok.inj h).symm⟩

theorem handle_spec {r : CleanupLogStep} {mapped : Bool} (h : handleCleanupLogStep s p r mapped = .ok t) :
    ∃ rr, t = { s with recentReserve := rr } := by
  unfold handleCleanupLogStep at h
  split at h
  · split at h
    · exact ⟨s.recentReserve, (Except.ok.inj h).symm⟩
    · split at h
      · exact ⟨_, (Except.ok.inj h).symm⟩
      · cases h
  · cases h

theorem ack_spec (S : Single s) {mapped : Bool} (h : step pg s (.ack p mapped) = .ok t) :
    ∃ a rr, s.phase p = .handling a a false ∧ s.cleanupLog = some a ∧
      (s.steps a).lock = some p ∧ (s.steps a).ackCount < (s.steps a).ackTarg ∧
      s.lastSeqNum = s.flushPoint p + 1 ∧ t = acked s p a rr := by
  simp only [step] at h
  split at h
  · rename_i cur first need hph
    obtain ⟨hlog, rfl, rfl, hlock⟩ := S.handling p cur first need hph
    simp only [ack, bind_eq_ok, check_eq_ok] at h
    obtain ⟨u, hu, _, hlt, _, hseq, h⟩ := h
    obtain ⟨rr, rfl⟩ := handle_spec hu
    rw [S.seqNum _ hlog] at hseq
    refine ⟨first, rr, hph, hlog, hlock, hlt, hseq, ?_⟩
    simp only [S.next _ hlog] at h
    refine (Except.ok.inj h).symm.trans ?_
    simp only [acked, owes, State.setPhase, State.setStep, State.setFlush, Bool.false_or,
      beq_self_eq_true, Bool.true_and, S.next _ hlog]
    rfl
  · cases h

theorem lockRoot_spec (h : step pg s (.lockRoot p) = .ok t) :
    ∃ a, s.rootLock = none ∧ s.phase p = .owing ∧ s.cleanupLog = some a ∧
      (s.steps a).lock = none ∧ (s.steps a).ackCount = (s.steps a).ackTarg ∧
      t = rootLocked s p a := by
  simp only [step, bind_eq_ok, blockedUnless_eq_ok] at h
  obtain ⟨_, ⟨hroot, hph⟩, h⟩ := h
  unfold lockRoot at h
  split at h
  · rename_i a b hlog htail
    simp only [bind_eq_ok, check_eq_ok, blockedUnless_eq_ok] at h
    obtain ⟨_, hlock, _, hack, h⟩ := h
    exact ⟨a, hroot, hph, hlog, hlock, hack, (Except.ok.inj h).symm⟩
  · cases h

theorem clean_ends (S : Single s) (h : step pg s (.clean p) = .ok t) :
    ∃ a r, s.phase p = .cleaning ∧ s.cleanupLog = some a ∧ (s.steps a).lock = some p ∧
      s.pendingReservation = some r ∧ r.len ≠ 0 ∧ t = cleaned s p r := by
  simp only [step, bind_eq_ok, blockedUnless_eq_ok] at h
  obtain ⟨_, hph, h⟩ := h
  obtain ⟨-, a, hlog, hlock⟩ := S.cleaning p hph
  obtain ⟨hop, hpend⟩ := S.pending a hlog
  simp only [clean, hlog, bind_eq_ok] at h
  obtain ⟨u, hu, h⟩ := h
  simp only [S.next a hlog] at h
  simp only [finishStep, hop, hpend, bind_eq_ok] at hu
  obtain ⟨_, -, hu⟩ := hu
  split at hu
  · rename_i hlen
    refine ⟨a, _, hph, hlog, hlock, hpend, hlen, ?_⟩
    simp only [bind_eq_ok] at hu
    obtain ⟨_, -, hu⟩ := hu
    obtain rfl := Except.ok.inj hu
    exact (Except.ok.inj h).symm
  · cases hu

theorem clean_spec (S : Single s) (h : step pg s (.clean p) = .ok t) :
    ∃ a r, s.phase p = .cleaning ∧ s.cleanupLog = some a ∧ (s.steps a).lock = some p ∧
      s.pendingReservation = some r ∧ t = cleaned s p r := by
  obtain ⟨a, r, hph, hlog, hlock, hpend, -, ht⟩ := clean_ends S h
  exact ⟨a, r, hph, hlog, hlock, hpend, ht⟩

theorem join_spec (h : step pg s (.join p) = .ok t) :
    s.rootLock = none ∧ p ∉ s.alive ∧ s.pendingReservation = none ∧ t = joined s p := by
  simp only [step, join, bind_eq_ok, blockedUnless_eq_ok] at h
  obtain ⟨_, ⟨hroot, halive⟩, h⟩ := h
  split at h
  · cases h
  · exact ⟨hroot, halive, Decidable.of_not_not ‹_›, (Except.ok.inj h).symm⟩

theorem remove_ok {u : State} (h : remove s p = .ok u) :
    s.flushPoint p = s.lastSeqNum ∧ u = removed s p := by
  unfold remove at h
  split at h
  · simp only [bind_eq_ok] at h
    obtain ⟨_, -, _, h, -⟩ := h
    cases h
  · exact ⟨Decidable.of_not_not ‹_›, (Except.ok.inj h).symm⟩

theorem remove_spec (h : step pg s (.remove p) = .ok t) :
    s.rootLock = none ∧ p ∈ s.registered ∧ s.flushPoint p = s.lastSeqNum ∧ t = removed s p := by
  simp only [step, bind_eq_ok, blockedUnless_eq_ok] at h
  obtain ⟨_, ⟨hroot, hreg⟩, h⟩ := h
  exact ⟨hroot, hreg, remove_ok h⟩

theorem exit_spec (h : step pg s (.exit p) = .ok t) :
    p ∈ s.alive ∧ p ∉ s.registered ∧ t = exit s p := by
  simp only [step, bind_eq_ok, blockedUnless_eq_ok] at h
  obtain ⟨_, ⟨halive, hreg⟩, h⟩ := h
  exact ⟨halive, hreg, (Except.ok.inj h).symm⟩

theorem depart_spec (h : step pg s (.depart p) = .ok t) :
    s.rootLock = none ∧ p ∈ s.registered ∧ s.flushPoint p = s.lastSeqNum ∧
      t = exit (removed s p) p := by
  simp only [step, bind_eq_ok, blockedUnless_eq_ok] at h
  obtain ⟨_, ⟨hroot, hreg⟩, u, hu, h⟩ := h
  obtain ⟨hflush, rfl⟩ := remove_ok hu
  exact ⟨hroot, hreg, hflush, (Except.ok.inj h).symm⟩

end Specs

section Preserved
variable {pg : PageSize} {s t : State} {p : Pid} {a : Addr}

theorem Single.not_handling (S : Single s) (hlog : s.cleanupLog = none) {cur first : Addr}
    {need : Bool} : s.phase p ≠ .handling cur first need := by
  intro hp
  rw [(S.handling p cur first need hp).1] at hlog
  cases hlog

theorem Single.not_cleaning (S : Single s) (hlog : s.cleanupLog = none) :
    s.phase p ≠ .cleaning := by
  intro hp
  obtain ⟨-, b, hb, -⟩ := S.cleaning p hp
  rw [hb] at hlog
  cases hlog

theorem Single.not_owes (S : Single s) (hlog : s.cleanupLog = none) : ¬ (s.phase p).Owes := by
  intro hp
  obtain ⟨b, hb, -⟩ := S.owes p hp
  rw [hb] at hlog
  cases hlog

theorem Single.not_owes_of_lt (S : Single s) (hlog : s.cleanupLog = some a)
    (hlt : (s.steps a).ackCount < (s.steps a).ackTarg) : ¬ (s.phase p).Owes := by
  intro hp
  obtain ⟨b, hb, hack⟩ := S.owes p hp
  obtain rfl := Option.some.inj (hlog.symm.trans hb)
  exact hlt.ne hack

theorem Single.not_handling_of_lock (S : Single s) (hlog : s.cleanupLog = some a)
    (hlock : (s.steps a).lock ≠ some p) {cur first : Addr} {need : Bool} :
    s.phase p ≠ .handling cur first need := by
  intro hp
  obtain ⟨hcur, -, -, hl⟩ := S.handling p cur first need hp
  obtain rfl := Option.some.inj (hlog.symm.trans hcur)
  exact hlock hl

theorem Single.not_cleaning_of_lock (S : Single s) (hlog : s.cleanupLog = some a)
    (hlock : (s.steps a).lock ≠ some p) : s.phase p ≠ .cleaning := by
  intro hp
  obtain ⟨-, b, hb, hl⟩ := S.cleaning p hp
  obtain rfl := Option.some.inj (hlog.symm.trans hb)
  exact hlock hl

theorem Single.posted (S : Single s) (hlog : s.cleanupLog = none) (hfree : 1 < s.freeStructs)
    (r : Region) : Single (posted s p a r) := by
  have hroom := S.room
  refine ⟨by simp [Log.posted], by simp [Log.posted], ?_, ?_, ?_, ?_, ?_, ?_, ?_, ?_, ?_, ?_⟩
  · rintro b ⟨⟩
    rfl
  · rintro b ⟨⟩
    simp [Log.posted]
  · rintro b ⟨⟩
    simp [Log.posted]
  · rintro b ⟨⟩
    simp [Log.posted]
  · intro q cur first need hq
    exact absurd hq (S.not_handling hlog)
  · intro q hq
    exact absurd hq (S.not_cleaning hlog)
  · intro q hq
    exact absurd hq (S.not_owes hlog)
  · intro q u hq
    exact absurd hq (S.not_owes hlog)
  · change 0 < s.freeStructs - 1
    omega
  · change s.lastSeqNum + 1 + (s.freeStructs - 1) < 2 ^ 64
    omega

theorem Single.relock (S : Single s) (hlog : s.cleanupLog = some a) (st : CleanupLogStep)
    (hst : st = { s.steps a with lock := st.lock, ackCount := st.ackCount }) {ph : Phase}
    (hothers : ∀ q, q ≠ p → (s.steps a).lock ≠ some q)
    (hhand : ∀ cur first need, ph = .handling cur first need →
      cur = a ∧ first = a ∧ need = false ∧ st.lock = some p)
    {rl : Option Pid} (hclean : ph = .cleaning → rl = some p ∧ st.lock = some p)
    (howes : ph.Owes → st.ackCount = st.ackTarg)
    (hrest : ∀ q, q ≠ p → (s.phase q).Owes → ¬ ph.Owes ∧ st.ackCount = st.ackTarg)
    (rr : Pid → Option Region) (fl : Pid → Nat) :
    Single { s with
      steps := Function.update s.steps a st
      phase := Function.update s.phase p ph
      rootLock := rl
      recentReserve := rr
      flushPoint := fl } := by
  refine ⟨S.outstanding, S.empty, S.tail, ?_, ?_, ?_, ?_, ?_, ?_, ?_, S.pool, S.room⟩
  · intro b hb
    obtain rfl := Option.some.inj (hlog.symm.trans hb)
    simp only [Function.update_self]
    rw [hst]
    exact S.next a hlog
  · intro b hb
    obtain rfl := Option.some.inj (hlog.symm.trans hb)
    simp only [Function.update_self]
    rw [hst]
    exact S.seqNum a hlog
  · intro b hb
    obtain rfl := Option.some.inj (hlog.symm.trans hb)
    simp only [Function.update_self]
    rw [hst]
    exact S.pending a hlog
  · intro q cur first need hq
    rcases Trans.of_update (P := (· = Phase.handling cur first need)) hq with ⟨rfl, hnew⟩ | ⟨hqp, hq⟩
    · obtain ⟨rfl, rfl, rfl, hl⟩ := hhand cur first need hnew
      refine ⟨hlog, rfl, rfl, ?_⟩
      simp only [Function.update_self, hl]
    · exact absurd hq (S.not_handling_of_lock hlog (hothers q hqp))
  · intro q hq
    rcases Trans.of_update (P := (· = Phase.cleaning)) hq with ⟨rfl, hnew⟩ | ⟨hqp, hq⟩
    · obtain ⟨hr, hl⟩ := hclean hnew
      refine ⟨hr, a, hlog, ?_⟩
      simp only [Function.update_self, hl]
    · exact absurd hq (S.not_cleaning_of_lock hlog (hothers q hqp))
  · intro q hq
    refine ⟨a, hlog, ?_⟩
    simp only [Function.update_self]
    rcases Trans.of_update (P := Phase.Owes) hq with ⟨-, hq⟩ | ⟨hqp, hq⟩
    · exact howes hq
    · exact (hrest q hqp hq).2
  · intro q u hq hu
    rcases Trans.of_update (P := Phase.Owes) hq with ⟨hqp, hq⟩ | ⟨hqp, hq⟩
    · rcases Trans.of_update (P := Phase.Owes) hu with ⟨hup, -⟩ | ⟨hup, hu⟩
      · exact hqp.trans hup.symm
      · exact absurd hq (hrest u hup hu).1
    · rcases Trans.of_update (P := Phase.Owes) hu with ⟨-, hu⟩ | ⟨-, hu⟩
      · exact absurd hu (hrest q hqp hq).1
      · exact S.unique q u hq hu

theorem Single.setIdle (S : Single s) (fl : Pid → Nat) (n : Nat) (rs al : Finset Pid) :
    Single { s.setPhase p .idle with
      flushPoint := fl, procCount := n, registered := rs, alive := al } := by
  have hown : ∀ q, (Function.update s.phase p .idle q).Owes → (s.phase q).Owes := fun q hq =>
    (Trans.of_update_of_not hq fun h => h.ne_idle rfl).2
  refine ⟨S.outstanding, S.empty, S.tail, S.next, S.seqNum, S.pending, ?_, ?_, ?_, ?_, S.pool,
    S.room⟩
  · intro q cur first need hq
    obtain ⟨-, hq⟩ := Trans.of_update_of_not (P := (· = Phase.handling cur first need)) hq nofun
    exact S.handling q cur first need hq
  · intro q hq
    obtain ⟨-, hq⟩ := Trans.of_update_of_not (P := (· = Phase.cleaning)) hq nofun
    exact S.cleaning q hq
  · intro q hq
    exact S.owes q (hown q hq)
  · intro q u hq hu
    exact S.unique q u (hown q hq) (hown u hu)

theorem Single.cleaned (S : Single s) (hph : s.phase p = .cleaning) (hlog : s.cleanupLog = some a)
    (r : Region) : Single (cleaned s p r) := by
  obtain ⟨hroot, b, hb, hlock⟩ := S.cleaning p hph
  obtain rfl := Option.some.inj (hlog.symm.trans hb)
  have hdone : ∀ q, ¬ (Function.update s.phase p .idle q).Owes := by
    intro q hq
    obtain ⟨hqp, hq⟩ := Trans.of_update_of_not hq fun h => h.ne_idle rfl
    exact hqp (S.unique q p hq (.inr hph))
  refine ⟨by simp [Log.cleaned], fun _ => rfl, ?_, ?_, ?_, ?_, ?_, ?_, ?_, ?_, S.pool, S.room⟩
  · rintro c ⟨⟩
  · rintro c ⟨⟩
  · rintro c ⟨⟩
  · rintro c ⟨⟩
  · intro q cur first need hq
    obtain ⟨hqp, hq⟩ := Trans.of_update_of_not (P := (· = Phase.handling cur first need)) hq nofun
    exact absurd hq (S.not_handling_of_lock hlog fun hl =>
      hqp (Option.some.inj (hl.symm.trans hlock)))
  · intro q hq
    obtain ⟨hqp, hq⟩ := Trans.of_update_of_not (P := (· = Phase.cleaning)) hq nofun
    exact absurd (Option.some.inj ((S.cleaning q hq).1.symm.trans hroot)) hqp
  · intro q hq
    exact absurd hq (hdone q)
  · intro q u hq
    exact absurd hq (hdone q)

theorem Single.step (S : Single s) {act : Action} (h : Log.step pg s act = .ok t) : Single t := by
  cases act with
  | post p pages newStep range =>
    obtain ⟨-, -, hlog, -, -, hfree, rfl | ⟨a, r, rfl⟩⟩ := post_spec S h
    · have hroom := S.room
      exact ⟨S.outstanding, S.empty, S.tail, S.next, S.seqNum, S.pending, S.handling, S.cleaning,
        S.owes, S.unique, Nat.sub_pos_of_lt hfree, by
        change s.lastSeqNum + (s.freeStructs - 1) < 2 ^ 64
        omega⟩
    · exact S.posted hlog hfree r
  | look p =>
    obtain ⟨-, -, -, rfl | ⟨a, hlog, hlock, -, rfl⟩⟩ := look_spec S h
    · exact S
    · have hno : ∀ cur first need, ¬ (Phase.handling cur first need).Owes := by
        rintro cur first need (⟨⟨⟩⟩ | ⟨⟨⟩⟩)
      refine S.relock hlog _ rfl (fun q _ => by simp [hlock]) ?_ (by simp)
        (fun h => absurd h (hno a a false)) (fun q _ hq => ⟨hno a a false, ?_⟩) _ _
      · rintro cur first need ⟨⟩
        exact ⟨rfl, rfl, rfl, rfl⟩
      · obtain ⟨b, hb, hack⟩ := S.owes q hq
        obtain rfl := Option.some.inj (hlog.symm.trans hb)
        exact hack
  | ack p mapped =>
    obtain ⟨a, rr, hph, hlog, hlock, hlt, hflush, rfl⟩ := ack_spec S h
    refine S.relock hlog _ rfl (fun q hq => ?_) ?_ ?_ ?_ ?_ _ _
    · rw [hlock]
      exact fun hpq => hq (Option.some.inj hpq).symm
    · intro cur first need hne
      split at hne <;> cases hne
    · intro hne
      split at hne <;> cases hne
    · intro hown
      split at hown
      · exact beq_iff_eq.mp ‹_›
      · rcases hown with hown | hown <;> cases hown
    · intro q _ hq
      exact absurd hq (S.not_owes_of_lt hlog hlt)
  | lockRoot p =>
    obtain ⟨a, -, hph, hlog, hlock, hack, rfl⟩ := lockRoot_spec h
    refine S.relock hlog { s.steps a with lock := some p } rfl (fun q _ => by simp [hlock]) ?_
      (fun _ => ⟨rfl, rfl⟩) (fun _ => hack) (fun q hq hown => absurd (S.unique q p hown (.inl hph)) hq) _ _
    rintro cur first need ⟨⟩
  | clean p =>
    obtain ⟨a, r, hph, hlog, -, -, rfl⟩ := clean_spec S h
    exact S.cleaned hph hlog r
  | join p =>
    obtain ⟨-, -, -, rfl⟩ := join_spec h
    exact S.setIdle _ _ _ _
  | remove p =>
    obtain ⟨-, -, -, rfl⟩ := remove_spec h
    exact ⟨S.outstanding, S.empty, S.tail, S.next, S.seqNum, S.pending, S.handling, S.cleaning,
      S.owes, S.unique, S.pool, S.room⟩
  | exit p =>
    obtain ⟨-, -, rfl⟩ := exit_spec h
    exact S.setIdle _ _ _ _
  | depart p =>
    obtain ⟨-, -, -, rfl⟩ := depart_spec h
    exact S.setIdle _ _ _ _

end Preserved
end Subcontexts.Log
