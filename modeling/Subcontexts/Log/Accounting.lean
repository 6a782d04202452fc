import Subcontexts.Log.Sections

/-! Accounting of the cleanup log where the background thread of a process that leaves ends with
its removal. -/

namespace Subcontexts.Log

/-- A removal and the end of the background thread are one step. -/
def Prompt : Action → Prop
  | .remove _ => False
  | .exit _ => False
  | _ => True

def behind (s : State) : Finset Pid := s.registered.filter fun p => s.flushPoint p < s.lastSeqNum

structure Counted (s : State) : Prop where
  alive : s.alive = s.registered
  count : s.procCount = s.registered.card
  flush : ∀ p ∈ s.registered,
    s.flushPoint p = s.lastSeqNum ∨ s.cleanupLog ≠ none ∧ s.flushPoint p + 1 = s.lastSeqNum
  acks : ∀ a, s.cleanupLog = some a →
    (s.steps a).ackCount + (behind s).card = (s.steps a).ackTarg
  handling : ∀ p cur first need, s.phase p = .handling cur first need →
    p ∈ s.registered ∧ s.flushPoint p + 1 = s.lastSeqNum

theorem Counted.init {s : State} (h : s.init) : Counted s := by
  obtain ⟨-, hl, hlog, -, -, -, -, hcount, halive, ⟨p, hreg, hflush⟩, hph⟩ := h
  refine ⟨halive, by rw [hcount, hreg, Finset.card_singleton], ?_, ?_, ?_⟩
  · intro q hq
    rw [hreg, Finset.mem_singleton] at hq
    subst q
    exact .inl (hflush.trans hl.symm)
  · intro a ha
    rw [hlog] at ha
    cases ha
  · intro q cur first need hq
    rw [hph] at hq
    cases hq

section Steps
variable {pg : PageSize} {s t : State} {p : Pid} {a : Addr}

theorem Counted.quiet (C : Counted s) (hlog : s.cleanupLog = none) (hp : p ∈ s.registered) :
    s.flushPoint p = s.lastSeqNum := by
  rcases C.flush p hp with h | ⟨h, -⟩
  · exact h
  · exact absurd hlog h

theorem behind_posted (C : Counted s) (hlog : s.cleanupLog = none) (r : Region) :
    behind (posted s p a r) = s.registered.erase p := by
  have hq := fun q => C.quiet hlog (p := q)
  ext q
  change q ∈ s.registered.filter (fun q =>
    Function.update s.flushPoint p (s.flushPoint p + 1) q < s.lastSeqNum + 1) ↔ _
  rw [Finset.mem_filter, Finset.mem_erase]
  by_cases hqp : q = p
  · subst q
    rw [Function.update_self]
    constructor
    · rintro ⟨hreg, hlt⟩
      have := hq p hreg
      omega
    · intro h
      exact absurd rfl h.1
  · rw [Function.update_of_ne hqp]
    constructor
    · exact fun h => ⟨hqp, h.1⟩
    · exact fun h => ⟨h.2, (hq q h.2).trans_lt (Nat.lt_succ_self _)⟩

theorem Counted.posted (C : Counted s) (S : Single s) (hlog : s.cleanupLog = none)
    (hp : p ∈ s.registered) (hproc : 1 < s.procCount) (r : Region) : Counted (posted s p a r) := by
  have hq := fun q => C.quiet hlog (p := q)
  refine ⟨C.alive, C.count, ?_, ?_, ?_⟩
  · intro q hreg
    change Function.update s.flushPoint p (s.flushPoint p + 1) q = s.lastSeqNum + 1 ∨
      some a ≠ none ∧ Function.update s.flushPoint p (s.flushPoint p + 1) q + 1 = s.lastSeqNum + 1
    by_cases hqp : q = p
    · subst q
      rw [Function.update_self, hq p hp]
      exact .inl rfl
    · rw [Function.update_of_ne hqp, hq q hreg]
      exact .inr ⟨by simp, rfl⟩
  · rintro b ⟨⟩
    rw [behind_posted C hlog, Finset.card_erase_of_mem hp, ← C.count]
    simp only [Log.posted, Function.update_self]
    omega
  · intro q cur first need hph
    exact absurd hph (S.not_handling hlog)

theorem Counted.locked (C : Counted s) {ph : Phase} (rl : Option Pid)
    (hph : ∀ cur first need, ph = .handling cur first need →
      p ∈ s.registered ∧ s.flushPoint p + 1 = s.lastSeqNum) :
    Counted { (s.setStep a { s.steps a with lock := some p }).setPhase p ph with
      rootLock := rl } := by
  refine ⟨C.alive, C.count, C.flush, ?_, ?_⟩
  · intro b hb
    obtain ⟨hcount, htarg⟩ := setLock_counts s.steps a b (some p)
    change (Function.update s.steps a _ b).ackCount + (behind s).card =
      (Function.update s.steps a _ b).ackTarg
    rw [hcount, htarg]
    exact C.acks b hb
  · intro q cur first need hq
    rcases Trans.of_update (P := (· = Phase.handling cur first need)) hq with ⟨rfl, hnew⟩ | ⟨-, hq⟩
    · exact hph cur first need hnew
    · exact C.handling q cur first need hq

theorem behind_acked (hflush : s.lastSeqNum = s.flushPoint p + 1) (rr : Pid → Option Region) :
    behind (acked s p a rr) = (behind s).erase p := by
  ext q
  change q ∈ s.registered.filter (fun q =>
    Function.update s.flushPoint p (s.flushPoint p + 1) q < s.lastSeqNum) ↔
      q ∈ (s.registered.filter fun q => s.flushPoint q < s.lastSeqNum).erase p
  rw [Finset.mem_filter, Finset.mem_erase, Finset.mem_filter]
  by_cases hqp : q = p
  · subst q
    rw [Function.update_self]
    constructor
    · rintro ⟨-, hlt⟩
      omega
    · intro h
      exact absurd rfl h.1
  · rw [Function.update_of_ne hqp]
    exact ⟨fun h => ⟨hqp, h⟩, fun h => h.2⟩

theorem Counted.acked (C : Counted s) (S : Single s) (hph : s.phase p = .handling a a false)
    (hlog : s.cleanupLog = some a) (hlock : (s.steps a).lock = some p)
    (hlt : (s.steps a).ackCount < (s.steps a).ackTarg)
    (hflush : s.lastSeqNum = s.flushPoint p + 1) (rr : Pid → Option Region) :
    Counted (acked s p a rr) := by
  obtain ⟨hreg, -⟩ := C.handling p a a false hph
  have hmem : p ∈ behind s := by
    rw [behind, Finset.mem_filter]
    exact ⟨hreg, by omega⟩
  have hphase : ∀ q, (Log.acked s p a rr).phase q =
      if q = p then (if owes (s.steps a) then .owing else .idle) else s.phase q := by
    intro q
    exact Function.update_apply ..
  have hself : ((Log.acked s p a rr).steps a).ackCount = (s.steps a).ackCount + 1 ∧
      ((Log.acked s p a rr).steps a).ackTarg = (s.steps a).ackTarg := by
    change (Function.update s.steps a _ a).ackCount = _ ∧ (Function.update s.steps a _ a).ackTarg = _
    rw [Function.update_self]
    exact ⟨rfl, rfl⟩
  have hnone : ∀ q, q ≠ p → ∀ cur first need, s.phase q ≠ .handling cur first need := by
    intro q hq cur first need
    refine S.not_handling_of_lock hlog fun hl => hq ?_
    exact Option.some.inj (hl.symm.trans hlock)
  refine ⟨C.alive, C.count, ?_, ?_, ?_⟩
  · intro q hq
    change Function.update s.flushPoint p (s.flushPoint p + 1) q = s.lastSeqNum ∨
      s.cleanupLog ≠ none ∧ Function.update s.flushPoint p (s.flushPoint p + 1) q + 1 = s.lastSeqNum
    by_cases hqp : q = p
    · subst q
      rw [Function.update_self]
      exact .inl hflush.symm
    · rw [Function.update_of_ne hqp]
      exact C.flush q hq
  · intro b hb
    obtain rfl := Option.some.inj (hlog.symm.trans hb)
    -- one more has acknowledged, and one less is behind
    rw [hself.1, hself.2, behind_acked hflush, Finset.card_erase_of_mem hmem]
    have hacks := C.acks a hlog
    have hpos := Finset.card_pos.mpr ⟨p, hmem⟩
    omega
  · intro q cur first need hq
    rw [hphase] at hq
    split at hq
    · split at hq <;> cases hq
    · exact absurd hq (hnone q ‹_› cur first need)

theorem Counted.cleaned (C : Counted s) (S : Single s) (hph : s.phase p = .cleaning)
    (hlog : s.cleanupLog = some a) (r : Region) : Counted (cleaned s p r) := by
  obtain ⟨b, hb, hack⟩ := S.owes p (.inr hph)
  obtain rfl := Option.some.inj (hlog.symm.trans hb)
  have hempty : behind s = ∅ := by
    have := C.acks a hlog
    exact Finset.card_eq_zero.mp (by omega)
  refine ⟨C.alive, C.count, ?_, ?_, ?_⟩
  · intro q hq
    left
    change s.flushPoint q = s.lastSeqNum
    rcases C.flush q hq with h | ⟨-, h⟩
    · exact h
    · have hmem : q ∈ behind s := Finset.mem_filter.mpr ⟨hq, by omega⟩
      rw [hempty] at hmem
      cases hmem
  · rintro b ⟨⟩
  · intro q cur first need hq
    obtain ⟨-, hq⟩ := Trans.of_update_of_not (P := (· = Phase.handling cur first need)) hq nofun
    exact C.handling q cur first need hq

theorem Counted.joined (C : Counted s) (S : Single s) (hlog : s.cleanupLog = none)
    (hp : p ∉ s.alive) : Counted (joined s p) := by
  have hnreg : p ∉ s.registered := C.alive ▸ hp
  refine ⟨?_, ?_, ?_, ?_, ?_⟩
  · change insert p s.alive = insert p s.registered
    rw [C.alive]
  · change s.procCount + 1 = (insert p s.registered).card
    rw [Finset.card_insert_of_notMem hnreg, C.count]
  · intro q hreg
    left
    change Function.update s.flushPoint p s.lastSeqNum q = s.lastSeqNum
    by_cases hqp : q = p
    · subst q
      exact Function.update_self ..
    · rw [Function.update_of_ne hqp]
      exact C.quiet hlog (Finset.mem_of_mem_insert_of_ne hreg hqp)
  · intro b hb
    change s.cleanupLog = some b at hb
    rw [hlog] at hb
    cases hb
  · intro q cur first need hq
    obtain ⟨-, hq⟩ := Trans.of_update_of_not (P := (· = Phase.handling cur first need)) hq nofun
    exact absurd hq (S.not_handling hlog)

theorem Counted.departed (C : Counted s) (hp : p ∈ s.registered)
    (hflush : s.flushPoint p = s.lastSeqNum) : Counted (exit (removed s p) p) := by
  have hbehind : behind (exit (removed s p) p) = behind s := by
    ext q
    change q ∈ (s.registered.erase p).filter (fun q => s.flushPoint q < s.lastSeqNum) ↔
      q ∈ s.registered.filter fun q => s.flushPoint q < s.lastSeqNum
    rw [Finset.mem_filter, Finset.mem_erase, Finset.mem_filter]
    constructor
    · exact fun h => ⟨h.1.2, h.2⟩
    · intro h
      refine ⟨⟨?_, h.1⟩, h.2⟩
      rintro rfl
      exact h.2.ne hflush
  refine ⟨?_, ?_, ?_, ?_, ?_⟩
  · change s.alive.erase p = s.registered.erase p
    rw [C.alive]
  · change s.procCount - 1 = (s.registered.erase p).card
    rw [Finset.card_erase_of_mem hp, C.count]
  · intro q hq
    exact C.flush q (Finset.mem_of_mem_erase hq)
  · intro b hb
    rw [hbehind]
    exact C.acks b hb
  · intro q cur first need hq
    obtain ⟨hqp, hq⟩ := Trans.of_update_of_not (P := (· = Phase.handling cur first need)) hq nofun
    obtain ⟨hreg, hfl⟩ := C.handling q cur first need hq
    exact ⟨Finset.mem_erase.mpr ⟨hqp, hreg⟩, hfl⟩

theorem Counted.step (C : Counted s) (S : Single s) {act : Action} (hact : Prompt act)
    (h : Log.step pg s act = .ok t) : Counted t := by
  cases act with
  | post p pages newStep range =>
    obtain ⟨-, hreg, hlog, hproc, -, -, rfl | ⟨a, r, rfl⟩⟩ := post_spec S h
    · exact ⟨C.alive, C.count, C.flush, C.acks, C.handling⟩
    · exact C.posted S hlog hreg hproc r
  | look p =>
    obtain ⟨-, halive, -, rfl | ⟨a, -, -, hflush, rfl⟩⟩ := look_spec S h
    · exact C
    · exact C.locked s.rootLock fun cur first need _ => ⟨C.alive ▸ halive, hflush.symm⟩
  | ack p mapped =>
    obtain ⟨a, rr, hph, hlog, hlock, hlt, hflush, rfl⟩ := ack_spec S h
    exact C.acked S hph hlog hlock hlt hflush rr
  | lockRoot p =>
    obtain ⟨a, -, -, hlog, -, -, rfl⟩ := lockRoot_spec h
    exact C.locked (some p) fun cur first need hne => by cases hne
  | clean p =>
    obtain ⟨a, r, hph, hlog, -, -, rfl⟩ := clean_spec S h
    exact C.cleaned S hph hlog r
  | join p =>
    obtain ⟨-, halive, hpend, rfl⟩ := join_spec h
    exact C.joined S (S.outstanding.mpr hpend) halive
  | depart p =>
    obtain ⟨-, hreg, hflush, rfl⟩ := depart_spec h
    exact C.departed hreg hflush
  | remove p => exact hact.elim
  | exit p => exact hact.elim

end Steps

section Assertions
variable {pg : PageSize} {s : State} {p : Pid}

/-- What the callers of `sc_postNewReservation` make sure of. -/
def Called (s : State) : Action → Prop
  | .post _ pages _ _ => s.pendingReservation = none ∧ 0 < pages ∧ 1 < s.procCount
  | _ => True

theorem post_no_assertion (C : Counted s) (S : Single s) {pages : Nat} {newStep : Option Addr}
    {range : Option Nat} (hpend : s.pendingReservation = none) (hpages : 0 < pages)
    (hproc : 1 < s.procCount) : step pg s (.post p pages newStep range) ≠ .error .assertion := by
  intro h
  have hlog := S.outstanding.mpr hpend
  have hroom := S.room
  simp only [step, bind_eq_error, blockedUnless_eq_error, blockedUnless_eq_ok] at h
  rcases h with ⟨-, h⟩ | ⟨_, ⟨-, hreg⟩, h⟩
  · cases h
  have hflush := C.quiet hlog hreg
  have hu : u64 (s.lastSeqNum + 1) = s.lastSeqNum + 1 :=
    u64_of_lt (by have := S.pool; omega)
  simp only [postNewReservation, check_pos hpend, check_pos hpages, check_pos hproc, ok_bind, hflush,
    ne_eq, not_true_eq_false, if_false, check_pos S.pool.ne'] at h
  split at h
  · cases h
  · cases newStep with
    | none => cases h
    | some a =>
      cases range with
      | none => cases h
      | some base =>
        have hseq : s.lastSeqNum + 1 = s.flushPoint p + 1 := by rw [hflush]
        simp only [append, hlog, check_pos (S.empty hlog), ok_bind, pure_bind, hu,
          State.setStep] at h
        rw [check_pos hseq] at h
        cases h

theorem look_no_assertion (C : Counted s) (S : Single s) :
    step pg s (.look p) ≠ .error .assertion := by
  intro h
  simp only [step, bind_eq_error, blockedUnless_eq_error, blockedUnless_eq_ok] at h
  rcases h with ⟨-, h⟩ | ⟨_, ⟨-, halive, -⟩, h⟩
  · cases h
  unfold look at h
  split at h
  · cases h
  · rename_i hne
    rcases C.flush p (C.alive ▸ halive) with hfl | ⟨hlog, hfl⟩
    · exact hne hfl.symm
    · obtain ⟨a, ha⟩ := Option.ne_none_iff_exists'.mp hlog
      have hseq : (s.steps a).seqNum = s.flushPoint p + 1 := (S.seqNum a ha).trans hfl.symm
      have hfind : findStep s.steps (s.flushPoint p) a = .ok a := by
        unfold findStep
        rw [check_pos hseq.le, ok_bind, if_neg hseq.not_lt]
        rfl
      have hlt : s.flushPoint p < s.lastSeqNum := by omega
      simp only [check_pos hlt, ok_bind, ha, hfind, check_pos hseq, bind_eq_error,
        blockedUnless_eq_error, reduceCtorEq, and_false, false_or] at h
      obtain ⟨_, -, h⟩ := h
      cases h

theorem handle_no_assertion {r : CleanupLogStep} {mapped : Bool} :
    handleCleanupLogStep s p r mapped ≠ .error .assertion := by
  unfold handleCleanupLogStep
  split
  · split
    · simp
    · split <;> simp
  · simp

theorem ack_no_assertion (C : Counted s) (S : Single s) {mapped : Bool} :
    step pg s (.ack p mapped) ≠ .error .assertion := by
  intro h
  simp only [step] at h
  split at h
  · rename_i cur first need hph
    obtain ⟨hlog, rfl, rfl, -⟩ := S.handling p cur first need hph
    obtain ⟨hreg, hfl⟩ := C.handling p first first false hph
    have hmem : p ∈ behind s := Finset.mem_filter.mpr ⟨hreg, by omega⟩
    have hpos := Finset.card_pos.mpr ⟨p, hmem⟩
    have hacks := C.acks _ hlog
    have hlt : (s.steps first).ackCount < (s.steps first).ackTarg := by omega
    have hseq := (S.seqNum _ hlog).trans hfl.symm
    simp only [ack, bind_eq_error] at h
    rcases h with h | ⟨u, hu, h⟩
    · exact handle_no_assertion h
    · obtain ⟨rr, rfl⟩ := handle_spec hu
      simp only [check_eq_error, hlt, not_true_eq_false, false_and, false_or] at h
      obtain ⟨_, -, h⟩ := h
      rcases h with ⟨h, -⟩ | ⟨_, -, h⟩
      · exact h hseq
      · simp only [S.next _ hlog] at h
        cases h
  · cases h

theorem lockRoot_no_assertion (S : Single s) :
    step pg s (.lockRoot p) ≠ .error .assertion := by
  intro h
  simp only [step, bind_eq_error, blockedUnless_eq_error, blockedUnless_eq_ok] at h
  rcases h with ⟨-, h⟩ | ⟨_, ⟨-, hph⟩, h⟩
  · cases h
  obtain ⟨a, hlog, hack⟩ := S.owes p (.inl hph)
  simp only [lockRoot, hlog, S.tail a hlog, bind_eq_error, blockedUnless_eq_error] at h
  rcases h with ⟨-, h⟩ | ⟨_, -, h⟩
  · cases h
  · rw [check_pos hack] at h
    rcases h with h | ⟨_, -, h⟩ <;> cases h

theorem clean_no_assertion (S : Single s) : step pg s (.clean p) ≠ .error .assertion := by
  intro h
  simp only [step, bind_eq_error, blockedUnless_eq_error, blockedUnless_eq_ok] at h
  rcases h with ⟨-, h⟩ | ⟨_, hph, h⟩
  · cases h
  obtain ⟨-, a, hlog, -⟩ := S.cleaning p hph
  obtain ⟨hop, hpend⟩ := S.pending a hlog
  simp only [clean, hlog, finishStep, hop, hpend, check_pos, ok_bind, S.next a hlog] at h
  split at h <;> cases h

theorem depart_no_assertion (C : Counted s) : step pg s (.depart p) ≠ .error .assertion := by
  intro h
  simp only [step, bind_eq_error, blockedUnless_eq_error, blockedUnless_eq_ok] at h
  rcases h with ⟨-, h⟩ | ⟨_, ⟨-, hreg⟩, h | ⟨_, -, h⟩⟩
  · cases h
  · unfold remove at h
    split at h
    · rename_i hne
      have hlt : s.flushPoint p < s.lastSeqNum := by
        rcases C.flush p hreg with hfl | ⟨-, hfl⟩
        · exact absurd hfl hne
        · omega
      rw [check_pos hlt] at h
      cases h
    · cases h
  · cases h

theorem Counted.no_assertion (C : Counted s) (S : Single s) {act : Action} (hact : Prompt act)
    (hcall : Called s act) : Log.step pg s act ≠ .error .assertion := by
  cases act with
  | post p pages newStep range => exact post_no_assertion C S hcall.1 hcall.2.1 hcall.2.2
  | look p => exact look_no_assertion C S
  | ack p mapped => exact ack_no_assertion C S
  | lockRoot p => exact lockRoot_no_assertion S
  | clean p => exact clean_no_assertion S
  | depart p => exact depart_no_assertion C
  | remove p => exact hact.elim
  | exit p => exact hact.elim
  | join p =>
    intro h
    simp only [Log.step, join, bind_eq_error, blockedUnless_eq_error] at h
    rcases h with ⟨-, h⟩ | ⟨_, -, h⟩
    · cases h
    · split at h <;> cases h

end Assertions

def PromptRun (pg : PageSize) : State → Prop :=
  Trans.Reach State.init (Trans.Guarded (fun _ act => Prompt act) (Step pg))

theorem PromptRun.inv {pg : PageSize} {s : State} (h : PromptRun pg s) : Single s ∧ Counted s :=
  Trans.Reach.inv (I := fun s => Single s ∧ Counted s)
    (fun _ h0 => ⟨.init h0, .init h0⟩)
    (fun _ _ _ ⟨S, C⟩ hst => ⟨S.step hst.2, C.step S hst.1 hst.2⟩) h

structure Accounted (s : State) : Prop where
  single : ∀ a, s.cleanupLog = some a → (s.steps a).next = none
  outstanding : s.cleanupLog ≠ none ↔ s.pendingReservation ≠ none
  ends : ∀ a, s.cleanupLog = some a →
    s.cleanupLogTail = some a ∧ (s.steps a).seqNum = s.lastSeqNum
  flush : ∀ p ∈ s.registered,
    s.flushPoint p = s.lastSeqNum ∨ s.cleanupLog ≠ none ∧ s.flushPoint p = s.lastSeqNum - 1
  acks : ∀ a, s.cleanupLog = some a → ((s.steps a).ackTarg : Int) - (s.steps a).ackCount =
    (s.registered.filter fun p => s.flushPoint p < (s.steps a).seqNum).card

/-- In every reachable state the log is accounted for, and no section fails an assertion. -/
theorem cleanup_log_accounting (pg : PageSize) {s : State} (h : PromptRun pg s) :
    Accounted s ∧
      ∀ act, Prompt act → Called s act → step pg s act ≠ .error .assertion := by
  obtain ⟨S, C⟩ := h.inv
  refine ⟨⟨S.next, not_congr S.outstanding, fun a ha => ⟨S.tail a ha, S.seqNum a ha⟩,
    fun p hp => ?_, fun a ha => ?_⟩, fun act hact hcall => C.no_assertion S hact hcall⟩
  · rcases C.flush p hp with hfl | ⟨hlog, hfl⟩
    · exact .inl hfl
    · exact .inr ⟨hlog, by omega⟩
  · have hacks := C.acks a ha
    rw [S.seqNum a ha]
    change _ = ((behind s).card : Int)
    omega

def oneProcess : State where
  rootLock := none
  lastSeqNum := 1
  cleanupLog := none
  cleanupLogTail := none
  steps := fun _ => ⟨none, 0, none, 0, 0, .reserveMemory, 0, 0⟩
  pendingReservation := none
  reservedRegions := []
  freeStructs := 60
  procCount := 1
  registered := {0}
  alive := {0}
  flushPoint := fun _ => 1
  phase := fun _ => .idle
  recentReserve := fun _ => none

theorem oneProcess_init : oneProcess.init :=
  ⟨rfl, rfl, rfl, rfl, rfl, by decide, by decide, rfl, rfl, ⟨0, rfl, rfl⟩, fun _ => rfl⟩

/-- A second process joins and acknowledges the reservation that the first one posts. -/
theorem cleanup_log_accounting_two_processes :
    ∃ s, PromptRun page4096 s ∧ s.cleanupLog ≠ none ∧ Accounted s := by
  have h0 : PromptRun page4096 oneProcess := .init oneProcess_init
  have h1 := h0.step (l := Action.join 1) ⟨trivial, rfl⟩
  have h2 := h1.step (l := Action.post 0 4 (some 64) (some 65536)) ⟨trivial, rfl⟩
  have h3 := h2.step (l := Action.look 1) ⟨trivial, rfl⟩
  have h4 := h3.step (l := Action.ack 1 true) ⟨trivial, rfl⟩
  exact ⟨_, h4, Option.some_ne_none _, (cleanup_log_accounting page4096 h4).1⟩

end Subcontexts.Log
