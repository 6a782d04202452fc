import Subcontexts.Log.Removal
import Mathlib.Algebra.Order.BigOperators.Group.Finset

/-! A reservation that was posted becomes available: where the background threads that can go on do
go on, each process acknowledges it and one of them takes it off the log. -/

namespace Subcontexts.Log

def Action.thread : Action → Option Pid
  | .look p => some p
  | .ack p _ => some p
  | .lockRoot p => some p
  | .clean p => some p
  | _ => none

def Granted (pg : PageSize) : Action → Prop
  | .post _ pages _ (some _) => u64 (pages * pg.bytes) ≠ 0
  | _ => True

/-- A process that leaves ends with its background thread, and not before the cleanup that it owes. -/
def Orderly (pg : PageSize) (s : State) (act : Action) : Prop :=
  Prompt act ∧ Lingers s act ∧ Granted pg act

def CanMove (pg : PageSize) (s : State) (p : Pid) : Prop :=
  ∃ act t, act.thread = some p ∧ Step pg s act t ∧ t ≠ s

/-- A background thread that can go on from some time on goes on. -/
def Fair (pg : PageSize) (σ : Nat → State) (α : Nat → Action) : Prop :=
  ∀ p n, (∀ m ≥ n, CanMove pg (σ m) p) → ∃ m ≥ n, (α m).thread = some p

structure Held (s : State) : Prop where
  root : ∀ q, s.rootLock = some q → s.phase q = .cleaning
  lock : ∀ a q, s.cleanupLog = some a → (s.steps a).lock = some q →
    s.phase q = .handling a a false ∨ s.phase q = .cleaning
  len : ∀ r, s.pendingReservation = some r → r.len ≠ 0

structure Working (s : State) : Prop where
  single : Single s
  counted : Counted s
  kept : Kept s
  held : Held s

theorem Held.init {s : State} (h : s.init) : Held s := by
  obtain ⟨hroot, -, hlog, -, hpend, -⟩ := h
  refine ⟨fun q hq => ?_, fun a q ha => ?_, fun r hr => ?_⟩
  · rw [hroot] at hq
    cases hq
  · rw [hlog] at ha
    cases ha
  · rw [hpend] at hr
    cases hr

section Held
variable {pg : PageSize} {s t : State} {p : Pid} {a : Addr}

theorem post_len (S : Single s) {pages : Nat} {newStep : Option Addr} {range : Option Nat} {r : Region}
    (h : step pg s (.post p pages newStep range) = .ok t) (hr : t.pendingReservation = some r) :
    range ≠ none ∧ r.len = u64 (pages * pg.bytes) := by
  obtain ⟨-, -, hlog, -, -, -, -⟩ := post_spec S h
  have hpend := S.outstanding.mp hlog
  have htail := S.empty hlog
  simp only [step, postNewReservation, bind_eq_ok, check_eq_ok, blockedUnless_eq_ok] at h
  obtain ⟨_, -, _, -, _, -, _, -, h⟩ := h
  split at h
  · cases h
  simp only [bind_eq_ok, check_eq_ok] at h
  obtain ⟨_, -, h⟩ := h
  split at h
  · cases h
  cases newStep with
  | none =>
    obtain rfl := Except.ok.inj h
    have hr : s.pendingReservation = some r := hr
    rw [hpend] at hr
    cases hr
  | some a =>
    cases range with
    | none => cases h
    | some base =>
      refine ⟨Option.some_ne_none _, ?_⟩
      simp only [pure_bind, append, hlog, htail, check_pos, ok_bind, bind_eq_ok, check_eq_ok] at h
      obtain ⟨_, -, h⟩ := h
      obtain rfl := Except.ok.inj h
      obtain rfl := Option.some.inj hr
      rfl

theorem Held.acked (H : Held s) (hph : s.phase p = .handling a a false)
    (hlog : s.cleanupLog = some a) (rr : Pid → Option Region) : Held (acked s p a rr) := by
  refine ⟨fun q hq => ?_, fun b q hb hl => ?_, H.len⟩
  · have hcleaning := H.root q hq
    have hne : q ≠ p := by
      rintro rfl
      rw [hph] at hcleaning
      cases hcleaning
    show Function.update s.phase p _ q = _
    rw [Function.update_of_ne hne]
    exact hcleaning
  · obtain rfl := Option.some.inj (hlog.symm.trans hb)
    have hl : (Function.update s.steps a _ a).lock = some q := hl
    rw [Function.update_self] at hl
    cases hl

theorem Held.locked (H : Held s) (hlog : s.cleanupLog = some a) {ph : Phase} {rl : Option Pid}
    (hroot : ∀ q, rl = some q → q = p ∧ ph = .cleaning)
    (hph : ph = .handling a a false ∨ ph = .cleaning) :
    Held { (s.setStep a { s.steps a with lock := some p }).setPhase p ph with rootLock := rl } := by
  refine ⟨fun q hq => ?_, fun b q hb hl => ?_, H.len⟩
  · obtain ⟨rfl, rfl⟩ := hroot q hq
    exact Function.update_self ..
  · obtain rfl := Option.some.inj (hlog.symm.trans hb)
    have hl : (Function.update s.steps a { s.steps a with lock := some p } a).lock = some q := hl
    rw [Function.update_self] at hl
    obtain rfl := Option.some.inj hl
    have hself : Function.update s.phase p ph p = ph := Function.update_self ..
    show Function.update s.phase p ph p = _ ∨ Function.update s.phase p ph p = _
    rw [hself]
    exact hph

theorem Held.departed (H : Held s) (C : Counted s) (hroot : s.rootLock = none)
    (hflush : s.flushPoint p = s.lastSeqNum) (howes : ¬ (s.phase p).Owes) :
    Held (exit (removed s p) p) := by
  refine ⟨fun q hq => ?_, fun b q hb hl => ?_, H.len⟩
  · have hq : s.rootLock = some q := hq
    rw [hroot] at hq
    cases hq
  · have hphase := H.lock b q hb hl
    have hne : q ≠ p := by
      rintro rfl
      rcases hphase with hph | hph
      · exact absurd (C.handling _ _ _ _ hph).2 (by omega)
      · exact howes (.inr hph)
    show Function.update s.phase p _ q = _ ∨ Function.update s.phase p _ q = _
    rw [Function.update_of_ne hne]
    exact hphase

theorem Held.step (H : Held s) (S : Single s) (C : Counted s) {act : Action}
    (hok : Orderly pg s act) (h : Log.step pg s act = .ok t) : Held t := by
  obtain ⟨hprompt, hlingers, hgranted⟩ := hok
  cases act with
  | post p pages newStep range =>
    obtain ⟨hroot, -, hlog, -, -, -, ht⟩ := post_spec S h
    have hlen : ∀ r, t.pendingReservation = some r → r.len ≠ 0 := by
      intro r hr
      obtain ⟨hrange, hlen⟩ := post_len S h hr
      obtain ⟨base, rfl⟩ := Option.ne_none_iff_exists'.mp hrange
      rw [hlen]
      exact hgranted
    rcases ht with rfl | ⟨a, r, rfl⟩
    · exact ⟨H.root, H.lock, hlen⟩
    · refine ⟨fun q hq => H.root q hq, fun b q hb hl => ?_, hlen⟩
      obtain rfl := Option.some.inj hb
      have hl : (Function.update s.steps a _ a).lock = some q := hl
      rw [Function.update_self] at hl
      cases hl
  | look p =>
    obtain ⟨hroot, -, -, rfl | ⟨a, hlog, -, -, rfl⟩⟩ := look_spec S h
    · exact H
    · refine H.locked hlog (fun q hq => ?_) (.inl rfl)
      have hq : s.rootLock = some q := hq
      rw [hroot] at hq
      cases hq
  | ack p mapped =>
    obtain ⟨a, rr, hph, hlog, -, -, -, rfl⟩ := ack_spec S h
    exact H.acked hph hlog rr
  | lockRoot p =>
    obtain ⟨a, -, -, hlog, -, -, rfl⟩ := lockRoot_spec h
    exact H.locked hlog (fun q hq => ⟨(Option.some.inj hq).symm, rfl⟩) (.inr rfl)
  | clean p =>
    obtain ⟨a, r, -, -, -, -, rfl⟩ := clean_spec S h
    exact ⟨fun q hq => (Option.some_ne_none q hq.symm).elim,
      fun b q hb => (Option.some_ne_none b hb.symm).elim,
      fun r hr => (Option.some_ne_none r hr.symm).elim⟩
  | join p =>
    obtain ⟨hroot, -, hpend, rfl⟩ := join_spec h
    refine ⟨fun q hq => ?_, fun b q hb => ?_, H.len⟩
    · have hq : s.rootLock = some q := hq
      rw [hroot] at hq
      cases hq
    · have hb : s.cleanupLog = some b := hb
      rw [S.outstanding.mpr hpend] at hb
      cases hb
  | depart p =>
    obtain ⟨hroot, -, hflush, rfl⟩ := depart_spec h
    exact H.departed C hroot hflush hlingers
  | remove p => exact hprompt.elim
  | exit p => exact hprompt.elim

theorem Working.init {s : State} (h : s.init) : Working s := ⟨.init h, .init h, .init h, .init h⟩

theorem Working.step (W : Working s) {act : Action} (hok : Orderly pg s act)
    (h : Log.step pg s act = .ok t) : Working t :=
  ⟨W.single.step h, W.counted.step W.single hok.1 h, W.kept.step W.single hok.2.1 h,
    W.held.step W.single W.counted hok h⟩

end Held

section Ready
variable {pg : PageSize} {s t : State} {p : Pid} {a : Addr}

def Ready (s : State) (p : Pid) : Prop :=
  ∃ a, s.cleanupLog = some a ∧ p ∈ s.registered ∧
    (s.phase p = .handling a a false ∨ s.phase p = .cleaning ∨
      s.rootLock = none ∧ (s.steps a).lock = none ∧
        (s.phase p = .owing ∨ s.phase p = .idle ∧ s.flushPoint p + 1 = s.lastSeqNum))

theorem Working.registered (W : Working s) (h : s.phase p ≠ .idle) : p ∈ s.registered :=
  W.counted.alive ▸ W.kept.alive p h

end Ready

section Rank
variable {pg : PageSize} {s t : State} {p : Pid} {a : Addr}

def weight (s : State) (p : Pid) : Nat :=
  match s.phase p with
  | .idle => if s.flushPoint p < s.lastSeqNum then 4 else 0
  | .handling .. => 3
  | .owing => 2
  | .cleaning => 1

def rank (s : State) : Nat := ∑ p ∈ s.registered, weight s p

theorem rank_lt (hreg : t.registered = s.registered) (hp : p ∈ s.registered)
    (hlt : weight t p < weight s p) (hother : ∀ q ≠ p, weight t q = weight s q) : rank t < rank s := by
  unfold rank
  rw [hreg]
  refine Finset.sum_lt_sum (fun q _ => ?_) ⟨p, hp, hlt⟩
  by_cases hq : q = p
  · subst hq
    exact Nat.le_of_lt hlt
  · exact Nat.le_of_eq (hother q hq)

end Rank

section Main
variable {pg : PageSize} {σ : Nat → State} {α : Nat → Action}

end Main

section Run

end Run
end Subcontexts.Log
