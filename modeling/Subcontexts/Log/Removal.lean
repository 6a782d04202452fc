import Subcontexts.Log.Accounting

/-! Who removes a step that every process has acknowledged, where a process that leaves and its
background thread end at different times. -/

namespace Subcontexts.Log

/-- A step with all its acknowledgements has a live background thread that will remove it. -/
def Removable (s : State) : Prop :=
  ∀ a, s.cleanupLog = some a → (s.steps a).ackCount = (s.steps a).ackTarg →
    ∃ p ∈ s.alive, (s.phase p).Owes

/-- The condition on a step: no process exits while its background thread owes the cleanup. -/
def Lingers (s : State) : Action → Prop
  | .exit p => ¬ (s.phase p).Owes
  | .depart p => ¬ (s.phase p).Owes
  | _ => True

structure Kept (s : State) : Prop where
  removable : Removable s
  alive : ∀ p, s.phase p ≠ .idle → p ∈ s.alive
  registered : s.registered ⊆ s.alive

theorem Kept.init {s : State} (h : s.init) : Kept s := by
  obtain ⟨-, -, hlog, -, -, -, -, -, halive, -, hph⟩ := h
  refine ⟨fun a ha => ?_, fun p hp => absurd (hph p) hp, halive ▸ Finset.Subset.refl _⟩
  rw [hlog] at ha
  cases ha

section Steps
variable {pg : PageSize} {s t : State} {p : Pid} {a : Addr}

theorem Kept.acked (K : Kept s) (hph : s.phase p = .handling a a false)
    (hlog : s.cleanupLog = some a) (rr : Pid → Option Region) : Kept (acked s p a rr) := by
  have hp : p ∈ s.alive := K.alive p (by rw [hph]; simp)
  refine ⟨fun b hb hack => ⟨p, hp, .inl ?_⟩, fun q hq => ?_, K.registered⟩
  · obtain rfl := Option.some.inj (hlog.symm.trans hb)
    change (Function.update s.steps a _ a).ackCount = (Function.update s.steps a _ a).ackTarg at hack
    rw [Function.update_self] at hack
    have howe : owes (s.steps a) = true := beq_iff_eq.mpr hack
    change Function.update s.phase p (if owes (s.steps a) then .owing else .idle) p = .owing
    rw [Function.update_self, if_pos howe]
  · rcases Trans.of_update (P := (· ≠ Phase.idle)) hq with ⟨rfl, -⟩ | ⟨-, hq⟩
    · exact hp
    · exact K.alive q hq

theorem Kept.locked (K : Kept s) (hp : p ∈ s.alive) {ph : Phase}
    (hkeep : (s.phase p).Owes → ph.Owes) (rl : Option Pid) :
    Kept { (s.setStep a { s.steps a with lock := some p }).setPhase p ph with rootLock := rl } := by
  refine ⟨fun b hb hack => ?_, fun q hq => ?_, K.registered⟩
  · obtain ⟨hcount, htarg⟩ := setLock_counts s.steps a b (some p)
    have hack' : (s.steps b).ackCount = (s.steps b).ackTarg :=
      hcount.symm.trans (hack.trans htarg)
    obtain ⟨q, hq, hown⟩ := K.removable b hb hack'
    refine ⟨q, hq, ?_⟩
    change (Function.update s.phase p ph q).Owes
    by_cases hqp : q = p
    · subst q
      rw [Function.update_self]
      exact hkeep hown
    · rwa [Function.update_of_ne hqp]
  · rcases Trans.of_update (P := (· ≠ Phase.idle)) hq with ⟨rfl, -⟩ | ⟨-, hq⟩
    · exact hp
    · exact K.alive q hq

theorem Kept.exited (K : Kept s) (hown : ¬ (s.phase p).Owes) (n : Nat) {rs : Finset Pid}
    (hrs : rs ⊆ s.alive.erase p) :
    Kept { exit s p with procCount := n, registered := rs } := by
  refine ⟨fun b hb hack => ?_, fun q hq => ?_, hrs⟩
  · obtain ⟨q, hq, hqo⟩ := K.removable b hb hack
    have hqp : q ≠ p := by
      rintro rfl
      exact hown hqo
    refine ⟨q, Finset.mem_erase.mpr ⟨hqp, hq⟩, ?_⟩
    change (Function.update s.phase p .idle q).Owes
    rwa [Function.update_of_ne hqp]
  · obtain ⟨hqp, hq⟩ := Trans.of_update_of_not (P := (· ≠ Phase.idle)) hq (not_not_intro rfl)
    exact Finset.mem_erase.mpr ⟨hqp, K.alive q hq⟩

theorem Kept.step (K : Kept s) (S : Single s) {act : Action} (hok : Lingers s act)
    (h : Log.step pg s act = .ok t) : Kept t := by
  cases act with
  | post p pages newStep range =>
    obtain ⟨-, -, hlog, hproc, -, -, rfl | ⟨a, r, rfl⟩⟩ := post_spec S h
    · exact ⟨K.removable, K.alive, K.registered⟩
    · refine ⟨?_, K.alive, K.registered⟩
      -- the poster has acknowledged, but it is not the only process
      rintro b ⟨⟩ hack
      change (Function.update s.steps a _ a).ackCount = (Function.update s.steps a _ a).ackTarg
        at hack
      rw [Function.update_self] at hack
      exact absurd hack hproc.ne
  | look p =>
    obtain ⟨-, halive, hph, rfl | ⟨a, hlog, -, -, rfl⟩⟩ := look_spec S h
    · exact K
    · exact K.locked halive (fun ho => absurd hph ho.ne_idle) s.rootLock
  | ack p mapped =>
    obtain ⟨a, rr, hph, hlog, -, -, -, rfl⟩ := ack_spec S h
    exact K.acked hph hlog rr
  | lockRoot p =>
    obtain ⟨a, -, hph, hlog, -, -, rfl⟩ := lockRoot_spec h
    exact K.locked (K.alive p (by rw [hph]; simp)) (fun _ => .inr rfl) (some p)
  | clean p =>
    obtain ⟨a, r, hph, hlog, -, -, rfl⟩ := clean_spec S h
    refine ⟨?_, fun q hq => ?_, K.registered⟩
    · rintro b ⟨⟩
    · obtain ⟨-, hq⟩ := Trans.of_update_of_not (P := (· ≠ Phase.idle)) hq (not_not_intro rfl)
      exact K.alive q hq
  | join p =>
    obtain ⟨-, halive, hpend, rfl⟩ := join_spec h
    have hlog := S.outstanding.mpr hpend
    refine ⟨?_, fun q hq => ?_, Finset.insert_subset_insert _ K.registered⟩
    · intro b hb
      change s.cleanupLog = some b at hb
      rw [hlog] at hb
      cases hb
    · obtain ⟨-, hq⟩ := Trans.of_update_of_not (P := (· ≠ Phase.idle)) hq (not_not_intro rfl)
      exact Finset.mem_insert_of_mem (K.alive q hq)
  | remove p =>
    obtain ⟨-, -, -, rfl⟩ := remove_spec h
    exact ⟨K.removable, K.alive, (Finset.erase_subset _ _).trans K.registered⟩
  | exit p =>
    obtain ⟨-, hreg, rfl⟩ := exit_spec h
    refine K.exited hok s.procCount fun q hq => ?_
    exact Finset.mem_erase.mpr ⟨fun hqp => hreg (hqp ▸ hq), K.registered hq⟩
  | depart p =>
    obtain ⟨-, -, -, rfl⟩ := depart_spec h
    exact K.exited hok (s.procCount - 1) (Finset.erase_subset_erase _ K.registered)

end Steps

def LingeringRun (pg : PageSize) : State → Prop :=
  Trans.Reach State.init (Trans.Guarded Lingers (Step pg))

theorem acknowledged_step_removable (pg : PageSize) {s : State} (h : LingeringRun pg s) :
    Removable s :=
  (Trans.Reach.inv (I := fun s => Single s ∧ Kept s)
    (fun _ h0 => ⟨.init h0, .init h0⟩)
    (fun _ _ _ ⟨S, K⟩ hst => ⟨S.step hst.2, K.step S hst.1 hst.2⟩) h).2.removable

/-- The process that acknowledged last leaves and exits after it has done the cleanup. -/
theorem acknowledged_step_removable_lingering : ∃ s, LingeringRun page4096 s ∧
    s.registered = {0} ∧ Removable s := by
  have h0 : LingeringRun page4096 oneProcess := .init oneProcess_init
  have h1 := h0.step (l := Action.join 1) ⟨trivial, rfl⟩
  have h2 := h1.step (l := Action.post 0 4 (some 64) (some 65536)) ⟨trivial, rfl⟩
  have h3 := h2.step (l := Action.look 1) ⟨trivial, rfl⟩
  have h4 := h3.step (l := Action.ack 1 true) ⟨trivial, rfl⟩
  have h5 := h4.step (l := Action.remove 1) ⟨trivial, rfl⟩
  have h6 := h5.step (l := Action.lockRoot 1) ⟨trivial, rfl⟩
  have h7 := h6.step (l := Action.clean 1) ⟨trivial, rfl⟩
  have h8 := h7.step (l := Action.exit 1) ⟨fun ho => ho.ne_idle rfl, rfl⟩
  exact ⟨_, h8, rfl, acknowledged_step_removable page4096 h8⟩

/-- The main thread sees its flush point caught up and exits before the cleanup. -/
theorem acknowledged_step_stranded : ¬ ∀ s, Trans.Reach State.init (Step page4096) s →
    Removable s := by
  intro H
  have h0 : Trans.Reach State.init (Step page4096) oneProcess := .init oneProcess_init
  have h1 := h0.step (l := Action.join 1) rfl
  have h2 := h1.step (l := Action.post 0 4 (some 64) (some 65536)) rfl
  have h3 := h2.step (l := Action.look 1) rfl
  have h4 := h3.step (l := Action.ack 1 true) rfl
  have h5 := h4.step (l := Action.remove 1) rfl
  have h6 := h5.step (l := Action.exit 1) rfl
  obtain ⟨p, hp, ho⟩ := H _ h6 64 rfl rfl
  have hmem : p ∈ (insert 1 {0} : Finset Pid).erase 1 := hp
  rw [Finset.mem_erase, Finset.mem_insert, Finset.mem_singleton] at hmem
  obtain rfl := hmem.2.resolve_left hmem.1
  rcases ho with ho | ho <;> cases ho

end Subcontexts.Log
