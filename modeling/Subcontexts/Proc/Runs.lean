import Subcontexts.Proc.Registration

/-! Runs of joins and walks: the list at rest, and the push that a walk loses. -/

namespace Subcontexts.Proc

theorem Inv.init {s : State} (h : s.init) : ∃ l, Inv s l := by
  obtain ⟨a, p, hlist, hnext, hpid, hused, hcount, hlock, hidle, hms⟩ := h
  have hplain : Pc.idle.Plain := trivial
  have hon : ∀ q, OnList s q ↔ q = p := fun q => by
    simp only [OnList, hidle, hms, Finset.mem_singleton]
  refine ⟨[a], ⟨hlist, hnext⟩, fun b hb => ?_, fun b hb c hc _ => ?_, fun q => ?_,
    fun slot q => ?_, fun q => Walk.plain (hidle q) hplain
      (fun _ hsome => absurd hsome.symm (Option.some_ne_none _)) False.elim fun hk => absurd rfl hk.1,
    fun q r slot v w hr => absurd hr (hplain.not_relies (hidle q) slot v), {p}, fun q => ?_, hcount⟩
  · obtain rfl := List.mem_singleton.mp hb
    exact hused
  · exact (List.mem_singleton.mp hb).trans (List.mem_singleton.mp hc).symm
  · rw [hon]
    constructor
    · rintro ⟨b, hb, rfl⟩
      obtain rfl := List.mem_singleton.mp hb
      exact hpid
    · rintro rfl
      exact ⟨a, List.mem_singleton_self a, hpid⟩
  · rw [hlock, hidle]
    exact iff_of_false (Option.some_ne_none q).symm id
  · simp only [Counted, hidle, hms]

section Step
variable {s t : State} {l : List Addr} {p : Pid}

theorem acquire_spec {slot : Slot} {pc : Pc} (h : acquire s p slot pc = some t) :
    s.lock slot = none ∧
      t = { s.goto p pc with lock := Function.update s.lock slot (some p) } := by
  unfold acquire at h
  split at h
  · exact ⟨‹_›, (Option.some.inj h).symm⟩
  · cases h

theorem Inv.advance (I : Inv s l) (hund : Undisturbed s (.run p)) (h : advance s p = some t) :
    ∃ l', Inv t l' := by
  unfold Proc.advance at h
  have hread : ∀ slot, (s.pc p).Reads slot → ∀ q, q ≠ p → ¬ Exposed s q slot := hund
  cases hpc : s.pc p with
  | idle => simp only [hpc] at h; cases h
  | joinLock myProc =>
    simp only [hpc] at h
    obtain ⟨hfree, rfl⟩ := acquire_spec h
    exact ⟨l, I.joinLock hpc hfree⟩
  | joinCount myProc =>
    simp only [hpc] at h
    obtain rfl := Option.some.inj h
    exact ⟨l, I.joinCount hpc⟩
  | joinRead myProc =>
    simp only [hpc] at h
    obtain rfl := Option.some.inj h
    exact ⟨l, I.joinRead hpc (hread none (by rw [hpc]; rfl))⟩
  | joinPush myProc =>
    simp only [hpc] at h
    obtain rfl := Option.some.inj h
    exact ⟨myProc :: l, I.joinPush hpc⟩
  | joinUnlock =>
    simp only [hpc] at h
    obtain rfl := Option.some.inj h
    exact ⟨l, I.joinUnlock hpc⟩
  | killLock =>
    simp only [hpc] at h
    obtain ⟨hfree, rfl⟩ := acquire_spec h
    exact ⟨l, I.killLock hpc hfree⟩
  | killCount =>
    simp only [hpc] at h
    obtain rfl := Option.some.inj h
    exact ⟨l, I.killCount hpc⟩
  | killHead =>
    simp only [hpc] at h
    obtain rfl := Option.some.inj h
    exact ⟨l, I.killHead hpc (hread none (by rw [hpc]; rfl))⟩
  | killTest prev cur =>
    cases cur with
    | none => exact absurd hpc I.killTest_none
    | some cur =>
      simp only [hpc] at h
      obtain rfl := Option.some.inj h
      exact ⟨l, I.killTest_some hpc⟩
  | killLockCur prev cur =>
    simp only [hpc] at h
    obtain ⟨hfree, rfl⟩ := acquire_spec h
    exact ⟨l, I.killLockCur hpc hfree⟩
  | killUnlockPrev prev cur =>
    simp only [hpc] at h
    obtain rfl := Option.some.inj h
    exact ⟨l, I.killUnlockPrev hpc⟩
  | killCompare prev cur =>
    simp only [hpc] at h
    obtain rfl := Option.some.inj h
    by_cases hpid : s.pid cur = p
    · rw [if_pos hpid]
      exact ⟨l, I.killCompare_own hpc hpid⟩
    · rw [if_neg hpid]
      exact ⟨l, I.killCompare_other hpc hpid⟩
  | killRead prev cur =>
    simp only [hpc] at h
    obtain rfl := Option.some.inj h
    exact ⟨l, I.killRead hpc (hread (some cur) (by rw [hpc]; rfl))⟩
  | killWrite prev cur next =>
    simp only [hpc] at h
    obtain rfl := Option.some.inj h
    exact I.killWrite hpc
  | killUnlockCur cur =>
    simp only [hpc] at h
    obtain rfl := Option.some.inj h
    exact ⟨l, I.killUnlockCur hpc⟩
  | killFree cur =>
    simp only [hpc] at h
    obtain rfl := Option.some.inj h
    exact ⟨l, I.killFree hpc⟩
  | killNext cur =>
    simp only [hpc] at h
    obtain rfl := Option.some.inj h
    exact ⟨l, I.killNext hpc (hread (some cur) (by rw [hpc]; rfl))⟩
  | killUnlockLast prev => exact absurd hpc ((I.walk p).found prev)

def Action.By (p : Pid) : Action → Prop
  | .join q _ | .kill q | .run q => q = p
  | .scribble _ _ _ => True

theorem step_pc {a : Action} (ha : a.By p) (h : Proc.step s a = some t) {q : Pid} (hq : q ≠ p) :
    t.pc q = s.pc q := by
  cases a with
  | join r myProc =>
    obtain rfl : r = p := ha
    obtain ⟨-, ht⟩ := Option.ite_none_right_eq_some.mp h
    obtain rfl := Option.some.inj ht
    exact Function.update_of_ne hq _ _
  | kill r =>
    obtain rfl : r = p := ha
    obtain ⟨-, ht⟩ := Option.ite_none_right_eq_some.mp h
    obtain rfl := Option.some.inj ht
    exact Function.update_of_ne hq _ _
  | run r =>
    obtain rfl : r = p := ha
    simp only [Proc.step, Proc.advance] at h
    split at h
    · cases h
    all_goals first
      | (obtain ⟨-, rfl⟩ := acquire_spec h; exact Function.update_of_ne hq _ _)
      | (obtain rfl := Option.some.inj h; exact Function.update_of_ne hq _ _)
  | scribble a nxt pid =>
    obtain ⟨-, ht⟩ := Option.ite_none_right_eq_some.mp h
    obtain rfl := Option.some.inj ht
    rfl

theorem Inv.step {a : Action} (I : Inv s l) (hund : Undisturbed s a) (h : step s a = some t) :
    ∃ l', Inv t l' := by
  cases a with
  | join p myProc =>
    obtain ⟨hg, ht⟩ := Option.ite_none_right_eq_some.mp h
    obtain rfl := Option.some.inj ht
    exact ⟨l, I.join hg.1 hg.2.1 hg.2.2⟩
  | kill p =>
    obtain ⟨hg, ht⟩ := Option.ite_none_right_eq_some.mp h
    obtain rfl := Option.some.inj ht
    exact ⟨l, I.kill hg.1 hg.2⟩
  | run p => exact I.advance hund h
  | scribble a nxt pid =>
    obtain ⟨hg, ht⟩ := Option.ite_none_right_eq_some.mp h
    obtain rfl := Option.some.inj ht
    exact ⟨l, I.scribble hg nxt pid⟩

theorem Inv.listed (I : Inv s l) (hq : Quiet s) : Listed s l := by
  obtain ⟨C, hC, hcount⟩ := I.count
  have hon : ∀ q, OnList s q ↔ q ∈ s.members := fun q => by simp only [OnList, hq q]
  have hcounted : ∀ q, Counted s q ↔ q ∈ s.members := fun q => by simp only [Counted, hq q]
  have honce : (l.map s.pid).Nodup := I.chain.nodup.map_on I.inj
  have hmem : ∀ q, q ∈ l.map s.pid ↔ q ∈ s.members := fun q => by
    rw [List.mem_map, I.onList, hon]
  refine ⟨I.chain, honce, hmem, I.used, ?_⟩
  have hCl : C = (l.map s.pid).toFinset := by
    ext q
    rw [hC, hcounted, List.mem_toFinset, hmem]
  rw [hcount, hCl, List.toFinset_card_of_nodup honce, List.length_map]

end Step

def UndisturbedRun : State → Prop :=
  Trans.Reach State.init (Trans.Guarded Undisturbed (Trans.ofFun step))

theorem process_list_intact {s : State} (h : UndisturbedRun s) (hq : Quiet s) :
    ∃ l, Listed s l := by
  have hinv : ∃ l, Inv s l := Trans.Reach.inv (I := fun s => ∃ l, Inv s l)
    (fun _ h0 => Inv.init h0) (fun _ _ _ ⟨_, I⟩ hst => I.step hst.1 hst.2) h
  obtain ⟨l, I⟩ := hinv
  exact ⟨l, I.listed hq⟩

def oneMember : State where
  procList := some 10
  next := fun _ => none
  pid := fun _ => 0
  used := fun a => a = 10
  procCount := 1
  lock := fun _ => none
  pc := fun _ => .idle
  members := {0}

theorem oneMember_init : oneMember.init :=
  ⟨10, 0, rfl, rfl, rfl, rfl, rfl, fun _ => rfl, fun _ => rfl, rfl⟩

theorem UndisturbedRun.solo {s t : State} {p : Pid} {as : List Action} (h : UndisturbedRun s)
    (hidle : ∀ q, q ≠ p → s.pc q = .idle) (hby : ∀ a ∈ as, a.By p)
    (hrun : Trans.exec step as s = some t) : UndisturbedRun t := by
  induction as generalizing s with
  | nil =>
    obtain rfl : s = t := Option.some.inj hrun
    exact h
  | cons a as ih =>
    rw [Trans.exec_cons, Option.bind_eq_some_iff] at hrun
    obtain ⟨u, hu, ht⟩ := hrun
    have ha : a.By p := hby a (List.mem_cons_self ..)
    have hund : Undisturbed s a := by
      cases a with
      | run q =>
        obtain rfl : q = p := ha
        intro slot _ r hr hE
        simp only [Exposed, hidle r hr] at hE
      | _ => trivial
    refine ih (h.step ⟨hund, hu⟩) (fun q hq => ?_) (fun b hb => hby b (List.mem_cons_of_mem _ hb)) ht
    rw [step_pc ha hu hq, hidle q hq]

/-- The second process joins and leaves again. -/
theorem process_list_intact_leave : ∃ s, UndisturbedRun s ∧ Quiet s ∧ s.procCount = 1 ∧
    ∃ l, Listed s l := by
  have h0 : UndisturbedRun oneMember := .init oneMember_init
  obtain ⟨t, ht, hquiet, hcount⟩ : ∃ t, Trans.exec step (.join 1 20 :: List.replicate 5 (.run 1) ++
      .kill 1 :: List.replicate 11 (.run 1)) oneMember = some t ∧ Quiet t ∧ t.procCount = 1 := by
    refine ⟨_, rfl, fun q => ?_, rfl⟩
    match q with
    | 0 => rfl
    | 1 => rfl
    | _ + 2 => rfl
  have hrun : UndisturbedRun t := h0.solo (p := 1) (fun _ _ => rfl) (by simp [Action.By]) ht
  exact ⟨t, hrun, hquiet, hcount, process_list_intact hrun hquiet⟩

/-- A process in its last walk has given up the root lock and found its entry; a join then pushes
its own, and the write to `proc_list` drops it. -/
theorem process_list_push_lost : ¬ ∀ s, Trans.Reach State.init (Trans.ofFun step) s → Quiet s →
    ∃ l, Listed s l := by
  intro H
  have h0 : Trans.Reach State.init (Trans.ofFun step) oneMember := .init oneMember_init
  obtain ⟨t, ht, hlist, hmem, hquiet⟩ : ∃ t, Trans.exec step [.kill 0, .run 0, .run 0, .run 0,
      .run 0, .run 0, .run 0, .join 2 30, .run 2, .run 2, .run 2, .run 2, .run 2,
      .run 0, .run 0, .run 0, .run 0, .run 0] oneMember = some t ∧ t.procList = none ∧
      2 ∈ t.members ∧ Quiet t := by
    refine ⟨_, rfl, rfl, Finset.mem_insert_self .., fun q => ?_⟩
    match q with
    | 0 => rfl
    | 1 => rfl
    | 2 => rfl
    | _ + 3 => rfl
  obtain ⟨l, hl⟩ := H t (h0.of_exec ht) hquiet
  have hnil : l = [] := hl.chain.unique hlist
  have h2 := (hl.members 2).mpr hmem
  rw [hnil] at h2
  cases h2

end Subcontexts.Proc
