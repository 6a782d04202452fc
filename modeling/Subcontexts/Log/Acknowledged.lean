import Subcontexts.Log.Removal

/-! Which processes acknowledge a step: for every step, who was counted when it was posted and
whose background thread has incremented its `ack_count`. -/

namespace Subcontexts.Log

/-- `ackers` has the last one first; the process that posts the step is the first one. -/
structure Entry where
  counted : Finset Pid
  ackers : List Pid

structure Recorded where
  log : State
  entries : Nat → Option Entry

def Entry.acked (e : Entry) (p : Pid) : Entry := { e with ackers := p :: e.ackers }

def record (s t : State) (entries : Nat → Option Entry) : Action → Nat → Option Entry
  | .post p _ _ _ =>
    if t.lastSeqNum = s.lastSeqNum then entries
    else Function.update entries t.lastSeqNum (some ⟨s.registered, [p]⟩)
  | .ack p _ =>
    match s.phase p with
    | .handling cur _ _ =>
      Function.update entries (s.steps cur).seqNum
        ((entries (s.steps cur).seqNum).map fun e => e.acked p)
    | _ => entries
  | _ => entries

def Recorded.Step (pg : PageSize) (x : Recorded) (act : Action) (y : Recorded) : Prop :=
  Log.Step pg x.log act y.log ∧ y.entries = record x.log y.log x.entries act

theorem Recorded.step_of {pg : PageSize} {x : Recorded} {act : Action} {t : State}
    (h : Log.step pg x.log act = .ok t) :
    x.Step pg act ⟨t, record x.log t x.entries act⟩ := ⟨h, rfl⟩

def Recorded.init (x : Recorded) : Prop := x.log.init ∧ x.entries = fun _ => none

/-- Only counted processes acknowledge, each at most once, and a step stays in the log until the
counted processes that are alive have done so. -/
structure Acknowledgements (pg : PageSize) (x : Recorded) : Prop where
  ackers : ∀ n e, x.entries n = some e → e.ackers.Nodup ∧ ∀ p ∈ e.ackers, p ∈ e.counted
  counts : ∀ a, x.log.cleanupLog = some a → ∃ e, x.entries (x.log.steps a).seqNum = some e ∧
    (x.log.steps a).ackTarg = e.counted.card ∧ (x.log.steps a).ackCount = e.ackers.length
  removal : ∀ p t a e, Log.Step pg x.log (.clean p) t → x.log.cleanupLog = some a →
    x.entries (x.log.steps a).seqNum = some e → ∀ q ∈ e.counted, q ∈ x.log.alive → q ∈ e.ackers

/-- The condition on a step: no background thread takes up a step after its process has been
taken out of `proc_count`. -/
def InCount (s : State) : Action → Prop
  | .look p => s.flushPoint p < s.lastSeqNum → p ∈ s.registered
  | _ => True

structure Entry.Current (e : Entry) (s : State) (st : CleanupLogStep) : Prop where
  targ : st.ackTarg = e.counted.card
  count : st.ackCount = e.ackers.length
  counted : s.registered ⊆ e.counted
  acked : ∀ p ∈ s.registered, p ∈ e.ackers ↔ s.flushPoint p = s.lastSeqNum

structure Witnessed (x : Recorded) : Prop where
  count : x.log.procCount = x.log.registered.card
  alive : x.log.registered ⊆ x.log.alive
  flush : ∀ p ∈ x.log.registered, x.log.flushPoint p = x.log.lastSeqNum ∨
    x.log.cleanupLog ≠ none ∧ x.log.flushPoint p + 1 = x.log.lastSeqNum
  handling : ∀ p cur first need, x.log.phase p = .handling cur first need →
    p ∈ x.log.registered ∧ x.log.flushPoint p + 1 = x.log.lastSeqNum
  entries : ∀ n e, x.entries n = some e → e.ackers.Nodup ∧ ∀ p ∈ e.ackers, p ∈ e.counted
  current : ∀ a, x.log.cleanupLog = some a →
    ∃ e, x.entries x.log.lastSeqNum = some e ∧ e.Current x.log (x.log.steps a)

section Witnessed
variable {pg : PageSize} {x : Recorded} {s : State} {es : Nat → Option Entry} {p : Pid} {a : Addr}

theorem Witnessed.init (h : x.init) : Witnessed x := by
  obtain ⟨⟨-, hl, hlog, -, -, -, -, hcount, halive, ⟨p, hreg, hflush⟩, hph⟩, hes⟩ := h
  refine ⟨?_, ?_, ?_, ?_, ?_, ?_⟩
  · rw [hcount, hreg, Finset.card_singleton]
  · rw [halive]
  · intro q hq
    rw [hreg, Finset.mem_singleton] at hq
    subst q
    exact .inl (hflush.trans hl.symm)
  · intro q cur first need hq
    rw [hph] at hq
    cases hq
  · intro n e he
    rw [hes] at he
    cases he
  · intro b hb
    rw [hlog] at hb
    cases hb

theorem Witnessed.quiet (W : Witnessed ⟨s, es⟩) (hlog : s.cleanupLog = none)
    (hp : p ∈ s.registered) : s.flushPoint p = s.lastSeqNum := by
  rcases W.flush p hp with h | ⟨h, -⟩
  · exact h
  · exact absurd hlog h

theorem Witnessed.posted (W : Witnessed ⟨s, es⟩) (S : Single s) (hlog : s.cleanupLog = none)
    (hp : p ∈ s.registered) (r : Region) :
    Witnessed ⟨posted s p a r,
      Function.update es (s.lastSeqNum + 1) (some ⟨s.registered, [p]⟩)⟩ := by
  have hq : ∀ q ∈ s.registered, s.flushPoint q = s.lastSeqNum := fun q => W.quiet hlog
  have hflush : ∀ q ∈ s.registered, (Log.posted s p a r).flushPoint q =
      if q = p then s.lastSeqNum + 1 else s.lastSeqNum := by
    intro q hreg
    refine (Function.update_apply ..).trans ?_
    rw [hq p hp, hq q hreg]
  refine ⟨W.count, W.alive, ?_, ?_, ?_, ?_⟩
  · intro q hreg
    rw [hflush q hreg]
    by_cases hqp : q = p
    · rw [if_pos hqp]
      exact .inl rfl
    · rw [if_neg hqp]
      exact .inr ⟨Option.some_ne_none a, rfl⟩
  · intro q cur first need hph
    exact absurd hph (S.not_handling hlog)
  · intro n e he
    change Function.update es (s.lastSeqNum + 1) _ n = _ at he
    by_cases hn : n = s.lastSeqNum + 1
    · rw [hn, Function.update_self] at he
      obtain rfl := Option.some.inj he
      refine ⟨List.nodup_singleton p, fun q hmem => ?_⟩
      rw [List.mem_singleton] at hmem
      exact hmem ▸ hp
    · rw [Function.update_of_ne hn] at he
      exact W.entries n e he
  · rintro b ⟨⟩
    refine ⟨⟨s.registered, [p]⟩, Function.update_self .., ?_, ?_, Finset.Subset.refl _, ?_⟩
    · simp only [Log.posted, Function.update_self]
      exact W.count
    · simp only [Log.posted, Function.update_self]
      rfl
    · intro q hreg
      change q ∈ [p] ↔ (Log.posted s p a r).flushPoint q = s.lastSeqNum + 1
      rw [hflush q hreg, List.mem_singleton]
      by_cases hqp : q = p
      · rw [if_pos hqp]
        exact ⟨fun _ => rfl, fun _ => hqp⟩
      · rw [if_neg hqp]
        exact ⟨fun h => absurd h hqp, fun h => absurd h (Nat.lt_succ_self _).ne⟩

theorem Witnessed.locked (W : Witnessed ⟨s, es⟩) {ph : Phase} (rl : Option Pid)
    (hph : ∀ cur first need, ph = .handling cur first need →
      p ∈ s.registered ∧ s.flushPoint p + 1 = s.lastSeqNum) :
    Witnessed ⟨{ (s.setStep a { s.steps a with lock := some p }).setPhase p ph with
      rootLock := rl }, es⟩ := by
  refine ⟨W.count, W.alive, W.flush, ?_, W.entries, ?_⟩
  · intro q cur first need hq
    rcases Trans.of_update (P := (· = Phase.handling cur first need)) hq with ⟨rfl, hnew⟩ | ⟨-, hq⟩
    · exact hph cur first need hnew
    · exact W.handling q cur first need hq
  · intro b hb
    obtain ⟨e, he, C⟩ := W.current b hb
    obtain ⟨hcount, htarg⟩ := setLock_counts s.steps a b (some p)
    exact ⟨e, he, htarg.trans C.targ, hcount.trans C.count, C.counted, C.acked⟩

theorem Witnessed.acked (W : Witnessed ⟨s, es⟩) (S : Single s)
    (hph : s.phase p = .handling a a false) (hlog : s.cleanupLog = some a)
    (hlock : (s.steps a).lock = some p) (rr : Pid → Option Region) :
    Witnessed ⟨acked s p a rr, Function.update es (s.steps a).seqNum
      ((es (s.steps a).seqNum).map fun e => e.acked p)⟩ := by
  obtain ⟨hreg, hfl⟩ := W.handling p a a false hph
  obtain ⟨e, he, C⟩ := W.current a hlog
  have he : es s.lastSeqNum = some e := he
  have hnew : p ∉ e.ackers := by
    intro hmem
    have := (C.acked p hreg).mp hmem
    exact absurd (hfl.trans this.symm) (Nat.succ_ne_self _)
  have hcounted : p ∈ e.counted := C.counted hreg
  have hflush : ∀ q, (Log.acked s p a rr).flushPoint q =
      if q = p then s.lastSeqNum else s.flushPoint q := by
    intro q
    refine (Function.update_apply ..).trans ?_
    rw [hfl]
  have hothers : ∀ q, q ≠ p → ∀ cur first need, s.phase q ≠ .handling cur first need := by
    intro q hq cur first need
    refine S.not_handling_of_lock hlog fun hl => hq ?_
    exact Option.some.inj (hl.symm.trans hlock)
  rw [S.seqNum a hlog, he]
  refine ⟨W.count, W.alive, ?_, ?_, ?_, ?_⟩
  · intro q hq
    rw [hflush]
    by_cases hqp : q = p
    · rw [if_pos hqp]
      exact .inl rfl
    · rw [if_neg hqp]
      exact W.flush q hq
  · intro q cur first need hq
    rcases Trans.of_update (P := (· = Phase.handling cur first need)) hq with ⟨-, hq⟩ | ⟨hqp, hq⟩
    · split at hq <;> cases hq
    · exact absurd hq (hothers q hqp cur first need)
  · intro n f hf
    change Function.update es s.lastSeqNum (some (e.acked p)) n = _ at hf
    by_cases hn : n = s.lastSeqNum
    · rw [hn, Function.update_self] at hf
      obtain rfl := Option.some.inj hf
      obtain ⟨hnodup, hsub⟩ := W.entries _ e he
      refine ⟨List.nodup_cons.mpr ⟨hnew, hnodup⟩, fun q hq => ?_⟩
      rcases List.mem_cons.mp hq with rfl | hq
      · exact hcounted
      · exact hsub q hq
    · rw [Function.update_of_ne hn] at hf
      exact W.entries n f hf
  · intro b hb
    obtain rfl := Option.some.inj (hlog.symm.trans hb)
    refine ⟨e.acked p, Function.update_self .., ?_, ?_, C.counted, ?_⟩
    · change (Function.update s.steps a _ a).ackTarg = _
      rw [Function.update_self]
      exact C.targ
    · change (Function.update s.steps a _ a).ackCount = (p :: e.ackers).length
      rw [Function.update_self, List.length_cons]
      exact congrArg (· + 1) C.count
    · intro q hq
      change q ∈ p :: e.ackers ↔ (Log.acked s p a rr).flushPoint q = s.lastSeqNum
      rw [hflush, List.mem_cons]
      by_cases hqp : q = p
      · rw [if_pos hqp]
        exact ⟨fun _ => rfl, fun _ => .inl hqp⟩
      · rw [if_neg hqp]
        exact (or_iff_right hqp).trans (C.acked q hq)

theorem Witnessed.all_acked (W : Witnessed ⟨s, es⟩) (hlog : s.cleanupLog = some a)
    (hfull : (s.steps a).ackCount = (s.steps a).ackTarg) :
    ∃ e, es s.lastSeqNum = some e ∧ e.Current s (s.steps a) ∧ ∀ q ∈ e.counted, q ∈ e.ackers := by
  obtain ⟨e, he, C⟩ := W.current a hlog
  obtain ⟨hnodup, hsub⟩ := W.entries _ e he
  have hsubset : e.ackers.toFinset ⊆ e.counted := fun q hq => hsub q (List.mem_toFinset.mp hq)
  have hcard : e.counted.card ≤ e.ackers.toFinset.card := by
    rw [List.toFinset_card_of_nodup hnodup]
    exact (C.targ.symm.trans (hfull.symm.trans C.count)).le
  refine ⟨e, he, C, fun q hq => ?_⟩
  rw [← Finset.eq_of_subset_of_card_le hsubset hcard] at hq
  exact List.mem_toFinset.mp hq

theorem Witnessed.quieted (W : Witnessed ⟨s, es⟩) {t : State}
    (hcount : t.procCount = t.registered.card) (halive : t.registered ⊆ t.alive)
    (hflush : ∀ q ∈ t.registered, t.flushPoint q = t.lastSeqNum)
    (hphase : ∀ q cur first need, t.phase q ≠ .handling cur first need)
    (hlog : t.cleanupLog = none) : Witnessed ⟨t, es⟩ := by
  refine ⟨hcount, halive, fun q hq => .inl (hflush q hq), ?_, W.entries, ?_⟩
  · intro q cur first need hq
    exact absurd hq (hphase q cur first need)
  · intro b hb
    change t.cleanupLog = some b at hb
    rw [hlog] at hb
    cases hb

theorem Witnessed.cleaned (W : Witnessed ⟨s, es⟩) (S : Single s) (hph : s.phase p = .cleaning)
    (hlog : s.cleanupLog = some a) (hlock : (s.steps a).lock = some p) (r : Region) :
    Witnessed ⟨cleaned s p r, es⟩ := by
  obtain ⟨b, hb, hfull⟩ := S.owes p (.inr hph)
  obtain rfl := Option.some.inj (hlog.symm.trans hb)
  obtain ⟨e, -, C, hall⟩ := W.all_acked hlog hfull
  -- everybody has acknowledged, so everybody has caught up
  refine W.quieted W.count W.alive ?_ ?_ rfl
  · intro q hq
    exact (C.acked q hq).mp (hall q (C.counted hq))
  · intro q cur first need hq
    obtain ⟨hqp, hq⟩ := Trans.of_update_of_not (P := (· = Phase.handling cur first need)) hq nofun
    exact S.not_handling_of_lock hlog (fun hl => hqp (Option.some.inj (hl.symm.trans hlock))) hq

theorem Witnessed.joined (W : Witnessed ⟨s, es⟩) (S : Single s) (hlog : s.cleanupLog = none)
    (hp : p ∉ s.alive) : Witnessed ⟨joined s p, es⟩ := by
  have hnreg : p ∉ s.registered := fun h => hp (W.alive h)
  refine W.quieted ?_ (Finset.insert_subset_insert _ W.alive) ?_ ?_ hlog
  · change s.procCount + 1 = (insert p s.registered).card
    rw [Finset.card_insert_of_notMem hnreg]
    exact congrArg (· + 1) W.count
  · intro q hreg
    change Function.update s.flushPoint p s.lastSeqNum q = s.lastSeqNum
    by_cases hqp : q = p
    · rw [hqp]
      exact Function.update_self ..
    · rw [Function.update_of_ne hqp]
      exact W.quiet hlog (Finset.mem_of_mem_insert_of_ne hreg hqp)
  · intro q cur first need hq
    obtain ⟨-, hq⟩ := Trans.of_update_of_not (P := (· = Phase.handling cur first need)) hq nofun
    exact S.not_handling hlog hq

theorem Witnessed.removed (W : Witnessed ⟨s, es⟩) (hp : p ∈ s.registered)
    (hflush : s.flushPoint p = s.lastSeqNum) : Witnessed ⟨removed s p, es⟩ := by
  refine ⟨?_, ?_, ?_, ?_, W.entries, ?_⟩
  · change s.procCount - 1 = (s.registered.erase p).card
    rw [Finset.card_erase_of_mem hp]
    exact congrArg (· - 1) W.count
  · exact (Finset.erase_subset _ _).trans W.alive
  · intro q hq
    exact W.flush q (Finset.mem_of_mem_erase hq)
  · intro q cur first need hq
    obtain ⟨hreg, hfl⟩ := W.handling q cur first need hq
    refine ⟨Finset.mem_erase.mpr ⟨?_, hreg⟩, hfl⟩
    rintro rfl
    exact absurd (hfl.trans hflush.symm) (Nat.succ_ne_self _)
  · intro b hb
    obtain ⟨e, he, C⟩ := W.current b hb
    refine ⟨e, he, C.targ, C.count, (Finset.erase_subset _ _).trans C.counted, ?_⟩
    intro q hq
    exact C.acked q (Finset.mem_of_mem_erase hq)

theorem Witnessed.exited (W : Witnessed ⟨s, es⟩) (hp : p ∉ s.registered) :
    Witnessed ⟨exit s p, es⟩ := by
  refine ⟨W.count, ?_, W.flush, ?_, W.entries, ?_⟩
  · intro q hq
    refine Finset.mem_erase.mpr ⟨?_, W.alive hq⟩
    rintro rfl
    exact hp hq
  · intro q cur first need hq
    obtain ⟨-, hq⟩ := Trans.of_update_of_not (P := (· = Phase.handling cur first need)) hq nofun
    exact W.handling q cur first need hq
  · intro b hb
    obtain ⟨e, he, C⟩ := W.current b hb
    exact ⟨e, he, C.targ, C.count, C.counted, C.acked⟩

end Witnessed

section Runs
variable {pg : PageSize}

theorem Witnessed.step {s t : State} {es : Nat → Option Entry} (W : Witnessed ⟨s, es⟩)
    (S : Single s) {act : Action} (hact : InCount s act) (h : Log.step pg s act = .ok t) :
    Witnessed ⟨t, record s t es act⟩ := by
  cases act with
  | post p pages newStep range =>
    obtain ⟨-, hreg, hlog, -, -, -, rfl | ⟨a, r, rfl⟩⟩ := post_spec S h
    · have hsame : record s { s with freeStructs := s.freeStructs - 1 } es
          (.post p pages newStep range) = es := if_pos rfl
      rw [hsame]
      refine ⟨W.count, W.alive, W.flush, W.handling, W.entries, fun b hb => ?_⟩
      obtain ⟨e, he, C⟩ := W.current b hb
      exact ⟨e, he, C.targ, C.count, C.counted, C.acked⟩
    · have hnew : record s (Log.posted s p a r) es (.post p pages newStep range) =
          Function.update es (s.lastSeqNum + 1) (some ⟨s.registered, [p]⟩) :=
        if_neg (Nat.succ_ne_self _)
      rw [hnew]
      exact W.posted S hlog hreg r
  | look p =>
    obtain ⟨-, -, -, rfl | ⟨a, -, -, hflush, rfl⟩⟩ := look_spec S h
    · exact W
    · -- the step is new to the process, so the condition on the step puts it in the count
      refine W.locked s.rootLock fun _ _ _ _ => ⟨hact ?_, hflush.symm⟩
      exact (Nat.lt_succ_self _).trans_eq hflush.symm
  | ack p mapped =>
    obtain ⟨a, rr, hph, hlog, hlock, -, -, rfl⟩ := ack_spec S h
    simp only [record, hph]
    exact W.acked S hph hlog hlock rr
  | lockRoot p =>
    obtain ⟨a, -, -, -, -, -, rfl⟩ := lockRoot_spec h
    refine W.locked (some p) ?_
    intro cur first need hne
    cases hne
  | clean p =>
    obtain ⟨a, r, hph, hlog, hlock, -, rfl⟩ := clean_spec S h
    exact W.cleaned S hph hlog hlock r
  | join p =>
    obtain ⟨-, halive, hpend, rfl⟩ := join_spec h
    exact W.joined S (S.outstanding.mpr hpend) halive
  | remove p =>
    obtain ⟨-, hreg, hflush, rfl⟩ := remove_spec h
    exact W.removed hreg hflush
  | exit p =>
    obtain ⟨-, hreg, rfl⟩ := exit_spec h
    exact W.exited hreg
  | depart p =>
    obtain ⟨-, hreg, hflush, rfl⟩ := depart_spec h
    exact (W.removed hreg hflush).exited (Finset.notMem_erase _ _)

theorem Witnessed.acknowledgements {x : Recorded} (W : Witnessed x) (S : Single x.log) :
    Acknowledgements pg x := by
  refine ⟨W.entries, ?_, ?_⟩
  · intro a ha
    obtain ⟨e, he, C⟩ := W.current a ha
    exact ⟨e, (congrArg x.entries (S.seqNum a ha)).trans he, C.targ, C.count⟩
  · intro p t a e hclean ha he q hq _
    obtain ⟨b, r, hph, -, -, -, -⟩ := clean_spec S hclean
    obtain ⟨c, hc, hfull⟩ := S.owes p (.inr hph)
    obtain rfl := Option.some.inj (ha.symm.trans hc)
    obtain ⟨f, hf, -, hall⟩ := W.all_acked ha hfull
    rw [S.seqNum a ha] at he
    obtain rfl := Option.some.inj (he.symm.trans hf)
    exact hall q hq

end Runs

def CountedRun (pg : PageSize) : Recorded → Prop :=
  Trans.Reach Recorded.init (Trans.Guarded (fun x act => InCount x.log act) (Recorded.Step pg))

theorem only_counted_acknowledge (pg : PageSize) {x : Recorded} (h : CountedRun pg x) :
    Acknowledgements pg x := by
  have key : Single x.log ∧ Witnessed x :=
    Trans.Reach.inv (I := fun x : Recorded => Single x.log ∧ Witnessed x)
      (fun _ h0 => ⟨.init h0.1, .init h0⟩)
      (fun _ _ y ⟨S, W⟩ hst => by
        obtain ⟨hact, hstep, hrec⟩ := hst
        refine ⟨S.step hstep, ?_⟩
        have hy : y = ⟨y.log, record _ y.log _ _⟩ := congrArg (Recorded.mk y.log) hrec
        rw [hy]
        exact W.step S hact hstep) h
  exact key.2.acknowledgements key.1

def recordedStart : Recorded := ⟨oneProcess, fun _ => none⟩

theorem recordedStart_init : recordedStart.init := ⟨oneProcess_init, rfl⟩

/-- Two processes acknowledge a step that a third, on its way out, leaves alone. -/
theorem only_counted_acknowledge_three_processes : ∃ x, CountedRun page4096 x ∧
    x.log.cleanupLog ≠ none ∧ 2 ∈ x.log.alive ∧ Acknowledgements page4096 x := by
  have h0 : CountedRun page4096 recordedStart := .init recordedStart_init
  have h1 := h0.step (l := Action.join 1) ⟨trivial, Recorded.step_of rfl⟩
  have h2 := h1.step (l := Action.join 2) ⟨trivial, Recorded.step_of rfl⟩
  have h3 := h2.step (l := Action.remove 2) ⟨trivial, Recorded.step_of rfl⟩
  have h4 := h3.step (l := Action.post 0 4 (some 64) (some 65536)) ⟨trivial, Recorded.step_of rfl⟩
  have h5 := h4.step (l := Action.look 1) ⟨fun _ => by decide, Recorded.step_of rfl⟩
  have h6 := h5.step (l := Action.ack 1 true) ⟨trivial, Recorded.step_of rfl⟩
  exact ⟨_, h6, Option.some_ne_none _, by decide, only_counted_acknowledge page4096 h6⟩

/-- The background thread of a process that has left the count acknowledges a later step, in the
place of a process that is counted. -/
theorem uncounted_acknowledges : ¬ ∀ x, Trans.Reach Recorded.init (Recorded.Step page4096) x →
    Acknowledgements page4096 x := by
  intro H
  have h0 : Trans.Reach Recorded.init (Recorded.Step page4096) recordedStart :=
    .init recordedStart_init
  have h1 := h0.step (l := Action.join 1) (Recorded.step_of rfl)
  have h2 := h1.step (l := Action.join 2) (Recorded.step_of rfl)
  have h3 := h2.step (l := Action.remove 2) (Recorded.step_of rfl)
  have h4 := h3.step (l := Action.post 0 4 (some 64) (some 65536)) (Recorded.step_of rfl)
  have h5 := h4.step (l := Action.look 2) (Recorded.step_of rfl)
  have h6 := h5.step (l := Action.ack 2 true) (Recorded.step_of rfl)
  have hmem := ((H _ h6).ackers 2 ⟨Finset.erase (insert 2 (insert 1 {0})) 2, [2, 0]⟩ rfl).2 2
    (by decide)
  exact Finset.notMem_erase _ _ hmem

end Subcontexts.Log
