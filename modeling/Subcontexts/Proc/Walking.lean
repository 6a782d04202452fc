import Subcontexts.Proc.Steps

/-! The steps of the hand-over-hand walk of `sc_killLocalProc`. -/

namespace Subcontexts.Proc
variable {s : State} {l : List Addr} {p : Pid} {prev next : Slot} {cur : Addr}

def Pc.Walking : Pc → Prop
  | .killHead | .killTest _ _ | .killLockCur _ _ | .killUnlockPrev _ _ => True
  | .killCompare _ _ | .killRead _ _ | .killWrite _ _ _ | .killNext _ => True
  | _ => False

theorem Pc.Walking.killing {pc : Pc} (h : pc.Walking) : pc.Killing := by
  cases pc <;> first | exact False.elim h | exact ⟨nofun, id⟩

theorem Pc.Walking.private {pc : Pc} (h : pc.Walking) : pc.private = none := by
  cases pc <;> first | rfl | exact False.elim h

theorem Pc.Walking.ne_last {pc : Pc} (h : pc.Walking) (prev : Slot) :
    pc ≠ .killUnlockLast prev := by
  rintro rfl
  exact h

theorem Pc.Walking.onList {ph : Pc} (h : ph.Walking) (hph : s.pc p = ph) : OnList s p := by
  unfold OnList
  rw [hph]
  cases ph <;> trivial

theorem Pc.Walking.not_counted {ph : Pc} (h : ph.Walking) (hph : s.pc p = ph) :
    ¬ Counted s p := by
  unfold Counted
  rw [hph]
  cases ph <;> first | exact id | exact False.elim h

theorem Inv.walk_on (I : Inv s l) {ph : Pc} {lock : Slot → Option Pid} (hpc : (s.pc p).Walking)
    (hph : ph.Walking)
    (locks : ∀ slot q, lock slot = some q ↔ (Function.update s.pc p ph q).Holds slot)
    (reads : ∀ slot v, Relies (s.goto p ph) p slot v → Relies s p slot v ∨
      (OnSlot l slot ∧ s.links.get slot = v ∧ ∀ q, q ≠ p → ∀ w, ¬ Relies s q slot w))
    (node : ∀ c, ph.node = some c → c ∈ l) (own : ∀ c, ph.own = some c → s.pid c = p)
    (other : ∀ c, ph = .killNext c → s.pid c ≠ p)
    (ahead : ∀ slot, Searches (s.goto p ph) p slot → Ahead s l p slot) :
    Inv { s.goto p ph with lock := lock } l := by
  have hself : (s.goto p ph).pc p = ph := Function.update_self ..
  refine I.pass locks (iff_of_true (hph.onList hself) (hpc.onList rfl))
    (iff_of_false (hph.not_counted hself) (hpc.not_counted rfl)) ?_ fun q hq slot v w hr => ?_
  · refine ⟨fun a ha => ?_, fun slot v hr => ?_, fun c hc => node c (hself ▸ hc),
      fun c hc => own c (hself ▸ hc), fun c hc => other c (hself ▸ hc), ahead, fun prev => ?_,
      fun hj => ?_, fun _ => (I.walk p).killing hpc.killing⟩
    · rw [show Pc.private _ = none from hself.symm ▸ hph.private] at ha
      cases ha
    · rcases reads slot v hr with h | ⟨hon, hget, -⟩
      · exact (I.walk p).reads slot v h
      · exact ⟨hon, hget⟩
    · exact hself.symm ▸ hph.ne_last prev
    · exact absurd (hself ▸ hj) hph.killing.2
  · rcases reads slot v hr with h | ⟨-, -, halone⟩
    · exact fun h' => hq (I.exclusive q p slot w v h' h)
    · exact halone q hq w

theorem Inv.killHead (I : Inv s l) (hpc : s.pc p = .killHead)
    (hund : ∀ q, q ≠ p → ¬ Exposed s q none) :
    Inv (s.goto p (.killTest none s.procList)) l := by
  have hw : (s.pc p).Walking := by rw [hpc]; trivial
  have hheld : (s.pc p).Holds none := by rw [hpc]; rfl
  refine I.walk_on hw trivial (locks_keep I.locks fun u => by rw [hpc]; rfl) (fun slot v hr => ?_)
    nofun nofun nofun fun slot hs => ?_
  · simp only [Relies, State.goto, Function.update_self] at hr
    obtain ⟨rfl, rfl⟩ := hr
    exact .inr ⟨onSlot_none l, rfl, fun q hq w => I.alone hheld hund hq w⟩
  · simp only [Searches, State.goto, Function.update_self] at hs
    subst hs
    exact ahead_none ((I.onList p).mpr (hw.onList rfl))

theorem Inv.killTest_some (I : Inv s l) (hpc : s.pc p = .killTest prev (some cur)) :
    Inv (s.goto p (.killLockCur prev cur)) l := by
  refine I.walk_on (by rw [hpc]; trivial) trivial (locks_keep I.locks fun u => by rw [hpc]; rfl)
    (fun slot v hr => .inl ?_) nofun nofun nofun fun slot hs => (I.walk p).ahead slot ?_
  · simpa only [Relies, State.goto, Function.update_self, hpc] using hr
  · simpa only [Searches, State.goto, Function.update_self, hpc] using hs

theorem Inv.killTest_none (I : Inv s l) : s.pc p ≠ .killTest prev none := by
  intro hpc
  have hr : Relies s p prev none := by simp [Relies, hpc]
  have hs : Searches s p prev := by simp [Searches, hpc]
  exact ((I.walk p).ahead prev hs).get_ne_none I.chain ((I.walk p).reads prev none hr).2

theorem Inv.killLockCur (I : Inv s l) (hpc : s.pc p = .killLockCur prev cur)
    (hfree : s.lock (some cur) = none) :
    Inv { s.goto p (.killUnlockPrev prev cur) with
      lock := Function.update s.lock (some cur) (some p) } l := by
  refine I.walk_on (by rw [hpc]; trivial) trivial
    (locks_acquire I.locks hfree fun u => by rw [hpc]; exact or_comm)
    (fun slot v hr => .inl ?_) nofun nofun nofun fun slot hs => (I.walk p).ahead slot ?_
  · simpa only [Relies, State.goto, Function.update_self, hpc] using hr
  · simpa only [Searches, State.goto, Function.update_self, hpc] using hs

theorem Inv.killUnlockPrev (I : Inv s l) (hpc : s.pc p = .killUnlockPrev prev cur) :
    Inv (release s p prev (.killCompare prev cur)) l := by
  have hr0 : Relies s p prev (some cur) := by simp [Relies, hpc]
  have hs0 : Searches s p prev := by simp [Searches, hpc]
  obtain ⟨hon, hget⟩ := (I.walk p).reads prev _ hr0
  have hne : prev ≠ some cur := hon.ne_self I.chain hget
  refine I.walk_on (by rw [hpc]; trivial) trivial
    (locks_release I.locks (by rw [hpc]; exact .inl rfl) fun u => ?_)
    (fun slot v hr => .inl ?_) (fun c hc => ?_) nofun nofun fun slot hs => ?_
  · rw [hpc]
    constructor
    · rintro rfl
      exact ⟨hne.symm, .inr rfl⟩
    · rintro ⟨hu, rfl | rfl⟩
      · exact absurd rfl hu
      · rfl
  · simp only [Relies, State.goto, Function.update_self] at hr
    obtain ⟨-, rfl, rfl⟩ := hr
    exact hr0
  · obtain rfl := Option.some.inj hc
    exact hon.mem I.chain hget
  · simp only [Searches, State.goto, Function.update_self] at hs
    obtain ⟨hpid, rfl⟩ := hs
    exact ((I.walk p).ahead prev hs0).next I.chain hget hpid

theorem Inv.killCompare_own (I : Inv s l) (hpc : s.pc p = .killCompare prev cur)
    (hpid : s.pid cur = p) : Inv (s.goto p (.killRead prev cur)) l := by
  have hnode : (s.pc p).node = some cur := by rw [hpc]; rfl
  refine I.walk_on (by rw [hpc]; trivial) trivial (locks_keep I.locks fun u => by rw [hpc]; rfl)
    (fun slot v hr => .inl ?_) (fun c hc => ?_) (fun c hc => ?_) nofun fun slot hs => ?_
  · simp only [Relies, State.goto, Function.update_self] at hr
    simpa only [Relies, hpc] using ⟨hpid, hr⟩
  · exact (I.walk p).node c (hnode.trans hc)
  · obtain rfl := Option.some.inj hc
    exact hpid
  · simp only [Searches, State.goto, Function.update_self] at hs

theorem Inv.killCompare_other (I : Inv s l) (hpc : s.pc p = .killCompare prev cur)
    (hpid : s.pid cur ≠ p) : Inv (s.goto p (.killNext cur)) l := by
  have hnode : (s.pc p).node = some cur := by rw [hpc]; rfl
  refine I.walk_on (by rw [hpc]; trivial) trivial (locks_keep I.locks fun u => by rw [hpc]; rfl)
    (fun slot v hr => ?_) (fun c hc => ?_) nofun (fun c hc => ?_)
    fun slot hs => (I.walk p).ahead slot ?_
  · simp only [Relies, State.goto, Function.update_self] at hr
  · exact (I.walk p).node c (hnode.trans hc)
  · cases hc
    exact hpid
  · simp only [Searches, State.goto, Function.update_self] at hs
    simpa only [Searches, hpc] using ⟨hpid, hs⟩

theorem Inv.killRead (I : Inv s l) (hpc : s.pc p = .killRead prev cur)
    (hund : ∀ q, q ≠ p → ¬ Exposed s q (some cur)) :
    Inv (s.goto p (.killWrite prev cur (s.next cur))) l := by
  have hnode : (s.pc p).node = some cur := by rw [hpc]; rfl
  have hown : (s.pc p).own = some cur := by rw [hpc]; rfl
  have hheld : (s.pc p).Holds (some cur) := by rw [hpc]; rfl
  refine I.walk_on (by rw [hpc]; trivial) trivial (locks_keep I.locks fun u => by rw [hpc]; rfl)
    (fun slot v hr => ?_) (fun c hc => ?_) (fun c hc => ?_) nofun fun slot hs => ?_
  · simp only [Relies, State.goto, Function.update_self] at hr
    rcases hr with hr | ⟨rfl, rfl⟩
    · exact .inl (by simpa only [Relies, hpc] using hr)
    · exact .inr ⟨onSlot_some.mpr ((I.walk p).node cur hnode), rfl,
        fun q hq w => I.alone hheld hund hq w⟩
  · exact (I.walk p).node c (hnode.trans hc)
  · exact (I.walk p).own c (hown.trans hc)
  · simp only [Searches, State.goto, Function.update_self] at hs

theorem Inv.killNext (I : Inv s l) (hpc : s.pc p = .killNext cur)
    (hund : ∀ q, q ≠ p → ¬ Exposed s q (some cur)) :
    Inv (s.goto p (.killTest (some cur) (s.next cur))) l := by
  have hnode : (s.pc p).node = some cur := by rw [hpc]; rfl
  have hheld : (s.pc p).Holds (some cur) := by rw [hpc]; rfl
  refine I.walk_on (by rw [hpc]; trivial) trivial (locks_keep I.locks fun u => by rw [hpc]; rfl)
    (fun slot v hr => ?_) nofun nofun nofun fun slot hs => (I.walk p).ahead slot ?_
  · simp only [Relies, State.goto, Function.update_self] at hr
    obtain ⟨rfl, rfl⟩ := hr
    exact .inr ⟨onSlot_some.mpr ((I.walk p).node cur hnode), rfl,
      fun q hq w => I.alone hheld hund hq w⟩
  · simpa only [Searches, State.goto, Function.update_self, hpc] using hs

theorem Inv.killWrite (I : Inv s l) (hpc : s.pc p = .killWrite prev cur next) :
    ∃ l', Inv ((s.write prev next).goto p (.killUnlockCur cur)) l' := by
  have hw : (s.pc p).Walking := by rw [hpc]; trivial
  have hheld : s.lock (some cur) = some p := (I.locks _ p).mpr (by rw [hpc]; rfl)
  have hprev : Relies s p prev (some cur) := by simp [Relies, hpc]
  have hcur : Relies s p (some cur) next := by simp [Relies, hpc]
  have hown : s.pid cur = p := (I.walk p).own cur (by rw [hpc]; rfl)
  obtain ⟨hon, hget⟩ := (I.walk p).reads prev _ hprev
  obtain rfl : s.next cur = next := ((I.walk p).reads _ _ hcur).2
  obtain ⟨pre, post, rfl, rfl⟩ := hon.split I.chain hget
  have hmem : cur ∈ pre ++ cur :: post := List.mem_append_right _ (List.mem_cons_self ..)
  have hgone : cur ∉ pre ++ post := by
    have hnd := I.chain.nodup
    rw [List.nodup_middle, List.nodup_cons] at hnd
    exact hnd.1
  have hsub : ∀ a, a ∈ pre ++ post ↔ a ∈ pre ++ cur :: post ∧ a ≠ cur := by
    intro a
    constructor
    · intro ha
      refine ⟨?_, fun h => hgone (h ▸ ha)⟩
      simp only [List.mem_append, List.mem_cons] at ha ⊢
      tauto
    · rintro ⟨ha, hne⟩
      simp only [List.mem_append, List.mem_cons] at ha ⊢
      tauto
  -- the lock of `cur` keeps every other process off it
  have hlocked : ∀ q, q ≠ p → ∀ c, (s.pc q).node = some c → c ≠ cur := by
    rintro q hq c hc rfl
    have h := (I.locks _ q).mpr (Pc.holds_node hc)
    rw [hheld] at h
    exact hq (Option.some.inj h).symm
  have hfar : ∀ q, q ≠ p → ∀ slot v, Relies s q slot v →
      slot ≠ pre.getLast? ∧ slot ≠ some cur := by
    intro q hq slot v hr
    constructor
    · rintro rfl
      exact hq (I.exclusive q p _ _ _ hr hprev)
    · rintro rfl
      exact hq (I.exclusive q p _ _ _ hr hcur)
  have hself : ((s.write pre.getLast? (s.next cur)).goto p (.killUnlockCur cur)).pc p =
      .killUnlockCur cur := Function.update_self ..
  have hplain : (Pc.killUnlockCur cur).Plain := trivial
  refine ⟨pre ++ post, I.update goto_of_ne (fun _ _ => Iff.rfl)
    I.chain.unlink (fun a ha => I.used a ((hsub a).mp ha).1)
    (fun a ha b hb => I.inj a ((hsub a).mp ha).1 b ((hsub b).mp hb).1) (fun q => ?_)
    (locks_keep I.locks fun u => by rw [hpc]; rfl) (fun q hq a ha => ?_) (fun q hq c hc => ?_)
    (fun q hq slot v hr => ?_) (fun q hq slot hs => ?_) ?_ (fun q hq slot v w hr => ?_)
    (count_keep I.count goto_of_ne (fun _ _ => Iff.rfl) ?_)⟩
  · by_cases hqp : q = p
    · subst q
      refine iff_of_false ?_ ?_
      · rintro ⟨a, ha, hpid⟩
        have ha' := (hsub a).mp ha
        exact ha'.2 (I.inj a ha'.1 cur hmem (hpid.trans hown.symm))
      · simp [OnList, hself]
    · have hq : OnList ((s.write pre.getLast? (s.next cur)).goto p (.killUnlockCur cur)) q ↔
          OnList s q := onList_congr (goto_of_ne q hqp) Iff.rfl
      rw [hq, ← I.onList q]
      constructor
      · rintro ⟨a, ha, hpid⟩
        exact ⟨a, ((hsub a).mp ha).1, hpid⟩
      · rintro ⟨a, ha, hpid⟩
        refine ⟨a, (hsub a).mpr ⟨ha, ?_⟩, hpid⟩
        rintro rfl
        exact hqp (hpid.symm.trans hown)
  · obtain ⟨hu, hl, hpid⟩ := (I.walk q).priv a ha
    refine ⟨rfl, fun h => hl ((hsub a).mp h).1, rfl, ?_⟩
    have hne : some a ≠ pre.getLast? := fun h => hl (onSlot_some.mp (h ▸ hon))
    exact s.links.get_set_of_ne hne
  · exact ⟨(hsub c).mpr ⟨(I.walk q).node c hc, hlocked q hq c hc⟩, rfl⟩
  · obtain ⟨hslot, hv⟩ := (I.walk q).reads slot v hr
    obtain ⟨hne, hne'⟩ := hfar q hq slot v hr
    refine ⟨?_, (s.links.get_set_of_ne hne).trans hv⟩
    cases slot with
    | none => exact onSlot_none _
    | some a =>
      exact onSlot_some.mpr ((hsub a).mpr ⟨onSlot_some.mp hslot, fun h => hne' (h ▸ rfl)⟩)
  · refine ((I.walk q).ahead slot hs).remove I.chain ?_ (hown ▸ hq.symm) fun _ => rfl
    rcases hs.slot with ⟨v, hr⟩ | ⟨hnode, -⟩
    · exact (hfar q hq slot v hr).2
    · rintro rfl
      exact hlocked q hq cur hnode rfl
  · refine Walk.plain hself hplain (fun a ha => ?_) nofun fun _ => (I.walk p).killing hw.killing
    obtain rfl := Option.some.inj ha
    exact ⟨I.used cur hmem, hgone, hown⟩
  · exact absurd hr (hplain.not_relies hself slot v)
  · exact iff_of_false (by simp [Counted, hself]) (hw.not_counted rfl)

end Subcontexts.Proc
