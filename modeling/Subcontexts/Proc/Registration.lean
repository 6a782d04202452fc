import Subcontexts.Proc.Walking

/-! The registration section of `sc_join`, and the start and the end of a walk. -/

namespace Subcontexts.Proc
variable {s : State} {l : List Addr} {p : Pid} {myProc cur : Addr}

theorem Inv.private_ne (I : Inv s l) (hp : (s.pc p).private = some myProc) {q : Pid} (hq : q ≠ p)
    {a : Addr} (ha : (s.pc q).private = some a) : a ≠ myProc := by
  rintro rfl
  exact hq (((I.walk q).priv a ha).2.2.symm.trans ((I.walk p).priv a hp).2.2)

theorem Inv.join (I : Inv s l) (hpc : s.pc p = .idle) (hp : p ∉ s.members)
    (hfree : s.used myProc = false) :
    Inv { s.goto p (.joinLock myProc) with
      used := Function.update s.used myProc true
      pid := Function.update s.pid myProc p
      members := insert p s.members } l := by
  have hplain : (Pc.joinLock myProc).Plain := trivial
  have hnot : ∀ a, s.used a = true → a ≠ myProc := by
    rintro a ha rfl
    rw [hfree] at ha
    cases ha
  have hlist : ∀ a ∈ l, a ≠ myProc := fun a ha => hnot a (I.used a ha)
  have hpid : ∀ a ∈ l, Function.update s.pid myProc p a = s.pid a := fun a ha =>
    Function.update_of_ne (hlist a ha) _ _
  have hms : ∀ q, q ≠ p → (q ∈ insert p s.members ↔ q ∈ s.members) := fun q hq => by
    rw [Finset.mem_insert, or_iff_right hq]
  refine I.update goto_of_ne hms I.chain (fun a ha => ?_)
    (fun a ha b hb hab => ?_) (fun q => ?_) (locks_keep I.locks fun u => by rw [hpc]; rfl)
    (fun q _ a ha => ?_) (fun q _ c hc => ?_) (fun q _ => (I.walk q).reads) (fun q _ slot hs => ?_)
    ?_ (fun q _ slot v w hr => ?_) (count_keep I.count goto_of_ne hms ?_)
  · exact (Function.update_of_ne (hlist a ha) _ _).trans (I.used a ha)
  · exact I.inj a ha b hb ((hpid a ha).symm.trans (hab.trans (hpid b hb)))
  · have hsame : (∃ a ∈ l, Function.update s.pid myProc p a = q) ↔ ∃ a ∈ l, s.pid a = q :=
      exists_congr fun a => and_congr_right fun ha => by rw [hpid a ha]
    refine hsame.trans ((I.onList q).trans (onList_step goto_of_ne hms ?_))
    simp [OnList, State.goto, hpc, hp]
  · obtain ⟨hu, hl, hq⟩ := (I.walk q).priv a ha
    exact ⟨Function.update_of_ne (hnot a hu) _ _, hl, Function.update_of_ne (hnot a hu) _ _, rfl⟩
  · have hmem := (I.walk q).node c hc
    exact ⟨hmem, hpid c hmem⟩
  · obtain ⟨pre, post, hl, hlast, a, ha, hq⟩ := (I.walk q).ahead slot hs
    exact ⟨pre, post, hl, hlast, a, ha, (hpid a (hl ▸ List.mem_append_right _ ha)).trans hq⟩
  · refine Walk.plain (Function.update_self ..) hplain (fun a ha => ?_)
      (fun _ => Finset.mem_insert_self ..) fun hk => absurd trivial hk.2
    obtain rfl := Option.some.inj ha
    exact ⟨Function.update_self .., fun hl => hlist _ hl rfl, Function.update_self ..⟩
  · exact absurd hr (hplain.not_relies (Function.update_self ..) slot v)
  · simp [Counted, State.goto, hpc, hp]

theorem Inv.joinLock (I : Inv s l) (hpc : s.pc p = .joinLock myProc) (hfree : s.lock none = none) :
    Inv { s.goto p (.joinCount myProc) with lock := Function.update s.lock none (some p) } l := by
  have hmem : p ∈ s.members := (I.walk p).joining (by rw [hpc]; trivial)
  refine I.plain trivial (fun _ _ => Iff.rfl) (locks_acquire I.locks hfree fun u => ?_) ?_
    (.inr (by rw [hpc]; rfl)) (fun _ => hmem) (fun hk => absurd trivial hk.2)
    (count_keep I.count goto_of_ne (fun _ _ => Iff.rfl) ?_)
  · rw [hpc]
    exact (or_iff_left id).symm
  · simp [OnList, State.goto, hpc]
  · simp [Counted, State.goto, hpc]

theorem Inv.joinCount (I : Inv s l) (hpc : s.pc p = .joinCount myProc) :
    Inv { s.goto p (.joinRead myProc) with procCount := s.procCount + 1 } l := by
  have hmem : p ∈ s.members := (I.walk p).joining (by rw [hpc]; trivial)
  refine I.plain trivial (fun _ _ => Iff.rfl) (locks_keep I.locks fun u => by rw [hpc]; rfl) ?_
    (.inr (by rw [hpc]; rfl)) (fun _ => hmem) (fun hk => absurd trivial hk.2)
    (count_add I.count goto_of_ne (fun _ _ => Iff.rfl) ?_ ?_)
  · simp [OnList, State.goto, hpc]
  · simp [Counted, hpc]
  · simp [Counted, State.goto]

theorem Inv.joinRead (I : Inv s l) (hpc : s.pc p = .joinRead myProc)
    (hund : ∀ q, q ≠ p → ¬ Exposed s q none) :
    Inv ((s.write (some myProc) s.procList).goto p (.joinPush myProc)) l := by
  have hpriv : (s.pc p).private = some myProc := by rw [hpc]; rfl
  obtain ⟨hused, hnew, hown⟩ := (I.walk p).priv myProc hpriv
  have hheld : (s.pc p).Holds none := by rw [hpc]; rfl
  have hself : ((s.write (some myProc) s.procList).goto p (.joinPush myProc)).pc p =
      .joinPush myProc := Function.update_self ..
  have hslot : ∀ slot, OnSlot l slot → slot ≠ some myProc := by
    rintro slot hon rfl
    exact hnew (onSlot_some.mp hon)
  have hread : (s.write (some myProc) s.procList).next myProc = s.procList :=
    Function.update_self ..
  have hrel : ∀ slot v,
      Relies ((s.write (some myProc) s.procList).goto p (.joinPush myProc)) p slot v →
        slot = none ∧ v = s.procList := by
    intro slot v hr
    simp only [Relies, hself] at hr
    exact ⟨hr.1, hr.2.trans hread⟩
  refine I.update goto_of_ne (fun _ _ => Iff.rfl)
    (I.chain.congr rfl fun a ha => s.links.get_set_of_ne (hslot (some a) (onSlot_some.mpr ha)))
    I.used I.inj (fun q => (I.onList q).trans (onList_step goto_of_ne (fun _ _ => Iff.rfl) ?_))
    (locks_keep I.locks fun u => by rw [hpc]; rfl)
    (fun q hq a ha => ?_) (fun q _ c hc => ⟨(I.walk q).node c hc, rfl⟩) (fun q _ slot v hr => ?_)
    (fun q _ => (I.walk q).ahead) ?_ (fun q hq slot v w hr => ?_)
    (count_keep I.count goto_of_ne (fun _ _ => Iff.rfl) ?_)
  · simp [OnList, State.goto, hpc]
  · have hne : some a ≠ some myProc := fun h => I.private_ne hpriv hq ha (Option.some.inj h)
    exact ⟨rfl, ((I.walk q).priv a ha).2.1, rfl, s.links.get_set_of_ne hne⟩
  · obtain ⟨hon, hv⟩ := (I.walk q).reads slot v hr
    exact ⟨hon, (s.links.get_set_of_ne (hslot slot hon)).trans hv⟩
  · refine ⟨fun a ha => ?_, fun slot v hr => ?_, fun c hc => ?_, fun c hc => ?_, fun c hc => ?_,
      fun slot hs => ?_, fun prev hp => ?_, fun _ => ?_, fun hk => ?_⟩
    · rw [hself] at ha
      obtain rfl := Option.some.inj ha
      exact ⟨hused, hnew, hown⟩
    · obtain ⟨rfl, rfl⟩ := hrel slot v hr
      exact ⟨onSlot_none l, rfl⟩
    · rw [hself] at hc
      cases hc
    · rw [hself] at hc
      cases hc
    · rw [hself] at hc
      cases hc
    · simp only [Searches, hself] at hs
    · rw [hself] at hp
      cases hp
    · exact (I.walk p).joining (by rw [hpc]; trivial)
    · rw [hself] at hk
      exact absurd trivial hk.2
  · obtain ⟨rfl, rfl⟩ := hrel slot v hr
    exact I.alone hheld hund hq w
  · simp [Counted, State.goto, hpc]

theorem Inv.joinPush (I : Inv s l) (hpc : s.pc p = .joinPush myProc) :
    Inv ((s.write none (some myProc)).goto p .joinUnlock) (myProc :: l) := by
  have hpriv : (s.pc p).private = some myProc := by rw [hpc]; rfl
  obtain ⟨hused, hnew, hown⟩ := (I.walk p).priv myProc hpriv
  have hrel : Relies s p none (s.next myProc) := by simp [Relies, hpc]
  have hhead : s.links.get none = s.next myProc := ((I.walk p).reads _ _ hrel).2
  have hself : ((s.write none (some myProc)).goto p .joinUnlock).pc p = .joinUnlock :=
    Function.update_self ..
  have hchain : (s.links.set none (some myProc)).Holds (myProc :: l) := by
    have hl : s.links.Holds ([] ++ l) := I.chain
    exact hl.insert hnew hhead.symm
  have hoff : ∀ a ∈ l, s.pid a ≠ p := fun a ha h => by
    have hon := (I.onList p).mp ⟨a, ha, h⟩
    simp only [OnList, hpc] at hon
  refine I.update goto_of_ne (fun _ _ => Iff.rfl)
    hchain (fun a ha => ?_)
    (fun a ha b hb hab => ?_) (fun q => ?_) (locks_keep I.locks fun u => by rw [hpc]; rfl)
    (fun q hq a ha => ?_) (fun q _ c hc => ?_) (fun q hq slot v hr => ?_)
    (fun q _ slot hs => ((I.walk q).ahead slot hs).push fun _ _ => rfl) ?_
    (fun q _ slot v w hr => ?_) (count_keep I.count goto_of_ne (fun _ _ => Iff.rfl) ?_)
  · rcases List.mem_cons.mp ha with rfl | ha
    · exact hused
    · exact I.used a ha
  · rcases List.mem_cons.mp ha with rfl | ha
    · rcases List.mem_cons.mp hb with rfl | hb
      · rfl
      · exact absurd (hab.symm.trans hown) (hoff b hb)
    · rcases List.mem_cons.mp hb with hbn | hb
      · exact absurd (hab.trans (hbn ▸ hown)) (hoff a ha)
      · exact I.inj a ha b hb hab
  · by_cases hqp : q = p
    · subst q
      exact iff_of_true ⟨myProc, List.mem_cons_self .., hown⟩ (by simp [OnList, State.goto])
    · have hmove : OnList ((s.write none (some myProc)).goto p .joinUnlock) q ↔ OnList s q :=
        onList_congr (goto_of_ne q hqp) Iff.rfl
      rw [hmove, ← I.onList q]
      constructor
      · rintro ⟨a, ha, hpid⟩
        rcases List.mem_cons.mp ha with rfl | ha
        · exact absurd (hpid.symm.trans hown) hqp
        · exact ⟨a, ha, hpid⟩
      · rintro ⟨a, ha, hpid⟩
        exact ⟨a, List.mem_cons_of_mem _ ha, hpid⟩
  · refine ⟨rfl, fun h => ?_, rfl, rfl⟩
    rcases List.mem_cons.mp h with rfl | h
    · exact I.private_ne hpriv hq ha rfl
    · exact ((I.walk q).priv a ha).2.1 h
  · exact ⟨List.mem_cons_of_mem _ ((I.walk q).node c hc), rfl⟩
  · obtain ⟨hon, hv⟩ := (I.walk q).reads slot v hr
    cases slot with
    | none => exact absurd (I.exclusive q p _ _ _ hr hrel) hq
    | some a => exact ⟨onSlot_some.mpr (List.mem_cons_of_mem _ (onSlot_some.mp hon)), hv⟩
  · exact Walk.plain hself trivial (fun _ hsome => absurd hsome.symm (Option.some_ne_none _))
      (fun _ => (I.walk p).joining (by rw [hpc]; trivial)) fun hk => absurd trivial hk.2
  · have hplain : Pc.joinUnlock.Plain := trivial
    exact absurd hr (hplain.not_relies hself slot v)
  · simp [Counted, State.goto, hpc]

theorem Inv.joinUnlock (I : Inv s l) (hpc : s.pc p = .joinUnlock) :
    Inv (release s p none .idle) l := by
  have hmem : p ∈ s.members := (I.walk p).joining (by rw [hpc]; trivial)
  refine I.plain trivial (fun _ _ => Iff.rfl)
    (locks_release I.locks (by rw [hpc]; rfl) fun u => ?_) ?_ (.inl rfl) False.elim
    (fun hk => absurd rfl hk.1) (count_keep I.count goto_of_ne (fun _ _ => Iff.rfl) ?_)
  · rw [hpc]
    exact iff_of_false id fun h => h.1 h.2
  · simp [OnList, State.goto, hpc, hmem]
  · simp [Counted, State.goto, hpc, hmem]

theorem Inv.kill (I : Inv s l) (hpc : s.pc p = .idle) (hp : p ∈ s.members) :
    Inv { s.goto p .killLock with members := s.members.erase p } l := by
  have hms : ∀ q, q ≠ p → (q ∈ s.members.erase p ↔ q ∈ s.members) := fun q hq => by
    rw [Finset.mem_erase, and_iff_right hq]
  refine I.plain trivial hms (locks_keep I.locks fun u => by rw [hpc]; rfl) ?_ (.inl rfl) False.elim
    (fun _ => Finset.notMem_erase p _) (count_keep I.count goto_of_ne hms ?_)
  · simp [OnList, State.goto, hpc, hp]
  · simp [Counted, State.goto, hpc, hp]

theorem Inv.killLock (I : Inv s l) (hpc : s.pc p = .killLock) (hfree : s.lock none = none) :
    Inv { s.goto p .killCount with lock := Function.update s.lock none (some p) } l := by
  have hmem : p ∉ s.members := (I.walk p).killing (by rw [hpc]; exact ⟨nofun, id⟩)
  refine I.plain trivial (fun _ _ => Iff.rfl) (locks_acquire I.locks hfree fun u => ?_) ?_
    (.inl rfl) False.elim (fun _ => hmem) (count_keep I.count goto_of_ne (fun _ _ => Iff.rfl) ?_)
  · rw [hpc]
    exact (or_iff_left id).symm
  · simp [OnList, State.goto, hpc]
  · simp [Counted, State.goto, hpc]

theorem Inv.killCount (I : Inv s l) (hpc : s.pc p = .killCount) :
    Inv { s.goto p .killHead with procCount := s.procCount - 1 } l := by
  have hmem : p ∉ s.members := (I.walk p).killing (by rw [hpc]; exact ⟨nofun, id⟩)
  refine I.plain trivial (fun _ _ => Iff.rfl) (locks_keep I.locks fun u => by rw [hpc]; rfl) ?_
    (.inl rfl) False.elim (fun _ => hmem) (count_sub I.count goto_of_ne (fun _ _ => Iff.rfl) ?_ ?_)
  · simp [OnList, State.goto, hpc]
  · simp [Counted, hpc]
  · simp [Counted, State.goto]

theorem Inv.killUnlockCur (I : Inv s l) (hpc : s.pc p = .killUnlockCur cur) :
    Inv (release s p (some cur) (.killFree cur)) l := by
  have hmem : p ∉ s.members := (I.walk p).killing (by rw [hpc]; exact ⟨nofun, id⟩)
  refine I.plain trivial (fun _ _ => Iff.rfl)
    (locks_release I.locks (by rw [hpc]; rfl) fun u => ?_) ?_ (.inr (by rw [hpc]; rfl)) False.elim
    (fun _ => hmem) (count_keep I.count goto_of_ne (fun _ _ => Iff.rfl) ?_)
  · rw [hpc]
    exact iff_of_false id fun h => h.1 h.2
  · simp [OnList, State.goto, hpc]
  · simp [Counted, State.goto, hpc]

theorem Inv.killFree (I : Inv s l) (hpc : s.pc p = .killFree cur) :
    Inv { s.goto p .idle with used := Function.update s.used cur false } l := by
  have hpriv : (s.pc p).private = some cur := by rw [hpc]; rfl
  obtain ⟨-, hoff, -⟩ := (I.walk p).priv cur hpriv
  have hmem : p ∉ s.members := (I.walk p).killing (by rw [hpc]; exact ⟨nofun, id⟩)
  have hplain : Pc.idle.Plain := trivial
  refine I.update goto_of_ne (fun _ _ => Iff.rfl) I.chain
    (fun a ha => ?_) I.inj
    (fun q => (I.onList q).trans (onList_step goto_of_ne (fun _ _ => Iff.rfl) ?_))
    (locks_keep I.locks fun u => by rw [hpc]; rfl) (fun q hq a ha => ?_)
    (fun q _ c hc => ⟨(I.walk q).node c hc, rfl⟩) (fun q _ => (I.walk q).reads)
    (fun q _ => (I.walk q).ahead)
    (Walk.plain (Function.update_self ..) hplain
      (fun _ hsome => absurd hsome.symm (Option.some_ne_none _)) False.elim fun hk => absurd rfl hk.1)
    (fun q _ slot v w hr => absurd hr (hplain.not_relies (Function.update_self ..) slot v))
    (count_keep I.count goto_of_ne (fun _ _ => Iff.rfl) ?_)
  · have hne : a ≠ cur := by
      rintro rfl
      exact hoff ha
    exact (Function.update_of_ne hne _ _).trans (I.used a ha)
  · simp [OnList, State.goto, hpc, hmem]
  · exact ⟨Function.update_of_ne (I.private_ne hpriv hq ha) _ _, ((I.walk q).priv a ha).2.1, rfl,
      rfl⟩
  · simp [Counted, State.goto, hpc, hmem]

theorem Inv.scribble (I : Inv s l) {a : Addr} (hfree : s.used a = false) (nxt : Option Addr)
    (pid : Pid) : Inv { s with
      next := Function.update s.next a nxt
      pid := Function.update s.pid a pid } l := by
  have hnot : ∀ b, s.used b = true → b ≠ a := by
    rintro b hb rfl
    rw [hfree] at hb
    cases hb
  have hpid : ∀ b ∈ l, Function.update s.pid a pid b = s.pid b := fun b hb =>
    Function.update_of_ne (hnot b (I.used b hb)) _ _
  have hnext : ∀ b ∈ l, Function.update s.next a nxt b = s.next b := fun b hb =>
    Function.update_of_ne (hnot b (I.used b hb)) _ _
  have hpriv : ∀ q b, (s.pc q).private = some b → b ≠ a := fun q b hb =>
    hnot b ((I.walk q).priv b hb).1
  have hnode : ∀ q c, (s.pc q).node = some c → c ∈ l ∧ Function.update s.pid a pid c = s.pid c :=
    fun q c hc => ⟨(I.walk q).node c hc, hpid c ((I.walk q).node c hc)⟩
  have hrel : ∀ q slot v, Relies { s with
      next := Function.update s.next a nxt, pid := Function.update s.pid a pid } q slot v ↔
        Relies s q slot v := fun q => relies_congr rfl (fun c hc => (hnode q c hc).2)
    fun b hb => Function.update_of_ne (hpriv q b hb) _ _
  refine ⟨I.chain.congr rfl hnext, I.used, fun b hb c hc hbc => ?_, fun q => ?_, I.locks,
    fun q => ?_, fun q r slot v w hq hr => ?_, I.count⟩
  · exact I.inj b hb c hc ((hpid b hb).symm.trans (hbc.trans (hpid c hc)))
  · have hsame : (∃ b ∈ l, Function.update s.pid a pid b = q) ↔ ∃ b ∈ l, s.pid b = q :=
      exists_congr fun b => and_congr_right fun hb => by rw [hpid b hb]
    exact hsame.trans (I.onList q)
  · refine (I.walk q).frame rfl (fun b hb => ?_) (hnode q) (fun slot v hr => ?_)
      (fun slot hs => ?_) Iff.rfl
    · exact ⟨rfl, ((I.walk q).priv b hb).2.1, Function.update_of_ne (hpriv q b hb) _ _,
        Function.update_of_ne (hpriv q b hb) _ _⟩
    · obtain ⟨hon, hv⟩ := (I.walk q).reads slot v hr
      refine ⟨hon, Eq.trans ?_ hv⟩
      cases slot with
      | none => rfl
      | some b => exact hnext b (onSlot_some.mp hon)
    · obtain ⟨pre, post, hl, hlast, b, hb, hq⟩ := (I.walk q).ahead slot hs
      exact ⟨pre, post, hl, hlast, b, hb, (hpid b (hl ▸ List.mem_append_right _ hb)).trans hq⟩
  · exact I.exclusive q r slot v w ((hrel q slot v).mp hq) ((hrel r slot w).mp hr)

end Subcontexts.Proc
