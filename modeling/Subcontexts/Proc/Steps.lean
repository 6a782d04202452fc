import Subcontexts.Proc.Walk

/-! Every step of a join or a walk keeps the list, provided no pointer is read between the release
of its lock and its update. -/

namespace Subcontexts.Proc

/-- The process has given up the lock of the slot and has still to write the slot. -/
def Exposed (s : State) (q : Pid) (slot : Slot) : Prop :=
  match s.pc q with
  | .killCompare prev cur => s.pid cur = q ∧ slot = prev
  | .killRead prev _ | .killWrite prev _ _ => slot = prev
  | _ => False

def Pc.Reads : Pc → Slot → Prop
  | .joinRead _, slot | .killHead, slot => slot = none
  | .killRead _ cur, slot | .killNext cur, slot => slot = some cur
  | _, _ => False

/-- The condition on a step: no process reads a pointer while another one has released the lock
before it and has still to write it. -/
def Undisturbed (s : State) : Action → Prop
  | .run p => ∀ slot, (s.pc p).Reads slot → ∀ q, q ≠ p → ¬ Exposed s q slot
  | _ => True

section Congr
variable {s t : State} {q : Pid}

theorem relies_congr (hpc : t.pc q = s.pc q)
    (hpid : ∀ c, (s.pc q).node = some c → t.pid c = s.pid c)
    (hnext : ∀ a, (s.pc q).private = some a → t.next a = s.next a) (slot v : Slot) :
    Relies t q slot v ↔ Relies s q slot v := by
  unfold Relies
  rw [hpc]
  split
  · rw [hnext _ (by rw [‹s.pc q = _›]; rfl)]
  · rfl
  · rfl
  · rfl
  · rfl
  · rw [hpid _ (by rw [‹s.pc q = _›]; rfl)]
  · rfl
  · rfl

theorem searches_congr (hpc : t.pc q = s.pc q)
    (hpid : ∀ c, (s.pc q).node = some c → t.pid c = s.pid c) (slot : Slot) :
    Searches t q slot ↔ Searches s q slot := by
  unfold Searches
  rw [hpc]
  split
  · rfl
  · rfl
  · rfl
  · rw [hpid _ (by rw [‹s.pc q = _›]; rfl)]
  · rfl
  · rfl

theorem onList_congr (hpc : t.pc q = s.pc q) (hmem : q ∈ t.members ↔ q ∈ s.members) :
    OnList t q ↔ OnList s q := by
  unfold OnList
  rw [hpc]
  split <;> first | exact hmem | rfl

theorem counted_congr (hpc : t.pc q = s.pc q) (hmem : q ∈ t.members ↔ q ∈ s.members) :
    Counted t q ↔ Counted s q := by
  unfold Counted
  rw [hpc]
  split <;> first | exact hmem | rfl

theorem Pc.node_of_own {pc : Pc} {c : Addr} (h : pc.own = some c) : pc.node = some c := by
  cases pc <;> first | exact h | cases h

theorem Walk.frame {l l' : List Addr} (W : Walk s l q) (hpc : t.pc q = s.pc q)
    (hpriv : ∀ a, (s.pc q).private = some a →
      t.used a = s.used a ∧ a ∉ l' ∧ t.pid a = s.pid a ∧ t.next a = s.next a)
    (hnode : ∀ c, (s.pc q).node = some c → c ∈ l' ∧ t.pid c = s.pid c)
    (hreads : ∀ slot v, Relies s q slot v → OnSlot l' slot ∧ t.links.get slot = v)
    (hahead : ∀ slot, Searches s q slot → Ahead t l' q slot)
    (hmem : q ∈ t.members ↔ q ∈ s.members) : Walk t l' q := by
  have hpid : ∀ c, (s.pc q).node = some c → t.pid c = s.pid c := fun c hc => (hnode c hc).2
  have hnext : ∀ a, (s.pc q).private = some a → t.next a = s.next a := fun a ha =>
    (hpriv a ha).2.2.2
  refine ⟨fun a ha => ?_, fun slot v hr => ?_, fun c hc => ?_, fun c hc => ?_, fun c hc => ?_,
    fun slot hs => ?_, fun prev hp => ?_, fun hj => ?_, fun hk => ?_⟩
  · rw [hpc] at ha
    obtain ⟨hu, hl, hp, -⟩ := hpriv a ha
    obtain ⟨hu', -, hp'⟩ := W.priv a ha
    exact ⟨hu.trans hu', hl, hp.trans hp'⟩
  · exact hreads slot v ((relies_congr hpc hpid hnext slot v).mp hr)
  · rw [hpc] at hc
    exact (hnode c hc).1
  · rw [hpc] at hc
    rw [hpid c (Pc.node_of_own hc)]
    exact W.own c hc
  · rw [hpc] at hc
    rw [hpid c (by rw [hc]; rfl)]
    exact W.other c hc
  · exact hahead slot ((searches_congr hpc hpid slot).mp hs)
  · rw [hpc] at hp
    exact W.found prev hp
  · rw [hpc] at hj
    exact hmem.mpr (W.joining hj)
  · rw [hpc] at hk
    exact fun h => W.killing hk (hmem.mp h)

end Congr

section Count
variable {s t : State} {n : Nat} {p : Pid}

theorem goto_of_ne {pc : Pc} (q : Pid) (hq : q ≠ p) : (s.goto p pc).pc q = s.pc q :=
  Function.update_of_ne hq _ _

theorem onList_step {q : Pid} (hpc : ∀ q, q ≠ p → t.pc q = s.pc q)
    (hms : ∀ q, q ≠ p → (q ∈ t.members ↔ q ∈ s.members)) (hp : OnList t p ↔ OnList s p) :
    OnList s q ↔ OnList t q := by
  by_cases hqp : q = p
  · exact hqp ▸ hp.symm
  · exact (onList_congr (hpc q hqp) (hms q hqp)).symm

theorem count_keep (h : ∃ C : Finset Pid, (∀ q, q ∈ C ↔ Counted s q) ∧ n = C.card)
    (hpc : ∀ q, q ≠ p → t.pc q = s.pc q) (hms : ∀ q, q ≠ p → (q ∈ t.members ↔ q ∈ s.members))
    (hp : Counted t p ↔ Counted s p) :
    ∃ C : Finset Pid, (∀ q, q ∈ C ↔ Counted t q) ∧ n = C.card := by
  obtain ⟨C, hC, hn⟩ := h
  refine ⟨C, fun q => (hC q).trans ?_, hn⟩
  by_cases hqp : q = p
  · exact hqp ▸ hp.symm
  · exact (counted_congr (hpc q hqp) (hms q hqp)).symm

theorem count_add (h : ∃ C : Finset Pid, (∀ q, q ∈ C ↔ Counted s q) ∧ n = C.card)
    (hpc : ∀ q, q ≠ p → t.pc q = s.pc q) (hms : ∀ q, q ≠ p → (q ∈ t.members ↔ q ∈ s.members))
    (hs : ¬ Counted s p) (htp : Counted t p) :
    ∃ C : Finset Pid, (∀ q, q ∈ C ↔ Counted t q) ∧ n + 1 = C.card := by
  obtain ⟨C, hC, hn⟩ := h
  have hp : p ∉ C := fun hp => hs ((hC p).mp hp)
  refine ⟨insert p C, fun q => ?_, by rw [Finset.card_insert_of_notMem hp, hn]⟩
  rw [Finset.mem_insert]
  by_cases hqp : q = p
  · subst q
    exact iff_of_true (.inl rfl) htp
  · rw [or_iff_right hqp, hC, counted_congr (hpc q hqp) (hms q hqp)]

theorem count_sub (h : ∃ C : Finset Pid, (∀ q, q ∈ C ↔ Counted s q) ∧ n = C.card)
    (hpc : ∀ q, q ≠ p → t.pc q = s.pc q) (hms : ∀ q, q ≠ p → (q ∈ t.members ↔ q ∈ s.members))
    (hs : Counted s p) (htp : ¬ Counted t p) :
    ∃ C : Finset Pid, (∀ q, q ∈ C ↔ Counted t q) ∧ n - 1 = C.card := by
  obtain ⟨C, hC, hn⟩ := h
  have hp : p ∈ C := (hC p).mpr hs
  refine ⟨C.erase p, fun q => ?_, by rw [Finset.card_erase_of_mem hp, hn]⟩
  rw [Finset.mem_erase]
  by_cases hqp : q = p
  · subst q
    exact iff_of_false (fun h => h.1 rfl) htp
  · rw [and_iff_right hqp, hC, counted_congr (hpc q hqp) (hms q hqp)]

end Count

section Locks
variable {s : State} {p : Pid} {ph : Pc} {slot : Slot}

theorem locks_keep (h : ∀ slot q, s.lock slot = some q ↔ (s.pc q).Holds slot)
    (hph : ∀ slot, ph.Holds slot ↔ (s.pc p).Holds slot) (slot : Slot) (q : Pid) :
    s.lock slot = some q ↔ (Function.update s.pc p ph q).Holds slot := by
  rw [h]
  by_cases hqp : q = p
  · subst q
    rw [Function.update_self, hph]
  · rw [Function.update_of_ne hqp]

theorem locks_update (h : ∀ slot q, s.lock slot = some q ↔ (s.pc q).Holds slot) {v : Option Pid}
    (hslot : ∀ q, v = some q ↔ (Function.update s.pc p ph q).Holds slot)
    (hph : ∀ u, u ≠ slot → (ph.Holds u ↔ (s.pc p).Holds u)) (u : Slot) (q : Pid) :
    Function.update s.lock slot v u = some q ↔ (Function.update s.pc p ph q).Holds u := by
  by_cases hu : u = slot
  · subst u
    rw [Function.update_self]
    exact hslot q
  · rw [Function.update_of_ne hu, h]
    by_cases hqp : q = p
    · subst q
      rw [Function.update_self, hph u hu]
    · rw [Function.update_of_ne hqp]

theorem locks_acquire (h : ∀ slot q, s.lock slot = some q ↔ (s.pc q).Holds slot)
    (hfree : s.lock slot = none) (hph : ∀ u, ph.Holds u ↔ u = slot ∨ (s.pc p).Holds u) (u : Slot)
    (q : Pid) : Function.update s.lock slot (some p) u = some q ↔
      (Function.update s.pc p ph q).Holds u := by
  refine locks_update h (fun q => ?_) (fun u hu => ?_) u q
  · by_cases hqp : q = p
    · subst q
      rw [Function.update_self, hph]
      simp
    · rw [Function.update_of_ne hqp, ← h, hfree]
      simp [Ne.symm hqp]
  · rw [hph, or_iff_right hu]

theorem locks_release (h : ∀ slot q, s.lock slot = some q ↔ (s.pc q).Holds slot)
    (hheld : (s.pc p).Holds slot) (hph : ∀ u, ph.Holds u ↔ u ≠ slot ∧ (s.pc p).Holds u) (u : Slot)
    (q : Pid) : Function.update s.lock slot none u = some q ↔
      (Function.update s.pc p ph q).Holds u := by
  refine locks_update h (fun q => ?_) (fun u hu => ?_) u q
  · by_cases hqp : q = p
    · subst q
      rw [Function.update_self, hph]
      simp
    · rw [Function.update_of_ne hqp, ← h, (h _ p).mpr hheld]
      simp [Ne.symm hqp]
  · rw [hph, and_iff_right hu]

end Locks

section Update
variable {s t : State} {l l' : List Addr} {p : Pid}

theorem Inv.update (I : Inv s l) (hpc : ∀ q, q ≠ p → t.pc q = s.pc q)
    (hms : ∀ q, q ≠ p → (q ∈ t.members ↔ q ∈ s.members))
    (chain : t.links.Holds l') (used : ∀ a ∈ l', t.used a = true)
    (inj : ∀ a ∈ l', ∀ b ∈ l', t.pid a = t.pid b → a = b)
    (onList : ∀ q, (∃ a ∈ l', t.pid a = q) ↔ OnList t q)
    (locks : ∀ slot q, t.lock slot = some q ↔ (t.pc q).Holds slot)
    (hpriv : ∀ q, q ≠ p → ∀ a, (s.pc q).private = some a →
      t.used a = s.used a ∧ a ∉ l' ∧ t.pid a = s.pid a ∧ t.next a = s.next a)
    (hnode : ∀ q, q ≠ p → ∀ c, (s.pc q).node = some c → c ∈ l' ∧ t.pid c = s.pid c)
    (hreads : ∀ q, q ≠ p → ∀ slot v, Relies s q slot v → OnSlot l' slot ∧ t.links.get slot = v)
    (hahead : ∀ q, q ≠ p → ∀ slot, Searches s q slot → Ahead t l' q slot)
    (walk : Walk t l' p)
    (hexcl : ∀ q, q ≠ p → ∀ slot v w, Relies t p slot v → ¬ Relies s q slot w)
    (count : ∃ C : Finset Pid, (∀ q, q ∈ C ↔ Counted t q) ∧ t.procCount = C.card) : Inv t l' := by
  have hrel : ∀ q, q ≠ p → ∀ slot v, Relies t q slot v ↔ Relies s q slot v := fun q hq =>
    relies_congr (hpc q hq) (fun c hc => (hnode q hq c hc).2) fun a ha => (hpriv q hq a ha).2.2.2
  refine ⟨chain, used, inj, onList, locks, fun q => ?_, fun q r slot v w hq hr => ?_, count⟩
  · by_cases hqp : q = p
    · exact hqp ▸ walk
    · exact (I.walk q).frame (hpc q hqp) (hpriv q hqp) (hnode q hqp) (hreads q hqp) (hahead q hqp)
        (hms q hqp)
  · by_cases hqp : q = p
    · by_cases hrp : r = p
      · exact hqp.trans hrp.symm
      · subst q
        exact absurd ((hrel r hrp slot w).mp hr) (hexcl r hrp slot v w hq)
    · by_cases hrp : r = p
      · subst r
        exact absurd ((hrel q hqp slot v).mp hq) (hexcl q hqp slot w v hr)
      · exact I.exclusive q r slot v w ((hrel q hqp slot v).mp hq) ((hrel r hrp slot w).mp hr)

theorem Inv.move (I : Inv s l) {ph : Pc} {lock : Slot → Option Pid} {n : Nat} {ms : Finset Pid}
    (hms : ∀ q, q ≠ p → (q ∈ ms ↔ q ∈ s.members))
    (locks : ∀ slot q, lock slot = some q ↔ (Function.update s.pc p ph q).Holds slot)
    (hon : OnList { s.goto p ph with lock := lock, procCount := n, members := ms } p ↔ OnList s p)
    (walk : Walk { s.goto p ph with lock := lock, procCount := n, members := ms } l p)
    (hexcl : ∀ q, q ≠ p → ∀ slot v w,
      Relies { s.goto p ph with lock := lock, procCount := n, members := ms } p slot v →
        ¬ Relies s q slot w)
    (count : ∃ C : Finset Pid, (∀ q, q ∈ C ↔
      Counted { s.goto p ph with lock := lock, procCount := n, members := ms } q) ∧ n = C.card) :
    Inv { s.goto p ph with lock := lock, procCount := n, members := ms } l := by
  exact I.update goto_of_ne hms I.chain I.used I.inj
    (fun q => (I.onList q).trans (onList_step goto_of_ne hms hon)) locks
    (fun q _ a ha => ⟨rfl, ((I.walk q).priv a ha).2.1, rfl, rfl⟩)
    (fun q _ c hc => ⟨(I.walk q).node c hc, rfl⟩) (fun q _ => (I.walk q).reads)
    (fun q _ => (I.walk q).ahead) walk hexcl count

theorem Inv.pass (I : Inv s l) {ph : Pc} {lock : Slot → Option Pid}
    (locks : ∀ slot q, lock slot = some q ↔ (Function.update s.pc p ph q).Holds slot)
    (hon : OnList { s.goto p ph with lock := lock } p ↔ OnList s p)
    (hcount : Counted { s.goto p ph with lock := lock } p ↔ Counted s p)
    (walk : Walk { s.goto p ph with lock := lock } l p)
    (hexcl : ∀ q, q ≠ p → ∀ slot v w, Relies { s.goto p ph with lock := lock } p slot v →
      ¬ Relies s q slot w) : Inv { s.goto p ph with lock := lock } l := by
  exact I.move (fun _ _ => Iff.rfl) locks hon walk hexcl
    (count_keep I.count goto_of_ne (fun _ _ => Iff.rfl) hcount)

theorem Relies.holds_or_exposed {slot v : Slot} (h : Relies s p slot v) :
    (s.pc p).Holds slot ∨ Exposed s p slot := by
  unfold Relies at h
  unfold Exposed
  cases hpc : s.pc p <;> rw [hpc] at h <;> first | exact h.elim | exact .inl h.1 | skip
  · exact .inl (.inl h.1)
  · exact .inr ⟨h.1, h.2.1⟩
  · exact .inr h.1
  · rcases h with ⟨h, -⟩ | ⟨h, -⟩
    · exact .inr h
    · exact .inl h

theorem Inv.alone (I : Inv s l) {slot : Slot} (hheld : (s.pc p).Holds slot)
    (hund : ∀ q, q ≠ p → ¬ Exposed s q slot) {q : Pid} (hqp : q ≠ p) (w : Option Addr) :
    ¬ Relies s q slot w := by
  intro hr
  rcases hr.holds_or_exposed with hq | hq
  · have hp := (I.locks slot p).mpr hheld
    rw [(I.locks slot q).mpr hq] at hp
    exact hqp (Option.some.inj hp)
  · exact hund q hqp hq

theorem Pc.holds_node {pc : Pc} {c : Addr} (h : pc.node = some c) : pc.Holds (some c) := by
  cases pc <;> first | exact h.symm | cases h

theorem Searches.slot {slot : Slot} (h : Searches s p slot) :
    (∃ v, Relies s p slot v) ∨ (s.pc p).node = slot ∧ slot ≠ none := by
  unfold Searches at h
  unfold Relies
  cases hpc : s.pc p <;> rw [hpc] at h <;> first | exact h.elim | exact .inl ⟨_, h, rfl⟩ | skip
  · exact .inr ⟨h.2.symm, h.2 ▸ Option.some_ne_none _⟩
  · exact .inr ⟨h.symm, h ▸ Option.some_ne_none _⟩

def Pc.Plain : Pc → Prop
  | .joinPush _ | .killTest _ _ | .killLockCur _ _ | .killUnlockPrev _ _ | .killCompare _ _ => False
  | .killRead _ _ | .killWrite _ _ _ | .killNext _ | .killUnlockLast _ => False
  | _ => True

theorem Pc.Plain.not_relies {ph : Pc} (h : ph.Plain) (hph : t.pc p = ph) (slot v : Slot) :
    ¬ Relies t p slot v := by
  unfold Relies
  rw [hph]
  cases ph <;> first | exact id | exact h.elim

theorem Walk.plain {ph : Pc} (hph : t.pc p = ph) (h : ph.Plain)
    (priv : ∀ a, ph.private = some a → t.used a = true ∧ a ∉ l ∧ t.pid a = p)
    (joining : ph.Joining → p ∈ t.members) (killing : ph.Killing → p ∉ t.members) :
    Walk t l p := by
  have hsearch : ∀ slot, ¬ Searches t p slot := by
    intro slot
    unfold Searches
    rw [hph]
    cases ph <;> first | exact id | exact h.elim
  refine ⟨fun a ha => priv a (hph ▸ ha), fun slot v hr => absurd hr (h.not_relies hph slot v),
    fun c hc => ?_, fun c hc => ?_, fun c hc => ?_, fun slot hs => absurd hs (hsearch slot),
    fun prev hp => ?_, fun hj => joining (hph ▸ hj), fun hk => killing (hph ▸ hk)⟩
  · rw [hph] at hc
    cases ph <;> first | exact h.elim | cases hc
  · rw [hph] at hc
    cases ph <;> first | exact h.elim | cases hc
  · rw [hph] at hc
    subst hc
    exact h.elim
  · rw [hph] at hp
    subst hp
    exact h.elim

theorem Inv.plain (I : Inv s l) {ph : Pc} {lock : Slot → Option Pid} {n : Nat} {ms : Finset Pid}
    (hplain : ph.Plain) (hms : ∀ q, q ≠ p → (q ∈ ms ↔ q ∈ s.members))
    (locks : ∀ slot q, lock slot = some q ↔ (Function.update s.pc p ph q).Holds slot)
    (hon : OnList { s.goto p ph with lock := lock, procCount := n, members := ms } p ↔ OnList s p)
    (hpriv : ph.private = none ∨ ph.private = (s.pc p).private)
    (joining : ph.Joining → p ∈ ms) (killing : ph.Killing → p ∉ ms)
    (count : ∃ C : Finset Pid, (∀ q, q ∈ C ↔
      Counted { s.goto p ph with lock := lock, procCount := n, members := ms } q) ∧ n = C.card) :
    Inv { s.goto p ph with lock := lock, procCount := n, members := ms } l := by
  have hph : (s.goto p ph).pc p = ph := Function.update_self ..
  refine I.move hms locks hon (Walk.plain hph hplain (fun a ha => ?_) joining killing)
    (fun q _ slot v w hr => absurd hr (hplain.not_relies hph slot v)) count
  rcases hpriv with h | h
  · rw [h] at ha
    cases ha
  · exact (I.walk p).priv a (h ▸ ha)

end Update
end Subcontexts.Proc
