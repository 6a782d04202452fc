import Subcontexts.Locks.Model

/-! When the two lock orders, root before allocator and allocator before root, cannot block each
other. -/

namespace Subcontexts.Locks
variable {A : Type}

def Pc.HoldsMd : Pc → Prop
  | .mallocBody _ | .mmapLock (some _) | .mmapBody (some _) | .mallocCarve _ | .freeBody _ => True
  | _ => False

def Pc.HoldsRootX : Pc → Prop
  | .mallocLock c | .mallocBody c | .mallocCarve c | .mmapLock (some c) => c = .post
  | .freeLock c | .freeBody c => c ≠ .user
  | .mmapBody _ | .postBody | .postMmap | .postEnd | .cleanBody | .cleanNext => True
  | _ => False

/-- `sc_malloc` holds the allocator's lock and has fallen through to `sc_mmap`. -/
def Pc.Down : Pc → Prop
  | .mmapLock (some _) => True
  | _ => False

/-- `sc_mmap` is called from a post, under the root lock it takes itself. -/
def Pc.Nested (pc : Pc) : Prop := pc = .mmapLock (some .post) ∨ pc = .mmapBody (some .post)

/-- The root lock is held exclusively and the allocator's lock is still to be taken. -/
def Pc.Up : Pc → Prop
  | .postBody | .cleanBody => True
  | .mallocLock c => c = .post
  | .freeLock c => c ≠ .user
  | _ => False

/-- The condition on a step: `sc_malloc` falls through to `sc_mmap` only outside a post and while
nobody who holds the root lock has the allocator's lock to take, and the root lock is taken, or
the allocator's lock needed again under it, only while no `sc_malloc` waits in `sc_mmap`. -/
def Ordered (s : State A) : Action A → Prop
  | .call _ _ => True
  | .acquire a => s.pc a = .postLock ∨ s.pc a = .cleanLock → ∀ b, ¬ (s.pc b).Down
  | .advance a b =>
    match s.pc a, b with
    | .mallocBody c, false => c ≠ .post ∧ ∀ b, ¬ (s.pc b).Up
    | .postMmap, false => ∀ b, ¬ (s.pc b).Down
    | .cleanNext, true => ∀ b, ¬ (s.pc b).Down
    | _, _ => True

structure Inv (s : State A) : Prop where
  md : ∀ a, s.md = some a ↔ (s.pc a).HoldsMd
  rootX : ∀ a, s.rootX = some a ↔ (s.pc a).HoldsRootX
  rootS : ∀ a, a ∈ s.rootS ↔ s.pc a = .lookBody
  shared : s.rootX ≠ none → s.rootS = ∅
  outside : ∀ a, ¬ (s.pc a).Nested
  apart : ∀ a b, (s.pc a).Down → ¬ (s.pc b).Up

theorem Inv.init {s : State A} (h : s.init) : Inv s := by
  obtain ⟨hx, hs, hmd, hpc⟩ := h
  refine ⟨?_, ?_, ?_, ?_, ?_, ?_⟩ <;> simp [hx, hs, hmd, hpc, Pc.HoldsMd, Pc.HoldsRootX, Pc.Nested, Pc.Down]

def Moves (l l' : Option A) (a : A) (held holds : Prop) : Prop :=
  (l' = l ∧ (holds ↔ held)) ∨ (l = none ∧ l' = some a ∧ holds) ∨ (l' = none ∧ held ∧ ¬ holds)

theorem Pc.Down.not_up {ph : Pc} (h : ph.Down) : ¬ ph.Up := by
  unfold Pc.Down at h
  split at h
  · simp [Pc.Up]
  · exact h.elim

section Steps
variable [DecidableEq A] {s t : State A} {a : A} {ph : Pc}

theorem Moves.holder {H : Pc → Prop} {l l' : Option A} (hl : ∀ b, l = some b ↔ H (s.pc b))
    (hm : Moves l l' a (H (s.pc a)) (H ph)) (b : A) :
    l' = some b ↔ H (Function.update s.pc a ph b) := by
  have hb := hl b
  by_cases hba : b = a
  · subst b
    rw [Function.update_self]
    rcases hm with ⟨rfl, hiff⟩ | ⟨-, rfl, hh⟩ | ⟨rfl, -, hn⟩
    · rw [hb, hiff]
    · simp [hh]
    · simp [hn]
  · rw [Function.update_of_ne hba, ← hb]
    rcases hm with ⟨rfl, -⟩ | ⟨rfl, rfl, -⟩ | ⟨rfl, hh, -⟩
    · rfl
    · simp [Ne.symm hba]
    · have := (hl a).mpr hh
      simp [this, Ne.symm hba]

theorem Inv.move (I : Inv s) {md rootX : Option A} {rootS : Finset A}
    (hmd : Moves s.md md a (s.pc a).HoldsMd ph.HoldsMd)
    (hrx : Moves s.rootX rootX a (s.pc a).HoldsRootX ph.HoldsRootX)
    (hrs : ∀ b, b ∈ rootS ↔ Function.update s.pc a ph b = .lookBody)
    (hsh : rootX ≠ none → rootS = ∅)
    (hout : ¬ ph.Nested)
    (hdown : ph.Down → ∀ b, ¬ (s.pc b).Up)
    (hup : ph.Up → (s.pc a).Up ∨ ∀ b, ¬ (s.pc b).Down) :
    Inv ⟨rootX, rootS, md, Function.update s.pc a ph⟩ := by
  refine ⟨Moves.holder I.md hmd, Moves.holder I.rootX hrx, hrs, hsh, fun b => ?_,
    fun b d hb hd => ?_⟩
  · change ¬ (Function.update s.pc a ph b).Nested
    by_cases hba : b = a
    · subst b
      rwa [Function.update_self]
    · rw [Function.update_of_ne hba]
      exact I.outside b
  · change (Function.update s.pc a ph b).Down at hb
    change (Function.update s.pc a ph d).Up at hd
    by_cases hba : b = a
    · rw [hba, Function.update_self] at hb
      by_cases hda : d = a
      · rw [hda, Function.update_self] at hd
        exact hb.not_up hd
      · rw [Function.update_of_ne hda] at hd
        exact hdown hb d hd
    · rw [Function.update_of_ne hba] at hb
      by_cases hda : d = a
      · rw [hda, Function.update_self] at hd
        rcases hup hd with h | h
        · exact I.apart b a hb h
        · exact h b hb
      · rw [Function.update_of_ne hda] at hd
        exact I.apart b d hb hd

theorem Inv.rootS_keep (I : Inv s) (hold : s.pc a ≠ .lookBody) (hnew : ph ≠ .lookBody) (b : A) :
    b ∈ s.rootS ↔ Function.update s.pc a ph b = .lookBody := by
  rw [I.rootS]
  by_cases hba : b = a
  · subst b
    simp [hold, hnew]
  · rw [Function.update_of_ne hba]

theorem Inv.goto (I : Inv s) (hmd : ph.HoldsMd ↔ (s.pc a).HoldsMd)
    (hrx : ph.HoldsRootX ↔ (s.pc a).HoldsRootX) (hold : s.pc a ≠ .lookBody) (hnew : ph ≠ .lookBody)
    (hout : ¬ ph.Nested)
    (hdown : ph.Down → ∀ b, ¬ (s.pc b).Up)
    (hup : ph.Up → (s.pc a).Up ∨ ∀ b, ¬ (s.pc b).Down) : Inv (s.goto a ph) :=
  I.move (.inl ⟨rfl, hmd⟩) (.inl ⟨rfl, hrx⟩) (I.rootS_keep hold hnew) I.shared hout hdown hup

theorem Inv.lockRoot (I : Inv s) (hold : s.pc a ≠ .lookBody)
    (hnew : ph ≠ .lookBody) (hmd : ph.HoldsMd ↔ (s.pc a).HoldsMd) (hrx : ph.HoldsRootX)
    (hout : ¬ ph.Nested) (hdown : ¬ ph.Down) (hup : ph.Up → ∀ b, ¬ (s.pc b).Down)
    (h : lockRoot s a ph = some t) : Inv t := by
  unfold Locks.lockRoot at h
  split at h
  · rename_i hfree
    obtain rfl := Option.some.inj h
    exact I.move (.inl ⟨rfl, hmd⟩) (.inr (.inl ⟨hfree.1, rfl, hrx⟩)) (I.rootS_keep hold hnew)
      (fun _ => hfree.2) hout (fun hd => absurd hd hdown) fun hu => .inr (hup hu)
  · cases h

theorem Inv.lockMd (I : Inv s) (hold : s.pc a ≠ .lookBody) (hnew : ph ≠ .lookBody)
    (hmd : ph.HoldsMd) (hrx : ph.HoldsRootX ↔ (s.pc a).HoldsRootX) (hout : ¬ ph.Nested) (hdown : ¬ ph.Down)
    (hup : ¬ ph.Up) (h : lockMd s a ph = some t) : Inv t := by
  unfold Locks.lockMd at h
  split at h
  · rename_i hfree
    obtain rfl := Option.some.inj h
    exact I.move (.inr (.inl ⟨hfree, rfl, hmd⟩)) (.inl ⟨rfl, hrx⟩) (I.rootS_keep hold hnew)
      I.shared hout (fun hd => absurd hd hdown) fun hu => absurd hu hup
  · cases h

theorem Inv.call (I : Inv s) {e : Entry} (h : step s (.call a e) = some t) : Inv t := by
  simp only [step] at h
  split at h
  · rename_i hpc
    obtain rfl := Option.some.inj h
    have hfacts : ¬ e.pc.HoldsMd ∧ ¬ e.pc.HoldsRootX ∧ e.pc ≠ .lookBody ∧ ¬ e.pc.Nested ∧
        ¬ e.pc.Down ∧ ¬ e.pc.Up := by
      cases e <;> simp [Entry.pc, Pc.HoldsMd, Pc.HoldsRootX, Pc.Nested, Pc.Down, Pc.Up]
    obtain ⟨hmd, hrx, hlook, hout, hdown, hup⟩ := hfacts
    refine I.goto ?_ ?_ (by simp [hpc]) hlook hout (fun hd => absurd hd hdown)
      fun hu => absurd hu hup
    · rw [hpc]
      exact iff_of_false hmd id
    · rw [hpc]
      exact iff_of_false hrx id
  · cases h

theorem Inv.acquire (I : Inv s) (hok : Ordered s (.acquire a)) (h : step s (.acquire a) = some t) :
    Inv t := by
  simp only [step] at h
  split at h
  -- `mallocLock`: the lock of the allocator
  case h_1 c hpc =>
    refine I.lockMd (by simp [hpc]) (by simp) ?_ ?_ (by simp [Pc.Nested]) id id h
    · trivial
    · rw [hpc]
      rfl
  -- `freeLock`
  case h_2 c hpc =>
    refine I.lockMd (by simp [hpc]) (by simp) ?_ ?_ (by simp [Pc.Nested]) id id h
    · trivial
    · rw [hpc]
      rfl
  -- `mmapLock`: from inside `sc_malloc` the allocator is already locked
  case h_3 c hpc =>
    refine I.lockRoot (by simp [hpc]) (by simp) ?_ ?_ (fun hn => ?_) id ?_ h
    · rw [hpc]
      cases c <;> rfl
    · trivial
    · have hout := I.outside a
      rw [hpc] at hout
      rcases hn with hn | hn
      · cases hn
      · cases hn
        exact hout (.inl rfl)
    · intro hu
      exact hu.elim
  -- `postLock`: nobody may be on the way from the allocator to the root
  case h_4 hpc =>
    refine I.lockRoot (by simp [hpc]) (by simp) ?_ ?_ (by simp [Pc.Nested]) id
      (fun _ => hok (.inl hpc)) h
    · rw [hpc]
      rfl
    · trivial
  -- `cleanLock`, likewise
  case h_5 hpc =>
    refine I.lockRoot (by simp [hpc]) (by simp) ?_ ?_ (by simp [Pc.Nested]) id
      (fun _ => hok (.inr hpc)) h
    · rw [hpc]
      rfl
    · trivial
  -- `lookLock`: the root lock is shared
  case h_6 hpc =>
    split at h
    · rename_i hfree
      obtain rfl := Option.some.inj h
      refine I.move (.inl ⟨rfl, ?_⟩) (.inl ⟨rfl, ?_⟩) (fun b => ?_) (fun hx => absurd hfree hx)
        (by simp [Pc.Nested]) (fun hd => hd.elim) (fun hu => hu.elim)
      · rw [hpc]
        rfl
      · rw [hpc]
        rfl
      · rw [Finset.mem_insert, I.rootS]
        by_cases hba : b = a
        · subst b
          simp
        · simp [hba]
    · cases h
  case h_7 => cases h

theorem Inv.unlockRoot (I : Inv s) (hmd : ph.HoldsMd ↔ (s.pc a).HoldsMd)
    (hheld : (s.pc a).HoldsRootX) (hrx : ¬ ph.HoldsRootX) (hold : s.pc a ≠ .lookBody)
    (hnew : ph ≠ .lookBody) (hout : ¬ ph.Nested) (hdown : ¬ ph.Down) (hup : ¬ ph.Up) :
    Inv { s.goto a ph with rootX := none } :=
  I.move (.inl ⟨rfl, hmd⟩) (.inr (.inr ⟨rfl, hheld, hrx⟩)) (I.rootS_keep hold hnew)
    (fun hx => absurd rfl hx) hout (fun hd => absurd hd hdown) fun hu => absurd hu hup

theorem Inv.unlockMd (I : Inv s) (hheld : (s.pc a).HoldsMd) (hmd : ¬ ph.HoldsMd)
    (hrx : ph.HoldsRootX ↔ (s.pc a).HoldsRootX) (hold : s.pc a ≠ .lookBody)
    (hnew : ph ≠ .lookBody) (hup : ¬ ph.Up) : Inv { s.goto a ph with md := none } := by
  have hdown : ¬ ph.Down := by
    intro hd
    unfold Pc.Down at hd
    split at hd
    · exact hmd trivial
    · exact hd.elim
  have hout : ¬ ph.Nested := by
    rintro (rfl | rfl) <;> exact hmd trivial
  exact I.move (.inr (.inr ⟨rfl, hheld, hmd⟩)) (.inl ⟨rfl, hrx⟩) (I.rootS_keep hold hnew) I.shared
    hout (fun hd => absurd hd hdown) fun hu => absurd hu hup

theorem mallocReturn_facts (b : Bool) (c : MallocCaller) :
    ¬ (mallocReturn b c).HoldsMd ∧ ((mallocReturn b c).HoldsRootX ↔ c = .post) ∧
      mallocReturn b c ≠ .lookBody ∧ ¬ (mallocReturn b c).Up := by
  cases c <;> cases b <;> simp [mallocReturn, Pc.HoldsMd, Pc.HoldsRootX, Pc.Up]

theorem freeReturn_facts (c : FreeCaller) :
    ¬ (freeReturn c).HoldsMd ∧ ((freeReturn c).HoldsRootX ↔ c ≠ .user) ∧
      freeReturn c ≠ .lookBody ∧ ¬ (freeReturn c).Up := by
  cases c <;> simp [freeReturn, Pc.HoldsMd, Pc.HoldsRootX, Pc.Up]

theorem Inv.advance (I : Inv s) {b : Bool} (hok : Ordered s (.advance a b))
    (h : step s (.advance a b) = some t) : Inv t := by
  unfold Ordered at hok
  simp only [step] at h
  split at h
  -- `mallocBody`: a node fits, or `sc_mmap` is asked for pages
  case h_1 c hpc =>
    obtain ⟨hmd, hrx, hlook, hup⟩ := mallocReturn_facts true c
    cases b with
    | true =>
      obtain rfl := Option.some.inj h
      refine I.unlockMd ?_ hmd ?_ (by simp [hpc]) hlook hup
      · rw [hpc]
        trivial
      · rw [hpc]
        exact hrx
    | false =>
      obtain rfl := Option.some.inj h
      simp only [hpc] at hok
      refine I.goto ?_ ?_ (by simp [hpc]) (by simp) ?_ (fun _ => hok.2) (fun hu => hu.elim)
      · rw [hpc]
        rfl
      · rw [hpc]
        rfl
      · simpa [Pc.Nested] using hok.1
  -- `mmapBody` of a user
  case h_2 hpc =>
    obtain rfl := Option.some.inj h
    refine I.unlockRoot ?_ ?_ id (by simp [hpc]) (by simp) (by simp [Pc.Nested]) id id
    · rw [hpc]
      rfl
    · rw [hpc]
      trivial
  -- `mmapBody` inside `sc_malloc`, which a post does not reach
  case h_3 c hpc =>
    obtain rfl := Option.some.inj h
    have hc : c ≠ .post := by
      rintro rfl
      exact I.outside a (.inr hpc)
    refine I.unlockRoot ?_ ?_ hc (by simp [hpc]) (by simp) (by simp [Pc.Nested]) id id
    · rw [hpc]
      rfl
    · rw [hpc]
      trivial
  -- `mallocCarve`: back to the caller
  case h_4 c hpc =>
    obtain rfl := Option.some.inj h
    obtain ⟨hmd, hrx, hlook, hup⟩ := mallocReturn_facts b c
    refine I.unlockMd ?_ hmd ?_ (by simp [hpc]) hlook hup
    · rw [hpc]
      trivial
    · rw [hpc]
      exact hrx
  -- `freeBody`: back to the caller
  case h_5 c hpc =>
    obtain rfl := Option.some.inj h
    obtain ⟨hmd, hrx, hlook, hup⟩ := freeReturn_facts c
    refine I.unlockMd ?_ hmd ?_ (by simp [hpc]) hlook hup
    · rw [hpc]
      trivial
    · rw [hpc]
      exact hrx
  -- `postBody`: the post asks `sc_malloc` for its log entry
  case h_6 hpc =>
    obtain rfl := Option.some.inj h
    refine I.goto ?_ ?_ (by simp [hpc]) ?_ ?_ ?_ fun _ => .inl ?_
    all_goals cases b <;> simp [hpc, Pc.HoldsMd, Pc.HoldsRootX, Pc.Nested, Pc.Down, Pc.Up]
  -- `postMmap`: where the `mmap` fails the post frees the entry
  case h_7 hpc =>
    obtain rfl := Option.some.inj h
    refine I.goto ?_ ?_ (by simp [hpc]) ?_ ?_ ?_ fun hu => .inr ?_
    · cases b <;> simp [hpc, Pc.HoldsMd]
    · cases b <;> simp [hpc, Pc.HoldsRootX]
    · cases b <;> simp
    · cases b <;> simp [Pc.Nested]
    · cases b <;> simp [Pc.Down]
    · cases b with
      | true => exact hu.elim
      | false => simpa only [hpc] using hok
  -- `postEnd`
  case h_8 hpc =>
    obtain rfl := Option.some.inj h
    refine I.unlockRoot ?_ ?_ id (by simp [hpc]) (by simp) (by simp [Pc.Nested]) id id
    · rw [hpc]
      rfl
    · rw [hpc]
      trivial
  -- `lookBody`
  case h_9 hpc =>
    obtain rfl := Option.some.inj h
    refine I.move (.inl ⟨rfl, ?_⟩) (.inl ⟨rfl, ?_⟩) (fun d => ?_) (fun hx => ?_)
      (by simp [Pc.Nested]) (fun hd => hd.elim) (fun hu => hu.elim)
    · rw [hpc]
      rfl
    · rw [hpc]
      rfl
    · rw [Finset.mem_erase, I.rootS]
      by_cases hda : d = a
      · subst d
        simp
      · simp [hda]
    · rw [I.shared hx]
      rfl
  -- `cleanBody`: the cleanup frees the entry
  case h_10 hpc =>
    obtain rfl := Option.some.inj h
    refine I.goto ?_ ?_ (by simp [hpc]) (by simp) (by simp [Pc.Nested]) (fun hd => hd.elim)
      fun _ => .inl ?_
    · rw [hpc]
      rfl
    · rw [hpc]
      simp [Pc.HoldsRootX]
    · rw [hpc]
      trivial
  -- `cleanNext`: the next entry, or the end
  case h_11 hpc =>
    cases b with
    | true =>
      obtain rfl := Option.some.inj h
      simp only [hpc] at hok
      refine I.goto ?_ ?_ (by simp [hpc]) (by simp) (by simp [Pc.Nested]) (fun hd => hd.elim)
        fun _ => .inr hok
      · rw [hpc]
        rfl
      · rw [hpc]
        rfl
    | false =>
      obtain rfl := Option.some.inj h
      refine I.unlockRoot ?_ ?_ id (by simp [hpc]) (by simp) (by simp [Pc.Nested]) id id
      · rw [hpc]
        rfl
      · rw [hpc]
        trivial
  case h_12 => cases h

theorem Inv.step (I : Inv s) {act : Action A} (hok : Ordered s act)
    (h : Locks.step s act = some t) : Inv t := by
  cases act with
  | call a e => exact I.call h
  | acquire a => exact I.acquire hok h
  | advance a b => exact I.advance hok h

end Steps

section Cycle
variable {s : State A}

def Holds (s : State A) (a : A) : Lock → Prop
  | .root => s.rootX = some a ∨ a ∈ s.rootS
  | .md => s.md = some a

def Waits (s : State A) (a : A) : Lock → Prop
  | .root => (∃ c, s.pc a = .mmapLock c) ∨ s.pc a = .postLock ∨ s.pc a = .cleanLock ∨
      s.pc a = .lookLock
  | .md => (∃ c, s.pc a = .mallocLock c) ∨ ∃ c, s.pc a = .freeLock c

theorem WaitsOn.lock {a b : A} (h : WaitsOn s a b) : ∃ l, Waits s a l ∧ Holds s b l := by
  cases h with
  | md hw hh => exact ⟨.md, hw, hh⟩
  | rootX hw hh =>
    refine ⟨.root, ?_, hh⟩
    rcases hw with hw | hw | hw
    · exact .inl hw
    · exact .inr (.inl hw)
    · exact .inr (.inr (.inl hw))
  | rootS hw hh => exact ⟨.root, .inr (.inr (.inr hw)), .inl hh⟩

end Cycle

end Subcontexts.Locks
