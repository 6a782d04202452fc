import Subcontexts.Scon.Table

/-! What the table holds at any point of a run, and which control blocks the fault handler reads. -/

namespace Subcontexts.Scon

/-- The maps not yet set are those of the creations in progress, the maps freed those of the
handles closed. -/
structure Lifecycle (s : State) : Prop where
  nodup : s.creating.Nodup
  notSet : ∀ h, (∃ l, s.table[h]? = some ⟨l, .notSet⟩) ↔ h ∈ s.creating
  freed : ∀ h, (∃ l, s.table[h]? = some ⟨l, .freed⟩) ↔ h ∈ s.closed

theorem Lifecycle.init {s : State} (h : s.init) : Lifecycle s := by
  obtain ⟨ht, -, -, hs, hc⟩ := h
  refine ⟨?_, fun h => ?_, fun h => ?_⟩ <;> simp [State.creating, ht, hs, hc]

section Steps
variable {s t : State}

theorem Lifecycle.create (L : Lifecycle s) {moved : Bool} (ht : step s (.create moved) = some t) :
    Lifecycle t := by
  obtain rfl := Option.some.inj ht
  have hlast : ∀ h, (s.table ++ [⟨0, .notSet⟩])[h]? =
      if h = s.table.length then some ⟨0, .notSet⟩ else s.table[h]? := by
    intro h
    rw [List.getElem?_append]
    split
    · rw [if_neg (by omega)]
    · split
      · simp [*]
      · rw [List.getElem?_eq_none (by simp; omega), List.getElem?_eq_none (by omega)]
  have hfresh : s.table.length ∉ s.creating := by
    intro hmem
    obtain ⟨l, hl⟩ := (L.notSet _).mpr hmem
    simp at hl
  refine ⟨List.nodup_cons.mpr ⟨hfresh, L.nodup⟩, fun h => ?_, fun h => ?_⟩
  · change (∃ l, (s.table ++ [⟨0, .notSet⟩])[h]? = _) ↔ h ∈ s.table.length :: s.creating
    rw [hlast, List.mem_cons, ← L.notSet]
    split <;> simp_all
  · change (∃ l, (s.table ++ [⟨0, .notSet⟩])[h]? = _) ↔ h ∈ s.closed
    rw [hlast, ← L.freed]
    split
    · subst h
      simp
    · rfl

theorem step_opened {libhandle : Nat} {before after : List MapEntry}
    (ht : step s (.opened libhandle before after) = some t) :
    ∃ h stack, s.stack = .creating h s.gen :: stack ∧
      t = { s with
        table := s.table.set h ⟨libhandle, .live (mapDiff before after)⟩
        prot := mprotectMap (mapDiff before after) .none s.prot
        stack := stack } := by
  simp only [step] at ht
  split at ht
  · split at ht
    · obtain rfl := Option.some.inj ht
      rename_i h gen stack hs hg
      exact ⟨h, stack, hg.1 ▸ hs, rfl⟩
    · cases ht
  · cases ht

theorem Lifecycle.opened (L : Lifecycle s) {libhandle : Nat} {before after : List MapEntry}
    (ht : step s (.opened libhandle before after) = some t) : Lifecycle t := by
  obtain ⟨h, stack, hs, rfl⟩ := step_opened ht
  have hcr : s.creating = h :: State.creating { s with stack := stack } := by
    unfold State.creating
    rw [hs]
    rfl
  have hnd := L.nodup
  rw [hcr, List.nodup_cons] at hnd
  obtain ⟨l₀, hl₀⟩ := (L.notSet h).mpr (hcr ▸ List.mem_cons_self ..)
  refine ⟨hnd.2, fun k => ?_, fun k => ?_⟩
  · change (∃ l, (s.table.set h _)[k]? = _) ↔ k ∈ State.creating { s with stack := stack }
    rw [List.getElem?_set]
    split
    · subst k
      simp [hnd.1]
    · rw [L.notSet, hcr, List.mem_cons]
      simp [Ne.symm ‹h ≠ k›]
  · change (∃ l, (s.table.set h _)[k]? = _) ↔ k ∈ s.closed
    rw [List.getElem?_set]
    split
    · subst k
      rw [← L.freed, hl₀]
      simp
    · exact L.freed k

theorem step_close {h : Nat} (ht : step s (.close h) = some t) :
    ∃ es, s.entries h = some es ∧ t = { s with
      table := s.table.modify h fun c => { c with memmap := .freed }
      prot := mprotectMap es .rwx s.prot
      closed := h :: s.closed } := by
  simp only [step] at ht
  split at ht
  · exact ⟨_, ‹_›, (Option.some.inj ht).symm⟩
  · cases ht

theorem getElem?_freed {table : List Scb} {h l : Nat} {m : MemMap} (hl : table[h]? = some ⟨l, m⟩)
    (k : Nat) : (table.modify h fun c => { c with memmap := .freed })[k]? =
      if h = k then some ⟨l, .freed⟩ else table[k]? := by
  rw [List.getElem?_modify]
  split
  · subst k
    simp [hl]
  · cases table[k]? <;> rfl

theorem Lifecycle.close (L : Lifecycle s) {h : Nat} (ht : step s (.close h) = some t) :
    Lifecycle t := by
  obtain ⟨es, he, rfl⟩ := step_close ht
  obtain ⟨l₀, hl₀⟩ := entriesAt_eq_some.mp he
  have hget := getElem?_freed hl₀
  refine ⟨L.nodup, fun k => ?_, fun k => ?_⟩
  · change (∃ l, (s.table.modify h _)[k]? = _) ↔ k ∈ s.creating
    rw [hget, ← L.notSet]
    split
    · subst k
      simp [hl₀]
    · rfl
  · change (∃ l, (s.table.modify h _)[k]? = _) ↔ k ∈ h :: s.closed
    rw [hget, List.mem_cons, ← L.freed]
    split
    · simp [*]
    · simp [Ne.symm ‹h ≠ k›]

theorem step_call {h : Nat} (ht : step s (.call h) = some t) :
    (∃ es, s.entries h = some es) ∧ t = { s with stack := .calling h s.gen :: s.stack } := by
  simp only [step] at ht
  split at ht
  · exact ⟨⟨_, ‹_›⟩, (Option.some.inj ht).symm⟩
  · cases ht

theorem step_ret (ht : step s .ret = some t) :
    ∃ h es stack, s.stack = .calling h s.gen :: stack ∧ s.entries h = some es ∧
      t = { s with prot := mprotectMap es .none s.prot, stack := stack } := by
  simp only [step] at ht
  split at ht
  · split at ht
    · split at ht
      · rename_i h gen stack hs _ es he hg
        exact ⟨h, es, stack, hg ▸ hs, he, (Option.some.inj ht).symm⟩
      · cases ht
    · cases ht
  · cases ht

theorem step_fault {siErrno : Int} {addr : Nat} (ht : step s (.fault siErrno addr) = some t) :
    ∃ e, siErrno = 0 ∧ findEntry s.table addr = .granted e ∧
      t = { s with prot := mprotect e.startAddr e.length .rwx s.prot } := by
  simp only [step] at ht
  split at ht
  · rename_i e he
    unfold sigsegvHandler at he
    split at he
    · cases he
    · exact ⟨e, Decidable.of_not_not ‹_›, he, (Option.some.inj ht).symm⟩
  · cases ht

theorem step_remap {start len : Nat} {p : Prot} (ht : step s (.remap start len p) = some t) :
    s.foreign start len ∧ t = { s with prot := mprotect start len p s.prot } := by
  simp only [step] at ht
  split at ht
  · exact ⟨‹_›, (Option.some.inj ht).symm⟩
  · cases ht

theorem Lifecycle.step (L : Lifecycle s) {a : Action} (ht : step s a = some t) : Lifecycle t := by
  cases a with
  | create moved => exact L.create ht
  | opened libhandle before after => exact L.opened ht
  | close h => exact L.close ht
  | call h =>
    obtain ⟨-, rfl⟩ := step_call ht
    exact ⟨L.nodup, L.notSet, L.freed⟩
  | ret =>
    obtain ⟨h, es, stack, hs, -, rfl⟩ := step_ret ht
    have hcr : s.creating = State.creating { s with stack := stack } := by
      unfold State.creating
      rw [hs]
      rfl
    exact ⟨hcr ▸ L.nodup, fun k => (L.notSet k).trans (by rw [hcr]; rfl), L.freed⟩
  | fault siErrno addr =>
    obtain ⟨e, -, -, rfl⟩ := step_fault ht
    exact ⟨L.nodup, L.notSet, L.freed⟩
  | remap start len p =>
    obtain ⟨-, rfl⟩ := step_remap ht
    exact ⟨L.nodup, L.notSet, L.freed⟩

end Steps

theorem lifecycle_of_reachable {s : State} (h : Reachable s) : Lifecycle s :=
  Trans.Reach.inv (I := Lifecycle) (fun _ => Lifecycle.init) (fun _ _ _ L => L.step) h

theorem not_live_iff {scon : Scb} {table : List Scb} {addr : Nat} (hdead : ¬ scon.IsLive)
    (hm : scon ∈ searched (scon :: table) addr) :
    (∀ c ∈ searched (scon :: table) addr, c.IsLive) ↔
      ∀ (h : Nat) (c : Scb), (scon :: table)[h]? = some c → ¬ c.IsLive →
        ∃ k < h, ∃ (l : Nat) (es : List MapEntry), (scon :: table)[k]? = some ⟨l, .live es⟩ ∧
          ∃ e ∈ es, e.contains addr := by
  constructor
  · intro H
    exact absurd (H scon hm) hdead
  · intro H
    obtain ⟨k, hk, -⟩ := H 0 scon rfl hdead
    exact absurd hk (Nat.not_lt_zero k)

theorem searched_live_iff (table : List Scb) (addr : Nat) :
    (∀ c ∈ searched table addr, c.IsLive) ↔
      ∀ (h : Nat) (c : Scb), table[h]? = some c → ¬ c.IsLive →
        ∃ k < h, ∃ (l : Nat) (es : List MapEntry), table[k]? = some ⟨l, .live es⟩ ∧
          ∃ e ∈ es, e.contains addr := by
  induction table with
  | nil => simp [searched]
  | cons scon table ih =>
    obtain ⟨l, m⟩ := scon
    cases m with
    | live es =>
      by_cases hc : ∃ curr ∈ es, curr.contains addr
      · have hs : searched (⟨l, .live es⟩ :: table) addr = [⟨l, .live es⟩] := by
          simp only [searched, if_pos hc]
        rw [hs]
        refine ⟨fun _ h c hh hd => ⟨0, ?_, l, es, rfl, hc⟩, fun _ c hm => ?_⟩
        · cases h with
          | zero =>
            obtain rfl := Option.some.inj hh
            exact absurd ⟨es, rfl⟩ hd
          | succ h => exact Nat.succ_pos h
        · obtain rfl := List.mem_singleton.mp hm
          exact ⟨es, rfl⟩
      · have hs : searched (⟨l, .live es⟩ :: table) addr =
            ⟨l, .live es⟩ :: searched table addr := by
          simp only [searched, if_neg hc]
        have hlive : Scb.IsLive ⟨l, .live es⟩ := ⟨es, rfl⟩
        rw [hs, List.forall_mem_cons, and_iff_right hlive, ih]
        constructor
        · intro H h c hh hd
          cases h with
          | zero =>
            obtain rfl := Option.some.inj hh
            exact absurd hlive hd
          | succ h =>
            obtain ⟨k, hk, l', es', hg, he⟩ := H h c hh hd
            exact ⟨k + 1, Nat.succ_lt_succ hk, l', es', hg, he⟩
        · intro H h c hh hd
          obtain ⟨k, hk, l', es', hg, he⟩ := H (h + 1) c hh hd
          cases k with
          | zero =>
            cases hg
            exact absurd he hc
          | succ k => exact ⟨k, Nat.lt_of_succ_lt_succ hk, l', es', hg, he⟩
    | notSet => exact not_live_iff (by rintro ⟨es, ⟨⟩⟩) (by simp [searched])
    | freed => exact not_live_iff (by rintro ⟨es, ⟨⟩⟩) (by simp [searched])

theorem Lifecycle.dead_iff {s : State} (L : Lifecycle s) (h : Nat) :
    (∃ c, s.table[h]? = some c ∧ ¬ c.IsLive) ↔ h ∈ s.creating ∨ h ∈ s.closed := by
  rw [← L.notSet, ← L.freed]
  constructor
  · rintro ⟨⟨l, m⟩, hc, hd⟩
    cases m with
    | notSet => exact .inl ⟨l, hc⟩
    | live es => exact absurd ⟨es, rfl⟩ hd
    | freed => exact .inr ⟨l, hc⟩
  · rintro (⟨l, hl⟩ | ⟨l, hl⟩)
    · exact ⟨_, hl, by rintro ⟨es, ⟨⟩⟩⟩
    · exact ⟨_, hl, by rintro ⟨es, ⟨⟩⟩⟩

def Recorded (s : State) (h a : Nat) : Prop :=
  ∃ es, s.entries h = some es ∧ ∃ e ∈ es, e.contains a

/-- At any point of any run, a fault is resolved from live maps only iff each handle that is being
created or was closed comes after an open one that records the address. -/
theorem handler_reads_live_iff {s : State} (h : Reachable s) (siErrno : Int) (addr : Nat) :
    (∀ c ∈ examined siErrno addr s.table, c.IsLive) ↔
      siErrno ≠ 0 ∨ ∀ h, h ∈ s.creating ∨ h ∈ s.closed → ∃ k < h, Recorded s k addr := by
  have L := lifecycle_of_reachable h
  unfold examined
  split
  · simp [*]
  · rw [searched_live_iff, or_iff_right ‹_›]
    constructor
    · intro H h hh
      obtain ⟨c, hc, hd⟩ := (L.dead_iff h).mpr hh
      obtain ⟨k, hk, l, es, hg, he⟩ := H h c hc hd
      exact ⟨k, hk, es, entriesAt_eq_some.mpr ⟨l, hg⟩, he⟩
    · intro H h c hc hd
      obtain ⟨k, hk, es, hg, he⟩ := H h ((L.dead_iff h).mp ⟨c, hc, hd⟩)
      obtain ⟨l, hl⟩ := entriesAt_eq_some.mp hg
      exact ⟨k, hk, l, es, hl, he⟩

def emptyState : State := ⟨[], 10, 0, fun _ => .rwx, [], []⟩

def pageA : MapEntry := ⟨4096, 8192⟩

def pageB : MapEntry := ⟨8192, 12288⟩

def createBoth : List Action :=
  [.create false, .opened 1 [] [pageA], .create false, .opened 2 [pageA] [pageA, pageB]]

theorem reachable_of_exec {as : List Action} {s : State}
    (h : Trans.exec step as emptyState = some s) : Reachable s :=
  .of_exec (.init ⟨rfl, rfl, rfl, rfl, rfl⟩) h

theorem handler_reads_live_both_open : ∃ s, Reachable s ∧ s.table.length = 2 ∧
    ∀ c ∈ examined 0 8192 s.table, c.IsLive := by
  obtain ⟨s, hs⟩ : ∃ s, Trans.exec step createBoth emptyState = some s := ⟨_, rfl⟩
  have hr := reachable_of_exec hs
  obtain rfl := Option.some.inj hs
  refine ⟨_, hr, rfl, (handler_reads_live_iff hr 0 8192).mpr (.inr fun h hh => ?_)⟩
  rcases hh with hh | hh <;> cases hh

/-- The first subcontext is closed, then a page of the second one is touched. -/
theorem handler_reads_freed : ¬ ∀ s, Reachable s → ∀ (siErrno : Int) (addr : Nat),
    ∀ c ∈ examined siErrno addr s.table, c.IsLive := by
  intro H
  obtain ⟨s, hs⟩ : ∃ s, Trans.exec step (createBoth ++ [.close 0]) emptyState = some s := ⟨_, rfl⟩
  have hr := reachable_of_exec hs
  obtain rfl := Option.some.inj hs
  obtain ⟨es, he⟩ := H _ hr 0 8192 ⟨1, .freed⟩ (by decide)
  cases he

end Subcontexts.Scon
